/-
The content filter (`sap-automate-ingest/src/fit_markdown.rs`): the blocks
of a body that a blank line parts, without those that are too short, or
that have nothing to do with a topic by their BM25 score.

Scores are computed with exactly, in a field `K`; `ln` and the classes of
characters are those of the standard library.
-/
import SapAutomate.Ingest.Chunker
import SapAutomate.Kb.Search

namespace SapAutomate.Ingest

open Kb

variable {K : Type}

/-- `FitConfig`. -/
structure FitConfig (K : Type) where
  k1 : K
  b : K
  minScore : K
  minBlockChars : Nat
  keepBlockChars : Nat

/-- `FitConfig::default`. -/
def FitConfig.default [Field K] : FitConfig K :=
  ⟨ratio 3 2, ratio 3 4, 0, 40, 600⟩

/-- `FitStats`. -/
structure FitStats where
  blocksIn : Nat
  blocksOut : Nat
  charsIn : Nat
  charsOut : Nat
  deriving DecidableEq

/-- `str::split("\n\n")`; `piece` is what has come since the last one. -/
def splitBlank (piece : List Char) : List Char → List (List Char)
  | [] => [piece]
  | '\n' :: '\n' :: cs => piece :: splitBlank [] cs
  | c :: cs => splitBlank (piece ++ [c]) cs

/-- The blocks of a body. -/
def blocksOf (body : List Char) : List (List Char) :=
  ((splitBlank [] body).map trim).filter fun b => b ≠ []

/-- `join("\n\n")`. -/
def joinBlocks : List (List Char) → List Char
  | [] => []
  | [b] => b
  | b :: b' :: bs => b ++ '\n' :: '\n' :: joinBlocks (b' :: bs)

/-- `tokens`: as the store's `tokenize`. -/
def tokens (isAlphanumeric : Char → Bool) (text : List Char) : List String :=
  tokenize isAlphanumeric (String.ofList text)

variable [Field K] [LinearOrder K]

/-- The score of a block, of these tokens. -/
def blockScore (ln : K → K) (docs : List (List String)) (avgDl : K)
    (queryTerms : List String) (k1 b : K) (doc : List String) : K :=
  queryTerms.foldl (fun score term =>
    let f : K := doc.count term
    if f = 0 then score
    else
      let df : K := (docs.filter fun d => d.contains term).length
      let idf := ln ((docs.length - df + ratio 1 2) / (df + ratio 1 2) + 1)
      let denom := f + k1 * (1 - b + b * doc.length / avgDl)
      score + idf * (f * (k1 + 1)) / denom) 0

/-- `bm25_score`. -/
def bm25Scores (ln : K → K) (isAlphanumeric : Char → Bool)
    (blocks : List (List Char)) (queryTerms : List String) (k1 b : K) : List K :=
  let n := blocks.length
  if n = 0 ∨ queryTerms.isEmpty then List.replicate n 0
  else
    let docs := blocks.map (tokens isAlphanumeric)
    let avgDl : K := ((docs.map List.length).sum : Nat) / n
    if avgDl = 0 then List.replicate n 0
    else docs.map (blockScore ln docs avgDl queryTerms k1 b)

/-- Whether a block of this score is kept. -/
def FitConfig.keeps (cfg : FitConfig K) (block : List Char) (score : K) : Bool :=
  if cfg.keepBlockChars ≤ byteLen block then true
  else if byteLen block < cfg.minBlockChars then false
  else decide (cfg.minScore ≤ score) && decide (0 < score)

/-- `fit_markdown_filter`. -/
def fitMarkdownFilter (ln : K → K) (isAlphanumeric : Char → Bool)
    (body topic : List Char) (cfg : FitConfig K) : List Char × FitStats :=
  let blocks := blocksOf body
  let charsIn := byteLen body
  if blocks.isEmpty then ([], ⟨0, 0, charsIn, 0⟩)
  else
    let scored := bm25Scores ln isAlphanumeric blocks
      (tokens isAlphanumeric topic) cfg.k1 cfg.b
    let kept := ((blocks.zip scored).filter fun e =>
      cfg.keeps e.1 e.2).map Prod.fst
    let out := joinBlocks kept
    (out, ⟨blocks.length, kept.length, charsIn, byteLen out⟩)

end SapAutomate.Ingest
