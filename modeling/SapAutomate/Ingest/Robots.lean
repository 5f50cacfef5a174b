/-
Reading a robots.txt and asking it (`sap-automate-ingest/src/robots.rs`).

The groups are a `HashMap`: the one there is may list its entries in any
order, and it is gone through in that order. A crawl delay is in whole
milliseconds; reading it from a text is a parameter.
-/
import SapAutomate.Ingest.Chunker
import Mathlib.Data.List.AList

namespace SapAutomate.Ingest

/-- `Decision`. -/
inductive Decision
  | allowed
  | disallowed
  deriving DecidableEq

/-- `Group`. -/
structure Group where
  allow : List (List Char)
  disallow : List (List Char)
  crawlDelay : Option Nat
  deriving DecidableEq

/-- `Group::default`. -/
def Group.default : Group := ⟨[], [], none⟩

/-- `RobotsTxt`: the groups by their agents. -/
abbrev RobotsTxt := AList fun _ : List Char => Group

/-- `str::lines`; `line` is what has come of the one at hand. -/
def lines (line : List Char) : List Char → List (List Char)
  | [] => if line = [] then [] else [line]
  | '\n' :: cs =>
      (if line.getLast? = some '\r' then line.dropLast else line) :: lines [] cs
  | c :: cs => lines (line ++ [c]) cs

/-- `strip_comment`. -/
def stripComment (line : List Char) : List Char :=
  line.takeWhile fun c => c ≠ '#'

/-- `str::to_ascii_lowercase`. -/
def toAsciiLowercase (s : List Char) : List Char := s.map Char.toLower

/-- `str::split_once(':')`. -/
def splitOnce (line : List Char) : Option (List Char × List Char) :=
  match line.dropWhile fun c => c ≠ ':' with
  | [] => none
  | _ :: value => some (line.takeWhile fun c => c ≠ ':', value)

/-- The key and the value that a line has, if it has them. -/
def directive (line : List Char) : Option (List Char × List Char) :=
  let line := trim (stripComment line)
  if line = [] then none
  else (splitOnce line).map fun kv => (toAsciiLowercase (trim kv.1), trim kv.2)

def userAgentKey : List Char := "user-agent".toList
def allowKey : List Char := "allow".toList
def disallowKey : List Char := "disallow".toList
def crawlDelayKey : List Char := "crawl-delay".toList

/-- The agent that stands for any. -/
def star : List Char := ['*']

/-- What a line of rules does to a group. -/
def Group.addRule (readDelay : List Char → Option Nat) (key value : List Char)
    (g : Group) : Group :=
  if key = allowKey ∧ value ≠ [] then { g with allow := g.allow ++ [value] }
  else if key = disallowKey ∧ value ≠ [] then
    { g with disallow := g.disallow ++ [value] }
  else if key = crawlDelayKey then
    match readDelay value with
    | some delay => { g with crawlDelay := some delay }
    | none => g
  else g

/-- `*groups.entry(agent).or_default()`, changed. -/
def RobotsTxt.modify (groups : RobotsTxt) (agent : List Char)
    (f : Group → Group) : RobotsTxt :=
  groups.insert agent (f ((groups.lookup agent).getD .default))

/-- The variables of `RobotsTxt::parse`. -/
structure Parser where
  out : RobotsTxt
  currentAgents : List (List Char)
  justSawDirective : Bool

/-- What a key and a value do. -/
def Parser.read (readDelay : List Char → Option Nat) (p : Parser)
    (kv : List Char × List Char) : Parser :=
  if kv.1 = userAgentKey then
    { p with
      currentAgents := (if p.justSawDirective then [] else p.currentAgents)
        ++ [toAsciiLowercase kv.2]
      justSawDirective := false }
  else if kv.1 = allowKey ∨ kv.1 = disallowKey ∨ kv.1 = crawlDelayKey then
    { p with
      out := p.currentAgents.foldl (fun out agent =>
        out.modify agent (Group.addRule readDelay kv.1 kv.2)) p.out
      justSawDirective := true }
  else p

/-- `RobotsTxt::parse`. -/
def parse (readDelay : List Char → Option Nat) (body : List Char) : RobotsTxt :=
  (((lines [] body).filterMap directive).foldl (Parser.read readDelay)
    ⟨∅, [], false⟩).out

/-- The best agent so far, when the next is looked at. -/
def better (ua : List Char) (best : Option (Nat × Group))
    (e : Σ _ : List Char, Group) : Option (Nat × Group) :=
  if e.1 = star then best
  else if e.1.isPrefixOf ua = true ∧ ∀ b ∈ best, b.1 < byteLen e.1 then
    some (byteLen e.1, e.2)
  else best

/-- `matching_group`. -/
def RobotsTxt.matchingGroup (r : RobotsTxt) (userAgent : List Char) :
    Option Group :=
  let ua := toAsciiLowercase userAgent
  match r.lookup ua with
  | some g => some g
  | none =>
    match r.entries.foldl (better ua) none with
    | some (_, g) => some g
    | none => r.lookup star

/-- `crawl_delay`. -/
def RobotsTxt.crawlDelay (r : RobotsTxt) (userAgent : List Char) :
    Option Nat :=
  (r.matchingGroup userAgent).bind Group.crawlDelay

end SapAutomate.Ingest
