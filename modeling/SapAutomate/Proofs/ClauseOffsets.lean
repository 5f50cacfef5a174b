/-
Where a where clause is cut. `LIKE` is found in the upper-cased copy just
where it first stands in the clause (`find_operator`), but the position is
that of the copy: it is that of the clause when upper-casing leaves the
byte length of what stands before as it is (`clauseRight_iff`).
-/
import SapAutomate.Rfc.Conditions
import SapAutomate.Proofs.ChunkWindows

namespace SapAutomate.Rfc

open Ingest

/-- The first `LIKE` of a clause, in upper or lower case: what stands before
it, it, and what stands after. -/
structure Operator (u : Uppercase) (t p m q : List Char) : Prop where
  split : t = p ++ (m ++ q)
  reads : u.apply m = likeOp
  first : ∀ p' m' q', t = p' ++ (m' ++ q') → u.apply m' = likeOp →
    p.length ≤ p'.length

/-- A condition is the trimmed parts of a clause on either side of its
operator, the value without its quotes. -/
def Parts (u : Uppercase) (s : List Char) (c : Condition) : Prop :=
  (∃ p m q, Operator u (Ingest.trim s) p m q
      ∧ c = ⟨Ingest.trim p, "LIKE", literal q⟩)
    ∨ (¬ ∃ p m q, Operator u (Ingest.trim s) p m q)
      ∧ ∃ p q, Ingest.trim s = p ++ '=' :: q ∧ '=' ∉ p
        ∧ c = ⟨Ingest.trim p, "=", literal q⟩

/-- A clause is parsed without a panic, from the parts around its operator,
and the position used for `LIKE` is where that stands in the clause. -/
def ClauseRight (u : Uppercase) (s : List Char) : Prop :=
  (∃ r, parseClause u s = some r ∧ ∀ c, r = .ok c → Parts u s c)
    ∧ ∀ p m q, Operator u (Ingest.trim s) p m q →
        findStr likeOp (u.apply (Ingest.trim s)) = some (byteLen p)

/-- A clause with an operator. -/
def Supported (u : Uppercase) (s : List Char) : Prop :=
  (∃ p m q, Operator u (Ingest.trim s) p m q) ∨ '=' ∈ Ingest.trim s

/-- A clause that is parsed: those before it have an operator. -/
def Parsed (u : Uppercase) (raw : List (List Char)) (s : List Char) : Prop :=
  ∃ before after, raw = before ++ s :: after ∧ ∀ s' ∈ before, Supported u s'

/-- Clauses are parsed without a panic, and each into its parts. -/
def ParsesRight (u : Uppercase) (raw : List (List Char)) : Prop :=
  (∃ r, parseConditions u raw = some r
      ∧ ∀ conds, r = .ok conds → List.Forall₂ (Parts u) raw conds)
    ∧ ∀ s, Parsed u raw s → ClauseRight u s

-- =========================================================== finding

/-- What is found stands there, and nowhere before. -/
theorem findStr_some {pat s : List Char} {n : Nat}
    (h : findStr pat s = some n) :
    ∃ p q, s = p ++ (pat ++ q) ∧ byteLen p = n
      ∧ ∀ p' q', s = p' ++ (pat ++ q') → p.length ≤ p'.length := by
  induction s generalizing n with
  | nil =>
      rw [findStr] at h
      split at h
      · next hpat =>
        cases h
        exact ⟨[], [], by rw [hpat]; rfl, rfl, fun _ _ _ => Nat.zero_le _⟩
      · cases h
  | cons c s ih =>
      rw [findStr] at h
      split at h
      · next hpre =>
        cases h
        obtain ⟨q, hq⟩ := List.isPrefixOf_iff_prefix.mp hpre
        exact ⟨[], q, hq.symm, rfl, fun _ _ _ => Nat.zero_le _⟩
      · next hpre =>
        obtain ⟨m, hm, rfl⟩ := Option.map_eq_some_iff.mp h
        obtain ⟨p, q, rfl, rfl, hmin⟩ := ih hm
        refine ⟨c :: p, q, rfl, byteLen_cons c p, fun p' q' heq => ?_⟩
        cases p' with
        | nil =>
            exact absurd (List.isPrefixOf_iff_prefix.mpr ⟨q', heq.symm⟩) hpre
        | cons d p' =>
            exact Nat.succ_le_succ (hmin p' q' (List.cons.inj heq).2)

/-- What is not found does not stand there. -/
theorem findStr_none {pat s : List Char} (hpat : pat ≠ [])
    (h : findStr pat s = none) (p q : List Char) : s ≠ p ++ (pat ++ q) := by
  induction s generalizing p with
  | nil =>
      intro heq
      exact hpat (List.append_eq_nil_iff.mp
        (List.append_eq_nil_iff.mp heq.symm).2).1
  | cons c s ih =>
      rw [findStr] at h
      split at h
      · cases h
      · next hpre =>
        intro heq
        cases p with
        | nil =>
            exact hpre (List.isPrefixOf_iff_prefix.mpr ⟨q, heq.symm⟩)
        | cons d p =>
            exact ih (Option.map_eq_none_iff.mp h) p (List.cons.inj heq).2

-- ======================================================== upper-casing

variable (u : Uppercase)

namespace Uppercase

theorem apply_cons (c : Char) (s : List Char) :
    u.apply (c :: s) = u.map c ++ u.apply s := List.flatMap_cons ..

theorem apply_append (s t : List Char) :
    u.apply (s ++ t) = u.apply s ++ u.apply t := List.flatMap_append ..

variable {u}

theorem apply_eq_nil {s : List Char} (h : u.apply s = []) : s = [] := by
  cases s with
  | nil => rfl
  | cons c s =>
      rw [apply_cons] at h
      exact absurd (List.append_eq_nil_iff.mp h).1 (u.ne_nil c)

/-- A blank of the copy is one of the text. -/
theorem apply_blank {t p r : List Char} (h : u.apply t = p ++ ' ' :: r) :
    ∃ p' r', t = p' ++ ' ' :: r' ∧ u.apply p' = p ∧ u.apply r' = r := by
  induction t generalizing p with
  | nil => exact absurd h.symm (by simp [apply])
  | cons c t ih =>
      rw [apply_cons] at h
      rcases List.append_eq_append_iff.mp h with ⟨z, rfl, hz⟩ | ⟨z, hc, hz⟩
      · obtain ⟨p', r', rfl, rfl, rfl⟩ := ih hz
        exact ⟨c :: p', r', rfl, apply_cons u c p', rfl⟩
      · cases z with
        | nil =>
            obtain ⟨p', r', rfl, hp', rfl⟩ := ih (p := []) hz.symm
            refine ⟨c :: p', r', rfl, ?_, rfl⟩
            rw [apply_cons, hp', hc, List.append_nil, List.append_nil]
        | cons b z =>
            -- the blank is made of this character
            obtain ⟨rfl, hr⟩ := List.cons.inj hz
            have hblank : c = ' ' := u.blank_only c (by rw [hc]; simp)
            subst hblank
            rw [u.blank] at hc
            cases p with
            | nil =>
                have hznil : z = [] := (List.cons.inj hc).2.symm
                subst hznil
                exact ⟨[], t, rfl, rfl, hr.symm⟩
            | cons d p =>
                exact absurd (List.cons.inj hc).2 (by simp)

/-- `LIKE` is written with a blank, a word and a blank. -/
theorem reads_word {m : List Char} (h : u.apply m = likeOp) :
    ∃ w, m = ' ' :: (w ++ [' ']) ∧ u.apply w = ['L', 'I', 'K', 'E'] := by
  obtain ⟨p, r, rfl, hp, hr⟩ := apply_blank (p := []) h
  obtain ⟨w, q, rfl, hw, hq⟩ :=
    apply_blank (p := ['L', 'I', 'K', 'E']) (r := []) hr
  rw [apply_eq_nil hp, apply_eq_nil hq]
  exact ⟨w, rfl, hw⟩

/-- What is found in the copy stands in the text. -/
theorem apply_likeOp {t p q : List Char}
    (h : u.apply t = p ++ (likeOp ++ q)) :
    ∃ p' m q', t = p' ++ (m ++ q') ∧ u.apply p' = p
      ∧ u.apply m = likeOp ∧ u.apply q' = q := by
  obtain ⟨p', r, rfl, hp, hr⟩ := apply_blank (p := p) h
  obtain ⟨w, q', rfl, hw, hq⟩ :=
    apply_blank (p := ['L', 'I', 'K', 'E']) (r := q) hr
  refine ⟨p', ' ' :: (w ++ [' ']), q', by simp, hp, ?_, hq⟩
  rw [apply_cons, apply_append, hw, u.blank]
  exact congrArg (' ' :: 'L' :: 'I' :: 'K' :: 'E' :: ·)
    ((List.flatMap_singleton ..).trans u.blank)

/-- A letter of the word. -/
theorem word_cons {w r : List Char} {x : Char}
    (hr : ∀ y ∈ x :: r, y ∈ ['L', 'I', 'K', 'E'])
    (h : u.apply w = x :: r) :
    ∃ a w', w = a :: w' ∧ u.apply w' = r
      ∧ (a, [x]) ∈ [('l', ['L']), ('L', ['L']), ('i', ['I']), ('I', ['I']),
        ('ı', ['I']), ('k', ['K']), ('K', ['K']), ('e', ['E']),
        ('E', ['E'])] := by
  cases w with
  | nil => cases h
  | cons a w' =>
      rw [apply_cons] at h
      have hmem := u.letters a fun y hy =>
        hr y (h ▸ List.mem_append_left _ hy)
      have hsingle : ∃ y, u.map a = [y] := by
        simp only [List.mem_cons, Prod.mk.injEq, List.not_mem_nil,
          or_false] at hmem
        rcases hmem with h | h | h | h | h | h | h | h | h <;> exact ⟨_, h.2⟩
      obtain ⟨y, hy⟩ := hsingle
      rw [hy] at h hmem
      obtain ⟨rfl, hrest⟩ := List.cons.inj h
      exact ⟨a, w', rfl, hrest, hmem⟩

/-- The word has four bytes, or five with a dotless `ı`. -/
theorem word_bytes {w : List Char} (h : u.apply w = ['L', 'I', 'K', 'E']) :
    byteLen w = 4 ∨ byteLen w = 5 := by
  obtain ⟨a, w, rfl, h, ha⟩ := word_cons (by simp) h
  obtain ⟨b, w, rfl, h, hb⟩ := word_cons (by simp) h
  obtain ⟨c, w, rfl, h, hc⟩ := word_cons (by simp) h
  obtain ⟨d, w, rfl, h, hd⟩ := word_cons (by simp) h
  rw [apply_eq_nil h]
  have ha' : a.utf8Size = 1 := by
    have : a = 'l' ∨ a = 'L' := by simpa using ha
    rcases this with rfl | rfl <;> rfl
  have hb' : b.utf8Size = 1 ∨ b.utf8Size = 2 := by
    have : b = 'i' ∨ b = 'I' ∨ b = 'ı' := by simpa using hb
    rcases this with rfl | rfl | rfl
    · exact .inl rfl
    · exact .inl rfl
    · exact .inr rfl
  have hc' : c.utf8Size = 1 := by
    have : c = 'k' ∨ c = 'K' := by simpa using hc
    rcases this with rfl | rfl <;> rfl
  have hd' : d.utf8Size = 1 := by
    have : d = 'e' ∨ d = 'E' := by simpa using hd
    rcases this with rfl | rfl <;> rfl
  simp only [byteLen_cons, ha', hc', hd']
  rcases hb' with hb' | hb'
  · exact .inl (by rw [hb']; rfl)
  · exact .inr (by rw [hb']; rfl)

end Uppercase

variable {u}

/-- What is found in the copy of a clause is its operator. -/
theorem find_operator {t : List Char} {n : Nat}
    (h : findStr likeOp (u.apply t) = some n) :
    ∃ p m q, Operator u t p m q ∧ byteLen (u.apply p) = n := by
  obtain ⟨p, q, hsplit, hlen, hmin⟩ := findStr_some h
  obtain ⟨p', m, q', rfl, rfl, hm, rfl⟩ := Uppercase.apply_likeOp hsplit
  refine ⟨p', m, q', ⟨rfl, hm, fun p₂ m₂ q₂ heq hm₂ => ?_⟩, hlen⟩
  by_contra hlt
  -- the other one would stand further to the front in the copy
  have hcopy : u.apply (p' ++ (m ++ q'))
      = u.apply p₂ ++ (likeOp ++ u.apply q₂) := by
    rw [heq, Uppercase.apply_append, Uppercase.apply_append, hm₂]
  have hle := hmin _ _ hcopy
  rcases List.append_eq_append_iff.mp heq with ⟨z, hz, -⟩ | ⟨z, hz, -⟩
  · rw [hz, List.length_append] at hlt
    omega
  · cases z with
    | nil =>
        rw [hz, List.append_nil] at hlt
        omega
    | cons c z =>
        rw [hz, Uppercase.apply_append, List.length_append,
          Uppercase.apply_cons, List.length_append] at hle
        have hpos := List.length_pos_of_ne_nil (u.ne_nil c)
        omega

/-- Without a find there is no operator. -/
theorem no_operator {t : List Char}
    (h : findStr likeOp (u.apply t) = none) (p m q : List Char) :
    ¬ Operator u t p m q := by
  rintro ⟨rfl, hm, -⟩
  refine findStr_none (by decide) h (u.apply p) (u.apply q) ?_
  rw [Uppercase.apply_append, Uppercase.apply_append, hm]

/-- A clause has one first operator, and it is what is found. -/
theorem Operator.find {t p m q : List Char} (h : Operator u t p m q) :
    findStr likeOp (u.apply t) = some (byteLen (u.apply p)) := by
  cases hfind : findStr likeOp (u.apply t) with
  | none => exact absurd h (no_operator hfind p m q)
  | some n =>
      obtain ⟨p', m', q', h', rfl⟩ := find_operator hfind
      have hlen : p.length = p'.length :=
        Nat.le_antisymm (h.first p' m' q' h'.split h'.reads)
          (h'.first p m q h.split h.reads)
      have heq : p = p' :=
        (List.append_inj (h.split.symm.trans h'.split) hlen).1
      rw [heq]

-- ============================================================ cutting

/-- A slice at the ends of parts. -/
theorem slice_parts (p w q : List Char) :
    slice (p ++ (w ++ q)) (byteLen p) (byteLen p + byteLen w) = some w := by
  have hend : AtEnd (p ++ (w ++ q)) (byteLen p + byteLen w) :=
    ⟨p ++ w, q, (List.append_assoc ..).symm, byteLen_append p w⟩
  rw [slice, if_pos ⟨Nat.le_add_right _ _,
    (isCharBoundary_iff _ _).mpr ⟨p, _, rfl, rfl⟩,
    (isCharBoundary_iff _ _).mpr hend⟩, Nat.add_sub_cancel_left,
    dropBytes_append, takeBytes_append]

/-- A clause cut at the ends of parts. -/
theorem cutAt_parts (p m q : List Char) (op : String) :
    cutAt (p ++ (m ++ q)) op (byteLen p) (byteLen m)
      = some ⟨Ingest.trim p, op, literal q⟩ := by
  have hfront : slice (p ++ (m ++ q)) 0 (byteLen p) = some p := by
    have h := slice_parts [] p (m ++ q)
    rw [byteLen, List.map_nil, List.sum_nil, Nat.zero_add] at h
    exact h
  have hback : slice (p ++ (m ++ q)) (byteLen p + byteLen m)
      (byteLen (p ++ (m ++ q))) = some q := by
    have h := slice_parts (p ++ m) q []
    rw [List.append_nil, byteLen_append, List.append_assoc] at h
    rw [byteLen_append, byteLen_append, ← Nat.add_assoc]
    exact h
  unfold cutAt
  rw [hfront, Option.bind_some, hback, Option.map_some]

/-- A blank before a literal does not matter. -/
theorem literal_blank (s : List Char) : literal (' ' :: s) = literal s := by
  have hpad := Text.trimBy_pad (p := Text.isWhitespace) (l := [' ']) (r := [])
    s (List.forall_mem_singleton.mpr rfl) (List.forall_mem_nil _)
  rw [List.append_nil] at hpad
  exact congrArg (Text.trimBy (· == '\'')) hpad

/-- A clause cut where its operator stands. -/
theorem Operator.cut {t p m q : List Char} (h : Operator u t p m q) :
    cutAt t "LIKE" (byteLen p) 6 = some ⟨Ingest.trim p, "LIKE", literal q⟩ := by
  obtain ⟨w, rfl, hw⟩ := Uppercase.reads_word h.reads
  have hblank : byteLen [' '] = 1 := rfl
  rcases Uppercase.word_bytes hw with hbytes | hbytes
  · have hlen : byteLen (' ' :: (w ++ [' '])) = 6 := by
      rw [byteLen_cons, byteLen_append, hbytes, hblank]
      rfl
    rw [h.split, ← hlen]
    exact cutAt_parts p _ q "LIKE"
  · -- the last blank is left to the value, and trimmed there
    have hlen : byteLen (' ' :: w) = 6 := by
      rw [byteLen_cons, hbytes]
      rfl
    have hsplit : t = p ++ ((' ' :: w) ++ (' ' :: q)) := by
      rw [h.split]
      simp
    rw [hsplit, ← hlen, cutAt_parts, literal_blank]

/-- A clause with `LIKE` is cut there. -/
theorem Operator.parse {s p m q : List Char}
    (h : Operator u (Ingest.trim s) p m q) :
    parseClause u s
      = (cutAt (Ingest.trim s) "LIKE" (byteLen (u.apply p)) 6).map .ok := by
  unfold parseClause
  simp only [h.find]

/-- Where the equals sign is found. -/
theorem find_eq {t : List Char} {n : Nat} (h : findStr ['='] t = some n) :
    ∃ p q, t = p ++ '=' :: q ∧ '=' ∉ p ∧ byteLen p = n := by
  obtain ⟨p, q, rfl, hlen, hmin⟩ := findStr_some h
  refine ⟨p, q, rfl, fun hmem => ?_, hlen⟩
  obtain ⟨p₁, p₂, rfl⟩ := List.append_of_mem hmem
  have hle := hmin p₁ (p₂ ++ '=' :: q) (by simp)
  rw [List.length_append, List.length_cons] at hle
  omega

/-- A clause without `LIKE` is cut at its first equals sign. -/
theorem parseClause_eq {s : List Char}
    (hnone : findStr likeOp (u.apply (Ingest.trim s)) = none) :
    ∃ r, parseClause u s = some r ∧ (∀ c, r = .ok c → Parts u s c)
      ∧ ((∃ c, r = .ok c) → '=' ∈ Ingest.trim s) := by
  unfold parseClause
  simp only [hnone]
  have hno : ¬ ∃ p m q, Operator u (Ingest.trim s) p m q := by
    rintro ⟨p, m, q, h⟩
    exact no_operator hnone p m q h
  cases hfind : findStr ['='] (Ingest.trim s) with
  | some n =>
      obtain ⟨p, q, hsplit, heq, rfl⟩ := find_eq hfind
      have hcut : cutAt (Ingest.trim s) "=" (byteLen p) 1
          = some ⟨Ingest.trim p, "=", literal q⟩ := by
        rw [hsplit]
        exact cutAt_parts p ['='] q "="
      refine ⟨.ok ⟨Ingest.trim p, "=", literal q⟩, ?_, ?_, ?_⟩
      · show (cutAt _ "=" (byteLen p) 1).map Except.ok = _
        rw [hcut]
        rfl
      · rintro c ⟨⟩
        exact .inr ⟨hno, p, q, hsplit, heq, rfl⟩
      · rw [hsplit]
        simp
  | none =>
      refine ⟨.error (unsupportedClause s), rfl, ?_, ?_⟩
      · intro c hc
        cases hc
      · rintro ⟨c, hc⟩
        cases hc

/-- A clause is parsed right exactly when upper-casing leaves the byte
length of what stands before its `LIKE`. -/
theorem clauseRight_iff (s : List Char) :
    ClauseRight u s
      ↔ ∀ p m q, Operator u (Ingest.trim s) p m q →
          byteLen (u.apply p) = byteLen p := by
  constructor
  · intro h p m q hop
    exact Option.some.inj (hop.find.symm.trans (h.2 p m q hop))
  · intro h
    refine ⟨?_, fun p m q hop => by rw [hop.find, h p m q hop]⟩
    cases hfind : findStr likeOp (u.apply (Ingest.trim s)) with
    | none =>
        obtain ⟨r, hr, hparts, -⟩ := parseClause_eq hfind
        exact ⟨r, hr, hparts⟩
    | some n =>
        obtain ⟨p, m, q, hop, rfl⟩ := find_operator hfind
        refine ⟨.ok ⟨Ingest.trim p, "LIKE", literal q⟩, ?_, ?_⟩
        · rw [hop.parse, h p m q hop, hop.cut]
          rfl
        · rintro c ⟨⟩
          exact .inl ⟨p, m, q, hop, rfl⟩

/-- Only a clause with an operator is accepted. -/
theorem supported_of_accepted {s : List Char} {c : Condition}
    (h : parseClause u s = some (.ok c)) : Supported u s := by
  cases hfind : findStr likeOp (u.apply (Ingest.trim s)) with
  | some n =>
      obtain ⟨p, m, q, hop, -⟩ := find_operator hfind
      exact .inl ⟨p, m, q, hop⟩
  | none =>
      obtain ⟨r, hr, -, heq⟩ := parseClause_eq hfind
      rw [h, Option.some.injEq] at hr
      exact .inr (heq ⟨c, hr.symm⟩)

/-- Clauses that are each parsed right are parsed right together. -/
theorem parseConditions_right {raw : List (List Char)}
    (h : ∀ s, Parsed u raw s → ClauseRight u s) :
    ∃ r, parseConditions u raw = some r
      ∧ ∀ conds, r = .ok conds → List.Forall₂ (Parts u) raw conds := by
  induction raw with
  | nil =>
      refine ⟨.ok [], rfl, ?_⟩
      rintro conds ⟨⟩
      exact .nil
  | cons s raw ih =>
      obtain ⟨⟨r, hr, hparts⟩, -⟩ := h s ⟨[], raw, rfl, by simp⟩
      unfold parseConditions
      simp only [hr]
      cases r with
      | error e =>
          refine ⟨.error e, rfl, fun conds hc => ?_⟩
          cases hc
      | ok c =>
          have hs : Supported u s := supported_of_accepted hr
          obtain ⟨r', hr', hrest⟩ := ih fun s' ⟨before, after, hsplit, hall⟩ =>
            h s' ⟨s :: before, after, by rw [hsplit]; rfl,
              List.forall_mem_cons.mpr ⟨hs, hall⟩⟩
          refine ⟨r'.map (c :: ·), by rw [hr']; rfl, fun conds hc => ?_⟩
          cases r' with
          | error e => cases hc
          | ok rest =>
              cases hc
              exact .cons (hparts c rfl) (hrest rest rfl)

/-- Clauses are parsed right exactly when in each that is parsed,
upper-casing leaves the byte length of what stands before its `LIKE`. -/
theorem parsesRight_iff (u : Uppercase) (raw : List (List Char)) :
    ParsesRight u raw
      ↔ ∀ s, Parsed u raw s → ∀ p m q, Operator u (Ingest.trim s) p m q →
          byteLen (u.apply p) = byteLen p := by
  constructor
  · exact fun h s hs => (clauseRight_iff s).mp (h.2 s hs)
  · intro h
    have hclauses : ∀ s, Parsed u raw s → ClauseRight u s :=
      fun s hs => (clauseRight_iff s).mpr (h s hs)
    exact ⟨parseConditions_right hclauses, hclauses⟩

/-- Upper-casing of the letters of `LIKE` alone. -/
def likeUppercase : Uppercase where
  map c :=
    if c = 'l' then ['L'] else if c = 'i' ∨ c = 'ı' then ['I']
    else if c = 'k' then ['K'] else if c = 'e' then ['E'] else [c]
  ne_nil c := by
    split_ifs <;> exact List.cons_ne_nil _ _
  blank := by decide
  blank_only c := by
    split_ifs <;> simp [eq_comm]
  letters c := by
    split_ifs with hl hi hk he
    · intro
      simp [hl]
    · intro
      rcases hi with hi | hi <;> simp [hi]
    · intro
      simp [hk]
    · intro
      simp [he]
    · intro h
      have hmem := h c (List.mem_singleton_self c)
      simp only [List.mem_cons, List.not_mem_nil, or_false] at hmem
      rcases hmem with rfl | rfl | rfl | rfl <;> decide
  ascii c hc := by
    split_ifs
    · rfl
    · rfl
    · rfl
    · rfl
    · rw [byteLen, List.map_singleton, List.sum_singleton]
      exact Char.utf8Size_eq_one_iff.mpr
        (UInt32.le_iff_toNat_le.mpr (Nat.le_of_lt_succ hc))

/-- A dotless `ı` is one byte shorter in the copy, and the clause is cut in
the middle of it. -/
theorem dotless_panics :
    ¬ ParsesRight likeUppercase
      [['ı', ' ', 'L', 'I', 'K', 'E', ' ', '\'', 'X', '\'']] := by
  rintro ⟨⟨r, hr, -⟩, -⟩
  have hpanic : parseConditions likeUppercase
      [['ı', ' ', 'L', 'I', 'K', 'E', ' ', '\'', 'X', '\'']] = none := rfl
  rw [hpanic] at hr
  cases hr

end SapAutomate.Rfc
