/-
The windows of the chunker (`sap-automate-ingest/src/chunker.rs`).

A window that is cut behind a sentence ends past its start, since that
search stops at a bound. The search for a blank does not: it goes back two
hundred bytes, and where it finds one before the start the slice is a
panic (`Backs`). Everywhere else a window is a slice between ends of
characters, and the next one starts in it or at its end.
-/
import SapAutomate.Ingest.Chunker

namespace SapAutomate.Ingest

open Text

-- =============================================================== bytes

/-- A position where a character ends, or the first one. -/
def AtEnd (s : List Char) (n : Nat) : Prop :=
  ∃ p q, s = p ++ q ∧ byteLen p = n

theorem byteLen_append (a b : List Char) :
    byteLen (a ++ b) = byteLen a + byteLen b := by
  rw [byteLen, List.map_append, List.sum_append]
  rfl

theorem byteLen_cons (c : Char) (s : List Char) :
    byteLen (c :: s) = c.utf8Size + byteLen s := by
  rw [byteLen, List.map_cons, List.sum_cons]
  rfl

/-- Of two beginnings of a text, the longer one has more bytes. -/
theorem prefix_length_iff {p q p' q' : List Char} (h : p ++ q = p' ++ q') :
    p.length ≤ p'.length ↔ byteLen p ≤ byteLen p' := by
  rcases List.append_eq_append_iff.mp h with ⟨z, rfl, -⟩ | ⟨z, rfl, -⟩
  · rw [byteLen_append, List.length_append]
    exact iff_of_true (Nat.le_add_right _ _) (Nat.le_add_right _ _)
  · rw [byteLen_append, List.length_append]
    cases z with
    | nil => exact iff_of_true (Nat.le_refl _) (Nat.le_refl _)
    | cons c z =>
        have hpos := c.utf8Size_pos
        rw [byteLen_cons, List.length_cons]
        exact iff_of_false (by omega) (by omega)

theorem atEnd_zero (s : List Char) : AtEnd s 0 := ⟨[], s, rfl, rfl⟩

theorem atEnd_byteLen (s : List Char) : AtEnd s (byteLen s) :=
  ⟨s, [], (List.append_nil s).symm, rfl⟩

theorem AtEnd.le {s : List Char} {n : Nat} (h : AtEnd s n) : n ≤ byteLen s := by
  obtain ⟨p, q, rfl, rfl⟩ := h
  rw [byteLen_append]
  exact Nat.le_add_right _ _

theorem AtEnd.cons {s : List Char} {n : Nat} (h : AtEnd s n) (c : Char) :
    AtEnd (c :: s) (c.utf8Size + n) := by
  obtain ⟨p, q, rfl, rfl⟩ := h
  exact ⟨c :: p, q, rfl, byteLen_cons c p⟩

theorem isCharBoundary_iff (s : List Char) (n : Nat) :
    isCharBoundary s n = true ↔ AtEnd s n := by
  induction s generalizing n with
  | nil =>
      cases n with
      | zero => exact iff_of_true rfl (atEnd_zero [])
      | succ n =>
          refine iff_of_false (by simp [isCharBoundary]) fun h => ?_
          exact absurd h.le (by simp [byteLen])
  | cons c s ih =>
      cases n with
      | zero => exact iff_of_true rfl (atEnd_zero _)
      | succ n =>
          have hpos := c.utf8Size_pos
          rw [isCharBoundary, Bool.and_eq_true, decide_eq_true_iff, ih]
          constructor
          · rintro ⟨hle, hend⟩
            have hcons := hend.cons c
            rwa [Nat.add_sub_cancel' hle] at hcons
          · rintro ⟨p, q, heq, hlen⟩
            cases p with
            | nil => cases hlen
            | cons d p =>
                obtain ⟨rfl, rfl⟩ := List.cons.inj heq
                rw [byteLen_cons] at hlen
                exact ⟨by omega, p, q, rfl, by omega⟩

theorem dropBytes_append (p q : List Char) :
    dropBytes (p ++ q) (byteLen p) = q := by
  induction p with
  | nil =>
      cases q <;> rfl
  | cons c p ih =>
      have hpos := c.utf8Size_pos
      rw [byteLen_cons, List.cons_append]
      obtain ⟨n, hn⟩ : ∃ n, c.utf8Size + byteLen p = n + 1 :=
        ⟨c.utf8Size + byteLen p - 1, by omega⟩
      have hrest : n + 1 - c.utf8Size = byteLen p := by omega
      rw [hn, dropBytes, hrest, ih]

theorem takeBytes_append (p q : List Char) :
    takeBytes (p ++ q) (byteLen p) = p := by
  induction p with
  | nil =>
      cases q <;> rfl
  | cons c p ih =>
      have hpos := c.utf8Size_pos
      rw [byteLen_cons, List.cons_append]
      obtain ⟨n, hn⟩ : ∃ n, c.utf8Size + byteLen p = n + 1 :=
        ⟨c.utf8Size + byteLen p - 1, by omega⟩
      have hrest : n + 1 - c.utf8Size = byteLen p := by omega
      rw [hn, takeBytes, hrest, ih]

/-- A slice between two ends. -/
theorem slice_some {s : List Char} {a b : Nat} (ha : AtEnd s a)
    (hb : AtEnd s b) (hle : a ≤ b) :
    ∃ p w q, s = p ++ (w ++ q) ∧ byteLen p = a ∧ byteLen w = b - a
      ∧ slice s a b = some w := by
  obtain ⟨p, q, hs, rfl⟩ := ha
  obtain ⟨p', q', hs', rfl⟩ := id hb
  have hsplit : ∃ w r, q = w ++ r ∧ byteLen w = byteLen p' - byteLen p := by
    rw [hs] at hs'
    rcases List.append_eq_append_iff.mp hs' with ⟨w, rfl, rfl⟩ | ⟨w, rfl, rfl⟩
    · refine ⟨w, q', rfl, ?_⟩
      rw [byteLen_append]
      omega
    · rw [byteLen_append] at hle ⊢
      exact ⟨[], q, rfl, by rw [byteLen]; simp⟩
  obtain ⟨w, r, rfl, hw⟩ := hsplit
  refine ⟨p, w, r, hs, rfl, hw, ?_⟩
  rw [slice, if_pos ⟨hle, (isCharBoundary_iff _ _).mpr ⟨p, _, hs, rfl⟩,
    (isCharBoundary_iff _ _).mpr hb⟩, ← hw, hs, dropBytes_append,
    takeBytes_append]

theorem slice_none {s : List Char} {a b : Nat} (h : b < a) :
    slice s a b = none := by
  rw [slice, if_neg fun hle => absurd hle.1 (Nat.not_le.mpr h)]

theorem ofNat_high {n : Nat} (h : 128 ≤ n) (h' : n < 256) :
    128 ≤ (UInt8.ofNat n).toNat := by
  rw [UInt8.toNat_ofNat']
  omega

/-- A byte of a character that is not beyond ASCII is all of it. -/
theorem utf8Size_of_byte {c : Char} {b : UInt8}
    (hb : b ∈ String.utf8EncodeChar c) (hlt : b.toNat < 128) :
    c.utf8Size = 1 := by
  rw [← String.length_utf8EncodeChar]
  unfold String.utf8EncodeChar at hb ⊢
  dsimp only at hb ⊢
  by_cases hsmall : c.val.toNat ≤ 127
  · rw [if_pos hsmall]
    rfl
  · rw [if_neg hsmall] at hb
    refine absurd hlt (Nat.not_lt.mpr ?_)
    split at hb
    · simp only [List.mem_cons, List.not_mem_nil, or_false] at hb
      rcases hb with rfl | rfl <;> exact ofNat_high (by omega) (by omega)
    · split at hb
      · simp only [List.mem_cons, List.not_mem_nil, or_false] at hb
        rcases hb with rfl | rfl | rfl <;>
          exact ofNat_high (by omega) (by omega)
      · simp only [List.mem_cons, List.not_mem_nil, or_false] at hb
        rcases hb with rfl | rfl | rfl | rfl <;>
          exact ofNat_high (by omega) (by omega)

theorem length_asBytes (s : List Char) : (asBytes s).length = byteLen s := by
  induction s with
  | nil => rfl
  | cons c s ih =>
      rw [asBytes, List.flatMap_cons, List.length_append,
        String.length_utf8EncodeChar, byteLen_cons, ← ih]
      rfl

/-- Behind such a byte a character ends. -/
theorem atEnd_of_byte {s : List Char} {i : Nat} (hi : i < byteLen s)
    (h : ((asBytes s).getD i 0).toNat < 128) : AtEnd s (i + 1) := by
  induction s generalizing i with
  | nil => cases hi
  | cons c s ih =>
      have hbytes : asBytes (c :: s) = String.utf8EncodeChar c ++ asBytes s := rfl
      have hlen := String.length_utf8EncodeChar c
      rw [byteLen_cons] at hi
      rw [hbytes, List.getD_eq_getElem?_getD] at h
      rcases Nat.lt_or_ge i c.utf8Size with hin | hout
      · have hget : i < (String.utf8EncodeChar c).length := by omega
        rw [List.getElem?_append_left hget, List.getElem?_eq_getElem hget,
          Option.getD_some] at h
        have hone := utf8Size_of_byte (List.getElem_mem hget) h
        have hzero : i = 0 := by omega
        subst hzero
        have hcons := (atEnd_zero s).cons c
        rwa [hone] at hcons
      · rw [List.getElem?_append_right (by omega), hlen,
          ← List.getD_eq_getElem?_getD] at h
        have hcons := (ih (by omega) h).cons c
        have hplace : c.utf8Size + (i - c.utf8Size + 1) = i + 1 := by omega
        rwa [hplace] at hcons

-- ============================================================= windows

theorem sentenceEndBefore_some {bytes : List UInt8} {lo i j : Nat}
    (h : sentenceEndBefore bytes lo i = some j) :
    lo + 1 < j ∧ j ≤ i ∧ (bytes.getD (j - 1) 0 = 32 ∨ bytes.getD (j - 1) 0 = 10) := by
  induction i with
  | zero => cases h
  | succ i ih =>
      rw [sentenceEndBefore] at h
      split at h
      · next hlo =>
          split at h
          · next hends =>
              obtain rfl := Option.some.inj h
              refine ⟨hlo, Nat.le_refl _, ?_⟩
              have hblank := (Bool.and_eq_true_iff.mp hends).2
              rw [Bool.or_eq_true, beq_iff_eq, beq_iff_eq] at hblank
              exact hblank
          · obtain ⟨hlo', hle, hblank⟩ := ih h
            exact ⟨hlo', hle.trans (Nat.le_succ i), hblank⟩
      · cases h

theorem spaceBefore_some {bytes : List UInt8} {hi i j : Nat}
    (h : spaceBefore bytes hi i = some j) (hi' : hi ≤ i + 200) :
    0 < j ∧ j ≤ i ∧ hi ≤ j + 200
      ∧ (bytes.getD (j - 1) 0 = 32 ∨ bytes.getD (j - 1) 0 = 10) := by
  induction i with
  | zero => cases h
  | succ i ih =>
      rw [spaceBefore] at h
      split at h
      · next hblank =>
          obtain rfl := Option.some.inj h
          rw [Bool.or_eq_true, beq_iff_eq, beq_iff_eq] at hblank
          exact ⟨Nat.succ_pos i, Nat.le_refl _, hi', hblank⟩
      · split at h
        · cases h
        · next hfar =>
            obtain ⟨hpos, hle, hback, hblank⟩ := ih h (by omega)
            exact ⟨hpos, hle.trans (Nat.le_succ i), hback, hblank⟩

/-- Behind a blank a character ends. -/
theorem atEnd_of_blank {s : List Char} {j : Nat} (hpos : 0 < j)
    (hj : j ≤ byteLen s)
    (h : (asBytes s).getD (j - 1) 0 = 32 ∨ (asBytes s).getD (j - 1) 0 = 10) :
    AtEnd s j := by
  have hlt : ((asBytes s).getD (j - 1) 0).toNat < 128 := by
    rcases h with h | h <;> rw [h] <;> decide
  have hend := atEnd_of_byte (by omega) hlt
  have hplace : j - 1 + 1 = j := by omega
  rwa [hplace] at hend

theorem nextBoundary_spec {body : List Char} {i : Nat}
    (hi : i ≤ byteLen body) :
    AtEnd body (nextBoundary body (byteLen body) i)
      ∧ ∀ e, i ≤ e → AtEnd body e →
        nextBoundary body (byteLen body) i ≤ e := by
  fun_induction nextBoundary body (byteLen body) i with
  | case1 i h ih =>
      obtain ⟨hend, hleast⟩ := ih (by omega)
      refine ⟨hend, fun e he hat => hleast e ?_ hat⟩
      refine Nat.lt_of_le_of_ne he ?_
      rintro rfl
      rw [(isCharBoundary_iff _ _).mpr hat] at h
      exact absurd h.2 (by decide)
  | case2 i h =>
      refine ⟨?_, fun e he _ => he⟩
      rw [← isCharBoundary_iff]
      rcases Nat.lt_or_eq_of_le hi with hlt | rfl
      · by_contra hno
        exact h ⟨hlt, Bool.not_eq_true _ ▸ hno⟩
      · exact (isCharBoundary_iff _ _).mpr (atEnd_byteLen body)

theorem nextBoundary_atEnd {body : List Char} {i : Nat} (h : AtEnd body i) :
    nextBoundary body (byteLen body) i = i :=
  Nat.le_antisymm ((nextBoundary_spec h.le).2 i (Nat.le_refl _) h)
    (le_nextBoundary _ _ _)

/-- A character ends within the next four bytes. -/
theorem exists_atEnd {s : List Char} {i : Nat} (hi : i ≤ byteLen s) :
    ∃ e, AtEnd s e ∧ i ≤ e ∧ e ≤ i + 3 := by
  induction s generalizing i with
  | nil =>
      have hzero : i = 0 := Nat.le_zero.mp hi
      exact ⟨0, atEnd_zero [], by omega, by omega⟩
  | cons c s ih =>
      rw [byteLen_cons] at hi
      have hfour := c.utf8Size_le_four
      rcases Nat.eq_zero_or_pos i with rfl | hpos
      · exact ⟨0, atEnd_zero _, by omega, by omega⟩
      rcases Nat.lt_or_ge c.utf8Size i with hlt | hge
      · obtain ⟨e, he, hle, hle'⟩ := @ih (i - c.utf8Size) (by omega)
        exact ⟨_, he.cons c, by omega, by omega⟩
      · exact ⟨_, (atEnd_zero s).cons c, by omega, by omega⟩

theorem nextBoundary_le {body : List Char} {i : Nat} (hi : i ≤ byteLen body) :
    nextBoundary body (byteLen body) i ≤ i + 3 := by
  obtain ⟨e, he, hle, hle'⟩ := exists_atEnd hi
  exact ((nextBoundary_spec hi).2 e hle he).trans hle'

/-- The search for a blank goes back past the start of the window. -/
def Backs (body : List Char) (target start : Nat) : Prop :=
  start + target < byteLen body
    ∧ findSentenceEnd (asBytes body)
      (max (start + target - 200) (start + target / 2)) (start + target) = none
    ∧ ∃ blank, findSpace (asBytes body) (start + target) = some blank
      ∧ blank < start

/-- A window that starts at the end of a character. -/
structure WindowAt (body : List Char) (target start : Nat) : Prop where
  atEnd : AtEnd body (windowEnd body target start)
  le : windowEnd body target start ≤ start + target + 3
  start_le : start ≤ windowEnd body target start ↔ ¬ Backs body target start
  lt : 200 < target → start < windowEnd body target start
  whole : byteLen body ≤ target → windowEnd body target start = byteLen body

/-- The bounds between which a sentence's end is looked for. -/
def sentenceEnd (body : List Char) (target start : Nat) : Option Nat :=
  findSentenceEnd (asBytes body)
    (max (start + target - 200) (start + target / 2)) (start + target)

theorem windowEnd_long {body : List Char} {target start : Nat}
    (h : byteLen body ≤ start + target) :
    windowEnd body target start = byteLen body := by
  unfold windowEnd
  dsimp only
  rw [min_eq_right h, if_neg (lt_irrefl _)]
  exact nextBoundary_atEnd (atEnd_byteLen body)

theorem windowEnd_short {body : List Char} {target start : Nat}
    (h : start + target < byteLen body) :
    windowEnd body target start = nextBoundary body (byteLen body)
      ((sentenceEnd body target start).getD
        ((findSpace (asBytes body) (start + target)).getD (start + target))) := by
  unfold windowEnd
  dsimp only
  rw [min_eq_left h.le, if_pos h, sentenceEnd]
  cases findSentenceEnd (asBytes body)
    (max (start + target - 200) (start + target / 2)) (start + target) <;> rfl

/-- A sentence ends past the start. -/
theorem sentenceEnd_some {body : List Char} {target start j : Nat}
    (h : start + target < byteLen body)
    (hj : sentenceEnd body target start = some j) :
    start < j ∧ j ≤ start + target ∧ AtEnd body j := by
  unfold sentenceEnd findSentenceEnd at hj
  dsimp only at hj
  rw [length_asBytes, min_eq_left h.le] at hj
  obtain ⟨hlo, hle, hblank⟩ := sentenceEndBefore_some hj
  have hstart : start ≤ min (max (start + target - 200) (start + target / 2))
      (start + target) := by omega
  exact ⟨by omega, hle, atEnd_of_blank (by omega) (by omega) hblank⟩

theorem findSpace_some {body : List Char} {hi j : Nat} (h : hi < byteLen body)
    (hj : findSpace (asBytes body) hi = some j) :
    j ≤ hi ∧ hi ≤ j + 200 ∧ AtEnd body j := by
  unfold findSpace at hj
  dsimp only at hj
  rw [length_asBytes, min_eq_left h.le] at hj
  obtain ⟨hpos, hle, hback, hblank⟩ := spaceBefore_some hj (by omega)
  exact ⟨hle, hback, atEnd_of_blank hpos (by omega) hblank⟩

theorem windowEnd_spec {body : List Char} {target start : Nat}
    (hstart : start < byteLen body) : WindowAt body target start := by
  have hwhole : byteLen body ≤ target →
      windowEnd body target start = byteLen body := fun h =>
    windowEnd_long (h.trans (Nat.le_add_left _ _))
  rcases Nat.lt_or_ge (start + target) (byteLen body) with hshort | hlong
  case inr =>
    have hback : ¬ Backs body target start := fun h =>
      absurd h.1 (Nat.not_lt.mpr hlong)
    have hend := windowEnd_long hlong
    refine ⟨?_, ?_, ?_, ?_, hwhole⟩
    · rw [hend]
      exact atEnd_byteLen body
    · omega
    · exact iff_of_true (by omega) hback
    · omega
  have hend := windowEnd_short hshort
  cases hsentence : sentenceEnd body target start with
  | some j =>
      obtain ⟨hlt, hle, hat⟩ := sentenceEnd_some hshort hsentence
      rw [hsentence, Option.getD_some, nextBoundary_atEnd hat] at hend
      have hback : ¬ Backs body target start := by
        rintro ⟨-, hnone, -⟩
        rw [sentenceEnd, hnone] at hsentence
        cases hsentence
      exact ⟨by rwa [hend], by omega, iff_of_true (by omega) hback, by omega,
        hwhole⟩
  | none =>
      rw [hsentence, Option.getD_none] at hend
      cases hspace : findSpace (asBytes body) (start + target) with
      | some j =>
          obtain ⟨hle, hfar, hat⟩ := findSpace_some hshort hspace
          rw [hspace, Option.getD_some, nextBoundary_atEnd hat] at hend
          have hback : Backs body target start ↔ j < start := by
            constructor
            · rintro ⟨-, -, j', hj', hlt⟩
              rw [hspace] at hj'
              rwa [Option.some.inj hj']
            · exact fun hlt => ⟨hshort, hsentence, j, hspace, hlt⟩
          refine ⟨by rwa [hend], by omega, ?_, by omega, hwhole⟩
          rw [hend, hback, Nat.not_lt]
      | none =>
          rw [hspace, Option.getD_none] at hend
          have hspec := nextBoundary_spec hshort.le
          have hle := nextBoundary_le hshort.le
          have hge := le_nextBoundary body (byteLen body) (start + target)
          have hback : ¬ Backs body target start := by
            rintro ⟨-, -, j', hj', -⟩
            rw [hspace] at hj'
            cases hj'
          exact ⟨by rw [hend]; exact hspec.1, by omega,
            iff_of_true (by omega) hback, by omega, hwhole⟩

/-- The next window starts behind this start, and not behind this end. -/
theorem nextStart_spec {body : List Char} {start stop : Nat} (overlap : Nat)
    (hstart : start < byteLen body) (hstop : AtEnd body stop) :
    AtEnd body (nextStart body overlap start stop)
      ∧ start < nextStart body overlap start stop
      ∧ (start < stop → nextStart body overlap start stop ≤ stop) := by
  have hbound := hstop.le
  obtain ⟨hat, hleast⟩ := nextBoundary_spec
    (show start + max (stop - start - overlap) 1 ≤ byteLen body by omega)
  have hge := le_nextBoundary body (byteLen body)
    (start + max (stop - start - overlap) 1)
  unfold nextStart
  exact ⟨hat, by omega, fun hlt => hleast stop (by omega) hstop⟩

-- ================================================================= runs

/-- The starts that the loop comes to from one of them, as long as no slice
is a panic. -/
inductive Reached (body : List Char) (target overlap : Nat) : Nat → Nat → Prop
  | here (start : Nat) : Reached body target overlap start start
  | next {start s : Nat} : start < byteLen body →
      start ≤ windowEnd body target start →
      windowEnd body target start < byteLen body →
      Reached body target overlap
        (nextStart body overlap start (windowEnd body target start)) s →
      Reached body target overlap start s

theorem Reached.atEnd {body : List Char} {target overlap start s : Nat}
    (h : Reached body target overlap start s) (hstart : AtEnd body start) :
    AtEnd body s := by
  induction h with
  | here => exact hstart
  | next hlt _ _ _ ih =>
      exact ih (nextStart_spec overlap hlt (windowEnd_spec hlt).atEnd).1

/-- Where there is a second window, the first is shorter than the body. -/
theorem Reached.short {body : List Char} {target overlap start s : Nat}
    (h : Reached body target overlap start s) :
    s = start ∨ target < byteLen body := by
  cases h with
  | here => exact .inl rfl
  | next hlt _ hshort _ =>
      refine .inr (Nat.lt_of_not_le fun hle => ?_)
      rw [(windowEnd_spec hlt).whole hle] at hshort
      exact lt_irrefl _ hshort

/-- What an iteration is to do: its window is a slice between ends of
characters, its sums are not past the length or the target, and it moves
the start on. -/
structure Iterates (body : List Char) (target overlap start : Nat) : Prop where
  le : start ≤ windowEnd body target start
  end_le : windowEnd body target start ≤ byteLen body
  start_atEnd : isCharBoundary body start = true
  end_atEnd : isCharBoundary body (windowEnd body target start) = true
  slice : (slice body start (windowEnd body target start)).isSome
  sum : start + target ≤ max target (2 * byteLen body)
  moves : start < nextStart body overlap start (windowEnd body target start)

theorem iterates_iff {body : List Char} {target overlap start : Nat}
    (h : Reached body target overlap 0 start) (hlt : start < byteLen body) :
    Iterates body target overlap start ↔ ¬ Backs body target start := by
  have hwindow : WindowAt body target start := windowEnd_spec hlt
  have hat := h.atEnd (atEnd_zero body)
  rw [← hwindow.start_le]
  refine ⟨Iterates.le, fun hle => ?_⟩
  obtain ⟨_, w, _, -, -, -, hslice⟩ := slice_some hat hwindow.atEnd hle
  constructor
  case le => exact hle
  case end_le => exact hwindow.atEnd.le
  case start_atEnd => exact (isCharBoundary_iff _ _).mpr hat
  case end_atEnd => exact (isCharBoundary_iff _ _).mpr hwindow.atEnd
  case slice =>
    rw [hslice]
    rfl
  case sum => rcases h.short with rfl | hshort <;> omega
  case moves => exact (nextStart_spec overlap hlt hwindow.atEnd).2.1

/-- The loop returns segments exactly where no window of it goes back. -/
theorem splitFrom_some_iff {body : List Char} {target overlap start : Nat}
    (hstart : AtEnd body start) :
    (∃ segments, splitFrom body target overlap start = some segments)
      ↔ ∀ s, Reached body target overlap start s → s < byteLen body →
        ¬ Backs body target s := by
  fun_induction splitFrom body target overlap start with
  | case1 start hlt stop hnone =>
      refine iff_of_false (fun h => nomatch h) fun hall => ?_
      have hwindow : WindowAt body target start := windowEnd_spec hlt
      have hle := hwindow.start_le.mpr (hall start (.here start) hlt)
      obtain ⟨_, w, _, -, -, -, hslice⟩ := slice_some hstart hwindow.atEnd hle
      rw [hnone] at hslice
      cases hslice
  | case2 start hlt stop window hsome out hend =>
      refine iff_of_true ⟨_, rfl⟩ fun s hs hs' => ?_
      have hwindow : WindowAt body target start := windowEnd_spec hlt
      have hle : start ≤ windowEnd body target start := by
        by_contra hback
        rw [slice_none (Nat.not_le.mp hback)] at hsome
        cases hsome
      cases hs with
      | here => exact hwindow.start_le.mp hle
      | next _ _ hshort _ => exact absurd hshort (Nat.not_lt.mpr hend)
  | case3 start hlt stop window hsome out hend ih =>
      have hwindow : WindowAt body target start := windowEnd_spec hlt
      have hle : start ≤ windowEnd body target start := by
        by_contra hback
        rw [slice_none (Nat.not_le.mp hback)] at hsome
        cases hsome
      have hnext := nextStart_spec overlap hlt hwindow.atEnd
      have hrest := ih hnext.1
      constructor
      · rintro ⟨segments, hsegments⟩ s hs hs'
        obtain ⟨rest, hrest', -⟩ := Option.map_eq_some_iff.mp hsegments
        cases hs with
        | here => exact hwindow.start_le.mp hle
        | next _ _ _ hs => exact hrest.mp ⟨rest, hrest'⟩ s hs hs'
      · intro hall
        obtain ⟨rest, hrest'⟩ := hrest.mpr fun s hs hs' =>
          hall s (.next hlt hle (Nat.not_le.mp hend) hs) hs'
        exact ⟨_, by rw [hrest']; rfl⟩
  | case4 start hge =>
      refine iff_of_true ⟨_, rfl⟩ fun s hs hs' => ?_
      cases hs with
      | here => exact absurd hs' hge
      | next hlt _ _ _ => exact absurd hlt hge

/-- The chunker is total: it returns segments, and each of its iterations is
as it is to be. -/
structure Total (body : List Char) (target overlap : Nat) : Prop where
  returns : ∃ segments, splitText body target overlap = some segments
  iterates : ∀ s, Reached body target overlap 0 s → s < byteLen body →
    Iterates body target overlap s

/-- The chunker is total exactly where no window that it comes to goes back
to a blank before its start. -/
theorem splitText_total_iff (body : List Char) (target overlap : Nat) :
    Total body target overlap ↔ ∀ s, Reached body target overlap 0 s →
      s < byteLen body → ¬ Backs body target s := by
  constructor
  · intro h s hs hlt
    exact (iterates_iff hs hlt).mp (h.iterates s hs hlt)
  · intro h
    refine ⟨(splitFrom_some_iff (atEnd_zero body)).mpr h, fun s hs hlt => ?_⟩
    exact (iterates_iff hs hlt).mpr (h s hs hlt)

/-- The text of two words. -/
def twoWords : List Char := ['a', ' ', 'b', 'c', 'd']

/-- A window of it, of one byte, and the next start. -/
theorem twoWords_next {start stop next s : Nat} (hlt : start + 1 < 5)
    (hcut : (sentenceEnd twoWords 1 start).getD
      ((findSpace (asBytes twoWords) (start + 1)).getD (start + 1)) = stop)
    (hstop : isCharBoundary twoWords stop = true) (hle : start ≤ stop)
    (hnext : start + max (stop - start - 0) 1 = next)
    (hat : isCharBoundary twoWords next = true) (hshort : stop < 5)
    (h : Reached twoWords 1 0 next s) : Reached twoWords 1 0 start s := by
  have hlen : byteLen twoWords = 5 := by decide
  have hend : windowEnd twoWords 1 start = stop := by
    rw [windowEnd_short (by omega), hcut]
    exact nextBoundary_atEnd ((isCharBoundary_iff _ _).mp hstop)
  refine .next (by omega) (by omega) (by omega) ?_
  rw [hend, nextStart, hnext,
    nextBoundary_atEnd ((isCharBoundary_iff _ _).mp hat)]
  exact h

/-- Windows of one byte: the one behind the first letter of the second word
goes back to the blank between the words. -/
theorem two_words_panic : ¬ ∀ (body : List Char) (target overlap : Nat),
    1 ≤ target → Total body target overlap := by
  intro h
  have hreached : Reached twoWords 1 0 0 3 := by
    have hthird : Reached twoWords 1 0 2 3 :=
      twoWords_next (by decide) (show _ = 2 by decide) (by decide) (by decide)
        (show _ = 3 by decide) (by decide) (by decide) (.here 3)
    have hsecond : Reached twoWords 1 0 1 3 :=
      twoWords_next (by decide) (show _ = 2 by decide) (by decide) (by decide)
        (show _ = 2 by decide) (by decide) (by decide) hthird
    exact twoWords_next (by decide) (show _ = 1 by decide) (by decide)
      (by decide) (show _ = 1 by decide) (by decide) (by decide) hsecond
  have hback : Backs twoWords 1 3 := by
    refine ⟨by decide, by decide, 2, by decide, by decide⟩
  have hiterates := (h twoWords 1 0 (Nat.le_refl 1)).iterates 3 hreached
    (by decide)
  exact (iterates_iff hreached (by decide)).mp hiterates hback

end SapAutomate.Ingest
