/-
Pipes: what one side writes, what of it is under way, and what the other
side has received, where each thing written arrives as something or as
nothing readable.

`Carried` is the invariant of such a pipe, in order and without loss:
what is under way is what has been written and not yet been read. What
was received is what arrived of what was read; a reader that has met
something unreadable is no longer there, and from then on it is a part
of that only.
-/
import Mathlib.Data.List.Basic

namespace Interact

variable {μ ν L : Type}

/-- The invariant of a pipe; `there` says that its reader still is. -/
def Carried (arrive : μ → Option ν) (line : μ → L) (written : List μ)
    (flying : List L) (incoming : List ν) (there : Prop) : Prop :=
  ∃ read rest, written = read ++ rest ∧ flying = rest.map line
    ∧ incoming.map some <+: read.map arrive
    ∧ (there → incoming.map some = read.map arrive)

namespace Carried

variable {arrive : μ → Option ν} {line : μ → L} {written : List μ}
  {flying : List L} {incoming : List ν} {there there' : Prop}

/-- A new pipe. -/
theorem start : Carried arrive line [] [] ([] : List ν) there :=
  ⟨[], [], rfl, rfl, List.prefix_refl _, fun _ => rfl⟩

/-- Something more is written. -/
theorem write (h : Carried arrive line written flying incoming there)
    (ms : List μ) :
    Carried arrive line (written ++ ms) (flying ++ ms.map line) incoming
      there := by
  obtain ⟨read, rest, hw, hf, hpre, heq⟩ := h
  refine ⟨read, rest ++ ms, ?_, ?_, hpre, heq⟩
  · rw [hw, List.append_assoc]
  · rw [hf, List.map_append]

/-- The reader goes, or stays. -/
theorem weaken (h : Carried arrive line written flying incoming there)
    (hthere : there' → there) :
    Carried arrive line written flying incoming there' := by
  obtain ⟨read, rest, hw, hf, hpre, heq⟩ := h
  exact ⟨read, rest, hw, hf, hpre, fun ht => heq (hthere ht)⟩

/-- What is next in a pipe was written. -/
theorem next (h : Carried arrive line written flying incoming there)
    {l : L} {flying' : List L} (hflying : flying = l :: flying') :
    ∃ m, l = line m
      ∧ (∀ x, arrive m = some x → there →
        Carried arrive line written flying' (incoming ++ [x]) there')
      ∧ (¬ there' →
        Carried arrive line written flying' incoming there') := by
  obtain ⟨read, rest, hw, hf, hpre, heq⟩ := h
  rw [hf] at hflying
  obtain ⟨m, rest', rfl, hm, hrest⟩ := List.map_eq_cons_iff.mp hflying
  have hsplit : written = (read ++ [m]) ++ rest' := by
    rw [hw, List.append_assoc]
    rfl
  have hread : (read ++ [m]).map arrive = read.map arrive ++ [arrive m] := by
    rw [List.map_append]
    rfl
  refine ⟨m, hm.symm, ?_, ?_⟩
  · intro x hx hthere
    have hall : (incoming ++ [x]).map some = (read ++ [m]).map arrive := by
      rw [hread, hx, List.map_append, heq hthere]
      rfl
    refine ⟨read ++ [m], rest', hsplit, hrest.symm, ?_, fun _ => hall⟩
    exact hall ▸ List.prefix_refl _
  · intro hgone
    refine ⟨read ++ [m], rest', hsplit, hrest.symm, ?_, ?_⟩
    · rw [hread]
      exact hpre.trans (List.prefix_append _ _)
    · exact fun hthere => absurd hthere hgone

/-- What was received has arrived, in the order it was written in. -/
theorem received (h : Carried arrive line written flying incoming there) :
    incoming.map some <+: written.map arrive := by
  obtain ⟨read, rest, hw, -, hpre, -⟩ := h
  rw [hw, List.map_append]
  exact hpre.trans (List.prefix_append _ _)

theorem exists_written (h : Carried arrive line written flying incoming there)
    {x : ν} (hx : x ∈ incoming) : ∃ m ∈ written, arrive m = some x :=
  List.mem_map.mp (h.received.subset (List.mem_map_of_mem hx))

end Carried

end Interact
