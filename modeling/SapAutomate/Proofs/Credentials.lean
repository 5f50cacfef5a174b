/-
The base64 that credentials are sent in (`base64_compat` of
`sap-automate-adt/src/http.rs`): it is the standard's, for every text, and
so no two credentials are sent alike.
-/
import SapAutomate.Adt.Http
import SapAutomate.Lib.Base64

namespace SapAutomate.Adt

/-- A text is encoded as the standard says. -/
structure Rfc4648 (s : String) : Prop where
  length : (base64Encode s).toList.length = 4 * (((utf8 s).length + 2) / 3)
  alphabet : ∃ body pad, (base64Encode s).toList
      = body ++ List.replicate pad '=' ∧ pad ≤ 2
    ∧ ∀ c ∈ body, c ∈ Base64.alphabet
  decodes : Base64.decode (base64Encode s).toList = some (utf8 s)

/-- Six bits, by their character. -/
theorem sextet_eq (n : Nat) : sextet n = Base64.char (n % 64) := rfl

theorem sextet_of_lt {n : Nat} (h : n < 64) : sextet n = Base64.char n := by
  rw [sextet_eq, Nat.mod_eq_of_lt h]

/-- Four characters for each group of three bytes. -/
theorem length_base64 (bs : List UInt8) :
    (base64 bs).length = 4 * ((bs.length + 2) / 3) := by
  fun_induction base64 bs with
  | case1 b1 b2 b3 rest ih =>
      simp only [List.length_cons, ih]
      omega
  | case2 b1 b2 => simp
  | case3 b1 => simp
  | case4 => rfl

theorem sextet_mem (n : Nat) : sextet n ∈ Base64.alphabet :=
  Base64.char_mem (Nat.mod_lt n (by omega))

/-- Characters of the alphabet, and padding behind them. -/
theorem alphabet_base64 (bs : List UInt8) :
    ∃ body pad, base64 bs = body ++ List.replicate pad '=' ∧ pad ≤ 2
      ∧ ∀ c ∈ body, c ∈ Base64.alphabet := by
  fun_induction base64 bs with
  | case1 b1 b2 b3 rest ih =>
      obtain ⟨body, pad, heq, hpad, hbody⟩ := ih
      refine ⟨_ :: _ :: _ :: _ :: body, pad, by rw [heq]; rfl, hpad, ?_⟩
      simp only [List.forall_mem_cons]
      exact ⟨sextet_mem _, sextet_mem _, sextet_mem _, sextet_mem _, hbody⟩
  | case2 b1 b2 =>
      refine ⟨[_, _, _], 1, rfl, by omega, ?_⟩
      simp only [List.forall_mem_cons]
      exact ⟨sextet_mem _, sextet_mem _, sextet_mem _, List.forall_mem_nil _⟩
  | case3 b1 =>
      refine ⟨[_, _], 2, rfl, by omega, ?_⟩
      simp only [List.forall_mem_cons]
      exact ⟨sextet_mem _, sextet_mem _, List.forall_mem_nil _⟩
  | case4 => exact ⟨[], 0, rfl, by omega, List.forall_mem_nil _⟩

/-- The bytes are read back. -/
theorem decode_base64 (bs : List UInt8) : Base64.decode (base64 bs) = some bs := by
  fun_induction base64 bs with
  | case1 b1 b2 b3 rest ih =>
      have h1 := b1.toNat_lt
      have h2 := b2.toNat_lt
      have h3 := b3.toNat_lt
      rw [sextet_of_lt (n := b1.toNat / 4) (by omega),
        sextet_of_lt (n := b1.toNat % 4 * 16 + b2.toNat / 16) (by omega),
        sextet_of_lt (n := b2.toNat % 16 * 4 + b3.toNat / 64) (by omega),
        sextet_eq, Base64.decode,
        if_neg (Base64.char_ne_pad (Nat.mod_lt _ (by omega))),
        Base64.threeBytes_char, ih]
      rfl
  | case2 b1 b2 =>
      have h1 := b1.toNat_lt
      have h2 := b2.toNat_lt
      rw [sextet_of_lt (n := b1.toNat / 4) (by omega),
        sextet_of_lt (n := b1.toNat % 4 * 16 + b2.toNat / 16) (by omega),
        sextet_of_lt (n := b2.toNat % 16 * 4) (by omega), Base64.decode,
        if_pos rfl, if_pos rfl, if_neg (Base64.char_ne_pad (by omega)),
        Base64.twoBytes_char]
  | case3 b1 =>
      have h1 := b1.toNat_lt
      rw [sextet_of_lt (n := b1.toNat / 4) (by omega),
        sextet_of_lt (n := b1.toNat % 4 * 16) (by omega), Base64.decode,
        if_pos rfl, if_pos rfl, if_pos rfl, Base64.oneByte_char]
  | case4 => rfl

/-- The bytes of a text tell which it is. -/
theorem utf8_injective : Function.Injective utf8 := by
  intro s t h
  have hbytes : s.toList.utf8Encode = t.toList.utf8Encode :=
    congrArg List.toByteArray h
  rw [String.utf8Encode_toList, String.utf8Encode_toList] at hbytes
  exact String.toByteArray_inj.mp hbytes

/-- Texts are encoded as the standard says, and no two alike. -/
theorem base64_standard :
    (∀ s, Rfc4648 s) ∧ Function.Injective base64Encode := by
  have hlist : ∀ s, (base64Encode s).toList = base64 (utf8 s) :=
    fun s => String.toList_ofList
  refine ⟨fun s => ⟨?_, ?_, ?_⟩, fun s t h => utf8_injective ?_⟩
  · rw [hlist, length_base64]
  · rw [hlist]
    exact alphabet_base64 (utf8 s)
  · rw [hlist, decode_base64]
  · have hdecode := decode_base64 (utf8 s)
    rw [← hlist, h, hlist, decode_base64, Option.some.injEq] at hdecode
    exact hdecode.symm

end SapAutomate.Adt
