/-
Messages over the stdio framing, written and read back.

# What comes back

A line is one message: compact JSON has no raw newline
(`newline_notMem_toJson`), and nothing of it is white space at either
end. So every message is read back as `Message.received` says
(`recvN_sendAll`), in order, as the variant it was.

That is the message itself unless one of its fields of type
`Option<Value>` holds `null`: `null` is written, but a derived
`Deserialize` takes a field that is `null` for one that is not there.
`framing_round_trip_iff` makes it exact, `null_result_lost` is the
smallest instance.
-/
import SapAutomate.Mcp.Transport

namespace SapAutomate.Mcp

open Json Text

-- ======================================================= compact printing

theorem newline_notMem_intercalate (sep : String) {xs : List String}
    (hsep : '\n' ∉ sep.toList) (h : ∀ x ∈ xs, '\n' ∉ x.toList) :
    '\n' ∉ (String.intercalate sep xs).toList := by
  induction xs with
  | nil => simp
  | cons x xs ih =>
      have hx := h x (by simp)
      have hxs := ih fun y hy => h y (by simp [hy])
      cases xs with
      | nil => simpa using hx
      | cons y ys =>
          rw [String.intercalate_cons_cons]
          simp only [String.toList_append, List.mem_append]
          intro hmem
          rcases hmem with (hmem | hmem) | hmem
          · exact hx hmem
          · exact hsep hmem
          · exact hxs hmem

theorem newline_notMem_escapeChar (c : Char) :
    '\n' ∉ Value.escapeChar c := by
  have hdigit : ∀ k < 16, '\n' ≠ Nat.digitChar k := by decide
  intro h
  unfold Value.escapeChar at h
  by_cases h5 : c.toNat = 10
  · -- a newline has its escape
    have hc : c = '\n' := Char.ext (UInt32.toNat_inj.mp h5)
    subst hc
    revert h
    decide
  by_cases h8 : c.toNat < 32
  · have h1 := hdigit (c.toNat / 16) (by omega)
    have h2 := hdigit (c.toNat % 16) (by omega)
    split_ifs at h <;> simp [h1, h2] at h
  · have hc : '\n' ≠ c := fun hc => h5 (by rw [← hc]; rfl)
    split_ifs at h <;> simp [hc] at h

theorem newline_notMem_quote (s : String) :
    '\n' ∉ (Value.quote s).toList := by
  simp only [Value.quote, String.toList_ofList, List.mem_append,
    List.mem_cons, List.mem_flatMap]
  intro h
  rcases h with (h | h) | h
  · cases h
  · obtain ⟨c, -, hc⟩ := h
    exact newline_notMem_escapeChar c hc
  · rcases h with h | h
    · cases h
    · cases h

mutual

theorem newline_notMem_toJson : ∀ v : Value, '\n' ∉ v.toJson.toList
  | .null => by decide
  | .bool true => by decide
  | .bool false => by decide
  | .number n => by
      intro h
      have := List.all_eq_true.mp n.legal _ h
      cases this
  | .string s => newline_notMem_quote s
  | .array items => by
      have h := newline_notMem_itemsToJson items
      have hmid := newline_notMem_intercalate "," (by decide) h
      simp only [Value.toJson, String.toList_append, List.mem_append]
      intro hmem
      rcases hmem with (hmem | hmem) | hmem
      · revert hmem; decide
      · exact hmid hmem
      · revert hmem; decide
  | .object fields => by
      have h := newline_notMem_fieldsToJson fields
      have hmid := newline_notMem_intercalate "," (by decide) h
      simp only [Value.toJson, String.toList_append, List.mem_append]
      intro hmem
      rcases hmem with (hmem | hmem) | hmem
      · revert hmem; decide
      · exact hmid hmem
      · revert hmem; decide

theorem newline_notMem_itemsToJson : ∀ (vs : List Value),
    ∀ x ∈ Value.itemsToJson vs, '\n' ∉ x.toList
  | [] => by simp [Value.itemsToJson]
  | v :: vs => by
      intro x hx
      rcases List.mem_cons.mp hx with rfl | hx
      · exact newline_notMem_toJson v
      · exact newline_notMem_itemsToJson vs x hx

theorem newline_notMem_fieldsToJson : ∀ (m : List (String × Value)),
    ∀ x ∈ Value.fieldsToJson m, '\n' ∉ x.toList
  | [] => by simp [Value.fieldsToJson]
  | (k, v) :: m => by
      intro x hx
      rcases List.mem_cons.mp hx with rfl | hx
      · simp only [String.toList_append, List.mem_append]
        intro hmem
        rcases hmem with (hmem | hmem) | hmem
        · exact newline_notMem_quote k hmem
        · revert hmem; decide
        · exact newline_notMem_toJson v hmem
      · exact newline_notMem_fieldsToJson m x hx

end

-- ================================================================= lines

theorem lines_append {l : List Char} (hl : '\n' ∉ l) (rest : List Char) :
    lines (l ++ '\n' :: rest) = (l ++ ['\n']) :: lines rest := by
  induction l with
  | nil => simp [lines]
  | cons c l ih =>
      have hc : c ≠ '\n' := fun h => hl (by simp [h])
      rw [List.cons_append, lines, if_neg hc,
        ih fun h => hl (List.mem_cons_of_mem _ h)]
      rfl

/-- A message on its line. -/
def Message.line (m : Message) : List Char := m.text.toList ++ ['\n']

theorem newline_notMem_text (m : Message) : '\n' ∉ m.text.toList :=
  newline_notMem_toJson _

theorem lines_flatMap (ms : List Message) :
    lines (ms.flatMap Message.line) = ms.map Message.line := by
  induction ms with
  | nil => rfl
  | cons m ms ih =>
      rw [List.flatMap_cons, Message.line, List.append_assoc,
        List.singleton_append, lines_append (newline_notMem_text m), ih]
      rfl

/-- The text of a message starts and ends with a brace. -/
theorem trimBy_line (m : Message) :
    trimBy isWhitespace m.line = m.text.toList := by
  have htrim : Trimmed isWhitespace m.text.toList := by
    constructor
    · intro a ha
      simp [Message.text, Value.toJson] at ha
      rw [← ha]
      rfl
    · intro a ha
      simp only [Message.text, Value.toJson, String.toList_append] at ha
      rw [List.getLast?_append] at ha
      rw [← Option.some.inj ha]
      rfl
  have hpad := trimBy_pad (p := isWhitespace) (l := []) (r := ['\n'])
    m.text.toList (by simp) (by simp [isWhitespace])
  rw [List.nil_append] at hpad
  rw [Message.line, hpad, trimBy_eq_self_iff.mpr htrim]

-- ============================================================== the pipe

theorem sendAll_eq (w : StdioWriter) (hopen : w.closed = false)
    (ms : List Message) :
    w.sendAll ms = .ok { w with
      written := w.written ++ ms.flatMap Message.line } := by
  induction ms generalizing w with
  | nil => simp [StdioWriter.sendAll]
  | cons m ms ih =>
      have hsend : w.send m = .ok { w with
          written := w.written ++ m.line } := by
        simp [StdioWriter.send, hopen, Message.line]
      rw [StdioWriter.sendAll, hsend]
      have := ih { w with written := w.written ++ m.line } hopen
      simpa [Except.bind, bind] using this

/-- A message's own line is read as that message, without its nulls. -/
theorem recv_line {parse : ParseJson} {m : Message} (hfits : m.Fits)
    (hparse : parse m.text = some m.toValue) (ls : List Line) :
    StdioReader.recv parse (.text m.line :: ls)
      = (.message m.received, ls) := by
  have hne : m.text.toList ≠ [] := by simp [Message.text, Value.toJson]
  simp [StdioReader.recv, trimBy_line, hne, Message.fromJson, hparse,
    Message.fromValue_toValue hfits]

/-- What is read of messages sent one after the other. -/
theorem recvN_sendAll {parse : ParseJson} {ms : List Message}
    (hfits : ∀ m ∈ ms, m.Fits)
    (hparse : ∀ m ∈ ms, parse m.text = some m.toValue) :
    StdioReader.recvN parse (ms.length + 1)
        ((ms.map Message.line).map .text)
      = ms.map (fun m => .message m.received) ++ [.eof] := by
  induction ms with
  | nil => rfl
  | cons m ms ih =>
      have hm := recv_line (hfits m (by simp)) (hparse m (by simp))
        ((ms.map Message.line).map .text)
      rw [List.length_cons, StdioReader.recvN, List.map_cons, List.map_cons,
        hm]
      rw [ih (fun m' h => hfits m' (by simp [h]))
        fun m' h => hparse m' (by simp [h])]
      rfl

/-- What is read of messages that an open writer has sent. -/
theorem recvN_written {parse : ParseJson} {ms : List Message}
    (hfits : ∀ m ∈ ms, m.Fits)
    (hparse : ∀ m ∈ ms, parse m.text = some m.toValue) {w : StdioWriter}
    (hw : StdioWriter.sendAll ⟨[], false⟩ ms = .ok w) :
    StdioReader.recvN parse (ms.length + 1) (linesOf w.written)
      = ms.map (fun m => .message m.received) ++ [.eof] := by
  rw [sendAll_eq ⟨[], false⟩ rfl ms, Except.ok.injEq] at hw
  rw [← hw, List.nil_append, linesOf, lines_flatMap]
  exact recvN_sendAll hfits hparse

/-- Messages written by an open `StdioWriter` are read back as they were
if and only if none of them holds a `null` where a field may be
missing. -/
theorem framing_round_trip_iff (parse : ParseJson) (ms : List Message)
    (hfits : ∀ m ∈ ms, m.Fits)
    (hparse : ∀ m ∈ ms, parse m.text = some m.toValue) :
    (∃ w, StdioWriter.sendAll ⟨[], false⟩ ms = .ok w
        ∧ StdioReader.recvN parse (ms.length + 1) (linesOf w.written)
          = ms.map .message ++ [.eof])
      ↔ ∀ m ∈ ms, ¬ m.HasNull := by
  have hsame : ms.map (fun m => Received.message m.received)
      = ms.map .message ↔ ∀ m ∈ ms, ¬ m.HasNull := by
    rw [List.map_inj_left]
    refine forall_congr' fun m => imp_congr_right fun _ => ?_
    rw [Received.message.injEq, received_eq_self_iff]
  constructor
  · intro h
    obtain ⟨w, hw, hrecv⟩ := h
    rw [recvN_written hfits hparse hw, List.append_left_inj] at hrecv
    exact hsame.mp hrecv
  · intro h
    have hsend := sendAll_eq ⟨[], false⟩ rfl ms
    refine ⟨_, hsend, ?_⟩
    rw [recvN_written hfits hparse hsend, hsame.mpr h]

-- ============================================================ a lost null

/-- A success response whose result is `null`. -/
def nullResponse : Message := .response (.success (.number 1) .null)

/-- A request without parameters. -/
def ping : Message := .request ⟨"2.0", .number 2, "ping", none⟩

/-- A parser, as far as these two texts go. -/
def parseTwo : ParseJson := fun s =>
  if s = ping.text then some ping.toValue
  else some nullResponse.toValue

/-- The `null` result is read back as no result. -/
theorem null_result_lost :
    ¬ ∀ (parse : ParseJson) (ms : List Message), (∀ m ∈ ms, m.Fits) →
      (∀ m ∈ ms, parse m.text = some m.toValue) →
      ∃ w, StdioWriter.sendAll ⟨[], false⟩ ms = .ok w
        ∧ StdioReader.recvN parse (ms.length + 1) (linesOf w.written)
          = ms.map .message ++ [.eof] := by
  intro h
  have hfits : ∀ m ∈ [nullResponse], m.Fits := by
    simp [nullResponse, Message.Fits, Id.Fits, Response.success]
  have hparse : ∀ m ∈ [nullResponse], parseTwo m.text = some m.toValue := by
    have hne : nullResponse.text ≠ ping.text := by decide
    simp [parseTwo, hne]
  obtain ⟨w, hw, hrecv⟩ := h parseTwo [nullResponse] hfits hparse
  rw [recvN_written hfits hparse hw] at hrecv
  have hsame : nullResponse.received = nullResponse := by
    simpa using hrecv
  exact (received_eq_self_iff _).mp hsame (.inl rfl)

theorem framing_round_trip_iff_ping :
    ∃ w, StdioWriter.sendAll ⟨[], false⟩ [ping, ping] = .ok w
      ∧ StdioReader.recvN parseTwo 3 (linesOf w.written)
        = [.message ping, .message ping, .eof] :=
  (framing_round_trip_iff parseTwo [ping, ping]
    (by simp [ping, Message.Fits, Id.Fits])
    (by simp [parseTwo])).mpr (by simp [ping, Message.HasNull])

end SapAutomate.Mcp
