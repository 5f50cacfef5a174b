/-
Requests in flight. Tasks number their requests, leave a waiter under
the number, put messages into a bounded channel, and wait for what their
waiter is handed; somebody else takes the messages out and hands the
responses over. What they share is a desk.

# The two views

- `Desk.answer` is what one question of a task does. A question that
  cannot be answered yet keeps the task waiting: a channel that is full,
  a waiter that has been handed nothing.
- `Recorded` reads the desk off the exchanges of all tasks so far: what
  the channel has accepted is what was sent, in order; no number was
  given out twice; a waiter that was answered with `r` has been handed
  `r`. It is kept by every question and by whatever else happens to the
  desk, as long as that leaves used waiters used and handed ones alone
  (`Recorded.later`).

The counter is unbounded, where an implementation's comes round after
`2^64` requests.
-/
import Mathlib.Logic.Function.Basic
import SapAutomate.Lib.Pool

namespace Interact

-- ============================================================== channels

/-- A bounded channel: the messages it has accepted, how many of them
have been received, and whether the receiver is there. -/
structure Channel (μ : Type) where
  accepted : List μ
  received : Nat
  alive : Bool

namespace Channel

variable {μ : Type}

def new : Channel μ := ⟨[], 0, true⟩

/-- What waits to be received. -/
def queued (c : Channel μ) : List μ := c.accepted.drop c.received

/-- A send: refused once the receiver is gone, held up while the channel
is full. -/
def send (cap : Nat) (c : Channel μ) (m : μ) : Option (Bool × Channel μ) :=
  if c.alive then
    if c.queued.length < cap then
      some (true, { c with accepted := c.accepted ++ [m] })
    else none
  else some (false, c)

/-- The next message. -/
def recv (c : Channel μ) : Option (μ × Channel μ) :=
  match c.accepted[c.received]? with
  | some m => some (m, { c with received := c.received + 1 })
  | none => none

/-- The receiver goes. -/
def close (c : Channel μ) : Channel μ := { c with alive := false }

theorem send_eq_some {cap : Nat} {c c' : Channel μ} {m : μ} {ok : Bool}
    (h : c.send cap m = some (ok, c')) :
    (ok = true ∧ c.alive = true
        ∧ c' = { c with accepted := c.accepted ++ [m] })
      ∨ (ok = false ∧ c.alive = false ∧ c' = c) := by
  unfold send at h
  by_cases halive : c.alive = true
  · rw [if_pos halive] at h
    by_cases hfull : c.queued.length < cap
    · rw [if_pos hfull, Option.some.injEq, Prod.mk.injEq] at h
      exact .inl ⟨h.1.symm, halive, h.2.symm⟩
    · rw [if_neg hfull] at h
      cases h
  · rw [if_neg halive, Option.some.injEq, Prod.mk.injEq] at h
    exact .inr ⟨h.1.symm, by simpa using halive, h.2.symm⟩

theorem recv_eq_some {c c' : Channel μ} {m : μ} :
    c.recv = some (m, c') ↔ c.accepted[c.received]? = some m
      ∧ c' = { c with received := c.received + 1 } := by
  unfold recv
  cases hm : c.accepted[c.received]? with
  | none => simp
  | some m' => simp [eq_comm]

/-- There is nothing to receive where nothing is queued. -/
theorem recv_eq_none {c : Channel μ} : c.recv = none ↔ c.queued = [] := by
  unfold recv queued
  cases hm : c.accepted[c.received]? with
  | none =>
      have := List.getElem?_eq_none_iff.mp hm
      simp [this]
  | some m =>
      have := (List.getElem?_eq_some_iff.mp hm).1
      simp
      omega

end Channel

-- =============================================================== waiters

/-- What becomes of a waiter: it is left, taken by whoever has a response
for it, and handed that response; or it is dropped. -/
inductive Slot (ρ : Type) where
  | unused
  | waiting
  | taken
  | resolved (r : ρ)
  | dropped

/-- What a waiter has been handed, if it need not wait on. -/
def Slot.outcome {ρ : Type} : Slot ρ → Option (Option ρ)
  | .resolved r => some (some r)
  | .dropped => some none
  | _ => none

/-- The numbers given out, the waiters by number, the channel. -/
structure Desk (μ ρ : Type) where
  nextId : Int
  slots : Int → Slot ρ
  outbox : Channel μ

/-- What a task asks of the desk. -/
inductive DeskQuery (μ : Type) where
  | fetchId
  | insert (id : Int)
  | remove (id : Int)
  | send (m : μ)
  | await (id : Int)

/-- With what it is answered; a send tells whether it was accepted. -/
abbrev DeskQuery.Reply {μ : Type} (ρ : Type) : DeskQuery μ → Type
  | .fetchId => Int
  | .insert _ => Unit
  | .remove _ => Unit
  | .send _ => Bool
  | .await _ => Option ρ

abbrev DeskIface (μ ρ : Type) : Iface := ⟨DeskQuery μ, DeskQuery.Reply ρ⟩

namespace Desk

variable {μ ρ : Type}

def new (firstId : Int) : Desk μ ρ := ⟨firstId, fun _ => .unused, .new⟩

def set (d : Desk μ ρ) (id : Int) (s : Slot ρ) : Desk μ ρ :=
  { d with slots := Function.update d.slots id s }

/-- The waiter leaves the map for the one who has its response. -/
def take (d : Desk μ ρ) (id : Int) : Option (Desk μ ρ) :=
  match d.slots id with
  | .waiting => some (d.set id .taken)
  | _ => none

/-- The waiters in the map are dropped. -/
def clear (d : Desk μ ρ) : Desk μ ρ :=
  { d with slots := fun id =>
      match d.slots id with
      | .waiting => .dropped
      | s => s }

/-- What one question does. -/
def answer (cap : Nat) :
    (q : DeskQuery μ) → Desk μ ρ → Option (q.Reply ρ × Desk μ ρ)
  | .fetchId, d => some (d.nextId, { d with nextId := d.nextId + 1 })
  | .insert id, d => some ((), d.set id .waiting)
  | .remove id, d =>
      match d.slots id with
      | .waiting => some ((), d.set id .dropped)
      | _ => some ((), d)
  | .send m, d =>
      (d.outbox.send cap m).map fun a => (a.1, { d with outbox := a.2 })
  | .await id, d => (d.slots id).outcome.map fun r => (r, d)

@[simp] theorem set_slots_self (d : Desk μ ρ) (id : Int) (s : Slot ρ) :
    (d.set id s).slots id = s := Function.update_self ..

theorem set_slots_ne (d : Desk μ ρ) {id id' : Int} (s : Slot ρ)
    (h : id' ≠ id) : (d.set id s).slots id' = d.slots id' :=
  Function.update_of_ne h ..

@[simp] theorem set_nextId (d : Desk μ ρ) (id : Int) (s : Slot ρ) :
    (d.set id s).nextId = d.nextId := rfl

@[simp] theorem set_outbox (d : Desk μ ρ) (id : Int) (s : Slot ρ) :
    (d.set id s).outbox = d.outbox := rfl

theorem take_eq_some {d d' : Desk μ ρ} {id : Int} :
    d.take id = some d' ↔ d.slots id = .waiting ∧ d' = d.set id .taken := by
  unfold take
  cases h : d.slots id with
  | waiting => simp [eq_comm]
  | _ => simp

theorem clear_slots (d : Desk μ ρ) (id : Int) :
    d.clear.slots id ≠ .waiting
      ∧ (d.slots id ≠ .waiting → d.clear.slots id = d.slots id) := by
  unfold clear
  cases h : d.slots id with
  | _ => simp [h]

end Desk

-- ============================================ tasks that share a desk

/-- The desk's questions, and any others. -/
abbrev AtDesk (μ ρ : Type) (J : Iface) : Iface := (DeskIface μ ρ).sum J

/-- The other questions are answered by the readings of the world. -/
abbrev Answers (J : Iface) : Type := (q : J.Query) → J.Reply q

variable {μ ρ α C : Type} {J : Iface}

/-- What tasks at a desk share. -/
def deskShared (cap : Nat) (μ ρ : Type) (J : Iface) :
    Shared (AtDesk μ ρ J) (Answers J) (Desk μ ρ) where
  answer
    | _, .inl q, d => Desk.answer cap q d
    | w, .inr q, d => some (w q, d)

/-- A question to the desk, in a program. -/
def atDesk (q : DeskQuery μ) (k : q.Reply ρ → Prog (AtDesk μ ρ J) α) :
    Prog (AtDesk μ ρ J) α := .ask (.inl q) k

@[simp] theorem sat_atDesk {q : DeskQuery μ}
    {k : q.Reply ρ → Prog (AtDesk μ ρ J) α}
    {Φ : List (Exchange (AtDesk μ ρ J)) → α → Prop} :
    (atDesk q k).Sat Φ
      ↔ ∀ r, (k r).Sat fun tr a => Φ (⟨.inl q, r⟩ :: tr) a := Iff.rfl

@[simp] theorem atDesk_bind {β : Type} {q : DeskQuery μ}
    {k : q.Reply ρ → Prog (AtDesk μ ρ J) α}
    {f : α → Prog (AtDesk μ ρ J) β} :
    (atDesk q k >>= f) = atDesk q fun r => k r >>= f := rfl

theorem left_atDesk {q : DeskQuery μ}
    {k : q.Reply ρ → Prog (AtDesk μ ρ J) α}
    {tr : List (Exchange (AtDesk μ ρ J))} {p : Prog (AtDesk μ ρ J) α} :
    (atDesk q k).Left tr p ↔ (tr = [] ∧ p = atDesk q k)
      ∨ ∃ r tr', tr = ⟨.inl q, r⟩ :: tr' ∧ (k r).Left tr' p :=
  Prog.left_ask

/-- The exchanges with the desk. -/
abbrev fetched (id : Int) : Exchange (AtDesk μ ρ J) := ⟨.inl .fetchId, id⟩

abbrev inserted (id : Int) : Exchange (AtDesk μ ρ J) :=
  ⟨.inl (.insert id), ()⟩

abbrev removed (id : Int) : Exchange (AtDesk μ ρ J) :=
  ⟨.inl (.remove id), ()⟩

abbrev sent (m : μ) (ok : Bool) : Exchange (AtDesk μ ρ J) :=
  ⟨.inl (.send m), ok⟩

abbrev awaited (id : Int) (r : Option ρ) : Exchange (AtDesk μ ρ J) :=
  ⟨.inl (.await id), r⟩

/-- The number an exchange has fetched. -/
def fetchedId : Exchange (AtDesk μ ρ J) → Option Int
  | ⟨.inl .fetchId, id⟩ => some id
  | _ => none

/-- The message an exchange has sent. -/
def sentMsg : Exchange (AtDesk μ ρ J) → Option μ
  | ⟨.inl (.send m), _⟩ => some m
  | _ => none

/-- The message an exchange has had accepted. -/
def acceptedMsg : Exchange (AtDesk μ ρ J) → Option μ
  | ⟨.inl (.send m), ok⟩ => bif ok then some m else none
  | _ => none

theorem fetchedId_eq_some {x : Exchange (AtDesk μ ρ J)} {id : Int} :
    fetchedId x = some id ↔ x = fetched id := by
  constructor
  · intro h
    match x, h with
    | ⟨.inl .fetchId, n⟩, h => exact congrArg fetched (Option.some.inj h)
  · intro h
    rw [h]
    rfl

theorem acceptedMsg_eq_some {x : Exchange (AtDesk μ ρ J)} {m : μ} :
    acceptedMsg x = some m ↔ x = sent m true := by
  constructor
  · intro h
    match x, h with
    | ⟨.inl (.send m'), true⟩, h =>
        exact congrArg (sent · true) (Option.some.inj h)
  · intro h
    rw [h]
    rfl

/-- The number under which an exchange has left a waiter. -/
def insertedId : Exchange (AtDesk μ ρ J) → Option Int
  | ⟨.inl (.insert id), _⟩ => some id
  | _ => none

/-- The response an exchange has got, with its number. -/
def gotResponse : Exchange (AtDesk μ ρ J) → Option (Int × ρ)
  | ⟨.inl (.await id), some r⟩ => some (id, r)
  | _ => none

theorem gotResponse_eq_some {x : Exchange (AtDesk μ ρ J)} {id : Int}
    {r : ρ} : gotResponse x = some (id, r) ↔ x = awaited id (some r) := by
  constructor
  · intro h
    match x, h with
    | ⟨.inl (.await n), some s⟩, h =>
        have heq : (n, s) = (id, r) := Option.some.inj h
        rw [Prod.mk.injEq] at heq
        rw [heq.1, heq.2]
  · intro h
    rw [h]
    rfl

-- ========================================= what the exchanges say of it

/-- What the exchanges of all tasks say of the desk. -/
structure Recorded (h : List (Exchange (AtDesk μ ρ J))) (d : Desk μ ρ) :
    Prop where
  accepted : d.outbox.accepted = h.filterMap acceptedMsg
  distinct : (h.filterMap fetchedId).Nodup
  below : ∀ id ∈ h.filterMap fetchedId, id < d.nextId
  used : ∀ id, d.slots id ≠ .unused ↔ id ∈ h.filterMap insertedId
  answered : ∀ e ∈ h.filterMap gotResponse, d.slots e.1 = .resolved e.2

theorem recorded_nil (firstId : Int) :
    Recorded ([] : List (Exchange (AtDesk μ ρ J))) (.new firstId) where
  accepted := rfl
  distinct := .nil
  below := by simp
  used := by simp [Desk.new]
  answered := by simp

/-- The desk goes on without its tasks: nothing is accepted, a waiter is
as used as it was, and one that was handed a response keeps it. -/
structure Later (d d' : Desk μ ρ) : Prop where
  nextId : d'.nextId = d.nextId
  accepted : d'.outbox.accepted = d.outbox.accepted
  used : ∀ id, d'.slots id = .unused ↔ d.slots id = .unused
  resolved : ∀ id r, d.slots id = .resolved r → d'.slots id = .resolved r

theorem Recorded.later {h : List (Exchange (AtDesk μ ρ J))}
    {d d' : Desk μ ρ} (hd : Recorded h d) (hl : Later d d') :
    Recorded h d' where
  accepted := hl.accepted.trans hd.accepted
  distinct := hd.distinct
  below := by
    rw [hl.nextId]
    exact hd.below
  used id := by
    rw [← hd.used id]
    exact not_congr (hl.used id)
  answered e he := hl.resolved e.1 e.2 (hd.answered e he)

/-- What a question can do: leave a waiter that has not been used before
or drop one that waits, and have a message accepted. -/
structure Asked (d d' : Desk μ ρ) : Prop where
  slots : ∀ id, d'.slots id = d.slots id
    ∨ (d.slots id = .unused ∧ d'.slots id = .waiting)
    ∨ (d.slots id = .waiting ∧ d'.slots id = .dropped)
  accepted : d.outbox.accepted <+: d'.outbox.accepted
  received : d'.outbox.received = d.outbox.received
  alive : d'.outbox.alive = d.outbox.alive

/-- An exchange more, read by `f`. -/
theorem filterMap_snoc {β γ : Type} {f : β → Option γ} {h : List β} {x : β} :
    (h ++ [x]).filterMap f = h.filterMap f ++ (f x).toList := by
  rw [List.filterMap_append]
  cases hx : f x with
  | none => rw [List.filterMap_cons_none hx, List.filterMap_nil]; rfl
  | some y => rw [List.filterMap_cons_some hx, List.filterMap_nil]; rfl

theorem filterMap_skip {β γ : Type} {f : β → Option γ} {h : List β} {x : β}
    (hx : f x = none) : (h ++ [x]).filterMap f = h.filterMap f := by
  rw [filterMap_snoc, hx]
  exact List.append_nil _

/-- An exchange that says nothing new of the desk. -/
theorem Recorded.skip {h : List (Exchange (AtDesk μ ρ J))} {d : Desk μ ρ}
    (hd : Recorded h d) {x : Exchange (AtDesk μ ρ J)}
    (hacc : acceptedMsg x = none) (hfetch : fetchedId x = none)
    (hins : insertedId x = none)
    (hgot : ∀ e, gotResponse x = some e → d.slots e.1 = .resolved e.2) :
    Recorded (h ++ [x]) d where
  accepted := by
    rw [filterMap_skip hacc]
    exact hd.accepted
  distinct := by
    rw [filterMap_skip hfetch]
    exact hd.distinct
  below := by
    rw [filterMap_skip hfetch]
    exact hd.below
  used := by
    rw [filterMap_skip hins]
    exact hd.used
  answered e he := by
    rw [filterMap_snoc] at he
    rcases List.mem_append.mp he with he | he
    · exact hd.answered e he
    · exact hgot e (Option.mem_toList.mp he)

/-- A number is given out. -/
theorem Recorded.fetch {h : List (Exchange (AtDesk μ ρ J))} {d : Desk μ ρ}
    (hd : Recorded h d) :
    Recorded (h ++ [fetched d.nextId]) { d with nextId := d.nextId + 1 } where
  accepted := by
    rw [filterMap_skip rfl]
    exact hd.accepted
  distinct := by
    rw [filterMap_snoc]
    apply List.nodup_append.mpr
    refine ⟨hd.distinct, by simp [fetchedId], ?_⟩
    intro id hid n hn
    have hlt := hd.below id hid
    have heq : n = d.nextId := List.mem_singleton.mp hn
    omega
  below id hid := by
    rw [filterMap_snoc] at hid
    show id < d.nextId + 1
    rcases List.mem_append.mp hid with hid | hid
    · have hlt := hd.below id hid
      omega
    · have heq : id = d.nextId := List.mem_singleton.mp hid
      omega
  used := by
    rw [filterMap_skip rfl]
    exact hd.used
  answered := by
    rw [filterMap_skip rfl]
    exact hd.answered

/-- A waiter is left under a new number. -/
theorem Recorded.insert {h : List (Exchange (AtDesk μ ρ J))} {d : Desk μ ρ}
    (hd : Recorded h d) {id : Int} (hunused : d.slots id = .unused) :
    Recorded (h ++ [inserted id]) (d.set id .waiting) where
  accepted := by
    rw [filterMap_skip rfl]
    exact hd.accepted
  distinct := by
    rw [filterMap_skip rfl]
    exact hd.distinct
  below := by
    rw [filterMap_skip rfl]
    exact hd.below
  used n := by
    rw [filterMap_snoc, List.mem_append, ← hd.used n]
    by_cases hn : n = id
    · rw [hn, Desk.set_slots_self]
      simp [insertedId]
    · rw [Desk.set_slots_ne d .waiting hn]
      simp [insertedId, hn]
  answered e he := by
    rw [filterMap_skip rfl] at he
    have hold := hd.answered e he
    have hn : e.1 ≠ id := by
      intro hn
      rw [hn, hunused] at hold
      cases hold
    rw [Desk.set_slots_ne d .waiting hn]
    exact hold

/-- A message is accepted. -/
theorem Recorded.send {h : List (Exchange (AtDesk μ ρ J))} {d : Desk μ ρ}
    (hd : Recorded h d) (m : μ) :
    Recorded (h ++ [sent m true]) { d with
      outbox := { d.outbox with accepted := d.outbox.accepted ++ [m] } } where
  accepted := by
    rw [filterMap_snoc, ← hd.accepted]
    rfl
  distinct := by
    rw [filterMap_skip rfl]
    exact hd.distinct
  below := by
    rw [filterMap_skip rfl]
    exact hd.below
  used := by
    rw [filterMap_skip rfl]
    exact hd.used
  answered := by
    rw [filterMap_skip rfl]
    exact hd.answered

theorem Asked.refl (d : Desk μ ρ) : Asked d d :=
  ⟨fun _ => .inl rfl, List.prefix_refl _, rfl, rfl⟩

/-- One waiter is left or dropped. -/
theorem Asked.set {d : Desk μ ρ} {id : Int} {s : Slot ρ}
    (h : (d.slots id = .unused ∧ s = .waiting)
      ∨ (d.slots id = .waiting ∧ s = .dropped)) : Asked d (d.set id s) := by
  refine ⟨fun n => ?_, List.prefix_refl _, rfl, rfl⟩
  by_cases hn : n = id
  · rw [hn, Desk.set_slots_self]
    exact .inr h
  · exact .inl (Desk.set_slots_ne d s hn)

/-- A send that is answered is accepted where the receiver is there, and
touches no waiter. -/
theorem answer_send {d d' : Desk μ ρ} {cap : Nat} {w : Answers J} {m : μ}
    {ok : Bool} (ha : (deskShared cap μ ρ J).answer w (.inl (.send m)) d
      = some (ok, d')) :
    ok = d.outbox.alive ∧ d'.slots = d.slots := by
  obtain ⟨⟨ok', c⟩, hsend, heq⟩ := Option.map_eq_some_iff.mp ha
  cases heq
  rcases Channel.send_eq_some hsend with ⟨hok, halive, -⟩ | ⟨hok, halive, -⟩
  · exact ⟨hok.trans halive.symm, rfl⟩
  · exact ⟨hok.trans halive.symm, rfl⟩

/-- A wait that is answered has its waiter's outcome, and changes
nothing. -/
theorem answer_await {d d' : Desk μ ρ} {cap : Nat} {w : Answers J} {id : Int}
    {r : Option ρ} (ha : (deskShared cap μ ρ J).answer w (.inl (.await id)) d
      = some (r, d')) :
    (d.slots id).outcome = some r ∧ d' = d := by
  obtain ⟨o, ho, heq⟩ := Option.map_eq_some_iff.mp ha
  cases heq
  exact ⟨ho, rfl⟩

/-- A waiter that waits goes on waiting, unless it is removed. -/
theorem answer_waiting {d d' : Desk μ ρ} {cap : Nat} {w : Answers J}
    {q : (AtDesk μ ρ J).Query} {r : (AtDesk μ ρ J).Reply q} {id : Int}
    (hremove : q ≠ .inl (.remove id))
    (ha : (deskShared cap μ ρ J).answer w q d = some (r, d'))
    (hw : d.slots id = .waiting) : d'.slots id = .waiting := by
  match q, r, hremove, ha with
  | .inl .fetchId, r, hremove, ha =>
      cases ha
      exact hw
  | .inl (.insert n), r, hremove, ha =>
      cases ha
      by_cases hn : id = n
      · rw [hn, Desk.set_slots_self]
      · rw [Desk.set_slots_ne d .waiting hn]
        exact hw
  | .inl (.remove n), r, hremove, ha =>
      have hn : id ≠ n := by
        intro hn
        rw [hn] at hremove
        exact hremove rfl
      simp only [deskShared, Desk.answer] at ha
      cases hs : d.slots n with
      | waiting =>
          simp only [hs] at ha
          cases ha
          rw [Desk.set_slots_ne d .dropped hn]
          exact hw
      | _ =>
          simp only [hs] at ha
          cases ha
          exact hw
  | .inl (.send m), r, hremove, ha =>
      obtain ⟨a, -, heq⟩ := Option.map_eq_some_iff.mp ha
      cases heq
      exact hw
  | .inl (.await n), r, hremove, ha =>
      obtain ⟨o, -, heq⟩ := Option.map_eq_some_iff.mp ha
      cases heq
      exact hw
  | .inr q, r, hremove, ha =>
      cases ha
      exact hw

/-- One more question, where waiters are left under new numbers only. -/
theorem Recorded.answer {h : List (Exchange (AtDesk μ ρ J))}
    {d d' : Desk μ ρ} {cap : Nat} {w : Answers J}
    {q : (AtDesk μ ρ J).Query} {r : (AtDesk μ ρ J).Reply q}
    (hd : Recorded h d)
    (hnew : ∀ id, q = .inl (.insert id) → id ∉ h.filterMap insertedId)
    (ha : (deskShared cap μ ρ J).answer w q d = some (r, d')) :
    Recorded (h ++ [⟨q, r⟩]) d' ∧ Asked d d' := by
  match q, r, hnew, ha with
  | .inl .fetchId, r, hnew, ha =>
      cases ha
      exact ⟨hd.fetch, ⟨fun _ => .inl rfl, List.prefix_refl _, rfl, rfl⟩⟩
  | .inl (.insert id), r, hnew, ha =>
      cases ha
      have hunused : d.slots id = .unused := by
        by_contra hne
        exact hnew id rfl ((hd.used id).mp hne)
      exact ⟨hd.insert hunused, .set (.inl ⟨hunused, rfl⟩)⟩
  | .inl (.remove id), r, hnew, ha =>
      have hstay := hd.skip (x := ⟨.inl (.remove id), r⟩) rfl rfl rfl
        (fun _ he => nomatch he)
      simp only [deskShared, Desk.answer] at ha
      cases hs : d.slots id with
      | waiting =>
          simp only [hs] at ha
          cases ha
          refine ⟨hstay.later ⟨rfl, rfl, ?_, ?_⟩, .set (.inr ⟨hs, rfl⟩)⟩
          · intro n
            by_cases hn : n = id
            · simp [hn, hs]
            · rw [Desk.set_slots_ne d .dropped hn]
          · intro n r' hr
            have hn : n ≠ id := by
              intro hn
              rw [hn, hs] at hr
              cases hr
            rw [Desk.set_slots_ne d .dropped hn]
            exact hr
      | _ =>
          simp only [hs] at ha
          cases ha
          exact ⟨hstay, .refl d⟩
  | .inl (.send m), r, hnew, ha =>
      obtain ⟨a, hsend, heq⟩ := Option.map_eq_some_iff.mp ha
      cases heq
      obtain ⟨ok, c⟩ := a
      rcases Channel.send_eq_some hsend with ⟨rfl, -, rfl⟩ | ⟨rfl, -, rfl⟩
      · exact ⟨hd.send m,
          ⟨fun _ => .inl rfl, List.prefix_append _ _, rfl, rfl⟩⟩
      · exact ⟨hd.skip rfl rfl rfl (fun _ he => nomatch he), .refl d⟩
  | .inl (.await id), r, hnew, ha =>
      obtain ⟨o, ho, heq⟩ := Option.map_eq_some_iff.mp ha
      cases heq
      refine ⟨hd.skip rfl rfl rfl ?_, .refl d⟩
      intro e he
      have hx := gotResponse_eq_some.mp he
      cases hs : d.slots id with
      | resolved s =>
          rw [hs] at ho
          cases ho
          cases hx
          exact hs
      | dropped =>
          rw [hs] at ho
          cases ho
          cases hx
      | _ =>
          rw [hs] at ho
          cases ho
  | .inr q, r, hnew, ha =>
      cases ha
      exact ⟨hd.skip rfl rfl rfl (fun _ he => nomatch he), .refl d⟩

end Interact
