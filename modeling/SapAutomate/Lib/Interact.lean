/-
Programs that talk to an environment: a finite tree of questions, each
continued by a function of the answer. The environment is anything
that answers — a remote system, a mock, an adversary — so a property of
every environment is a property of every branch of the tree.

# The two readings

- `Prog.exec` runs a program against one environment with a state of
  its own, and records the exchanges in the order they happened. This
  is the operational reading: concrete runs compute.
- `Prog.Sat` is the demonic precondition over the tree: the
  postcondition, a predicate on the exchanges and the result, holds
  whatever the answers are. This is the reading proofs use.

`Sat.exec` carries the second to the first. `Prog.interp` replaces each
question by a program over another interface, which is how a client
trait is plugged with an implementation.
-/

namespace Interact

-- =========================================================== programs

/-- What can be asked, and what each question is answered with. -/
structure Iface where
  Query : Type
  Reply : Query → Type

/-- A program over `I` returning `α`. -/
inductive Prog (I : Iface) (α : Type) : Type where
  | done (a : α)
  | ask (q : I.Query) (k : I.Reply q → Prog I α)

/-- One question with its answer. -/
structure Exchange (I : Iface) where
  query : I.Query
  reply : I.Reply query

/-- An environment with state `σ`. -/
structure Env (I : Iface) (σ : Type) where
  answer : (q : I.Query) → σ → I.Reply q × σ

/-- What a run leaves: the result, the exchanges in order, and the
environment's last state. -/
structure Outcome (I : Iface) (σ α : Type) where
  result : α
  trace : List (Exchange I)
  state : σ

variable {I J : Iface} {α β σ : Type}

/-- The replies are the environment's answers, in turn. -/
def Env.Plays (env : Env I σ) : σ → List (Exchange I) → Prop
  | _, [] => True
  | s, x :: xs =>
      x.reply = (env.answer x.query s).1
        ∧ env.Plays (env.answer x.query s).2 xs

namespace Prog

/-- Sequencing. -/
def bind : Prog I α → (α → Prog I β) → Prog I β
  | .done a, f => f a
  | .ask q k, f => .ask q fun r => (k r).bind f

instance : Monad (Prog I) where
  pure := .done
  bind := bind

/-- Ask one question and return its answer. -/
def query (q : I.Query) : Prog I (I.Reply q) := .ask q .done

@[simp] theorem pure_eq (a : α) : (pure a : Prog I α) = .done a := rfl

@[simp] theorem bind_done (a : α) (f : α → Prog I β) :
    (Prog.done a >>= f) = f a := rfl

@[simp] theorem done_bind (a : α) (f : α → Prog I β) :
    (Prog.done a).bind f = f a := rfl

@[simp] theorem bind_ask (q : I.Query) (k : I.Reply q → Prog I α)
    (f : α → Prog I β) :
    (Prog.ask q k >>= f) = .ask q fun r => k r >>= f := rfl

@[simp] theorem bind_query (q : I.Query) (f : I.Reply q → Prog I β) :
    (query q >>= f) = .ask q f := rfl

-- ================================================================ runs

/-- The run against one environment. -/
def exec (env : Env I σ) : Prog I α → σ → Outcome I σ α
  | .done a, s => ⟨a, [], s⟩
  | .ask q k, s =>
      let a := env.answer q s
      let o := (k a.1).exec env a.2
      { o with trace := ⟨q, a.1⟩ :: o.trace }

@[simp] theorem exec_done (env : Env I σ) (a : α) (s : σ) :
    (Prog.done a).exec env s = ⟨a, [], s⟩ := rfl

theorem exec_ask_result (env : Env I σ) (q : I.Query)
    (k : I.Reply q → Prog I α) (s : σ) :
    ((Prog.ask q k).exec env s).result
      = ((k (env.answer q s).1).exec env (env.answer q s).2).result := rfl

theorem exec_ask_state (env : Env I σ) (q : I.Query)
    (k : I.Reply q → Prog I α) (s : σ) :
    ((Prog.ask q k).exec env s).state
      = ((k (env.answer q s).1).exec env (env.answer q s).2).state := rfl

/-- The second program goes on from where the first has left. -/
theorem exec_bind_result (env : Env I σ) (p : Prog I α) (f : α → Prog I β)
    (s : σ) : ((p >>= f).exec env s).result
      = ((f (p.exec env s).result).exec env (p.exec env s).state).result := by
  induction p generalizing s with
  | done a => rfl
  | ask q k ih => exact ih _ _

/-- The exchanges of a run are the environment's answers, in turn. -/
theorem exec_plays (env : Env I σ) (p : Prog I α) (s : σ) :
    env.Plays s (p.exec env s).trace := by
  induction p generalizing s with
  | done a => trivial
  | ask q k ih => exact ⟨rfl, ih _ _⟩

-- ============================================== demonic postconditions

/-- `Φ` holds of the exchanges and the result on every branch. -/
def Sat : Prog I α → (List (Exchange I) → α → Prop) → Prop
  | .done a, Φ => Φ [] a
  | .ask q k, Φ => ∀ r, (k r).Sat fun tr a => Φ (⟨q, r⟩ :: tr) a

@[simp] theorem sat_done (a : α) (Φ : List (Exchange I) → α → Prop) :
    (Prog.done a).Sat Φ ↔ Φ [] a := Iff.rfl

@[simp] theorem sat_ask (q : I.Query) (k : I.Reply q → Prog I α)
    (Φ : List (Exchange I) → α → Prop) :
    (Prog.ask q k).Sat Φ
      ↔ ∀ r, (k r).Sat fun tr a => Φ (⟨q, r⟩ :: tr) a := Iff.rfl

/-- A weaker postcondition. -/
theorem Sat.mono {p : Prog I α} {Φ Ψ : List (Exchange I) → α → Prop}
    (h : p.Sat Φ) (hw : ∀ tr a, Φ tr a → Ψ tr a) : p.Sat Ψ := by
  induction p generalizing Φ Ψ with
  | done a => exact hw _ _ h
  | ask q k ih => exact fun r => ih r (h r) fun tr a => hw _ a

/-- Sequencing: the second program starts from what the first leaves,
and its exchanges follow. -/
theorem sat_bind {p : Prog I α} {f : α → Prog I β}
    {Φ : List (Exchange I) → β → Prop} :
    (p >>= f).Sat Φ
      ↔ p.Sat fun tr a => (f a).Sat fun tr' b => Φ (tr ++ tr') b := by
  induction p generalizing Φ with
  | done a => exact Iff.rfl
  | ask q k ih => exact forall_congr' fun r => ih r

/-- A demonic postcondition holds of every run. -/
theorem Sat.exec {p : Prog I α} {Φ : List (Exchange I) → α → Prop}
    (h : p.Sat Φ) (env : Env I σ) (s : σ) :
    Φ (p.exec env s).trace (p.exec env s).result := by
  induction p generalizing Φ s with
  | done a => exact h
  | ask q k ih => exact ih _ (h _) _

/-- Where every question can be answered, some branch is there to meet
the postcondition. -/
theorem Sat.exists_branch (hI : ∀ q : I.Query, Nonempty (I.Reply q))
    {p : Prog I α} {Φ : List (Exchange I) → α → Prop} (h : p.Sat Φ) :
    ∃ tr a, Φ tr a := by
  induction p generalizing Φ with
  | done a => exact ⟨[], a, h⟩
  | ask q k ih =>
      obtain ⟨r⟩ := hI q
      obtain ⟨tr, a, hΦ⟩ := ih r (h r)
      exact ⟨⟨q, r⟩ :: tr, a, hΦ⟩

-- ======================================================= what is left

/-- After the exchanges `tr`, the rest of a program. -/
inductive Left : Prog I α → List (Exchange I) → Prog I α → Prop where
  | none (p : Prog I α) : Left p [] p
  | cons {q : I.Query} {k : I.Reply q → Prog I α} (r : I.Reply q)
      {tr : List (Exchange I)} {p : Prog I α} (h : Left (k r) tr p) :
      Left (.ask q k) (⟨q, r⟩ :: tr) p

/-- One exchange more. -/
theorem Left.snoc {p : Prog I α} {tr : List (Exchange I)} {q : I.Query}
    {k : I.Reply q → Prog I α} (h : Left p tr (.ask q k))
    (r : I.Reply q) : Left p (tr ++ [⟨q, r⟩]) (k r) := by
  generalize hq : Prog.ask q k = p' at h
  induction h with
  | none p =>
      rw [← hq]
      exact .cons r (.none _)
  | cons r' h ih => exact .cons r' (ih hq)

theorem Left.sat {p p' : Prog I α} {tr : List (Exchange I)}
    (h : Left p tr p') {Φ : List (Exchange I) → α → Prop}
    (hΦ : p.Sat Φ) : p'.Sat fun tr' a => Φ (tr ++ tr') a := by
  induction h generalizing Φ with
  | none p => exact hΦ
  | cons r h ih => exact ih (hΦ r)

/-- A postcondition is one of the exchanges and results a program can
come to. -/
theorem sat_of_left {p : Prog I α} {Φ : List (Exchange I) → α → Prop}
    (h : ∀ tr a, p.Left tr (.done a) → Φ tr a) : p.Sat Φ := by
  induction p generalizing Φ with
  | done a => exact h [] a (.none _)
  | ask q k ih => exact fun r => ih r fun tr a hl => h _ a (.cons r hl)

@[simp] theorem left_done {a : α} {tr : List (Exchange I)}
    {p : Prog I α} : Left (.done a) tr p ↔ tr = [] ∧ p = .done a := by
  constructor
  · intro h
    cases h
    exact ⟨rfl, rfl⟩
  · intro h
    rw [h.1, h.2]
    exact .none _

/-- Either nothing has been asked, or the first question has had its
answer. -/
theorem left_ask {q : I.Query} {k : I.Reply q → Prog I α}
    {tr : List (Exchange I)} {p : Prog I α} :
    Left (.ask q k) tr p ↔ (tr = [] ∧ p = .ask q k)
      ∨ ∃ r tr', tr = ⟨q, r⟩ :: tr' ∧ Left (k r) tr' p := by
  constructor
  · intro h
    cases h with
    | none => exact .inl ⟨rfl, rfl⟩
    | cons r h => exact .inr ⟨r, _, rfl, h⟩
  · intro h
    rcases h with h | ⟨r, tr', htr, h⟩
    · rw [h.1, h.2]
      exact .none _
    · rw [htr]
      exact .cons r h

-- ====================================================== interpretation

/-- Replace every question by a program over another interface. -/
def interp (impl : (q : I.Query) → Prog J (I.Reply q)) :
    Prog I α → Prog J α
  | .done a => .done a
  | .ask q k => impl q >>= fun r => (k r).interp impl

@[simp] theorem interp_done (impl : (q : I.Query) → Prog J (I.Reply q))
    (a : α) : (Prog.done a).interp impl = .done a := rfl

@[simp] theorem interp_ask (impl : (q : I.Query) → Prog J (I.Reply q))
    (q : I.Query) (k : I.Reply q → Prog I α) :
    (Prog.ask q k).interp impl
      = (impl q >>= fun r => (k r).interp impl) := rfl

/-- Two programs in turn: within the first, or past it. -/
theorem left_bind {p : Prog I α} {f : α → Prog I β}
    {tr : List (Exchange I)} {p' : Prog I β} (h : (p >>= f).Left tr p') :
    (∃ q k, p.Left tr (.ask q k) ∧ p' = .ask q fun r => k r >>= f)
      ∨ ∃ tr₁ tr₂ a, tr = tr₁ ++ tr₂ ∧ p.Left tr₁ (.done a)
        ∧ (f a).Left tr₂ p' := by
  induction p generalizing tr with
  | done a => exact .inr ⟨[], tr, a, rfl, .none _, h⟩
  | ask q k ih =>
      rcases left_ask.mp h with ⟨rfl, rfl⟩ | ⟨r, tr', rfl, hr⟩
      · exact .inl ⟨q, k, .none _, rfl⟩
      · rcases ih r hr with ⟨q', k', hk', rfl⟩
          | ⟨tr₁, tr₂, a, rfl, hdone, hrest⟩
        · exact .inl ⟨q', k', .cons r hk', rfl⟩
        · exact .inr ⟨⟨q, r⟩ :: tr₁, tr₂, a, rfl, .cons r hdone, hrest⟩

/-- The exchanges of an interpreted program: those of the programs its
questions are replaced by, in turn. -/
inductive Unfolds (impl : (q : I.Query) → Prog J (I.Reply q)) :
    List (Exchange I) → List (Exchange J) → Prop where
  | nil : Unfolds impl [] []
  | cons {q : I.Query} {r : I.Reply q} {tr : List (Exchange J)}
      {xs : List (Exchange I)} {ys : List (Exchange J)}
      (h : (impl q).Left tr (.done r)) (hrest : Unfolds impl xs ys) :
      Unfolds impl (⟨q, r⟩ :: xs) (tr ++ ys)

/-- An interpreted program has unfolded some exchanges of the program,
and is over or within the next question. -/
theorem left_interp {impl : (q : I.Query) → Prog J (I.Reply q)}
    {p : Prog I α} {tr : List (Exchange J)} {p' : Prog J α}
    (h : (p.interp impl).Left tr p') :
    (∃ xs a, p.Left xs (.done a) ∧ Unfolds impl xs tr ∧ p' = .done a)
      ∨ ∃ xs tr₁ tr₂ q k q' k', p.Left xs (.ask q k) ∧ Unfolds impl xs tr₁
        ∧ tr = tr₁ ++ tr₂ ∧ (impl q).Left tr₂ (.ask q' k')
        ∧ p' = .ask q' fun r => k' r >>= fun s => (k s).interp impl := by
  induction p generalizing tr with
  | done a =>
      obtain ⟨rfl, rfl⟩ := left_done.mp h
      exact .inl ⟨[], a, .none _, .nil, rfl⟩
  | ask q k ih =>
      rcases left_bind h with ⟨q', k', hk', rfl⟩
        | ⟨tr₁, tr₂, r, rfl, hdone, hr⟩
      · exact .inr ⟨[], [], tr, q, k, q', k', .none _, .nil, rfl, hk', rfl⟩
      · rcases ih r hr with ⟨xs, a, hxs, hun, rfl⟩
          | ⟨xs, tr₃, tr₄, q', k', q'', k'', hxs, hun, rfl, hk'', rfl⟩
        · exact .inl ⟨⟨q, r⟩ :: xs, a, .cons r hxs, .cons hdone hun, rfl⟩
        · exact .inr ⟨⟨q, r⟩ :: xs, tr₁ ++ tr₃, tr₄, q', k', q'', k'',
            .cons r hxs, .cons hdone hun, (List.append_assoc ..).symm, hk'',
            rfl⟩

-- ======================================================== what is asked

/-- Whatever the answers, only questions of `P` are asked. -/
def Asks (P : I.Query → Prop) : Prog I α → Prop
  | .done _ => True
  | .ask q k => P q ∧ ∀ r, (k r).Asks P

@[simp] theorem asks_done (P : I.Query → Prop) (a : α) :
    (Prog.done a).Asks P := trivial

theorem asks_bind {P : I.Query → Prop} {p : Prog I α} {f : α → Prog I β}
    (hp : p.Asks P) (hf : ∀ a, (f a).Asks P) : (p >>= f).Asks P := by
  induction p with
  | done a => exact hf a
  | ask q k ih => exact ⟨hp.1, fun r => ih r (hp.2 r)⟩

/-- What is left of a program asks no more than the program. -/
theorem Asks.left {P : I.Query → Prop} {p p' : Prog I α}
    {tr : List (Exchange I)} (h : p.Asks P) (hl : p.Left tr p') :
    p'.Asks P := by
  induction hl with
  | none p => exact h
  | cons r hl ih => exact ih (h.2 r)

/-- The questions asked so far are among those a program asks. -/
theorem Asks.asked {P : I.Query → Prop} {p p' : Prog I α}
    {tr : List (Exchange I)} (h : p.Asks P) (hl : p.Left tr p') :
    ∀ x ∈ tr, P x.query := by
  induction hl with
  | none p => exact fun x hx => nomatch hx
  | cons r hl ih =>
      intro x hx
      rcases List.mem_cons.mp hx with hx | hx
      · rw [hx]
        exact h.1
      · exact ih (h.2 r) x hx

/-- The questions of every run are among them. -/
theorem Asks.sat {P : I.Query → Prop} {p : Prog I α} (h : p.Asks P) :
    p.Sat fun tr _ => ∀ x ∈ tr, P x.query := by
  induction p with
  | done a => exact fun _ hx => nomatch hx
  | ask q k ih =>
      refine fun r => (ih r (h.2 r)).mono fun tr a htr x hx => ?_
      rcases List.mem_cons.mp hx with rfl | hx
      · exact h.1
      · exact htr x hx

/-- Where every question asked is replaced by a program whose exchanges
satisfy `Φ`, and `Φ` is kept by concatenation, so do those of the whole. -/
theorem Asks.sat_interp {P : I.Query → Prop} {Φ : List (Exchange J) → Prop}
    {impl : (q : I.Query) → Prog J (I.Reply q)} (hnil : Φ [])
    (happend : ∀ tr tr', Φ tr → Φ tr' → Φ (tr ++ tr'))
    (himpl : ∀ q, P q → (impl q).Sat fun tr _ => Φ tr) {p : Prog I α}
    (h : p.Asks P) : (p.interp impl).Sat fun tr _ => Φ tr := by
  induction p with
  | done a => exact hnil
  | ask q k ih =>
      rw [interp_ask, sat_bind]
      refine (himpl q h.1).mono fun tr r htr => ?_
      exact (ih r (h.2 r)).mono fun tr' _ htr' => happend tr tr' htr htr'

/-- Whatever the answers, each question asked is in `P` with the exchanges
before it, those of `h` first. -/
def Poses (P : List (Exchange I) → I.Query → Prop) :
    Prog I α → List (Exchange I) → Prop
  | .done _, _ => True
  | .ask q k, h => P h q ∧ ∀ r, (k r).Poses P (h ++ [⟨q, r⟩])

@[simp] theorem poses_done (P : List (Exchange I) → I.Query → Prop) (a : α)
    (h : List (Exchange I)) : (Prog.done a).Poses P h := trivial

@[simp] theorem poses_ask {P : List (Exchange I) → I.Query → Prop}
    {q : I.Query} {k : I.Reply q → Prog I α} {h : List (Exchange I)} :
    (Prog.ask q k).Poses P h ↔ P h q ∧ ∀ r, (k r).Poses P (h ++ [⟨q, r⟩]) :=
  Iff.rfl

/-- Sequencing: the second program starts with what the first leaves. -/
theorem poses_bind {P : List (Exchange I) → I.Query → Prop} {p : Prog I α}
    {f : α → Prog I β} {h : List (Exchange I)} :
    (p >>= f).Poses P h ↔ p.Poses P h
      ∧ p.Sat fun tr a => (f a).Poses P (h ++ tr) := by
  induction p generalizing h with
  | done a => simp
  | ask q k ih =>
      simp only [bind_ask, poses_ask, sat_ask, ih, List.append_assoc,
        List.singleton_append, and_assoc, forall_and]

/-- Nothing is asked in a place where it is not in `P`. -/
theorem Poses.left {P : List (Exchange I) → I.Query → Prop} {p : Prog I α}
    {h tr : List (Exchange I)} (hp : p.Poses P h) {q : I.Query}
    {k : I.Reply q → Prog I α} (hl : p.Left tr (.ask q k)) :
    P (h ++ tr) q := by
  generalize hq : Prog.ask q k = p' at hl
  induction hl generalizing h with
  | none p =>
      subst hq
      rw [List.append_nil]
      exact hp.1
  | cons r hl ih =>
      have hrest := ih (hp.2 r) hq
      rwa [List.append_assoc, List.singleton_append] at hrest

/-- Where exchanges before do not matter. -/
theorem Asks.poses {Q : I.Query → Prop} {P : List (Exchange I) → I.Query → Prop}
    {p : Prog I α} (h : p.Asks Q) (hP : ∀ h q, Q q → P h q)
    (hist : List (Exchange I)) : p.Poses P hist := by
  induction p generalizing hist with
  | done a => trivial
  | ask q k ih => exact ⟨hP hist q h.1, fun r => ih r (h.2 r) _⟩

end Prog

-- ================================================================= sums

/-- The questions of either interface. -/
def Iface.sum (I J : Iface) : Iface where
  Query := I.Query ⊕ J.Query
  Reply
    | .inl q => I.Reply q
    | .inr q => J.Reply q

/-- Two environments side by side, each with a state of its own. -/
def Env.sum {τ : Type} (env : Env I σ) (env' : Env J τ) :
    Env (I.sum J) (σ × τ) where
  answer
    | .inl q, s => ((env.answer q s.1).1, (env.answer q s.1).2, s.2)
    | .inr q, s => ((env'.answer q s.2).1, s.1, (env'.answer q s.2).2)

/-- An answer on the left is the left environment's. -/
theorem Env.Plays.of_mem_inl {τ : Type} {env : Env I σ} {env' : Env J τ}
    {q : I.Query} {r : I.Reply q} :
    ∀ {tr : List (Exchange (I.sum J))} {s : σ × τ},
      (env.sum env').Plays s tr → ⟨.inl q, r⟩ ∈ tr →
      ∃ s', r = (env.answer q s').1 := by
  intro tr
  induction tr with
  | nil => intro s _ hx; cases hx
  | cons x tr ih =>
      intro s h hx
      rcases List.mem_cons.mp hx with rfl | hx
      · exact ⟨s.1, h.1⟩
      · exact ih h.2 hx

namespace Prog

/-- The same program over a larger interface. -/
def inl : Prog I α → Prog (I.sum J) α
  | .done a => .done a
  | .ask q k => .ask (.inl q) fun r => (k r).inl

/-- The same program over a larger interface. -/
def inr : Prog J α → Prog (I.sum J) α
  | .done a => .done a
  | .ask q k => .ask (.inr q) fun r => (k r).inr

/-- Replace the questions on the left. -/
def interpLeft {K : Iface} (impl : (q : I.Query) → Prog J (I.Reply q)) :
    Prog (I.sum K) α → Prog (J.sum K) α :=
  interp fun
    | .inl q => (impl q).inl
    | .inr q => (query q).inr

theorem asks_inr {P : (I.sum J).Query → Prop} {p : Prog J α}
    (h : ∀ q, P (.inr q)) : (p.inr : Prog (I.sum J) α).Asks P := by
  induction p with
  | done a => trivial
  | ask q k ih => exact ⟨h q, fun r => ih r⟩

/-- A postcondition of the lifted program, from one of the program. -/
theorem sat_inl {p : Prog I α} {Φ : List (Exchange (I.sum J)) → α → Prop}
    (h : p.Sat fun tr a => Φ (tr.map fun x => ⟨.inl x.query, x.reply⟩) a) :
    (p.inl : Prog (I.sum J) α).Sat Φ := by
  induction p generalizing Φ with
  | done a => exact h
  | ask q k ih => exact fun r => ih r (h r)

end Prog

end Interact
