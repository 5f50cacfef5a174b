/-
Pools of tasks at a desk, and the one who hands responses over.

# The argument

A number is given out once (`Recorded.distinct`), so what two tasks do
under one number is done by one task (`Pool.task_unique`). That a task
leaves waiters only under numbers it has fetched, each once, is a
property of its program alone: `Orderly`, proved of every branch with
`Prog.Sat` and carried to the pool by `Pool.Tracked`. From both, a
waiter is always left under an unused number, which is what keeps
`Recorded` along a run.

A response that comes in is matched against the waiters and then handed
over, in two steps. `Handed` says that waiters have been handed nothing
but responses that came in under their number.
-/
import SapAutomate.Lib.Desk

namespace Interact

variable {μ ρ α C : Type} {J : Iface}

-- ============================================================ discipline

/-- The number under which an exchange asks for a response. -/
def sentNumber (number : μ → Option Int) :
    Exchange (AtDesk μ ρ J) → Option Int
  | ⟨.inl (.send m), _⟩ => number m
  | _ => none

/-- What a task has asked by some moment: a waiter is left under each
number in the order the numbers were fetched, and at most one request is
made and one response got under each. `number` is the number a message
asks a response under. -/
structure Numbered (number : μ → Option Int)
    (tr : List (Exchange (AtDesk μ ρ J))) : Prop where
  inserted : tr.filterMap insertedId <+: tr.filterMap fetchedId
  got : ((tr.filterMap gotResponse).map Prod.fst).Sublist
    (tr.filterMap fetchedId)
  asked : (tr.filterMap (sentNumber number)).Sublist
    (tr.filterMap fetchedId)

/-- So at every moment. -/
def Orderly (number : μ → Option Int)
    (tr : List (Exchange (AtDesk μ ρ J))) : Prop :=
  ∀ pre, pre <+: tr → Numbered number pre

/-- And no number is left without its waiter. -/
def Closed (number : μ → Option Int)
    (tr : List (Exchange (AtDesk μ ρ J))) : Prop :=
  Orderly number tr ∧ tr.filterMap insertedId = tr.filterMap fetchedId

variable {number : μ → Option Int}

theorem Orderly.now {tr : List (Exchange (AtDesk μ ρ J))}
    (h : Orderly number tr) : Numbered number tr :=
  h tr (List.prefix_refl tr)

theorem Orderly.before {tr tr' : List (Exchange (AtDesk μ ρ J))}
    (h : Orderly number (tr ++ tr')) : Orderly number tr :=
  fun pre hpre => h pre (hpre.trans (List.prefix_append tr tr'))

theorem orderly_nil :
    Orderly number ([] : List (Exchange (AtDesk μ ρ J))) := by
  intro pre hpre
  rw [List.prefix_nil.mp hpre]
  exact ⟨List.prefix_refl [], List.Sublist.refl [], List.Sublist.refl []⟩

theorem Orderly.snoc {tr : List (Exchange (AtDesk μ ρ J))}
    {x : Exchange (AtDesk μ ρ J)} (h : Orderly number tr)
    (hx : Numbered number (tr ++ [x])) : Orderly number (tr ++ [x]) := by
  intro pre hpre
  rcases List.prefix_concat_iff.mp hpre with hpre | hpre
  · rw [hpre]
    exact hx
  · exact h pre hpre

/-- A prefix of two lists put together ends in the first or goes on in
the second. -/
theorem prefix_append_cases {β : Type} {pre xs ys : List β}
    (h : pre <+: xs ++ ys) :
    pre <+: xs ∨ ∃ pre', pre = xs ++ pre' ∧ pre' <+: ys := by
  obtain ⟨suf, hsuf⟩ := h
  rcases List.append_eq_append_iff.mp hsuf with h | h
  · obtain ⟨as, hxs, -⟩ := h
    exact .inl ⟨as, hxs.symm⟩
  · obtain ⟨bs, hpre, hys⟩ := h
    exact .inr ⟨bs, hpre, ⟨suf, hys.symm⟩⟩

theorem Closed.append {tr tr' : List (Exchange (AtDesk μ ρ J))}
    (h : Closed number tr) (h' : Closed number tr') :
    Closed number (tr ++ tr') := by
  obtain ⟨hord, heq⟩ := h
  obtain ⟨hord', heq'⟩ := h'
  refine ⟨?_, by rw [List.filterMap_append, List.filterMap_append, heq, heq']⟩
  intro pre hpre
  rcases prefix_append_cases hpre with hpre | ⟨pre', rfl, hrest⟩
  · exact hord pre hpre
  · have hnow := hord.now
    have hlast := hord' pre' hrest
    constructor
    · rw [List.filterMap_append, List.filterMap_append, heq]
      exact (List.prefix_append_right_inj _).mpr hlast.inserted
    · rw [List.filterMap_append, List.map_append, List.filterMap_append]
      exact hnow.got.append hlast.got
    · rw [List.filterMap_append, List.filterMap_append]
      exact hnow.asked.append hlast.asked

/-- Exchanges that are about no number of the task's. -/
theorem closed_of_quiet {tr : List (Exchange (AtDesk μ ρ J))}
    (hfetch : tr.filterMap fetchedId = [])
    (hins : tr.filterMap insertedId = [])
    (hgot : tr.filterMap gotResponse = [])
    (hsent : tr.filterMap (sentNumber number) = []) :
    Closed number tr := by
  refine ⟨?_, hins.trans hfetch.symm⟩
  intro pre hpre
  have hnil : ∀ {γ : Type} {f : Exchange (AtDesk μ ρ J) → Option γ},
      tr.filterMap f = [] → pre.filterMap f = [] := by
    intro γ f hf
    have hsub := hpre.filterMap f
    rw [hf] at hsub
    exact List.prefix_nil.mp hsub
  constructor
  · rw [hnil hins]
    exact List.nil_prefix
  · rw [hnil hgot]
    exact List.nil_sublist _
  · rw [hnil hsent]
    exact List.nil_sublist _

/-- A request is made under a fetched number, with its waiter left
before. -/
theorem closed_request {id : Int} {m : μ} (hm : number m = some id)
    (ok : Bool) :
    Closed number ([fetched id, inserted id, sent m ok] :
      List (Exchange (AtDesk μ ρ J))) := by
  have hone : Orderly number ([fetched id] :
      List (Exchange (AtDesk μ ρ J))) :=
    orderly_nil.snoc
      ⟨List.nil_prefix, List.nil_sublist _, List.nil_sublist _⟩
  have htwo : Orderly number ([fetched id, inserted id] :
      List (Exchange (AtDesk μ ρ J))) :=
    hone.snoc
      ⟨List.prefix_refl [id], List.nil_sublist _, List.nil_sublist _⟩
  refine ⟨htwo.snoc ⟨List.prefix_refl [id], List.nil_sublist _, ?_⟩, rfl⟩
  have hnumber : ([fetched id, inserted id, sent m ok] :
      List (Exchange (AtDesk μ ρ J))).filterMap (sentNumber number)
        = [id] := by
    simp only [List.filterMap, sentNumber, hm]
  exact hnumber ▸ List.Sublist.refl [id]

/-- And then its response is got, or its waiter removed. -/
theorem closed_request_then {id : Int} {m : μ} (hm : number m = some id)
    (ok : Bool) {x : Exchange (AtDesk μ ρ J)} (hfetch : fetchedId x = none)
    (hins : insertedId x = none) (hsent : sentNumber number x = none)
    (hgot : ∀ e, gotResponse x = some e → e.1 = id) :
    Closed number ([fetched id, inserted id, sent m ok] ++ [x] :
      List (Exchange (AtDesk μ ρ J))) := by
  obtain ⟨hord, heq⟩ := closed_request (ρ := ρ) (J := J) hm ok
  have hnow := hord.now
  refine ⟨hord.snoc ⟨?_, ?_, ?_⟩, ?_⟩
  · rw [filterMap_skip hins, filterMap_skip hfetch]
    exact hnow.inserted
  · rw [filterMap_skip hfetch, filterMap_snoc]
    cases hx : gotResponse x with
    | none => exact List.nil_sublist _
    | some e =>
        have hid : e.1 = id := hgot e hx
        rw [← hid]
        exact List.Sublist.refl [e.1]
  · rw [filterMap_skip hsent, filterMap_skip hfetch]
    exact hnow.asked
  · rw [filterMap_skip hins, filterMap_skip hfetch]
    exact heq

-- ======================================================= pools at a desk

variable {p p' : Pool (AtDesk μ ρ J) C (Answers J) (Desk μ ρ) α}

/-- The exchanges of all tasks, in order. -/
def Pool.history (p : Pool (AtDesk μ ρ J) C (Answers J) (Desk μ ρ) α) :
    List (Exchange (AtDesk μ ρ J)) := p.trace.map (·.exchange)

theorem Pool.own_sublist_history (i : Nat) :
    (p.own i).Sublist p.history :=
  List.filter_sublist.map _

/-- What is found once is found in one place. -/
theorem eq_of_nodup_filterMap {β γ : Type} {f : β → Option γ} {l : List β}
    (hnd : (l.filterMap f).Nodup) {x y : β} (hx : x ∈ l) (hy : y ∈ l)
    {b : γ} (hfx : f x = some b) (hfy : f y = some b) : x = y := by
  induction l with
  | nil => cases hx
  | cons z l ih =>
      have hhead : f z = some b → ∀ t ∈ l, f t ≠ some b := by
        intro hz t ht hft
        rw [List.filterMap_cons_some hz] at hnd
        exact (List.nodup_cons.mp hnd).1 (List.mem_filterMap.mpr ⟨t, ht, hft⟩)
      have htail : (l.filterMap f).Nodup :=
        hnd.sublist ((List.sublist_cons_self z l).filterMap f)
      rcases List.mem_cons.mp hx with hx | hx
      · rcases List.mem_cons.mp hy with hy | hy
        · rw [hx, hy]
        · rw [hx] at hfx
          exact absurd hfy (hhead hfx y hy)
      · rcases List.mem_cons.mp hy with hy | hy
        · rw [hy] at hfy
          exact absurd hfx (hhead hfy x hx)
        · exact ih htail hx hy

/-- What is found once in a history was found by one task. -/
theorem Pool.task_unique {γ : Type}
    {f : Exchange (AtDesk μ ρ J) → Option γ}
    (hnd : (p.history.filterMap f).Nodup) {i j : Nat} {b : γ}
    (hi : b ∈ (p.own i).filterMap f) (hj : b ∈ (p.own j).filterMap f) :
    i = j := by
  obtain ⟨x, hx, hfx⟩ := List.mem_filterMap.mp hi
  obtain ⟨y, hy, hfy⟩ := List.mem_filterMap.mp hj
  obtain ⟨u, hu, rfl, rfl⟩ := Pool.mem_own.mp hx
  obtain ⟨v, hv, rfl, rfl⟩ := Pool.mem_own.mp hy
  rw [history, List.filterMap_map] at hnd
  exact congrArg Moment.task (eq_of_nodup_filterMap hnd hu hv hfx hfy)

/-- Every question can be answered somehow. -/
theorem nonempty_reply (w : Answers J) :
    ∀ q : (AtDesk μ ρ J).Query, Nonempty ((AtDesk μ ρ J).Reply q)
  | .inl .fetchId => ⟨(0 : Int)⟩
  | .inl (.insert _) => ⟨()⟩
  | .inl (.remove _) => ⟨()⟩
  | .inl (.send _) => ⟨true⟩
  | .inl (.await _) => ⟨(none : Option ρ)⟩
  | .inr q => ⟨w q⟩

/-- A task's exchanges are orderly, with one more that is next. -/
theorem Pool.Tracked.orderly {body : C → Prog (AtDesk μ ρ J) α}
    (hp : p.Tracked body)
    (hbody : ∀ c, (body c).Sat fun tr _ => Orderly number tr)
    (w : Answers J) {i : Nat} {t : Task (AtDesk μ ρ J) C α}
    (ht : p.tasks[i]? = some t) : Orderly number (p.own i) := by
  obtain ⟨tr, a, h⟩ := hp.branch (nonempty_reply w) ht (hbody t.call)
  exact h.before

theorem Pool.Tracked.orderly_next {body : C → Prog (AtDesk μ ρ J) α}
    (hp : p.Tracked body)
    (hbody : ∀ c, (body c).Sat fun tr _ => Orderly number tr)
    (w : Answers J) {i : Nat} {t : Task (AtDesk μ ρ J) C α}
    (ht : p.tasks[i]? = some t) {q : (AtDesk μ ρ J).Query}
    {k : (AtDesk μ ρ J).Reply q → Prog (AtDesk μ ρ J) α}
    (hprog : t.prog = .ask q k) (r : (AtDesk μ ρ J).Reply q) :
    Orderly number (p.own i ++ [⟨q, r⟩]) := by
  have hleft := hp.left i t ht
  rw [hprog] at hleft
  obtain ⟨tr, a, h⟩ := ((hleft.snoc r).sat (hbody t.call)).exists_branch
    (nonempty_reply w)
  exact h.before

/-- A waiter is left under a number that has had none. -/
theorem Recorded.insert_new {body : C → Prog (AtDesk μ ρ J) α}
    (hp : p.Tracked body)
    (hbody : ∀ c, (body c).Sat fun tr _ => Orderly number tr)
    (w : Answers J) (hd : Recorded p.history p.shared) {i : Nat}
    {t : Task (AtDesk μ ρ J) C α} (ht : p.tasks[i]? = some t) {id : Int}
    {k : Unit → Prog (AtDesk μ ρ J) α}
    (hprog : t.prog = .ask (.inl (.insert id)) k) :
    id ∉ p.history.filterMap insertedId := by
  have hnext := (hp.orderly_next hbody w ht hprog ()).now.inserted
  rw [filterMap_snoc, filterMap_skip rfl] at hnext
  have hnext' : (p.own i).filterMap insertedId ++ [id]
      <+: (p.own i).filterMap fetchedId := hnext
  have hmine : id ∈ (p.own i).filterMap fetchedId :=
    hnext'.subset (by simp)
  have hnd : ((p.own i).filterMap insertedId ++ [id]).Nodup :=
    (hd.distinct.sublist ((Pool.own_sublist_history i).filterMap _)).sublist
      hnext'.sublist
  intro hin
  obtain ⟨x, hx, hfx⟩ := List.mem_filterMap.mp hin
  obtain ⟨m, hm, rfl⟩ := List.mem_map.mp hx
  have hown : id ∈ (p.own m.task).filterMap insertedId :=
    List.mem_filterMap.mpr ⟨_, Pool.mem_own.mpr ⟨m, hm, rfl, rfl⟩, hfx⟩
  obtain ⟨u, hu⟩ : ∃ u, p.tasks[m.task]? = some u :=
    ⟨_, List.getElem?_eq_getElem (hp.known m hm)⟩
  have hfetched : id ∈ (p.own m.task).filterMap fetchedId :=
    (hp.orderly hbody w hu).now.inserted.subset hown
  have heq : m.task = i := Pool.task_unique hd.distinct hfetched hmine
  rw [heq] at hown
  have := (List.nodup_append.mp hnd).2.2 id hown id (by simp)
  exact this rfl

/-- One task goes on. -/
theorem Recorded.resume {body : C → Prog (AtDesk μ ρ J) α} {cap i : Nat}
    {w : Answers J} (hp : p.Tracked body)
    (hbody : ∀ c, (body c).Sat fun tr _ => Orderly number tr)
    (hd : Recorded p.history p.shared)
    (hres : p.resume (deskShared cap μ ρ J) i w = some p') :
    Recorded p'.history p'.shared ∧ Asked p.shared p'.shared := by
  obtain ⟨t, q, k, r, d, ht, hprog, ha, rfl⟩ := Pool.resume_eq_some.mp hres
  have hnew : ∀ id, q = .inl (.insert id) →
      id ∉ p.history.filterMap insertedId := by
    intro id hq
    subst hq
    exact Recorded.insert_new hp hbody w hd ht hprog
  obtain ⟨hrec, hasked⟩ := hd.answer hnew ha
  refine ⟨?_, hasked⟩
  rw [Pool.history, List.map_append]
  exact hrec

-- ============================================================== handover

/-- A response on its way to its waiter: not yet matched, or matched and
not yet handed over. -/
inductive Handover (ρ : Type) where
  | matching (id : Int) (r : ρ)
  | delivering (id : Int) (r : ρ)

namespace Handover

def entry : Handover ρ → Int × ρ
  | .matching id r => (id, r)
  | .delivering id r => (id, r)

/-- The next step, if there is one more after it. -/
def step : Handover ρ → Desk μ ρ → Option (Handover ρ) × Desk μ ρ
  | .matching id r, d =>
      match d.take id with
      | some d' => (some (.delivering id r), d')
      | none => (none, d)
  | .delivering id r, d => (none, d.set id (.resolved r))

theorem step_outbox (x : Handover ρ) (d : Desk μ ρ) :
    (x.step d).2.outbox = d.outbox := by
  cases x with
  | matching id r =>
      cases ht : d.take id with
      | none => simp only [step, ht]
      | some d' =>
          simp only [step, ht]
          rw [(Desk.take_eq_some.mp ht).2, Desk.set_outbox]
  | delivering id r => rfl

end Handover

/-- Waiters hold responses from `log` only, and the one that is taken is
the one whose response is on its way. -/
structure Handed (log : List (Int × ρ)) (h : Option (Handover ρ))
    (d : Desk μ ρ) : Prop where
  resolved : ∀ id r, d.slots id = .resolved r → (id, r) ∈ log
  current : ∀ x, h = some x → x.entry ∈ log
  taken : ∀ id, d.slots id = .taken ↔ ∃ r, h = some (.delivering id r)

variable {log log' : List (Int × ρ)} {h : Option (Handover ρ)}
  {d d' : Desk μ ρ}

theorem handed_new (firstId : Int) :
    Handed [] none (.new firstId : Desk μ ρ) where
  resolved := by simp [Desk.new]
  current := by simp
  taken := by simp [Desk.new]

theorem Handed.mono (hd : Handed log h d) (hlog : ∀ e ∈ log, e ∈ log') :
    Handed log' h d where
  resolved id r hr := hlog _ (hd.resolved id r hr)
  current x hx := hlog _ (hd.current x hx)
  taken := hd.taken

theorem Handed.congr (hd : Handed log h d) (hs : d'.slots = d.slots) :
    Handed log h d' where
  resolved := by
    rw [hs]
    exact hd.resolved
  current := hd.current
  taken := by
    rw [hs]
    exact hd.taken

/-- A response comes in. -/
theorem Handed.start (hd : Handed log none d) {id : Int} {r : ρ}
    (hin : (id, r) ∈ log) : Handed log (some (.matching id r)) d where
  resolved := hd.resolved
  current x hx := by
    cases hx
    exact hin
  taken n := by
    rw [hd.taken n]
    simp

/-- A task has asked. -/
theorem Handed.asked (hd : Handed log h d) (ha : Asked d d') :
    Handed log h d' where
  resolved id r hr := by
    rcases ha.slots id with hs | ⟨-, hs⟩ | ⟨-, hs⟩
    · exact hd.resolved id r (hs ▸ hr)
    · rw [hs] at hr
      cases hr
    · rw [hs] at hr
      cases hr
  current := hd.current
  taken id := by
    rw [← hd.taken id]
    rcases ha.slots id with hs | ⟨hold, hs⟩ | ⟨hold, hs⟩
    · rw [hs]
    · rw [hs, hold]
      simp
    · rw [hs, hold]
      simp

/-- The response goes on its way. -/
theorem Handed.step {x : Handover ρ} (hd : Handed log (some x) d) :
    Handed log (x.step d).1 (x.step d).2 ∧ Later d (x.step d).2 := by
  have hentry := hd.current x rfl
  cases x with
  | matching id r =>
      have htaken : ∀ n, d.slots n ≠ .taken := by
        intro n hn
        obtain ⟨s, hs⟩ := (hd.taken n).mp hn
        cases hs
      cases ht : d.take id with
      | none =>
          have hstep : (Handover.matching id r).step d = (none, d) := by
            simp only [Handover.step, ht]
          rw [hstep]
          refine ⟨⟨hd.resolved, by simp, ?_⟩, ⟨rfl, rfl, fun _ => Iff.rfl,
            fun _ _ hs => hs⟩⟩
          intro n
          simp [htaken n]
      | some d₁ =>
          have hstep : (Handover.matching id r).step d
              = (some (.delivering id r), d₁) := by
            simp only [Handover.step, ht]
          rw [hstep]
          obtain ⟨hw, rfl⟩ := Desk.take_eq_some.mp ht
          refine ⟨⟨?_, ?_, ?_⟩, ⟨rfl, rfl, ?_, ?_⟩⟩
          · intro n s hs
            by_cases hn : n = id
            · rw [hn, Desk.set_slots_self] at hs
              cases hs
            · rw [Desk.set_slots_ne d .taken hn] at hs
              exact hd.resolved n s hs
          · intro x hx
            cases hx
            exact hentry
          · intro n
            by_cases hn : n = id
            · simp [hn]
            · rw [Desk.set_slots_ne d .taken hn]
              simp [htaken n, Ne.symm hn]
          · intro n
            by_cases hn : n = id
            · simp [hn, hw]
            · rw [Desk.set_slots_ne d .taken hn]
          · intro n s hs
            have hn : n ≠ id := by
              intro hn
              rw [hn, hw] at hs
              cases hs
            rw [Desk.set_slots_ne d .taken hn]
            exact hs
  | delivering id r =>
      have hw : d.slots id = .taken := (hd.taken id).mpr ⟨r, rfl⟩
      refine ⟨⟨?_, by simp [Handover.step], ?_⟩, ⟨rfl, rfl, ?_, ?_⟩⟩
      · intro n s hs
        by_cases hn : n = id
        · subst hn
          have heq : s = r := by simpa [Handover.step, eq_comm] using hs
          rw [heq]
          exact hentry
        · have hs' : d.slots n = .resolved s := by
            rw [← Desk.set_slots_ne d (.resolved r) hn]
            exact hs
          exact hd.resolved n s hs'
      · intro n
        simp only [Handover.step]
        by_cases hn : n = id
        · simp [hn]
        · rw [Desk.set_slots_ne d (.resolved r) hn]
          have hnot : d.slots n ≠ .taken := by
            intro ht
            obtain ⟨s, hs⟩ := (hd.taken n).mp ht
            cases hs
            exact hn rfl
          simp [hnot]
      · intro n
        simp only [Handover.step]
        by_cases hn : n = id
        · simp [hn, hw]
        · rw [Desk.set_slots_ne d (.resolved r) hn]
      · intro n s hs
        have hn : n ≠ id := by
          intro hn
          rw [hn, hw] at hs
          cases hs
        simp only [Handover.step]
        rw [Desk.set_slots_ne d (.resolved r) hn]
        exact hs

/-- The other end of the channel does something. -/
theorem Handed.outbox (hd : Handed log h d) {c : Channel μ}
    (hc : c.accepted = d.outbox.accepted) :
    Handed log h { d with outbox := c } ∧ Later d { d with outbox := c } :=
  ⟨hd.congr rfl, ⟨rfl, hc, fun _ => Iff.rfl, fun _ _ hr => hr⟩⟩

/-- The waiters that are left are dropped. -/
theorem Handed.clear (hd : Handed log none d) :
    Handed log none d.clear ∧ Later d d.clear := by
  have hcases : ∀ id, (d.slots id = .waiting ∧ d.clear.slots id = .dropped)
      ∨ (d.slots id ≠ .waiting ∧ d.clear.slots id = d.slots id) := by
    intro id
    unfold Desk.clear
    cases hs : d.slots id with
    | waiting => simp [hs]
    | _ => simp [hs]
  refine ⟨⟨?_, by simp, ?_⟩, ⟨rfl, rfl, ?_, ?_⟩⟩
  · intro id r hr
    rcases hcases id with ⟨-, hs⟩ | ⟨-, hs⟩
    · rw [hs] at hr
      cases hr
    · exact hd.resolved id r (hs ▸ hr)
  · intro id
    rw [← hd.taken id]
    rcases hcases id with ⟨hold, hs⟩ | ⟨-, hs⟩
    · simp [hold, hs]
    · rw [hs]
  · intro id
    rcases hcases id with ⟨hold, hs⟩ | ⟨-, hs⟩
    · simp [hold, hs]
    · rw [hs]
  · intro id r hr
    rcases hcases id with ⟨hold, -⟩ | ⟨-, hs⟩
    · rw [hold] at hr
      cases hr
    · rw [hs]
      exact hr

end Interact
