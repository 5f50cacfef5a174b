/-
Trees whose children are in growable vectors, and raw pointers into them.

A vector without room moves its cells to where the allocator puts them, and
what was there before is gone: a pointer to a cell is an address and an
index, and reading through one whose buffer is gone is undefined (`none`).

`Holds` says that the buffers from a vector on are those of a forest, none
of them twice. A path of pointers down the rightmost nodes (`OnPath`) is
kept by a push under its last node (`pushUnder_holds`): only the children
of that node can move, and none of them is on the path.
-/
import SapAutomate.Lib.Forest

namespace Arena

abbrev Addr := Nat

/-- A node where it lies: its label, and the buffer of its children, if
they have one yet. -/
structure Cell (α : Type) where
  label : α
  children : Option Addr

/-- The buffer of a vector: room for so many, and the cells. -/
structure Buffer (α : Type) where
  cap : Nat
  cells : List (Cell α)

/-- The live buffers. There are none from some address on. -/
structure Heap (α : Type) where
  get : Addr → Option (Buffer α)
  bound : Addr
  free : ∀ a, bound ≤ a → get a = none

/-- A pointer to a cell. -/
abbrev Ptr := Addr × Nat

/-- Where new buffers come to lie, where those go that grow, and how much
room they have then. -/
structure Allocator (α : Type) where
  alloc : Heap α → Addr
  alloc_free : ∀ h : Heap α, h.get (alloc h) = none
  realloc : Heap α → Addr → Addr
  realloc_free : ∀ (h : Heap α) (a : Addr), realloc h a = a ∨ h.get (realloc h a) = none
  grow : Nat → Nat

variable {α : Type}

/-- All that is new, or grows, lies past what is live. -/
instance : Inhabited (Allocator α) where
  default := {
    alloc := Heap.bound
    alloc_free := fun h => h.free h.bound (Nat.le_refl _)
    realloc := fun h _ => h.bound
    realloc_free := fun h _ => .inr (h.free h.bound (Nat.le_refl _))
    grow := fun cap => max 4 (cap + cap) }

namespace Heap

def empty : Heap α := ⟨fun _ => none, 0, fun _ _ => rfl⟩

def insert (h : Heap α) (a : Addr) (b : Buffer α) : Heap α where
  get x := if x = a then some b else h.get x
  bound := max h.bound (a + 1)
  free := fun x hx => by
    have hbound : h.bound ≤ x := Nat.le_trans (Nat.le_max_left _ _) hx
    have hlt : a < x := Nat.le_trans (Nat.le_max_right _ _) hx
    rw [if_neg (Nat.ne_of_gt hlt), h.free x hbound]

def erase (h : Heap α) (a : Addr) : Heap α where
  get x := if x = a then none else h.get x
  bound := h.bound
  free := fun x hx => by
    rw [h.free x hx, ite_self]

@[simp] theorem get_insert_self (h : Heap α) (a : Addr) (b : Buffer α) :
    (h.insert a b).get a = some b := if_pos rfl

theorem get_insert_ne (h : Heap α) {a x : Addr} (hx : x ≠ a)
    (b : Buffer α) : (h.insert a b).get x = h.get x := if_neg hx

theorem get_erase_ne (h : Heap α) {a x : Addr} (hx : x ≠ a) :
    (h.erase a).get x = h.get x := if_neg hx

/-- The cell a pointer denotes. -/
def read (h : Heap α) (p : Ptr) : Option (Cell α) :=
  (h.get p.1).bind fun b => b.cells[p.2]?

/-- `vec.push`: the heap after it, and where the vector lies. -/
def push (A : Allocator α) (h : Heap α) (v : Option Addr) (x : α) :
    Option (Heap α × Addr) :=
  match v with
  | none => some (h.insert (A.alloc h) ⟨A.grow 0, [⟨x, none⟩]⟩, A.alloc h)
  | some a =>
      match h.get a with
      | none => none
      | some b =>
          if b.cells.length < b.cap then
            some (h.insert a ⟨b.cap, b.cells ++ [⟨x, none⟩]⟩, a)
          else
            some ((h.erase a).insert (A.realloc h a)
              ⟨A.grow b.cap, b.cells ++ [⟨x, none⟩]⟩, A.realloc h a)

/-- The pointer to the last cell of a vector. -/
def lastPtr (h : Heap α) (a : Addr) : Option Ptr :=
  (h.get a).map fun b => (a, b.cells.length - 1)

/-- The children of a cell lie here from now on. -/
def setChildren (h : Heap α) (p : Ptr) (a : Addr) : Option (Heap α) := do
  let b ← h.get p.1
  let c ← b.cells[p.2]?
  return h.insert p.1 ⟨b.cap, b.cells.set p.2 ⟨c.label, some a⟩⟩

/-- `children.push` of the node a pointer denotes, and the pointer to the
new node. -/
def pushUnder (A : Allocator α) (h : Heap α) (p : Ptr) (x : α) :
    Option (Heap α × Ptr) := do
  let c ← h.read p
  let s ← h.push A c.children x
  let h' ← s.1.setChildren p s.2
  let q ← h'.lastPtr s.2
  return (h', q)

/-- The forest of these cells, the last one first. -/
def loadCells (load : Option Addr → Option (Forest α)) :
    List (Cell α) → Option (Forest α)
  | [] => some .nil
  | c :: cs => do
      let f ← loadCells load cs
      let kids ← load c.children
      return f.snoc c.label kids

/-- The forest of a vector, to so many levels. -/
def load (h : Heap α) : Nat → Option Addr → Option (Forest α)
  | _, none => some .nil
  | 0, some _ => none
  | n + 1, some a =>
      (h.get a).bind fun b => loadCells (load h n) b.cells.reverse

end Heap

-- =========================================================== ownership

/-- A vector, or cells that lie side by side. -/
inductive Place (α : Type) where
  | vec (v : Option Addr)
  | cells (cs : List (Cell α))

/-- The buffers at these addresses are those of the forest. -/
inductive Holds (h : Heap α) : Place α → Forest α → List Addr → Prop where
  | none : Holds h (.vec none) .nil []
  | buffer {a : Addr} {b : Buffer α} {f : Forest α} {A : List Addr}
      (hb : h.get a = some b) (hf : Holds h (.cells b.cells) f A)
      (ha : a ∉ A) : Holds h (.vec (some a)) f (a :: A)
  | nil : Holds h (.cells []) .nil []
  | snoc {cs : List (Cell α)} {c : Cell α} {f kids : Forest α}
      {A B : List Addr} (hf : Holds h (.cells cs) f A)
      (hkids : Holds h (.vec c.children) kids B) (hd : A.Disjoint B) :
      Holds h (.cells (cs ++ [c])) (f.snoc c.label kids) (A ++ B)

namespace Holds

variable {h h' : Heap α} {pl : Place α} {f : Forest α} {A : List Addr}

theorem live (hh : Holds h pl f A) : ∀ a ∈ A, ∃ b, h.get a = some b := by
  induction hh with
  | none => exact fun a ha => nomatch ha
  | buffer hb _ _ ih =>
      intro x hx
      rcases List.mem_cons.mp hx with rfl | hx
      · exact ⟨_, hb⟩
      · exact ih x hx
  | nil => exact fun a ha => nomatch ha
  | snoc _ _ _ ihf ihk =>
      intro x hx
      rcases List.mem_append.mp hx with hx | hx
      · exact ihf x hx
      · exact ihk x hx

theorem frame (hh : Holds h pl f A) (heq : ∀ a ∈ A, h'.get a = h.get a) :
    Holds h' pl f A := by
  induction hh with
  | none => exact .none
  | buffer hb _ ha ih =>
      refine .buffer ?_ (ih fun x hx => heq x (List.mem_cons_of_mem _ hx)) ha
      rw [heq _ List.mem_cons_self, hb]
  | nil => exact .nil
  | snoc _ _ hd ihf ihk =>
      exact .snoc (ihf fun x hx => heq x (List.mem_append_left _ hx))
        (ihk fun x hx => heq x (List.mem_append_right _ hx)) hd

/-- What a vector holds, where it lies somewhere. -/
theorem of_some {a : Addr} (hh : Holds h (.vec (some a)) f A) :
    ∃ b A', h.get a = some b ∧ Holds h (.cells b.cells) f A' ∧ a ∉ A'
      ∧ A = a :: A' := by
  cases hh with
  | buffer hb hf ha => exact ⟨_, _, hb, hf, ha, rfl⟩

/-- The last one of some cells. -/
theorem of_snoc {cells : List (Cell α)} {x : α} {kids : Forest α}
    (hh : Holds h (.cells cells) (f.snoc x kids) A) :
    ∃ cs c A₁ A₂, cells = cs ++ [c] ∧ c.label = x ∧ A = A₁ ++ A₂
      ∧ Holds h (.cells cs) f A₁ ∧ Holds h (.vec c.children) kids A₂
      ∧ A₁.Disjoint A₂ := by
  cases hh with
  | snoc hf hkids hd => exact ⟨_, _, _, _, rfl, rfl, rfl, hf, hkids, hd⟩

end Holds

/-- A change of what is held at `A`, to what is held at `A'`: new addresses
were free, and nothing else is touched. -/
structure Moved (h h' : Heap α) (A A' : List Addr) : Prop where
  fresh : ∀ a ∈ A', a ∈ A ∨ h.get a = none
  same : ∀ a, a ∉ A → a ∉ A' → h'.get a = h.get a

/-- What is held beside it stays as it is. -/
theorem Moved.outside {h h' : Heap α} {A A' : List Addr}
    (hm : Moved h h' A A') {a : Addr} (ha : a ∉ A) {b : Buffer α}
    (hb : h.get a = some b) : a ∉ A' ∧ h'.get a = some b := by
  have hnot : a ∉ A' := by
    intro hmem
    rcases hm.fresh a hmem with h' | h'
    · exact ha h'
    · rw [hb] at h'
      cases h'
  exact ⟨hnot, (hm.same a ha hnot).trans hb⟩

/-- A push grafts a node on a forest. -/
theorem push_holds (Al : Allocator α) {h : Heap α} {v : Option Addr}
    {f : Forest α} {A : List Addr} (hh : Holds h (.vec v) f A) (x : α) :
    ∃ h' a A' b, h.push Al v x = some (h', a)
      ∧ Holds h' (.vec (some a)) (f.graft 0 x) A' ∧ Moved h h' A A'
      ∧ h'.get a = some b
      ∧ ∃ cs, b.cells = cs ++ [⟨x, none⟩] := by
  cases v with
  | none =>
      cases hh with
      | none =>
          refine ⟨_, _, [Al.alloc h], _, rfl, ?_, ⟨?_, ?_⟩,
            Heap.get_insert_self _ _ _, [], rfl⟩
          · have hone : Holds (h.insert (Al.alloc h)
                ⟨Al.grow 0, [⟨x, none⟩]⟩) (.cells ([] ++ [⟨x, none⟩]))
                (Forest.nil.snoc x .nil) ([] ++ []) :=
              .snoc .nil .none (fun a ha => nomatch ha)
            exact .buffer (Heap.get_insert_self _ _ _) hone
              (fun ha => nomatch ha)
          · intro a ha
            rw [List.mem_singleton.mp ha]
            exact .inr (Al.alloc_free h)
          · intro a _ ha
            exact Heap.get_insert_ne _ (fun heq => ha (by simp [heq])) _
  | some a =>
      obtain ⟨b, A', hb, hf, ha, rfl⟩ := hh.of_some
      -- the cells, wherever they lie
      have hput : ∀ (g : Heap α) (a' : Addr) (cap : Nat), a' ∉ A' →
          (∀ y, y ≠ a' → y ≠ a → g.get y = h.get y) →
          Holds (g.insert a' ⟨cap, b.cells ++ [⟨x, none⟩]⟩)
            (.vec (some a')) (f.graft 0 x) (a' :: A') := by
        intro g a' cap ha' hg
        have hframe : ∀ y ∈ A',
            (g.insert a' ⟨cap, b.cells ++ [⟨x, none⟩]⟩).get y = h.get y := by
          intro y hy
          have hne : y ≠ a' := fun heq => ha' (heq ▸ hy)
          rw [Heap.get_insert_ne _ hne]
          exact hg y hne fun heq => ha (heq ▸ hy)
        have hcells := Holds.snoc (c := ⟨x, none⟩) (hf.frame hframe) .none
          (fun y _ hy => nomatch hy)
        rw [List.append_nil] at hcells
        exact .buffer (Heap.get_insert_self _ _ _) hcells ha'
      by_cases hroom : b.cells.length < b.cap
      · refine ⟨_, _, a :: A', _, ?_, hput h a b.cap ha fun y _ _ => rfl,
          ⟨fun y hy => .inl hy, fun y hy _ => ?_⟩,
          Heap.get_insert_self _ _ _, b.cells, rfl⟩
        · simp only [Heap.push, hb, if_pos hroom]
        · exact Heap.get_insert_ne _ (fun heq => hy (by simp [heq])) _
      · have hplace : Al.realloc h a ∉ A' := by
          intro hmem
          rcases Al.realloc_free h a with heq | hfree
          · rw [heq] at hmem
            exact ha hmem
          · obtain ⟨b', hb'⟩ := hf.live _ hmem
            rw [hfree] at hb'
            cases hb'
        refine ⟨_, _, Al.realloc h a :: A', _, ?_,
          hput (h.erase a) (Al.realloc h a) (Al.grow b.cap) hplace
            fun y _ hy => Heap.get_erase_ne h hy, ⟨fun y hy => ?_,
            fun y hy hy' => ?_⟩, Heap.get_insert_self _ _ _, b.cells, rfl⟩
        · simp only [Heap.push, hb, if_neg hroom]
        · rcases List.mem_cons.mp hy with rfl | hy
          · exact (Al.realloc_free h a).imp (fun heq => by simp [heq]) id
          · exact .inl (List.mem_cons_of_mem _ hy)
        · rw [Heap.get_insert_ne _ (fun heq => hy' (by simp [heq])),
            Heap.get_erase_ne _ fun heq => hy (by simp [heq])]

-- ================================================================ paths

/-- The pointers denote the first nodes of the rightmost path. -/
def OnPath (h : Heap α) : Option Addr → Forest α → List Ptr → Prop
  | _, _, [] => True
  | _, .nil, _ :: _ => False
  | v, .snoc _ x kids, p :: ps =>
      v = some p.1 ∧ ∃ b c, h.get p.1 = some b ∧ b.cells.length = p.2 + 1
        ∧ b.cells[p.2]? = some c ∧ c.label = x ∧ OnPath h c.children kids ps

theorem OnPath.length_le {h : Heap α} {v : Option Addr} {f : Forest α}
    {ps : List Ptr} (hp : OnPath h v f ps) (base : Nat) :
    ps.length ≤ (f.spine base).length := by
  induction f generalizing v ps base with
  | nil =>
      cases ps with
      | nil => exact Nat.le_refl _
      | cons p ps => exact absurd hp id
  | snoc f x kids _ ih =>
      cases ps with
      | nil => exact Nat.zero_le _
      | cons p ps =>
          obtain ⟨-, b, c, -, -, -, -, hrest⟩ := hp
          exact Nat.succ_le_succ (ih hrest _)

/-- Fewer pointers are on the path, too. -/
theorem OnPath.left {h : Heap α} {v : Option Addr} {f : Forest α}
    {ps qs : List Ptr} (hp : OnPath h v f (ps ++ qs)) : OnPath h v f ps := by
  induction ps generalizing v f with
  | nil =>
      cases f <;> trivial
  | cons p ps ih =>
      cases f with
      | nil => exact hp
      | snoc f x kids =>
          obtain ⟨hv, b, c, hb, hlen, hc, hx, hrest⟩ := hp
          exact ⟨hv, b, c, hb, hlen, hc, hx, ih hrest⟩

/-- Each of them denotes the node at its place. -/
theorem OnPath.reads {h : Heap α} {v : Option Addr} {f : Forest α}
    {ps : List Ptr} (hp : OnPath h v f ps) (base : Nat) {k : Nat} {p : Ptr}
    (hk : ps[k]? = some p) :
    ∃ c i, h.read p = some c ∧ (f.spine base)[k]? = some (base + i)
      ∧ f.preorder[i]? = some c.label := by
  induction f generalizing v ps base k with
  | nil =>
      cases ps with
      | nil => cases hk
      | cons p ps => exact absurd hp id
  | snoc f x kids _ ih =>
      cases ps with
      | nil => cases hk
      | cons q ps =>
          obtain ⟨-, b, c, hb, -, hc, rfl, hrest⟩ := hp
          cases k with
          | zero =>
              obtain rfl : q = p := Option.some.inj hk
              refine ⟨c, f.size, ?_, rfl, ?_⟩
              · rw [Heap.read, hb, Option.bind_some, hc]
              · rw [Forest.preorder, ← Forest.length_preorder,
                  List.getElem?_append_right (Nat.le_refl _), Nat.sub_self]
                rfl
          | succ k =>
              obtain ⟨d, i, hd, hi, hlabel⟩ := ih hrest (base + f.size + 1) hk
              refine ⟨d, f.size + 1 + i, hd, ?_, ?_⟩
              · rw [Forest.spine, List.getElem?_cons_succ, hi]
                congr 1
                omega
              · rw [Forest.preorder, List.getElem?_append_right (by
                  rw [Forest.length_preorder]
                  omega), Forest.length_preorder]
                have hplace : f.size + 1 + i - f.size = i + 1 := by omega
                rw [hplace, List.getElem?_cons_succ, hlabel]

/-- A graft at the end of a path keeps what is denoted, and the new pointer
denotes the new node. -/
theorem OnPath.graft_reads {h h' : Heap α} {v v' : Option Addr}
    {f : Forest α} {ps : List Ptr} {p : Ptr} {x : α} (hp : OnPath h v f ps)
    (hp' : OnPath h' v' (f.graft ps.length x) (ps ++ [p])) :
    (∀ q ∈ ps, (h'.read q).map Cell.label = (h.read q).map Cell.label)
      ∧ (h'.read p).map Cell.label = some x := by
  have hk := hp.length_le 0
  have hpre := Forest.preorder_graft hk x
  have hspine := Forest.spine_graft hk x
  have htake : ((f.spine 0).take ps.length).length = ps.length :=
    List.length_take_of_le hk
  constructor
  · intro q hq
    obtain ⟨k, hlt, rfl⟩ := List.getElem_of_mem hq
    obtain ⟨c, i, hc, hi, hlabel⟩ := hp.reads 0 (List.getElem?_eq_getElem hlt)
    obtain ⟨c', i', hc', hi', hlabel'⟩ := hp'.reads 0 (k := k)
      (p := ps[k]) (by
        rw [List.getElem?_append_left hlt, List.getElem?_eq_getElem hlt])
    have hlt' : k < ((f.spine 0).take ps.length).length := by
      rw [htake]
      exact hlt
    rw [hspine, List.getElem?_append_left hlt', List.getElem?_take_of_lt hlt,
      hi] at hi'
    obtain rfl : i = i' := by simpa using hi'
    have hold : i < f.preorder.length := (List.getElem?_eq_some_iff.mp hlabel).1
    rw [hpre, List.getElem?_append_left hold, hlabel] at hlabel'
    rw [hc, hc', Option.map_some, Option.map_some, Option.some.inj hlabel']
  · obtain ⟨c, i, hc, hi, hlabel⟩ := hp'.reads 0 (k := ps.length) (p := p)
      (List.getElem?_concat_length)
    have hend : (f.spine 0).take ps.length ++ [0 + f.size]
        = (f.spine 0).take ps.length ++ [f.size] := by rw [Nat.zero_add]
    rw [hspine, hend] at hi
    nth_rewrite 2 [← htake] at hi
    rw [List.getElem?_concat_length] at hi
    obtain rfl : f.size = i := by simpa using hi
    rw [hpre, ← Forest.length_preorder, List.getElem?_concat_length] at hlabel
    rw [hc, Option.map_some, Option.some.inj hlabel]

/-- The last cell of a buffer that has a place on the path. -/
theorem cells_snoc {cells cs : List (Cell α)} {c d : Cell α} {n : Nat}
    (hcells : cells = cs ++ [d]) (hlen : cells.length = n + 1)
    (hc : cells[n]? = some c) : d = c ∧ cs.length = n := by
  subst hcells
  rw [List.length_append, List.length_singleton] at hlen
  have hn : cs.length = n := Nat.succ.inj hlen
  rw [← hn, List.getElem?_concat_length] at hc
  exact ⟨Option.some.inj hc, hn⟩

/-- A change of the children of the last node, and of nothing beside
them. -/
theorem holds_last {h h' : Heap α} {a : Addr} {b b' : Buffer α}
    {cs : List (Cell α)} {c' : Cell α} {f kids : Forest α}
    {A B B' : List Addr} (hb : h.get a = some b)
    (hf : Holds h (.cells cs) f A) (ha : a ∉ A ++ B) (hd : A.Disjoint B)
    (hfresh : ∀ y ∈ B', y ∈ B ∨ h.get y = none)
    (hsame : ∀ y, y ≠ a → y ∉ B → y ∉ B' → h'.get y = h.get y)
    (hb' : h'.get a = some b') (hcells : b'.cells = cs ++ [c'])
    (hkids : Holds h' (.vec c'.children) kids B') :
    Holds h' (.vec (some a)) (f.snoc c'.label kids) (a :: (A ++ B'))
      ∧ Moved h h' (a :: (A ++ B)) (a :: (A ++ B')) := by
  have hlive : ∀ y b, h.get y = some b → y ∉ B → y ∉ B' := by
    intro y b hy hnot hmem
    rcases hfresh y hmem with hB | hnone
    · exact hnot hB
    · rw [hy] at hnone
      cases hnone
  have hA : a ∉ A := fun hmem => ha (List.mem_append_left _ hmem)
  have haB : a ∉ B := fun hmem => ha (List.mem_append_right _ hmem)
  have hbeside : ∀ y ∈ A, y ∉ B' := by
    intro y hy
    obtain ⟨b, hb⟩ := hf.live y hy
    exact hlive y b hb fun hB => hd hy hB
  have hframe : Holds h' (.cells cs) f A := by
    refine hf.frame fun y hy => hsame y ?_ (fun hB => hd hy hB) (hbeside y hy)
    exact fun heq => hA (heq ▸ hy)
  have hall := Holds.snoc hframe hkids fun y hy hB => hbeside y hy hB
  rw [← hcells] at hall
  constructor
  · refine .buffer hb' hall fun hmem => ?_
    rcases List.mem_append.mp hmem with hmem | hmem
    · exact hA hmem
    · exact hlive a b hb haB hmem
  · constructor
    · intro y hy
      rcases List.mem_cons.mp hy with rfl | hy
      · exact .inl List.mem_cons_self
      rcases List.mem_append.mp hy with hy | hy
      · exact .inl (List.mem_cons_of_mem _ (List.mem_append_left _ hy))
      · exact (hfresh y hy).imp_left fun hB =>
          List.mem_cons_of_mem _ (List.mem_append_right _ hB)
    · intro y hy hy'
      simp only [List.mem_cons, List.mem_append, not_or] at hy hy'
      exact hsame y hy.1 hy.2.2 hy'.2.2

/-- A push under the last node of a path grafts a node there, and the path
goes on to it. -/
theorem pushUnder_holds (Al : Allocator α) {h : Heap α} {v : Option Addr}
    {f : Forest α} {A : List Addr} (hh : Holds h (.vec v) f A)
    {ps : List Ptr} {p : Ptr} (hp : OnPath h v f (ps ++ [p])) (x : α) :
    ∃ h' p' A', h.pushUnder Al p x = some (h', p')
      ∧ Holds h' (.vec v) (f.graft (ps.length + 1) x) A' ∧ Moved h h' A A'
      ∧ OnPath h' v (f.graft (ps.length + 1) x) (ps ++ [p, p']) := by
  induction ps generalizing v f A with
  | nil =>
      cases f with
      | nil => exact absurd hp id
      | snoc f y kids =>
          obtain ⟨rfl, b, c, hb, hlen, hc, rfl, -⟩ := hp
          obtain ⟨b₁, A₀, hb₁, hcells, ha, rfl⟩ := hh.of_some
          obtain rfl : b = b₁ := Option.some.inj (hb.symm.trans hb₁)
          obtain ⟨cs, d, A₁, B, hcs, hlabel, rfl, hf, hkids, hd⟩ :=
            hcells.of_snoc
          obtain ⟨rfl, hn⟩ := cells_snoc hcs hlen hc
          obtain ⟨h₁, a₁, B', b', hpush, hholds, hmoved, hb', zs, hzs⟩ :=
            push_holds Al hkids x
          have haB : p.1 ∉ B := fun hmem =>
            ha (List.mem_append_right _ hmem)
          obtain ⟨haB', hb₂⟩ := hmoved.outside haB hb
          have hne : ∀ y ∈ B', y ≠ p.1 := fun y hy heq => haB' (heq ▸ hy)
          have hset : b.cells.set p.2 ⟨d.label, some a₁⟩
              = cs ++ [⟨d.label, some a₁⟩] := by
            rw [hcs, ← hn, List.set_append_right _ _ (Nat.le_refl _),
              Nat.sub_self]
            rfl
          have hne₁ : a₁ ≠ p.1 := by
            obtain ⟨_, _, _, _, _, rfl⟩ := hholds.of_some
            exact hne a₁ List.mem_cons_self
          obtain ⟨hlast, hmoved'⟩ := holds_last hb hf ha hd
            hmoved.fresh (fun y hy hB hB' => by
              rw [Heap.get_insert_ne _ hy]
              exact hmoved.same y hB hB')
            (Heap.get_insert_self h₁ p.1
              ⟨b.cap, b.cells.set p.2 ⟨d.label, some a₁⟩⟩) hset
            (hholds.frame fun y hy => Heap.get_insert_ne _ (hne y hy) _)
          refine ⟨_, (a₁, b'.cells.length - 1), _, ?_, hlast, hmoved', rfl, _,
            ⟨d.label, some a₁⟩, Heap.get_insert_self _ _ _, ?_, ?_, rfl, ?_⟩
          · simp only [Heap.pushUnder, Heap.read, Heap.setChildren,
              Heap.lastPtr, hb, hb₂, hc, hpush, Option.bind_eq_bind,
              Option.bind_some, Option.pure_def,
              Heap.get_insert_ne _ hne₁, hb', Option.map_some]
          · rw [List.length_set, hlen]
          · rw [hset, ← hn, List.getElem?_concat_length]
          · refine ⟨rfl, b', ⟨x, none⟩, ?_, ?_, ?_, rfl, trivial⟩
            · rw [Heap.get_insert_ne _ hne₁, hb']
            · rw [hzs, List.length_append, List.length_singleton,
                Nat.add_sub_cancel]
            · rw [hzs, List.length_append, List.length_singleton,
                Nat.add_sub_cancel, List.getElem?_concat_length]
  | cons q ps ih =>
      cases f with
      | nil => exact absurd hp id
      | snoc f y kids =>
          obtain ⟨rfl, b, c, hb, hlen, hc, rfl, hrest⟩ := hp
          obtain ⟨b₁, A₀, hb₁, hcells, ha, rfl⟩ := hh.of_some
          obtain rfl : b = b₁ := Option.some.inj (hb.symm.trans hb₁)
          obtain ⟨cs, d, A₁, B, hcs, hlabel, rfl, hf, hkids, hd⟩ :=
            hcells.of_snoc
          obtain ⟨rfl, hn⟩ := cells_snoc hcs hlen hc
          obtain ⟨h', p', B', hpush, hholds, hmoved, hpath⟩ := ih hkids hrest
          obtain ⟨-, hb'⟩ := hmoved.outside
            (fun hmem => ha (List.mem_append_right _ hmem)) hb
          obtain ⟨hlast, hmoved'⟩ := holds_last hb hf ha hd hmoved.fresh
            (fun y _ hB hB' => hmoved.same y hB hB') hb' hcs hholds
          exact ⟨h', p', _, hpush, hlast, hmoved', rfl, b, d, hb', hlen, hc,
            rfl, hpath⟩

/-- What is loaded, with levels enough, is what is held. -/
theorem Holds.load {h : Heap α} {pl : Place α} {f : Forest α} {A : List Addr}
    (hh : Holds h pl f A) {n : Nat} (hn : f.height ≤ n) :
    match pl with
    | .vec v => h.load (n + 1) v = some f
    | .cells cs => Heap.loadCells (h.load n) cs.reverse = some f := by
  induction hh generalizing n with
  | none => rfl
  | buffer hb _ _ ih =>
      have hcells := ih hn
      simp only [Heap.load, hb, Option.bind_some]
      exact hcells
  | nil => rfl
  | snoc _ _ _ ihf ihk =>
      rw [Forest.height] at hn
      obtain ⟨m, rfl⟩ : ∃ m, n = m + 1 := ⟨n - 1, by omega⟩
      have hf := ihf (n := m + 1) (by omega)
      have hkids := ihk (n := m) (by omega)
      simp only at hf hkids
      simp only [List.reverse_append, List.reverse_singleton,
        List.singleton_append, Heap.loadCells, hf, hkids,
        Option.bind_eq_bind, Option.bind_some, Option.pure_def]

end Arena
