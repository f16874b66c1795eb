import Mathlib
import VoidPalabra.UnionFind

/-!
# Strongly connected components with a stack of work

A depth-first search that keeps its own stack of work, so that a long path costs no recursion. A vertex
on the stack of work has looked at some of its successors; the vertices that are discovered and belong to
no component yet are on a second stack, in the order of their indices. When the search is done with a
vertex whose low link is its own index, what stands above it on that stack is its component.
-/

namespace Tarjan

open UnionFind (getElem?_insert)

variable {α : Type} [Ord α] [Std.TransOrd α] [DecidableEq α]

/-- What the search keeps. -/
structure State (α : Type) [Ord α] where
  /-- When a vertex was discovered. -/
  index : Std.ExtTreeMap α ℕ compare := ∅
  /-- Its low link. -/
  low : Std.ExtTreeMap α ℕ compare := ∅
  /-- Whether it is on the stack. -/
  onStack : Std.ExtTreeMap α Bool compare := ∅
  /-- The stack, with its top first. -/
  stack : List α := []
  /-- The next index. -/
  counter : ℕ := 0
  /-- The stack of work, with its top first: a vertex, and how many successors it has looked at. -/
  work : List (α × ℕ) := []
  /-- The components that were found. -/
  components : List (List α) := []

namespace State

/-- A vertex was discovered. -/
def Seen (s : State α) (v : α) : Prop := (s.index[v]?).isSome = true

/-- The index of a vertex. -/
def indexOf (s : State α) (v : α) : ℕ := (s.index[v]?).getD 0

/-- The low link of a vertex. -/
def lowOf (s : State α) (v : α) : ℕ := (s.low[v]?).getD 0

/-- A vertex is discovered and is worked at next. -/
def discover (s : State α) (v : α) : State α :=
  { s with
    index := s.index.insert v s.counter
    low := s.low.insert v s.counter
    onStack := s.onStack.insert v true
    stack := v :: s.stack
    counter := s.counter + 1
    work := (v, 0) :: s.work }

/-- A low link is made less. -/
def lower (s : State α) (v : α) (n : ℕ) : State α := { s with low := s.low.insert v (min (s.lowOf v) n) }

end State

/-- Pop a stack up to a vertex, that one included. -/
def popTo (v : α) : List α → List α × List α
  | [] => ([], [])
  | w :: rest => if w = v then ([w], rest) else (w :: (popTo v rest).1, (popTo v rest).2)

/-- The component of a vertex leaves the stack. -/
def State.close (s : State α) (v : α) : State α :=
  { s with
    onStack := (popTo v s.stack).1.foldl (fun m w => m.insert w false) s.onStack
    stack := (popTo v s.stack).2
    components := s.components ++ [(popTo v s.stack).1] }

/-- The search is done with the vertex on the top of the work. -/
def State.finish (s : State α) (v : α) (below : List (α × ℕ)) : State α :=
  let s := if s.lowOf v = s.indexOf v then s.close v else s
  match below with
  | [] => { s with work := [] }
  | (parent, _) :: _ => State.lower { s with work := below } parent (s.lowOf v)

/-- One turn of the loop. -/
def step (adj : α → List α) (s : State α) : State α :=
  match s.work with
  | [] => s
  | (v, next) :: below =>
    match (adj v)[next]? with
    | some w =>
      let s := { s with work := (v, next + 1) :: below }
      if (s.index[w]?).isNone then s.discover w
      else if (s.onStack[w]?).getD false then s.lower v (s.indexOf w)
      else s
    | none => s.finish v below

/-- Turns of the loop until there is no work. -/
def run (adj : α → List α) : ℕ → State α → Option (State α)
  | 0, s => if s.work.isEmpty then some s else none
  | fuel + 1, s => if s.work.isEmpty then some s else run adj fuel (step adj s)

/-- The search from each vertex that was not discovered yet. -/
def search (adj : α → List α) (fuel : ℕ) : List α → State α → Option (State α)
  | [], s => some s
  | start :: rest, s =>
    if (s.index[start]?).isSome then search adj fuel rest s
    else do
      let s ← run adj fuel (s.discover start)
      search adj fuel rest s

/-- How many turns there can be: each vertex looks at each of its successors, and is done once. -/
def turns (adj : α → List α) (nodes : List α) : ℕ := (nodes.map fun v => (adj v).length + 1).sum

/-- The strongly connected components. -/
def components (adj : α → List α) (nodes : List α) : Option (List (List α)) :=
  (search adj (turns adj nodes) nodes {}).map State.components

/-! ### What a component is -/

/-- There is a path. -/
def Reach (adj : α → List α) : α → α → Prop := Relation.ReflTransGen fun v w => w ∈ adj v

/-- There are paths both ways. -/
def Mutual (adj : α → List α) (v w : α) : Prop := Reach adj v w ∧ Reach adj w v

/-- A list of the vertices that are mutually reachable with one of them. -/
def IsComponent (adj : α → List α) (c : List α) : Prop := ∃ v, ∀ w, w ∈ c ↔ Mutual adj v w

/-- The components of some vertices, each once. -/
structure AreComponents (adj : α → List α) (nodes : List α) (cs : List (List α)) : Prop where
  /-- Each is a component. -/
  component : ∀ c ∈ cs, IsComponent adj c
  /-- Each vertex is in one. -/
  covers : ∀ v, v ∈ nodes ↔ ∃ c ∈ cs, v ∈ c
  /-- And in one only. -/
  once : cs.flatten.Nodup

/-! ### What the search keeps -/

/-- A vertex was looked at from another. One that is worked at has looked at some of its successors, any
other one at all of them. -/
def Looked (adj : α → List α) (work : List (α × ℕ)) (y w : α) : Prop :=
  w ∈ adj y ∧ ∀ n, (y, n) ∈ work → w ∈ (adj y).take n

namespace State

/-- The vertices that are worked at. -/
def gray (s : State α) : List α := s.work.map Prod.fst

/-- A vertex is in a component. -/
def Done (s : State α) (v : α) : Prop := ∃ c ∈ s.components, v ∈ c

end State

/-- What is so before every turn. -/
structure Inv (adj : α → List α) (s : State α) : Prop where
  /-- No vertex is discovered with an index that is still to come. -/
  fresh : ∀ v, s.Seen v → s.indexOf v < s.counter
  /-- A discovered vertex is on the stack or in a component. -/
  seen : ∀ v, s.Seen v ↔ v ∈ s.stack ∨ s.Done v
  /-- And not in both, nor in two components. -/
  once : (s.stack ++ s.components.flatten).Nodup
  /-- The stack is in the order of the indices. -/
  sorted : s.stack.Pairwise fun a b => s.indexOf b < s.indexOf a
  /-- The work is on the stack, in the same order. -/
  gray : s.gray.Sublist s.stack
  /-- The marks. -/
  marked : ∀ v, (s.onStack[v]?).getD false = true ↔ v ∈ s.stack
  /-- No edge leaves the components. -/
  closed : ∀ v w, s.Done v → w ∈ adj v → s.Done w
  /-- They are components. -/
  component : ∀ c ∈ s.components, IsComponent adj c
  /-- What was looked at is discovered. -/
  known : ∀ y ∈ s.stack, ∀ w, Looked adj s.work y w → s.Seen w
  /-- A vertex that is worked at reaches everything above it. -/
  above : ∀ g ∈ s.gray, ∀ y ∈ s.stack, s.indexOf g ≤ s.indexOf y → Reach adj g y
  /-- Everything on the stack reaches a vertex that is worked at, below it or itself. -/
  back : ∀ y ∈ s.stack, ∃ g ∈ s.gray, s.indexOf g ≤ s.indexOf y ∧ Reach adj y g
  /-- A low link is not above its vertex. -/
  low_le : ∀ g ∈ s.gray, s.lowOf g ≤ s.indexOf g
  /-- It is the index of a vertex on the stack that is reached. -/
  low_at : ∀ g ∈ s.gray, ∃ z ∈ s.stack, s.indexOf z = s.lowOf g ∧ Reach adj g z
  /-- No vertex on the stack was looked at that is below the low link of the last one worked at before. -/
  low_of : ∀ y ∈ s.stack, ∀ w ∈ s.stack, Looked adj s.work y w → ∃ g ∈ s.gray,
    (∀ h ∈ s.gray, s.indexOf h ≤ s.indexOf y → s.indexOf h ≤ s.indexOf g) ∧
      s.indexOf g ≤ s.indexOf y ∧ s.lowOf g ≤ s.indexOf w

section

variable [Std.LawfulEqOrd α] {adj : α → List α} {s : State α} {v w : α} {n : ℕ} {below : List (α × ℕ)}

omit [Std.TransOrd α] [DecidableEq α] [Std.LawfulEqOrd α] in
theorem mem_flatten_components : v ∈ s.components.flatten ↔ s.Done v := List.mem_flatten

omit [DecidableEq α] [Std.LawfulEqOrd α] in
theorem Inv.stack_nodup (h : Inv adj s) : s.stack.Nodup := (List.nodup_append.mp h.once).1

omit [DecidableEq α] [Std.LawfulEqOrd α] in
theorem Inv.not_done (h : Inv adj s) (hv : v ∈ s.stack) : ¬s.Done v := fun hd =>
  (List.nodup_append.mp h.once).2.2 v hv v (mem_flatten_components.mpr hd) rfl

omit [DecidableEq α] [Std.LawfulEqOrd α] in
/-- What the top of the work stands for. -/
theorem Inv.top (h : Inv adj s) (hwork : s.work = (v, n) :: below) :
    v ∈ s.stack ∧ v ∉ below.map Prod.fst ∧ ∀ g ∈ s.gray, s.indexOf g ≤ s.indexOf v := by
  have hgray : s.gray = v :: below.map Prod.fst := by rw [State.gray, hwork]; rfl
  have hsub := h.gray
  rw [hgray] at hsub
  have hsorted := h.sorted.sublist hsub
  rw [List.pairwise_cons] at hsorted
  refine ⟨hsub.subset List.mem_cons_self, fun hv => absurd (hsorted.1 v hv) (Nat.lt_irrefl _), fun g hg => ?_⟩
  rw [hgray] at hg
  rcases List.mem_cons.mp hg with rfl | hg
  · exact le_rfl
  · exact (hsorted.1 g hg).le

omit [Ord α] [Std.TransOrd α] [Std.LawfulEqOrd α] in
theorem looked_advance (hv : v ∉ below.map Prod.fst) (hn : (adj v)[n]? = some w) {y x : α}
    (h : Looked adj ((v, n + 1) :: below) y x) : Looked adj ((v, n) :: below) y x ∨ y = v ∧ x = w := by
  obtain ⟨hx, hcount⟩ := h
  by_cases hy : y = v
  · subst hy
    have hx' := hcount (n + 1) List.mem_cons_self
    rw [List.take_add_one, hn, List.mem_append] at hx'
    rcases hx' with hx' | hx'
    · refine .inl ⟨hx, fun m hm => ?_⟩
      rcases List.mem_cons.mp hm with he | hm
      · cases he
        exact hx'
      · exact absurd (List.mem_map_of_mem hm) hv
    · exact .inr ⟨rfl, by simpa using hx'⟩
  · refine .inl ⟨hx, fun m hm => ?_⟩
    rcases List.mem_cons.mp hm with he | hm
    · cases he
      exact absurd rfl hy
    · exact hcount m (List.mem_cons_of_mem _ hm)

omit [Ord α] [Std.TransOrd α] [DecidableEq α] [Std.LawfulEqOrd α] in
theorem looked_done (hn : (adj v)[n]? = none) {y x : α} (h : Looked adj below y x) :
    Looked adj ((v, n) :: below) y x := by
  refine ⟨h.1, fun m hm => ?_⟩
  rcases List.mem_cons.mp hm with he | hm
  · cases he
    rw [List.take_of_length_le (List.getElem?_eq_none_iff.mp hn)]
    exact h.1
  · exact h.2 m hm

/-! ### Discovering -/

theorem indexOf_discover (s : State α) (v y : α) :
    (s.discover v).indexOf y = if v = y then s.counter else s.indexOf y := by
  rw [State.indexOf, State.discover, getElem?_insert]
  split <;> rfl

theorem lowOf_discover (s : State α) (v y : α) :
    (s.discover v).lowOf y = if v = y then s.counter else s.lowOf y := by
  rw [State.lowOf, State.discover, getElem?_insert]
  split <;> rfl

theorem seen_discover (s : State α) (v y : α) : (s.discover v).Seen y ↔ y = v ∨ s.Seen y := by
  rw [State.Seen, State.discover, getElem?_insert]
  split
  · rename_i he
    simp [he]
  · rename_i he
    rw [or_iff_right fun hy => he hy.symm]
    rfl

/-- A vertex is discovered, from the one that is worked at if there is one. -/
theorem Inv.discover (h : Inv adj s) (hw : ¬s.Seen w) {work : List (α × ℕ)}
    (hgray : work.map Prod.fst = s.gray)
    (hlooked : ∀ y ∈ s.stack, ∀ x, Looked adj work y x → Looked adj s.work y x ∨ x = w ∧ y ∈ s.gray)
    (hreach : ∀ g ∈ s.gray, Reach adj g w) :
    Inv adj (State.discover { s with work := work } w) := by
  have hstack : ∀ {y}, y ∈ s.stack → s.Seen y := fun hy => (h.seen _).mpr (.inl hy)
  have hne : ∀ {y}, s.Seen y → w ≠ y := fun hy he => hw (he ▸ hy)
  have hindex : ∀ y, (State.discover { s with work := work } w).indexOf y =
      if w = y then s.counter else s.indexOf y := indexOf_discover _ w
  have hlow : ∀ y, (State.discover { s with work := work } w).lowOf y =
      if w = y then s.counter else s.lowOf y := lowOf_discover _ w
  have hold : ∀ {y}, s.Seen y → (State.discover { s with work := work } w).indexOf y = s.indexOf y :=
    fun hy => by rw [hindex, if_neg (hne hy)]
  have hlowold : ∀ {y}, s.Seen y → (State.discover { s with work := work } w).lowOf y = s.lowOf y :=
    fun hy => by rw [hlow, if_neg (hne hy)]
  have hnew : (State.discover { s with work := work } w).indexOf w = s.counter := by rw [hindex, if_pos rfl]
  have hgrays : (State.discover { s with work := work } w).gray = w :: s.gray := by
    rw [← hgray]
    rfl
  have hgstack : ∀ {g}, g ∈ s.gray → s.Seen g := fun hg => hstack (h.gray.subset hg)
  -- What the new vertex has looked at is nothing.
  have hnone : ∀ x, ¬Looked adj ((w, 0) :: work) w x := fun x hx => by
    have := hx.2 0 List.mem_cons_self
    simp at this
  have hother : ∀ {y x}, y ≠ w → Looked adj ((w, 0) :: work) y x → Looked adj work y x :=
    fun _ hx => ⟨hx.1, fun m hm => hx.2 m (List.mem_cons_of_mem _ hm)⟩
  constructor
  · intro y hy
    rw [seen_discover] at hy
    change _ < s.counter + 1
    rcases hy with rfl | hy
    · rw [hnew]
      omega
    · have hy' : s.Seen y := hy
      rw [hold hy']
      have := h.fresh y hy'
      omega
  · intro y
    rw [seen_discover]
    change (y = w ∨ s.Seen y) ↔ y ∈ w :: s.stack ∨ s.Done y
    rw [h.seen, List.mem_cons, or_assoc]
  · change (w :: s.stack ++ s.components.flatten).Nodup
    rw [List.cons_append, List.nodup_cons]
    refine ⟨fun hm => hw ((h.seen w).mpr ?_), h.once⟩
    exact (List.mem_append.mp hm).imp_right mem_flatten_components.mp
  · change (w :: s.stack).Pairwise _
    refine List.pairwise_cons.mpr ⟨fun y hy => ?_, h.sorted.imp_of_mem fun ha hb hab => ?_⟩
    · rw [hold (hstack hy), hnew]
      exact h.fresh y (hstack hy)
    · rw [hold (hstack ha), hold (hstack hb)]
      exact hab
  · rw [hgrays]
    exact h.gray.cons_cons w
  · intro y
    change ((s.onStack.insert w true)[y]?).getD false = true ↔ y ∈ w :: s.stack
    rw [getElem?_insert, List.mem_cons]
    split
    · rename_i he
      simp [he]
    · rename_i he
      rw [or_iff_right fun hy => he hy.symm]
      exact h.marked y
  · exact h.closed
  · exact h.component
  · intro y hy x hx
    rw [seen_discover]
    rcases List.mem_cons.mp hy with rfl | hy
    · exact absurd hx (hnone x)
    · rcases hlooked y hy x (hother (hne (hstack hy)).symm hx) with hx | ⟨rfl, -⟩
      · exact .inr (h.known y hy x hx)
      · exact .inl rfl
  · intro g hg y hy hle
    rw [hgrays] at hg
    rcases List.mem_cons.mp hg with rfl | hg' <;> rcases List.mem_cons.mp hy with rfl | hy'
    · exact .refl
    · rw [hnew, hold (hstack hy')] at hle
      have := h.fresh y (hstack hy')
      omega
    · exact hreach g hg'
    · rw [hold (hgstack hg'), hold (hstack hy')] at hle
      exact h.above g hg' y hy' hle
  · intro y hy
    rw [hgrays]
    rcases List.mem_cons.mp hy with rfl | hy
    · exact ⟨y, List.mem_cons_self, le_rfl, .refl⟩
    · obtain ⟨g, hg, hle, hr⟩ := h.back y hy
      refine ⟨g, List.mem_cons_of_mem _ hg, ?_, hr⟩
      rw [hold (hgstack hg), hold (hstack hy)]
      exact hle
  · intro g hg
    rw [hgrays] at hg
    rcases List.mem_cons.mp hg with rfl | hg
    · rw [hlow, hindex, if_pos rfl, if_pos rfl]
    · rw [hlowold (hgstack hg), hold (hgstack hg)]
      exact h.low_le g hg
  · intro g hg
    rw [hgrays] at hg
    rcases List.mem_cons.mp hg with rfl | hg
    · exact ⟨g, List.mem_cons_self, by rw [hlow, hindex, if_pos rfl, if_pos rfl], .refl⟩
    · obtain ⟨z, hz, he, hr⟩ := h.low_at g hg
      refine ⟨z, List.mem_cons_of_mem _ hz, ?_, hr⟩
      rw [hlowold (hgstack hg), hold (hstack hz)]
      exact he
  · intro y hy x hx hl
    rw [hgrays]
    rcases List.mem_cons.mp hy with rfl | hys
    · exact absurd hl (hnone x)
    clear hy
    -- The new vertex has the greatest index, so the last one worked at before another is as it was.
    have hlast : ∀ g ∈ s.gray, (∀ k ∈ s.gray, s.indexOf k ≤ s.indexOf y → s.indexOf k ≤ s.indexOf g) →
        ∀ k ∈ w :: s.gray, (State.discover { s with work := work } w).indexOf k ≤
          (State.discover { s with work := work } w).indexOf y →
          (State.discover { s with work := work } w).indexOf k ≤
            (State.discover { s with work := work } w).indexOf g := by
      intro g hg hmax k hk hle
      rcases List.mem_cons.mp hk with rfl | hk
      · rw [hnew, hold (hstack hys)] at hle
        have := h.fresh y (hstack hys)
        omega
      · rw [hold (hgstack hk), hold (hstack hys)] at hle
        rw [hold (hgstack hk), hold (hgstack hg)]
        exact hmax k hk hle
    rcases hlooked y hys x (hother (hne (hstack hys)).symm hl) with hl' | ⟨rfl, hyg⟩
    · have hxs : x ∈ s.stack := by
        rcases List.mem_cons.mp hx with rfl | hx
        · exact absurd (h.known y hys x hl') hw
        · exact hx
      obtain ⟨g, hg, hmax, hle, hlg⟩ := h.low_of y hys x hxs hl'
      refine ⟨g, List.mem_cons_of_mem _ hg, hlast g hg hmax, ?_, ?_⟩
      · rw [hold (hgstack hg), hold (hstack hys)]
        exact hle
      · rw [hlowold (hgstack hg), hold (hstack hxs)]
        exact hlg
    · refine ⟨y, List.mem_cons_of_mem _ hyg, hlast y hyg fun k _ hle => hle, le_rfl, ?_⟩
      rw [hlowold (hstack hys), hnew]
      exact (h.low_le y hyg).trans (h.fresh y (hstack hys)).le

/-! ### Looking at a successor -/

theorem lowOf_lower (s : State α) (v : α) (n : ℕ) (g : α) :
    (s.lower v n).lowOf g = if v = g then min (s.lowOf v) n else s.lowOf g := by
  rw [State.lowOf, State.lower, getElem?_insert]
  split <;> rfl

/-- A low link is made less by the index of a vertex that is reached. -/
theorem Inv.lower (h : Inv adj s) {m : ℕ}
    (hm : s.lowOf v ≤ m ∨ ∃ z ∈ s.stack, s.indexOf z = m ∧ Reach adj v z) : Inv adj (s.lower v m) where
  fresh := h.fresh
  seen := h.seen
  once := h.once
  sorted := h.sorted
  gray := h.gray
  marked := h.marked
  closed := h.closed
  component := h.component
  known := h.known
  above := h.above
  back := h.back
  low_le := fun g hg => by
    rw [lowOf_lower]
    split
    · rename_i he
      subst he
      exact (min_le_left _ _).trans (h.low_le v hg)
    · exact h.low_le g hg
  low_at := fun g hg => by
    rw [lowOf_lower]
    split
    · rename_i he
      subst he
      rcases le_total (s.lowOf v) m with hle | hle
      · rw [min_eq_left hle]
        exact h.low_at v hg
      · rw [min_eq_right hle]
        rcases hm with hm | hm
        · rw [le_antisymm hle hm]
          exact h.low_at v hg
        · exact hm
    · exact h.low_at g hg
  low_of := fun y hy x hx hl => by
    obtain ⟨g, hg, hmax, hle, hlow⟩ := h.low_of y hy x hx hl
    refine ⟨g, hg, hmax, hle, le_trans ?_ hlow⟩
    rw [lowOf_lower]
    split
    · rename_i he
      rw [he]
      exact min_le_left _ _
    · exact le_rfl

omit [Std.LawfulEqOrd α] in
/-- A discovered successor is looked at. If it is on the stack, the low link is not above it then. -/
theorem Inv.advance (h : Inv adj s) (hwork : s.work = (v, n) :: below) (hn : (adj v)[n]? = some w)
    (hw : s.Seen w) (hlow : w ∈ s.stack → s.lowOf v ≤ s.indexOf w) :
    Inv adj { s with work := (v, n + 1) :: below } := by
  obtain ⟨hv, hbelow, htop⟩ := h.top hwork
  have hlooked : ∀ {y x}, Looked adj ((v, n + 1) :: below) y x → Looked adj s.work y x ∨ y = v ∧ x = w := by
    intro y x hx
    rw [hwork]
    exact looked_advance hbelow hn hx
  have hgray : State.gray { s with work := (v, n + 1) :: below } = s.gray := by
    rw [State.gray, State.gray, hwork]
    rfl
  have hvg : v ∈ s.gray := by
    rw [State.gray, hwork]
    exact List.mem_cons_self
  refine ⟨h.fresh, h.seen, h.once, h.sorted, hgray ▸ h.gray, h.marked, h.closed, h.component, ?_,
    hgray ▸ h.above, hgray ▸ h.back, hgray ▸ h.low_le, hgray ▸ h.low_at, ?_⟩
  · intro y hy x hx
    rcases hlooked hx with hx | ⟨-, rfl⟩
    · exact h.known y hy x hx
    · exact hw
  · intro y hy x hx hl
    rw [hgray]
    rcases hlooked hl with hl' | ⟨rfl, rfl⟩
    · exact h.low_of y hy x hx hl'
    · exact ⟨y, hvg, fun k _ hle => hle, le_rfl, hlow hx⟩

/-! ### Being done with a vertex -/

omit [Std.LawfulEqOrd α] in
/-- A vertex whose low link is below it stays on the stack. -/
theorem Inv.retire (h : Inv adj s) (hwork : s.work = (v, n) :: below) (hn : (adj v)[n]? = none)
    (hlow : s.lowOf v < s.indexOf v)
    (hparent : ∀ p ∈ (below.map Prod.fst).head?, s.lowOf p ≤ s.lowOf v) :
    Inv adj { s with work := below } := by
  obtain ⟨hv, hbelow, htop⟩ := h.top hwork
  have hgray : s.gray = v :: below.map Prod.fst := by
    rw [State.gray, hwork]
    rfl
  have hkeep : ∀ {g}, g ∈ s.gray → g ≠ v → g ∈ below.map Prod.fst := fun hg hne =>
    (List.mem_cons.mp (hgray ▸ hg)).resolve_left hne
  have hold : ∀ {g}, g ∈ below.map Prod.fst → g ∈ s.gray := fun hg => hgray ▸ List.mem_cons_of_mem _ hg
  -- What it reaches below itself reaches something that is still worked at.
  obtain ⟨z, hz, hzlow, hvz⟩ := h.low_at v (hgray ▸ List.mem_cons_self)
  obtain ⟨g, hg, hgz, hzg⟩ := h.back z hz
  have hgv : s.indexOf g < s.indexOf v := by omega
  have hgb : g ∈ below.map Prod.fst := hkeep hg fun he => by
    rw [he] at hgv
    exact Nat.lt_irrefl _ hgv
  have hlooked : ∀ {y x}, Looked adj below y x → Looked adj s.work y x := fun hx => hwork ▸ looked_done hn hx
  refine ⟨h.fresh, h.seen, h.once, h.sorted, ?_, h.marked, h.closed, h.component,
    fun y hy x hx => h.known y hy x (hlooked hx), fun g hg => h.above g (hold hg), fun y hy => ?_,
    fun g hg => h.low_le g (hold hg), fun g hg => h.low_at g (hold hg), fun y hy x hx hl => ?_⟩
  · have hsub := h.gray
    rw [hgray] at hsub
    exact (List.sublist_cons_self v _).trans hsub
  · obtain ⟨k, hk, hle, hr⟩ := h.back y hy
    by_cases he : k = v
    · subst he
      exact ⟨g, hgb, (hgv.trans_le hle).le, hr.trans (hvz.trans hzg)⟩
    · exact ⟨k, hkeep hk he, hle, hr⟩
  · obtain ⟨k, hk, hmax, hle, hlk⟩ := h.low_of y hy x hx (hlooked hl)
    by_cases he : k = v
    · subst he
      -- The next one below takes over what it owned.
      obtain ⟨p, rest, hpr⟩ := List.exists_cons_of_ne_nil (List.ne_nil_of_mem hgb)
      have hp : p ∈ below.map Prod.fst := hpr ▸ List.mem_cons_self
      have hsub := h.gray
      rw [hgray, hpr] at hsub
      have hsorted := h.sorted.sublist hsub
      rw [List.pairwise_cons, List.pairwise_cons] at hsorted
      have hpk := hsorted.1 p List.mem_cons_self
      refine ⟨p, hp, fun j hj _ => ?_, hpk.le.trans hle, (hparent p ?_).trans hlk⟩
      · have hj' : j ∈ below.map Prod.fst := hj
        rw [hpr] at hj'
        rcases List.mem_cons.mp hj' with rfl | hj'
        · exact le_rfl
        · exact (hsorted.2.1 j hj').le
      · rw [hpr]
        rfl
    · exact ⟨k, hkeep hk he, fun j hj => hmax j (hold hj), hle, hlk⟩

omit [Ord α] [Std.TransOrd α] [Std.LawfulEqOrd α] in
/-- What stands on a stack up to a vertex, and what stands below it. -/
theorem popTo_spec {f : α → ℕ} : ∀ {stack : List α}, stack.Pairwise (fun a b => f b < f a) → v ∈ stack →
    (popTo v stack).1 ++ (popTo v stack).2 = stack ∧
      (∀ y, y ∈ (popTo v stack).1 ↔ y ∈ stack ∧ f v ≤ f y) ∧
      ∀ y, y ∈ (popTo v stack).2 ↔ y ∈ stack ∧ f y < f v := by
  intro stack
  induction stack with
  | nil => exact fun _ hv => absurd hv List.not_mem_nil
  | cons w rest ih =>
    intro hs hv
    obtain ⟨hhead, hrest⟩ := List.pairwise_cons.mp hs
    rw [popTo]
    split
    · rename_i he
      subst he
      refine ⟨rfl, fun y => ?_, fun y => ?_⟩
      · rw [List.mem_singleton, List.mem_cons]
        constructor
        · rintro rfl
          exact ⟨.inl rfl, le_rfl⟩
        · rintro ⟨rfl | hy, hle⟩
          · rfl
          · exact absurd (hhead y hy) (by omega)
      · rw [List.mem_cons]
        constructor
        · exact fun hy => ⟨.inr hy, hhead y hy⟩
        · rintro ⟨rfl | hy, hlt⟩
          · exact absurd hlt (Nat.lt_irrefl _)
          · exact hy
    · rename_i hne
      have hv' : v ∈ rest := (List.mem_cons.mp hv).resolve_left fun he => hne he.symm
      obtain ⟨happ, h1, h2⟩ := ih hrest hv'
      have hwv := hhead v hv'
      refine ⟨congrArg (List.cons w) happ, fun y => ?_, fun y => ?_⟩
      · rw [List.mem_cons, List.mem_cons, h1]
        constructor
        · rintro (rfl | ⟨hy, hle⟩)
          · exact ⟨.inl rfl, hwv.le⟩
          · exact ⟨.inr hy, hle⟩
        · rintro ⟨rfl | hy, hle⟩
          · exact .inl rfl
          · exact .inr ⟨hy, hle⟩
      · rw [h2, List.mem_cons]
        constructor
        · exact fun ⟨hy, hlt⟩ => ⟨.inr hy, hlt⟩
        · rintro ⟨rfl | hy, hlt⟩
          · omega
          · exact ⟨hy, hlt⟩

theorem getElem?_foldl_unmark (l : List α) (m : Std.ExtTreeMap α Bool compare) (y : α) :
    (((l.foldl (fun m w => m.insert w false) m)[y]?).getD false) =
      if y ∈ l then false else (m[y]?).getD false := by
  induction l generalizing m with
  | nil => rw [if_neg List.not_mem_nil]; rfl
  | cons w l ih =>
    rw [List.foldl_cons, ih, getElem?_insert]
    by_cases hy : y ∈ l
    · rw [if_pos hy, if_pos (List.mem_cons_of_mem _ hy)]
    · by_cases he : w = y
      · rw [if_neg hy, if_pos he, if_pos (he ▸ List.mem_cons_self)]
        rfl
      · rw [if_neg hy, if_neg he, if_neg fun h => (List.mem_cons.mp h).elim (fun hw => he hw.symm) hy]

/-- A vertex whose low link is its own index closes its component. -/
theorem Inv.close (h : Inv adj s) (hwork : s.work = (v, n) :: below) (hn : (adj v)[n]? = none)
    (hlow : s.lowOf v = s.indexOf v) : Inv adj { s.close v with work := below } := by
  obtain ⟨hv, hbelow, htop⟩ := h.top hwork
  obtain ⟨happ, hcomp, hrest⟩ := popTo_spec h.sorted hv
  have hgray : s.gray = v :: below.map Prod.fst := by
    rw [State.gray, hwork]
    rfl
  have hvg : v ∈ s.gray := hgray ▸ List.mem_cons_self
  have hold : ∀ {g}, g ∈ below.map Prod.fst → g ∈ s.gray := fun hg => hgray ▸ List.mem_cons_of_mem _ hg
  have hsorted : ∀ g ∈ below.map Prod.fst, s.indexOf g < s.indexOf v := by
    have hsub := h.gray
    rw [hgray] at hsub
    exact (List.pairwise_cons.mp (h.sorted.sublist hsub)).1
  have hkeep : ∀ {g}, g ∈ s.gray → s.indexOf g < s.indexOf v → g ∈ below.map Prod.fst := fun hg hlt =>
    (List.mem_cons.mp (hgray ▸ hg)).resolve_left fun he => by
      rw [he] at hlt
      exact Nat.lt_irrefl _ hlt
  have hdone : ∀ y, State.Done { s.close v with work := below } y ↔ s.Done y ∨ y ∈ (popTo v s.stack).1 := by
    intro y
    change (∃ c ∈ s.components ++ [(popTo v s.stack).1], y ∈ c) ↔ _
    simp only [List.mem_append, List.mem_singleton, or_and_right, exists_or, exists_eq_left]
    rfl
  have hlooked : ∀ {y x}, Looked adj below y x → Looked adj s.work y x := fun hx => hwork ▸ looked_done hn hx
  -- From what is popped no edge leads below it.
  have hedge : ∀ y ∈ (popTo v s.stack).1, ∀ x ∈ adj y, s.Done x ∨ x ∈ (popTo v s.stack).1 := by
    intro y hy x hx
    obtain ⟨hys, hle⟩ := (hcomp y).mp hy
    have hl : Looked adj s.work y x := by
      refine hlooked ⟨hx, fun m hm => ?_⟩
      have := hsorted y (List.mem_map_of_mem hm)
      omega
    rcases (h.seen x).mp (h.known y hys x hl) with hxs | hxd
    · refine .inr ((hcomp x).mpr ⟨hxs, ?_⟩)
      obtain ⟨g, hg, hmax, -, hlg⟩ := h.low_of y hys x hxs hl
      have hgv := hmax v hvg hle
      have heq : g = v := by
        by_contra hne
        have := hsorted g ((List.mem_cons.mp (hgray ▸ hg)).resolve_left hne)
        omega
      rw [heq, hlow] at hlg
      exact hlg
    · exact .inl hxd
  have hreach : ∀ {y x}, Reach adj y x → s.Done y ∨ y ∈ (popTo v s.stack).1 →
      s.Done x ∨ x ∈ (popTo v s.stack).1 := by
    intro y x hr hy
    induction hr with
    | refl => exact hy
    | tail _ he ih => exact ih.elim (fun hd => .inl (h.closed _ _ hd he)) fun hp => hedge _ hp _ he
  have hstay : ∀ {y x}, Reach adj y x → s.Done y → s.Done x := by
    intro y x hr hy
    induction hr with
    | refl => exact hy
    | tail _ he ih => exact h.closed _ _ ih he
  have hvp : v ∈ (popTo v s.stack).1 := (hcomp v).mpr ⟨hv, le_rfl⟩
  have hmutual : IsComponent adj (popTo v s.stack).1 := by
    refine ⟨v, fun y => ⟨fun hy => ?_, fun hy => ?_⟩⟩
    · obtain ⟨hys, hle⟩ := (hcomp y).mp hy
      obtain ⟨g, hg, -, hr⟩ := h.back y hys
      exact ⟨h.above v hvg y hys hle, hr.trans (h.above g hg v hv (htop g hg))⟩
    · exact (hreach hy.1 (.inr hvp)).resolve_left fun hd => h.not_done hv (hstay hy.2 hd)
  constructor
  · exact h.fresh
  · intro y
    rw [hdone]
    refine (h.seen y).trans ?_
    change _ ↔ y ∈ (popTo v s.stack).2 ∨ _
    rw [hrest, hcomp]
    constructor
    · rintro (hy | hy)
      · rcases Nat.lt_or_ge (s.indexOf y) (s.indexOf v) with hlt | hge
        · exact .inl ⟨hy, hlt⟩
        · exact .inr (.inr ⟨hy, hge⟩)
      · exact .inr (.inl hy)
    · rintro (⟨hy, -⟩ | hy | ⟨hy, -⟩)
      · exact .inl hy
      · exact .inr hy
      · exact .inl hy
  · change ((popTo v s.stack).2 ++ (s.components ++ [(popTo v s.stack).1]).flatten).Nodup
    rw [List.flatten_append, List.flatten_singleton]
    have honce := h.once
    nth_rewrite 1 [← happ] at honce
    refine honce.perm ?_
    rw [List.append_assoc]
    exact List.perm_append_comm.trans (by rw [List.append_assoc])
  · exact h.sorted.sublist (List.IsSuffix.sublist ⟨_, happ⟩)
  · have hsub := h.gray
    rw [hgray] at hsub
    have hnodup := h.stack_nodup
    rw [← happ] at hsub hnodup
    -- Nothing that is worked at below is popped.
    have htail := (List.sublist_cons_self v (below.map Prod.fst)).trans hsub
    obtain ⟨l₁, l₂, he, h1, h2⟩ := List.sublist_append_iff.mp htail
    have hnil : l₁ = [] := by
      rw [List.eq_nil_iff_forall_not_mem]
      intro g hg
      have hlt := hsorted g (he ▸ List.mem_append_left _ hg)
      have hge := ((hcomp g).mp (h1.subset hg)).2
      omega
    rw [hnil, List.nil_append] at he
    change (below.map Prod.fst).Sublist (popTo v s.stack).2
    rw [he]
    exact h2
  · intro y
    change (((popTo v s.stack).1.foldl (fun m w => m.insert w false) s.onStack)[y]?).getD false = true ↔
      y ∈ (popTo v s.stack).2
    rw [getElem?_foldl_unmark]
    have hmark := h.marked y
    split
    · rename_i hy
      have := ((hcomp y).mp hy).2
      rw [hrest]
      simp only [Bool.false_eq_true, false_iff, not_and]
      intro _
      omega
    · rename_i hy
      rw [hmark, hrest]
      rw [hcomp] at hy
      constructor
      · exact fun hys => ⟨hys, by
          by_contra hge
          exact hy ⟨hys, by omega⟩⟩
      · exact fun hys => hys.1
  · intro y x hy hx
    rw [hdone] at hy ⊢
    exact hy.elim (fun hd => .inl (h.closed y x hd hx)) fun hp => hedge y hp x hx
  · intro c hc
    rcases List.mem_append.mp hc with hc | hc
    · exact h.component c hc
    · rw [List.mem_singleton.mp hc]
      exact hmutual
  · exact fun y hy x hx => h.known y ((hrest y).mp hy).1 x (hlooked hx)
  · exact fun g hg y hy => h.above g (hold hg) y ((hrest y).mp hy).1
  · intro y hy
    obtain ⟨hys, hlt⟩ := (hrest y).mp hy
    obtain ⟨g, hg, hle, hr⟩ := h.back y hys
    have hle' : s.indexOf g ≤ s.indexOf y := hle
    exact ⟨g, hkeep hg (by omega), hle, hr⟩
  · exact fun g hg => h.low_le g (hold hg)
  · intro g hg
    obtain ⟨z, hz, he, hr⟩ := h.low_at g (hold hg)
    have h1 := h.low_le g (hold hg)
    have h2 := hsorted g hg
    exact ⟨z, (hrest z).mpr ⟨hz, by omega⟩, he, hr⟩
  · intro y hy x hx hl
    obtain ⟨hys, hlt⟩ := (hrest y).mp hy
    obtain ⟨g, hg, hmax, hle, hlg⟩ := h.low_of y hys x ((hrest x).mp hx).1 (hlooked hl)
    exact ⟨g, hkeep hg (by omega), fun k hk => hmax k (hold hk), hle, hlg⟩

/-! ### A turn, and all of them -/

/-- The search stays among its vertices. -/
structure Within (adj : α → List α) (nodes : List α) (s : State α) : Prop where
  /-- What is discovered. -/
  seen : ∀ v, s.Seen v → v ∈ nodes
  /-- What is worked at. -/
  work : ∀ x ∈ s.work, x.1 ∈ nodes ∧ x.2 ≤ (adj x.1).length

/-- How many turns are left at most. -/
def left (adj : α → List α) (nodes : List α) (s : State α) : ℕ :=
  (nodes.map fun v => if (s.index[v]?).isSome then 0 else (adj v).length + 1).sum +
    (s.work.map fun x => (adj x.1).length + 1 - x.2).sum

omit [DecidableEq α] [Std.LawfulEqOrd α] in
theorem sum_turns_le (adj : α → List α) (nodes : List α) (s : State α) :
    (nodes.map fun v => if (s.index[v]?).isSome then 0 else (adj v).length + 1).sum ≤ turns adj nodes := by
  induction nodes with
  | nil => exact le_rfl
  | cons v nodes ih =>
    rw [turns, List.map_cons, List.map_cons, List.sum_cons, List.sum_cons]
    refine Nat.add_le_add ?_ ih
    split
    · exact Nat.zero_le _
    · exact le_rfl

/-- A vertex that is discovered is counted no more. -/
theorem sum_discover (adj : α → List α) (nodes : List α) (hw : w ∈ nodes) (hn : s.index[w]? = none) (c : ℕ) :
    (nodes.map fun v => if ((s.index.insert w c)[v]?).isSome then 0 else (adj v).length + 1).sum +
      ((adj w).length + 1) ≤ (nodes.map fun v => if (s.index[v]?).isSome then 0 else (adj v).length + 1).sum := by
  have hle : ∀ v, (if ((s.index.insert w c)[v]?).isSome then 0 else (adj v).length + 1) ≤
      if (s.index[v]?).isSome then 0 else (adj v).length + 1 := by
    intro v
    rw [getElem?_insert]
    by_cases he : w = v
    · rw [if_pos he]
      exact Nat.zero_le _
    · rw [if_neg he]
  have hsum : ∀ nodes : List α,
      (nodes.map fun v => if ((s.index.insert w c)[v]?).isSome then 0 else (adj v).length + 1).sum ≤
        (nodes.map fun v => if (s.index[v]?).isSome then 0 else (adj v).length + 1).sum := by
    intro nodes
    induction nodes with
    | nil => exact le_rfl
    | cons v nodes ih =>
      rw [List.map_cons, List.map_cons, List.sum_cons, List.sum_cons]
      exact Nat.add_le_add (hle v) ih
  induction nodes with
  | nil => cases hw
  | cons v nodes ih =>
    rw [List.map_cons, List.map_cons, List.sum_cons, List.sum_cons]
    by_cases he : w = v
    · subst he
      have hzero : (if ((s.index.insert w c)[w]?).isSome then 0 else (adj w).length + 1) = 0 := by
        rw [getElem?_insert, if_pos rfl]
        rfl
      have hone : (if (s.index[w]?).isSome then 0 else (adj w).length + 1) = (adj w).length + 1 := by
        rw [hn]
        rfl
      have := hsum nodes
      omega
    · have := ih ((List.mem_cons.mp hw).resolve_left he)
      have := hle v
      omega

/-- What the search is done with leaves the work. -/
theorem finish_spec (h : Inv adj s) (hwork : s.work = (v, n) :: below) (hn : (adj v)[n]? = none) :
    Inv adj (s.finish v below) ∧ (s.finish v below).index = s.index ∧ (s.finish v below).work = below := by
  obtain ⟨hv, hbelow, htop⟩ := h.top hwork
  have hgray : s.gray = v :: below.map Prod.fst := by
    rw [State.gray, hwork]
    rfl
  have hvg : v ∈ s.gray := hgray ▸ List.mem_cons_self
  unfold State.finish
  by_cases hlow : s.lowOf v = s.indexOf v
  · simp only [if_pos hlow]
    have hclose := h.close hwork hn hlow
    cases below with
    | nil => exact ⟨hclose, rfl, rfl⟩
    | cons x rest =>
      obtain ⟨parent, m⟩ := x
      refine ⟨hclose.lower (.inl ?_), rfl, rfl⟩
      have hp : parent ∈ s.gray := hgray ▸ List.mem_cons_of_mem _ List.mem_cons_self
      have h1 : s.lowOf parent ≤ s.indexOf v := (h.low_le parent hp).trans (htop parent hp)
      change s.lowOf parent ≤ s.lowOf v
      omega
  · simp only [if_neg hlow]
    have hlt : s.lowOf v < s.indexOf v := lt_of_le_of_ne (h.low_le v hvg) hlow
    cases below with
    | nil => exact ⟨h.retire hwork hn hlt (by simp), rfl, rfl⟩
    | cons x rest =>
      obtain ⟨parent, m⟩ := x
      have hp : parent ∈ s.gray := hgray ▸ List.mem_cons_of_mem _ List.mem_cons_self
      obtain ⟨z, hz, hzlow, hvz⟩ := h.low_at v hvg
      have hparent : parent ≠ v := fun he => hbelow (he ▸ List.mem_cons_self)
      have hlower := h.lower (v := parent) (m := s.lowOf v)
        (.inr ⟨z, hz, hzlow, (h.above parent hp v hv (htop parent hp)).trans hvz⟩)
      have hv' : (s.lower parent (s.lowOf v)).lowOf v = s.lowOf v := by rw [lowOf_lower, if_neg hparent]
      refine ⟨hlower.retire hwork hn (by rw [hv']; exact hlt) fun p hp => ?_, rfl, rfl⟩
      have he : parent = p := by simpa using hp
      rw [hv', ← he, lowOf_lower, if_pos rfl]
      exact min_le_right _ _

/-- **A turn keeps what is so, and leaves fewer turns.** -/
theorem step_spec {nodes : List α} (hclosed : ∀ v ∈ nodes, ∀ w ∈ adj v, w ∈ nodes) (h : Inv adj s)
    (hin : Within adj nodes s) (hwork : s.work ≠ []) :
    Inv adj (step adj s) ∧ Within adj nodes (step adj s) ∧ left adj nodes (step adj s) < left adj nodes s ∧
      ∀ v, s.Seen v → (step adj s).Seen v := by
  obtain ⟨⟨v, n⟩, below, hw⟩ := List.exists_cons_of_ne_nil hwork
  obtain ⟨hv, hbelow, htop⟩ := h.top hw
  have hvn := hin.work (v, n) (hw ▸ List.mem_cons_self)
  have hrest : ∀ x ∈ below, x.1 ∈ nodes ∧ x.2 ≤ (adj x.1).length := fun x hx =>
    hin.work x (hw ▸ List.mem_cons_of_mem _ hx)
  have hgray : s.gray = v :: below.map Prod.fst := by
    rw [State.gray, hw]
    rfl
  have hvg : v ∈ s.gray := hgray ▸ List.mem_cons_self
  unfold step
  rw [hw]
  dsimp only
  cases hn : (adj v)[n]? with
  | none =>
    obtain ⟨hinv, hindex, hbelow'⟩ := finish_spec h hw hn
    dsimp only
    refine ⟨hinv, ⟨fun y hy => hin.seen y ?_, fun x hx => hrest x (hbelow' ▸ hx)⟩, ?_, fun y hy => ?_⟩
    · rwa [State.Seen, hindex] at hy
    · rw [left, left, hindex, hbelow', hw, List.map_cons, List.sum_cons]
      have := hvn.2
      dsimp only at this ⊢
      omega
    · rwa [State.Seen, hindex]
  | some w =>
    have hlt : n < (adj v).length := (List.getElem?_eq_some_iff.mp hn).1
    have hedge : w ∈ adj v := List.mem_of_getElem? hn
    have hwn : w ∈ nodes := hclosed v hvn.1 w hedge
    have hadvanced : ∀ x ∈ (v, n + 1) :: below, x.1 ∈ nodes ∧ x.2 ≤ (adj x.1).length :=
      List.forall_mem_cons.mpr ⟨⟨hvn.1, hlt⟩, hrest⟩
    have hless : (((v, n + 1) :: below).map fun x => (adj x.1).length + 1 - x.2).sum + 1 =
        (s.work.map fun x => (adj x.1).length + 1 - x.2).sum := by
      rw [hw, List.map_cons, List.map_cons, List.sum_cons, List.sum_cons]
      dsimp only
      omega
    dsimp only
    split
    · rename_i hnew
      have hnone : s.index[w]? = none := Option.isNone_iff_eq_none.mp hnew
      have hunseen : ¬s.Seen w := by simp [State.Seen, hnone]
      refine ⟨h.discover hunseen (by rw [hgray]; rfl) (fun y _ x hx => ?_) fun g hg => ?_,
        ⟨fun y hy => ?_, ?_⟩, ?_, fun y hy => (seen_discover _ w y).mpr (.inr hy)⟩
      · rw [hw]
        rcases looked_advance hbelow hn hx with hx | ⟨rfl, rfl⟩
        · exact .inl hx
        · exact .inr ⟨rfl, hvg⟩
      · exact (h.above g hg v hv (htop g hg)).tail hedge
      · rcases (seen_discover _ w y).mp hy with rfl | hy
        · exact hwn
        · exact hin.seen y hy
      · exact List.forall_mem_cons.mpr ⟨⟨hwn, Nat.zero_le _⟩, hadvanced⟩
      · have := sum_discover (s := s) adj nodes hwn hnone s.counter
        change _ + ((adj w).length + 1 - 0 + (((v, n + 1) :: below).map fun x => (adj x.1).length + 1 - x.2).sum) <
          _ + _
        change (nodes.map fun v => if ((s.index.insert w s.counter)[v]?).isSome then 0 else _).sum + _ < _
        omega
    · rename_i hold
      have hseen : s.Seen w := by
        rw [State.Seen]
        simpa [Option.isNone_iff_eq_none, Option.isSome_iff_ne_none] using hold
      have hleft : (nodes.map fun v => if (s.index[v]?).isSome then 0 else (adj v).length + 1).sum +
          (((v, n + 1) :: below).map fun x => (adj x.1).length + 1 - x.2).sum < left adj nodes s := by
        rw [left]
        omega
      split
      · rename_i hmark
        have hstack : w ∈ s.stack := (h.marked w).mp hmark
        have hlower := h.lower (v := v) (m := s.indexOf w) (.inr ⟨w, hstack, rfl, .single hedge⟩)
        refine ⟨hlower.advance hw hn hseen fun _ => ?_, ⟨hin.seen, hadvanced⟩, hleft, fun y hy => hy⟩
        rw [lowOf_lower, if_pos rfl]
        exact min_le_right _ _
      · rename_i hmark
        exact ⟨h.advance hw hn hseen fun hs => absurd ((h.marked w).mpr hs) hmark, ⟨hin.seen, hadvanced⟩, hleft,
          fun y hy => hy⟩

/-- The loop ends. -/
theorem run_spec {nodes : List α} (hclosed : ∀ v ∈ nodes, ∀ w ∈ adj v, w ∈ nodes) : ∀ (fuel : ℕ) {s : State α},
    Inv adj s → Within adj nodes s → left adj nodes s ≤ fuel → ∃ s', run adj fuel s = some s' ∧ Inv adj s' ∧
      Within adj nodes s' ∧ s'.work = [] ∧ ∀ v, s.Seen v → s'.Seen v := by
  intro fuel
  induction fuel with
  | zero =>
    intro s h hin hleft
    have hwork : s.work = [] := by
      by_contra hne
      have := (step_spec hclosed h hin hne).2.2.1
      omega
    exact ⟨s, by rw [run, hwork]; rfl, h, hin, hwork, fun v hv => hv⟩
  | succ fuel ih =>
    intro s h hin hleft
    rw [run]
    by_cases hwork : s.work = []
    · exact ⟨s, by rw [hwork]; rfl, h, hin, hwork, fun v hv => hv⟩
    · rw [if_neg (by simpa using hwork)]
      obtain ⟨h', hin', hlt, hseen⟩ := step_spec hclosed h hin hwork
      obtain ⟨s', hs', hinv, hwithin, hnil, hmono⟩ := ih h' hin' (by omega)
      exact ⟨s', hs', hinv, hwithin, hnil, fun v hv => hmono v (hseen v hv)⟩

omit [DecidableEq α] [Std.LawfulEqOrd α] in
/-- Without work, everything that was discovered is in a component. -/
theorem Inv.done (h : Inv adj s) (hwork : s.work = []) (hv : s.Seen v) : s.Done v := by
  refine ((h.seen v).mp hv).resolve_left fun hs => ?_
  obtain ⟨g, hg, -⟩ := h.back v hs
  rw [State.gray, hwork] at hg
  cases hg

theorem search_spec {nodes : List α} (hclosed : ∀ v ∈ nodes, ∀ w ∈ adj v, w ∈ nodes) : ∀ (starts : List α)
    {s : State α}, (∀ v ∈ starts, v ∈ nodes) → Inv adj s → Within adj nodes s → s.work = [] →
      ∃ s', search adj (turns adj nodes) starts s = some s' ∧ Inv adj s' ∧ Within adj nodes s' ∧ s'.work = [] ∧
        ∀ v, s.Seen v ∨ v ∈ starts → s'.Seen v := by
  intro starts
  induction starts with
  | nil =>
    exact fun {s} _ h hin hwork => ⟨s, rfl, h, hin, hwork, fun v hv =>
      hv.elim (fun hv => hv) fun hv => absurd hv List.not_mem_nil⟩
  | cons start starts ih =>
    intro s hstarts h hin hwork
    obtain ⟨hstart, hrest⟩ := List.forall_mem_cons.mp hstarts
    rw [search]
    by_cases hs : (s.index[start]?).isSome = true
    · rw [if_pos hs]
      obtain ⟨s', hs', hinv, hwithin, hnil, hseen⟩ := ih hrest h hin hwork
      refine ⟨s', hs', hinv, hwithin, hnil, fun v hv => hseen v ?_⟩
      rcases hv with hv | hv
      · exact .inl hv
      · rcases List.mem_cons.mp hv with rfl | hv
        · exact .inl hs
        · exact .inr hv
    · rw [if_neg hs]
      have hnone : s.index[start]? = none := by simpa using hs
      have hgray : s.gray = [] := by rw [State.gray, hwork]; rfl
      have hdisc : Inv adj (s.discover start) := by
        refine h.discover hs (rfl : s.work.map Prod.fst = s.gray) (fun y _ x hx => .inl hx) fun g hg => ?_
        rw [hgray] at hg
        cases hg
      have hwithin : Within adj nodes (s.discover start) := by
        refine ⟨fun y hy => ?_, ?_⟩
        · rcases (seen_discover s start y).mp hy with rfl | hy
          · exact hstart
          · exact hin.seen y hy
        · exact List.forall_mem_cons.mpr ⟨⟨hstart, Nat.zero_le _⟩, hin.work⟩
      have hleft : left adj nodes (s.discover start) ≤ turns adj nodes := by
        have h1 := sum_discover (s := s) adj nodes hstart hnone s.counter
        have h2 := sum_turns_le adj nodes s
        have hw' : (s.discover start).work = [(start, 0)] := by rw [State.discover, hwork]
        rw [left, hw', List.map_singleton, List.sum_singleton]
        change (nodes.map fun v => if ((s.index.insert start s.counter)[v]?).isSome then 0 else _).sum +
          ((adj start).length + 1 - 0) ≤ _
        omega
      obtain ⟨s₁, hs₁, hinv₁, hwithin₁, hnil₁, hseen₁⟩ := run_spec hclosed _ hdisc hwithin hleft
      obtain ⟨s', hs', hinv, hwithin', hnil, hseen⟩ := ih hrest hinv₁ hwithin₁ hnil₁
      refine ⟨s', by rw [hs₁]; exact hs', hinv, hwithin', hnil, fun v hv => hseen v ?_⟩
      rcases hv with hv | hv
      · exact .inl (hseen₁ v ((seen_discover s start v).mpr (.inr hv)))
      · rcases List.mem_cons.mp hv with rfl | hv
        · exact .inl (hseen₁ v ((seen_discover s v v).mpr (.inl rfl)))
        · exact .inr hv

omit [DecidableEq α] [Std.LawfulEqOrd α] in
theorem inv_empty : Inv adj ({} : State α) where
  fresh := fun v hv => by simp [State.Seen] at hv
  seen := fun v => by simp [State.Seen, State.Done]
  once := List.nodup_nil
  sorted := .nil
  gray := .slnil
  marked := fun v => by simp
  closed := fun v w hv => by simp [State.Done] at hv
  component := fun c hc => by cases hc
  known := fun y hy => by cases hy
  above := fun g hg => by cases hg
  back := fun y hy => by cases hy
  low_le := fun g hg => by cases hg
  low_at := fun g hg => by cases hg
  low_of := fun y hy => by cases hy

/-- **The search ends, and what it finds are the strongly connected components.** -/
theorem components_spec {nodes : List α} (hclosed : ∀ v ∈ nodes, ∀ w ∈ adj v, w ∈ nodes) :
    ∃ cs, components adj nodes = some cs ∧ AreComponents adj nodes cs := by
  obtain ⟨s, hs, hinv, hwithin, hwork, hseen⟩ := search_spec hclosed nodes (fun v hv => hv) inv_empty
    ⟨fun v hv => by simp [State.Seen] at hv, fun x hx => by cases hx⟩ rfl
  refine ⟨s.components, by rw [components, hs]; rfl, hinv.component, fun v => ⟨fun hv => ?_, fun hv => ?_⟩, ?_⟩
  · exact hinv.done hwork (hseen v (.inr hv))
  · exact hwithin.seen v ((hinv.seen v).mpr (.inr hv))
  · exact (List.nodup_append.mp hinv.once).2.1

end

example : components (fun v : ℕ => if v = 0 then [1] else if v = 1 then [2, 0] else []) [0, 1, 2] =
    some [[2], [1, 0]] := by decide +kernel

end Tarjan
