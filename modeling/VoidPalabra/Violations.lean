import Mathlib.Algebra.BigOperators.Finprod
import VoidPalabra.Quotient
import VoidPalabra.Tarjan

/-!
# Violations of link rules

The capacity of slots and the cycles of a state. The cycles that are reported are the classes of runes
that lead to one another over links of a label, each once and with exactly the links inside it; a slot is
reported exactly when more ends of links land on it than its rule allows.
-/

namespace VoidPalabra

open Sorting

/-- `ViolationKind`. -/
inductive ViolationKind where
  /-- A slot holds more links than its rule allows. -/
  | overCapacity
  /-- Links close a loop. -/
  | cycle
  deriving DecidableEq

/-- `Violation`. -/
structure Violation where
  /-- What is violated. -/
  kind : ViolationKind
  /-- The name of the capacity, or the pattern of the labels. -/
  rule : Bytes
  /-- The mantle of the slot, or of the least rune of the cycle. -/
  mantle : Bytes
  /-- The rune of the slot, with its port if there is one. -/
  slot : Bytes
  /-- The runes involved. -/
  runes : List Bytes
  /-- The canonical bytes of the links involved. -/
  links : List Bytes
  deriving DecidableEq

/-- What violations are sorted by. -/
def Violation.key (v : Violation) : List (List Bytes) :=
  [[if v.kind = .overCapacity then [0] else [1]], [v.rule], [v.mantle], [v.slot], v.runes]

/-! ### Capacity -/

/-- `parse_ports`: the two numbers of a label. -/
def parsePorts (relation : Bytes) : Option (Bytes × Bytes) :=
  match relation.idxOf? 0x3A with
  | none => none
  | some colon =>
    if colon = 0 ∨ relation.length ≤ colon + 1 then none
    else
      let digits := fun (s : Bytes) => s.all fun c => 0x30 ≤ c && c ≤ 0x39
      if digits (relation.take colon) && digits (relation.drop (colon + 1)) then
        some (relation.take colon, relation.drop (colon + 1))
      else none

/-- A slot: a rune, and a port of it or none. -/
structure SlotKey where
  /-- The name of the mantle. -/
  mantle : Bytes
  /-- `spirit.id`. -/
  id : Bytes
  /-- The port. -/
  port : Bytes
  deriving DecidableEq

namespace SlotKey

/-- By mantle, by spirit and by port. -/
def key (k : SlotKey) : List Bytes := [k.mantle, k.id, k.port]

instance : Ord SlotKey := ⟨fun a b => compare a.key b.key⟩

instance : Std.TransOrd SlotKey where
  eq_swap := by
    intro a b
    exact (Std.OrientedCmp.eq_swap : compare a.key b.key = (compare b.key a.key).swap)
  isLE_trans := by
    intro a b c h k
    exact (Std.TransCmp.isLE_trans : (compare a.key b.key).isLE →
      (compare b.key c.key).isLE → (compare a.key c.key).isLE) h k

instance : Std.LawfulEqOrd SlotKey where
  compare_self := by
    intro a
    exact (Std.ReflCmp.compare_self : compare a.key a.key = .eq)
  eq_of_compare := by
    rintro ⟨m, i, p⟩ ⟨m', i', p'⟩ h
    have h : compare (SlotKey.mk m i p).key (SlotKey.mk m' i' p').key = .eq := h
    have he := Std.LawfulEqCmp.eq_of_compare h
    simp only [key, List.cons.injEq, and_true] at he
    obtain ⟨rfl, rfl, rfl⟩ := he
    rfl

end SlotKey

/-- `Held`: what a slot holds, one entry for each end of a link. -/
structure Held where
  /-- The links. -/
  links : List Bytes := []
  /-- The runes at both of their ends. -/
  runes : List Bytes := []

/-- The slots that are held. -/
abbrev Slots := Std.ExtTreeMap SlotKey Held compare

/-- The ends of a link that occupy something, each with its port. -/
def endsOf (slot : Slot) (l : Link) : List (RuneRef × Bytes) :=
  match slot with
  | .to => [(l.target, [])]
  | .from => [(l.source, [])]
  | .ends => [(l.source, []), (l.target, [])]
  | .ports | .fromPort | .toPort =>
    match parsePorts l.relation with
    | none => []
    | some (i, j) =>
      (if slot = .toPort then [] else [(l.source, i)]) ++ if slot = .fromPort then [] else [(l.target, j)]

/-- The slot that an end occupies. -/
def slotOf (cap : Capacity) (q : Quotient) (e : RuneRef × Bytes) : SlotKey :=
  let r := if cap.throughEquivalence then q.representative e.1 else e.1
  ⟨r.mantle, r.id, e.2⟩

/-- `occupy`. -/
def occupy (cap : Capacity) (q : Quotient) (l : Link) (slots : Slots) (e : RuneRef × Bytes) : Slots :=
  let h := slots[slotOf cap q e]?.getD {}
  slots.insert (slotOf cap q e) ⟨h.links ++ [l.bytes], h.runes ++ [l.source.id, l.target.id]⟩

/-- Whether a link occupies anything: one that fuses does not. -/
def counts (rules : LinkRules) (cap : Capacity) (l : Link) : Bool :=
  labelMatches cap.relation l.relation && !anyMatches rules.equivalence l.relation

/-- What the links of a rule occupy. -/
def slotsOf (links : List Link) (rules : LinkRules) (q : Quotient) (cap : Capacity) : Slots :=
  (links.filter (counts rules cap)).foldl (fun slots l => (endsOf cap.slot l).foldl (occupy cap q l) slots) ∅

/-- A slot that holds too much. -/
def overCapacity (cap : Capacity) (x : SlotKey × Held) : Option Violation :=
  if x.2.links.length ≤ cap.max then none
  else
    some {
      kind := .overCapacity
      rule := cap.name
      mantle := x.1.mantle
      slot := x.1.id ++ if x.1.port = [] then [] else 0x3A :: x.1.port
      runes := sortUnique x.2.runes
      links := sortUnique x.2.links }

/-- The violations of one rule. -/
def capacityViolations (links : List Link) (rules : LinkRules) (q : Quotient) (cap : Capacity) :
    List Violation :=
  (slotsOf links rules q cap).toList.filterMap (overCapacity cap)

/-! ### Cycles -/

/-- The links that begin at each rune. -/
abbrev Adjacency := Std.ExtTreeMap RuneRef (List Link) compare

/-- One link is filed under where it begins. -/
def addEdge (adj : Adjacency) (l : Link) : Adjacency := adj.insert l.source (adj[l.source]?.getD [] ++ [l])

/-- `adj`. -/
def adjacency (links : List Link) : Adjacency := links.foldl addEdge ∅

/-- The runes at the ends of some links, in order. -/
def endpoints (links : List Link) : List RuneRef := touched (links.map fun l => (l.source, l.target))

/-- A component that is a cycle: two runes and more, or one that is linked to itself. -/
def cycleOf (pattern : Bytes) (adj : Adjacency) (comp : List RuneRef) : Option Violation :=
  let members := (Std.ExtTreeSet.ofList comp compare).toList
  let inside := members.flatMap fun v => (adj[v]?.getD []).filter fun l => members.contains l.target
  if members.length < 2 ∧ (inside.any fun l => l.target = l.source) = false then none
  else
    some {
      kind := .cycle
      rule := pattern
      mantle := (members.head?.map RuneRef.mantle).getD []
      slot := []
      runes := sortUnique (members.map RuneRef.id)
      links := sortUnique (inside.map Link.bytes) }

/-- The cycles of the links under a label. -/
def cycleViolations (links : List Link) (pattern : Bytes) : Option (List Violation) := do
  let ls := links.filter fun l => labelMatches pattern l.relation
  let comps ← Tarjan.components (fun v => ((adjacency ls)[v]?.getD []).map Link.target) (endpoints ls)
  pure (comps.filterMap (cycleOf pattern (adjacency ls)))

/-- `check_links`. The search for cycles and the union-find end, so there is a list of violations whenever
the links have canonical bytes. -/
def checkLinks (state : Json) (rules : LinkRules) : Except CanonicalError (Option (List Violation)) := do
  let links ← resolvedLinks state
  pure do
    let q ← quotientOf links rules
    let cycles ← rules.acyclic.mapM (cycleViolations links)
    pure (sortOn Violation.key (rules.capacity.flatMap (capacityViolations links rules q) ++ cycles.flatten))

/-! ### What a cycle is -/

/-- The links of a state. -/
def LinksOf (state : Json) : Set Link := {l | ∃ x ∈ edgesOf state, IsLink (runesOf state) x l}

/-- A link under a label leads from one rune to another. -/
def Leads (links : Set Link) (pattern : Bytes) (x y : RuneRef) : Prop :=
  ∃ l ∈ links, labelMatches pattern l.relation = true ∧ l.source = x ∧ l.target = y

/-- Links lead from one rune to another and back. -/
def SameCycle (links : Set Link) (pattern : Bytes) (x y : RuneRef) : Prop :=
  Relation.TransGen (Leads links pattern) x y ∧ Relation.TransGen (Leads links pattern) y x

/-- The cycle of a rune, as it is reported. -/
structure IsCycle (links : Set Link) (pattern : Bytes) (r : RuneRef) (v : Violation) : Prop where
  /-- It is one. -/
  kind : v.kind = .cycle
  /-- The label. -/
  rule : v.rule = pattern
  /-- It has no slot. -/
  slot : v.slot = []
  /-- It has the mantle of its least rune. -/
  mantle : ∃ m, SameCycle links pattern r m ∧ (∀ y, SameCycle links pattern r y → (compare m y).isLE = true) ∧
    v.mantle = m.mantle
  /-- It lists its runes. -/
  runes : ∀ id, id ∈ v.runes ↔ ∃ y, SameCycle links pattern r y ∧ y.id = id
  /-- Sorted, each once. -/
  runes_sorted : v.runes.Pairwise fun a b => compare a b = .lt
  /-- It lists the links inside it. -/
  links : ∀ b, b ∈ v.links ↔ ∃ l ∈ links, labelMatches pattern l.relation = true ∧
    SameCycle links pattern r l.source ∧ SameCycle links pattern r l.target ∧ l.bytes = b
  /-- Sorted, each once. -/
  links_sorted : v.links.Pairwise fun a b => compare a b = .lt

/-- One rune of each cycle. -/
structure OneOfEach (links : Set Link) (pattern : Bytes) (reps : List RuneRef) : Prop where
  /-- They are on cycles. -/
  on : ∀ r ∈ reps, SameCycle links pattern r r
  /-- Every cycle has one. -/
  covers : ∀ x, SameCycle links pattern x x → ∃ r ∈ reps, SameCycle links pattern r x
  /-- And no more. -/
  once : reps.Pairwise fun r s => ¬SameCycle links pattern r s

theorem SameCycle.symm {links : Set Link} {pattern : Bytes} {x y : RuneRef}
    (h : SameCycle links pattern x y) : SameCycle links pattern y x := ⟨h.2, h.1⟩

theorem SameCycle.trans {links : Set Link} {pattern : Bytes} {x y z : RuneRef}
    (h : SameCycle links pattern x y) (h' : SameCycle links pattern y z) : SameCycle links pattern x z :=
  ⟨h.1.trans h'.1, h'.2.trans h.2⟩

theorem sorted_sortUnique (xs : List Bytes) : (sortUnique xs).Pairwise fun a b => compare a b = .lt :=
  Std.ExtTreeSet.ordered_toList

/-! ### What the search for cycles finds -/

theorem getD_adjacency (links : List Link) (v : RuneRef) :
    (adjacency links)[v]?.getD [] = links.filter fun l => l.source = v := by
  have hfold : ∀ adj : Adjacency, (links.foldl addEdge adj)[v]?.getD [] =
      adj[v]?.getD [] ++ links.filter fun l => l.source = v := by
    induction links with
    | nil => simp
    | cons l links ih =>
      intro adj
      rw [List.foldl_cons, ih, addEdge, UnionFind.getElem?_insert]
      by_cases hl : l.source = v
      · subst hl
        simp
      · simp [hl]
  rw [adjacency, hfold]
  rfl

section

variable {links : List Link} {state : Json} {pattern : Bytes}

/-- The links under a label, where the search looks for them. -/
def under (links : List Link) (pattern : Bytes) : List Link :=
  links.filter fun l => labelMatches pattern l.relation

/-- The runes that a rune leads to, as the search has them. -/
def next (links : List Link) (pattern : Bytes) (v : RuneRef) : List RuneRef :=
  ((adjacency (under links pattern))[v]?.getD []).map Link.target

theorem mem_next {v w : RuneRef} : w ∈ next links pattern v ↔ Leads {l | l ∈ links} pattern v w := by
  rw [next, getD_adjacency, under, List.mem_map]
  constructor
  · rintro ⟨l, hl, rfl⟩
    obtain ⟨hl, hs⟩ := List.mem_filter.mp hl
    obtain ⟨hl, hm⟩ := List.mem_filter.mp hl
    exact ⟨l, hl, hm, by simpa using hs, rfl⟩
  · rintro ⟨l, hl, hm, hs, ht⟩
    exact ⟨l, List.mem_filter.mpr ⟨List.mem_filter.mpr ⟨hl, hm⟩, by simpa using hs⟩, ht⟩

theorem reach_next_iff {v w : RuneRef} : Tarjan.Reach (next links pattern) v w ↔
    Relation.ReflTransGen (Leads {l | l ∈ links} pattern) v w := by
  have he : (fun v w => w ∈ next links pattern v) = Leads {l | l ∈ links} pattern :=
    funext fun v => funext fun w => propext mem_next
  rw [Tarjan.Reach, he]

/-- The ends of a link are among the endpoints. -/
theorem endpoints_of_leads {v w : RuneRef} (h : Leads {l | l ∈ links} pattern v w) :
    v ∈ endpoints (under links pattern) ∧ w ∈ endpoints (under links pattern) := by
  obtain ⟨l, hl, hm, rfl, rfl⟩ := h
  have hpair : (l.source, l.target) ∈ (under links pattern).map fun l => (l.source, l.target) :=
    List.mem_map.mpr ⟨l, List.mem_filter.mpr ⟨hl, hm⟩, rfl⟩
  exact ⟨mem_touched.mpr ⟨_, .inl hpair⟩, mem_touched.mpr ⟨_, .inr hpair⟩⟩

variable {c : List RuneRef}

/-- In a component two runes that are not one are on one cycle. -/
theorem sameCycle_of_ne (hc : Tarjan.IsComponent (next links pattern) c) {x y : RuneRef} (hx : x ∈ c)
    (hy : y ∈ c) (hne : x ≠ y) : SameCycle {l | l ∈ links} pattern x y := by
  obtain ⟨v, hv⟩ := hc
  obtain ⟨hvx, hxv⟩ := (hv x).mp hx
  obtain ⟨hvy, hyv⟩ := (hv y).mp hy
  have hxy := reach_next_iff.mp (hxv.trans hvy)
  have hyx := reach_next_iff.mp (hyv.trans hvx)
  exact ⟨(Relation.reflTransGen_iff_eq_or_transGen.mp hxy).resolve_left (Ne.symm hne),
    (Relation.reflTransGen_iff_eq_or_transGen.mp hyx).resolve_left hne⟩

/-- What is on a cycle with a rune of a component is in the component. -/
theorem mem_of_sameCycle (hc : Tarjan.IsComponent (next links pattern) c) {x y : RuneRef} (hx : x ∈ c)
    (hxy : SameCycle {l | l ∈ links} pattern x y) : y ∈ c := by
  obtain ⟨v, hv⟩ := hc
  obtain ⟨hvx, hxv⟩ := (hv x).mp hx
  exact (hv y).mpr ⟨hvx.trans (reach_next_iff.mpr hxy.1.to_reflTransGen),
    (reach_next_iff.mpr hxy.2.to_reflTransGen).trans hxv⟩

/-- The links inside a component. -/
theorem mem_inside {l : Link} : l ∈ ((Std.ExtTreeSet.ofList c compare).toList.flatMap fun v =>
      ((adjacency (under links pattern))[v]?.getD []).filter fun l =>
        (Std.ExtTreeSet.ofList c compare).toList.contains l.target) ↔
    l ∈ links ∧ labelMatches pattern l.relation = true ∧ l.source ∈ c ∧ l.target ∈ c := by
  rw [List.mem_flatMap]
  simp only [getD_adjacency, List.mem_filter, under, List.contains_iff_mem, Std.ExtTreeSet.mem_toList,
    Std.ExtTreeSet.mem_ofList, List.contains_iff_mem, decide_eq_true_eq]
  constructor
  · rintro ⟨v, hv, ⟨⟨hl, hm⟩, rfl⟩, ht⟩
    exact ⟨hl, hm, hv, ht⟩
  · rintro ⟨hl, hm, hs, ht⟩
    exact ⟨l.source, hs, ⟨⟨hl, hm⟩, rfl⟩, ht⟩

theorem mem_members {y : RuneRef} : y ∈ (Std.ExtTreeSet.ofList c compare).toList ↔ y ∈ c := by
  rw [Std.ExtTreeSet.mem_toList, Std.ExtTreeSet.mem_ofList, List.contains_iff_mem]

/-- The cycle of a rune that is on one is its component. -/
theorem sameCycle_iff (hc : Tarjan.IsComponent (next links pattern) c) {r y : RuneRef} (hr : r ∈ c)
    (hrr : SameCycle {l | l ∈ links} pattern r r) : SameCycle {l | l ∈ links} pattern r y ↔ y ∈ c := by
  refine ⟨mem_of_sameCycle hc hr, fun hy => ?_⟩
  by_cases hry : r = y
  · exact hry ▸ hrr
  · exact sameCycle_of_ne hc hr hy hry

/-- A rune of a component is on a cycle when there is another rune, or a link from a rune to itself. -/
theorem sameCycle_self_iff (hc : Tarjan.IsComponent (next links pattern) c) {r : RuneRef} (hr : r ∈ c) :
    SameCycle {l | l ∈ links} pattern r r ↔
      (∃ y ∈ c, y ≠ r) ∨ ∃ l ∈ links, labelMatches pattern l.relation = true ∧ l.source ∈ c ∧
        l.target = l.source := by
  constructor
  · rintro ⟨hrr, -⟩
    by_cases hy : ∃ y ∈ c, y ≠ r
    · exact .inl hy
    · refine .inr ?_
      obtain ⟨y, ⟨l, hl, hm, hs, ht⟩, hyr⟩ := Relation.TransGen.head'_iff.mp hrr
      -- The first link leads to a rune of the component, and there is only this one.
      have hmem : y ∈ c := by
        obtain ⟨v, hv⟩ := hc
        obtain ⟨hvr, hrv⟩ := (hv r).mp hr
        exact (hv y).mpr ⟨hvr.trans (reach_next_iff.mpr (.single ⟨l, hl, hm, hs, ht⟩)),
          (reach_next_iff.mpr hyr).trans hrv⟩
      obtain rfl : y = r := by
        by_contra hne
        exact hy ⟨y, hmem, hne⟩
      exact ⟨l, hl, hm, hs ▸ hmem, ht.trans hs.symm⟩
  · rintro (⟨y, hy, hne⟩ | ⟨l, hl, hm, hs, ht⟩)
    · have hry := sameCycle_of_ne hc hr hy (Ne.symm hne)
      exact hry.trans hry.symm
    · by_cases hls : r = l.source
      · have hlead : Leads {l | l ∈ links} pattern r r := ⟨l, hl, hm, hls.symm, ht.trans hls.symm⟩
        exact ⟨.single hlead, .single hlead⟩
      · have hrs := sameCycle_of_ne hc hr hs hls
        exact hrs.trans hrs.symm

/-- What is not reported: one rune and no link from it to itself. -/
theorem alone_iff (hc : Tarjan.IsComponent (next links pattern) c) {r : RuneRef} (hr : r ∈ c) :
    ((Std.ExtTreeSet.ofList c compare).toList.length < 2 ∧
      (((Std.ExtTreeSet.ofList c compare).toList.flatMap fun v =>
        ((adjacency (under links pattern))[v]?.getD []).filter fun l =>
          (Std.ExtTreeSet.ofList c compare).toList.contains l.target).any
            fun l => l.target = l.source) = false) ↔ ¬SameCycle {l | l ∈ links} pattern r r := by
  rw [sameCycle_self_iff hc hr, not_or]
  refine and_congr ?_ ?_
  · have hsorted : (Std.ExtTreeSet.ofList c compare).toList.Pairwise fun a b => compare a b = .lt :=
      Std.ExtTreeSet.ordered_toList
    have hmem : r ∈ (Std.ExtTreeSet.ofList c compare).toList := mem_members.mpr hr
    simp only [← @mem_members c]
    match (Std.ExtTreeSet.ofList c compare).toList, hsorted, hmem with
    | [x], _, hx => simpa using (List.mem_singleton.mp hx).symm
    | x :: y :: rest, hsorted, hx =>
      simp only [List.length_cons, not_exists, not_and, not_not]
      refine ⟨fun h => by omega, fun h => ?_⟩
      have hxr := h x List.mem_cons_self
      have hyr := h y (List.mem_cons_of_mem _ List.mem_cons_self)
      exact absurd (hxr.trans hyr.symm)
        (UnionFind.ne_of_lt (List.rel_of_pairwise_cons hsorted List.mem_cons_self))
  · rw [List.any_eq_false]
    simp only [mem_inside, decide_eq_true_eq, not_exists, not_and]
    exact ⟨fun h l hl hm hs ht => h l ⟨hl, hm, hs, ht ▸ hs⟩ ht, fun h l hl ht => h l hl.1 hl.2.1 hl.2.2.1 ht⟩

/-- A component is reported when a rune of it is on a cycle, and as that cycle. -/
theorem cycleOf_spec (hc : Tarjan.IsComponent (next links pattern) c) {r : RuneRef} (hr : r ∈ c) :
    (¬SameCycle {l | l ∈ links} pattern r r ∧ cycleOf pattern (adjacency (under links pattern)) c = none) ∨
      SameCycle {l | l ∈ links} pattern r r ∧
        ∃ v, cycleOf pattern (adjacency (under links pattern)) c = some v ∧
          IsCycle {l | l ∈ links} pattern r v := by
  by_cases hrr : SameCycle {l | l ∈ links} pattern r r
  · refine .inr ⟨hrr, _, if_neg fun h => (alone_iff hc hr).mp h hrr, ?_⟩
    have hiff := fun y => sameCycle_iff (y := y) hc hr hrr
    have hsorted : (Std.ExtTreeSet.ofList c compare).toList.Pairwise fun a b => compare a b = .lt :=
      Std.ExtTreeSet.ordered_toList
    refine ⟨rfl, rfl, rfl, ?_, fun id => ?_, sorted_sortUnique _, fun b => ?_, sorted_sortUnique _⟩
    · obtain ⟨m, rest, hm⟩ := List.exists_cons_of_ne_nil (List.ne_nil_of_mem (mem_members.mpr hr))
      rw [hm] at hsorted ⊢
      refine ⟨m, (hiff m).mpr (mem_members.mp (hm ▸ List.mem_cons_self)), fun y hy => ?_, rfl⟩
      rcases List.mem_cons.mp (hm ▸ mem_members.mpr ((hiff y).mp hy)) with rfl | hy
      · exact Std.ReflCmp.isLE_rfl
      · rw [List.rel_of_pairwise_cons hsorted hy]
        rfl
    · rw [mem_sortUnique, List.mem_map]
      simp only [mem_members, hiff]
    · rw [mem_sortUnique, List.mem_map]
      simp only [mem_inside, hiff, Set.mem_ofPred_eq, and_assoc]
  · exact .inl ⟨hrr, if_pos ((alone_iff hc hr).mpr hrr)⟩

/-- The components that are cycles, each reported for a rune of it. -/
theorem filterMap_cycleOf : ∀ (comps : List (List RuneRef)),
    (∀ c ∈ comps, Tarjan.IsComponent (next links pattern) c) → comps.flatten.Nodup → ∃ reps : List RuneRef,
      List.Forall₂ (IsCycle {l | l ∈ links} pattern) reps
        (comps.filterMap (cycleOf pattern (adjacency (under links pattern)))) ∧
      (∀ r ∈ reps, SameCycle {l | l ∈ links} pattern r r ∧ r ∈ comps.flatten) ∧
      (∀ x ∈ comps.flatten, SameCycle {l | l ∈ links} pattern x x →
        ∃ r ∈ reps, SameCycle {l | l ∈ links} pattern r x) ∧
      reps.Pairwise fun r s => ¬SameCycle {l | l ∈ links} pattern r s
  | [], _, _ => ⟨[], .nil, fun _ h => absurd h List.not_mem_nil, fun _ h => absurd h List.not_mem_nil,
      List.Pairwise.nil⟩
  | c :: comps, hcomps, hnodup => by
    have hc := hcomps c List.mem_cons_self
    rw [List.flatten_cons, List.nodup_append] at hnodup
    obtain ⟨reps, hreps, hon, hcovers, honce⟩ :=
      filterMap_cycleOf comps (fun d hd => hcomps d (List.mem_cons_of_mem _ hd)) hnodup.2.1
    obtain ⟨r, hr⟩ : ∃ r, r ∈ c := by
      obtain ⟨v, hv⟩ := hc
      exact ⟨v, (hv v).mpr ⟨.refl, .refl⟩⟩
    rcases cycleOf_spec hc hr with ⟨hrr, hnone⟩ | ⟨hrr, v, hsome, hv⟩
    · rw [List.filterMap_cons, hnone]
      refine ⟨reps, hreps, fun s hs => ⟨(hon s hs).1, List.mem_append_right _ (hon s hs).2⟩, ?_, honce⟩
      intro x hx hxx
      rcases List.mem_append.mp hx with hx | hx
      · have hxr := (sameCycle_iff hc hx hxx).mpr hr
        exact absurd (hxr.symm.trans hxr) hrr
      · exact hcovers x hx hxx
    · rw [List.filterMap_cons, hsome]
      refine ⟨r :: reps, .cons hv hreps, fun s hs => ?_, fun x hx hxx => ?_, .cons (fun s hs hrs => ?_) honce⟩
      · rcases List.mem_cons.mp hs with rfl | hs
        · exact ⟨hrr, List.mem_append_left _ hr⟩
        · exact ⟨(hon s hs).1, List.mem_append_right _ (hon s hs).2⟩
      · rcases List.mem_append.mp hx with hx | hx
        · exact ⟨r, List.mem_cons_self, (sameCycle_iff hc hr hrr).mpr hx⟩
        · obtain ⟨s, hs, hsx⟩ := hcovers x hx hxx
          exact ⟨s, List.mem_cons_of_mem _ hs, hsx⟩
      · exact hnodup.2.2 s (mem_of_sameCycle hc hr hrs) s (hon s hs).2 rfl

/-- The search ends, and reports every cycle under a label once. -/
theorem cycleViolations_spec (links : List Link) (pattern : Bytes) : ∃ vs reps,
    cycleViolations links pattern = some vs ∧ OneOfEach {l | l ∈ links} pattern reps ∧
      List.Forall₂ (IsCycle {l | l ∈ links} pattern) reps vs := by
  have hclosed : ∀ v ∈ endpoints (under links pattern), ∀ w ∈ next links pattern v,
      w ∈ endpoints (under links pattern) := fun v _ w hw => (endpoints_of_leads (mem_next.mp hw)).2
  obtain ⟨comps, hcomps, hare⟩ := Tarjan.components_spec hclosed
  obtain ⟨reps, hreps, hon, hcovers, honce⟩ := filterMap_cycleOf comps hare.component hare.once
  refine ⟨_, reps, ?_, ⟨fun r hr => (hon r hr).1, fun x hxx => hcovers x ?_ hxx, honce⟩, hreps⟩
  · rw [cycleViolations]
    change (do let comps ← Tarjan.components (next links pattern) (endpoints (under links pattern)); _) = _
    rw [hcomps]
    rfl
  · obtain ⟨y, hxy, -⟩ := Relation.TransGen.head'_iff.mp hxx.1
    exact List.mem_flatten.mpr ((hare.covers x).mp (endpoints_of_leads hxy).1)

end

/-! ### What a slot holds -/

/-- How many ends of a link land on a slot. -/
def landings (rules : LinkRules) (cap : Capacity) (q : Quotient) (k : SlotKey) (l : Link) : ℕ :=
  if counts rules cap l then ((endsOf cap.slot l).filter fun e => slotOf cap q e = k).length else 0

/-- A slot that holds too much, as it is reported. -/
structure IsOver (links : Set Link) (rules : LinkRules) (q : Quotient) (cap : Capacity) (k : SlotKey)
    (v : Violation) : Prop where
  /-- It is one. -/
  kind : v.kind = .overCapacity
  /-- The name of the rule. -/
  rule : v.rule = cap.name
  /-- The mantle. -/
  mantle : v.mantle = k.mantle
  /-- The rune, and the port if there is one. -/
  slot : v.slot = k.id ++ if k.port = [] then [] else 0x3A :: k.port
  /-- It lists the runes at the ends of the links that land there. -/
  runes : ∀ id, id ∈ v.runes ↔
    ∃ l ∈ links, 0 < landings rules cap q k l ∧ (id = l.source.id ∨ id = l.target.id)
  /-- Sorted, each once. -/
  runes_sorted : v.runes.Pairwise fun a b => compare a b = .lt
  /-- It lists the links that land there. -/
  links : ∀ b, b ∈ v.links ↔ ∃ l ∈ links, 0 < landings rules cap q k l ∧ l.bytes = b
  /-- Sorted, each once. -/
  links_sorted : v.links.Pairwise fun a b => compare a b = .lt

section

variable {links : List Link} {rules : LinkRules} {q : Quotient} {cap : Capacity} {k : SlotKey}

/-- The ends that occupy something. -/
def landed (links : List Link) (rules : LinkRules) (cap : Capacity) : List (Link × RuneRef × Bytes) :=
  (links.filter (counts rules cap)).flatMap fun l => (endsOf cap.slot l).map (l, ·)

/-- Those on a slot. -/
def landedOn (links : List Link) (rules : LinkRules) (cap : Capacity) (q : Quotient) (k : SlotKey) :
    List (Link × RuneRef × Bytes) :=
  (landed links rules cap).filter fun x => slotOf cap q x.2 = k

theorem slotsOf_eq : slotsOf links rules q cap =
    (landed links rules cap).foldl (fun slots x => occupy cap q x.1 slots x.2) ∅ := by
  rw [slotsOf, landed, List.foldl_flatMap]
  simp only [List.foldl_map]

/-- A slot holds what landed on it. -/
theorem getD_slotsOf : (slotsOf links rules q cap)[k]?.getD {} =
    ⟨(landedOn links rules cap q k).map fun x => x.1.bytes,
      (landedOn links rules cap q k).flatMap fun x => [x.1.source.id, x.1.target.id]⟩ := by
  rw [slotsOf_eq, landedOn]
  generalize landed links rules cap = xs
  have hfold : ∀ slots : Slots,
      (xs.foldl (fun slots x => occupy cap q x.1 slots x.2) slots)[k]?.getD {} =
        ⟨(slots[k]?.getD {}).links ++ (xs.filter fun x => slotOf cap q x.2 = k).map fun x => x.1.bytes,
          (slots[k]?.getD {}).runes ++
            (xs.filter fun x => slotOf cap q x.2 = k).flatMap fun x => [x.1.source.id, x.1.target.id]⟩ := by
    induction xs with
    | nil => simp
    | cons x xs ih =>
      intro slots
      rw [List.foldl_cons, ih, occupy, UnionFind.getElem?_insert]
      by_cases hk : slotOf cap q x.2 = k
      · subst hk
        simp
      · simp [hk]
  rw [hfold]
  rfl

theorem length_landedOn :
    (landedOn links rules cap q k).length = (links.map (landings rules cap q k)).sum := by
  rw [landedOn, landed]
  induction links with
  | nil => rfl
  | cons l links ih =>
    rw [List.filter_cons, List.map_cons, List.sum_cons, ← ih, landings]
    split
    · rw [List.flatMap_cons, List.filter_append, List.length_append, List.filter_map, List.length_map]
      rfl
    · rw [Nat.zero_add]

theorem mem_landedOn {l : Link} :
    (∃ e, (l, e) ∈ landedOn links rules cap q k) ↔ l ∈ links ∧ 0 < landings rules cap q k l := by
  simp only [landedOn, landed, List.mem_filter, List.mem_flatMap, List.mem_map, decide_eq_true_eq]
  rw [landings]
  constructor
  · rintro ⟨e, ⟨l', ⟨hl, hcount⟩, e', he, hx⟩, hk⟩
    cases hx
    rw [if_pos hcount]
    exact ⟨hl, List.length_pos_of_mem (List.mem_filter.mpr ⟨he, by simpa using hk⟩)⟩
  · rintro ⟨hl, hpos⟩
    split at hpos
    · obtain ⟨e, he⟩ := List.exists_mem_of_length_pos hpos
      obtain ⟨he, hk⟩ := List.mem_filter.mp he
      exact ⟨e, ⟨l, ⟨hl, ‹_›⟩, e, he, rfl⟩, by simpa using hk⟩
    · exact absurd hpos (lt_irrefl 0)

/-- The slots that hold too much. -/
def overfull (links : List Link) (rules : LinkRules) (q : Quotient) (cap : Capacity) : List SlotKey :=
  ((slotsOf links rules q cap).toList.filter fun x => cap.max < x.2.links.length).map Prod.fst

theorem mem_overfull :
    k ∈ overfull links rules q cap ↔ cap.max < (links.map (landings rules cap q k)).sum := by
  have hheld : ((slotsOf links rules q cap)[k]?.getD {}).links.length =
      (links.map (landings rules cap q k)).sum := by
    rw [getD_slotsOf, List.length_map, length_landedOn]
  rw [overfull, List.mem_map, ← hheld]
  simp only [List.mem_filter, decide_eq_true_eq]
  constructor
  · rintro ⟨⟨k', h⟩, ⟨hk, hlen⟩, rfl⟩
    rw [Std.ExtTreeMap.mem_toList_iff_getElem?_eq_some.mp hk]
    exact hlen
  · intro hlen
    cases hk : (slotsOf links rules q cap)[k]? with
    | none =>
      rw [hk] at hlen
      cases hlen
    | some h =>
      rw [hk] at hlen
      exact ⟨(k, h), ⟨Std.ExtTreeMap.mem_toList_iff_getElem?_eq_some.mpr hk, hlen⟩, rfl⟩

theorem nodup_overfull : (overfull links rules q cap).Nodup := by
  refine List.pairwise_map.mpr ((List.Pairwise.filter _ Std.ExtTreeMap.ordered_keys_toList).imp ?_)
  exact fun h => UnionFind.ne_of_lt h

/-- A slot that holds too much is reported with what landed on it. -/
theorem overCapacity_spec {h : Held} (hk : (slotsOf links rules q cap)[k]? = some h)
    (hlen : cap.max < h.links.length) :
    ∃ v, overCapacity cap (k, h) = some v ∧ IsOver {l | l ∈ links} rules q cap k v := by
  have hheld := @getD_slotsOf links rules q cap k
  rw [hk, Option.getD_some] at hheld
  refine ⟨_, if_neg (Nat.not_le.mpr hlen), rfl, rfl, rfl, rfl, fun id => ?_, sorted_sortUnique _, fun b => ?_,
    sorted_sortUnique _⟩
  · rw [mem_sortUnique, hheld, List.mem_flatMap]
    simp only [Set.mem_ofPred_eq, ← and_assoc, ← mem_landedOn]
    constructor
    · rintro ⟨⟨l, e⟩, hx, hid⟩
      exact ⟨l, ⟨e, hx⟩, by simpa using hid⟩
    · rintro ⟨l, ⟨e, hx⟩, hid⟩
      exact ⟨(l, e), hx, by simpa using hid⟩
  · rw [mem_sortUnique, hheld, List.mem_map]
    simp only [Set.mem_ofPred_eq, ← and_assoc, ← mem_landedOn]
    constructor
    · rintro ⟨⟨l, e⟩, hx, hb⟩
      exact ⟨l, ⟨e, hx⟩, hb⟩
    · rintro ⟨l, ⟨e, hx⟩, hb⟩
      exact ⟨(l, e), hx, hb⟩

/-- Every slot that holds too much is reported once. -/
theorem capacityViolations_spec : List.Forall₂ (IsOver {l | l ∈ links} rules q cap)
    (overfull links rules q cap) (capacityViolations links rules q cap) := by
  rw [overfull, capacityViolations]
  have hmem : ∀ x ∈ (slotsOf links rules q cap).toList, (slotsOf links rules q cap)[x.1]? = some x.2 :=
    fun x hx => Std.ExtTreeMap.mem_toList_iff_getElem?_eq_some.mp hx
  generalize (slotsOf links rules q cap).toList = xs at hmem ⊢
  induction xs with
  | nil => exact .nil
  | cons x xs ih =>
    have hrest := ih fun y hy => hmem y (List.mem_cons_of_mem _ hy)
    rw [List.filter_cons, List.filterMap_cons]
    by_cases hlen : cap.max < x.2.links.length
    · obtain ⟨v, hv, hover⟩ := overCapacity_spec (hmem x List.mem_cons_self) hlen
      rw [if_pos (decide_eq_true hlen), hv]
      exact .cons hover hrest
    · rw [if_neg (by simpa using hlen), overCapacity, if_pos (Nat.not_lt.mp hlen)]
      exact hrest

end

/-! ### The violations of a state -/

section

variable {α κ : Type} [Ord κ] [Std.TransOrd κ] [Std.LawfulEqOrd κ] [DecidableEq κ] {key : α → κ}

/-- In a sorted list, what stays is strictly sorted. -/
theorem sorted_uniqueAfter : ∀ {xs : List α} {a : α}, (a :: xs).Pairwise (KeyLe key) →
    (uniqueAfter key a xs).Pairwise fun x y => compare (key x) (key y) = .lt
  | [], _, _ => List.pairwise_singleton _ _
  | b :: xs, a, h => by
    obtain ⟨ha, h'⟩ := List.pairwise_cons.mp h
    rw [uniqueAfter]
    by_cases hk : key a = key b
    · rw [if_pos hk]
      refine sorted_uniqueAfter (List.pairwise_cons.mpr ⟨fun x hx => ha x (List.mem_cons_of_mem _ hx), ?_⟩)
      exact (List.pairwise_cons.mp h').2
    · rw [if_neg hk]
      refine List.pairwise_cons.mpr ⟨fun x hx => ?_, sorted_uniqueAfter h'⟩
      have hab : compare (key a) (key b) = .lt := by
        have hle : (compare (key a) (key b)).isLE = true := ha b List.mem_cons_self
        cases hc : compare (key a) (key b) with
        | lt => rfl
        | eq => exact absurd (Std.LawfulEqCmp.eq_of_compare hc) hk
        | gt =>
          rw [hc] at hle
          cases hle
      rcases List.mem_cons.mp (mem_of_mem_uniqueAfter hx) with rfl | hx
      · exact hab
      · exact Std.TransCmp.lt_of_lt_of_isLE hab ((List.pairwise_cons.mp h').1 x hx)

theorem sorted_uniqueOn {xs : List α} (h : xs.Pairwise (KeyLe key)) :
    (uniqueOn key xs).Pairwise fun x y => compare (key x) (key y) = .lt := by
  cases xs with
  | nil => exact List.Pairwise.nil
  | cons a xs => exact sorted_uniqueAfter h

end

/-- The resolved links are strictly sorted. -/
theorem sorted_resolvedLinks {state : Json} {links : List Link} (h : resolvedLinks state = .ok links) :
    links.Pairwise fun a b => compare a.key b.key = .lt := by
  obtain ⟨out, -, h⟩ := bind_eq_ok.mp h
  cases h
  exact sorted_uniqueOn (sortOn_pairwise _ _)

theorem nodup_resolvedLinks {state : Json} {links : List Link} (h : resolvedLinks state = .ok links) :
    links.Nodup :=
  (sorted_resolvedLinks h).imp fun hlt he => UnionFind.ne_of_lt hlt (congrArg Link.key he)

/-- As a set they are the links of the state. -/
theorem setOf_resolvedLinks {state : Json} {links : List Link} (h : resolvedLinks state = .ok links) :
    {l | l ∈ links} = LinksOf state :=
  Set.ext fun l => mem_resolvedLinks h l

theorem forall₂_flatMap {α β γ : Type} {R : α → β → γ → Prop} {f : α → List β} {g : α → List γ}
    (h : ∀ a, List.Forall₂ (R a) (f a) (g a)) (as : List α) :
    List.Forall₂ (fun x c => R x.1 x.2 c) (as.flatMap fun a => (f a).map (a, ·)) (as.flatMap g) := by
  induction as with
  | nil => exact .nil
  | cons a as ih =>
    rw [List.flatMap_cons, List.flatMap_cons]
    have hhead : List.Forall₂ (fun x c => R x.1 x.2 c) ((f a).map (a, ·)) (g a) :=
      List.forall₂_map_left_iff.mpr (h a)
    exact List.rel_append hhead ih

theorem kind_of_forall₂ {α : Type} {R : α → Violation → Prop} {kind : ViolationKind}
    (hR : ∀ a v, R a v → v.kind = kind) {as : List α} {vs : List Violation} (h : List.Forall₂ R as vs) :
    ∀ v ∈ vs, v.kind = kind := by
  induction h with
  | nil => exact fun v hv => absurd hv List.not_mem_nil
  | cons hav _ ih =>
    intro v hv
    rcases List.mem_cons.mp hv with rfl | hv
    · exact hR _ _ hav
    · exact ih v hv

/-- What a check of links that succeeds returns: the slots that hold too much and the cycles, sorted. -/
theorem checkLinks_eq_ok {state : Json} {rules : LinkRules} {r : Option (List Violation)}
    (h : checkLinks state rules = .ok r) : ∃ links q slots cycles vs, resolvedLinks state = .ok links ∧
      IsQuotient (Fuses state rules) q ∧ r = some vs ∧ vs = sortOn Violation.key (slots ++ cycles) ∧
      List.Forall₂ (fun x v => IsOver (LinksOf state) rules q x.1 x.2 v)
        (rules.capacity.flatMap fun cap => (overfull links rules q cap).map (cap, ·)) slots ∧
      ∃ reps : Bytes → List RuneRef, (∀ p, OneOfEach (LinksOf state) p (reps p)) ∧
        List.Forall₂ (fun x v => IsCycle (LinksOf state) x.1 x.2 v)
          (rules.acyclic.flatMap fun p => (reps p).map (p, ·)) cycles := by
  obtain ⟨links, hlinks, h⟩ := bind_eq_ok.mp h
  cases h
  obtain ⟨q, hq, his⟩ := quotientOf_spec links rules
  choose cycles reps hcycles hone hreps using cycleViolations_spec links
  rw [setOf_resolvedLinks hlinks] at hone hreps
  have hmapM : rules.acyclic.mapM (cycleViolations links) = some (rules.acyclic.map cycles) := by
    rw [funext hcycles]
    induction rules.acyclic with
    | nil => rfl
    | cons p ps ih =>
      rw [List.mapM_cons, ih]
      rfl
  refine ⟨links, q, rules.capacity.flatMap (capacityViolations links rules q), rules.acyclic.flatMap cycles, _,
    hlinks, ?_, ?_, rfl, forall₂_flatMap (fun cap => ?_) _, reps, hone, forall₂_flatMap hreps _⟩
  · have hpairs : (fun x y => (x, y) ∈ fusedPairs links rules) = Fuses state rules :=
      funext fun x => funext fun y => propext (fuses_iff hlinks rules x y).symm
    exact hpairs ▸ his
  · rw [hq, hmapM]
    rfl
  · rw [← setOf_resolvedLinks hlinks]
    exact capacityViolations_spec

theorem checkLinks_ok_iff {state : Json} {rules : LinkRules} : (∃ r, checkLinks state rules = .ok r) ↔
    ∀ x ∈ edgesOf state, Joins (runesOf state) x → HasForm x.2 := by
  rw [← resolvedLinks_ok_iff]
  constructor
  · rintro ⟨r, h⟩
    obtain ⟨links, hlinks, -⟩ := bind_eq_ok.mp h
    exact ⟨links, hlinks⟩
  · rintro ⟨links, hlinks⟩
    exact ⟨_, bind_eq_ok.mpr ⟨links, hlinks, rfl⟩⟩

theorem filter_kind {slots cycles : List Violation} (hslots : ∀ v ∈ slots, v.kind = .overCapacity)
    (hcycles : ∀ v ∈ cycles, v.kind = .cycle) :
    (slots ++ cycles).filter (fun v => v.kind = .overCapacity) = slots ∧
      (slots ++ cycles).filter (fun v => v.kind = .cycle) = cycles := by
  rw [List.filter_append, List.filter_append]
  constructor
  · rw [List.filter_eq_self.mpr fun v hv => by simpa using hslots v hv,
      List.filter_eq_nil_iff.mpr fun v hv => by simp [hcycles v hv], List.append_nil]
  · rw [List.filter_eq_nil_iff.mpr fun v hv => by simp [hslots v hv],
      List.filter_eq_self.mpr fun v hv => by simpa using hcycles v hv, List.nil_append]

/-- Two wires into a rune, and three that close a loop. -/
def knotted : Json := threeRunes [("x", "y"), ("y", "z"), ("z", "x"), ("z", "y")]

/-- No loops, and one wire into each rune. -/
def wiring : LinkRules := { capacity := [{ name := lit "one" }], acyclic := [lit "same"] }

theorem checkLinks_knotted : ∃ r, checkLinks knotted wiring = .ok r := by
  match h : checkLinks knotted wiring with
  | .ok r => exact ⟨r, rfl⟩
  | .error e =>
    have hok : (checkLinks knotted wiring).toOption.isSome = true := by decide +kernel
    rw [h] at hok
    cases hok

/-- **A check of links reports every cycle of links under an acyclic label once**, as the runes that lead to
one another and the links among them, and reports no other cycle. What it returns is sorted. -/
theorem checkLinks_cycles {state : Json} {rules : LinkRules} {r : Option (List Violation)}
    (h : checkLinks state rules = .ok r) : ∃ vs, r = some vs ∧ vs.Pairwise (KeyLe Violation.key) ∧
      ∃ reps : Bytes → List RuneRef, (∀ p, OneOfEach (LinksOf state) p (reps p)) ∧
        ∃ ws, (vs.filter fun v => v.kind = .cycle).Perm ws ∧
          List.Forall₂ (fun x v => IsCycle (LinksOf state) x.1 x.2 v)
            (rules.acyclic.flatMap fun p => (reps p).map (p, ·)) ws := by
  obtain ⟨links, q, slots, cycles, vs, -, -, rfl, rfl, hslots, reps, hone, hcycles⟩ := checkLinks_eq_ok h
  refine ⟨_, rfl, sortOn_pairwise _ _, reps, hone, cycles, ?_, hcycles⟩
  refine ((sortOn_perm _ _).filter _).trans ?_
  rw [(filter_kind (kind_of_forall₂ (fun x v => IsOver.kind) hslots)
    (kind_of_forall₂ (fun x v => IsCycle.kind) hcycles)).2]

/-- The loop of three runes. -/
theorem checkLinks_cycles_knotted :
    (checkLinks knotted wiring).toOption.join.map
        (fun vs => (vs.filter fun v => v.kind = .cycle).map fun v => (v.runes, v.links.length)) =
      some [([lit "x", lit "y", lit "z"], 4)] ∧
    ∃ vs, checkLinks knotted wiring = .ok (some vs) ∧ ∃ reps : Bytes → List RuneRef,
      (∀ p, OneOfEach (LinksOf knotted) p (reps p)) ∧ ∃ ws, (vs.filter fun v => v.kind = .cycle).Perm ws ∧
        List.Forall₂ (fun x v => IsCycle (LinksOf knotted) x.1 x.2 v)
          (wiring.acyclic.flatMap fun p => (reps p).map (p, ·)) ws := by
  refine ⟨by decide +kernel, ?_⟩
  obtain ⟨r, h⟩ := checkLinks_knotted
  obtain ⟨vs, rfl, -, hvs⟩ := checkLinks_cycles h
  exact ⟨vs, h, hvs⟩

/-- **It reports every slot that more ends of links land on than its rule allows once**, where a rule that
counts through equivalence counts at the least rune of a class, and reports no other slot. -/
theorem checkLinks_capacity {state : Json} {rules : LinkRules} {r : Option (List Violation)}
    (h : checkLinks state rules = .ok r) : ∃ vs q, r = some vs ∧ IsQuotient (Fuses state rules) q ∧
      ∃ slots : Capacity → List SlotKey,
        (∀ cap, (slots cap).Nodup ∧ ∀ k, k ∈ slots cap ↔
          cap.max < ∑ᶠ l ∈ LinksOf state, landings rules cap q k l) ∧
        ∃ ws, (vs.filter fun v => v.kind = .overCapacity).Perm ws ∧
          List.Forall₂ (fun x v => IsOver (LinksOf state) rules q x.1 x.2 v)
            (rules.capacity.flatMap fun cap => (slots cap).map (cap, ·)) ws := by
  obtain ⟨links, q, slots, cycles, vs, hlinks, hq, rfl, rfl, hslots, reps, -, hcycles⟩ := checkLinks_eq_ok h
  have hsum : ∀ cap k, ∑ᶠ l ∈ LinksOf state, landings rules cap q k l =
      (links.map (landings rules cap q k)).sum := by
    intro cap k
    rw [← setOf_resolvedLinks hlinks, ← List.sum_toFinset _ (nodup_resolvedLinks hlinks),
      ← finsum_mem_coe_finset, List.coe_toFinset]
  refine ⟨_, q, rfl, hq, overfull links rules q, fun cap => ⟨nodup_overfull, fun k => ?_⟩, slots, ?_, hslots⟩
  · rw [mem_overfull, hsum]
  · refine ((sortOn_perm _ _).filter _).trans ?_
    rw [(filter_kind (kind_of_forall₂ (fun x v => IsOver.kind) hslots)
      (kind_of_forall₂ (fun x v => IsCycle.kind) hcycles)).1]

/-- The rune that two links end at. -/
theorem checkLinks_capacity_knotted :
    (checkLinks knotted wiring).toOption.join.map
        (fun vs => (vs.filter fun v => v.kind = .overCapacity).map fun v => (v.rule, v.slot, v.links.length)) =
      some [(lit "one", lit "y", 2)] ∧
    ∃ vs q, checkLinks knotted wiring = .ok (some vs) ∧ IsQuotient (Fuses knotted wiring) q ∧
      ∃ slots : Capacity → List SlotKey,
        (∀ cap, (slots cap).Nodup ∧ ∀ k, k ∈ slots cap ↔
          cap.max < ∑ᶠ l ∈ LinksOf knotted, landings wiring cap q k l) ∧
        ∃ ws, (vs.filter fun v => v.kind = .overCapacity).Perm ws ∧
          List.Forall₂ (fun x v => IsOver (LinksOf knotted) wiring q x.1 x.2 v)
            (wiring.capacity.flatMap fun cap => (slots cap).map (cap, ·)) ws := by
  refine ⟨by decide +kernel, ?_⟩
  obtain ⟨r, h⟩ := checkLinks_knotted
  obtain ⟨vs, q, rfl, hvs⟩ := checkLinks_capacity h
  exact ⟨vs, q, h, hvs⟩

/-- Links are resolved from which runes and which edges there are, whatever their order. -/
theorem resolvedLinks_congr {a b : Json} (hr : (runesOf a).Perm (runesOf b))
    (he : ∀ x, x ∈ edgesOf a ↔ x ∈ edgesOf b) {links : List Link} (h : resolvedLinks a = .ok links) :
    resolvedLinks b = .ok links := by
  obtain ⟨links', h'⟩ : ∃ links', resolvedLinks b = .ok links' := by
    refine resolvedLinks_ok_iff.mpr fun x hx hj => ?_
    exact resolvedLinks_ok_iff.mp ⟨_, h⟩ x ((he x).mpr hx) (hj.perm hr.symm)
  have hmem : ∀ l, l ∈ links ↔ l ∈ links' := by
    intro l
    rw [mem_resolvedLinks h, mem_resolvedLinks h']
    constructor
    · rintro ⟨x, hx, hl⟩
      exact ⟨x, (he x).mp hx, hl.mantle, hl.relation, hl.source.perm hr, hl.target.perm hr, hl.bytes⟩
    · rintro ⟨x, hx, hl⟩
      exact ⟨x, (he x).mpr hx, hl.mantle, hl.relation, hl.source.perm hr.symm, hl.target.perm hr.symm, hl.bytes⟩
  have hp : links.Perm links' :=
    (List.perm_ext_iff_of_nodup (nodup_resolvedLinks h) (nodup_resolvedLinks h')).mpr hmem
  rw [h', hp.eq_of_pairwise (fun x y _ _ hxy hyx => ?_) (sorted_resolvedLinks h) (sorted_resolvedLinks h')]
  rw [@Std.OrientedCmp.eq_swap _ compare _ y.key x.key, hxy] at hyx
  cases hyx

/-- **What a check of links finds is told by which runes and edges there are**, not by their order, and it
finds something unless an edge that joins two runes has no canonical form. -/
theorem checkLinks_order (rules : LinkRules) :
    (∀ a b, (runesOf a).Perm (runesOf b) → (∀ x, x ∈ edgesOf a ↔ x ∈ edgesOf b) →
      ∀ r, checkLinks a rules = .ok r ↔ checkLinks b rules = .ok r) ∧
    ∀ state, (∃ vs, checkLinks state rules = .ok (some vs)) ↔
      ∀ x ∈ edgesOf state, Joins (runesOf state) x → HasForm x.2 := by
  have hone : ∀ {a b : Json}, (runesOf a).Perm (runesOf b) → (∀ x, x ∈ edgesOf a ↔ x ∈ edgesOf b) →
      ∀ {r}, checkLinks a rules = .ok r → checkLinks b rules = .ok r := by
    intro a b hr he r h
    obtain ⟨links, hlinks, h⟩ := bind_eq_ok.mp h
    exact bind_eq_ok.mpr ⟨links, resolvedLinks_congr hr he hlinks, h⟩
  refine ⟨fun a b hr he r => ⟨hone hr he, hone hr.symm fun x => (he x).symm⟩, fun state => ?_⟩
  rw [← @checkLinks_ok_iff state rules]
  constructor
  · rintro ⟨vs, h⟩
    exact ⟨_, h⟩
  · rintro ⟨r, h⟩
    obtain ⟨_, _, _, _, vs, -, -, rfl, -⟩ := checkLinks_eq_ok h
    exact ⟨vs, h⟩

theorem runesOf_threeRunes (es es' : List (String × String)) :
    runesOf (threeRunes es) = runesOf (threeRunes es') := rfl

theorem mem_edgesOf_threeRunes {es es' : List (String × String)} (h : es.Perm es') (x : Bytes × Json) :
    x ∈ edgesOf (threeRunes es) ↔ x ∈ edgesOf (threeRunes es') := by
  have hedges : ∀ es : List (String × String), edgesOf (threeRunes es) =
      (es.map fun e => Json.obj [(.ofLit "from", .str (.ofBytes (lit e.1))),
        (.ofLit "to", .str (.ofBytes (lit e.2))), (.ofLit "relation", .str (.ofBytes (lit "same")))]).map
        fun e => (lit "m", e) := fun es => List.append_nil _
  rw [hedges, hedges]
  exact ((h.map _).map _).mem_iff

/-- The edges the other way round. -/
theorem checkLinks_order_knotted : ∃ vs, checkLinks knotted wiring = .ok (some vs) ∧
    checkLinks (threeRunes [("z", "y"), ("z", "x"), ("y", "z"), ("x", "y")]) wiring = .ok (some vs) := by
  have hform : ∀ x ∈ edgesOf knotted, Joins (runesOf knotted) x → HasForm x.2 :=
    checkLinks_ok_iff.mp checkLinks_knotted
  obtain ⟨vs, h⟩ := ((checkLinks_order wiring).2 knotted).mpr hform
  have hrunes : (runesOf knotted).Perm
      (runesOf (threeRunes [("z", "y"), ("z", "x"), ("y", "z"), ("x", "y")])) := by
    rw [knotted, runesOf_threeRunes]
  exact ⟨vs, h, ((checkLinks_order wiring).1 _ _ hrunes
    (mem_edgesOf_threeRunes (List.reverse_perm [("x", "y"), ("y", "z"), ("z", "x"), ("z", "y")]).symm) _).mp h⟩

end VoidPalabra
