import Mathlib

/-!
# Walks of a graph

A walk takes the top of its stack, stops if that is what it looks for, and otherwise puts
the successors of what it had not seen on the stack. It sees what can be reached and
nothing else, and ends within as many steps as there are edges.
-/

namespace Search

variable {α : Type} {cmp : α → α → Ordering} [Std.TransCmp cmp] [Std.LawfulEqCmp cmp]

/-- The walk with a bound on its steps: whether it stopped, and what it saw. -/
def walk (next : α → List α) (stop : α → Bool) :
    ℕ → Std.ExtTreeSet α cmp → List α → Bool × Std.ExtTreeSet α cmp
  | 0, seen, _ => (false, seen)
  | _ + 1, seen, [] => (false, seen)
  | fuel + 1, seen, a :: stack =>
    if stop a then (true, seen)
    else if a ∈ seen then walk next stop fuel seen stack
    else walk next stop fuel (seen.insert a) ((next a).reverse ++ stack)

/-- What can be reached from a list. -/
def Reach (next : α → List α) (stack : List α) (a : α) : Prop :=
  ∃ b ∈ stack, Relation.ReflTransGen (fun c d => d ∈ next c) b a

/-- The edges that the walk may still put on its stack. -/
def cost (next : α → List α) (nodes : List α) (seen : Std.ExtTreeSet α cmp) : ℕ :=
  ((nodes.filter (· ∉ seen)).map fun n => (next n).length).sum

/-- What a walk has seen: the successors of what it saw are seen or on the stack, and what
it looks for is not among them. -/
structure Seen (next : α → List α) (stop : α → Bool) (seen : Std.ExtTreeSet α cmp)
    (stack : List α) : Prop where
  /-- The successors. -/
  closed : ∀ a ∈ seen, ∀ b ∈ next a, b ∈ seen ∨ b ∈ stack
  /-- What it looks for. -/
  passed : ∀ a ∈ seen, stop a = false

variable {next : α → List α} {stop : α → Bool} {seen : Std.ExtTreeSet α cmp} {stack : List α}
  {nodes : List α}

theorem Reach.mono {stack' : List α} (h : ∀ b ∈ stack, Reach next stack' b) {a : α}
    (ha : Reach next stack a) : Reach next stack' a := by
  obtain ⟨b, hb, hba⟩ := ha
  obtain ⟨c, hc, hcb⟩ := h b hb
  exact ⟨c, hc, hcb.trans hba⟩

theorem reach_self {a : α} (h : a ∈ stack) : Reach next stack a := ⟨a, h, .refl⟩

theorem reach_next {a b : α} (h : b ∈ next a) : Reach next (a :: stack) b :=
  ⟨a, List.mem_cons_self, .single h⟩

/-- The walk goes only where it can. -/
theorem reach_push {a c : α} (h : Reach next ((next a).reverse ++ stack) c) :
    Reach next (a :: stack) c := by
  refine h.mono fun b hb => ?_
  rcases List.mem_append.mp hb with hb | hb
  · exact reach_next (List.mem_reverse.mp hb)
  · exact reach_self (List.mem_cons_of_mem a hb)

theorem reach_tail {a c : α} (h : Reach next stack c) : Reach next (a :: stack) c :=
  h.mono fun _ hb => reach_self (List.mem_cons_of_mem a hb)

/-- One step of the walk past something new. -/
theorem Seen.insert (h : Seen next stop seen (a :: stack)) (ha : stop a = false) :
    Seen next stop (seen.insert a) ((next a).reverse ++ stack) where
  closed b hb c hc := by
    rcases Std.ExtTreeSet.mem_insert.mp hb with he | hb
    · obtain rfl := Std.LawfulEqCmp.eq_of_compare he
      exact Or.inr (List.mem_append_left _ (List.mem_reverse.mpr hc))
    · rcases h.closed b hb c hc with hc | hc
      · exact Or.inl (Std.ExtTreeSet.mem_insert.mpr (Or.inr hc))
      · rcases List.mem_cons.mp hc with rfl | hc
        · exact Or.inl Std.ExtTreeSet.mem_insert_self
        · exact Or.inr (List.mem_append_right _ hc)
  passed b hb := by
    rcases Std.ExtTreeSet.mem_insert.mp hb with he | hb
    · obtain rfl := Std.LawfulEqCmp.eq_of_compare he
      exact ha
    · exact h.passed b hb

omit [Std.LawfulEqCmp cmp] in
/-- One step of the walk past something seen. -/
theorem Seen.tail (h : Seen next stop seen (a :: stack)) (ha : a ∈ seen) :
    Seen next stop seen stack where
  closed b hb c hc := by
    rcases h.closed b hb c hc with hc | hc
    · exact Or.inl hc
    · rcases List.mem_cons.mp hc with rfl | hc
      · exact Or.inl ha
      · exact Or.inr hc
  passed := h.passed

/-- The edges of something new are counted no more. -/
theorem cost_insert [DecidableEq α] {a : α} (hnodes : nodes.Nodup)
    (hnext : a ∉ nodes → next a = []) (ha : a ∉ seen) :
    (next a).length + cost next nodes (seen.insert a) = cost next nodes seen := by
  have hfilter : nodes.filter (· ∉ seen.insert a) = (nodes.filter (· ∉ seen)).erase a := by
    rw [(hnodes.filter _).erase_eq_filter, List.filter_filter]
    refine List.filter_congr fun n _ => ?_
    have hmem : n ∈ seen.insert a ↔ n = a ∨ n ∈ seen := by
      rw [Std.ExtTreeSet.mem_insert, Std.LawfulEqCmp.compare_eq_iff_eq, eq_comm]
    simp only [hmem, not_or, Bool.decide_and, bne, beq_eq_decide, decide_not]
  unfold cost
  rw [hfilter]
  by_cases hmem : a ∈ nodes
  · have hl : a ∈ nodes.filter (· ∉ seen) := List.mem_filter.mpr ⟨hmem, decide_eq_true ha⟩
    exact List.sum_map_erase (fun n => (next n).length) hl
  · rw [List.erase_of_not_mem fun h => hmem (List.mem_filter.mp h).1, hnext hmem]
    simp

/-- **A walk sees what can be reached.** With a step for each edge it stops when what it
looks for can be reached, and otherwise has seen, besides what it had, just what can be. -/
theorem walk_spec [DecidableEq α] (hnodes : nodes.Nodup) (hnext : ∀ a, a ∉ nodes → next a = []) :
    ∀ (fuel : ℕ) (seen : Std.ExtTreeSet α cmp) (stack : List α), Seen next stop seen stack →
      stack.length + cost next nodes seen ≤ fuel →
      ((walk next stop fuel seen stack).1 = true → ∃ a, Reach next stack a ∧ stop a = true) ∧
      ((walk next stop fuel seen stack).1 = false →
        Seen next stop (walk next stop fuel seen stack).2 [] ∧
        (∀ a, a ∈ seen ∨ a ∈ stack → a ∈ (walk next stop fuel seen stack).2) ∧
        ∀ a ∈ (walk next stop fuel seen stack).2, a ∈ seen ∨ Reach next stack a)
  | fuel, seen, [], h, _ => by
    have hwalk : walk next stop fuel seen [] = (false, seen) := by cases fuel <;> rfl
    rw [hwalk]
    refine ⟨fun hf => (nomatch hf), fun _ => ⟨h, fun a ha => ?_, fun a ha => Or.inl ha⟩⟩
    exact ha.resolve_right List.not_mem_nil
  | 0, _, _ :: _, _, hfuel => by simp at hfuel
  | fuel + 1, seen, a :: stack, h, hfuel => by
    rw [List.length_cons] at hfuel
    rw [walk]
    split
    · rename_i hstop
      exact ⟨fun _ => ⟨a, reach_self List.mem_cons_self, hstop⟩, fun hf => (nomatch hf)⟩
    · rename_i hstop
      split
      · -- what was seen before is passed over
        rename_i ha
        obtain ⟨hyes, hno⟩ := walk_spec hnodes hnext fuel seen stack (h.tail ha) (by omega)
        refine ⟨fun hw => ?_, fun hw => ?_⟩
        · obtain ⟨b, hb, hs⟩ := hyes hw
          exact ⟨b, reach_tail hb, hs⟩
        · obtain ⟨hseen, hall, honly⟩ := hno hw
          refine ⟨hseen, fun b hb => hall b ?_, fun b hb => (honly b hb).imp_right reach_tail⟩
          rcases hb with hb | hb
          · exact Or.inl hb
          · rcases List.mem_cons.mp hb with rfl | hb
            · exact Or.inl ha
            · exact Or.inr hb
      · rename_i ha
        have hcost := cost_insert hnodes (hnext a) ha
        obtain ⟨hyes, hno⟩ := walk_spec hnodes hnext fuel _ _
          (h.insert (Bool.eq_false_iff.mpr hstop))
          (by rw [List.length_append, List.length_reverse]; omega)
        refine ⟨fun hw => ?_, fun hw => ?_⟩
        · obtain ⟨b, hb, hs⟩ := hyes hw
          exact ⟨b, reach_push hb, hs⟩
        · obtain ⟨hseen, hall, honly⟩ := hno hw
          refine ⟨hseen, fun b hb => hall b ?_, fun b hb => ?_⟩
          · rcases hb with hb | hb
            · exact Or.inl (Std.ExtTreeSet.mem_insert.mpr (Or.inr hb))
            · rcases List.mem_cons.mp hb with rfl | hb
              · exact Or.inl Std.ExtTreeSet.mem_insert_self
              · exact Or.inr (List.mem_append_right _ hb)
          · rcases honly b hb with hb | hb
            · rcases Std.ExtTreeSet.mem_insert.mp hb with he | hb
              · obtain rfl := Std.LawfulEqCmp.eq_of_compare he
                exact Or.inr (reach_self List.mem_cons_self)
              · exact Or.inl hb
            · exact Or.inr (reach_push hb)

omit [Std.LawfulEqCmp cmp] in
/-- What can be reached from what was seen was seen. -/
theorem Seen.reach (h : Seen next stop seen []) {a b : α} (ha : a ∈ seen)
    (hab : Relation.ReflTransGen (fun c d => d ∈ next c) a b) : b ∈ seen := by
  induction hab with
  | refl => exact ha
  | tail _ hcd ih => exact (h.closed _ ih _ hcd).resolve_right List.not_mem_nil

omit [Std.LawfulEqCmp cmp] in
theorem seen_empty : Seen next stop (∅ : Std.ExtTreeSet α cmp) stack :=
  ⟨fun _ ha => absurd ha Std.ExtTreeSet.not_mem_empty,
    fun _ ha => absurd ha Std.ExtTreeSet.not_mem_empty⟩

omit [Std.LawfulEqCmp cmp] in
theorem cost_empty : cost next nodes (∅ : Std.ExtTreeSet α cmp) =
    (nodes.map fun n => (next n).length).sum := by
  simp [cost]

/-- A walk from a list, with nothing seen before, finds what it looks for when it can be
reached. -/
theorem walk_found [DecidableEq α] (hnodes : nodes.Nodup) (hnext : ∀ a, a ∉ nodes → next a = [])
    {fuel : ℕ} (hfuel : stack.length + (nodes.map fun n => (next n).length).sum ≤ fuel) :
    (walk next stop fuel (∅ : Std.ExtTreeSet α cmp) stack).1 = true ↔
      ∃ a, Reach next stack a ∧ stop a = true := by
  have hstart : Seen next stop (∅ : Std.ExtTreeSet α cmp) stack := seen_empty
  obtain ⟨hyes, hno⟩ := walk_spec hnodes hnext fuel ∅ stack hstart (by rwa [cost_empty])
  refine ⟨hyes, fun ⟨a, ⟨b, hb, hba⟩, hstop⟩ => ?_⟩
  by_contra hw
  obtain ⟨hseen, hall, -⟩ := hno (Bool.eq_false_iff.mpr hw)
  have ha := hseen.passed a (hseen.reach (hall b (Or.inr hb)) hba)
  exact absurd hstop (by rw [ha]; decide)

/-- A walk that looks for nothing sees just what can be reached. -/
theorem mem_walk [DecidableEq α] (hnodes : nodes.Nodup) (hnext : ∀ a, a ∉ nodes → next a = [])
    {fuel : ℕ} (hfuel : stack.length + (nodes.map fun n => (next n).length).sum ≤ fuel) {a : α} :
    a ∈ (walk next (fun _ => false) fuel (∅ : Std.ExtTreeSet α cmp) stack).2 ↔ Reach next stack a := by
  have hstart : Seen next (fun _ => false) (∅ : Std.ExtTreeSet α cmp) stack := seen_empty
  obtain ⟨hyes, hno⟩ := walk_spec hnodes hnext fuel ∅ stack hstart (by rwa [cost_empty])
  have hfalse : (walk next (fun _ => false) fuel (∅ : Std.ExtTreeSet α cmp) stack).1 = false := by
    by_contra hw
    obtain ⟨b, -, hb⟩ := hyes (by simpa using hw)
    cases hb
  obtain ⟨hseen, hall, honly⟩ := hno hfalse
  refine ⟨fun ha => (honly a ha).resolve_left Std.ExtTreeSet.not_mem_empty, fun ⟨b, hb, hba⟩ => ?_⟩
  exact hseen.reach (hall b (Or.inr hb)) hba

end Search
