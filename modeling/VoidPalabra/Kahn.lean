import Mathlib.Data.List.Basic
import Mathlib.Data.List.Count
import Mathlib.Data.List.Nodup
import Std.Data.ExtTreeMap
import Std.Data.ExtTreeSet

/-!
# One reading of a partial order

Kahn's algorithm: of the nodes all of whose needs were output, the least is output next.
Each node counts the needs that are still missing, and an index from a node to those that
need it says which counts go down.
-/

namespace Kahn

variable {α : Type} {cmp : α → α → Ordering}

/-- The counts, the nodes that are ready and what was output. -/
structure State (α : Type) (cmp : α → α → Ordering) where
  /-- The number of needs that were not output. -/
  remaining : Std.ExtTreeMap α ℕ cmp
  /-- The nodes to output next. -/
  ready : Std.ExtTreeSet α cmp
  /-- What was output. -/
  order : List α

section Model

variable [Std.TransCmp cmp]

/-- A node and the number of its needs are entered. -/
def enter (k : State α cmp) (n : α × ℕ) : State α cmp :=
  { k with remaining := k.remaining.insert n.1 n.2,
           ready := if n.2 = 0 then k.ready.insert n.1 else k.ready }

/-- The state before the first output. -/
def start (nodes : List (α × ℕ)) : State α cmp := nodes.foldl enter ⟨∅, ∅, []⟩

/-- One of the needs of a node was output. -/
def countDown (k : State α cmp) (c : α) : State α cmp :=
  match k.remaining[c]? with
  | none => k
  | some 0 => k
  | some (m + 1) =>
    { k with remaining := k.remaining.insert c m,
             ready := if m = 0 then k.ready.insert c else k.ready }

/-- A node is output. -/
def output (children : α → List α) (k : State α cmp) (n : α) : State α cmp :=
  (children n).foldl countDown { k with ready := k.ready.erase n, order := k.order ++ [n] }

/-- The loop with a bound on its rounds. -/
def run (children : α → List α) : ℕ → State α cmp → State α cmp
  | 0, k => k
  | fuel + 1, k =>
    match k.ready.min? with
    | none => k
    | some n => run children fuel (output children k n)

end Model

/-! ### What is output -/

section Order

variable {needs : α → List α} {names : List α}

/-- A node that was not output and all of whose needs were. -/
def Ready (names : List α) (needs : α → List α) (order : List α) (c : α) : Prop :=
  c ∈ names ∧ c ∉ order ∧ ∀ p ∈ needs c, p ∈ order

/-- Each node of a list is the least of those that were ready when it was output. -/
def Least (cmp : α → α → Ordering) (names : List α) (needs : α → List α) (order : List α) : Prop :=
  ∀ pre n post, order = pre ++ n :: post →
    Ready names needs pre n ∧ ∀ m, Ready names needs pre m → (cmp n m).isLE = true

/-- All nodes, each once and the least of those that were ready. -/
structure Reading (cmp : α → α → Ordering) (names : List α) (needs : α → List α)
    (order : List α) : Prop where
  /-- Once. -/
  nodup : order.Nodup
  /-- All. -/
  mem : ∀ n, n ∈ order ↔ n ∈ names
  /-- The least. -/
  least : Least cmp names needs order

/-- Every node comes after its needs. -/
theorem Reading.after {order : List α} (h : Reading cmp names needs order) {pre post : List α} {n : α}
    (hsplit : order = pre ++ n :: post) : ∀ p ∈ needs n, p ∈ pre :=
  (h.least pre n post hsplit).1.2.2

variable [Std.TransCmp cmp] [Std.LawfulEqCmp cmp]

theorem eq_of_isLE {a b : α} (hab : (cmp a b).isLE = true) (hba : (cmp b a).isLE = true) : a = b :=
  Std.LawfulEqCmp.eq_of_compare (Std.OrientedCmp.isLE_antisymm hab hba)

/-- **There is one reading.** It depends on the nodes and on the needs of each as sets. -/
theorem Reading.unique {names' : List α} {needs' : α → List α} {o o' : List α}
    (h : Reading cmp names needs o) (h' : Reading cmp names' needs' o')
    (hnames : ∀ n, n ∈ names ↔ n ∈ names')
    (hneeds : ∀ c ∈ names, ∀ p, p ∈ needs c ↔ p ∈ needs' c) : o = o' := by
  have hready : ∀ pre c, Ready names needs pre c ↔ Ready names' needs' pre c := by
    intro pre c
    constructor
    · rintro ⟨hc, hpre, hall⟩
      exact ⟨(hnames c).mp hc, hpre, fun p hp => hall p ((hneeds c hc p).mpr hp)⟩
    · rintro ⟨hc, hpre, hall⟩
      have hc' := (hnames c).mpr hc
      exact ⟨hc', hpre, fun p hp => hall p ((hneeds c hc' p).mp hp)⟩
  have htail : ∀ s s' pre : List α, o = pre ++ s → o' = pre ++ s' → s = s' := by
    intro s
    induction s with
    | nil =>
      intro s' pre ho ho'
      cases s' with
      | nil => rfl
      | cons n t =>
        obtain ⟨⟨hn, hpre, -⟩, -⟩ := h'.least pre n t ho'
        have hmem := (h.mem n).mpr ((hnames n).mpr hn)
        rw [ho, List.append_nil] at hmem
        exact absurd hmem hpre
    | cons n t ih =>
      intro s' pre ho ho'
      obtain ⟨hn, hmin⟩ := h.least pre n t ho
      cases s' with
      | nil =>
        have hmem := (h'.mem n).mpr ((hnames n).mp hn.1)
        rw [ho', List.append_nil] at hmem
        exact absurd hmem hn.2.1
      | cons n' t' =>
        obtain ⟨hn', hmin'⟩ := h'.least pre n' t' ho'
        obtain rfl := eq_of_isLE (hmin n' ((hready pre n').mpr hn')) (hmin' n ((hready pre n).mp hn))
        rw [ih t' (pre ++ [n]) (by simpa using ho) (by simpa using ho')]
  exact htail o o' [] rfl rfl

end Order

/-! ### The loop -/

section Loop

variable [DecidableEq α] {needs : α → List α} {nodes : List (α × ℕ)} {children : α → List α}
  {rank : α → ℕ}

/-- The counts and the index belong to the needs, which have an order. -/
structure Indexed (nodes : List (α × ℕ)) (children needs : α → List α) (rank : α → ℕ) : Prop where
  /-- Each node is entered once. -/
  nodup : (nodes.map Prod.fst).Nodup
  /-- With the number of its needs. -/
  count : ∀ n ∈ nodes, n.2 = (needs n.1).length
  /-- It is listed under each need as often as it has it. -/
  index : ∀ p c, (children p).count c =
    if c ∈ nodes.map Prod.fst then (needs c).count p else 0
  /-- Its needs are nodes. -/
  closed : ∀ c ∈ nodes.map Prod.fst, ∀ p ∈ needs c, p ∈ nodes.map Prod.fst
  /-- They come before it. -/
  lt : ∀ c ∈ nodes.map Prod.fst, ∀ p ∈ needs c, rank p < rank c

/-- What the loop keeps. -/
structure Counted (names : List α) (needs : α → List α) [Std.TransCmp cmp] (k : State α cmp) :
    Prop where
  /-- Nothing was output twice. -/
  nodup : k.order.Nodup
  /-- What was output are nodes. -/
  mem : ∀ n ∈ k.order, n ∈ names
  /-- In their order. -/
  least : Least cmp names needs k.order
  /-- The counts. -/
  remaining : ∀ c, k.remaining[c]? =
    if c ∈ names then some ((needs c).filter (· ∉ k.order)).length else none
  /-- The nodes that are ready. -/
  ready : ∀ c, c ∈ k.ready ↔ Ready names needs k.order c

variable [Std.TransCmp cmp] [Std.LawfulEqCmp cmp]

theorem foldl_enter (needs : α → List α) : ∀ (nodes : List (α × ℕ)) (k : State α cmp),
    (∀ n ∈ nodes, n.2 = (needs n.1).length) →
      (nodes.foldl enter k).order = k.order ∧
      (∀ c, (nodes.foldl enter k).remaining[c]? =
        if c ∈ nodes.map Prod.fst then some (needs c).length else k.remaining[c]?) ∧
      ∀ c, c ∈ (nodes.foldl enter k).ready ↔
        c ∈ k.ready ∨ c ∈ nodes.map Prod.fst ∧ needs c = []
  | [], k, _ => by simp
  | n :: nodes, k, h => by
    obtain ⟨hn, hnodes⟩ := List.forall_mem_cons.mp h
    obtain ⟨horder, hremaining, hready⟩ := foldl_enter needs nodes (enter k n) hnodes
    rw [List.foldl_cons]
    refine ⟨horder, fun c => ?_, fun c => ?_⟩
    · rw [hremaining c, List.map_cons]
      by_cases hc : c ∈ nodes.map Prod.fst
      · rw [if_pos hc, if_pos (List.mem_cons_of_mem _ hc)]
      · rw [if_neg hc]
        by_cases he : c = n.1
        · rw [if_pos (he ▸ List.mem_cons_self), he, enter, Std.ExtTreeMap.getElem?_insert_self, hn]
        · have hne : ¬cmp n.1 c = .eq := fun hcmp => he (Std.LawfulEqCmp.eq_of_compare hcmp).symm
          rw [if_neg (by simpa [he] using hc), enter, Std.ExtTreeMap.getElem?_insert, if_neg hne]
    · have henter : c ∈ (enter k n).ready ↔ c ∈ k.ready ∨ c = n.1 ∧ needs c = [] := by
        unfold enter
        by_cases h0 : n.2 = 0
        · have hnil : needs n.1 = [] := List.length_eq_zero_iff.mp (hn ▸ h0)
          rw [if_pos h0, Std.ExtTreeSet.mem_insert, Std.LawfulEqCmp.compare_eq_iff_eq]
          constructor
          · rintro (rfl | hc)
            · exact Or.inr ⟨rfl, hnil⟩
            · exact Or.inl hc
          · rintro (hc | ⟨rfl, -⟩)
            · exact Or.inr hc
            · exact Or.inl rfl
        · rw [if_neg h0]
          refine ⟨Or.inl, fun hc => hc.resolve_right ?_⟩
          rintro ⟨rfl, hnil⟩
          exact h0 (by rw [hn, hnil]; rfl)
      rw [hready c, henter, List.map_cons, List.mem_cons]
      tauto

/-- The loop starts with nothing output. -/
theorem counted_start (h : Indexed nodes children needs rank) :
    Counted (nodes.map Prod.fst) needs (start nodes : State α cmp) := by
  obtain ⟨horder, hremaining, hready⟩ :=
    foldl_enter needs nodes (⟨∅, ∅, []⟩ : State α cmp) h.count
  have horder : (start nodes : State α cmp).order = [] := horder
  constructor
  · rw [horder]
    exact List.nodup_nil
  · rw [horder]
    exact fun n hn => absurd hn List.not_mem_nil
  · rw [horder]
    exact fun pre n post hs => absurd hs (by simp)
  · intro c
    rw [horder, start, hremaining c]
    simp
  · intro c
    rw [horder, start, hready c]
    simp [Ready, List.eq_nil_iff_forall_not_mem]

/-- Counting a node down lowers its count, and at nothing it is ready. -/
theorem countDown_spec (k : State α cmp) (a : α) : (countDown k a).order = k.order ∧
    (∀ c, (countDown k a).remaining[c]? =
      if c = a then k.remaining[c]?.map (· - 1) else k.remaining[c]?) ∧
    ∀ c, c ∈ (countDown k a).ready ↔ c ∈ k.ready ∨ c = a ∧ k.remaining[a]? = some 1 := by
  have hsame : k.remaining[a]? = none ∨ k.remaining[a]? = some 0 →
      (∀ c, k.remaining[c]? = if c = a then k.remaining[c]?.map (· - 1) else k.remaining[c]?) ∧
      ∀ c, c ∈ k.ready ↔ c ∈ k.ready ∨ c = a ∧ k.remaining[a]? = some 1 := by
    intro hnone
    refine ⟨fun c => ?_, fun c => ⟨Or.inl, fun hc => hc.resolve_right fun hone => ?_⟩⟩
    · split
      · rename_i hc
        rcases hnone with hnone | hnone <;> rw [hc, hnone] <;> rfl
      · rfl
    · rcases hnone with hnone | hnone <;> rw [hnone] at hone <;> cases hone.2
  unfold countDown
  split
  · rename_i hnone
    exact ⟨rfl, hsame (Or.inl hnone)⟩
  · rename_i hzero
    exact ⟨rfl, hsame (Or.inr hzero)⟩
  · rename_i m hm
    refine ⟨rfl, fun c => ?_, fun c => ?_⟩
    · by_cases hc : c = a
      · rw [if_pos hc, hc, hm, Std.ExtTreeMap.getElem?_insert_self]
        rfl
      · have hne : ¬cmp a c = .eq := fun hcmp => hc (Std.LawfulEqCmp.eq_of_compare hcmp).symm
        rw [if_neg hc, Std.ExtTreeMap.getElem?_insert, if_neg hne]
    · rw [hm]
      cases m with
      | zero =>
        rw [if_pos rfl, Std.ExtTreeSet.mem_insert, Std.LawfulEqCmp.compare_eq_iff_eq]
        constructor
        · rintro (rfl | hc)
          · exact Or.inr ⟨rfl, rfl⟩
          · exact Or.inl hc
        · rintro (hc | ⟨rfl, -⟩)
          · exact Or.inr hc
          · exact Or.inl rfl
      | succ m =>
        rw [if_neg (by omega)]
        exact ⟨Or.inl, fun hc => hc.resolve_right fun hone => by simp at hone⟩

/-- Counting down along a list lowers each count by as often as it is listed, and what
comes to nothing is ready. -/
theorem foldl_countDown : ∀ (cs : List α) (k : State α cmp),
    (cs.foldl countDown k).order = k.order ∧
    (∀ c, (cs.foldl countDown k).remaining[c]? = k.remaining[c]?.map (· - cs.count c)) ∧
    ∀ c, c ∈ (cs.foldl countDown k).ready ↔
      c ∈ k.ready ∨ ∃ m, k.remaining[c]? = some m ∧ 0 < m ∧ m ≤ cs.count c
  | [], k => by
    refine ⟨rfl, fun c => ?_, fun c => ?_⟩
    · simp
    · simp only [List.foldl_nil, List.count_nil, Nat.le_zero]
      exact ⟨Or.inl, fun hc => hc.resolve_right fun ⟨m, _, hpos, h0⟩ => by omega⟩
  | a :: cs, k => by
    obtain ⟨horder₁, hremaining₁, hready₁⟩ := countDown_spec k a
    obtain ⟨horder, hremaining, hready⟩ := foldl_countDown cs (countDown k a)
    rw [List.foldl_cons]
    refine ⟨horder.trans horder₁, fun c => ?_, fun c => ?_⟩
    · rw [hremaining c, hremaining₁ c]
      by_cases hc : c = a
      · subst hc
        rw [if_pos rfl, List.count_cons_self, Option.map_map]
        refine congrArg (Option.map · _) (funext fun m => ?_)
        simp only [Function.comp_apply]
        omega
      · rw [if_neg hc, List.count_cons_of_ne (Ne.symm hc)]
    · rw [hready c, hready₁ c, hremaining₁ c]
      by_cases hc : c = a
      · subst hc
        rw [if_pos rfl, List.count_cons_self]
        cases hm : k.remaining[c]? with
        | none => simp
        | some m =>
          simp only [Option.map_some, Option.some.injEq, true_and, exists_eq_left']
          have hsplit : m = 1 ∨ 0 < m - 1 ∧ m - 1 ≤ cs.count c ↔ 0 < m ∧ m ≤ cs.count c + 1 := by
            omega
          rw [or_assoc, hsplit]
      · rw [if_neg hc, List.count_cons_of_ne (Ne.symm hc)]
        simp [hc]

/-- The needs that are missing before an output are those missing after it and itself. -/
theorem length_missing {order : List α} {n : α} (hn : n ∉ order) (l : List α) :
    (l.filter (· ∉ order)).length = (l.filter (· ∉ order ++ [n])).length + l.count n := by
  induction l with
  | nil => rfl
  | cons a l ih =>
    by_cases ha : a = n
    · subst ha
      rw [List.filter_cons_of_pos (by simpa using hn), List.filter_cons_of_neg (by simp),
        List.count_cons_self, List.length_cons, ih]
      omega
    · rw [List.count_cons_of_ne ha]
      by_cases ho : a ∈ order
      · rw [List.filter_cons_of_neg (by simpa using ho), List.filter_cons_of_neg (by simp [ho]), ih]
      · rw [List.filter_cons_of_pos (by simpa using ho),
          List.filter_cons_of_pos (by simp [ho, ha]), List.length_cons, List.length_cons, ih]
        omega

theorem missing_eq_zero {order l : List α} :
    (l.filter (· ∉ order)).length = 0 ↔ ∀ p ∈ l, p ∈ order := by
  simp [List.filter_eq_nil_iff]

omit [Std.LawfulEqCmp cmp] in
/-- What was output has its needs output. -/
theorem Counted.closed {k : State α cmp} {names : List α} (h : Counted names needs k) :
    ∀ c ∈ k.order, ∀ p ∈ needs c, p ∈ k.order := by
  intro c hc p hp
  obtain ⟨pre, post, hsplit⟩ := List.append_of_mem hc
  rw [hsplit]
  exact List.mem_append_left _ ((h.least pre c post hsplit).1.2.2 p hp)

/-- Each output keeps the invariant. -/
theorem Counted.output (hi : Indexed nodes children needs rank) {k : State α cmp}
    (h : Counted (nodes.map Prod.fst) needs k) {n : α} (hmin : k.ready.min? = some n) :
    Counted (nodes.map Prod.fst) needs (output children k n) ∧
      (Kahn.output children k n).order = k.order ++ [n] := by
  obtain ⟨hmem, hle⟩ := Std.ExtTreeSet.min?_eq_some_iff_mem_and_forall.mp hmin
  have hn := (h.ready n).mp hmem
  obtain ⟨horder, hremaining, hready⟩ := foldl_countDown (children n)
    ({ k with ready := k.ready.erase n, order := k.order ++ [n] } : State α cmp)
  have horder : (Kahn.output children k n).order = k.order ++ [n] := horder
  have hmissing : ∀ c, ((needs c).filter (· ∉ k.order)).length =
      ((needs c).filter (· ∉ k.order ++ [n])).length + (needs c).count n :=
    fun c => length_missing hn.2.1 (needs c)
  refine ⟨⟨?_, ?_, ?_, fun c => ?_, fun c => ?_⟩, horder⟩
  · rw [horder]
    exact List.nodup_append.mpr ⟨h.nodup, List.nodup_singleton n, by
      intro a ha b hb hab
      exact hn.2.1 ((List.mem_singleton.mp hb) ▸ hab ▸ ha)⟩
  · rw [horder]
    intro m hm
    rcases List.mem_append.mp hm with hm | hm
    · exact h.mem m hm
    · rw [List.mem_singleton.mp hm]
      exact hn.1
  · rw [horder]
    intro pre m post hsplit
    -- the split is within what was output before, or at its end
    rcases List.append_eq_append_iff.mp hsplit with ⟨mid, hpre, hmid⟩ | ⟨mid, hpre, hmid⟩
    · cases mid with
      | nil =>
        obtain ⟨rfl, -⟩ := List.cons.inj hmid
        rw [List.append_nil] at hpre
        rw [hpre]
        exact ⟨hn, fun m hm => hle m ((h.ready m).mpr hm)⟩
      | cons a mid =>
        have hlength := congrArg List.length hmid
        simp at hlength
    · cases mid with
      | nil =>
        obtain ⟨rfl, -⟩ := List.cons.inj hmid
        rw [List.append_nil] at hpre
        rw [← hpre]
        exact ⟨hn, fun m hm => hle m ((h.ready m).mpr hm)⟩
      | cons a mid =>
        obtain ⟨rfl, -⟩ := List.cons.inj hmid
        exact h.least pre m mid hpre
  · rw [show (Kahn.output children k n).remaining[c]? = _ from hremaining c, horder, h.remaining c,
      hi.index]
    by_cases hc : c ∈ nodes.map Prod.fst
    · rw [if_pos hc, if_pos hc, if_pos hc, hmissing c]
      simp
    · rw [if_neg hc, if_neg hc, if_neg hc]
      rfl
  · rw [show c ∈ (Kahn.output children k n).ready ↔ _ from hready c, horder, hi.index,
      h.remaining c, Std.ExtTreeSet.mem_erase, h.ready c]
    constructor
    · rintro (⟨hne, hc, hnot, hneeds⟩ | ⟨m, hm, hpos, hcount⟩)
      · have hcn : c ≠ n := fun he => hne (Std.LawfulEqCmp.compare_eq_iff_eq.mpr he.symm)
        exact ⟨hc, by simp [hnot, hcn], fun p hp => List.mem_append_left _ (hneeds p hp)⟩
      · by_cases hc : c ∈ nodes.map Prod.fst
        · rw [if_pos hc] at hm hcount
          obtain rfl := Option.some.inj hm
          have hzero : ((needs c).filter (· ∉ k.order ++ [n])).length = 0 := by
            have := hmissing c
            omega
          refine ⟨hc, fun hout => ?_, missing_eq_zero.mp hzero⟩
          have hnone : ((needs c).filter (· ∉ k.order)).length = 0 := by
            rcases List.mem_append.mp hout with hout | hout
            · exact missing_eq_zero.mpr (h.closed c hout)
            · rw [List.mem_singleton.mp hout]
              exact missing_eq_zero.mpr hn.2.2
          omega
        · rw [if_neg hc] at hm
          cases hm
    · rintro ⟨hc, hnot, hneeds⟩
      simp only [List.mem_append, List.mem_singleton, not_or] at hnot
      rw [if_pos hc]
      by_cases hall : ∀ p ∈ needs c, p ∈ k.order
      · exact Or.inl ⟨fun he => hnot.2 (Std.LawfulEqCmp.compare_eq_iff_eq.mp he).symm, hc, hnot.1, hall⟩
      · refine Or.inr ⟨_, rfl, ?_, ?_⟩
        · exact Nat.pos_of_ne_zero fun h0 => hall (missing_eq_zero.mp h0)
        · have hzero := missing_eq_zero.mpr hneeds
          have hcount := hmissing c
          rw [if_pos hc]
          omega

/-- The loop keeps the invariant, and with a round for each node it ends with nothing ready. -/
theorem counted_run (hi : Indexed nodes children needs rank) : ∀ (fuel : ℕ) (k : State α cmp),
    Counted (nodes.map Prod.fst) needs k → nodes.length ≤ k.order.length + fuel →
      Counted (nodes.map Prod.fst) needs (run children fuel k) ∧
        (run children fuel k).ready = ∅
  | 0, k, h, hfuel => by
    refine ⟨h, Std.ExtTreeSet.eq_empty_iff_forall_not_mem.mpr fun c hc => ?_⟩
    obtain ⟨hc, hnot, -⟩ := (h.ready c).mp hc
    -- as many as there are were output, so all were
    have hsub : (c :: k.order) ⊆ nodes.map Prod.fst := by
      intro a ha
      rcases List.mem_cons.mp ha with rfl | ha
      · exact hc
      · exact h.mem a ha
    have hlength := (List.subperm_of_subset (List.nodup_cons.mpr ⟨hnot, h.nodup⟩) hsub).length_le
    rw [List.length_cons, List.length_map] at hlength
    omega
  | fuel + 1, k, h, hfuel => by
    rw [run]
    split
    · rename_i hmin
      exact ⟨h, Std.ExtTreeSet.min?_eq_none_iff.mp hmin⟩
    · rename_i n hmin
      obtain ⟨hnext, horder⟩ := h.output hi hmin
      refine counted_run hi fuel _ hnext ?_
      rw [horder, List.length_append, List.length_singleton]
      omega

/-- **The loop reads the order.** It outputs all nodes, each once and the least of those
that were ready. -/
theorem reading_run (hi : Indexed nodes children needs rank) :
    Reading cmp (nodes.map Prod.fst) needs
      (run children nodes.length (start nodes : State α cmp)).order := by
  obtain ⟨h, hempty⟩ := counted_run hi nodes.length (start nodes : State α cmp) (counted_start hi)
    (Nat.le_add_left _ _)
  refine ⟨h.nodup, fun n => ⟨h.mem n, ?_⟩, h.least⟩
  -- what comes first of the nodes that were not output would be ready
  induction n using (measure rank).wf.induction with
  | _ n ih =>
    intro hn
    by_contra hnot
    have hready := (h.ready n).mpr ⟨hn, hnot, fun p hp =>
      ih p (hi.lt n hn p hp) (hi.closed n hn p hp)⟩
    rw [hempty] at hready
    exact Std.ExtTreeSet.not_mem_empty hready

end Loop

end Kahn
