import VoidPalabra.Shape

/-!
# The facts a document holds

A shaped document says which nodes there are, which tags were added with which
values to which set, and which tags are retired there. The join of two shaped
documents is shaped and holds the facts of both, and the canonical form of a
shaped document is a function of its facts.
-/

namespace VoidPalabra

/-! ### The join of shaped trees -/

/-- What is written for a set is spelled exactly as reading it asks. -/
theorem spelledOrset_orsetToJson {s : OrSet} (h : s.Named) : SpelledOrset (orsetToJson s) where
  wellFormed := by
    have ha : Json.lookup Key.a [(Key.a, .obj (s.entries.map fun kv => (kv.1, .str (hexify kv.2)))),
        (Key.r, .arr (s.removes.toList.map .str))] = some (.obj (s.entries.map
          fun kv => (kv.1, .str (hexify kv.2)))) := rfl
    have hr : Json.lookup Key.r [(Key.a, .obj (s.entries.map fun kv => (kv.1, .str (hexify kv.2)))),
        (Key.r, .arr (s.removes.toList.map .str))] = some (.arr (s.removes.toList.map .str)) := rfl
    rw [orsetToJson, orsetJsonWellFormed, ha, hr]
    simp only [List.length_cons, List.length_nil, Bool.and_eq_true, List.all_eq_true,
      List.mem_map, beq_self_eq_true, true_and]
    constructor
    · rintro m ⟨⟨t, v⟩, hm, rfl⟩
      have ht := h.adds t v (OrSet.mem_entries.mp hm)
      rw [addOf_eq_some.mpr ⟨rfl, ht⟩]
      rfl
    · rintro j ⟨t, hm, rfl⟩
      have ht := h.removes t (Std.ExtTreeSet.mem_toList.mp hm)
      rw [removeOf_eq_some.mpr ⟨rfl, ht⟩]
      rfl
  nodup := by
    change [Key.a, Key.r].Nodup
    decide
  adds_nodup := by
    intro a ha
    cases ha
    change ((s.entries.map fun kv => (kv.1, Json.str (hexify kv.2))).map Prod.fst).Nodup
    rw [List.map_map]
    exact dict_keys_nodup s.adds

/-- The join of two nodes that are no arrays is no array. -/
theorem notArray_joinNode {a b : Json} (ha : a.isArray = false) (hb : b.isArray = false) :
    (joinNode a b).isArray = false := by
  by_cases hne : nodeRank a = nodeRank b
  · rcases nodeRank_cases a with hr | hr | hr
    · rw [joinNode_leaf hr (by omega)]
      split <;> assumption
    · rw [joinNode_orset hr (by omega)]
      rfl
    · obtain ⟨ms, rfl⟩ := exists_members_of_rank hr
      obtain ⟨ns, rfl⟩ := exists_members_of_rank (hne ▸ hr)
      rw [joinNode_map hr (hne ▸ hr)]
      rfl
  · rw [joinNode_of_rank_ne hne]
    split <;> assumption

/-- A node of a join is a node of one side, or the join of two nodes. -/
theorem nodeAt_joinNode {a b m : Json} (h : NoClash a b) {p : Path}
    (hm : nodeAt (joinNode a b) p = some m) :
    nodeAt a p = some m ∨ nodeAt b p = some m ∨
      ∃ x y, nodeAt a p = some x ∧ nodeAt b p = some y ∧ m = joinNode x y := by
  induction p generalizing a b with
  | nil =>
    cases hm
    exact .inr (.inr ⟨a, b, rfl, rfl, rfl⟩)
  | cons k p ih =>
    by_cases hne : nodeRank a = nodeRank b
    · have hj : nodeRank (joinNode a b) = 3 := by
        by_contra hj
        rw [nodeAt_cons, if_neg hj] at hm
        cases hm
      have hrank := nodeRank_joinNode (h [] a b rfl rfl)
      have ha : nodeRank a = 3 := by omega
      have hb : nodeRank b = 3 := by omega
      obtain ⟨ms, rfl⟩ := exists_members_of_rank ha
      obtain ⟨ns, rfl⟩ := exists_members_of_rank hb
      rw [nodeAt_cons, if_pos hj, joinNode_map ha hb, Json.get_obj, lookup_joinMembers] at hm
      rw [nodeAt_cons, if_pos ha, nodeAt_cons, if_pos hb, Json.get_obj, Json.get_obj]
      cases hv : Json.lookup k ms with
      | none =>
        cases hw : Json.lookup k ns with
        | none =>
          rw [hv, hw] at hm
          cases hm
        | some w =>
          rw [hv, hw] at hm
          exact .inr (.inl hm)
      | some v =>
        cases hw : Json.lookup k ns with
        | none =>
          rw [hv, hw] at hm
          exact .inl hm
        | some w =>
          rw [hv, hw] at hm
          exact ih (h.child ha hb hv hw) hm
    · rw [joinNode_of_rank_ne hne] at hm
      split at hm
      · exact .inl hm
      · exact .inr (.inl hm)

/-- Two trees of one shape have no union of maps that looks like an OR-set. -/
theorem noClash_of_shape {K : Path → Option Kind} {a b : Json} (ha : Everywhere K NodeShape a)
    (hb : Everywhere K NodeShape b) : NoClash a b := by
  intro p x y hx hy hrx hry
  obtain ⟨ms, rfl⟩ := exists_members_of_rank hrx
  obtain ⟨ns, rfl⟩ := exists_members_of_rank hry
  have hchild : ∀ (root : Json) (xs : List (CString × Json)), Everywhere K NodeShape root →
      nodeAt root p = some (.obj xs) → nodeRank (.obj xs) = 3 →
      ∀ k v, Json.lookup k xs = some v → v.isArray = false := by
    intro root xs he hn hr k v hv
    have hk : nodeAt root (p ++ [k]) = some v := by
      rw [nodeAt_append, hn, Option.bind_some, nodeAt_cons, if_pos hr, Json.get_obj, hv]
      rfl
    obtain ⟨kind, -, hs⟩ := he _ _ hk
    exact hs.notArray
  rw [joinNode_map hrx hry]
  refine nodeRank_of_members fun m hm => ?_
  have hl := Json.lookup_of_mem (joinMembers_nodup ms ns) hm
  rw [lookup_joinMembers] at hl
  cases hv : Json.lookup m.1 ms with
  | none =>
    cases hw : Json.lookup m.1 ns with
    | none =>
      rw [hv, hw] at hl
      cases hl
    | some w =>
      rw [hv, hw] at hl
      cases hl
      exact hchild b ns hb hy hry m.1 _ hw
  | some v =>
    cases hw : Json.lookup m.1 ns with
    | none =>
      rw [hv, hw] at hl
      cases hl
      exact hchild a ms ha hx hrx m.1 _ hv
    | some w =>
      rw [hv, hw] at hl
      rw [← Option.some.inj hl]
      exact notArray_joinNode (hchild a ms ha hx hrx m.1 v hv) (hchild b ns hb hy hry m.1 w hw)

/-- The join of two nodes of one kind is of that kind. -/
theorem NodeShape.join {k : Kind} {a b : Json} (ha : NodeShape k a) (hb : NodeShape k b)
    (h : nodeRank a = 3 → nodeRank b = 3 → nodeRank (joinNode a b) = 3) :
    NodeShape k (joinNode a b) := by
  cases k with
  | map =>
    refine ⟨h ha.1 hb.1, ?_⟩
    obtain ⟨ms, rfl⟩ := exists_members_of_rank ha.1
    obtain ⟨ns, rfl⟩ := exists_members_of_rank hb.1
    rw [joinNode_map ha.1 hb.1]
    exact joinMembers_nodup ms ns
  | set rule =>
    have hra : nodeRank a = 2 := nodeRank_eq_two.mpr (isOrset_of_wellFormed (SpelledOrset.wellFormed ha))
    have hrb : nodeRank b = 2 := nodeRank_eq_two.mpr (isOrset_of_wellFormed (SpelledOrset.wellFormed hb))
    have hj := spelledOrset_orsetToJson ((named_orsetFromJson (some a)).join
      (named_orsetFromJson (some b)))
    rw [← joinNode_orset hra hrb] at hj
    exact hj
  | marker =>
    obtain rfl : a = .num Double.one := ha
    obtain rfl : b = .num Double.one := hb
    change joinNode _ _ = _
    rw [joinNode_leaf (nodeRank_eq_one.mpr rfl) (nodeRank_eq_one.mpr rfl), ite_self]

/-- The join of two trees of one shape is of that shape. -/
theorem everywhere_joinNode {K : Path → Option Kind} {a b : Json}
    (ha : Everywhere K NodeShape a) (hb : Everywhere K NodeShape b) :
    Everywhere K NodeShape (joinNode a b) := by
  have hc := noClash_of_shape ha hb
  intro p m hm
  rcases nodeAt_joinNode hc hm with h | h | ⟨x, y, hx, hy, rfl⟩
  · exact ha p m h
  · exact hb p m h
  · obtain ⟨k, hk, hsx⟩ := ha p x hx
    obtain ⟨k', hk', hsy⟩ := hb p y hy
    rw [hk] at hk'
    cases hk'
    exact ⟨k, hk, hsx.join hsy (hc p x y hx hy)⟩

theorem Shaped.rank {root : Json} (h : Shaped root) : nodeRank root = 3 := by
  obtain ⟨k, hk, hs⟩ := h.kinds [] root rfl
  cases hk
  exact hs.1

/-- The join of two documents is a document. -/
theorem Shaped.join {a b : Json} (ha : Shaped a) (hb : Shaped b) : Shaped (joinNode a b) where
  kinds := everywhere_joinNode ha.kinds hb.kinds
  marker := by
    have hma := ha.marker
    have hmb := hb.marker
    have hra := ha.rank
    have hrb := hb.rank
    obtain ⟨ms, rfl⟩ := exists_members_of_rank hra
    obtain ⟨ns, rfl⟩ := exists_members_of_rank hrb
    rw [joinNode_map hra hrb, Json.get_obj, lookup_joinMembers]
    rw [Json.get_obj] at hma hmb
    rw [hma, hmb]
    have hj := NodeShape.join (k := .marker) (a := .num Double.one) (b := .num Double.one) rfl rfl
      (by decide)
    exact congrArg some hj

/-! ### Sets and nodes by path -/

/-- The set at a path, empty when there is none. -/
def setAt (root : Json) (p : Path) : OrSet :=
  match cellAt root p with
  | some (.set s) => s
  | _ => .empty

/-- There is a node at a path. -/
def HasNode (root : Json) (p : Path) : Prop := (nodeAt root p).isSome = true

theorem named_setAt (root : Json) (p : Path) : (setAt root p).Named := by
  unfold setAt cellAt
  cases nodeAt root p with
  | none => exact OrSet.named_empty
  | some n =>
    rw [Option.map_some]
    unfold cellOf
    split
    · rename_i h
      split at h
      · cases h
        exact named_orsetFromJson _
      · split at h <;> cases h
    · exact OrSet.named_empty

/-- The set at a path whose node is an OR-set. -/
theorem setAt_of_nodeAt {root n : Json} {p : Path} (h : nodeAt root p = some n)
    (hr : nodeRank n = 2) : setAt root p = orsetFromJson (some n) := by
  rw [setAt, cellAt, h, Option.map_some, cellOf_orset hr]

/-- There is no set where there is no OR-set node. -/
theorem setAt_of_not_set {root : Json} {p : Path}
    (h : ∀ n, nodeAt root p = some n → nodeRank n ≠ 2) : setAt root p = .empty := by
  unfold setAt cellAt
  cases hn : nodeAt root p with
  | none => rfl
  | some n =>
    rw [Option.map_some]
    rcases nodeRank_cases n with hr | hr | hr
    · rw [cellOf_leaf hr]
    · exact absurd hr (h n hn)
    · rw [cellOf_map hr]

/-- The cell that a kind of node has. -/
def Kind.cell (k : Kind) (s : OrSet) : Cell :=
  match k with
  | .map => .map
  | .set _ => .set s
  | .marker => .leaf (.num Double.one)

/-- The cell a shaped tree has at a node, by the kind of the path. -/
theorem Shaped.cellAt_eq {root n : Json} (h : Shaped root) {p : Path} (hn : nodeAt root p = some n) :
    ∃ k, kindOf p = some k ∧ cellAt root p = some (k.cell (setAt root p)) := by
  obtain ⟨k, hk, hs⟩ := h.kinds p n hn
  refine ⟨k, hk, ?_⟩
  rw [cellAt, hn, Option.map_some]
  refine congrArg some ?_
  cases k with
  | map => exact cellOf_map hs.1
  | set rule =>
    have hr : nodeRank n = 2 :=
      nodeRank_eq_two.mpr (isOrset_of_wellFormed (SpelledOrset.wellFormed hs))
    rw [cellOf_orset hr, setAt_of_nodeAt hn hr]
    rfl
  | marker =>
    obtain rfl : n = .num Double.one := hs
    exact cellOf_leaf (nodeRank_eq_one.mpr rfl)

theorem Kind.cell_join (k : Kind) (s t : OrSet) :
    (k.cell s).join (k.cell t) = k.cell (s.join t) := by
  cases k with
  | marker => exact ite_self (Cell.leaf (.num Double.one))
  | _ => rfl

theorem cellAt_eq_none {root : Json} {p : Path} (h : nodeAt root p = none) :
    cellAt root p = none := by
  rw [cellAt, h]
  rfl

theorem setAt_eq_empty {root : Json} {p : Path} (h : nodeAt root p = none) :
    setAt root p = .empty := by
  rw [setAt, cellAt_eq_none h]

theorem setAt_of_not_hasNode {root : Json} {p : Path} (h : ¬HasNode root p) :
    setAt root p = .empty := by
  refine setAt_eq_empty ?_
  rw [HasNode, Bool.not_eq_true, Option.isSome_eq_false_iff, Option.isNone_iff_eq_none] at h
  exact h

/-- The set that a cell of a kind holds. -/
def Kind.only (k : Kind) (s : OrSet) : OrSet :=
  match k with
  | .set _ => s
  | _ => .empty

/-- The set at a path, read off a cell of a known kind. -/
theorem setAt_of_cell {root : Json} {p : Path} {k : Kind} {s : OrSet}
    (h : cellAt root p = some (k.cell s)) : setAt root p = k.only s := by
  rw [setAt, h]
  cases k <;> rfl

theorem Kind.only_join (k : Kind) (s t : OrSet) :
    k.only (s.join t) = (k.only s).join (k.only t) := by
  cases k with
  | set rule => rfl
  | _ => exact (OrSet.join_empty _).symm

/-- The sets of a join are the joins of the sets. -/
theorem setAt_joinNode {a b : Json} (ha : Shaped a) (hb : Shaped b) (p : Path) :
    setAt (joinNode a b) p = (setAt a p).join (setAt b p) := by
  have hcells := cellAt_joinNode (noClash_of_shape ha.kinds hb.kinds) p
  cases hx : nodeAt a p with
  | none =>
    rw [setAt_eq_empty hx, OrSet.empty_join, setAt, hcells, cellAt_eq_none hx]
    rfl
  | some x =>
    cases hy : nodeAt b p with
    | none =>
      rw [setAt_eq_empty hy, OrSet.join_empty, setAt, hcells, cellAt_eq_none hy, setAt]
      cases cellAt a p <;> rfl
    | some y =>
      obtain ⟨k, hk, hca⟩ := ha.cellAt_eq hx
      obtain ⟨k', hk', hcb⟩ := hb.cellAt_eq hy
      rw [hk] at hk'
      cases hk'
      have hc : cellAt (joinNode a b) p = some (k.cell ((setAt a p).join (setAt b p))) := by
        rw [hcells, hca, hcb, joinCells, Kind.cell_join]
      have hsa := setAt_of_cell hca
      have hsb := setAt_of_cell hcb
      rw [setAt_of_cell hc, Kind.only_join, ← hsa, ← hsb]

/-- The nodes of a join are the nodes of both sides. -/
theorem hasNode_joinNode {a b : Json} (ha : Shaped a) (hb : Shaped b) (p : Path) :
    HasNode (joinNode a b) p ↔ HasNode a p ∨ HasNode b p := by
  have hcells := cellAt_joinNode (noClash_of_shape ha.kinds hb.kinds) p
  have hn : ∀ n, HasNode n p ↔ (cellAt n p).isSome = true := fun n => by
    rw [HasNode, cellAt, Option.isSome_map]
  rw [hn, hn, hn, hcells]
  cases cellAt a p <;> cases cellAt b p <;> simp [joinCells]

/-! ### Facts -/

/-- One thing a document says. -/
inductive Fact where
  /-- There is a node at a path. -/
  | node (p : Path)
  /-- A value was added to the set at a path under a tag. -/
  | add (p : Path) (t : Tag) (v : Bytes)
  /-- A tag is retired in the set at a path. -/
  | retire (p : Path) (t : Tag)

/-- Everything a document says. -/
def facts (root : Json) : Set Fact := fun f =>
  match f with
  | .node p => HasNode root p
  | .add p t v => (setAt root p).adds[t]? = some v
  | .retire p t => t ∈ (setAt root p).removes

@[simp] theorem node_mem_facts {root : Json} {p : Path} : .node p ∈ facts root ↔ HasNode root p :=
  Iff.rfl

@[simp] theorem add_mem_facts {root : Json} {p : Path} {t : Tag} {v : Bytes} :
    .add p t v ∈ facts root ↔ (setAt root p).adds[t]? = some v := Iff.rfl

@[simp] theorem retire_mem_facts {root : Json} {p : Path} {t : Tag} :
    .retire p t ∈ facts root ↔ t ∈ (setAt root p).removes := Iff.rfl

/-- Two documents that give no tag two values in one set. -/
def TagsAgree (a b : Json) : Prop := ∀ p, (setAt a p).Agree (setAt b p)

/-- A set holds a tag of a join when one of the sides holds it. -/
theorem OrSet.join_adds_of_agree {a b : OrSet} (h : a.Agree b) (t : Tag) (v : Bytes) :
    (a.join b).adds[t]? = some v ↔ a.adds[t]? = some v ∨ b.adds[t]? = some v := by
  rw [OrSet.join_adds]
  cases hb : b.adds[t]? with
  | none => simp
  | some w =>
    simp only [Option.some_or, Option.some.injEq]
    constructor
    · exact .inr
    · rintro (ha | rfl)
      · exact (h t v w ha hb).symm
      · rfl

/-- The join holds exactly the facts of both sides. -/
theorem facts_joinNode {a b : Json} (ha : Shaped a) (hb : Shaped b) (h : TagsAgree a b) :
    facts (joinNode a b) = facts a ∪ facts b := by
  ext f
  cases f with
  | node p => exact hasNode_joinNode ha hb p
  | add p t v =>
    rw [Set.mem_union, add_mem_facts, add_mem_facts, add_mem_facts, setAt_joinNode ha hb]
    exact OrSet.join_adds_of_agree (h p) t v
  | retire p t =>
    rw [Set.mem_union, retire_mem_facts, retire_mem_facts, retire_mem_facts, setAt_joinNode ha hb]
    exact OrSet.mem_join_removes

/-- Documents with the same facts have the same sets. -/
theorem setAt_eq_of_facts {a b : Json} (h : facts a = facts b) (p : Path) :
    setAt a p = setAt b p := by
  refine OrSet.ext_tags (fun t => Option.ext fun v => ?_) fun t => ?_
  · rw [← add_mem_facts, ← add_mem_facts, h]
  · rw [← retire_mem_facts, ← retire_mem_facts, h]

theorem hasNode_iff_of_facts {a b : Json} (h : facts a = facts b) (p : Path) :
    HasNode a p ↔ HasNode b p := by
  rw [← node_mem_facts, ← node_mem_facts, h]

/-- Shaped documents with the same facts have the same cells. -/
theorem cellAt_eq_of_facts {a b : Json} (ha : Shaped a) (hb : Shaped b) (h : facts a = facts b)
    (p : Path) : cellAt a p = cellAt b p := by
  have hn := hasNode_iff_of_facts h p
  unfold HasNode at hn
  cases hx : nodeAt a p with
  | none =>
    cases hy : nodeAt b p with
    | none => rw [cellAt_eq_none hx, cellAt_eq_none hy]
    | some y => simp [hx, hy] at hn
  | some x =>
    cases hy : nodeAt b p with
    | none => simp [hx, hy] at hn
    | some y =>
      obtain ⟨k, hk, hca⟩ := ha.cellAt_eq hx
      obtain ⟨k', hk', hcb⟩ := hb.cellAt_eq hy
      rw [hk] at hk'
      cases hk'
      rw [hca, hcb, setAt_eq_of_facts h]

/-! ### The canonical form -/

/-- A refusal of a canonical form, or its bytes. -/
def canonBytes (root : Json) : Option Bytes := (canonDoc root).toOption

theorem canonBytes_eq_some {root : Json} {b : Bytes} :
    canonBytes root = some b ↔ HasForm (normalizeNode root) ∧ b = form (normalizeNode root) := by
  rw [canonBytes, toOption_eq_some, canonDoc, encode_eq_ok]

theorem Shaped.namedOnce {root : Json} (h : Shaped root) : NamedOnce root := by
  intro p n hn hr
  obtain ⟨k, -, hs⟩ := h.kinds p n hn
  cases k with
  | map => exact hs.2
  | set rule =>
    have hr2 : nodeRank n = 2 :=
      nodeRank_eq_two.mpr (isOrset_of_wellFormed (SpelledOrset.wellFormed hs))
    omega
  | marker =>
    obtain rfl : n = .num Double.one := hs
    cases hr

/-- Documents with the same cells, in which nothing is named twice, have the same
canonical form, if any. -/
theorem canonBytes_congr {a b : Json} (ha : NamedOnce a) (hb : NamedOnce b)
    (h : ∀ p, cellAt a p = cellAt b p) : canonBytes a = canonBytes b := by
  have hok : CellsOk a ↔ CellsOk b := by
    unfold CellsOk
    simp only [h]
  refine Option.ext fun x => ?_
  rw [canonBytes_eq_some, canonBytes_eq_some, hasForm_normalizeNode, hasForm_normalizeNode, hok]
  constructor
  · rintro ⟨⟨-, hc⟩, rfl⟩
    refine ⟨⟨hb, hc⟩, form_normalizeNode_congr ?_ ?_ fun p => h p ▸ CellsAlike.refl _⟩
    · exact hasForm_normalizeNode.mpr ⟨ha, hok.mpr hc⟩
    · exact hasForm_normalizeNode.mpr ⟨hb, hc⟩
  · rintro ⟨⟨-, hc⟩, rfl⟩
    refine ⟨⟨ha, hc⟩, form_normalizeNode_congr ?_ ?_ fun p => h p ▸ CellsAlike.refl _⟩
    · exact hasForm_normalizeNode.mpr ⟨hb, hc⟩
    · exact hasForm_normalizeNode.mpr ⟨ha, hok.mpr hc⟩

/-- The canonical form of a shaped document is a function of its facts. -/
theorem canonBytes_of_facts {a b : Json} (ha : Shaped a) (hb : Shaped b) (h : facts a = facts b) :
    canonBytes a = canonBytes b :=
  canonBytes_congr ha.namedOnce hb.namedOnce (cellAt_eq_of_facts ha hb h)

end VoidPalabra
