import VoidPalabra.Document

/-!
# A document path by path

`nodeAt` follows names through maps only, and `cellAt` says what stands at a path:
an OR-set as a value, a map, or anything else. Two documents are read alike when
they have the same cells, and as long as no union of two maps looks like an OR-set
the cells of a join are the joins of the cells.
-/

namespace VoidPalabra

open Sorting

/-- The names from the root to a node. -/
abbrev Path := List CString

/-! ### One step of the join -/

theorem isObject_of_isOrset {n : Json} (h : isOrset n = true) : n.isObject = true := by
  simp only [isOrset, Bool.and_eq_true] at h
  exact h.1.1

theorem nodeRank_eq_two {n : Json} : nodeRank n = 2 ↔ isOrset n = true := by
  unfold nodeRank
  split
  · simp_all
  · split <;> simp_all

theorem nodeRank_eq_three {n : Json} :
    nodeRank n = 3 ↔ n.isObject = true ∧ isOrset n = false := by
  unfold nodeRank
  split
  · simp_all
  · split <;> simp_all

theorem nodeRank_eq_one {n : Json} : nodeRank n = 1 ↔ n.isObject = false := by
  unfold nodeRank
  split
  · rename_i h
    simp [isObject_of_isOrset h]
  · split <;> simp_all

/-- A node is a leaf of another kind, an OR-set or a map. -/
theorem nodeRank_cases (n : Json) : nodeRank n = 1 ∨ nodeRank n = 2 ∨ nodeRank n = 3 := by
  unfold nodeRank
  split
  · exact .inr (.inl rfl)
  · split
    · exact .inr (.inr rfl)
    · exact .inl rfl

theorem nodeRank_le (n : Json) : nodeRank n ≤ 3 := by
  rcases nodeRank_cases n with h | h | h <;> omega

/-- A map is an object. -/
theorem exists_members_of_rank {n : Json} (h : nodeRank n = 3) : ∃ ms, n = .obj ms := by
  obtain ⟨ho, -⟩ := nodeRank_eq_three.mp h
  cases n with
  | obj ms => exact ⟨ms, rfl⟩
  | _ => cases ho

/-- The index holds what a lookup finds. -/
theorem inB_getElem? (ms : List (CString × Json)) (k : CString) :
    (inB ms)[k]? = Json.lookup k ms := by
  have hfold : ∀ (ms : List (CString × Json)) (d : Dict Json),
      (ms.foldl (fun index m => index.insertIfNew m.1 m.2) d)[k]? =
        d[k]?.or (Json.lookup k ms) := by
    intro ms
    induction ms with
    | nil => simp
    | cons m ms ih =>
      intro d
      rw [List.foldl_cons, ih, Std.ExtTreeMap.getElem?_insertIfNew]
      obtain ⟨k', v⟩ := m
      rw [Json.lookup_cons]
      by_cases hk : k' = k
      · subst hk
        rw [if_pos rfl]
        by_cases hd : k' ∈ d
        · simp [hd]
        · simp [hd]
      · have hc : compare k' k ≠ .eq := fun hc => hk (Std.LawfulEqCmp.eq_of_compare hc)
        simp [hk, hc]
  rw [inB, hfold]
  simp

/-- The loop of `join_map` finds what is not seen yet, joined with the other side. -/
theorem lookup_joinChildren (index : Dict Json) (seen : NameSet) (ms : List (CString × Json))
    (k : CString) :
    Json.lookup k (joinChildren index seen ms) =
      if k ∈ seen then none
      else (Json.lookup k ms).map fun v => index[k]?.elim v (joinNode v) := by
  induction ms generalizing seen with
  | nil => simp [joinChildren]
  | cons m ms ih =>
    obtain ⟨k', v⟩ := m
    rw [joinChildren]
    by_cases hs : k' ∈ seen
    · rw [if_pos (Std.ExtTreeSet.contains_iff_mem.mpr hs), ih, Json.lookup_cons]
      by_cases hk : k' = k
      · subst hk
        simp [hs]
      · simp [hk]
    · have hc : seen.contains k' = false := by
        rw [← Bool.not_eq_true, Std.ExtTreeSet.contains_iff_mem]
        exact hs
      rw [if_neg (by simp [hc]), Json.lookup_cons, Json.lookup_cons]
      by_cases hk : k' = k
      · subst hk
        rw [if_pos rfl, if_pos rfl, if_neg hs]
        cases index[k']? <;> rfl
      · have hne : compare k' k ≠ .eq := fun he => hk (Std.LawfulEqCmp.eq_of_compare he)
        rw [if_neg hk, if_neg hk, ih]
        simp only [Std.ExtTreeSet.mem_insert, hne, false_or]

/-- The loop of `join_map` names nothing twice and nothing that was seen. -/
theorem joinChildren_names (index : Dict Json) (seen : NameSet) (ms : List (CString × Json)) :
    ((joinChildren index seen ms).map Prod.fst).Nodup ∧
      ∀ k ∈ (joinChildren index seen ms).map Prod.fst, k ∉ seen := by
  induction ms generalizing seen with
  | nil => simp [joinChildren]
  | cons m ms ih =>
    obtain ⟨k, v⟩ := m
    rw [joinChildren]
    split
    · exact ih seen
    · rename_i hs
      obtain ⟨hn, hnot⟩ := ih (seen.insert k)
      have hk : k ∉ seen := by
        rwa [Std.ExtTreeSet.contains_iff_mem] at hs
      refine ⟨?_, ?_⟩
      · rw [List.map_cons, List.nodup_cons]
        refine ⟨fun hmem => hnot k hmem ?_, hn⟩
        exact Std.ExtTreeSet.mem_insert_self
      · rw [List.map_cons, List.forall_mem_cons]
        refine ⟨hk, fun l hl hmem => hnot l hl ?_⟩
        exact Std.ExtTreeSet.mem_insert.mpr (.inr hmem)

/-- The members a join of two maps has. -/
def joinMembers (ms ns : List (CString × Json)) : List (CString × Json) :=
  joinChildren (inB ns) ∅ ms ++
    notSeen (Std.ExtTreeSet.ofList (ms.map Prod.fst) compare) (inB ns)

theorem mem_notSeen {ms : List (CString × Json)} {index : Dict Json} {k : CString} {v : Json} :
    (k, v) ∈ notSeen (Std.ExtTreeSet.ofList (ms.map Prod.fst) compare) index ↔
      index[k]? = some v ∧ Json.lookup k ms = none := by
  unfold notSeen
  rw [List.mem_filter, Std.ExtTreeMap.mem_toList_iff_getElem?_eq_some, Json.lookup_eq_none_iff]
  refine and_congr_right fun _ => ?_
  rw [Bool.not_eq_true', ← Bool.not_eq_true, Std.ExtTreeSet.contains_iff_mem,
    Std.ExtTreeSet.mem_ofList, List.contains_iff_mem]

/-- The join of two maps names nothing twice. -/
theorem joinMembers_nodup (ms ns : List (CString × Json)) :
    ((joinMembers ms ns).map Prod.fst).Nodup := by
  rw [joinMembers, List.map_append, List.nodup_append']
  refine ⟨(joinChildren_names _ _ _).1, ?_, ?_⟩
  · exact (dict_keys_nodup (inB ns)).sublist (List.filter_sublist.map Prod.fst)
  · intro k hk hk'
    obtain ⟨⟨k', v⟩, hm, rfl⟩ := List.mem_map.mp hk'
    have hnone := (mem_notSeen.mp hm).2
    have hj := lookup_joinChildren (inB ns) ∅ ms k'
    rw [hnone] at hj
    simp only [Option.map_none, ite_self] at hj
    exact Json.lookup_eq_none_iff.mp hj hk

/-- What the join of two maps holds under a name. -/
theorem lookup_joinMembers (ms ns : List (CString × Json)) (k : CString) :
    Json.lookup k (joinMembers ms ns) =
      match Json.lookup k ms, Json.lookup k ns with
      | some v, some w => some (joinNode v w)
      | some v, none => some v
      | none, some w => some w
      | none, none => none := by
  rw [joinMembers, Json.lookup_append, lookup_joinChildren, inB_getElem?, if_neg (by simp)]
  cases hm : Json.lookup k ms with
  | some v =>
    cases Json.lookup k ns <;> rfl
  | none =>
    rw [Option.map_none, Option.none_or]
    cases hn : Json.lookup k ns with
    | none =>
      refine Json.lookup_eq_none_iff.mpr fun hk => ?_
      obtain ⟨⟨k', v⟩, hmem, rfl⟩ := List.mem_map.mp hk
      have hi := (mem_notSeen.mp hmem).1
      rw [inB_getElem?, hn] at hi
      cases hi
    | some w =>
      refine Json.lookup_of_mem ?_ (mem_notSeen.mpr ⟨by rw [inB_getElem?, hn], hm⟩)
      exact (dict_keys_nodup (inB ns)).sublist (List.filter_sublist.map Prod.fst)

/-- Between nodes of different kinds the ranking decides. -/
theorem joinNode_of_rank_ne {a b : Json} (h : nodeRank a ≠ nodeRank b) :
    joinNode a b = if nodeRank b < nodeRank a then a else b := by
  cases a <;> rw [joinNode, if_pos h] <;> simp

/-- Two OR-sets are joined as values. -/
theorem joinNode_orset {a b : Json} (ha : nodeRank a = 2) (hb : nodeRank b = 2) :
    joinNode a b = orsetToJson ((orsetFromJson (some a)).join (orsetFromJson (some b))) := by
  have he : ¬nodeRank a ≠ nodeRank b := by omega
  cases a <;> rw [joinNode, if_neg he, if_pos ha] <;> simp

/-- Two maps are united. -/
theorem joinNode_map {ms ns : List (CString × Json)} (ha : nodeRank (.obj ms) = 3)
    (hb : nodeRank (.obj ns) = 3) : joinNode (.obj ms) (.obj ns) = .obj (joinMembers ms ns) := by
  have he : ¬nodeRank (.obj ms) ≠ nodeRank (.obj ns) := by omega
  rw [joinNode, if_neg he, if_neg (by omega)]
  rfl

/-- Of two scalars the one with the smaller print is taken, the first when they
print alike. -/
theorem joinNode_leaf {a b : Json} (ha : nodeRank a = 1) (hb : nodeRank b = 1) :
    joinNode a b = if bytesLt (printed b) (printed a) then b else a := by
  have he : ¬nodeRank a ≠ nodeRank b := by omega
  have ho := nodeRank_eq_one.mp ha
  cases a with
  | obj ms => cases ho
  | _ =>
    rw [joinNode, if_neg he, if_neg (by omega)]
    simp

/-! ### Nodes and cells -/

/-- The node at a path, entering maps only. -/
def nodeAt (n : Json) : Path → Option Json
  | [] => some n
  | k :: p => if nodeRank n = 3 then (n.get k).bind fun c => nodeAt c p else none

/-- What a node is to the join. -/
inductive Cell where
  /-- An OR-set, as a value. -/
  | set (s : OrSet)
  /-- A map; its members have cells of their own. -/
  | map
  /-- Anything else. -/
  | leaf (n : Json)

/-- The cell of a node. -/
def cellOf (n : Json) : Cell :=
  if isOrset n then .set (orsetFromJson (some n)) else if n.isObject then .map else .leaf n

/-- The cell at a path. -/
def cellAt (n : Json) (p : Path) : Option Cell := (nodeAt n p).map cellOf

/-- The rank a cell's node has. -/
def Cell.rank : Cell → ℕ
  | .set _ => 2
  | .map => 3
  | .leaf _ => 1

/-- The join of two cells. -/
def Cell.join (x y : Cell) : Cell :=
  if x.rank ≠ y.rank then (if y.rank < x.rank then x else y)
  else
    match x, y with
    | .set s, .set t => .set (s.join t)
    | .leaf a, .leaf b => if bytesLt (printed b) (printed a) then .leaf b else .leaf a
    | x, _ => x

/-- The join of two cells that may be missing. -/
def joinCells : Option Cell → Option Cell → Option Cell
  | some x, some y => some (x.join y)
  | some x, none => some x
  | none, y => y

@[simp] theorem nodeAt_nil (n : Json) : nodeAt n [] = some n := rfl

theorem nodeAt_cons (n : Json) (k : CString) (p : Path) :
    nodeAt n (k :: p) = if nodeRank n = 3 then (n.get k).bind fun c => nodeAt c p else none := rfl

theorem cellAt_nil (n : Json) : cellAt n [] = some (cellOf n) := rfl

/-- Below a map the cells are those of its members. -/
theorem cellAt_cons {n : Json} (h : nodeRank n = 3) (k : CString) (p : Path) :
    cellAt n (k :: p) = (n.get k).bind fun c => cellAt c p := by
  rw [cellAt, nodeAt_cons, if_pos h]
  cases n.get k <;> rfl

/-- Below anything but a map there is nothing. -/
theorem cellAt_cons_none {n : Json} (h : nodeRank n ≠ 3) (k : CString) (p : Path) :
    cellAt n (k :: p) = none := by
  rw [cellAt, nodeAt_cons, if_neg h]
  rfl

/-- Following a path and then another is following both. -/
theorem nodeAt_append (n : Json) (p q : Path) :
    nodeAt n (p ++ q) = (nodeAt n p).bind fun c => nodeAt c q := by
  induction p generalizing n with
  | nil => rfl
  | cons k p ih =>
    rw [List.cons_append, nodeAt_cons, nodeAt_cons]
    split
    · cases n.get k with
      | none => rfl
      | some c => exact ih c
    · rfl

theorem cellOf_rank (n : Json) : (cellOf n).rank = nodeRank n := by
  unfold cellOf nodeRank
  split
  · rfl
  · split <;> rfl

theorem cellOf_orset {n : Json} (h : nodeRank n = 2) :
    cellOf n = .set (orsetFromJson (some n)) := by
  rw [cellOf, if_pos (nodeRank_eq_two.mp h)]

theorem cellOf_map {n : Json} (h : nodeRank n = 3) : cellOf n = .map := by
  obtain ⟨ho, hs⟩ := nodeRank_eq_three.mp h
  rw [cellOf, if_neg (by simp [hs]), if_pos ho]

theorem cellOf_leaf {n : Json} (h : nodeRank n = 1) : cellOf n = .leaf n := by
  have ho := nodeRank_eq_one.mp h
  have hs : ¬isOrset n = true := fun hs => by
    rw [isObject_of_isOrset hs] at ho
    cases ho
  rw [cellOf, if_neg hs, if_neg (by simp [ho])]

@[simp] theorem cellOf_orsetToJson {s : OrSet} (h : s.Named) : cellOf (orsetToJson s) = .set s := by
  rw [cellOf, if_pos (isOrset_orsetToJson s), orsetFromJson_orsetToJson h]

theorem nodeRank_orsetToJson (s : OrSet) : nodeRank (orsetToJson s) = 2 :=
  nodeRank_eq_two.mpr (isOrset_orsetToJson s)

/-- Wherever two maps meet, their union still is a map. -/
def NoClash (a b : Json) : Prop :=
  ∀ p x y, nodeAt a p = some x → nodeAt b p = some y → nodeRank x = 3 → nodeRank y = 3 →
    nodeRank (joinNode x y) = 3

/-- The cells below a member of two clash-free maps do not clash either. -/
theorem NoClash.child {a b x y : Json} {k : CString} (h : NoClash a b) (ha : nodeRank a = 3)
    (hb : nodeRank b = 3) (hx : a.get k = some x) (hy : b.get k = some y) : NoClash x y := by
  intro p u v hu hv
  refine h (k :: p) u v ?_ ?_
  · rw [nodeAt_cons, if_pos ha, hx]
    exact hu
  · rw [nodeAt_cons, if_pos hb, hy]
    exact hv

/-- The rank of a join is the larger rank, unless two maps look like an OR-set. -/
theorem nodeRank_joinNode {a b : Json}
    (h : nodeRank a = 3 → nodeRank b = 3 → nodeRank (joinNode a b) = 3) :
    nodeRank (joinNode a b) = max (nodeRank a) (nodeRank b) := by
  by_cases hne : nodeRank a = nodeRank b
  · rcases nodeRank_cases a with ha | ha | ha
    · rw [joinNode_leaf ha (by omega)]
      split <;> omega
    · rw [joinNode_orset ha (by omega), nodeRank_orsetToJson]
      omega
    · rw [h ha (by omega)]
      omega
  · rw [joinNode_of_rank_ne hne]
    split <;> omega

/-- Without a clash, the cells of a join are the joins of the cells. -/
theorem cellAt_joinNode {a b : Json} (h : NoClash a b) (p : Path) :
    cellAt (joinNode a b) p = joinCells (cellAt a p) (cellAt b p) := by
  induction p generalizing a b with
  | nil =>
    rw [cellAt_nil, cellAt_nil, cellAt_nil, joinCells]
    refine congrArg some ?_
    unfold Cell.join
    rw [cellOf_rank, cellOf_rank]
    by_cases hne : nodeRank a ≠ nodeRank b
    · rw [joinNode_of_rank_ne hne, if_pos hne]
      split <;> rfl
    · rw [if_neg hne]
      have he : nodeRank a = nodeRank b := not_not.mp hne
      rcases nodeRank_cases a with ha | ha | ha
      · rw [joinNode_leaf ha (by omega), cellOf_leaf ha, cellOf_leaf (n := b) (by omega)]
        dsimp only
        split
        · exact cellOf_leaf (by omega)
        · exact cellOf_leaf ha
      · rw [joinNode_orset ha (by omega), cellOf_orset ha, cellOf_orset (n := b) (by omega),
          cellOf_orsetToJson ((named_orsetFromJson _).join (named_orsetFromJson _))]
      · have hj := h [] a b rfl rfl ha (by omega)
        rw [cellOf_map hj, cellOf_map ha]
  | cons k p ih =>
    have hrank := nodeRank_joinNode (h [] a b rfl rfl)
    have hale := nodeRank_le a
    have hble := nodeRank_le b
    by_cases hj : nodeRank (joinNode a b) = 3
    · rw [cellAt_cons hj]
      by_cases ha : nodeRank a = 3
      · by_cases hb : nodeRank b = 3
        · obtain ⟨ms, rfl⟩ := exists_members_of_rank ha
          obtain ⟨ns, rfl⟩ := exists_members_of_rank hb
          rw [cellAt_cons ha, cellAt_cons hb, joinNode_map ha hb, Json.get_obj, Json.get_obj,
            Json.get_obj, lookup_joinMembers]
          cases hm : Json.lookup k ms with
          | none => cases Json.lookup k ns <;> rfl
          | some v =>
            cases hn : Json.lookup k ns with
            | none =>
              change cellAt v p = joinCells (cellAt v p) none
              cases cellAt v p <;> rfl
            | some w => exact ih (h.child ha hb hm hn)
        · rw [joinNode_of_rank_ne (by omega), if_pos (by omega), cellAt_cons ha,
            cellAt_cons_none hb]
          cases (a.get k).bind fun c => cellAt c p <;> rfl
      · have hb : nodeRank b = 3 := by omega
        rw [joinNode_of_rank_ne (by omega), if_neg (by omega), cellAt_cons hb,
          cellAt_cons_none ha]
        rfl
    · rw [cellAt_cons_none hj, cellAt_cons_none (by omega), cellAt_cons_none (by omega)]
      rfl

end VoidPalabra
