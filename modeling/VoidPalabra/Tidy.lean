import VoidPalabra.Store

/-!
# Tidy trees

A map of a document names nothing twice and holds no list, whatever the document holds
beside things and registers. Two trees of such maps join without a clash, and putting a
node at a place whose parents are there changes that place and the maps above it only.
-/

namespace VoidPalabra

/-- A map that names nothing twice and holds no list. -/
structure TidyMap (n : Json) : Prop where
  /-- No name twice. -/
  nodup : (n.members.map Prod.fst).Nodup
  /-- No list. -/
  notArray : ∀ k v, n.get k = some v → v.isArray = false

/-- Every map of a tree is such a map. -/
def Tidy (root : Json) : Prop := ∀ q n, nodeAt root q = some n → nodeRank n = 3 → TidyMap n

theorem TidyMap.names {ms : List (CString × Json)} (h : TidyMap (.obj ms)) :
    (ms.map Prod.fst).Nodup := h.nodup

/-- Such a map does not look like an OR-set. -/
theorem TidyMap.rank {ms : List (CString × Json)} (h : TidyMap (.obj ms)) :
    nodeRank (.obj ms) = 3 := by
  refine nodeRank_of_members fun m hm => h.notArray m.1 m.2 ?_
  exact Json.lookup_of_mem h.nodup hm

theorem Tidy.self {root : Json} (h : Tidy root) (hr : nodeRank root = 3) : TidyMap root :=
  h [] root rfl hr

theorem Tidy.child {root c : Json} {k : CString} (h : Tidy root) (hr : nodeRank root = 3)
    (hc : root.get k = some c) : Tidy c := by
  intro q n hn
  refine h (k :: q) n ?_
  rw [nodeAt_cons, if_pos hr, hc]
  exact hn

/-- What hangs below a node of a tidy tree. -/
theorem Tidy.below {root n : Json} {p : Path} (h : Tidy root) (hn : nodeAt root p = some n) :
    Tidy n := by
  intro q m hm
  refine h (p ++ q) m ?_
  rw [nodeAt_append, hn]
  exact hm

/-- What has a node below it is a map. -/
theorem nodeRank_above {n c : Json} {k : CString} {q : Path} (h : nodeAt n (k :: q) = some c) :
    nodeRank n = 3 := by
  by_contra hne
  rw [nodeAt_cons, if_neg hne] at h
  cases h

theorem atPath_concat (n : Json) (p : Path) (k : CString) : atPath n (p ++ [k]) = get (atPath n p) k := by
  rw [atPath, List.foldl_append]
  rfl

theorem nodeAt_concat (n : Json) (p : Path) (k : CString) :
    nodeAt n (p ++ [k]) = (nodeAt n p).bind fun c => if nodeRank c = 3 then c.get k else none := by
  rw [nodeAt_append]
  refine congrArg _ (funext fun c => ?_)
  rw [nodeAt_cons]
  cases c.get k <;> rfl

/-- Following names and entering maps only are the same where the nodes on the way are
maps. -/
theorem atPath_of_maps {n : Json} {p : Path}
    (h : ∀ q m, q <+: p → q ≠ p → nodeAt n q = some m → nodeRank m = 3) :
    atPath n p = nodeAt n p := by
  induction p using List.reverseRecOn with
  | nil => rfl
  | append_singleton p k ih =>
    have hp : p <+: p ++ [k] := List.prefix_append _ _
    rw [atPath_concat, nodeAt_concat, ih fun q m hq _ => h q m (hq.trans hp) ?_]
    · cases hn : nodeAt n p with
      | none => rfl
      | some m => rw [Option.bind_some, if_pos (h p m hp (by simp) hn), get_some]
    · rintro rfl
      have hle := hq.length_le
      simp at hle

/-! ### Joining -/

/-- The union of two tidy maps is one. -/
theorem TidyMap.join {ms ns : List (CString × Json)} (ha : TidyMap (.obj ms))
    (hb : TidyMap (.obj ns)) : TidyMap (.obj (joinMembers ms ns)) where
  nodup := joinMembers_nodup ms ns
  notArray := by
    intro k v hv
    rw [Json.get_obj, lookup_joinMembers] at hv
    cases hm : Json.lookup k ms with
    | none =>
      cases hn : Json.lookup k ns with
      | none =>
        rw [hm, hn] at hv
        cases hv
      | some w =>
        rw [hm, hn] at hv
        cases hv
        exact hb.notArray k _ hn
    | some u =>
      cases hn : Json.lookup k ns with
      | none =>
        rw [hm, hn] at hv
        cases hv
        exact ha.notArray k _ hm
      | some w =>
        rw [hm, hn] at hv
        cases hv
        exact notArray_joinNode (ha.notArray k u hm) (hb.notArray k w hn)

/-- Two maps of tidy trees are joined to a map. -/
theorem tidyMap_joinNode {a b : Json} (ha : nodeRank a = 3) (hb : nodeRank b = 3)
    (hx : TidyMap a) (hy : TidyMap b) : TidyMap (joinNode a b) ∧ nodeRank (joinNode a b) = 3 := by
  obtain ⟨ms, rfl⟩ := exists_members_of_rank ha
  obtain ⟨ns, rfl⟩ := exists_members_of_rank hb
  rw [joinNode_map ha hb]
  exact ⟨hx.join hy, (hx.join hy).rank⟩

theorem noClash_of_tidy {a b : Json} (ha : Tidy a) (hb : Tidy b) : NoClash a b :=
  fun p x y hx hy hrx hry => (tidyMap_joinNode hrx hry (ha p x hx hrx) (hb p y hy hry)).2

/-- The join of two nodes that are no two maps is one of them, or an OR-set as it is
written. -/
theorem joinNode_cases (a b : Json) :
    joinNode a b = a ∨ joinNode a b = b ∨
      (nodeRank a = 2 ∧ nodeRank b = 2 ∧ ∃ s : OrSet, joinNode a b = orsetToJson s) ∨
      nodeRank a = 3 ∧ nodeRank b = 3 := by
  by_cases hne : nodeRank a = nodeRank b
  · rcases nodeRank_cases a with hr | hr | hr
    · rw [joinNode_leaf hr (by omega)]
      split
      · exact .inr (.inl rfl)
      · exact .inl rfl
    · exact .inr (.inr (.inl ⟨hr, by omega, _, joinNode_orset hr (by omega)⟩))
    · exact .inr (.inr (.inr ⟨hr, by omega⟩))
  · rw [joinNode_of_rank_ne hne]
    split
    · exact .inl rfl
    · exact .inr (.inl rfl)

/-- The join of two tidy trees is tidy. -/
theorem Tidy.join {a b : Json} (ha : Tidy a) (hb : Tidy b) : Tidy (joinNode a b) := by
  intro q n hn hr
  rcases nodeAt_joinNode (noClash_of_tidy ha hb) hn with h | h | ⟨x, y, hx, hy, rfl⟩
  · exact ha q n h hr
  · exact hb q n h hr
  · rcases joinNode_cases x y with h | h | ⟨-, -, s, h⟩ | ⟨hrx, hry⟩
    · rw [h] at hr ⊢
      exact ha q x hx hr
    · rw [h] at hr ⊢
      exact hb q y hy hr
    · rw [h, nodeRank_orsetToJson] at hr
      omega
    · exact (tidyMap_joinNode hrx hry (ha q x hx hrx) (hb q y hy hry)).1

/-! ### Putting a node -/

section

variable {v : Json} {k : CString} {ms : List (CString × Json)}

theorem TidyMap.replaced (h : TidyMap (.obj ms)) (hv : v.isArray = false) (k : CString) :
    TidyMap (.obj (eraseMember k ms ++ [(k, v)])) where
  nodup := nodup_replaced h.names k v
  notArray := by
    intro j w hw
    rw [Json.get_obj, lookup_replaced h.names] at hw
    split at hw
    · cases hw
      exact hv
    · exact h.notArray j w hw

theorem TidyMap.changed {f : Json → Json} (h : TidyMap (.obj ms))
    (hv : (f ((Json.lookup k ms).getD (.obj []))).isArray = false) :
    TidyMap (.obj (changeMember k f ms)) where
  nodup := by
    change ((changeMember k f ms).map Prod.fst).Nodup
    rw [changeMember_names]
    split
    · exact h.nodup
    · rename_i hk
      exact names_nodup_concat h.nodup hk
  notArray := by
    intro j w hw
    rw [Json.get_obj, lookup_changeMember] at hw
    split at hw
    · cases hw
      exact hv
    · exact h.notArray j w hw

theorem putAt_single (k : CString) (v : Json) (ms : List (CString × Json)) :
    putAt [k] v (.obj ms) = .obj (eraseMember k ms ++ [(k, v)]) := rfl

theorem putAt_cons {p : Path} (hp : p ≠ []) (k : CString) (v : Json) (ms : List (CString × Json)) :
    putAt (k :: p) v (.obj ms) = .obj (changeMember k (putAt p v) ms) := by
  obtain ⟨x, p, rfl⟩ := List.exists_cons_of_ne_nil hp
  rfl

end

/-- The node at a path after a node was put under a map that is there. -/
def putNode (root v : Json) (p q : Path) : Option Json :=
  if p <+: q then nodeAt v (q.drop p.length)
  else if q <+: p then (nodeAt root q).map (putAt (p.drop q.length) v)
  else nodeAt root q

/-- Putting a node under a map that is there changes that place and the maps above it,
which stay tidy maps. -/
theorem putAt_put {v parent : Json} (hv : v.isArray = false) {k : CString} {p : Path} :
    ∀ {root : Json}, Tidy root → nodeAt root p = some parent → nodeRank parent = 3 →
      (nodeRank (putAt (p ++ [k]) v root) = 3 ∧ TidyMap (putAt (p ++ [k]) v root)) ∧
        ∀ q, nodeAt (putAt (p ++ [k]) v root) q = putNode root v (p ++ [k]) q := by
  induction p with
  | nil =>
    rintro root ht hn hr
    cases hn
    obtain ⟨ms, rfl⟩ := exists_members_of_rank hr
    have ht' := (ht.self hr).replaced hv k
    refine ⟨⟨ht'.rank, ht'⟩, fun q => ?_⟩
    cases q with
    | nil => simp [putNode]
    | cons j q =>
      rw [List.nil_append, putAt_single, nodeAt_cons, if_pos ht'.rank, Json.get_obj,
        lookup_replaced (ht.self hr).names, putNode]
      by_cases hj : j = k
      · subst hj
        simp
      · rw [if_neg hj, if_neg (by simp [List.cons_prefix_cons, Ne.symm hj]),
          if_neg (by simp [List.cons_prefix_cons, hj]), nodeAt_cons, if_pos hr, Json.get_obj]
  | cons x p ih =>
    intro root ht hn hr
    have hroot := nodeRank_above hn
    obtain ⟨ms, rfl⟩ := exists_members_of_rank hroot
    rw [nodeAt_cons, if_pos hroot, Json.get_obj] at hn
    obtain ⟨c, hc, hnc⟩ := Option.bind_eq_some_iff.mp hn
    obtain ⟨⟨hrc, -⟩, hnodes⟩ := ih (ht.child hroot hc) hnc hr
    have hput : putAt (x :: p ++ [k]) v (.obj ms) = .obj (changeMember x (putAt (p ++ [k]) v) ms) :=
      putAt_cons (by simp) x v ms
    have ht' : TidyMap (.obj (changeMember x (putAt (p ++ [k]) v) ms)) := by
      refine (ht.self hroot).changed ?_
      rw [hc, Option.getD_some]
      obtain ⟨ns, hns⟩ := exists_members_of_rank hrc
      rw [hns]
      rfl
    rw [hput]
    refine ⟨⟨ht'.rank, ht'⟩, fun q => ?_⟩
    cases q with
    | nil =>
      rw [putNode, if_neg (by simp), if_pos List.nil_prefix]
      simp [putAt_cons]
    | cons j q =>
      rw [nodeAt_cons, if_pos ht'.rank, Json.get_obj, lookup_changeMember, hc, putNode,
        List.cons_append]
      by_cases hj : j = x
      · subst hj
        rw [if_pos rfl, Option.getD_some, Option.bind_some, hnodes, putNode, nodeAt_cons,
          if_pos hroot, Json.get_obj, hc]
        simp [List.cons_prefix_cons]
      · rw [if_neg hj, if_neg (by simp [List.cons_prefix_cons, Ne.symm hj]),
          if_neg (by simp [List.cons_prefix_cons, hj]), nodeAt_cons, if_pos hroot, Json.get_obj]

/-- What is above a place, and what is left of the way to it from there. -/
theorem exists_rest {p q : Path} {k : CString} (hq : q <+: p ++ [k]) (hnot : ¬p ++ [k] <+: q) :
    ∃ r, p = q ++ r ∧ (p ++ [k]).drop q.length = r ++ [k] := by
  rcases List.prefix_concat_iff.mp hq with rfl | ⟨r, rfl⟩
  · exact absurd (List.prefix_refl _) hnot
  · exact ⟨r, rfl, by simp⟩

/-- The cells after a node was put under a map that is there. -/
theorem cellAt_put {root v parent : Json} {k : CString} {p : Path} (h : Tidy root)
    (hv : v.isArray = false) (hn : nodeAt root p = some parent) (hr : nodeRank parent = 3) (q : Path) :
    cellAt (putAt (p ++ [k]) v root) q =
      if p ++ [k] <+: q then cellAt v (q.drop (p ++ [k]).length) else cellAt root q := by
  rw [cellAt, (putAt_put hv h hn hr).2, putNode]
  split
  · rfl
  · rename_i hnot
    split
    · rename_i hpre
      obtain ⟨r, rfl, hdrop⟩ := exists_rest hpre hnot
      rw [nodeAt_append] at hn
      obtain ⟨m, hm, hnm⟩ := Option.bind_eq_some_iff.mp hn
      have hrm : nodeRank m = 3 := by
        cases r with
        | nil =>
          cases hnm
          exact hr
        | cons x r => exact nodeRank_above hnm
      rw [hdrop, hm, Option.map_some, Option.map_some, cellAt, hm, Option.map_some, cellOf_map hrm,
        cellOf_map (putAt_put hv (h.below hm) hnm hr).1.1]
    · rfl

/-- The sets after a node was put under a map that is there. -/
theorem setAt_put {root v parent : Json} {k : CString} {p : Path} (h : Tidy root)
    (hv : v.isArray = false) (hn : nodeAt root p = some parent) (hr : nodeRank parent = 3) (q : Path) :
    setAt (putAt (p ++ [k]) v root) q =
      if p ++ [k] <+: q then setAt v (q.drop (p ++ [k]).length) else setAt root q := by
  rw [setAt, cellAt_put h hv hn hr]
  by_cases hq : p ++ [k] <+: q
  · rw [if_pos hq, if_pos hq]
    rfl
  · rw [if_neg hq, if_neg hq]
    rfl

/-- Putting a tidy tree under a map that is there keeps a tree tidy. -/
theorem Tidy.put {root v parent : Json} {k : CString} {p : Path} (h : Tidy root) (ht : Tidy v)
    (hv : v.isArray = false) (hn : nodeAt root p = some parent) (hr : nodeRank parent = 3) :
    Tidy (putAt (p ++ [k]) v root) := by
  intro q n hq hrn
  rw [(putAt_put hv h hn hr).2, putNode] at hq
  split at hq
  · exact ht _ n hq hrn
  · rename_i hnot
    split at hq
    · rename_i hpre
      obtain ⟨m, hm, rfl⟩ := Option.map_eq_some_iff.mp hq
      obtain ⟨r, rfl, hdrop⟩ := exists_rest hpre hnot
      rw [nodeAt_append, hm, Option.bind_some] at hn
      rw [hdrop]
      exact (putAt_put hv (h.below hm) hn hr).1.2
    · exact h q n hq hrn

end VoidPalabra
