import VoidPalabra.Tree
import VoidPalabra.RoundTrip

/-!
# What the canonical form of a document says

`canonDoc` is a function of the cells of a document, and determines them: two
documents that have a canonical form have the same one exactly when they have the
same OR-sets and maps at the same paths, with leaves that are encoded alike.
-/

namespace VoidPalabra

open Sorting

/-! ### Reading a normal form -/

/-- A member of a normal form is the normal form of a member. -/
theorem get_norm {n : Json} (h : HasForm n) (k : CString) :
    (norm n).get k = (n.get k).map norm := by
  cases n with
  | obj ms =>
    obtain ⟨-, hd⟩ := hasForm_obj.mp h
    have hds := norm_obj_nodup hd
    rw [norm_obj hd, Json.get_obj, Json.get_obj]
    cases hl : Json.lookup k ms with
    | none =>
      rw [Json.lookup_eq_none_iff] at hl
      refine Json.lookup_eq_none_iff.mpr fun hk => hl ?_
      obtain ⟨m, hm, rfl⟩ := List.mem_map.mp hk
      obtain ⟨m', hm', rfl⟩ := List.mem_map.mp hm
      exact List.mem_map.mpr ⟨m', (sortMembers_perm ms).mem_iff.mp hm', rfl⟩
    | some v =>
      refine Json.lookup_of_mem hds (List.mem_map.mpr ⟨(k, v), ?_, rfl⟩)
      exact (sortMembers_perm ms).mem_iff.mpr (Json.mem_of_lookup hl)
  | num d =>
    rw [norm]
    cases d.whole? <;> rfl
  | _ => rfl

@[simp] theorem isObject_norm (n : Json) : (norm n).isObject = n.isObject := by
  cases n with
  | num d =>
    rw [norm]
    cases d.whole? <;> rfl
  | _ => rfl

@[simp] theorem isArray_norm (n : Json) : (norm n).isArray = n.isArray := by
  cases n with
  | num d =>
    rw [norm]
    cases d.whole? <;> rfl
  | _ => rfl

theorem isOrset_norm {n : Json} (h : HasForm n) : isOrset (norm n) = isOrset n := by
  rw [isOrset, isOrset, isObject_norm, get_norm h, get_norm h, Option.any_map, Option.any_map]
  simp only [isObject_norm, isArray_norm]

theorem nodeRank_norm {n : Json} (h : HasForm n) : nodeRank (norm n) = nodeRank n := by
  rw [nodeRank, nodeRank, isOrset_norm h, isObject_norm]

/-- What is found in a value with a form has a form. -/
theorem hasForm_get {n v : Json} {k : CString} (h : HasForm n) (hv : n.get k = some v) :
    HasForm v := by
  cases n with
  | obj ms => exact ((hasForm_obj.mp h).1 _ (Json.mem_of_lookup hv)).2
  | _ => cases hv

/-- Strings are their own normal form, and nothing else becomes one. -/
theorem norm_eq_str {n : Json} {s : CString} : norm n = .str s ↔ n = .str s := by
  cases n with
  | num d =>
    rw [norm]
    cases d.whole? <;> simp
  | obj ms => simp [norm]
  | arr xs => simp [norm]
  | _ => rfl

/-- An OR-set is read alike from a value and from its normal form. -/
theorem orsetFromJson_norm {n : Json} (h : HasForm n) :
    orsetFromJson (some (norm n)) = orsetFromJson (some n) := by
  refine OrSet.ext ?_ ?_
  · unfold orsetFromJson
    dsimp only [get_some]
    rw [get_norm h]
    cases ha : n.get Key.a with
    | none => rfl
    | some a =>
      have hfa := hasForm_get h ha
      cases a with
      | obj ms =>
        obtain ⟨-, hd⟩ := hasForm_obj.mp hfa
        have hds := norm_obj_nodup hd
        rw [Option.map_some, norm_obj hd]
        refine Std.ExtTreeMap.ext_getElem? fun t => Option.ext fun v => ?_
        rw [readAdds_getElem? hds, readAdds_getElem? hd]
        refine and_congr_left fun _ => ?_
        constructor
        · intro hm
          obtain ⟨⟨u, w⟩, hu, he⟩ := List.mem_map.mp hm
          obtain ⟨rfl, hw⟩ := Prod.mk.inj he
          rw [← norm_eq_str.mp hw]
          exact (sortMembers_perm ms).mem_iff.mp hu
        · intro hm
          exact List.mem_map.mpr ⟨_, (sortMembers_perm ms).mem_iff.mpr hm, rfl⟩
      | num d =>
        rw [Option.map_some, norm]
        cases d.whole? <;> rfl
      | _ => rfl
  · unfold orsetFromJson
    dsimp only [get_some]
    rw [get_norm h]
    cases n.get Key.r with
    | none => rfl
    | some r =>
      cases r with
      | arr xs =>
        rw [Option.map_some, norm_arr]
        refine Std.ExtTreeSet.ext_mem fun t => ?_
        rw [mem_readRemoves, mem_readRemoves]
        refine and_congr_left fun _ => ?_
        constructor
        · intro hm
          obtain ⟨v, hv, he⟩ := List.mem_map.mp hm
          rw [← norm_eq_str.mp he]
          exact hv
        · intro hm
          exact List.mem_map.mpr ⟨_, hm, rfl⟩
      | num d =>
        rw [Option.map_some, norm]
        cases d.whole? <;> rfl
      | _ => rfl

/-! ### Alike cells -/

/-- Two values that both have no form, or have one form. -/
def SameForm (a b : Json) : Prop := (encode a).toOption = (encode b).toOption

/-- The same set, two maps, or leaves that are encoded alike. -/
def Cell.Alike : Cell → Cell → Prop
  | .set s, .set t => s = t
  | .map, .map => True
  | .leaf a, .leaf b => SameForm a b
  | _, _ => False

/-- Alike, or both missing. -/
def CellsAlike : Option Cell → Option Cell → Prop
  | some x, some y => x.Alike y
  | none, none => True
  | _, _ => False

theorem toOption_eq_some {ε α : Type} {x : Except ε α} {a : α} :
    x.toOption = some a ↔ x = .ok a := by
  cases x <;> simp [Except.toOption]

theorem sameForm_iff {a b : Json} :
    SameForm a b ↔ (HasForm a ↔ HasForm b) ∧ form a = form b := by
  unfold SameForm HasForm form
  cases encode a <;> cases encode b <;> simp [Except.toOption]

theorem Cell.Alike.refl (x : Cell) : x.Alike x := by
  cases x with
  | set s => exact rfl
  | map => trivial
  | leaf n => exact rfl

theorem Cell.Alike.symm {x y : Cell} (h : x.Alike y) : y.Alike x := by
  cases x <;> cases y <;> first | exact h.elim | exact Eq.symm h | trivial

theorem Cell.Alike.trans {x y z : Cell} (h : x.Alike y) (k : y.Alike z) : x.Alike z := by
  cases x <;> cases y <;> first | exact h.elim | skip
  all_goals cases z <;> first | exact k.elim | exact Eq.trans h k | trivial

theorem CellsAlike.refl (x : Option Cell) : CellsAlike x x := by
  cases x with
  | none => trivial
  | some x => exact Cell.Alike.refl x

theorem CellsAlike.symm {x y : Option Cell} (h : CellsAlike x y) : CellsAlike y x := by
  cases x <;> cases y <;> first | exact h.elim | exact Cell.Alike.symm h | trivial

theorem CellsAlike.trans {x y z : Option Cell} (h : CellsAlike x y) (k : CellsAlike y z) :
    CellsAlike x z := by
  cases x <;> cases y <;> first | exact h.elim | skip
  all_goals cases z <;> first | exact k.elim | exact Cell.Alike.trans h k | trivial

/-- The normal form of a value has alike cells. -/
theorem cellAt_norm {n : Json} (h : HasForm n) (p : Path) :
    CellsAlike (cellAt (norm n) p) (cellAt n p) := by
  induction p generalizing n with
  | nil =>
    rw [cellAt_nil, cellAt_nil]
    rcases nodeRank_cases n with hr | hr | hr
    · rw [cellOf_leaf hr, cellOf_leaf (by rw [nodeRank_norm h, hr])]
      refine sameForm_iff.mpr ⟨?_, form_norm h⟩
      simp [h, hasForm_norm h]
    · rw [cellOf_orset hr, cellOf_orset (by rw [nodeRank_norm h, hr])]
      exact orsetFromJson_norm h
    · rw [cellOf_map hr, cellOf_map (by rw [nodeRank_norm h, hr])]
      trivial
  | cons k p ih =>
    by_cases hr : nodeRank n = 3
    · rw [cellAt_cons hr, cellAt_cons (by rw [nodeRank_norm h, hr]), get_norm h]
      cases hv : n.get k with
      | none => trivial
      | some v => exact ih (hasForm_get h hv)
    · rw [cellAt_cons_none hr, cellAt_cons_none (by rwa [nodeRank_norm h])]
      trivial

/-! ### The canonical form of a document -/

/-- No map below a node names a member twice. -/
def NamedOnce (n : Json) : Prop :=
  ∀ p m, nodeAt n p = some m → nodeRank m = 3 → (m.members.map Prod.fst).Nodup

/-- A cell that has a canonical form of its own. -/
def Cell.Ok : Cell → Prop
  | .set s => HasForm (orsetToJson s)
  | .map => True
  | .leaf n => HasForm n

/-- One member with its value normalized. -/
def normalizeMember (m : CString × Json) : CString × Json := (m.1, normalizeNode m.2)

theorem normalizeChildren_eq_map (ms : List (CString × Json)) :
    normalizeChildren ms = ms.map normalizeMember := by
  induction ms with
  | nil => rfl
  | cons m ms ih =>
    obtain ⟨k, v⟩ := m
    rw [normalizeChildren, ih]
    rfl

theorem normalizeNode_orset {n : Json} (h : nodeRank n = 2) :
    normalizeNode n = orsetToJson (orsetFromJson (some n)) := by
  have hs := nodeRank_eq_two.mp h
  cases n <;> rw [normalizeNode, if_pos hs] <;> simp

theorem normalizeNode_map {ms : List (CString × Json)} (h : nodeRank (.obj ms) = 3) :
    normalizeNode (.obj ms) = .obj (ms.map normalizeMember) := by
  have hs := (nodeRank_eq_three.mp h).2
  rw [normalizeNode, if_neg (by simp [hs]), normalizeChildren_eq_map]

theorem normalizeNode_leaf {n : Json} (h : nodeRank n = 1) : normalizeNode n = n := by
  have ho := nodeRank_eq_one.mp h
  have hs : ¬isOrset n = true := fun hs => by
    rw [isObject_of_isOrset hs] at ho
    cases ho
  cases n with
  | obj ms => cases ho
  | _ =>
    rw [normalizeNode, if_neg hs]
    simp

theorem lookup_normalize (ms : List (CString × Json)) (k : CString) :
    Json.lookup k (ms.map normalizeMember) = (Json.lookup k ms).map normalizeNode := by
  induction ms with
  | nil => rfl
  | cons m ms ih =>
    obtain ⟨k', v⟩ := m
    rw [List.map_cons, normalizeMember, Json.lookup_cons, Json.lookup_cons, ih]
    split <;> rfl

/-- A normalized leaf is what it was, and objects stay objects. -/
theorem isObject_normalizeNode (n : Json) : (normalizeNode n).isObject = n.isObject := by
  rcases nodeRank_cases n with h | h | h
  · rw [normalizeNode_leaf h]
  · rw [normalizeNode_orset h, isObject_of_isOrset (nodeRank_eq_two.mp h)]
    rfl
  · obtain ⟨ms, rfl⟩ := exists_members_of_rank h
    rw [normalizeNode_map h]
    rfl

theorem isArray_normalizeNode (n : Json) : (normalizeNode n).isArray = n.isArray := by
  cases n with
  | obj ms =>
    have ho := isObject_normalizeNode (.obj ms)
    cases hn : normalizeNode (.obj ms) with
    | obj ns => rfl
    | _ =>
      rw [hn] at ho
      cases ho
  | _ => rw [normalizeNode_leaf (nodeRank_eq_one.mpr rfl)]

theorem nodeRank_normalizeNode (n : Json) : nodeRank (normalizeNode n) = nodeRank n := by
  rcases nodeRank_cases n with h | h | h
  · rw [normalizeNode_leaf h]
  · rw [normalizeNode_orset h, nodeRank_orsetToJson, h]
  · rw [h]
    have hs := (nodeRank_eq_three.mp h).2
    refine nodeRank_eq_three.mpr ⟨?_, ?_⟩
    · rw [isObject_normalizeNode, (nodeRank_eq_three.mp h).1]
    · obtain ⟨ms, rfl⟩ := exists_members_of_rank h
      rw [normalizeNode_map h]
      rw [isOrset, Json.get_obj, Json.get_obj] at hs ⊢
      rw [lookup_normalize, lookup_normalize, Option.any_map, Option.any_map]
      simp only [isObject_normalizeNode, isArray_normalizeNode]
      exact hs

/-- Normalizing changes no cell. -/
theorem cellAt_normalizeNode (n : Json) (p : Path) :
    cellAt (normalizeNode n) p = cellAt n p := by
  induction p generalizing n with
  | nil =>
    rw [cellAt_nil, cellAt_nil]
    refine congrArg some ?_
    rcases nodeRank_cases n with h | h | h
    · rw [normalizeNode_leaf h]
    · rw [cellOf_orset h, normalizeNode_orset h, cellOf_orsetToJson (named_orsetFromJson _)]
    · rw [cellOf_map h, cellOf_map (by rw [nodeRank_normalizeNode, h])]
  | cons k p ih =>
    by_cases h : nodeRank n = 3
    · rw [cellAt_cons h, cellAt_cons (by rw [nodeRank_normalizeNode, h])]
      obtain ⟨ms, rfl⟩ := exists_members_of_rank h
      rw [normalizeNode_map h, Json.get_obj, Json.get_obj, lookup_normalize]
      cases Json.lookup k ms with
      | none => rfl
      | some v => exact ih v
    · rw [cellAt_cons_none h, cellAt_cons_none (by rwa [nodeRank_normalizeNode])]

/-- Every cell below a node has a form, and every name on the way is text. -/
def CellsOk (n : Json) : Prop :=
  ∀ p c, cellAt n p = some c → (∀ k ∈ p, validUtf8 k.bytes = true) ∧ c.Ok

/-- Anything but a map is a single cell. -/
theorem cellsOk_of_rank_ne {n : Json} (h : nodeRank n ≠ 3) :
    NamedOnce n ∧ CellsOk n ↔ (cellOf n).Ok := by
  constructor
  · rintro ⟨-, hc⟩
    exact (hc [] _ rfl).2
  · intro hc
    refine ⟨fun p m hm hr => ?_, fun p c hp => ?_⟩
    · cases p with
      | nil =>
        cases hm
        exact absurd hr h
      | cons k p => simp [nodeAt_cons, h] at hm
    · cases p with
      | nil =>
        cases hp
        exact ⟨by simp, hc⟩
      | cons k p =>
        rw [cellAt_cons_none h] at hp
        cases hp

/-- The maps below a map are those below its members. -/
theorem namedOnce_map {ms : List (CString × Json)} (h : nodeRank (.obj ms) = 3) :
    NamedOnce (.obj ms) ↔
      (ms.map Prod.fst).Nodup ∧ ∀ k v, Json.lookup k ms = some v → NamedOnce v := by
  constructor
  · intro hn
    refine ⟨hn [] _ rfl h, fun k v hv p m hm hr => hn (k :: p) m ?_ hr⟩
    rw [nodeAt_cons, if_pos h, Json.get_obj, hv]
    exact hm
  · rintro ⟨hd, hv⟩ p m hm hr
    cases p with
    | nil =>
      cases hm
      exact hd
    | cons k p =>
      rw [nodeAt_cons, if_pos h, Json.get_obj] at hm
      obtain ⟨v, hl, hm⟩ := Option.bind_eq_some_iff.mp hm
      exact hv k v hl p m hm hr

/-- The cells below a map are those below its members. -/
theorem cellsOk_map {ms : List (CString × Json)} (h : nodeRank (.obj ms) = 3) :
    CellsOk (.obj ms) ↔
      ∀ k v, Json.lookup k ms = some v → validUtf8 k.bytes = true ∧ CellsOk v := by
  constructor
  · intro hc k v hv
    have hcell : ∀ p, cellAt (.obj ms) (k :: p) = cellAt v p := fun p => by
      rw [cellAt_cons h, Json.get_obj, hv]
      rfl
    refine ⟨?_, fun p c hp => ?_⟩
    · exact (hc [k] (cellOf v) (hcell [])).1 k (List.mem_singleton_self k)
    · obtain ⟨hk, ho⟩ := hc (k :: p) c ((hcell p).trans hp)
      exact ⟨fun l hl => hk l (List.mem_cons_of_mem _ hl), ho⟩
  · intro hv p c hp
    cases p with
    | nil =>
      cases hp
      rw [cellOf_map h]
      exact ⟨by simp, trivial⟩
    | cons k p =>
      rw [cellAt_cons h, Json.get_obj] at hp
      obtain ⟨v, hl, hp⟩ := Option.bind_eq_some_iff.mp hp
      obtain ⟨hu, hc⟩ := hv k v hl
      obtain ⟨hk, ho⟩ := hc p c hp
      exact ⟨List.forall_mem_cons.mpr ⟨hu, hk⟩, ho⟩

theorem hasForm_normalizeNode_leaf {n : Json} (h : nodeRank n = 1) :
    HasForm (normalizeNode n) ↔ NamedOnce n ∧ CellsOk n := by
  rw [cellsOk_of_rank_ne (by omega), normalizeNode_leaf h, cellOf_leaf h]
  rfl

/-- A document has a canonical form when its maps name nothing twice, its names are
text, and each of its cells has a form. -/
theorem hasForm_normalizeNode {n : Json} :
    HasForm (normalizeNode n) ↔ NamedOnce n ∧ CellsOk n := by
  induction n using Json.induct with
  | obj ms ih =>
    rcases nodeRank_cases (.obj ms) with hr | hr | hr
    · cases nodeRank_eq_one.mp hr
    · rw [cellsOk_of_rank_ne (by omega), normalizeNode_orset hr, cellOf_orset hr]
      rfl
    · rw [normalizeNode_map hr, hasForm_obj, namedOnce_map hr, cellsOk_map hr]
      have hkeys : (ms.map normalizeMember).map Prod.fst = ms.map Prod.fst := by
        rw [List.map_map]
        rfl
      rw [hkeys]
      constructor
      · rintro ⟨hm, hd⟩
        have hv : ∀ k v, Json.lookup k ms = some v →
            validUtf8 k.bytes = true ∧ NamedOnce v ∧ CellsOk v := by
          intro k v hl
          have hmem := Json.mem_of_lookup hl
          obtain ⟨hu, hf⟩ := hm _ (List.mem_map_of_mem hmem)
          exact ⟨hu, (ih _ hmem).mp hf⟩
        exact ⟨⟨hd, fun k v hl => (hv k v hl).2.1⟩, fun k v hl => ⟨(hv k v hl).1, (hv k v hl).2.2⟩⟩
      · rintro ⟨⟨hd, hn⟩, hc⟩
        refine ⟨fun m hm => ?_, hd⟩
        obtain ⟨⟨k, v⟩, hmem, rfl⟩ := List.mem_map.mp hm
        have hl := Json.lookup_of_mem hd hmem
        exact ⟨(hc k v hl).1, (ih _ hmem).mpr ⟨hn k v hl, (hc k v hl).2⟩⟩
  | null | bool | num | str | arr => exact hasForm_normalizeNode_leaf (nodeRank_eq_one.mpr rfl)

/-- The form of a map is made of the forms of its members, in whatever order. -/
theorem form_normalizeNode_map {ms : List (CString × Json)} (hr : nodeRank (.obj ms) = 3)
    (h : HasForm (normalizeNode (.obj ms))) :
    form (normalizeNode (.obj ms)) =
      mapBytes (sortPairs ((ms.map normalizeMember).map memberForm)) := by
  rw [normalizeNode_map hr] at h ⊢
  rw [form_obj h, sortPairs_memberForm (hasForm_obj.mp h).2]

/-- The kind of a cell is the kind of an alike one. -/
theorem nodeRank_eq_of_alike {m n : Json} (h : (cellOf m).Alike (cellOf n)) :
    nodeRank m = nodeRank n := by
  rw [← cellOf_rank, ← cellOf_rank]
  cases hm : cellOf m <;> cases hn : cellOf n <;> rw [hm, hn] at h <;>
    first | exact h.elim | rfl

theorem form_normalizeNode_leaf_congr {m n : Json} (hm : nodeRank m = 1)
    (h : (cellOf m).Alike (cellOf n)) : form (normalizeNode m) = form (normalizeNode n) := by
  have hn : nodeRank n = 1 := by rw [← nodeRank_eq_of_alike h, hm]
  rw [cellOf_leaf hm, cellOf_leaf hn] at h
  rw [normalizeNode_leaf hm, normalizeNode_leaf hn]
  exact (sameForm_iff.mp h).2

/-- Alike cells: one canonical form. -/
theorem form_normalizeNode_congr {m n : Json} (hm : HasForm (normalizeNode m))
    (hn : HasForm (normalizeNode n)) (h : ∀ p, CellsAlike (cellAt m p) (cellAt n p)) :
    form (normalizeNode m) = form (normalizeNode n) := by
  induction m using Json.induct generalizing n with
  | obj ms ih =>
    have h0 : (cellOf (.obj ms)).Alike (cellOf n) := h []
    have hrank := nodeRank_eq_of_alike h0
    rcases nodeRank_cases (.obj ms) with hr | hr | hr
    · cases nodeRank_eq_one.mp hr
    · rw [cellOf_orset hr, cellOf_orset (hrank ▸ hr)] at h0
      rw [normalizeNode_orset hr, normalizeNode_orset (hrank ▸ hr)]
      exact congrArg _ (congrArg _ h0)
    · obtain ⟨ns, rfl⟩ := exists_members_of_rank (hrank ▸ hr)
      have hr' : nodeRank (.obj ns) = 3 := hrank ▸ hr
      have hdm := (hasForm_normalizeNode.mp hm).1 [] _ rfl hr
      have hdn := (hasForm_normalizeNode.mp hn).1 [] _ rfl hr'
      rw [form_normalizeNode_map hr hm, form_normalizeNode_map hr' hn]
      rw [normalizeNode_map hr] at hm
      rw [normalizeNode_map hr'] at hn
      have hcell : ∀ k p, CellsAlike ((Json.lookup k ms).bind fun c => cellAt c p)
          ((Json.lookup k ns).bind fun c => cellAt c p) := by
        intro k p
        have hk := h (k :: p)
        rwa [cellAt_cons hr, cellAt_cons hr', Json.get_obj, Json.get_obj] at hk
      have hsome : ∀ k v w, Json.lookup k ms = some v → Json.lookup k ns = some w →
          form (normalizeNode v) = form (normalizeNode w) := by
        intro k v w hv hw
        have hmv := Json.mem_of_lookup hv
        have hmw := Json.mem_of_lookup hw
        refine ih _ hmv ((hasForm_obj.mp hm).1 _ (List.mem_map_of_mem hmv)).2
          ((hasForm_obj.mp hn).1 _ (List.mem_map_of_mem hmw)).2 fun p => ?_
        have hk := hcell k p
        rwa [hv, hw] at hk
      have hnames : ∀ k, (Json.lookup k ms).isSome = (Json.lookup k ns).isSome := by
        intro k
        have hk := hcell k []
        cases hv : Json.lookup k ms <;> cases hw : Json.lookup k ns <;> rw [hv, hw] at hk <;>
          first | rfl | exact hk.elim
      have hmem : ∀ xs : List (CString × Json), (xs.map Prod.fst).Nodup → ∀ q : Bytes × Bytes,
          q ∈ (xs.map normalizeMember).map memberForm ↔
            ∃ k v, Json.lookup k xs = some v ∧ q = (keyForm k, form (normalizeNode v)) := by
        intro xs hd q
        constructor
        · intro hq
          obtain ⟨m', hm', rfl⟩ := List.mem_map.mp hq
          obtain ⟨⟨k, v⟩, hkv, rfl⟩ := List.mem_map.mp hm'
          exact ⟨k, v, Json.lookup_of_mem hd hkv, rfl⟩
        · rintro ⟨k, v, hl, rfl⟩
          exact List.mem_map_of_mem (List.mem_map_of_mem (Json.mem_of_lookup hl))
      have hnod : ∀ xs : List (CString × Json), (xs.map Prod.fst).Nodup →
          (((xs.map normalizeMember).map memberForm).map Prod.fst).Nodup := by
        intro xs hd
        refine memberForm_keys_nodup.mpr ?_
        rw [List.map_map]
        exact hd
      have hperm : ((ms.map normalizeMember).map memberForm).Perm
          ((ns.map normalizeMember).map memberForm) := by
        refine (List.perm_ext_iff_of_nodup (hnod ms hdm).of_map (hnod ns hdn).of_map).mpr
          fun q => ?_
        rw [hmem ms hdm, hmem ns hdn]
        constructor
        · rintro ⟨k, v, hv, rfl⟩
          obtain ⟨w, hw⟩ := Option.isSome_iff_exists.mp (by rw [← hnames k, hv]; rfl)
          exact ⟨k, w, hw, by rw [hsome k v w hv hw]⟩
        · rintro ⟨k, w, hw, rfl⟩
          obtain ⟨v, hv⟩ := Option.isSome_iff_exists.mp (by rw [hnames k, hw]; rfl)
          exact ⟨k, v, hv, by rw [hsome k v w hv hw]⟩
      rw [sortPairs, sortPairs, sortOn_eq_of_perm (hnod ms hdm) hperm]
  | null | bool | num | str | arr =>
    exact form_normalizeNode_leaf_congr (nodeRank_eq_one.mpr rfl) (h [])

/-- One canonical form: alike cells. -/
theorem cellsAlike_of_form_eq {m n : Json} (hm : HasForm (normalizeNode m))
    (hn : HasForm (normalizeNode n)) (h : form (normalizeNode m) = form (normalizeNode n))
    (p : Path) : CellsAlike (cellAt m p) (cellAt n p) := by
  have hnorm := norm_eq_of_form_eq hm hn h
  have h1 := cellAt_norm hm p
  have h2 := cellAt_norm hn p
  rw [cellAt_normalizeNode] at h1 h2
  rw [hnorm] at h1
  exact h1.symm.trans h2

end VoidPalabra
