import VoidPalabra.Same

/-!
# Broken rules, read off two documents that say the same

The index of a mantle files runes under names in the order in which they are kept. Up
to that order two documents that say the same have one index, and every list that is
reported is sorted before it is.
-/

namespace VoidPalabra

open Sorting

/-! ### Filed lists up to their order -/

theorem sortOn_id_eq_iff {κ : Type} [Ord κ] [Std.TransOrd κ] [Std.LawfulEqOrd κ] {xs ys : List κ} :
    sortOn id xs = sortOn id ys ↔ xs.Perm ys :=
  ⟨fun h => (sortOn_perm id xs).symm.trans (h ▸ sortOn_perm id ys), sortOn_id_eq_of_perm⟩

/-- Two maps file the same lists, up to their order. -/
def SameFiled {κ : Type} [Ord κ] [Std.TransOrd κ] (d d' : Std.ExtTreeMap κ (List Bytes) compare) : Prop :=
  ∀ k : κ, (d[k]?).map (sortOn id) = (d'[k]?).map (sortOn id)

section

variable {κ : Type} [Ord κ] [Std.TransOrd κ] [Std.LawfulEqOrd κ]
  {d d' : Std.ExtTreeMap κ (List Bytes) compare}

omit [Std.LawfulEqOrd κ] in
theorem SameFiled.refl (d : Std.ExtTreeMap κ (List Bytes) compare) : SameFiled d d := fun _ => rfl

omit [Std.LawfulEqOrd κ] in
/-- What does not depend on the order of a list is the same of both. -/
theorem SameFiled.map_eq (h : SameFiled d d') {β : Type} {f : List Bytes → β}
    (hf : ∀ xs ys, xs.Perm ys → f xs = f ys) (k : κ) : (d[k]?).map f = (d'[k]?).map f := by
  have hk := h k
  cases hx : d[k]? with
  | none =>
    rw [hx] at hk
    cases hy : d'[k]? with
    | none => rfl
    | some y =>
      rw [hy] at hk
      cases hk
  | some x =>
    rw [hx] at hk
    cases hy : d'[k]? with
    | none =>
      rw [hy] at hk
      cases hk
    | some y =>
      rw [hy] at hk
      exact congrArg some (hf x y (sortOn_id_eq_iff.mp (Option.some.inj hk)))

/-- A list of reports is the same of both. -/
theorem SameFiled.flatMap_toList (h : SameFiled d d') {β : Type} {f : κ × List Bytes → List β}
    (hf : ∀ k xs ys, xs.Perm ys → f (k, xs) = f (k, ys)) : d.toList.flatMap f = d'.toList.flatMap f := by
  rw [List.flatMap_def, List.flatMap_def,
    map_toList_congr fun k => h.map_eq (f := fun xs => f (k, xs)) (hf k) k]

omit [Std.LawfulEqOrd κ] in
/-- Filing one more list keeps maps alike. -/
theorem SameFiled.append (h : SameFiled d d') (k : κ) {xs ys : List Bytes} (hp : xs.Perm ys) :
    SameFiled (d.insert k ((d[k]?.getD []) ++ xs)) (d'.insert k ((d'[k]?.getD []) ++ ys)) := by
  intro j
  rw [Std.ExtTreeMap.getElem?_insert, Std.ExtTreeMap.getElem?_insert]
  split
  · refine congrArg some (sortOn_id_eq_of_perm (List.Perm.append ?_ hp))
    have hk := h k
    cases hx : d[k]? with
    | none =>
      cases hy : d'[k]? with
      | none => exact List.Perm.refl _
      | some y =>
        rw [hx, hy] at hk
        cases hk
    | some x =>
      cases hy : d'[k]? with
      | none =>
        rw [hx, hy] at hk
        cases hk
      | some y =>
        rw [hx, hy] at hk
        exact sortOn_id_eq_iff.mp (Option.some.inj hk)
  · exact h j

end

/-- What a map holds after a list of things was filed in it. -/
theorem getElem?_foldl_push (xs : List (Bytes × Bytes)) (d : Filed) (k : Bytes) :
    (xs.foldl (fun d x => Filed.push d x.1 x.2) d)[k]? =
      if xs.filter (fun x => x.1 = k) = [] then d[k]?
      else some ((d[k]?.getD []) ++ (xs.filter fun x => x.1 = k).map Prod.snd) := by
  induction xs generalizing d with
  | nil => rfl
  | cons x xs ih =>
    rw [List.foldl_cons, ih, List.filter_cons, Filed.push, Std.ExtTreeMap.getElem?_insert]
    by_cases hx : x.1 = k
    · subst hx
      simp only [Std.ReflCmp.compare_self, if_true, decide_true, Option.getD_some, List.append_assoc,
        reduceCtorEq, if_false, List.map_cons, List.singleton_append]
      split
      · rename_i hnil
        rw [hnil]
        rfl
      · rfl
    · have hne : compare x.1 k ≠ .eq := fun he => hx (Std.LawfulEqCmp.eq_of_compare he)
      rw [if_neg hne, if_neg (show ¬decide (x.1 = k) = true by rwa [decide_eq_true_eq])]

/-- Filing the same things in another order files the same. -/
theorem sameFiled_of_perm {xs ys : List (Bytes × Bytes)} (h : xs.Perm ys) (d : Filed) :
    SameFiled (xs.foldl (fun d x => Filed.push d x.1 x.2) d)
      (ys.foldl (fun d x => Filed.push d x.1 x.2) d) := by
  intro k
  have hp := h.filter fun x => decide (x.1 = k)
  rw [getElem?_foldl_push, getElem?_foldl_push]
  by_cases hnil : xs.filter (fun x => x.1 = k) = []
  · have hnil' : ys.filter (fun x => x.1 = k) = [] := by
      rw [hnil] at hp
      exact hp.symm.eq_nil
    rw [if_pos hnil, if_pos hnil']
  · have hnil' : ys.filter (fun x => x.1 = k) ≠ [] := fun he => by
      rw [he] at hp
      exact hnil hp.eq_nil
    rw [if_neg hnil, if_neg hnil']
    exact congrArg some (sortOn_id_eq_of_perm ((hp.map _).append_left _))

/-! ### The index of a mantle -/

/-- The name that a live rune is filed under. -/
def liveEntry (policy : JoinPolicy) (r : CString × Json) : List (Bytes × Bytes) :=
  if alive r.2 then [(shown (get (r.2.get Key.fields) Key.spiritName) Key.spiritName policy, r.1.bytes)]
  else []

/-- The name that a removed rune is filed under. -/
def removedEntry (policy : JoinPolicy) (r : CString × Json) : List (Bytes × Bytes) :=
  if alive r.2 then []
  else if wasPresentAndIsNot r.2 then
    [(shown (get (r.2.get Key.fields) Key.spiritName) Key.spiritName policy, r.1.bytes)]
  else []

/-- The names that a live rune held and holds no longer. -/
def renamedEntries (policy : JoinPolicy) (r : CString × Json) : List (Bytes × Bytes) :=
  let reg := get (r.2.get Key.fields) Key.spiritName
  if alive r.2 then
    ((formerValues reg).filter (· ≠ shown reg Key.spiritName policy)).map fun old => (old, r.1.bytes)
  else []

/-- The glyph that a live rune has. -/
def glyphEntry (policy : JoinPolicy) (r : CString × Json) : List (Bytes × Bytes) :=
  if alive r.2 then [(r.1.bytes, shown (get (r.2.get Key.fields) Key.glyph) Key.glyph policy)] else []

/-- One rune of the index files its entries. -/
theorem indexRune_eq (policy : JoinPolicy) (ix : MantleIndex) (r : CString × Json) :
    indexRune policy ix r = {
      liveNames := (liveEntry policy r).foldl (fun d x => Filed.push d x.1 x.2) ix.liveNames
      removed := (removedEntry policy r).foldl (fun d x => Filed.push d x.1 x.2) ix.removed
      renamedFrom := (renamedEntries policy r).foldl (fun d x => Filed.push d x.1 x.2) ix.renamedFrom
      glyphOf := (glyphEntry policy r).foldl (fun d x => d.insert x.1 x.2) ix.glyphOf } := by
  unfold indexRune liveEntry removedEntry renamedEntries glyphEntry
  dsimp only
  cases alive r.2 with
  | true =>
    simp only [if_true, List.foldl_cons, List.foldl_nil, List.foldl_map]
  | false =>
    simp only [Bool.false_eq_true, if_false, List.foldl_nil]
    split <;> rfl

/-- The index of a mantle files the entries of all its runes. -/
theorem foldl_indexRune (policy : JoinPolicy) (rs : List (CString × Json)) (ix : MantleIndex) :
    rs.foldl (indexRune policy) ix = {
      liveNames := (rs.flatMap (liveEntry policy)).foldl (fun d x => Filed.push d x.1 x.2) ix.liveNames
      removed := (rs.flatMap (removedEntry policy)).foldl (fun d x => Filed.push d x.1 x.2) ix.removed
      renamedFrom := (rs.flatMap (renamedEntries policy)).foldl
        (fun d x => Filed.push d x.1 x.2) ix.renamedFrom
      glyphOf := (rs.flatMap (glyphEntry policy)).foldl (fun d x => d.insert x.1 x.2) ix.glyphOf } := by
  induction rs generalizing ix with
  | nil => rfl
  | cons r rs ih =>
    rw [List.foldl_cons, ih, indexRune_eq]
    simp only [List.flatMap_cons, List.foldl_append]

/-- Two indexes of a mantle that file the same. -/
structure MantleIndex.Same (ix ix' : MantleIndex) : Prop where
  /-- The names of live runes. -/
  liveNames : SameFiled ix.liveNames ix'.liveNames
  /-- The names of removed runes. -/
  removed : SameFiled ix.removed ix'.removed
  /-- The former names. -/
  renamedFrom : SameFiled ix.renamedFrom ix'.renamedFrom
  /-- The glyphs. -/
  glyphOf : ix.glyphOf = ix'.glyphOf

/-- Two nodes of a thing from which the same registers are read. -/
structure ReadAlike (v w : Json) : Prop where
  /-- Its presence. -/
  present : orsetFromJson (v.get Key.present) = orsetFromJson (w.get Key.present)
  /-- Its registers. -/
  field : ∀ f, orsetFromJson (get (v.get Key.fields) f) = orsetFromJson (get (w.get Key.fields) f)

namespace ReadAlike

variable {v w : Json} (h : ReadAlike v w)

include h

theorem alive_eq : alive v = alive w := by
  rw [alive, alive, h.present]

theorem wasPresentAndIsNot_eq : wasPresentAndIsNot v = wasPresentAndIsNot w := by
  rw [wasPresentAndIsNot, wasPresentAndIsNot, h.present]

theorem shown_eq (f : CString) (policy : JoinPolicy) :
    shown (get (v.get Key.fields) f) f policy = shown (get (w.get Key.fields) f) f policy := by
  rw [shown, shown, resolve, resolve, h.field]

theorem formerValues_eq (f : CString) :
    formerValues (get (v.get Key.fields) f) = formerValues (get (w.get Key.fields) f) := by
  rw [formerValues, formerValues, h.field]

/-- A rune files the same entries. -/
theorem entries_eq (policy : JoinPolicy) (k : CString) :
    liveEntry policy (k, v) = liveEntry policy (k, w) ∧
      removedEntry policy (k, v) = removedEntry policy (k, w) ∧
      renamedEntries policy (k, v) = renamedEntries policy (k, w) ∧
      glyphEntry policy (k, v) = glyphEntry policy (k, w) := by
  unfold liveEntry removedEntry renamedEntries glyphEntry
  simp only [h.alive_eq, h.wasPresentAndIsNot_eq, h.shown_eq, h.formerValues_eq, and_self]

end ReadAlike

/-- The lists that a map files under a key are the same up to their order. -/
theorem SameFiled.cases {κ : Type} [Ord κ] [Std.TransOrd κ] [Std.LawfulEqOrd κ]
    {d d' : Std.ExtTreeMap κ (List Bytes) compare} (h : SameFiled d d') (k : κ) :
    (d[k]? = none ∧ d'[k]? = none) ∨ ∃ xs ys, d[k]? = some xs ∧ d'[k]? = some ys ∧ xs.Perm ys := by
  have hk := h k
  cases hx : d[k]? with
  | none =>
    rw [hx] at hk
    exact .inl ⟨rfl, by simpa using hk.symm⟩
  | some x =>
    rw [hx] at hk
    obtain ⟨y, hy, he⟩ := Option.map_eq_some_iff.mp hk.symm
    exact .inr ⟨x, y, rfl, hy, (sortOn_id_eq_iff.mp he).symm⟩

/-- Two indexes of documents that file the same. -/
def SameIndex (index index' : Std.ExtTreeMap Bytes MantleIndex compare) : Prop :=
  ∀ k : Bytes, (index[k]? = none ∧ index'[k]? = none) ∨
    ∃ ix ix', index[k]? = some ix ∧ index'[k]? = some ix' ∧ ix.Same ix'

section

variable {ix ix' : MantleIndex} {index index' : Std.ExtTreeMap Bytes MantleIndex compare}

theorem contains_eq_of_sameFiled {d d' : Filed} (h : SameFiled d d') (k : Bytes) :
    d.contains k = d'.contains k := by
  rw [Std.ExtTreeMap.contains_eq_isSome_getElem?, Std.ExtTreeMap.contains_eq_isSome_getElem?]
  rcases h.cases k with ⟨hx, hy⟩ | ⟨xs, ys, hx, hy, -⟩
  · rw [hx, hy]
  · rw [hx, hy]
    rfl

/-- Whether an end is broken, and why, is the same of both. -/
theorem SameIndex.brokenEnd_cases (h : SameIndex index index') (m r : Bytes) :
    (brokenEnd index m r = none ∧ brokenEnd index' m r = none) ∨
      ∃ cause xs ys, brokenEnd index m r = some (cause, xs) ∧
        brokenEnd index' m r = some (cause, ys) ∧ xs.Perm ys := by
  unfold brokenEnd
  rcases h m with ⟨hx, hy⟩ | ⟨ix, ix', hx, hy, hs⟩
  · rw [hx, hy]
    exact .inl ⟨rfl, rfl⟩
  · rw [hx, hy]
    simp only [Option.bind_eq_bind, Option.bind_some]
    rw [← contains_eq_of_sameFiled hs.liveNames]
    split
    · exact .inl ⟨rfl, rfl⟩
    · rcases hs.removed.cases r with ⟨ha, hb⟩ | ⟨xs, ys, ha, hb, hp⟩
      · rw [ha, hb]
        rcases hs.renamedFrom.cases r with ⟨hc, hd⟩ | ⟨xs, ys, hc, hd, hp⟩
        · rw [hc, hd]
          exact .inl ⟨rfl, rfl⟩
        · rw [hc, hd]
          exact .inr ⟨_, xs, ys, rfl, rfl, hp⟩
      · rw [ha, hb]
        exact .inr ⟨_, xs, ys, rfl, rfl, hp⟩

theorem SameIndex.fileEnd_same (h : SameIndex index index') (own : Bytes)
    {found found' : Std.ExtTreeMap (List Bytes) (List Bytes) compare} (hf : SameFiled found found')
    (e : Option Json) : SameFiled (fileEnd index own found e) (fileEnd index' own found' e) := by
  unfold fileEnd
  cases endpoint e own with
  | none => exact hf
  | some x =>
    obtain ⟨tm, tr⟩ := x
    dsimp only
    rcases h.brokenEnd_cases tm tr with ⟨hx, hy⟩ | ⟨cause, xs, ys, hx, hy, hp⟩
    · rw [hx, hy]
      exact hf
    · rw [hx, hy]
      exact hf.append _ hp

/-- The links of a list of edges are filed alike. -/
theorem SameIndex.fileEdges_same (h : SameIndex index index') (own : Bytes) (edges : List Bytes)
    {found found' : Std.ExtTreeMap (List Bytes) (List Bytes) compare} (hf : SameFiled found found') :
    SameFiled (edges.foldl (fileEdge index own) found) (edges.foldl (fileEdge index' own) found') := by
  induction edges generalizing found found' with
  | nil => exact hf
  | cons e edges ih =>
    refine ih ?_
    simp only [fileEdge, List.foldl_cons, List.foldl_nil]
    exact h.fileEnd_same own (h.fileEnd_same own hf _) _

/-- The broken links of a mantle are the same. -/
theorem SameIndex.links_eq (h : SameIndex index index') {k : CString} {v w : Json}
    (ha : alive v = alive w)
    (he : orsetFromJson (v.get Key.edges) = orsetFromJson (w.get Key.edges)) :
    linkAnomalies index (k, v) = linkAnomalies index' (k, w) := by
  unfold linkAnomalies
  dsimp only
  rw [ha, he]
  refine ite_congr rfl (fun _ => rfl) fun _ => ?_
  have hf := h.fileEdges_same k.bytes (orsetFromJson (w.get Key.edges)).values (SameFiled.refl ∅)
  refine map_toList_congr fun key => hf.map_eq (fun xs ys hp => ?_) key
  rw [sortUnique_congr fun b => hp.mem_iff]

/-- The names that two runes hold are the same. -/
theorem MantleIndex.Same.names_eq (h : ix.Same ix') (m : Bytes) :
    nameAnomalies m ix = nameAnomalies m ix' := by
  have hflat : ∀ ix : MantleIndex, nameAnomalies m ix = ix.liveNames.toList.flatMap fun kv =>
      if !(kv.2.length < 2 || kv.1.isEmpty) then
        [{ kind := .duplicateName, mantle := m, subject := kv.1, runes := sortUnique kv.2 }]
      else [] := by
    intro ix
    unfold nameAnomalies
    induction ix.liveNames.toList with
    | nil => rfl
    | cons kv rest ih =>
      rw [List.filter_cons, List.flatMap_cons]
      split <;> simp_all
  rw [hflat, hflat]
  refine h.liveNames.flatMap_toList fun k xs ys hp => ?_
  rw [hp.length_eq, sortUnique_congr fun b => hp.mem_iff]

theorem MantleIndex.Same.types_eq (h : ix.Same ix') (removed : ByteSet) (m : Bytes) :
    typeAnomalies removed m ix = typeAnomalies removed m ix' := by
  rw [typeAnomalies, typeAnomalies, h.glyphOf]

end

/-! ### The rules of a document -/

/-- The entry of a mantle in the index. -/
def mantleEntry (policy : JoinPolicy) (m : CString × Json) : List (Bytes × MantleIndex) :=
  if alive m.2 then [(m.1.bytes, indexMantle policy m.2)] else []

theorem mantleIndex_eq (root : Json) (policy : JoinPolicy) :
    mantleIndex root policy = ((childMembers (root.get Key.mantles)).flatMap (mantleEntry policy)).foldl
      (fun d x => d.insert x.1 x.2) ∅ := by
  unfold mantleIndex
  generalize (∅ : Std.ExtTreeMap Bytes MantleIndex compare) = d
  induction childMembers (root.get Key.mantles) generalizing d with
  | nil => rfl
  | cons m ms ih =>
    rw [List.foldl_cons, ih, List.flatMap_cons, List.foldl_append, mantleEntry]
    split <;> rfl

/-- Entries that carry the name of the member they come from, one for each member at most, are
distinct. -/
theorem entries_nodup {γ : Type} {key : γ → Bytes} {ms : List (CString × Json)}
    {f : CString × Json → List γ} (hd : (ms.map Prod.fst).Nodup) (hone : ∀ m, (f m).length ≤ 1)
    (hkey : ∀ m, ∀ x ∈ f m, key x = m.1.bytes) : ((ms.flatMap f).map key).Nodup := by
  have hsub : ∀ ms : List (CString × Json),
      ((ms.flatMap f).map key).Sublist (ms.map fun m => m.1.bytes) := by
    intro ms
    induction ms with
    | nil => exact List.Sublist.refl _
    | cons m ms ih =>
      rw [List.flatMap_cons, List.map_append, List.map_cons]
      have hm : ((f m).map key).Sublist [m.1.bytes] := by
        match hf : f m, hone m with
        | [], _ => exact List.nil_sublist _
        | [x], _ => rw [List.map_singleton, hkey m x (by rw [hf]; simp)]
        | _ :: _ :: _, h => simp at h
      exact hm.append ih
  refine List.Nodup.sublist (hsub ms) ?_
  have hinj := List.Nodup.map (f := CString.bytes) (fun _ _ => CString.ext) hd
  rwa [List.map_map] at hinj

/-- The glyphs of a mantle's runes are filed under distinct names. -/
theorem glyphEntries_nodup {rs : List (CString × Json)} (hd : (rs.map Prod.fst).Nodup)
    (policy : JoinPolicy) : ((rs.flatMap (glyphEntry policy)).map Prod.fst).Nodup := by
  refine entries_nodup hd (fun m => ?_) fun m x hx => ?_
  · unfold glyphEntry
    split <;> simp
  · unfold glyphEntry at hx
    split at hx
    · rw [List.mem_singleton.mp hx]
    · cases hx

/-- Mantles are indexed under distinct names. -/
theorem mantleEntries_nodup {ms : List (CString × Json)} (hd : (ms.map Prod.fst).Nodup)
    (policy : JoinPolicy) : ((ms.flatMap (mantleEntry policy)).map Prod.fst).Nodup := by
  refine entries_nodup hd (fun m => ?_) fun m x hx => ?_
  · unfold mantleEntry
    split <;> simp
  · unfold mantleEntry at hx
    split at hx
    · rw [List.mem_singleton.mp hx]
    · cases hx

namespace SameDoc

variable {A B : Json} (h : SameDoc A B) {policy : JoinPolicy}

include h

theorem root_get (k : CString) : A.get k = nodeAt A [k] ∧ B.get k = nodeAt B [k] :=
  ⟨h.left.get_of_nodeAt (p := []) rfl rfl k, h.right.get_of_nodeAt (p := []) rfl rfl k⟩

/-- The nodes of a thing in the two documents are read alike. -/
theorem readAlike {base : Path} (hb : ThingAt base) {v w : Json} (hv : nodeAt A base = some v)
    (hw : nodeAt B base = some w) : ReadAlike v w where
  present := by rw [h.left.read_present hb hv, h.right.read_present hb hw, h.sets]
  field := fun f => by rw [h.left.read_field hb hv, h.right.read_field hb hw, h.sets]

/-- A mantle is indexed alike. -/
theorem indexMantle_same {name : CString} (hname : name.isEmpty = false) {v w : Json}
    (hv : nodeAt A [Key.mantles, name] = some v) (hw : nodeAt B [Key.mantles, name] = some w) :
    (indexMantle policy v).Same (indexMantle policy w) := by
  have hb := atKind_mantle hname
  have hk : kindOf [Key.mantles, name, Key.runes] = some .map := hb [Key.runes]
  have hread : ∀ r x y, nodeAt A ([Key.mantles, name, Key.runes] ++ [r]) = some x →
      nodeAt B ([Key.mantles, name, Key.runes] ++ [r]) = some y → ReadAlike x y :=
    fun r x y hx hy => h.readAlike
      (hb.rune (h.left.name_ne_empty hb.namedAt_runes (k := r) hx)).rune_thing hx hy
  have hA : childMembers (v.get Key.runes) = childMembers (nodeAt A [Key.mantles, name, Key.runes]) := by
    rw [h.left.get_of_nodeAt hv hb.mantle_thing.map]
    rfl
  have hB : childMembers (w.get Key.runes) = childMembers (nodeAt B [Key.mantles, name, Key.runes]) := by
    rw [h.right.get_of_nodeAt hw hb.mantle_thing.map]
    rfl
  rw [indexMantle, indexMantle, hA, hB, foldl_indexRune, foldl_indexRune]
  constructor
  · exact sameFiled_of_perm (h.flatMap_perm hk fun r x y hx hy =>
      ((hread r x y hx hy).entries_eq policy r).1) _
  · exact sameFiled_of_perm (h.flatMap_perm hk fun r x y hx hy =>
      ((hread r x y hx hy).entries_eq policy r).2.1) _
  · exact sameFiled_of_perm (h.flatMap_perm hk fun r x y hx hy =>
      ((hread r x y hx hy).entries_eq policy r).2.2.1) _
  · exact foldl_insert_eq_of_perm (glyphEntries_nodup (h.left.namesAt_nodup hk) policy)
      (h.flatMap_perm hk fun r x y hx hy => ((hread r x y hx hy).entries_eq policy r).2.2.2)

/-- An entry of one index is matched by an entry of the other. -/
theorem mem_mantleEntries {k : Bytes} {ix : MantleIndex}
    (hx : (k, ix) ∈ (childMembers (A.get Key.mantles)).flatMap (mantleEntry policy)) :
    ∃ ix', (k, ix') ∈ (childMembers (B.get Key.mantles)).flatMap (mantleEntry policy) ∧
      ix.Same ix' := by
  obtain ⟨⟨name, v⟩, hm, he⟩ := List.mem_flatMap.mp hx
  rw [(h.root_get _).1] at hm
  have hv := (h.left.mem_childMembers (p := [Key.mantles]) (by decide)).mp hm
  have hname := h.left.name_ne_empty (k := name) namedAt_mantles hv
  obtain ⟨w, hw⟩ := Option.isSome_iff_exists.mp
    ((h.nodes ([Key.mantles] ++ [name])).mp (by rw [HasNode, hv]; rfl))
  have hread := h.readAlike (atKind_mantle hname).mantle_thing hv hw
  unfold mantleEntry at he
  split at he
  · rename_i ha
    cases List.mem_singleton.mp he
    refine ⟨indexMantle policy w, List.mem_flatMap.mpr ⟨(name, w), ?_, ?_⟩,
      h.indexMantle_same hname hv hw⟩
    · rw [(h.root_get _).2]
      exact (h.right.mem_childMembers (p := [Key.mantles]) (by decide)).mpr hw
    · rw [hread.alive_eq] at ha
      simp [mantleEntry, ha]
  · cases he

/-- The indexes of the two documents file the same. -/
theorem sameIndex (policy : JoinPolicy) : SameIndex (mantleIndex A policy) (mantleIndex B policy) := by
  have hnodup : ∀ (root : Json), Shaped root →
      (((childMembers (root.get Key.mantles)).flatMap (mantleEntry policy)).map Prod.fst).Nodup := by
    intro root hr
    rw [hr.get_of_nodeAt (p := []) rfl rfl]
    exact mantleEntries_nodup (hr.namesAt_nodup (p := [Key.mantles]) (by decide)) policy
  intro k
  rw [mantleIndex_eq, mantleIndex_eq]
  cases hx : (((childMembers (A.get Key.mantles)).flatMap (mantleEntry policy)).foldl
      (fun d x => d.insert x.1 x.2) (∅ : Std.ExtTreeMap Bytes MantleIndex compare))[k]? with
  | some ix =>
    obtain ⟨ix', hm, hs⟩ := h.mem_mantleEntries ((getElem?_foldl_insert_eq_some (hnodup A h.left)).mp hx)
    exact .inr ⟨ix, ix', rfl, (getElem?_foldl_insert_eq_some (hnodup B h.right)).mpr hm, hs⟩
  | none =>
    refine .inl ⟨rfl, ?_⟩
    by_contra hne
    obtain ⟨ix', hy⟩ := Option.ne_none_iff_exists'.mp hne
    obtain ⟨ix, hm, -⟩ := h.symm.mem_mantleEntries
      ((getElem?_foldl_insert_eq_some (hnodup B h.right)).mp hy)
    rw [(getElem?_foldl_insert_eq_some (hnodup A h.left)).mpr hm] at hx
    cases hx

/-- The glyphs that were undeclared are the same. -/
theorem removedGlyphs_eq : removedGlyphs A = removedGlyphs B := by
  have hmem : ∀ {A B : Json}, SameDoc A B → ∀ g : Bytes, g ∈ removedGlyphs A → g ∈ removedGlyphs B := by
    intro A B h g hg
    unfold removedGlyphs at hg ⊢
    rw [Std.ExtTreeSet.mem_ofList, List.contains_iff_mem, List.mem_map] at hg ⊢
    obtain ⟨⟨k, v⟩, hm, rfl⟩ := hg
    obtain ⟨hm, hgone⟩ := List.mem_filter.mp hm
    rw [(h.root_get _).1] at hm
    have hv := (h.left.mem_childMembers (p := [Key.glyphs]) (by decide)).mp hm
    obtain ⟨w, hw⟩ := Option.isSome_iff_exists.mp
      ((h.nodes ([Key.glyphs] ++ [k])).mp (by rw [HasNode, hv]; rfl))
    have hread := h.readAlike
      (atKind_glyph (h.left.name_ne_empty (k := k) namedAt_glyphs hv)).glyph_thing hv hw
    refine ⟨(k, w), List.mem_filter.mpr ⟨?_, ?_⟩, rfl⟩
    · rw [(h.root_get _).2]
      exact (h.right.mem_childMembers (p := [Key.glyphs]) (by decide)).mpr hw
    · exact (hread.wasPresentAndIsNot_eq).symm.trans hgone
  exact Std.ExtTreeSet.ext_mem fun g => ⟨hmem h g, hmem h.symm g⟩

end SameDoc

/-- What an anomaly of a mantle is determined by. -/
theorem mem_nameAnomalies {m : Bytes} {ix : MantleIndex} {a : Anomaly} (ha : a ∈ nameAnomalies m ix) :
    a.kind = .duplicateName ∧ a.mantle = m ∧ a.cause = [] ∧
      (ix.liveNames[a.subject]?).map sortUnique = some a.runes := by
  obtain ⟨⟨s, xs⟩, hm, rfl⟩ := List.mem_map.mp ha
  have hs := Std.ExtTreeMap.mem_toList_iff_getElem?_eq_some.mp (List.mem_of_mem_filter hm)
  exact ⟨rfl, rfl, rfl, by rw [hs]; rfl⟩

/-- The runes of each glyph that was undeclared. -/
def orphanedBy (removed : ByteSet) (ix : MantleIndex) : Filed :=
  (ix.glyphOf.toList.filter fun kv => removed.contains kv.2).foldl
    (fun d kv => Filed.push d kv.2 kv.1) ∅

theorem mem_typeAnomalies {removed : ByteSet} {m : Bytes} {ix : MantleIndex} {a : Anomaly}
    (ha : a ∈ typeAnomalies removed m ix) :
    a.kind = .typeRemoved ∧ a.mantle = m ∧ a.cause = [] ∧
      ((orphanedBy removed ix)[a.subject]?).map sortUnique = some a.runes := by
  obtain ⟨⟨s, xs⟩, hm, rfl⟩ := List.mem_map.mp ha
  have hs := Std.ExtTreeMap.mem_toList_iff_getElem?_eq_some.mp hm
  exact ⟨rfl, rfl, rfl, by rw [orphanedBy, hs]; rfl⟩

/-- The broken links of a mantle's edges, by subject and cause. -/
def brokenLinks (index : Std.ExtTreeMap Bytes MantleIndex compare) (own : Bytes) (edges : List Bytes) :
    Std.ExtTreeMap (List Bytes) (List Bytes) compare :=
  edges.foldl (fileEdge index own) ∅

/-- Broken links are filed under a subject and a cause. -/
theorem brokenLinks_key (index : Std.ExtTreeMap Bytes MantleIndex compare) (own : Bytes)
    (edges : List Bytes) {k : List Bytes} (hk : k ∈ brokenLinks index own edges) :
    ∃ s c, k = [s, c] := by
  have hend : ∀ (found : Std.ExtTreeMap (List Bytes) (List Bytes) compare) (e : Option Json),
      (∀ k ∈ found, ∃ s c, k = [s, c]) → ∀ k ∈ fileEnd index own found e, ∃ s c, k = [s, c] := by
    intro found e hf k hk
    unfold fileEnd at hk
    split at hk
    · exact hf k hk
    · split at hk
      · exact hf k hk
      · rcases Std.ExtTreeMap.mem_insert.mp hk with he | hk
        · exact ⟨_, _, (Std.LawfulEqCmp.eq_of_compare he).symm⟩
        · exact hf k hk
  have hall : ∀ (edges : List Bytes) (found : Std.ExtTreeMap (List Bytes) (List Bytes) compare),
      (∀ k ∈ found, ∃ s c, k = [s, c]) →
      ∀ k ∈ edges.foldl (fileEdge index own) found, ∃ s c, k = [s, c] := by
    intro edges
    induction edges with
    | nil => exact fun found hf => hf
    | cons e edges ih =>
      intro found hf
      refine ih _ ?_
      simp only [fileEdge, List.foldl_cons, List.foldl_nil]
      exact hend _ _ (hend _ _ hf)
  exact hall edges ∅ (by simp) k hk

theorem mem_linkAnomalies {index : Std.ExtTreeMap Bytes MantleIndex compare} {m : CString × Json}
    {a : Anomaly} (ha : a ∈ linkAnomalies index m) :
    a.kind = .linkBroken ∧ a.mantle = m.1.bytes ∧
      ((brokenLinks index m.1.bytes (orsetFromJson (m.2.get Key.edges)).values)[[a.subject, a.cause]]?).map
        sortUnique = some a.runes := by
  unfold linkAnomalies at ha
  split at ha
  · cases ha
  · obtain ⟨⟨k, xs⟩, hm, rfl⟩ := List.mem_map.mp ha
    have hs := Std.ExtTreeMap.mem_toList_iff_getElem?_eq_some.mp hm
    obtain ⟨s, c, rfl⟩ := brokenLinks_key index m.1.bytes (orsetFromJson (m.2.get Key.edges)).values
      (by rw [Std.ExtTreeMap.mem_iff_isSome_getElem?, brokenLinks, hs]; rfl)
    exact ⟨rfl, rfl, by
      change (_[[s, c]]?).map sortUnique = _
      rw [brokenLinks, hs]
      rfl⟩

section

variable {root : Json} (h : Shaped root) {policy : JoinPolicy}

include h

/-- What names an anomaly tells it from the others that a document reports. -/
theorem Shaped.anomaly_of_sortKey {index : Std.ExtTreeMap Bytes MantleIndex compare} {removed : ByteSet}
    {a b : Anomaly}
    (ha : a ∈ index.toList.flatMap (fun kv => nameAnomalies kv.1 kv.2 ++ typeAnomalies removed kv.1 kv.2) ++
      (childMembers (root.get Key.mantles)).flatMap (linkAnomalies index))
    (hb : b ∈ index.toList.flatMap (fun kv => nameAnomalies kv.1 kv.2 ++ typeAnomalies removed kv.1 kv.2) ++
      (childMembers (root.get Key.mantles)).flatMap (linkAnomalies index))
    (he : a.sortKey = b.sortKey) : a = b := by
  -- an anomaly is one of three kinds, and its list of runes follows from its names
  have hcases : ∀ x, x ∈ index.toList.flatMap
        (fun kv => nameAnomalies kv.1 kv.2 ++ typeAnomalies removed kv.1 kv.2) ++
        (childMembers (root.get Key.mantles)).flatMap (linkAnomalies index) →
      (x.kind = .duplicateName ∧ (index[x.mantle]?).bind (fun ix =>
          (ix.liveNames[x.subject]?).map sortUnique) = some x.runes) ∨
        (x.kind = .typeRemoved ∧ (index[x.mantle]?).bind (fun ix =>
          ((orphanedBy removed ix)[x.subject]?).map sortUnique) = some x.runes) ∨
        (x.kind = .linkBroken ∧ ∃ name v, nodeAt root [Key.mantles, name] = some v ∧
          x.mantle = name.bytes ∧
          ((brokenLinks index x.mantle (orsetFromJson (v.get Key.edges)).values)[[x.subject,
            x.cause]]?).map sortUnique = some x.runes) := by
    intro x hx
    rcases List.mem_append.mp hx with hx | hx
    · obtain ⟨⟨m, ix⟩, hm, hx⟩ := List.mem_flatMap.mp hx
      have hix := Std.ExtTreeMap.mem_toList_iff_getElem?_eq_some.mp hm
      rcases List.mem_append.mp hx with hx | hx
      · obtain ⟨hk, rfl, -, hr⟩ := mem_nameAnomalies hx
        exact .inl ⟨hk, by rw [hix]; exact hr⟩
      · obtain ⟨hk, rfl, -, hr⟩ := mem_typeAnomalies hx
        exact .inr (.inl ⟨hk, by rw [hix]; exact hr⟩)
    · obtain ⟨⟨name, v⟩, hm, hx⟩ := List.mem_flatMap.mp hx
      rw [h.get_of_nodeAt (p := []) rfl rfl] at hm
      have hv := (h.mem_childMembers (p := [Key.mantles]) (by decide)).mp hm
      obtain ⟨hk, hm, hr⟩ := mem_linkAnomalies hx
      exact .inr (.inr ⟨hk, name, v, hv, hm, by rw [hm]; exact hr⟩)
  obtain ⟨ka, ma, sa, ca, ra⟩ := a
  obtain ⟨kb, mb, sb, cb, rb⟩ := b
  simp only [Anomaly.sortKey, List.cons.injEq, and_true] at he
  obtain ⟨hkind, rfl, rfl, rfl⟩ := he
  have hruns : ka = kb ∧ ra = rb := by
    rcases hcases _ ha with ⟨hk, hr⟩ | ⟨hk, hr⟩ | ⟨hk, na, va, hva, hna, hr⟩ <;>
      rcases hcases _ hb with ⟨hk', hr'⟩ | ⟨hk', hr'⟩ | ⟨hk', nb, vb, hvb, hnb, hr'⟩ <;>
      dsimp only at hk hk' hr hr' <;> subst hk hk'
    · exact ⟨rfl, Option.some.inj (hr.symm.trans hr')⟩
    · exact absurd hkind (by decide)
    · exact absurd hkind (by decide)
    · exact absurd hkind (by decide)
    · exact ⟨rfl, Option.some.inj (hr.symm.trans hr')⟩
    · exact absurd hkind (by decide)
    · exact absurd hkind (by decide)
    · exact absurd hkind (by decide)
    · obtain rfl : na = nb := CString.ext (hna.symm.trans hnb)
      rw [hva] at hvb
      cases hvb
      exact ⟨rfl, Option.some.inj (hr.symm.trans hr')⟩
  rw [hruns.1, hruns.2]

end

/-- The rules that are broken are the same, in the same order. -/
theorem SameDoc.anomalies_eq {A B : Json} (h : SameDoc A B) (policy : JoinPolicy) :
    anomalies A policy = anomalies B policy := by
  have hindex := h.sameIndex policy
  have hflat : (mantleIndex A policy).toList.flatMap
        (fun kv => nameAnomalies kv.1 kv.2 ++ typeAnomalies (removedGlyphs A) kv.1 kv.2) =
      (mantleIndex B policy).toList.flatMap
        (fun kv => nameAnomalies kv.1 kv.2 ++ typeAnomalies (removedGlyphs B) kv.1 kv.2) := by
    rw [List.flatMap_def, List.flatMap_def, h.removedGlyphs_eq]
    refine congrArg List.flatten (map_toList_congr fun k => ?_)
    rcases hindex k with ⟨hx, hy⟩ | ⟨ix, ix', hx, hy, hs⟩
    · simp only [hx, hy, Option.map_none]
    · rw [hx, hy, Option.map_some, Option.map_some, hs.names_eq, hs.types_eq]
  have hlinks : ((childMembers (A.get Key.mantles)).flatMap (linkAnomalies (mantleIndex A policy))).Perm
      ((childMembers (B.get Key.mantles)).flatMap (linkAnomalies (mantleIndex B policy))) := by
    rw [(h.root_get _).1, (h.root_get _).2]
    have hA := h.left.flatMap_childMembers (p := [Key.mantles]) (by decide)
      (f := linkAnomalies (mantleIndex A policy))
      (g := fun k => (nodeAt B ([Key.mantles] ++ [k])).elim [] fun w =>
        linkAnomalies (mantleIndex B policy) (k, w)) fun k v hv => by
        obtain ⟨w, hw⟩ := Option.isSome_iff_exists.mp
          ((h.nodes ([Key.mantles] ++ [k])).mp (by rw [HasNode, hv]; rfl))
        have hb := atKind_mantle (h.left.name_ne_empty (k := k) namedAt_mantles hv)
        rw [hw, Option.elim_some]
        refine hindex.links_eq (h.readAlike hb.mantle_thing hv hw).alive_eq ?_
        rw [h.left.read_elements hb.mantle_thing hv hb.mantle_edges,
          h.right.read_elements hb.mantle_thing hw hb.mantle_edges, h.sets]
    have hB := h.right.flatMap_childMembers (p := [Key.mantles]) (by decide)
      (f := linkAnomalies (mantleIndex B policy))
      (g := fun k => (nodeAt B ([Key.mantles] ++ [k])).elim [] fun w =>
        linkAnomalies (mantleIndex B policy) (k, w)) fun k w hw => by rw [hw, Option.elim_some]
    rw [hA, hB]
    exact (h.namesAt_perm (by decide)).flatMap_right _
  unfold anomalies
  dsimp only
  refine sortOn_eq_of_perm_of_inj (fun a ha b hb he => h.left.anomaly_of_sortKey ha hb he) ?_
  rw [hflat]
  exact hlinks.append_left _

end VoidPalabra
