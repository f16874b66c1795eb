import VoidPalabra.Coded
import VoidPalabra.Explained

/-!
# Which broken rules are listed

A document lists an anomaly for every rule it breaks, and for nothing else, with the runes that
explain the rule. Links are filed under the spelling of their end, so two ends of one spelling
share an anomaly, and the list is exact as long as no such two ends are broken alike.
-/

namespace VoidPalabra

/-- What an anomaly is listed under. -/
def Anomaly.head (a : Anomaly) : AnomalyKind × Bytes × Bytes × Bytes :=
  (a.kind, a.mantle, a.subject, a.cause)

theorem increasing_sortUnique (xs : List Bytes) : Increasing (sortUnique xs) :=
  Std.ExtTreeSet.ordered_toList

namespace Rule

theorem eq_duplicateName {k : Rule} {m n c : Bytes} (h : k.head = (.duplicateName, m, n, c)) :
    k = .duplicateName m n := by
  cases k with
  | duplicateName => simp_all [head]
  | linkBroken => cases congrArg Prod.fst h
  | typeRemoved => cases congrArg Prod.fst h

theorem eq_typeRemoved {k : Rule} {m g c : Bytes} (h : k.head = (.typeRemoved, m, g, c)) :
    k = .typeRemoved m g := by
  cases k with
  | duplicateName => cases congrArg Prod.fst h
  | linkBroken => cases congrArg Prod.fst h
  | typeRemoved => simp_all [head]

theorem eq_linkBroken {k : Rule} {m s c : Bytes} (h : k.head = (.linkBroken, m, s, c)) :
    ∃ target rune why, k = .linkBroken m target rune why ∧ s = linkSubject m target rune ∧
      c = why.text := by
  cases k with
  | duplicateName => cases congrArg Prod.fst h
  | linkBroken m' target rune why =>
    simp only [head, Prod.mk.injEq, true_and] at h
    obtain ⟨rfl, rfl, rfl⟩ := h
    exact ⟨target, rune, why, rfl, rfl, rfl⟩
  | typeRemoved => cases congrArg Prod.fst h

end Rule

/-- An anomaly has the runes that explain the rules it is listed for. -/
structure Anomaly.Lists (root : Json) (policy : JoinPolicy) (a : Anomaly) : Prop where
  /-- A rule is broken. -/
  rule : ∃ k : Rule, k.Broken root policy ∧ k.head = a.head
  /-- The runes are in order. -/
  increasing : Increasing a.runes
  /-- They are those that explain the rules of this name. -/
  runes : ∀ id, id ∈ a.runes ↔ ∃ k : Rule, k.Broken root policy ∧ k.head = a.head ∧
    k.Explains root policy id

section

variable {root : Json} (h : Shaped root) (hv : ValuesAccepted root) {policy : JoinPolicy} {m : Bytes}
  {v : Json}

include h hv

/-! ### Names -/

omit h hv in
theorem mem_nameAnomalies_iff {ix : MantleIndex} {a : Anomaly} : a ∈ nameAnomalies m ix ↔
    ∃ (n : Bytes) (ids : List Bytes), ix.liveNames[n]? = some ids ∧ 2 ≤ ids.length ∧ n ≠ [] ∧
      a = { kind := .duplicateName, mantle := m, subject := n, runes := sortUnique ids } := by
  unfold nameAnomalies
  simp only [List.mem_map, List.mem_filter, Prod.exists, Std.ExtTreeMap.mem_toList_iff_getElem?_eq_some,
    Bool.not_eq_true', Bool.or_eq_false_iff, decide_eq_false_iff_not, not_lt, List.isEmpty_eq_false_iff,
    and_assoc, eq_comm (a := a)]

omit hv in
theorem explains_duplicateName (hm : LiveMantle root m v) {n id : Bytes} :
    (Rule.duplicateName m n).Explains root policy id ↔ LiveNamed policy v n id := by
  constructor
  · rintro ⟨w, hw, hid⟩
    rwa [hm.unique h hw]
  · exact fun hid => ⟨v, hm, hid⟩

theorem lists_of_nameAnomalies (hm : LiveMantle root m v) {a : Anomaly}
    (ha : a ∈ nameAnomalies m (indexMantle policy v)) : a.Lists root policy := by
  have hreads := @LiveMantle.reads root h policy m v hv hm
  obtain ⟨n, ids, hids, hlength, hn, rfl⟩ := mem_nameAnomalies_iff.mp ha
  have hmem : ∀ id, id ∈ ids ↔ (Rule.duplicateName m n).Explains root policy id := fun id =>
    (hreads.liveNames.mem_iff hids id).trans (explains_duplicateName h hm).symm
  have hbroken : (Rule.duplicateName m n).Broken root policy := by
    have hd := hreads.once n ids hids
    match ids, hlength, hd with
    | x :: y :: _, _, hd =>
      refine ⟨hn, x, y, ?_, (hmem x).mp (by simp), (hmem y).mp (by simp)⟩
      exact fun he => (List.nodup_cons.mp hd).1 (he ▸ List.mem_cons_self)
  refine ⟨⟨_, hbroken, rfl⟩, increasing_sortUnique _, fun id => ?_⟩
  rw [mem_sortUnique, hmem]
  constructor
  · exact fun hid => ⟨_, hbroken, rfl, hid⟩
  · rintro ⟨k, -, hk, hid⟩
    rwa [Rule.eq_duplicateName hk] at hid

theorem nameAnomalies_complete {n : Bytes} (hb : (Rule.duplicateName m n).Broken root policy) :
    ∃ v, LiveMantle root m v ∧ ∃ a ∈ nameAnomalies m (indexMantle policy v),
      a.head = (Rule.duplicateName m n).head := by
  obtain ⟨hn, id, id', hne, ⟨v, hm, hid⟩, hid'⟩ := hb
  have hid' := (explains_duplicateName h hm).mp hid'
  have hreads := @LiveMantle.reads root h policy m v hv hm
  obtain ⟨ids, hids⟩ := hreads.liveNames.exists_list hid
  have hlength : 2 ≤ ids.length := by
    have hmem := (hreads.liveNames.mem_iff hids id).mpr hid
    have hmem' := (hreads.liveNames.mem_iff hids id').mpr hid'
    match ids, hmem, hmem' with
    | [x], hmem, hmem' =>
      exact absurd ((List.mem_singleton.mp hmem).trans (List.mem_singleton.mp hmem').symm) hne
    | _ :: _ :: _, _, _ => simp
  exact ⟨v, hm, _, mem_nameAnomalies_iff.mpr ⟨n, ids, hids, hlength, hn, rfl⟩, rfl⟩

/-! ### Types -/

omit h hv in
theorem mem_removedGlyphs {g : Bytes} : g ∈ removedGlyphs root ↔ RemovedGlyph root g := by
  unfold removedGlyphs
  rw [Std.ExtTreeSet.mem_ofList, List.contains_iff_mem, List.mem_map]
  constructor
  · rintro ⟨⟨name, w⟩, hm, rfl⟩
    obtain ⟨hm, hgone⟩ := List.mem_filter.mp hm
    exact ⟨name, w, rfl, hm, hgone⟩
  · rintro ⟨name, w, rfl, hm, hgone⟩
    exact ⟨(name, w), List.mem_filter.mpr ⟨hm, hgone⟩, rfl⟩

theorem files_orphanedBy (hm : LiveMantle root m v) :
    Files (orphanedBy (removedGlyphs root) (indexMantle policy v)) fun g id =>
      RemovedGlyph root g ∧ LiveTyped policy v g id := by
  have hreads := @LiveMantle.reads root h policy m v hv hm
  have hfold : orphanedBy (removedGlyphs root) (indexMantle policy v) =
      (((indexMantle policy v).glyphOf.toList.filter fun kv => (removedGlyphs root).contains kv.2).map
        Prod.swap).foldl (fun d x => Filed.push d x.1 x.2) ∅ := by
    rw [List.foldl_map]
    rfl
  rw [hfold]
  refine (files_foldl_push _).congr fun g id => ?_
  rw [← mem_removedGlyphs, ← hreads.glyphOf]
  constructor
  · intro hx
    obtain ⟨⟨id', g'⟩, hmem, he⟩ := List.mem_map.mp hx
    cases he
    obtain ⟨hmem, hg⟩ := List.mem_filter.mp hmem
    exact ⟨Std.ExtTreeSet.contains_iff_mem.mp hg,
      Std.ExtTreeMap.mem_toList_iff_getElem?_eq_some.mp hmem⟩
  · rintro ⟨hg, hid⟩
    exact List.mem_map.mpr ⟨(id, g), List.mem_filter.mpr
      ⟨Std.ExtTreeMap.mem_toList_iff_getElem?_eq_some.mpr hid,
        Std.ExtTreeSet.contains_iff_mem.mpr hg⟩, rfl⟩

omit h hv in
theorem mem_typeAnomalies_iff {removed : ByteSet} {ix : MantleIndex} {a : Anomaly} :
    a ∈ typeAnomalies removed m ix ↔ ∃ (g : Bytes) (ids : List Bytes),
      (orphanedBy removed ix)[g]? = some ids ∧
        a = { kind := .typeRemoved, mantle := m, subject := g, runes := sortUnique ids } := by
  unfold typeAnomalies
  simp only [List.mem_map, Prod.exists, Std.ExtTreeMap.mem_toList_iff_getElem?_eq_some,
    eq_comm (a := a)]
  rfl

omit hv in
theorem explains_typeRemoved (hm : LiveMantle root m v) {g id : Bytes} :
    (Rule.typeRemoved m g).Explains root policy id ↔ LiveTyped policy v g id := by
  constructor
  · rintro ⟨w, hw, hid⟩
    rwa [hm.unique h hw]
  · exact fun hid => ⟨v, hm, hid⟩

theorem lists_of_typeAnomalies (hm : LiveMantle root m v) {a : Anomaly}
    (ha : a ∈ typeAnomalies (removedGlyphs root) m (indexMantle policy v)) : a.Lists root policy := by
  obtain ⟨g, ids, hids, rfl⟩ := mem_typeAnomalies_iff.mp ha
  have hfiles := @files_orphanedBy root h hv policy m v hm
  obtain ⟨id₀, hg, hid₀⟩ := hfiles.exists_of_list hids
  have hmem : ∀ id, id ∈ ids ↔ (Rule.typeRemoved m g).Explains root policy id := fun id =>
    (hfiles.mem_iff hids id).trans ((and_iff_right hg).trans (explains_typeRemoved h hm).symm)
  have hbroken : (Rule.typeRemoved m g).Broken root policy :=
    ⟨hg, id₀, (explains_typeRemoved h hm).mpr hid₀⟩
  refine ⟨⟨_, hbroken, rfl⟩, increasing_sortUnique _, fun id => ?_⟩
  rw [mem_sortUnique, hmem]
  constructor
  · exact fun hid => ⟨_, hbroken, rfl, hid⟩
  · rintro ⟨k, -, hk, hid⟩
    rwa [Rule.eq_typeRemoved hk] at hid

theorem typeAnomalies_complete {g : Bytes} (hb : (Rule.typeRemoved m g).Broken root policy) :
    ∃ v, LiveMantle root m v ∧ ∃ a ∈ typeAnomalies (removedGlyphs root) m (indexMantle policy v),
      a.head = (Rule.typeRemoved m g).head := by
  obtain ⟨hg, id, v, hm, hid⟩ := hb
  obtain ⟨ids, hids⟩ := (@files_orphanedBy root h hv policy m v hm).exists_list ⟨hg, hid⟩
  exact ⟨v, hm, _, mem_typeAnomalies_iff.mpr ⟨g, ids, hids, rfl⟩, rfl⟩

/-! ### Links -/

/-- The broken links of a mantle are filed under the spelling of their end and the cause. -/
theorem files_brokenLinks (hm : LiveMantle root m v) :
    Files (brokenLinks (mantleIndex root policy) m (orsetFromJson (v.get Key.edges)).values)
      fun key id => ∃ (target rune : Bytes) (why : Cause),
        (Rule.linkBroken m target rune why).Broken root policy ∧
          key = [linkSubject m target rune, why.text] ∧
          (Rule.linkBroken m target rune why).Explains root policy id := by
  rw [brokenLinks_eq]
  -- an end that is filed names a rule that is broken
  have hend : ∀ y, (∃ e ∈ endsOfEdges (orsetFromJson (v.get Key.edges)).values,
      y ∈ brokenEnds (mantleIndex root policy) m e) →
      ∃ (target rune : Bytes) (why : Cause), (Rule.linkBroken m target rune why).Broken root policy ∧
        y.1 = [linkSubject m target rune, why.text] ∧
        ∀ id, id ∈ y.2 ↔ (Rule.linkBroken m target rune why).Explains root policy id := by
    rintro y ⟨e, he, hy⟩
    unfold brokenEnds at hy
    split at hy
    · cases hy
    rename_i target rune hends
    split at hy
    · cases hy
    rename_i cause who hb
    obtain rfl := List.mem_singleton.mp hy
    obtain ⟨why, w, rfl, hw, hno, ⟨id, hid⟩, hwho⟩ := brokenEnd_eq_some h hv hb
    have hexplains : ∀ id, id ∈ who ↔ (Rule.linkBroken m target rune why).Explains root policy id := by
      intro id
      rw [hwho]
      constructor
      · exact fun hid => ⟨w, hw, hid⟩
      · rintro ⟨w', hw', hid⟩
        rwa [hw.unique h hw']
    refine ⟨target, rune, why, ⟨?_, ⟨w, hw, hno⟩, id, ⟨w, hw, hid⟩⟩, rfl, hexplains⟩
    obtain ⟨edge, hedge, he⟩ := List.mem_flatMap.mp he
    rcases List.mem_cons.mp he with rfl | he
    · exact ⟨v, hm, edge, hedge, _, List.mem_cons_self, hends⟩
    · obtain rfl := List.mem_singleton.mp he
      exact ⟨v, hm, edge, hedge, _, List.mem_cons_of_mem _ List.mem_cons_self, hends⟩
  refine (Files.empty.foldl fun y hy => ?_).congr fun key id => ?_
  · obtain ⟨target, rune, why, ⟨-, -, id, hid⟩, -, hmem⟩ := hend y (List.mem_flatMap.mp hy)
    exact List.ne_nil_of_mem ((hmem id).mpr hid)
  · rw [false_or]
    constructor
    · rintro ⟨y, hy, rfl, hid⟩
      obtain ⟨target, rune, why, hb, hkey, hmem⟩ := hend y (List.mem_flatMap.mp hy)
      exact ⟨target, rune, why, hb, hkey, (hmem id).mp hid⟩
    · rintro ⟨target, rune, why, ⟨hlinked, ⟨w, hw, hno⟩, -⟩, rfl, w', hw', hid⟩
      obtain rfl := hw.unique h hw'
      obtain ⟨v', hm', edge, hedge, k, hk, hends⟩ := hlinked
      obtain rfl := hm.unique h hm'
      obtain ⟨who, hb⟩ := exists_brokenEnd h hv hw hno hid
      obtain ⟨why', w', hwhy, hw', -, -, hwho⟩ := brokenEnd_eq_some h hv hb
      obtain rfl := hw.unique h hw'
      refine ⟨([linkSubject m target rune, why.text], who), List.mem_flatMap.mpr
        ⟨get (decode edge) k, List.mem_flatMap.mpr ⟨edge, hedge, ?_⟩, ?_⟩, rfl, ?_⟩
      · rcases List.mem_cons.mp hk with rfl | hk
        · exact List.mem_cons_self
        · obtain rfl := List.mem_singleton.mp hk
          exact List.mem_cons_of_mem _ List.mem_cons_self
      · unfold brokenEnds
        rw [hends]
        dsimp only
        rw [hb]
        exact List.mem_singleton_self _
      · have : why = why' := by cases why <;> cases why' <;> first | rfl | cases hwhy
        exact (hwho id).mpr (this ▸ hid)

omit h hv in
theorem mem_linkAnomalies_iff {index : Std.ExtTreeMap Bytes MantleIndex compare} {name : CString}
    {a : Anomaly} (hm : alive v = true) : a ∈ linkAnomalies index (name, v) ↔
      ∃ (s c : Bytes) (ids : List Bytes),
        (brokenLinks index name.bytes (orsetFromJson (v.get Key.edges)).values)[[s, c]]? = some ids ∧
          a = { kind := .linkBroken, mantle := name.bytes, subject := s, cause := c,
                runes := sortUnique ids } := by
  constructor
  · intro ha
    obtain ⟨hk, hname, hruns⟩ := mem_linkAnomalies ha
    obtain ⟨ids, hids, hr⟩ := Option.map_eq_some_iff.mp hruns
    obtain ⟨kind, mantle, subject, cause, runes⟩ := a
    dsimp only at hk hname hids hr
    subst hk hname hr
    exact ⟨subject, cause, ids, hids, rfl⟩
  · rintro ⟨s, c, ids, hids, rfl⟩
    unfold linkAnomalies
    rw [if_neg (by simp [hm])]
    exact List.mem_map.mpr ⟨([s, c], ids), Std.ExtTreeMap.mem_toList_iff_getElem?_eq_some.mpr hids, rfl⟩

theorem lists_of_linkAnomalies {name : CString} (hm : LiveMantle root name.bytes v) {a : Anomaly}
    (ha : a ∈ linkAnomalies (mantleIndex root policy) (name, v)) : a.Lists root policy := by
  obtain ⟨s, c, ids, hids, rfl⟩ := (mem_linkAnomalies_iff hm.1).mp ha
  have hfiles := @files_brokenLinks root h hv policy name.bytes v hm
  obtain ⟨id₀, target, rune, why, hb, hkey, -⟩ := hfiles.exists_of_list hids
  simp only [List.cons.injEq, and_true] at hkey
  obtain ⟨rfl, rfl⟩ := hkey
  refine ⟨⟨_, hb, rfl⟩, increasing_sortUnique _, fun id => ?_⟩
  rw [mem_sortUnique, hfiles.mem_iff hids]
  constructor
  · rintro ⟨target', rune', why', hb', hkey, hid⟩
    simp only [List.cons.injEq, and_true] at hkey
    refine ⟨_, hb', ?_, hid⟩
    rw [Rule.head, Anomaly.head, hkey.1, hkey.2]
  · rintro ⟨k, hk, hhead, hid⟩
    obtain ⟨target', rune', why', rfl, hs, hc⟩ := Rule.eq_linkBroken hhead
    exact ⟨target', rune', why', hk, congrArg₂ (fun s c => [s, c]) hs hc, hid⟩

theorem linkAnomalies_complete {target rune : Bytes} {why : Cause}
    (hb : (Rule.linkBroken m target rune why).Broken root policy) :
    ∃ (name : CString) (v : Json), name.bytes = m ∧ LiveMantle root m v ∧
      (name, v) ∈ childMembers (root.get Key.mantles) ∧
      ∃ a ∈ linkAnomalies (mantleIndex root policy) (name, v),
        a.head = (Rule.linkBroken m target rune why).head := by
  have hb' := hb
  obtain ⟨⟨v, hm, -⟩, -, id, hid⟩ := hb'
  obtain ⟨ids, hids⟩ := (@files_brokenLinks root h hv policy m v hm).exists_list
    ⟨target, rune, why, hb, rfl, hid⟩
  have hm' := hm
  obtain ⟨ha, name, rfl, hmem⟩ := hm'
  exact ⟨name, v, rfl, hm, hmem, _, (mem_linkAnomalies_iff ha).mpr ⟨_, _, ids, hids, rfl⟩, rfl⟩

/-! ### The whole list -/

/-- What is listed is broken, with the runes that explain it. -/
theorem lists_of_mem {a : Anomaly} (ha : a ∈ anomalies root policy) : a.Lists root policy := by
  unfold anomalies at ha
  rw [Sorting.mem_sortOn] at ha
  rcases List.mem_append.mp ha with ha | ha
  · obtain ⟨⟨m, ix⟩, hix, ha⟩ := List.mem_flatMap.mp ha
    obtain ⟨v, hm, rfl⟩ := (getElem?_mantleIndex h).mp
      (Std.ExtTreeMap.mem_toList_iff_getElem?_eq_some.mp hix)
    rcases List.mem_append.mp ha with ha | ha
    · exact lists_of_nameAnomalies h hv hm ha
    · exact lists_of_typeAnomalies h hv hm ha
  · obtain ⟨⟨name, v⟩, hmem, ha⟩ := List.mem_flatMap.mp ha
    have halive : alive v = true := by
      by_contra hne
      rw [Bool.not_eq_true] at hne
      simp [linkAnomalies, hne] at ha
    exact lists_of_linkAnomalies h hv ⟨halive, name, rfl, hmem⟩ ha

/-- What is broken is listed. -/
theorem exists_mem_of_broken {k : Rule} (hk : k.Broken root policy) :
    ∃ a ∈ anomalies root policy, a.head = k.head := by
  have hindexed : ∀ {m v}, LiveMantle root m v →
      (m, indexMantle policy v) ∈ (mantleIndex root policy).toList := fun hm =>
    Std.ExtTreeMap.mem_toList_iff_getElem?_eq_some.mpr ((getElem?_mantleIndex h).mpr ⟨_, hm, rfl⟩)
  unfold anomalies
  simp only [Sorting.mem_sortOn]
  cases k with
  | duplicateName m n =>
    obtain ⟨v, hm, a, ha, hhead⟩ := nameAnomalies_complete h hv hk
    exact ⟨a, List.mem_append_left _ (List.mem_flatMap.mpr
      ⟨_, hindexed hm, List.mem_append_left _ ha⟩), hhead⟩
  | typeRemoved m g =>
    obtain ⟨v, hm, a, ha, hhead⟩ := typeAnomalies_complete h hv hk
    exact ⟨a, List.mem_append_left _ (List.mem_flatMap.mpr
      ⟨_, hindexed hm, List.mem_append_right _ ha⟩), hhead⟩
  | linkBroken m target rune why =>
    obtain ⟨name, v, rfl, hm, hmem, a, ha, hhead⟩ := linkAnomalies_complete h hv hk
    exact ⟨a, List.mem_append_right _ (List.mem_flatMap.mpr ⟨_, hmem, ha⟩), hhead⟩

end

/-! ### Nothing is listed twice -/

/-- What is made of a map's entries and shows their keys has nothing twice. -/
theorem nodup_map_toList {κ β γ : Type} [Ord κ] [Std.TransOrd κ] {d : Std.ExtTreeMap κ β compare}
    {f : κ × β → γ} {key : γ → κ} (hkey : ∀ kv ∈ d.toList, key (f kv) = kv.1) :
    (d.toList.map f).Nodup := by
  have hd := (Std.ExtTreeMap.distinct_keys_toList (t := d)).imp_of_mem
    (S := fun x y => f x ≠ f y) fun {x y} hx hy hne he => hne (by
      rw [← hkey x hx, ← hkey y hy, he]
      exact Std.ReflCmp.compare_self)
  exact List.pairwise_map.mpr hd

theorem nodup_nameAnomalies (m : Bytes) (ix : MantleIndex) : (nameAnomalies m ix).Nodup := by
  unfold nameAnomalies
  have hall := @nodup_map_toList Bytes (List Bytes) Anomaly _ _ ix.liveNames
    (fun kv => { kind := .duplicateName, mantle := m, subject := kv.1, runes := sortUnique kv.2 })
    Anomaly.subject fun _ _ => rfl
  exact hall.sublist (List.filter_sublist.map _)

theorem nodup_typeAnomalies (removed : ByteSet) (m : Bytes) (ix : MantleIndex) :
    (typeAnomalies removed m ix).Nodup :=
  @nodup_map_toList Bytes (List Bytes) Anomaly _ _ (orphanedBy removed ix)
    (fun kv => { kind := .typeRemoved, mantle := m, subject := kv.1, runes := sortUnique kv.2 })
    Anomaly.subject fun _ _ => rfl

theorem nodup_linkAnomalies (index : Std.ExtTreeMap Bytes MantleIndex compare) (m : CString × Json) :
    (linkAnomalies index m).Nodup := by
  unfold linkAnomalies
  split
  · exact List.nodup_nil
  · refine @nodup_map_toList (List Bytes) (List Bytes) Anomaly _ _
      (brokenLinks index m.1.bytes (orsetFromJson (m.2.get Key.edges)).values) _
      (fun a => [a.subject, a.cause]) fun kv hkv => ?_
    obtain ⟨s, c, hk⟩ := brokenLinks_key index m.1.bytes (orsetFromJson (m.2.get Key.edges)).values
      (Std.ExtTreeMap.mem_iff_isSome_getElem?.mpr (by
        rw [Std.ExtTreeMap.mem_toList_iff_getElem?_eq_some.mp hkv]
        rfl))
    rw [hk]
    rfl

theorem Shaped.nodup_anomalies {root : Json} (h : Shaped root) (policy : JoinPolicy) :
    (anomalies root policy).Nodup := by
  unfold anomalies
  rw [(Sorting.sortOn_perm _ _).nodup_iff, List.nodup_append']
  refine ⟨List.nodup_flatMap.mpr ⟨fun kv _ => ?_, ?_⟩, List.nodup_flatMap.mpr
    ⟨fun m _ => nodup_linkAnomalies _ m, ?_⟩, ?_⟩
  · refine List.nodup_append'.mpr ⟨nodup_nameAnomalies _ _, nodup_typeAnomalies _ _ _, ?_⟩
    intro a ha hb
    have hkind := (mem_nameAnomalies ha).1
    rw [(mem_typeAnomalies hb).1] at hkind
    cases hkind
  · refine Std.ExtTreeMap.distinct_keys_toList.imp fun {x y} hne a ha hb => hne ?_
    have hmantle : ∀ {kv : Bytes × MantleIndex},
        a ∈ nameAnomalies kv.1 kv.2 ++ typeAnomalies (removedGlyphs root) kv.1 kv.2 →
          a.mantle = kv.1 := fun h =>
      (List.mem_append.mp h).elim (fun h => (mem_nameAnomalies h).2.1) fun h => (mem_typeAnomalies h).2.1
    rw [← hmantle ha, ← hmantle hb]
    exact Std.ReflCmp.compare_self
  · have hd : ((childMembers (root.get Key.mantles)).map Prod.fst).Nodup := by
      rw [h.get_of_nodeAt (p := []) rfl rfl]
      exact h.namesAt_nodup (p := [Key.mantles]) (by decide)
    refine (List.pairwise_map.mp hd).imp fun {x y} hne a ha hb => hne ?_
    exact CString.ext ((mem_linkAnomalies ha).2.1.symm.trans (mem_linkAnomalies hb).2.1)
  · intro a ha hb
    obtain ⟨m, -, hb⟩ := List.mem_flatMap.mp hb
    obtain ⟨kv, -, ha⟩ := List.mem_flatMap.mp ha
    have hkind := (mem_linkAnomalies hb).1
    rcases List.mem_append.mp ha with ha | ha
    · rw [(mem_nameAnomalies ha).1] at hkind
      cases hkind
    · rw [(mem_typeAnomalies ha).1] at hkind
      cases hkind

/-- Nothing is listed under one name twice. -/
theorem Shaped.nodup_heads {root : Json} (h : Shaped root) (policy : JoinPolicy) :
    ((anomalies root policy).map Anomaly.head).Nodup := by
  refine (h.nodup_anomalies policy).map_on fun a ha b hb he => ?_
  unfold anomalies at ha hb
  rw [Sorting.mem_sortOn] at ha hb
  refine h.anomaly_of_sortKey ha hb ?_
  simp only [Anomaly.head, Prod.mk.injEq] at he
  rw [Anomaly.sortKey, Anomaly.sortKey, he.1, he.2.1, he.2.2.1, he.2.2.2]

/-! ### Sound and complete -/

/-- An anomaly that reports a rule: it is listed under it, with the runes that explain it, in
order. -/
structure Rule.Reported (root : Json) (policy : JoinPolicy) (k : Rule) (a : Anomaly) : Prop where
  /-- Its name. -/
  head : k.head = a.head
  /-- The runes are in order. -/
  increasing : Increasing a.runes
  /-- They are those that explain it. -/
  runes : ∀ id, id ∈ a.runes ↔ k.Explains root policy id

/-- A list with one anomaly for each rule that a document breaks, and no other, in order. -/
structure SoundComplete (root : Json) (policy : JoinPolicy) (found : List Anomaly) : Prop where
  /-- The rules, one for each anomaly. -/
  reports : ∃ rules : List Rule, rules.Nodup ∧ (∀ k, k ∈ rules ↔ k.Broken root policy) ∧
    List.Forall₂ (Rule.Reported root policy) rules found
  /-- The order is by kind, mantle, subject and cause. -/
  ordered : found.Pairwise (Sorting.KeyLe Anomaly.sortKey)

/-- No mantle has links to two ends that are broken alike and spelled alike. -/
def SpelledApart (root : Json) (policy : JoinPolicy) : Prop :=
  ∀ (m target rune target' rune' : Bytes) (why : Cause),
    (Rule.linkBroken m target rune why).Broken root policy →
    (Rule.linkBroken m target' rune' why).Broken root policy →
    linkSubject m target rune = linkSubject m target' rune' → target = target' ∧ rune = rune'

theorem SpelledApart.eq_of_head {root : Json} {policy : JoinPolicy} (h : SpelledApart root policy)
    {k k' : Rule} (hk : k.Broken root policy) (hk' : k'.Broken root policy) (he : k.head = k'.head) :
    k = k' := by
  cases k' with
  | duplicateName m n => exact Rule.eq_duplicateName he
  | typeRemoved m g => exact Rule.eq_typeRemoved he
  | linkBroken m target rune why =>
    obtain ⟨target', rune', why', rfl, hs, hc⟩ := Rule.eq_linkBroken he
    obtain rfl : why = why' := by cases why <;> cases why' <;> first | rfl | cases hc
    obtain ⟨rfl, rfl⟩ := h m _ _ _ _ why hk hk' hs.symm
    rfl

/-- The reports of a list, taken one by one. -/
theorem exists_rules {root : Json} {policy : JoinPolicy} :
    ∀ {found : List Anomaly}, (∀ a ∈ found, ∃ k : Rule, k.Broken root policy ∧
      k.Reported root policy a) →
      ∃ rules : List Rule, (∀ k ∈ rules, k.Broken root policy) ∧
        List.Forall₂ (Rule.Reported root policy) rules found
  | [], _ => ⟨[], nofun, .nil⟩
  | a :: found, h => by
    obtain ⟨k, hk, hr⟩ := h a List.mem_cons_self
    obtain ⟨rules, hrules, hall⟩ := exists_rules fun b hb => h b (List.mem_cons_of_mem _ hb)
    exact ⟨k :: rules, List.forall_mem_cons.mpr ⟨hk, hrules⟩, .cons hr hall⟩

theorem heads_of_reported {root : Json} {policy : JoinPolicy} {rules : List Rule}
    {found : List Anomaly} (h : List.Forall₂ (Rule.Reported root policy) rules found) :
    rules.map Rule.head = found.map Anomaly.head := by
  induction h with
  | nil => rfl
  | cons hr _ ih => rw [List.map_cons, List.map_cons, hr.head, ih]

/-- **Anomalies are sound and complete** for a valid document exactly when no two ends of links
that are broken alike are spelled alike. -/
theorem soundComplete_iff {root : Json} (hvalid : validate root = .ok ()) (policy : JoinPolicy) :
    SoundComplete root policy (anomalies root policy) ↔ SpelledApart root policy := by
  obtain ⟨h, hv⟩ := validate_iff.mp hvalid
  have hnodup := h.nodup_heads policy
  constructor
  · rintro ⟨⟨rules, -, hmem, hall⟩, -⟩ m target rune target' rune' why hk hk' hs
    rw [← heads_of_reported hall] at hnodup
    have he := List.inj_on_of_nodup_map hnodup ((hmem _).mpr hk) ((hmem _).mpr hk') (by
      rw [Rule.head, Rule.head, hs])
    cases he
    exact ⟨rfl, rfl⟩
  · intro hapart
    have hreported : ∀ a ∈ anomalies root policy, ∃ k : Rule, k.Broken root policy ∧
        k.Reported root policy a := by
      intro a ha
      obtain ⟨⟨k, hk, hhead⟩, hincreasing, hruns⟩ := lists_of_mem h hv ha
      refine ⟨k, hk, hhead, hincreasing, fun id => (hruns id).trans ⟨?_, fun hid => ⟨k, hk, hhead, hid⟩⟩⟩
      rintro ⟨k', hk', hhead', hid⟩
      rwa [← hapart.eq_of_head hk' hk (hhead'.trans hhead.symm)]
    obtain ⟨rules, hrules, hall⟩ := exists_rules hreported
    have hheads := heads_of_reported hall
    refine ⟨⟨rules, ?_, fun k => ⟨hrules k, fun hk => ?_⟩, hall⟩, Sorting.sortOn_pairwise _ _⟩
    · rw [← hheads] at hnodup
      exact hnodup.of_map
    · obtain ⟨a, ha, hhead⟩ := exists_mem_of_broken h hv hk
      have hm := List.mem_map_of_mem (f := Anomaly.head) ha
      rw [← hheads] at hm
      obtain ⟨k', hk', he⟩ := List.mem_map.mp hm
      rwa [← hapart.eq_of_head (hrules k' hk') hk (he.trans hhead)]

/-! ### Two ends of one spelling -/

/-- A set with one value. -/
def oneValue (v : Bytes) : Json :=
  orsetToJson ⟨(∅ : Dict Bytes).insert (.ofLit "x_1") v, ∅⟩

/-- The presence of a thing that was removed. -/
def removedPresence : Json :=
  orsetToJson ⟨(∅ : Dict Bytes).insert (.ofLit "x_1") (lit "1"), (∅ : NameSet).insert (.ofLit "x_1")⟩

/-- A rune that was removed. -/
def removedRune (name : CString) : Json :=
  .obj [(Key.present, removedPresence),
    (Key.fields, .obj [(Key.spiritName, oneValue (form (.str name)))])]

/-- A mantle that is present, with a removed rune and an edge. -/
def mantleWith (name : CString) (edges : List (CString × Json)) : Json :=
  .obj ([(Key.present, oneValue (lit "1")), (Key.runes, .obj [(.ofLit "r", removedRune name)])] ++ edges)

/-- A document of these mantles. -/
def docOf (mantles : List (CString × Json)) : Json :=
  .obj [(Key.palabra, .num Double.one), (Key.mantles, .obj mantles)]

/-- A mantle whose edge begins and ends at a removed rune. -/
def removedEnd : Json := mantleWith (.ofLit "a")
  [(Key.edges, oneValue (form (.obj [(.ofLit "from", .str (.ofLit "a")), (.ofLit "to", .str (.ofLit "a"))])))]

theorem soundComplete_iff_removedEnd :
    SoundComplete (docOf [(.ofLit "m", removedEnd)]) {} (anomalies (docOf [(.ofLit "m", removedEnd)]) {}) ∧
      (anomalies (docOf [(.ofLit "m", removedEnd)]) {}).length = 1 := by
  refine ⟨(soundComplete_iff (by decide +kernel) {}).mpr ?_, by decide +kernel⟩
  have hends : ∀ edge ∈ (orsetFromJson (removedEnd.get Key.edges)).values,
      ∀ k ∈ [CString.ofLit "from", CString.ofLit "to"],
        endpoint (get (decode edge) k) (lit "m") = some (lit "m", lit "a") := by decide +kernel
  have hlinked : ∀ {m target rune : Bytes}, Linked (docOf [(.ofLit "m", removedEnd)]) m target rune →
      target = lit "m" ∧ rune = lit "a" := by
    rintro m target rune ⟨v, ⟨-, name, rfl, hm⟩, edge, hedge, k, hk, he⟩
    cases List.mem_singleton.mp hm
    have := Option.some.inj ((hends edge hedge k hk).symm.trans he)
    cases this
    exact ⟨rfl, rfl⟩
  rintro m target rune target' rune' why ⟨hl, -⟩ ⟨hl', -⟩ -
  rw [(hlinked hl).1, (hlinked hl).2, (hlinked hl').1, (hlinked hl').2]
  exact ⟨rfl, rfl⟩

/-- A mantle whose edge begins at its own removed rune `x/y` and ends at the removed rune `y` of the
mantle `x`. -/
def slashEnds : Json := mantleWith (.ofLit "x/y")
  [(Key.edges, oneValue (form (.obj [(.ofLit "from", .str (.ofLit "x/y")),
    (.ofLit "to", .obj [(.ofLit "mantle", .str (.ofLit "x")), (.ofLit "rune", .str (.ofLit "y"))])])))]

/-- The document of the two mantles. -/
def slashDoc : Json := docOf [(.ofLit "m", slashEnds), (.ofLit "x", mantleWith (.ofLit "y") [])]

/-- The two ends are spelled alike, and the document lists one anomaly for both. -/
theorem slash_ends_merged : validate slashDoc = .ok () ∧ ¬SoundComplete slashDoc {} (anomalies slashDoc {}) := by
  have hfacts : validate slashDoc = .ok () ∧ (anomalies slashDoc {}).length = 1 := by decide +kernel
  refine ⟨hfacts.1, ?_⟩
  rintro ⟨⟨rules, -, hmem, hall⟩, -⟩
  have hm : LiveMantle slashDoc (lit "m") slashEnds :=
    ⟨by decide +kernel, .ofLit "m", rfl, List.mem_cons_self⟩
  have hx : LiveMantle slashDoc (lit "x") (mantleWith (.ofLit "y") []) :=
    ⟨by decide +kernel, .ofLit "x", rfl, List.mem_cons_of_mem _ List.mem_cons_self⟩
  have hends : ∃ edge ∈ (orsetFromJson (slashEnds.get Key.edges)).values,
      endpoint (get (decode edge) (.ofLit "from")) (lit "m") = some (lit "m", lit "x/y") ∧
        endpoint (get (decode edge) (.ofLit "to")) (lit "m") = some (lit "x", lit "y") := by
    decide +kernel
  obtain ⟨edge, hedge, hfrom, hto⟩ := hends
  -- no rune of either mantle is live, and its one rune was removed
  have hno : ∀ (name : CString) (edges : List (CString × Json)) (n id : Bytes),
      ¬LiveNamed {} (mantleWith name edges) n id := by
    rintro name edges n id ⟨r, ⟨k, rfl, hr⟩, ha, -⟩
    cases List.mem_singleton.mp hr
    have hdead : (orsetFromJson (some removedPresence)).isEmpty = true := by decide +kernel
    rw [alive, show (removedRune name).get Key.present = some removedPresence from rfl, hdead] at ha
    cases ha
  have hremoved : ∀ (name : CString) (edges : List (CString × Json)),
      nameShown {} (removedRune name) = name.bytes → RemovedNamed {} (mantleWith name edges) name.bytes (lit "r") := by
    intro name edges hn
    refine ⟨removedRune name, ⟨.ofLit "r", rfl, List.mem_singleton_self _⟩, ?_, hn⟩
    have hgone : (orsetFromJson (some removedPresence)).isEmpty = true ∧
        (orsetFromJson (some removedPresence)).removes.isEmpty = false := by decide +kernel
    rw [wasPresentAndIsNot, show (removedRune name).get Key.present = some removedPresence from rfl, hgone.1,
      hgone.2]
    rfl
  have hown : (Rule.linkBroken (lit "m") (lit "m") (lit "x/y") .removed).Broken slashDoc {} :=
    ⟨⟨_, hm, edge, hedge, _, List.mem_cons_self, hfrom⟩, ⟨_, hm, hno _ _ _⟩, lit "r", _, hm,
      hremoved (.ofLit "x/y") _ (by decide +kernel)⟩
  have hother : (Rule.linkBroken (lit "m") (lit "x") (lit "y") .removed).Broken slashDoc {} :=
    ⟨⟨_, hm, edge, hedge, _, List.mem_cons_of_mem _ List.mem_cons_self, hto⟩, ⟨_, hx, hno _ _ _⟩,
      lit "r", _, hx, hremoved (.ofLit "y") _ (by decide +kernel)⟩
  have hlength := hall.length_eq
  rw [hfacts.2] at hlength
  obtain ⟨k, rfl⟩ := List.length_eq_one_iff.mp hlength
  have he := (List.mem_singleton.mp ((hmem _).mpr hown)).trans
    (List.mem_singleton.mp ((hmem _).mpr hother)).symm
  exact absurd he (by decide)

end VoidPalabra
