import VoidPalabra.Leaks

/-!
# The projection is a document

What leaves is again a document that is accepted, and none of its sets holds anything that the set of
the document does not hold. Whoever has the document learns nothing from its projection.
-/

namespace VoidPalabra

/-- A part of something of a kind: it is valid, and its sets hold nothing that those of the whole do not
hold. The whole may be missing. -/
structure PartOf (K : Path → Option Kind) (n' : Json) (n : Option Json) : Prop where
  /-- It is of its kind. -/
  valid : Everywhere K NodeValid n'
  /-- Its sets. -/
  sets : ∀ p, (setAt n' p).Extends ((n.map fun n => setAt n p).getD .empty)

section

variable {K : Path → Option Kind} {n : Json}

theorem partOf_self (h : Everywhere K NodeValid n) : PartOf K n (some n) :=
  ⟨h, fun p => OrSet.Extends.refl (setAt n p)⟩

theorem setAt_nil_of_rank (h : nodeRank n = 3) : setAt n [] = .empty :=
  setAt_of_not_set fun m hm => by
    rw [nodeAt_nil, Option.some.injEq] at hm
    rw [← hm, h]
    decide

theorem setAt_cons_of_rank (h : nodeRank n = 3) (k : CString) (p : Path) :
    setAt n (k :: p) = ((n.get k).map fun v => setAt v p).getD .empty := by
  rw [setAt, cellAt_cons h]
  cases n.get k <;> rfl

theorem rank_of_valid (hK : K [] = some .map) (h : Everywhere K NodeValid n) : nodeRank n = 3 := by
  obtain ⟨k, hk, hv⟩ := h [] n rfl
  rw [hK] at hk
  cases hk
  exact hv.1.1

/-- A map of parts is a part of the map. -/
theorem partOf_map (members : List (CString × Json)) {whole : Option Json} (hK : K [] = some .map)
    (hwhole : ∀ w, whole = some w → nodeRank w = 3) (hd : (members.map Prod.fst).Nodup)
    (h : ∀ k v, Json.lookup k members = some v →
      PartOf (fun p => K (k :: p)) v (whole.bind fun w => w.get k)) :
    PartOf K (.obj members) whole := by
  have hvalid : Everywhere K NodeValid (.obj members) :=
    (everywhere_map_get hK).mpr ⟨rfl, hd, fun k v hv => (h k v hv).valid⟩
  have hrank := rank_of_valid hK hvalid
  refine ⟨hvalid, fun p => ?_⟩
  cases p with
  | nil =>
    rw [setAt_nil_of_rank hrank]
    exact ⟨fun t v hv => by simp at hv, fun t ht => by simp at ht⟩
  | cons k p =>
    rw [setAt_cons_of_rank hrank, Json.get_obj]
    cases hk : Json.lookup k members with
    | none => exact ⟨fun t v hv => by simp at hv, fun t ht => by simp at ht⟩
    | some v =>
      have hsets := (h k v hk).sets p
      cases whole with
      | none => exact hsets
      | some w =>
        rw [Option.map_some, Option.getD_some, Option.map_some, Option.getD_some,
          setAt_cons_of_rank (hwhole w rfl)]
        exact hsets

/-- A removal alone. -/
theorem partOf_removalOnly (hK : K [] = some .map) (h : Everywhere K NodeValid n) :
    PartOf K (removalOnly n) (some n) := by
  have hget := ((everywhere_map_get hK).mp h).2.2
  refine partOf_map _ hK (fun w hw => ?_) ?_ fun k v hv => ?_
  · cases hw
    exact rank_of_valid hK h
  · cases n.get Key.present <;> simp [member]
  · rw [lookup_member] at hv
    split at hv
    · rename_i hk
      subst hk
      rw [Option.bind_some, hv]
      exact partOf_self (hget _ v hv)
    · cases hv

/-- Named things are taken or left one by one. -/
theorem partOf_named {below : Path → Option Kind} {ms : List (CString × Json)}
    {f : CString × Json → List (CString × Json)} (h : Everywhere (namedKind below) NodeValid (.obj ms))
    (hname : ∀ m, ∀ x ∈ f m, x.1 = m.1) (hone : ∀ m, (f m).length ≤ 1)
    (hf : ∀ m ∈ ms, Everywhere below NodeValid m.2 → ∀ x ∈ f m, PartOf below x.2 (some m.2)) :
    PartOf (namedKind below) (.obj (ms.flatMap f)) (some (.obj ms)) := by
  obtain ⟨-, hd, hget⟩ := (everywhere_map_get rfl).mp h
  rw [Json.members_obj] at hd
  refine partOf_map _ rfl (fun w hw => ?_) ?_ fun k v hv => ?_
  · cases hw
    exact rank_of_valid rfl h
  · rw [List.map_flatMap]
    refine List.Nodup.sublist ?_ hd
    clear h hd hget hf
    induction ms with
    | nil => simp
    | cons m ms ih =>
      rw [List.flatMap_cons, List.map_cons]
      have h1 := hone m
      cases hfm : f m with
      | nil => exact ih.cons m.1
      | cons x xs =>
        rw [hfm, List.length_cons] at h1
        have hxs : xs = [] := List.length_eq_zero_iff.mp (by omega)
        rw [hxs, List.map_singleton, hname m x (by rw [hfm]; exact List.mem_cons_self)]
        exact ih.cons_cons m.1
  · rw [lookup_flatMap_named hname hd] at hv
    obtain ⟨w, hw, hlook⟩ := Option.bind_eq_some_iff.mp hv
    have hwhole := hget k w hw
    have hkind : (fun p => namedKind below (k :: p)) = below ∨ k.isEmpty = true := by
      cases hk : k.isEmpty with
      | true => exact .inr rfl
      | false =>
        refine .inl (funext fun p => ?_)
        simp [namedKind, hk]
    rcases hkind with hkind | hk
    · rw [hkind] at hwhole ⊢
      rw [Option.bind_some, Json.get_obj, hw]
      exact hf (k, w) (Json.mem_of_lookup hw) hwhole (k, v) (Json.mem_of_lookup hlook)
    · exact absurd hwhole (not_everywhere (by simp [namedKind, hk]))

end

section

variable {share : ExportSet} {policy : JoinPolicy}

theorem length_exportRune (own : CString) (r : CString × Json) : (exportRune share own r).length ≤ 1 := by
  unfold exportRune
  split
  · simp
  · split <;> simp

theorem length_exportMantle (w : Withheld) (m : CString × Json) : (exportMantle share w m).length ≤ 1 := by
  unfold exportMantle
  split
  · split <;> simp
  · simp

/-- A rune, or its removal. -/
theorem partOf_exportRune (own : CString) {r : CString × Json} (h : Everywhere runeKind NodeValid r.2) :
    ∀ x ∈ exportRune share own r, PartOf runeKind x.2 (some r.2) := by
  intro x hx
  unfold exportRune at hx
  split at hx
  · rw [List.mem_singleton.mp hx]
    exact partOf_self h
  · split at hx
    · rw [List.mem_singleton.mp hx]
      exact partOf_removalOnly rfl h
    · cases hx

theorem rank_of_spelled {n : Json} (h : SpelledOrset n) : nodeRank n = 2 :=
  nodeRank_eq_two.mpr (isOrset_of_wellFormed h.wellFormed)

/-- Some edges of a set of edges. -/
theorem partOf_keptEdges {K : Path → Option Kind} (w : Withheld) (own : CString) {n : Json}
    (hK : K [] = some (.set .canonical)) (h : Everywhere K NodeValid n) :
    PartOf K (orsetToJson (keptEdges w own (orsetFromJson (some n)))) (some n) := by
  obtain ⟨hspelled, haccepts⟩ := (everywhere_set hK).mp h
  have hkept := orsetFromJson_keptEdges w own (some n)
  rw [Option.map_some] at hkept
  have hnamed : (keptEdges w own (orsetFromJson (some n))).Named := by
    rw [← hkept]
    exact named_orsetFromJson _
  have hadds : ∀ (t : Tag) (v : Bytes), (keptEdges w own (orsetFromJson (some n))).adds[t]? = some v →
      (orsetFromJson (some n)).adds[t]? = some v := by
    intro t v hv
    rw [keptEdges, Std.ExtTreeMap.getElem?_filter', Option.filter_eq_some_iff] at hv
    exact hv.1
  refine ⟨(everywhere_set hK).mpr ⟨spelledOrset_orsetToJson hnamed, ?_⟩, fun p => ?_⟩
  · rw [orsetFromJson_orsetToJson hnamed]
    exact fun t v hv => haccepts t v (hadds t v hv)
  · rw [Option.map_some, Option.getD_some, setAt_orset (nodeRank_orsetToJson _),
      setAt_orset (rank_of_spelled hspelled)]
    split
    · rw [orsetFromJson_orsetToJson hnamed]
      exact ⟨hadds, fun t ht => ht⟩
    · exact OrSet.Extends.refl _

theorem get_exportedMantle (w : Withheld) (m : CString) (n : Json) (k : CString) :
    (exportedMantle share w (m, n)).get k =
      if k = Key.present then n.get Key.present
      else if k = Key.fields then n.get Key.fields
      else if k = Key.runes then
        some (.obj ((childMembers (n.get Key.runes)).flatMap (exportRune share m)))
      else if k = Key.edges then
        (n.get Key.edges).map fun edges => orsetToJson (keptEdges w m (orsetFromJson (some edges)))
      else none := by
  by_cases hp : k = Key.present
  · rw [if_pos hp, hp, exportedMantle_present]
  by_cases hf : k = Key.fields
  · rw [if_neg hp, if_pos hf, hf, exportedMantle_fields]
  by_cases hr : k = Key.runes
  · rw [if_neg hp, if_neg hf, if_pos hr, hr, exportedMantle_runes]
  by_cases he : k = Key.edges
  · rw [if_neg hp, if_neg hf, if_neg hr, if_pos he, he, exportedMantle_edges]
  · rw [if_neg hp, if_neg hf, if_neg hr, if_neg he, exportedMantle, Json.get_obj]
    simp only [Json.lookup_append, lookup_member, Json.lookup_cons, Json.lookup_nil, Ne.symm hp, Ne.symm hf,
      Ne.symm hr, Ne.symm he, if_false, Option.or_none]

theorem nodup_exportedMantle (w : Withheld) (m : CString × Json) :
    ((exportedMantle share w m).members.map Prod.fst).Nodup := by
  rw [exportedMantle, Json.members_obj]
  cases m.2.get Key.present <;> cases m.2.get Key.fields <;> cases m.2.get Key.edges <;>
    simp only [member, Option.map_some, Option.map_none, List.nil_append, List.append_nil, List.cons_append,
      List.map_cons, List.map_nil] <;> decide

/-- A mantle that may leave, without what is withheld of it. -/
theorem partOf_exportedMantle (w : Withheld) {m : CString × Json} (h : Everywhere mantleKind NodeValid m.2) :
    PartOf mantleKind (exportedMantle share w m) (some m.2) := by
  obtain ⟨own, n⟩ := m
  have hget := ((everywhere_map_get rfl).mp h).2.2
  refine partOf_map (K := mantleKind) (exportedMantle share w (own, n)).members rfl
    (fun w hw => ?_) (nodup_exportedMantle w (own, n)) fun k v hv => ?_
  · cases hw
    exact rank_of_valid rfl h
  · have hk : (exportedMantle share w (own, n)).get k = some v := hv
    rw [Option.bind_some]
    rw [get_exportedMantle] at hk
    split at hk
    · rename_i hp
      subst hp
      rw [hk]
      exact partOf_self (hget _ v hk)
    split at hk
    · rename_i hf
      subst hf
      rw [hk]
      exact partOf_self (hget _ v hk)
    split at hk
    · rename_i hr
      cases hk
      rw [hr]
      cases hrs : n.get Key.runes with
      | none =>
        exact partOf_map _ rfl (fun w hw => by cases hw) (by simp [childMembers]) fun k v hv => by cases hv
      | some rs =>
        have hvalid : Everywhere (namedKind runeKind) NodeValid rs := hget _ rs hrs
        have hobject := ((everywhere_map_get rfl).mp hvalid).1
        cases rs with
        | obj ms =>
          exact partOf_named hvalid (exportRune_name own) (length_exportRune own) fun r _ hr =>
            partOf_exportRune own hr
        | _ => cases hobject
    split at hk
    · rename_i he
      obtain ⟨edges, hedges, rfl⟩ := Option.map_eq_some_iff.mp hk
      rw [he, hedges]
      exact partOf_keptEdges w own rfl (hget _ edges hedges)
    · cases hk

/-- What leaves of a mantle. -/
theorem partOf_exportMantle (w : Withheld) {m : CString × Json} (h : Everywhere mantleKind NodeValid m.2) :
    ∀ x ∈ exportMantle share w m, PartOf mantleKind x.2 (some m.2) := by
  intro x hx
  unfold exportMantle at hx
  split at hx
  · split at hx
    · rw [List.mem_singleton.mp hx]
      exact partOf_removalOnly rfl h
    · cases hx
  · rw [List.mem_singleton.mp hx]
    exact partOf_exportedMantle w h

theorem get_exportable (d : Json) (k : CString) : (exportable d share policy).get k =
    if k = Key.palabra then some (.num Double.one)
    else if k = Key.mantles then (exportable d share policy).get Key.mantles
    else if k = Key.glyphs then d.get Key.glyphs
    else none := by
  by_cases hp : k = Key.palabra
  · rw [if_pos hp, hp]
    rfl
  by_cases hm : k = Key.mantles
  · rw [if_neg hp, if_pos hm, hm]
  have hrest : (exportable d share policy).get k = Json.lookup k (member Key.glyphs (d.get Key.glyphs)) := by
    rw [exportable, Json.get_obj, Json.lookup_append, Json.lookup_cons, Json.lookup_cons, Json.lookup_nil,
      if_neg (Ne.symm hp), if_neg (Ne.symm hm), Option.none_or]
  rw [hrest, if_neg hp, if_neg hm, lookup_member]
  by_cases hg : k = Key.glyphs
  · rw [if_pos hg, if_pos hg.symm]
  · rw [if_neg hg, if_neg (Ne.symm hg)]

theorem valid_of_validate {d : Json} (h : validate d = .ok ()) :
    Everywhere kindOf NodeValid d ∧ d.get Key.palabra = some (.num Double.one) := by
  obtain ⟨⟨hs, hm⟩, hv⟩ := validate_iff.mp h
  refine ⟨fun p n hn => ?_, hm⟩
  obtain ⟨k, hk, hn'⟩ := hs p n hn
  exact ⟨k, hk, hn', fun rule hr => hv p rule n (hr ▸ hk) hn⟩

theorem validate_of_valid {d : Json} (he : Everywhere kindOf NodeValid d)
    (hm : d.get Key.palabra = some (.num Double.one)) : validate d = .ok () := by
  refine validate_iff.mpr ⟨⟨fun p n hn => ?_, hm⟩, fun p rule n hk hn => ?_⟩
  · obtain ⟨k, hk, hv⟩ := he p n hn
    exact ⟨k, hk, hv.1⟩
  · obtain ⟨k, hk', hv⟩ := he p n hn
    rw [hk] at hk'
    cases hk'
    exact hv.2 rule rfl

theorem nodup_exportable (d : Json) : ((exportable d share policy).members.map Prod.fst).Nodup := by
  rw [exportable, Json.members_obj]
  cases d.get Key.glyphs <;>
    simp only [member, List.cons_append, List.nil_append, List.append_nil, List.map_cons, List.map_nil] <;> decide

/-- The projection is a part of the document. -/
theorem partOf_exportable {d : Json} (h : validate d = .ok ()) (share : ExportSet) (policy : JoinPolicy) :
    PartOf kindOf (exportable d share policy) (some d) := by
  obtain ⟨hvalid, hmarker⟩ := valid_of_validate h
  have hget := ((everywhere_map_get rfl).mp hvalid).2.2
  refine partOf_map (K := kindOf) (exportable d share policy).members rfl
    (fun w hw => ?_) (nodup_exportable d) fun k v hv => ?_
  · cases hw
    exact rank_of_valid rfl hvalid
  · have hk : (exportable d share policy).get k = some v := hv
    rw [Option.bind_some]
    rw [get_exportable] at hk
    split at hk
    · rename_i hp
      subst hp
      rw [hk] at hmarker
      rw [hmarker]
      exact partOf_self (hget _ v hmarker)
    split at hk
    · rename_i hm
      rw [get_exportable_mantles] at hk
      cases hk
      rw [hm]
      cases hms : d.get Key.mantles with
      | none =>
        exact partOf_map _ rfl (fun w hw => by cases hw) (by simp [childMembers]) fun k v hv => by cases hv
      | some ms =>
        have hnamed : Everywhere (namedKind mantleKind) NodeValid ms := hget _ ms hms
        have hobject := ((everywhere_map_get rfl).mp hnamed).1
        cases ms with
        | obj ms =>
          exact partOf_named hnamed (exportMantle_name _) (length_exportMantle _) fun m _ hm =>
            partOf_exportMantle _ hm
        | _ => cases hobject
    split at hk
    · rename_i hg
      subst hg
      rw [hk]
      exact partOf_self (hget _ v hk)
    · cases hk

theorem validate_exportable {d : Json} (h : validate d = .ok ()) (share : ExportSet) (policy : JoinPolicy) :
    validate (exportable d share policy) = .ok () :=
  validate_of_valid (partOf_exportable h share policy).valid rfl

/-- A set of the projection is a part of that of the document. -/
theorem setAt_exportable {d : Json} (h : validate d = .ok ()) (share : ExportSet) (policy : JoinPolicy)
    (p : Path) : (setAt (exportable d share policy) p).Extends (setAt d p) :=
  (partOf_exportable h share policy).sets p

/-- Joining a part of a set changes nothing. -/
theorem OrSet.Extends.join_eq {d s : OrSet} (h : d.Extends s) : s.join d = s := by
  refine OrSet.ext_tags (fun t => ?_) fun t => ?_
  · rw [OrSet.join_adds]
    cases hd : d.adds[t]? with
    | none => rw [Option.none_or]
    | some v =>
      rw [h.adds t v hd]
      rfl
  · rw [OrSet.mem_join_removes]
    exact ⟨fun ht => ht.elim id (h.removes t), .inl⟩

theorem OrSet.Extends.trans {a b c : OrSet} (h : a.Extends b) (h' : b.Extends c) : a.Extends c :=
  ⟨fun t v hv => h'.adds t v (h.adds t v hv), fun t ht => h'.removes t (h.removes t ht)⟩

/-- **What leaves is a document that is accepted, and it tells nothing new** to whoever holds at least the
document that it was taken from, whatever is withheld. -/
theorem exportable_tells_nothing_new {d : Json} (h : validate d = .ok ()) (share : ExportSet)
    (policy : JoinPolicy) : validate (exportable d share policy) = .ok () ∧
      (∀ p, (setAt (exportable d share policy) p).Extends (setAt d p)) ∧
      ∀ e, validate e = .ok () → (∀ p, (setAt d p).Extends (setAt e p)) →
        ∀ p, setAt (joinNode e (exportable d share policy)) p = setAt e p := by
  have hpart := validate_exportable h share policy
  refine ⟨hpart, setAt_exportable h share policy, fun e he hd p => ?_⟩
  rw [setAt_joinNode (validate_iff.mp he).1 (validate_iff.mp hpart).1]
  exact ((setAt_exportable h share policy p).trans (hd p)).join_eq

/-- A rune and an edge stay behind, and the device that has them does not notice. -/
theorem exportable_tells_nothing_new_twoNamesDoc :
    validate (exportable twoNamesDoc runesRefused {}) = .ok () ∧
      (∀ p, (setAt (exportable twoNamesDoc runesRefused {}) p).Extends (setAt twoNamesDoc p)) ∧
      ∀ e, validate e = .ok () → (∀ p, (setAt twoNamesDoc p).Extends (setAt e p)) →
        ∀ p, setAt (joinNode e (exportable twoNamesDoc runesRefused {})) p = setAt e p :=
  exportable_tells_nothing_new validate_twoNamesDoc _ _

end

end VoidPalabra
