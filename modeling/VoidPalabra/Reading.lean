import VoidPalabra.Traversal

/-!
# Reading a document by its paths

What is read off a document is read off its sets and the names in its maps. A thing's
registers, the sets beside them and the names of its fields are gathered into one
record, and what `flatten` shows of a rune or a mantle is a function of it.
-/

namespace VoidPalabra

/-! ### Nodes by path -/

/-- The names below a node, in order. -/
def namesAt (root : Json) (p : Path) : List CString := (childMembers (nodeAt root p)).map Prod.fst

section

variable {root : Json}

theorem nodeAt_none_append {p : Path} (h : nodeAt root p = none) (q : Path) :
    nodeAt root (p ++ q) = none := by
  rw [nodeAt_append, h, Option.bind_none]

/-- What is above a node is a node. -/
theorem hasNode_of_append {p q : Path} (h : HasNode root (p ++ q)) : HasNode root p := by
  by_contra hp
  rw [HasNode, Bool.not_eq_true, Option.isSome_eq_false_iff, Option.isNone_iff_eq_none] at hp
  rw [HasNode, nodeAt_none_append hp] at h
  cases h

theorem Shaped.kindOf_isSome (h : Shaped root) {p : Path} (hn : HasNode root p) :
    (kindOf p).isSome = true := by
  obtain ⟨n, hn⟩ := Option.isSome_iff_exists.mp hn
  obtain ⟨k, hk, -⟩ := h.kinds p n hn
  rw [hk]
  rfl

/-- A member of a map of a document is the node one name below it. -/
theorem Shaped.get_node (h : Shaped root) {p : Path} (hk : kindOf p = some .map) (k : CString) :
    get (nodeAt root p) k = nodeAt root (p ++ [k]) := by
  cases hn : nodeAt root p with
  | none => rw [nodeAt_none_append hn, get_none]
  | some n =>
    obtain ⟨kind, hkind, hs⟩ := h.kinds p n hn
    cases hk.symm.trans hkind
    rw [get_some, nodeAt_append, hn, Option.bind_some, nodeAt_cons, if_pos hs.1]
    cases n.get k <;> rfl

theorem Shaped.get_of_nodeAt (h : Shaped root) {p : Path} {n : Json} (hn : nodeAt root p = some n)
    (hk : kindOf p = some .map) (k : CString) : n.get k = nodeAt root (p ++ [k]) := by
  rw [← h.get_node hk, hn, get_some]

/-- There is nothing at a path without a kind. -/
theorem Shaped.nodeAt_of_kind_none (h : Shaped root) {p : Path} (hk : kindOf p = none) :
    nodeAt root p = none := by
  cases hn : nodeAt root p with
  | none => rfl
  | some n =>
    obtain ⟨kind, hkind, -⟩ := h.kinds p n hn
    rw [hk] at hkind
    cases hkind

/-- What is read at the path of a set is the set. -/
theorem Shaped.orsetFromJson_set (h : Shaped root) {p : Path} (hp : IsSetPath p) :
    orsetFromJson (nodeAt root p) = setAt root p := by
  rw [← orsetFromJson_atPath h hp, atPath_eq_nodeAt (fun q r hr hq => hp.prefix_map hr hq) h.kinds]

/-- What is read where there is no map is the set that is there, if any. -/
theorem Shaped.orsetFromJson_node (h : Shaped root) {p : Path} (hp : kindOf p ≠ some .map)
    (hm : kindOf p ≠ some .marker) : orsetFromJson (nodeAt root p) = setAt root p := by
  cases hk : kindOf p with
  | none => rw [setAt_eq_empty (h.nodeAt_of_kind_none hk), h.nodeAt_of_kind_none hk,
      orsetFromJson_none]
  | some k =>
    cases k with
    | map => exact absurd hk hp
    | marker => exact absurd hk hm
    | set rule => exact h.orsetFromJson_set ⟨rule, hk⟩

/-- The members of a map are the nodes one name below it. -/
theorem Shaped.mem_childMembers (h : Shaped root) {p : Path} (hk : kindOf p = some .map)
    {m : CString × Json} : m ∈ childMembers (nodeAt root p) ↔ nodeAt root (p ++ [m.1]) = some m.2 := by
  refine ⟨fun hm => (h.kindOf_member hk hm).1, fun hv => ?_⟩
  rw [← h.get_node hk] at hv
  obtain ⟨n, hn, hg⟩ := Option.bind_eq_some_iff.mp hv
  rw [Json.get_eq_lookup_members] at hg
  rw [hn]
  exact Json.mem_of_lookup hg

theorem Shaped.mem_namesAt (h : Shaped root) {p : Path} (hk : kindOf p = some .map) {k : CString} :
    k ∈ namesAt root p ↔ HasNode root (p ++ [k]) := by
  rw [HasNode, Option.isSome_iff_exists, namesAt, List.mem_map]
  constructor
  · rintro ⟨m, hm, rfl⟩
    exact ⟨m.2, (h.mem_childMembers hk).mp hm⟩
  · rintro ⟨v, hv⟩
    exact ⟨(k, v), (h.mem_childMembers hk).mpr hv, rfl⟩

/-- No name is there twice. -/
theorem Shaped.namesAt_nodup (h : Shaped root) {p : Path} (hk : kindOf p = some .map) :
    (namesAt root p).Nodup := by
  unfold namesAt
  cases hn : nodeAt root p with
  | none => exact List.nodup_nil
  | some n =>
    obtain ⟨kind, hkind, hs⟩ := h.kinds p n hn
    cases hk.symm.trans hkind
    exact hs.2

/-- What is made of each member of a map is made of each name. -/
theorem Shaped.map_childMembers (h : Shaped root) {p : Path} (hk : kindOf p = some .map) {β : Type}
    {f : CString × Json → β} {g : CString → β}
    (hfg : ∀ k v, nodeAt root (p ++ [k]) = some v → f (k, v) = g k) :
    (childMembers (nodeAt root p)).map f = (namesAt root p).map g := by
  rw [namesAt, List.map_map]
  refine List.map_congr_left fun m hm => ?_
  exact hfg m.1 m.2 (h.kindOf_member hk hm).1

theorem Shaped.flatMap_childMembers (h : Shaped root) {p : Path} (hk : kindOf p = some .map)
    {β : Type} {f : CString × Json → List β} {g : CString → List β}
    (hfg : ∀ k v, nodeAt root (p ++ [k]) = some v → f (k, v) = g k) :
    (childMembers (nodeAt root p)).flatMap f = (namesAt root p).flatMap g := by
  rw [List.flatMap_def, h.map_childMembers hk hfg, ← List.flatMap_def]

end

/-! ### Things -/

/-- What is read off a thing: its registers under a policy, the names of its fields in
order, and the set beside them. -/
structure Thing where
  /-- The registers. -/
  register : CString → Live
  /-- The names of the fields. -/
  fields : List CString
  /-- A rune's tags or a mantle's edges. -/
  elements : OrSet

/-- The thing at a path. -/
def thingAt (root : Json) (policy : JoinPolicy) (base : Path) (elements : CString) : Thing where
  register := fun f => (setAt root (base ++ [Key.fields, f])).resolve (policy.lookup f.bytes)
  fields := namesAt root (base ++ [Key.fields])
  elements := setAt root (base ++ [elements])

namespace Thing

variable (t : Thing)

/-- The members that registers with a prefix are shown as. -/
def keyed (pre : CString) : List (CString × Json) :=
  t.fields.flatMap fun f =>
    if !f.startsWith pre then []
    else
      match (t.register f).values with
      | [] => []
      | v :: _ => member (f.drop pre.bytes.length) (decode v)

/-- A shown key is that of a register. -/
theorem keyed_names_sublist (pre : CString) :
    ((t.keyed pre).map Prod.fst).Sublist
      ((t.fields.filter fun f => f.startsWith pre).map fun f => f.drop pre.bytes.length) := by
  unfold keyed
  induction t.fields with
  | nil => exact List.Sublist.refl _
  | cons f fs ih =>
    rw [List.flatMap_cons, List.map_append, List.filter_cons]
    cases hf : f.startsWith pre with
    | false => simpa [hf] using ih
    | true =>
      have hone : ((match (t.register f).values with
          | [] => []
          | v :: _ => member (f.drop pre.bytes.length) (decode v)).map Prod.fst).Sublist
          [f.drop pre.bytes.length] := by
        cases (t.register f).values with
        | nil => exact List.nil_sublist _
        | cons v vs => cases hd : decode v <;> simp [member, hd]
      simp only [Bool.not_true, Bool.false_eq_true, if_false, if_true, List.map_cons]
      exact hone.append ih

/-- No key is shown twice. -/
theorem keyed_nodup (hd : t.fields.Nodup) (pre : CString) : ((t.keyed pre).map Prod.fst).Nodup := by
  refine List.Nodup.sublist (t.keyed_names_sublist pre) ?_
  refine List.Nodup.map_on (fun f hf g hg he => ?_) (hd.filter _)
  have hpf := CString.eq_append_of_startsWith (List.mem_filter.mp hf).2
  have hpg := CString.eq_append_of_startsWith (List.mem_filter.mp hg).2
  rw [hpf, hpg, he]

/-- A register that is shown as an empty list when it has no value. -/
def list (f : CString) : Json :=
  match (t.register f).values with
  | [] => .arr []
  | v :: _ => (decode v).getD (.arr [])

/-- A rune as it is shown. -/
def rune (id : CString) : Json :=
  .obj ([(Key.spirit, .obj ((Key.id, .str id) ::
        member Key.name (firstOrNull (t.register Key.spiritName))))] ++
    member Key.glyph (firstOrNull (t.register Key.glyph)) ++
    [(Key.facets, .obj (kFacets.flatMap fun k =>
        member k (firstOrNull (t.register (Key.facetsDot ++ k))))),
      (Key.content, .obj (t.keyed Key.contentDot)),
      (Key.tags, .arr (t.elements.values.filterMap decode))] ++
    member Key.placement (firstOrNull (t.register Key.placement)) ++
    [(Key.relations, t.list Key.relations)])

/-- A mantle as it is shown, with its runes. -/
def mantle (name : CString) (runes : List Json) : Json :=
  .obj (member Key.id (firstOrNull (t.register Key.id)) ++
    [(Key.name, .str name)] ++
    member Key.domain (firstOrNull (t.register Key.domain)) ++
    [(Key.runes, .arr runes),
      (Key.tags, .obj (t.keyed Key.tagsDot)),
      (Key.layout, .obj [(Key.edges, .arr (t.elements.values.filterMap decode))]),
      (Key.rules, t.list Key.rules)])

end Thing

/-- The thing at a path is present. -/
def shownAt (root : Json) (base : Path) : Bool := !(setAt root (base ++ [Key.present])).isEmpty

/-- The names of the things below a path that are present, in order. -/
def shownNames (root : Json) (p : Path) : List CString :=
  (Sorting.sortOn id (namesAt root p)).filter fun k => shownAt root (p ++ [k])

/-- The mantle of a name as it is shown. -/
def shownMantle (root : Json) (policy : JoinPolicy) (name : CString) : Json :=
  (thingAt root policy [Key.mantles, name] Key.edges).mantle name
    ((shownNames root [Key.mantles, name, Key.runes]).map fun id =>
      (thingAt root policy [Key.mantles, name, Key.runes, id] Key.tags).rune id)

/-- The glyph of a name as it is shown. -/
def shownGlyph (root : Json) (name : CString) : List (CString × Json) :=
  match (setAt root [Key.glyphs, name, Key.fields, Key.descriptor]).values with
  | [] => []
  | v :: _ => member name (decode v)

/-- A content key is shown when its register has a value, and then as the first one. -/
theorem contentMember_eq (policy : JoinPolicy) (m : CString × Json) :
    contentMember policy m = if !m.1.startsWith Key.contentDot then []
      else
        match (resolve (some m.2) (policy.lookup m.1.bytes)).values with
        | [] => []
        | v :: _ => member (m.1.drop Key.contentDot.bytes.length) (decode v) := by
  unfold contentMember
  split
  · rfl
  · split
    · rename_i hl
      rw [List.isEmpty_iff] at hl
      rw [resolve, OrSet.resolve_values_eq_nil.mpr hl]
    · rename_i hl
      unfold firstOrNull
      cases hr : (resolve (some m.2) (policy.lookup m.1.bytes)).values with
      | nil => exact absurd (List.isEmpty_iff.mpr (OrSet.resolve_values_eq_nil.mp hr)) hl
      | cons v vs => rfl

section

variable {root n : Json} (h : Shaped root) {policy : JoinPolicy} {base : Path}

/-- The kinds of the nodes that every thing has. -/
structure ThingAt (base : Path) : Prop where
  /-- The thing itself. -/
  map : kindOf base = some .map
  /-- Its presence. -/
  present : IsSetPath (base ++ [Key.present])
  /-- Its fields. -/
  fields : kindOf (base ++ [Key.fields]) = some .map
  /-- Whatever is a field of it. -/
  field : ∀ f, (kindOf (base ++ [Key.fields, f])).isSome = true →
    IsSetPath (base ++ [Key.fields, f])
  /-- No field is a presence. -/
  noPresent : ¬IsSetPath (base ++ [Key.fields, Key.present])

theorem AtKind.rune_thing (hb : AtKind base runeKind) : ThingAt base where
  map := by
    have h := hb []
    rwa [List.append_nil] at h
  present := hb.present_rune
  fields := hb [Key.fields]
  field := fun f hf => by simpa using hb.rune_fieldsAt.only f (by simpa using hf)
  noPresent := by simpa using hb.rune_fieldsAt.noPresent

theorem AtKind.mantle_thing (hb : AtKind base mantleKind) : ThingAt base where
  map := by
    have h := hb []
    rwa [List.append_nil] at h
  present := hb.present_mantle
  fields := hb [Key.fields]
  field := fun f hf => by simpa using hb.mantle_fieldsAt.only f (by simpa using hf)
  noPresent := by simpa using hb.mantle_fieldsAt.noPresent

theorem AtKind.glyph_thing (hb : AtKind base glyphKind) : ThingAt base where
  map := by
    have h := hb []
    rwa [List.append_nil] at h
  present := hb.present_glyph
  fields := hb [Key.fields]
  field := fun f hf => by
    rw [hb] at hf
    refine hb.isSetPath .declaration ?_
    have h1 : Key.fields ≠ Key.present := by decide
    by_cases hg : isGlyphField f = true
    · simpa [glyphKind, h1] using fieldsKind_field hg
    · simp [glyphKind, h1, fieldsKind, hg] at hf
  noPresent := fun ⟨rule, hr⟩ => by
    have h1 : Key.fields ≠ Key.present := by decide
    have h2 : isGlyphField Key.present = false := by decide
    rw [hb] at hr
    simp [glyphKind, h1, fieldsKind, h2] at hr

include h

/-- The presence of a thing is read at its path. -/
theorem Shaped.read_present (hb : ThingAt base) (hn : nodeAt root base = some n) :
    orsetFromJson (n.get Key.present) = setAt root (base ++ [Key.present]) := by
  rw [h.get_of_nodeAt hn hb.map, h.orsetFromJson_set hb.present]

/-- A register of a thing is read at its path. -/
theorem Shaped.read_field (hb : ThingAt base) (hn : nodeAt root base = some n) (f : CString) :
    orsetFromJson (get (n.get Key.fields) f) = setAt root (base ++ [Key.fields, f]) := by
  rw [h.get_of_nodeAt hn hb.map, h.get_node hb.fields, List.append_assoc]
  cases hk : kindOf (base ++ [Key.fields, f]) with
  | none => exact h.orsetFromJson_node (by simp [hk]) (by simp [hk])
  | some k => exact h.orsetFromJson_set (hb.field f (by simp [hk]))

/-- The set beside a thing's fields is read at its path. -/
theorem Shaped.read_elements (hb : ThingAt base) (hn : nodeAt root base = some n) {k : CString}
    (hk : IsSetPath (base ++ [k])) : orsetFromJson (n.get k) = setAt root (base ++ [k]) := by
  rw [h.get_of_nodeAt hn hb.map, h.orsetFromJson_set hk]

/-- A register of a thing under a policy. -/
theorem Shaped.resolve_field (hb : ThingAt base) (hn : nodeAt root base = some n) (f k : CString) :
    resolve (get (n.get Key.fields) f) (policy.lookup f.bytes) =
      (thingAt root policy base k).register f := by
  rw [resolve, h.read_field hb hn]
  rfl

/-- Whether a thing is present is read at its path. -/
theorem Shaped.present_eq (hb : ThingAt base) (hn : nodeAt root base = some n) :
    (orsetFromJson (n.get Key.present)).isEmpty = !shownAt root base := by
  rw [h.read_present hb hn, shownAt, Bool.not_not]

/-- A member of a `fields` map is a register of the thing. -/
theorem Shaped.field_node (hb : ThingAt base) {f : CString} {v : Json}
    (hv : nodeAt root (base ++ [Key.fields] ++ [f]) = some v) :
    orsetFromJson (some v) = setAt root (base ++ [Key.fields, f]) := by
  rw [List.append_assoc] at hv
  obtain ⟨k, hk, -⟩ := h.kinds _ _ hv
  have hp := hb.field f (by rw [List.singleton_append] at hk; rw [hk]; rfl)
  rw [← h.orsetFromJson_set hp]
  exact congrArg orsetFromJson hv.symm

/-- The registers with a prefix, shown one after another. -/
theorem Shaped.keyed_eq (hb : ThingAt base) (hn : nodeAt root base = some n) (k pre : CString)
    {f : CString × Json → List (CString × Json)}
    (hf : ∀ m : CString × Json, f m = if !m.1.startsWith pre then []
      else
        match (resolve (some m.2) (policy.lookup m.1.bytes)).values with
        | [] => []
        | v :: _ => member (m.1.drop pre.bytes.length) (decode v)) :
    (childMembers (n.get Key.fields)).flatMap f = (thingAt root policy base k).keyed pre := by
  rw [h.get_of_nodeAt hn hb.map, Thing.keyed]
  refine h.flatMap_childMembers hb.fields fun name v hv => ?_
  rw [hf, resolve, h.field_node hb hv]
  rfl

/-- A rune is shown as what is read off it. -/
theorem Shaped.flattenRune_eq (hb : AtKind base runeKind) (hn : nodeAt root base = some n)
    (id : CString) : flattenRune policy id n = (thingAt root policy base Key.tags).rune id := by
  have hf := fun f => @Shaped.resolve_field root n h policy base hb.rune_thing hn f Key.tags
  unfold flattenRune Thing.rune Thing.list
  simp only [shownField, shownList, shownSet, hf, h.read_elements hb.rune_thing hn hb.rune_tags]
  rw [h.keyed_eq hb.rune_thing hn Key.tags Key.contentDot (contentMember_eq policy)]
  rfl

/-- A list of things is shown as the things that are present, in the order of their
names. -/
theorem Shaped.map_shownMembers {p : Path} (hk : kindOf p = some .map) {β : Type}
    {f : CString × Json → β} {g : CString → β}
    (hp : ∀ k v, nodeAt root (p ++ [k]) = some v → ThingAt (p ++ [k]))
    (hfg : ∀ k v, nodeAt root (p ++ [k]) = some v → f (k, v) = g k) :
    (shownMembers (nodeAt root p)).map f = (shownNames root p).map g := by
  have hsort : Sorting.sortOn id (namesAt root p) =
      (Sorting.sortOn Prod.fst (childMembers (nodeAt root p))).map Prod.fst :=
    Sorting.sortOn_map (fun _ _ => rfl) (h.namesAt_nodup hk)
  have hnode : ∀ m ∈ Sorting.sortOn Prod.fst (childMembers (nodeAt root p)),
      nodeAt root (p ++ [m.1]) = some m.2 :=
    fun m hm => (h.kindOf_member hk (Sorting.mem_sortOn.mp hm)).1
  have hshown : ∀ m ∈ Sorting.sortOn Prod.fst (childMembers (nodeAt root p)),
      (!(orsetFromJson (m.2.get Key.present)).isEmpty) = shownAt root (p ++ [m.1]) := by
    intro m hm
    rw [h.present_eq (hp m.1 m.2 (hnode m hm)) (hnode m hm), Bool.not_not]
  rw [shownNames, hsort, List.filter_map, List.map_map, shownMembers, List.filter_congr hshown]
  refine List.map_congr_left fun m hm => ?_
  exact hfg m.1 m.2 (hnode m (List.mem_of_mem_filter hm))

theorem Shaped.flatMap_shownMembers {p : Path} (hk : kindOf p = some .map) {β : Type}
    {f : CString × Json → List β} {g : CString → List β}
    (hp : ∀ k v, nodeAt root (p ++ [k]) = some v → ThingAt (p ++ [k]))
    (hfg : ∀ k v, nodeAt root (p ++ [k]) = some v → f (k, v) = g k) :
    (shownMembers (nodeAt root p)).flatMap f = (shownNames root p).flatMap g := by
  rw [List.flatMap_def, h.map_shownMembers hk hp hfg, ← List.flatMap_def]

/-- Whatever has a name below a map of named things is not without one. -/
theorem Shaped.name_ne_empty {p : Path} (hb : NamedAt p) {k : CString} {v : Json}
    (hv : nodeAt root (p ++ [k]) = some v) : k.isEmpty = false := by
  obtain ⟨kind, hk, -⟩ := h.kinds _ _ hv
  exact hb.named k (by rw [hk]; rfl)

/-- A mantle is shown as what is read off it and off its runes. -/
theorem Shaped.flattenMantle_eq {name : CString} (hn : nodeAt root [Key.mantles, name] = some n) :
    flattenMantle policy name n = shownMantle root policy name := by
  have hb := atKind_mantle (h.name_ne_empty namedAt_mantles hn)
  have hf := fun f => @Shaped.resolve_field root n h policy _ hb.mantle_thing hn f Key.edges
  have hruns : ∀ k v, nodeAt root ([Key.mantles, name, Key.runes] ++ [k]) = some v →
      AtKind ([Key.mantles, name, Key.runes] ++ [k]) runeKind :=
    fun k v hv => hb.rune (h.name_ne_empty hb.namedAt_runes hv)
  unfold flattenMantle shownMantle Thing.mantle Thing.list
  simp only [shownField, shownList, shownSet, hf, h.read_elements hb.mantle_thing hn hb.mantle_edges]
  rw [h.keyed_eq (f := tagMember policy) hb.mantle_thing hn Key.edges Key.tagsDot fun _ => rfl,
    h.get_of_nodeAt hn hb.mantle_thing.map,
    h.map_shownMembers (hb [Key.runes]) (fun k v hv => (hruns k v hv).rune_thing)
      fun k v hv => h.flattenRune_eq (hruns k v hv) hv k]
  rfl

/-- A glyph is shown as what is read off it. -/
theorem Shaped.glyphMember_eq {name : CString} (hn : nodeAt root [Key.glyphs, name] = some n) :
    glyphMember (name, n) = shownGlyph root name := by
  have hb := atKind_glyph (h.name_ne_empty namedAt_glyphs hn)
  unfold glyphMember shownGlyph liveOf
  rw [h.read_field hb.glyph_thing hn]
  rfl

/-- What a document shows is read off its sets and its names. -/
theorem Shaped.flatten_eq (policy : JoinPolicy) :
    flatten root policy = .obj ((Key.mantles, .arr ((shownNames root [Key.mantles]).map
        (shownMantle root policy))) ::
      if shownNames root [Key.glyphs] = [] then []
      else [(Key.glyphs, .obj ((shownNames root [Key.glyphs]).flatMap (shownGlyph root)))]) := by
  have hm : ∀ k v, nodeAt root ([Key.mantles] ++ [k]) = some v →
      AtKind ([Key.mantles] ++ [k]) mantleKind :=
    fun k v hv => atKind_mantle (h.name_ne_empty namedAt_mantles hv)
  have hg : ∀ k v, nodeAt root ([Key.glyphs] ++ [k]) = some v →
      AtKind ([Key.glyphs] ++ [k]) glyphKind :=
    fun k v hv => atKind_glyph (h.name_ne_empty namedAt_glyphs hv)
  have hmap : ∀ k, root.get k = nodeAt root [k] := fun k => h.get_of_nodeAt (p := []) rfl rfl k
  have hgone : (shownMembers (nodeAt root [Key.glyphs])).isEmpty =
      decide (shownNames root [Key.glyphs] = []) := by
    have hl := congrArg List.length (h.map_shownMembers (p := [Key.glyphs]) (f := fun _ => ())
      (g := fun _ => ()) (by decide) (fun k v hv => (hg k v hv).glyph_thing) fun _ _ _ => rfl)
    rw [List.length_map, List.length_map] at hl
    rw [Bool.eq_iff_iff, List.isEmpty_iff, decide_eq_true_eq, ← List.length_eq_zero_iff, hl,
      List.length_eq_zero_iff]
  unfold flatten
  dsimp only
  rw [hmap, hmap, hgone,
    h.map_shownMembers (by decide) (fun k v hv => (hm k v hv).mantle_thing)
      (g := shownMantle root policy) (fun k v hv => h.flattenMantle_eq hv),
    h.flatMap_shownMembers (by decide) (fun k v hv => (hg k v hv).glyph_thing)
      (g := shownGlyph root) fun k v hv => h.glyphMember_eq hv]
  simp only [decide_eq_true_eq]

end

end VoidPalabra
