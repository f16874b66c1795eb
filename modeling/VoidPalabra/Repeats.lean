import VoidPalabra.Enriched

/-!
# Members named twice

`encode_map` refuses an object that names a member twice. Its second copy, which the
declarations of a state go through, does not look; everything else that the naming layer
or an enrichment writes as a map is either refused or has strictly increasing keys.
-/

namespace VoidPalabra

/-- `Policy::tag`. -/
def SlicePolicy.tag (policy : SlicePolicy) : Bytes :=
  lit "include_view=" ++ if policy.includeView then lit "1" else lit "0"

/-- `version_name`. -/
def versionName (state : Json) (policy : SlicePolicy) : Except CanonicalError Bytes := do
  let slice ← canonSlice state policy
  pure (lit "v:" ++ hexBytes (domainDigest "slice" slice policy.tag))

/-! ### Where a name is given twice -/

/-- An object of the value, at whatever depth, names a member twice. -/
inductive Repeats : Json → Prop
  /-- The object itself. -/
  | here {ms : List (CString × Json)} (twice : ¬ (ms.map Prod.fst).Nodup) : Repeats (.obj ms)
  /-- One inside a member. -/
  | member {ms : List (CString × Json)} {m : CString × Json} (mem : m ∈ ms) (inside : Repeats m.2) :
    Repeats (.obj ms)
  /-- One inside an item. -/
  | item {xs : List Json} {x : Json} (mem : x ∈ xs) (inside : Repeats x) : Repeats (.arr xs)

/-- A declaration names a member twice, or one inside it does; what is under `source` is no
part of it. -/
def DeclarationRepeats (g : Json) : Prop :=
  ¬ (g.members.map Prod.fst).Nodup ∨ ∃ m ∈ g.members, m.1 ≠ Key.source ∧ Repeats m.2

/-- The values of a rune that its canonical form holds as they are. -/
def opaqueRune (policy : SlicePolicy) (r : Json) : List Json :=
  (r.get Key.content).toList ++ (r.get Key.relations).toList ++
    if policy.includeView then (r.get Key.placement).toList else []

/-- The values of a mantle that its canonical form holds as they are. -/
def opaqueMantle (policy : SlicePolicy) (m : Json) : List Json :=
  (m.get Key.domain).toList ++ (m.get Key.tags).toList ++ (m.get Key.rules).toList ++
    (arrayItems (m.get Key.runes)).flatMap (opaqueRune policy)

/-- An object that `canon_slice` encodes as a map names a member twice. -/
def SliceRepeats (policy : SlicePolicy) (state : Json) : Prop :=
  (∃ m ∈ arrayItems (state.get Key.mantles), ∃ v ∈ opaqueMantle policy m, Repeats v) ∨
    ¬ ((childMembers (state.get Key.glyphs)).map Prod.fst).Nodup ∨
    ∃ g ∈ childMembers (state.get Key.glyphs), DeclarationRepeats g.2

/-- An object in a value that `enrich` writes names a member twice. -/
def RegisterRepeats (state : Json) : Prop :=
  (∃ v ∈ written state, Repeats v) ∨
    ∃ g ∈ childMembers (state.get Key.glyphs), DeclarationRepeats g.2

/-- No declaration names a member twice. -/
def DeclarationsOnce (state : Json) : Prop :=
  ∀ g ∈ childMembers (state.get Key.glyphs), (g.2.members.map Prod.fst).Nodup

/-- What has a canonical form names no member twice. -/
theorem not_repeats_of_hasForm {v : Json} (h : HasForm v) : ¬ Repeats v := by
  intro hr
  induction hr with
  | here twice => exact twice (hasForm_obj.mp h).2
  | member mem _ ih => exact ih ((hasForm_obj.mp h).1 _ mem).2
  | item mem _ ih => exact ih (hasForm_arr.mp h _ mem)

/-- The members of an accepted declaration, `source` apart, have a canonical form. -/
theorem hasForm_of_descriptor {g : Json} {b : Bytes} (h : canonGlyphDescriptor g = .ok b) :
    ∀ m ∈ g.members, m.1 ≠ Key.source → HasForm m.2 := by
  cases g with
  | obj ms =>
    rw [canonGlyphDescriptor] at h
    obtain ⟨fs, hfs, h⟩ := bind_eq_ok.mp h
    obtain ⟨ps, hps, -⟩ := bind_eq_ok.mp h
    intro m hm hne
    have hms := (encodeMembers_eq_ok.mp (encodeMembers_declared hfs hps)).1
    exact (hms m (List.mem_filter.mpr ⟨hm, by simpa using hne⟩)).2
  | null => cases h
  | bool _ => cases h
  | num _ => cases h
  | str _ => cases h
  | arr _ => cases h

theorem declared_nodup {g : Json} (h : (g.members.map Prod.fst).Nodup) :
    ((declared g).members.map Prod.fst).Nodup :=
  h.sublist (List.filter_sublist.map Prod.fst)

/-- A declaration that names no member twice does not repeat, once it is accepted. -/
theorem not_declarationRepeats {g : Json} {b : Bytes} (h : canonGlyphDescriptor g = .ok b)
    (hd : (g.members.map Prod.fst).Nodup) : ¬ DeclarationRepeats g := by
  rintro (hn | ⟨m, hm, hne, hr⟩)
  · exact hn hd
  · exact not_repeats_of_hasForm (hasForm_of_descriptor h m hm hne) hr

/-- The values that an accepted rune holds as they are have a canonical form. -/
theorem hasForm_opaqueRune {policy : SlicePolicy} {r : Json} {b : Bytes}
    (h : canonRune policy r = .ok b) : ∀ v ∈ opaqueRune policy r, HasForm v := by
  have hv := encodeRecord_fields (canonRune_eq_ok.mp h).2
  simp only [runeFields, List.forall_mem_append, List.forall_mem_cons, List.not_mem_nil,
    false_implies, implies_true, and_true] at hv
  obtain ⟨⟨-, -, -, -, hc, hr⟩, hp⟩ := hv
  have hor : ∀ {n : Option Json} {d : Json}, (∃ x, encodeOr n d = .ok x) → ∀ v ∈ n.toList, HasForm v := by
    intro n d hx v hv
    obtain rfl := Option.mem_toList.mp hv
    exact hx
  refine List.forall_mem_append.mpr ⟨List.forall_mem_append.mpr ⟨hor hc, hor hr⟩, ?_⟩
  cases hview : policy.includeView with
  | false => exact fun v hv => by cases hv
  | true =>
    rw [hview] at hp
    exact hor (d := .null) (hp _ (List.mem_singleton_self _))

/-- The same for a mantle. -/
theorem hasForm_opaqueMantle {policy : SlicePolicy} {m : Json} {b : Bytes}
    (h : canonMantle policy m = .ok b) : ∀ v ∈ opaqueMantle policy m, HasForm v := by
  obtain ⟨-, runes, edges, hrunes, -, h⟩ := canonMantle_eq_ok.mp h
  have hv := encodeRecord_fields h
  simp only [mantleFields, List.forall_mem_cons, List.not_mem_nil, false_implies, implies_true,
    and_true] at hv
  obtain ⟨-, -, hd, -, ht, -, hr⟩ := hv
  have hor : ∀ {n : Option Json} {d : Json}, (∃ x, encodeOr n d = .ok x) → ∀ v ∈ n.toList, HasForm v := by
    intro n d hx v hv
    obtain rfl := Option.mem_toList.mp hv
    exact hx
  refine List.forall_mem_append.mpr ⟨List.forall_mem_append.mpr
    ⟨List.forall_mem_append.mpr ⟨hor (d := .null) hd, hor ht⟩, hor hr⟩, fun v hv => ?_⟩
  obtain ⟨r, hr, hv⟩ := List.mem_flatMap.mp hv
  obtain ⟨rb, hrb⟩ := encodeEach_item hrunes hr
  exact hasForm_opaqueRune hrb v hv

/-- Every declaration of an accepted state is accepted. -/
theorem descriptor_of_canonGlyphs {state : Json} {b : Bytes} (h : canonGlyphs state = .ok b) :
    ∀ g ∈ childMembers (state.get Key.glyphs), ∃ d, canonGlyphDescriptor g.2 = .ok d := by
  have hall : ∀ {ms : List (CString × Json)} {ds : List (Bytes × Bytes)}, declarations ms = .ok ds →
      ∀ g ∈ ms, ∃ d, canonGlyphDescriptor g.2 = .ok d := by
    intro ms
    induction ms with
    | nil => exact fun _ g hg => by cases hg
    | cons m ms ih =>
      intro ds hds
      obtain ⟨k, v⟩ := m
      rw [declarations] at hds
      obtain ⟨d, hd, hds⟩ := bind_eq_ok.mp hds
      obtain ⟨rest, hrest, -⟩ := bind_eq_ok.mp hds
      exact List.forall_mem_cons.mpr ⟨⟨d, hd⟩, ih hrest⟩
  unfold canonGlyphs at h
  cases hg : state.get Key.glyphs with
  | none => exact fun g hg => by cases hg
  | some v =>
    rw [hg] at h
    cases v with
    | obj ms =>
      obtain ⟨ds, hds, -⟩ := bind_eq_ok.mp h
      exact hall hds
    | _ => exact fun g hg => by cases hg

/-- Declarations that are named once, and name their members once, are declared once. -/
theorem declaredOnce_of {state : Json}
    (hnames : ((childMembers (state.get Key.glyphs)).map Prod.fst).Nodup)
    (hd : DeclarationsOnce state) : DeclaredOnce state := by
  unfold DeclaredOnce declarationsOf
  rw [List.map_map]
  refine ⟨hnames, fun d hmem => ?_⟩
  obtain ⟨g, hg, rfl⟩ := List.mem_map.mp hmem
  exact declared_nodup (hd g hg)

/-! ### Values of a document -/

/-- The sets of values of a thing: its registers and one more set. -/
def valueSets (thing : Json) (set : CString) : List Json :=
  (childMembers (thing.get Key.fields)).map Prod.snd ++ (thing.get set).toList

/-- The sets of a document that hold values. -/
def documentSets (doc : Json) : List Json :=
  (childMembers (doc.get Key.mantles)).flatMap (fun m => valueSets m.2 Key.edges ++
    (childMembers (m.2.get Key.runes)).flatMap fun r => valueSets r.2 Key.tags) ++
  (childMembers (doc.get Key.glyphs)).flatMap fun g =>
    (childMembers (g.2.get Key.fields)).map Prod.snd

/-- A value that a document holds in a register, a set of tags or a set of edges. -/
def HoldsValue (doc : Json) (b : Bytes) : Prop :=
  ∃ reg ∈ documentSets doc, ∃ t : Tag, (orsetFromJson (some reg)).adds[t]? = some b

theorem named_one {t : Tag} (ht : t.isEmpty = false) (b : Bytes) : (OrSet.empty.add t b).Named := by
  refine ⟨fun u v hv => ?_, fun u hu => absurd hu (OrSet.not_mem_empty_removes u)⟩
  rw [OrSet.add_adds] at hv
  split at hv
  · rename_i he
    rwa [← he]
  · rw [OrSet.empty_adds] at hv
    cases hv

theorem adds_of_holds {b c : Bytes} {reg : Json} (h : Holds b reg) :
    (∃ t : Tag, (orsetFromJson (some reg)).adds[t]? = some c) ↔ c = b := by
  obtain ⟨t, ht, rfl⟩ := h
  rw [orsetFromJson_orsetToJson (named_one ht b)]
  constructor
  · rintro ⟨u, hu⟩
    rw [OrSet.add_adds] at hu
    split at hu
    · exact (Option.some.inj hu).symm
    · rw [OrSet.empty_adds] at hu
      cases hu
  · rintro rfl
    exact ⟨t, by rw [OrSet.add_adds, if_pos rfl]⟩

theorem adds_of_lists {vs : List Json} {s : OrSet} {b : Bytes} (h : Lists vs s) :
    (∃ t : Tag, (orsetFromJson (some (orsetToJson s))).adds[t]? = some b) ↔
      ∃ v ∈ vs, encode v = .ok b := by
  rw [orsetFromJson_orsetToJson h.named]
  exact h.values b

/-- Some set of a list holds the bytes. -/
def HeldIn (sets : List Json) (b : Bytes) : Prop :=
  ∃ reg ∈ sets, ∃ t : Tag, (orsetFromJson (some reg)).adds[t]? = some b

theorem heldIn_append {xs ys : List Json} {b : Bytes} :
    HeldIn (xs ++ ys) b ↔ HeldIn xs b ∨ HeldIn ys b := by
  unfold HeldIn
  simp only [List.mem_append, or_and_right, exists_or]

theorem heldIn_singleton {reg : Json} {b : Bytes} :
    HeldIn [reg] b ↔ ∃ t : Tag, (orsetFromJson (some reg)).adds[t]? = some b := by
  simp [HeldIn]

/-- What a loop makes holds what its rounds make hold. -/
theorem heldIn_rounds {α β : Type} {P : α → List β → Prop} {F : β → List Json} {R : α → Prop}
    {b : Bytes} {xs : List α} {outs : List (List β)} (h : List.Forall₂ P xs outs)
    (hP : ∀ x out, P x out → (HeldIn (out.flatMap F) b ↔ R x)) :
    HeldIn (outs.flatten.flatMap F) b ↔ ∃ x ∈ xs, R x := by
  induction h with
  | nil => simp [HeldIn]
  | cons hp _ ih =>
    rw [List.flatten_cons, List.flatMap_append, heldIn_append, ih, hP _ _ hp]
    simp

theorem heldIn_fields {fs : List (CString × Option Json)} {out : List (CString × Json)} {b : Bytes}
    (h : List.Forall₂ FieldEnriched fs out) :
    HeldIn (out.map Prod.snd) b ↔ ∃ v ∈ fs.map (fun f => f.2.getD .null), encode v = .ok b := by
  induction h with
  | nil => simp [HeldIn]
  | @cons f o _ _ hp _ ih =>
    obtain ⟨-, c, hc, hh⟩ := hp
    have hone : HeldIn [o.2] b ↔ encode (f.2.getD .null) = .ok b := by
      have hcb : asText f.2 = .ok b ↔ c = b := by rw [hc, Except.ok.injEq]
      rw [heldIn_singleton, adds_of_holds hh, eq_comm]
      exact hcb.symm
    rw [List.map_cons, List.map_cons, ← List.singleton_append, heldIn_append, hone, ih]
    simp

theorem heldIn_rune {r : Json} {out : List (CString × Json)} {b : Bytes} (h : RuneEnriched r out) :
    HeldIn (out.flatMap fun r => valueSets r.2 Key.tags) b ↔ ∃ v ∈ writtenRune r, encode v = .ok b := by
  cases h with
  | skipped unnamed => simp [HeldIn, writtenRune, unnamed]
  | @rune id present fields tags named there registers text lists =>
    have hsets : valueSets (.obj [(Key.present, present), (Key.fields, .obj fields),
        (Key.tags, orsetToJson tags)]) Key.tags = fields.map Prod.snd ++ [orsetToJson tags] := rfl
    rw [List.flatMap_cons, List.flatMap_nil, List.append_nil, hsets, heldIn_append,
      heldIn_fields registers, heldIn_singleton, adds_of_lists lists, writtenRune,
      named]
    simp only [List.mem_append, or_and_right, exists_or]

theorem heldIn_mantle {m : Json} {out : List (CString × Json)} {b : Bytes} (h : MantleEnriched m out) :
    HeldIn (out.flatMap fun m => valueSets m.2 Key.edges ++
      (childMembers (m.2.get Key.runes)).flatMap fun r => valueSets r.2 Key.tags) b ↔
        ∃ v ∈ writtenMantle m, encode v = .ok b := by
  cases h with
  | skipped unnamed => simp [HeldIn, writtenMantle, unnamed]
  | @mantle name present fields runes edges named there registers things text lists =>
    have hsets : valueSets (.obj [(Key.present, present), (Key.fields, .obj fields),
        (Key.runes, .obj runes.flatten), (Key.edges, orsetToJson edges)]) Key.edges =
        fields.map Prod.snd ++ [orsetToJson edges] := rfl
    have hrunes : childMembers ((Json.obj [(Key.present, present), (Key.fields, .obj fields),
        (Key.runes, .obj runes.flatten), (Key.edges, orsetToJson edges)]).get Key.runes) =
        runes.flatten := rfl
    rw [List.flatMap_cons, List.flatMap_nil, List.append_nil, hsets, hrunes, heldIn_append,
      heldIn_append, heldIn_fields registers, heldIn_rounds things fun r out hr => heldIn_rune hr,
      heldIn_singleton, adds_of_lists lists, writtenMantle, named]
    simp only [List.mem_append, List.mem_flatMap, or_and_right, exists_or]
    constructor
    · rintro ((h | h) | ⟨r, hr, v, hv, he⟩)
      · exact .inl (.inl h)
      · exact .inr h
      · exact .inl (.inr ⟨v, ⟨r, hr, hv⟩, he⟩)
    · rintro ((h | ⟨v, ⟨r, hr, hv⟩, he⟩) | h)
      · exact .inl (.inl h)
      · exact .inr ⟨r, hr, v, hv, he⟩
      · exact .inl (.inr h)

theorem heldIn_glyph {g out : CString × Json} {b : Bytes} (h : GlyphEnriched g out) :
    HeldIn ((childMembers (out.2.get Key.fields)).map Prod.snd) b ↔
      canonGlyphDescriptor g.2 = .ok b := by
  obtain ⟨present, reg, d, hd, -, hr, rfl⟩ := h
  have hfields : childMembers ((Json.obj [(Key.present, present),
      (Key.fields, .obj [(Key.descriptor, reg)])]).get Key.fields) = [(Key.descriptor, reg)] := rfl
  rw [hfields, List.map_cons, List.map_nil, heldIn_singleton, adds_of_holds hr, hd,
    Except.ok.injEq, eq_comm]

theorem heldIn_glyphs {gs outs : List (CString × Json)} {b : Bytes}
    (h : List.Forall₂ GlyphEnriched gs outs) :
    HeldIn (outs.flatMap fun g => (childMembers (g.2.get Key.fields)).map Prod.snd) b ↔
      ∃ g ∈ gs, canonGlyphDescriptor g.2 = .ok b := by
  induction h with
  | nil => simp [HeldIn]
  | cons hp _ ih =>
    rw [List.flatMap_cons, heldIn_append, ih, heldIn_glyph hp]
    simp

/-- An enriched document holds the encodings of what was written and the declarations. -/
theorem holdsValue_iff {state doc : Json} {b : Bytes} (h : StateEnriched state doc) :
    HoldsValue doc b ↔ (∃ v ∈ written state, encode v = .ok b) ∨
      ∃ g ∈ childMembers (state.get Key.glyphs), canonGlyphDescriptor g.2 = .ok b := by
  obtain ⟨mantles, glyphs, hm, hg, rfl⟩ := h
  have hdoc : documentSets (.obj [(Key.palabra, .num Double.one), (Key.mantles, .obj mantles.flatten),
      (Key.glyphs, .obj glyphs)]) = mantles.flatten.flatMap (fun m => valueSets m.2 Key.edges ++
        (childMembers (m.2.get Key.runes)).flatMap fun r => valueSets r.2 Key.tags) ++
        glyphs.flatMap fun g => (childMembers (g.2.get Key.fields)).map Prod.snd := rfl
  rw [show HoldsValue _ b ↔ HeldIn (documentSets _) b from Iff.rfl, hdoc, heldIn_append, heldIn_glyphs hg,
    heldIn_rounds hm fun m out h => heldIn_mantle h, written]
  refine or_congr_left ⟨?_, ?_⟩
  · rintro ⟨m, hm, v, hv, he⟩
    exact ⟨v, List.mem_flatMap.mpr ⟨m, hm, hv⟩, he⟩
  · rintro ⟨v, hv, he⟩
    obtain ⟨m, hm, hv⟩ := List.mem_flatMap.mp hv
    exact ⟨m, hm, v, hv, he⟩

/-! ### The two encoders of maps -/

/-- Nothing that a document is written with nests deeper than the decoder reads. -/
def NestsWithin (state : Json) : Prop :=
  (∀ v ∈ written state, depth v ≤ nestingLimit) ∧
    ∀ g ∈ childMembers (state.get Key.glyphs), depth (declared g.2) ≤ nestingLimit

/-- Which states that name a member twice are let through. A slice that is accepted has no
such object, and strictly increasing keys in every map, exactly when no two declarations share
a name and none names a member twice; and a document that `enrich` makes comes from no such
object and holds canonical values alone exactly when no declaration names a member twice and
nothing nests deeper than the decoder reads. -/
theorem repeats_refused_iff (policy : SlicePolicy) (mint : Mint) (state : Json) :
    (∀ e, versionName state policy = .error e ↔ canonSlice state policy = .error e) ∧
    (∀ b, canonSlice state policy = .ok b →
      ((¬ SliceRepeats policy state ∧ Coded Increasing b) ↔
        ((childMembers (state.get Key.glyphs)).map Prod.fst).Nodup ∧ DeclarationsOnce state)) ∧
    ∀ doc, enrich mint state = .ok doc → (∀ b, HoldsValue doc b → Fits b.length) →
      ((¬ RegisterRepeats state ∧ ∀ b, HoldsValue doc b → isCanonical b = true ∧ Coded Increasing b) ↔
        DeclarationsOnce state ∧ NestsWithin state) := by
  refine ⟨fun e => ?_, fun b hb => ?_, fun doc hdoc hfit => ?_⟩
  · unfold versionName
    cases canonSlice state policy with
    | ok b => exact iff_of_false (fun h => by cases h) fun h => by cases h
    | error e' => exact ⟨fun h => by cases h; rfl, fun h => by cases h; rfl⟩
  · obtain ⟨mantles, glyphs, hm, -, hg, h⟩ := canonSlice_eq_ok.mp hb
    constructor
    · rintro ⟨hr, -⟩
      refine ⟨by_contra fun hn => hr (.inr (.inl hn)), fun g hgm => by_contra fun hn => ?_⟩
      exact hr (.inr (.inr ⟨g, hgm, .inl hn⟩))
    · rintro ⟨hnames, hd⟩
      refine ⟨?_, coded_encodeRecord h (fieldsCoded_slice (coded_each (fun _ _ => coded_canonMantle) hm)
        (coded_encode (encode_declarationsOf hg (declaredOnce_of hnames hd))))⟩
      rintro (⟨m, hmem, v, hv, hr⟩ | hn | ⟨g, hgm, hr⟩)
      · obtain ⟨mb, hmb⟩ := encodeEach_item hm hmem
        exact not_repeats_of_hasForm (hasForm_opaqueMantle hmb v hv) hr
      · exact hn hnames
      · obtain ⟨d, hdg⟩ := descriptor_of_canonGlyphs hg g hgm
        exact not_declarationRepeats hdg (hd g hgm) hr
  · have hst := enrich_ok hdoc
    have hheld := fun b => holdsValue_iff (b := b) hst
    have hforms := written_hasForm hst
    have hglyphs := glyphs_accepted hst
    have hdecl : ∀ g ∈ childMembers (state.get Key.glyphs), (g.2.members.map Prod.fst).Nodup →
        HasForm (declared g.2) ∧ canonGlyphDescriptor g.2 = .ok (form (declared g.2)) := by
      intro g hg hn
      obtain ⟨b, hb⟩ := hglyphs g hg
      have he := encode_declared hb (declared_nodup hn)
      exact ⟨⟨b, he⟩, by rw [hb, form_of_encode he]⟩
    constructor
    · rintro ⟨hr, hcanon⟩
      have hd : DeclarationsOnce state := fun g hg => by_contra fun hn => hr (.inr ⟨g, hg, .inl hn⟩)
      refine ⟨hd, fun v hv => ?_, fun g hg => ?_⟩
      · have hv' := hforms v hv
        have hb := (hheld _).mpr (.inl ⟨v, hv, encode_of_hasForm hv'⟩)
        exact (isCanonical_form_iff hv' (hfit _ hb)).mp (hcanon _ hb).1
      · obtain ⟨hf, he⟩ := hdecl g hg (hd g hg)
        have hb := (hheld _).mpr (.inr ⟨g, hg, he⟩)
        exact (isCanonical_form_iff hf (hfit _ hb)).mp (hcanon _ hb).1
    · rintro ⟨hd, hv, hg⟩
      refine ⟨?_, fun b hb => ?_⟩
      · rintro (⟨v, hmem, hr⟩ | ⟨g, hgm, hr⟩)
        · exact not_repeats_of_hasForm (hforms v hmem) hr
        · exact not_declarationRepeats (hdecl g hgm (hd g hgm)).2 (hd g hgm) hr
      · have hl := hfit b hb
        rcases (hheld b).mp hb with ⟨v, hmem, he⟩ | ⟨g, hgm, he⟩
        · obtain ⟨hf, rfl⟩ := encode_eq_ok.mp he
          exact ⟨(isCanonical_form_iff hf hl).mpr (hv v hmem), coded_form hf⟩
        · obtain ⟨hf, he'⟩ := hdecl g hgm (hd g hgm)
          obtain rfl := Except.ok.inj (he'.symm.trans he)
          exact ⟨(isCanonical_form_iff hf hl).mpr (hg g hgm), coded_form hf⟩

/-- A state whose one declaration names a member twice. -/
def memberTwice : Json :=
  .obj [(Key.glyphs, .obj [(.ofLit "g", .obj [(.ofLit "x", .num Double.one),
    (.ofLit "x", .num (.ofInt 2))])])]

/-- It is accepted, and what is written for it is not canonical. -/
theorem repeats_accepted : SliceRepeats {} memberTwice ∧ (∃ b, canonSlice memberTwice {} = .ok b) ∧
    ∃ doc b, enrich (counterMint (.ofLit "P")) memberTwice = .ok doc ∧ HoldsValue doc b ∧
      isCanonical b = false := by
  have hdesc : canonGlyphDescriptor (.obj [(.ofLit "x", .num Double.one),
      (.ofLit "x", .num (.ofInt 2))]) = .ok [8, 2, 5, 1, 120, 3, 2, 5, 1, 120, 3, 4] := by
    decide +kernel
  have hglyphs : ∀ g ∈ childMembers (memberTwice.get Key.glyphs),
      ∃ b, canonGlyphDescriptor g.2 = .ok b := List.forall_mem_singleton.mpr ⟨_, hdesc⟩
  obtain ⟨doc, hdoc⟩ := enrich_total (counterMint (.ofLit "P")) (fun v hv => by cases hv) hglyphs
  refine ⟨.inr (.inr ⟨_, List.mem_cons_self, .inl (by decide)⟩),
    ⟨(canonSlice memberTwice {}).toOption.getD [], by decide +kernel⟩, doc, _, hdoc,
    (holdsValue_iff (enrich_ok hdoc)).mpr (.inr ⟨_, List.mem_cons_self, hdesc⟩), by decide +kernel⟩

end VoidPalabra
