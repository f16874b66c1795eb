import VoidPalabra.Checked
import VoidPalabra.ReadsAgree
import VoidPalabra.Traversal

/-!
# What survives the trip

A state that was enriched is shown again with the canonical form it had, in a document that
`validate` accepts and that has no conflicts, when nothing in it stands where `enrich` reads
more than the canonical form does, or less than `flatten` writes.
-/

namespace VoidPalabra

/-! ### Declarations -/

theorem descriptorFields_eq_ok {ms : List (CString × Json)} (h : ∀ m ∈ ms, m.1 ≠ Key.source)
    (hf : ∀ m ∈ ms, HasForm m.2) :
    descriptorFields ms = .ok (ms.map fun m => (m.1.bytes, form m.2)) := by
  induction ms with
  | nil => rfl
  | cons m ms ih =>
    obtain ⟨k, v⟩ := m
    obtain ⟨hk, h⟩ := List.forall_mem_cons.mp h
    obtain ⟨hv, hf⟩ := List.forall_mem_cons.mp hf
    rw [descriptorFields, if_neg hk, ih h hf]
    rw [encode_of_hasForm hv]
    rfl

theorem source_not_declared (g : Json) : ∀ m ∈ (declared g).members, m.1 ≠ Key.source := by
  intro m hm
  simpa using (List.mem_filter.mp hm).2

/-- A declaration without a `source` is declared as it is. -/
theorem declared_self {ms : List (CString × Json)} (h : ∀ m ∈ ms, m.1 ≠ Key.source) :
    declared (.obj ms) = .obj ms := by
  rw [declared, Json.members_obj, List.filter_eq_self.mpr fun m hm => by simpa using h m hm]

/-- The normal form of a declaration is a declaration with the same canonical form. -/
theorem canonGlyphDescriptor_norm {g : Json} (h : HasForm (declared g)) :
    declared (norm (declared g)) = norm (declared g) ∧
      canonGlyphDescriptor (norm (declared g)) = .ok (form (declared g)) := by
  have hno : ∀ m ∈ sortMembers ((g.members.filter fun m => m.1 ≠ Key.source).map normMember),
      m.1 ≠ Key.source := by
    intro m hm
    obtain ⟨n, hn, rfl⟩ := List.mem_map.mp ((sortMembers_perm _).mem_iff.mp hm)
    exact source_not_declared g n hn
  have heq : norm (declared g) = .obj
      (sortMembers ((g.members.filter fun m => m.1 ≠ Key.source).map normMember)) := norm_obj_eq _
  have hn : HasForm (norm (declared g)) := hasForm_norm h
  have hself : declared (norm (declared g)) = norm (declared g) := by rw [heq, declared_self hno]
  refine ⟨hself, ?_⟩
  have hforms : ∀ m ∈ sortMembers ((g.members.filter fun m => m.1 ≠ Key.source).map normMember),
      HasForm m.2 := fun m hm => ((hasForm_obj.mp (heq ▸ hn)).1 m hm).2
  obtain ⟨b, hb⟩ : ∃ b, canonGlyphDescriptor (norm (declared g)) = .ok b := by
    rw [heq, canonGlyphDescriptor, descriptorFields_eq_ok hno hforms]
    refine encodeMapOfEncoded_ok.mpr (List.forall_mem_map.mpr fun m hm => ?_)
    exact ((hasForm_obj.mp (heq ▸ hn)).1 m hm).1
  have hd : ((declared (norm (declared g))).members.map Prod.fst).Nodup := by
    rw [hself, heq]
    exact (hasForm_obj.mp (heq ▸ hn)).2
  have he := encode_declared hb hd
  rw [hself, encode_norm h] at he
  cases he
  exact hb

section

variable {state : Json}

/-- The declarations of a state, with what they declare in its normal form. -/
def shownGlyphs (state : Json) : List (CString × Json) := (declarationsOf state).map normMember

/-- The declarations that were enriched are shown in their normal form. -/
theorem flatMap_glyphMember {gs outs : List (CString × Json)}
    (h : List.Forall₂ GlyphEnriched gs outs)
    (hd : ∀ g ∈ gs, ((declared g.2).members.map Prod.fst).Nodup)
    (hdec : ∀ g ∈ gs, HasForm (declared g.2) → Decodable (declared g.2)) :
    outs.flatMap glyphMember = (gs.map fun g => (g.1, declared g.2)).map normMember := by
  induction h with
  | nil => rfl
  | @cons g out _ _ hp _ ih =>
    obtain ⟨present, reg, b, hb, -, hreg, rfl⟩ := hp
    obtain ⟨hdg, hd⟩ := List.forall_mem_cons.mp hd
    obtain ⟨hg, hdec⟩ := List.forall_mem_cons.mp hdec
    have he := encode_declared hb hdg
    have hdecode : decode b = some (norm (declared g.2)) := by
      rw [← form_of_encode he, decode_form (hg ⟨b, he⟩)]
    rw [List.flatMap_cons, ih hd hdec, glyphMember]
    have hlive : liveOf (get ((Json.obj [(Key.present, present),
        (Key.fields, .obj [(Key.descriptor, reg)])]).get Key.fields) Key.descriptor) =
        ⟨[b], false⟩ := hreg.liveOf
    rw [hlive]
    simp only [hdecode]
    rfl

/-- What a state shows that was enriched. -/
def shownMantles (policy : JoinPolicy) (mantles : List (List (CString × Json))) : List Json :=
  (shownMembers (some (.obj mantles.flatten))).map fun m => flattenMantle policy m.1 m.2

theorem flatten_enriched (policy : JoinPolicy) (mantles : List (List (CString × Json)))
    (glyphs : List (CString × Json)) :
    flatten (.obj [(Key.palabra, .num Double.one), (Key.mantles, .obj mantles.flatten),
      (Key.glyphs, .obj glyphs)]) policy =
    .obj ((Key.mantles, .arr (shownMantles policy mantles)) ::
      if (shownMembers (some (.obj glyphs))).isEmpty then []
      else [(Key.glyphs, .obj ((shownMembers (some (.obj glyphs))).flatMap glyphMember))]) := rfl

/-- Every declaration is shown. -/
theorem shownMembers_glyphs {gs outs : List (CString × Json)}
    (h : List.Forall₂ GlyphEnriched gs outs) :
    (shownMembers (some (.obj outs))).Perm outs := by
  unfold shownMembers
  rw [childMembers, Json.members_obj, List.filter_eq_self.mpr fun g hg => ?_]
  · exact Sorting.sortOn_perm _ _
  · obtain ⟨x, -, hx⟩ := forall₂_right h ((Sorting.mem_sortOn).mp hg)
    exact hx.alive

/-- What is shown declares what was declared. -/
theorem childMembers_shown {policy : JoinPolicy} {mantles : List (List (CString × Json))}
    {outs : List (CString × Json)}
    (h : List.Forall₂ GlyphEnriched (childMembers (state.get Key.glyphs)) outs)
    (hd : DeclaredOnce state)
    (hdec : ∀ g ∈ declarationsOf state, HasForm g.2 → Decodable g.2) :
    (childMembers ((flatten (.obj [(Key.palabra, .num Double.one),
      (Key.mantles, .obj mantles.flatten), (Key.glyphs, .obj outs)]) policy).get Key.glyphs)).Perm
        (shownGlyphs state) := by
  have hshown : outs.flatMap glyphMember = shownGlyphs state :=
    flatMap_glyphMember h (fun g hg => hd.2 _ (List.mem_map.mpr ⟨g, hg, rfl⟩))
      fun g hg => hdec _ (List.mem_map.mpr ⟨g, hg, rfl⟩)
  have hperm := (shownMembers_glyphs h).flatMap_right glyphMember
  rw [hshown] at hperm
  rw [flatten_enriched]
  cases hs : (shownMembers (some (.obj outs))).isEmpty with
  | true =>
    rw [List.isEmpty_iff.mp hs] at hperm
    exact hperm
  | false => exact hperm

/-- The declarations have their canonical form again. -/
theorem canonGlyphs_returned {y : Json} {b : Bytes}
    (hobj : ∀ n, y.get Key.glyphs = some n → n.isObject = true)
    (hp : (childMembers (y.get Key.glyphs)).Perm (shownGlyphs state)) (hd : DeclaredOnce state)
    (hb : canonGlyphs state = .ok b) : canonGlyphs y = .ok b ∧ DeclaredOnce y := by
  have he : encode (.obj (declarationsOf state)) = .ok b := encode_declarationsOf hb hd
  have hform : HasForm (.obj (declarationsOf state)) := ⟨b, he⟩
  have hmembers := (hasForm_obj.mp hform).1
  -- One declaration that is shown.
  have hone : ∀ g ∈ childMembers (y.get Key.glyphs), validUtf8 g.1.bytes = true ∧
      declared g.2 = g.2 ∧ HasForm g.2 ∧ ∃ d, canonGlyphDescriptor g.2 = .ok d := by
    intro g hg
    obtain ⟨d, hdm, rfl⟩ := List.mem_map.mp (hp.mem_iff.mp hg)
    obtain ⟨x, hx, rfl⟩ := List.mem_map.mp hdm
    obtain ⟨hu, hf⟩ := hmembers _ hdm
    obtain ⟨hself, hdesc⟩ := canonGlyphDescriptor_norm hf
    exact ⟨hu, hself, hasForm_norm hf, _, hdesc⟩
  have hself : declarationsOf y = childMembers (y.get Key.glyphs) :=
    (List.map_congr_left fun g hg => by rw [(hone g hg).2.1]; rfl).trans (List.map_id _)
  have hnodup : ((declarationsOf y).map Prod.fst).Nodup := by
    rw [hself, (hp.map Prod.fst).nodup_iff, shownGlyphs, map_normMember_names]
    exact hd.1
  have hdy : DeclaredOnce y := by
    refine ⟨hnodup, fun d hdm => ?_⟩
    rw [hself] at hdm
    obtain ⟨-, -, hf, c, hc⟩ := hone d hdm
    obtain ⟨k, v⟩ := d
    cases v with
    | obj ms => exact (hasForm_obj.mp hf).2
    | _ => cases hc
  obtain ⟨c, hc⟩ : ∃ c, canonGlyphs y = .ok c := by
    unfold canonGlyphs
    cases hg : y.get Key.glyphs with
    | none => exact ⟨_, rfl⟩
    | some n =>
      rw [hg] at hone
      cases n with
      | obj ms =>
        obtain ⟨ds, hds, hnames⟩ : ∃ ds, declarations ms = .ok ds ∧
            ds.map Prod.fst = ms.map fun g => g.1.bytes :=
          declarations_ok fun g hgm => (hone g hgm).2.2.2
        dsimp only
        rw [hds]
        refine encodeMapOfEncoded_ok.mpr fun f hf => ?_
        have hfm : f.1 ∈ ms.map fun g => g.1.bytes := hnames ▸ List.mem_map_of_mem hf
        obtain ⟨g, hgm, hgf⟩ := List.mem_map.mp hfm
        rw [← hgf]
        exact (hone g hgm).1
      | _ => exact absurd (hobj _ hg) (by simp [Json.isObject])
  have hcy : encode (.obj (declarationsOf y)) = .ok c := encode_declarationsOf hc hdy
  have hsame : encode (.obj (declarationsOf y)) = .ok b := by
    rw [hself, encode_obj_eq_of_perm hp (hself ▸ ⟨c, hcy⟩), shownGlyphs, encode_normMembers hform, he]
  rw [hcy] at hsame
  exact ⟨hc.trans hsame, hdy⟩

theorem shownMembers_mantles {ms : List Json} {outs : List (List (CString × Json))}
    (h : List.Forall₂ MantleEnriched ms outs) :
    (shownMembers (some (.obj outs.flatten))).Perm outs.flatten := by
  unfold shownMembers
  rw [childMembers, Json.members_obj, List.filter_eq_self.mpr fun g hg => ?_]
  · exact Sorting.sortOn_perm _ _
  · obtain ⟨out, hout, hg⟩ := List.mem_flatten.mp ((Sorting.mem_sortOn).mp hg)
    obtain ⟨m, -, hm⟩ := forall₂_right h hout
    exact hm.alive g hg

/-- What a state must be for everything in it to come back. -/
structure Carried (state : Json) : Prop where
  /-- Mantles are items of a list. -/
  mantles : ∀ m ∈ childValues (state.get Key.mantles), (mantleName m).isSome = true →
    m ∈ arrayItems (state.get Key.mantles)
  /-- Each of them comes back. -/
  each : ∀ m ∈ arrayItems (state.get Key.mantles), CarriedMantle m
  /-- Every value that is written can be read again. -/
  text : ∀ v ∈ written state, HasForm v ∧ depth v ≤ nestingLimit
  /-- No declaration is there twice, or names a member twice. -/
  once : DeclaredOnce state
  /-- The declarations can be read again. -/
  declared : ∀ d ∈ declarationsOf state, depth d.2 ≤ nestingLimit

/-- The things of a list are named, and nothing else is. -/
theorem names_of_items {nameOf : Json → Option CString} {n : Option Json}
    (hsub : ∀ v ∈ childValues n, (nameOf v).isSome = true → v ∈ arrayItems n)
    (hall : ∀ v ∈ arrayItems n, ∃ k, nameOf v = some k) :
    ((childValues n).filterMap nameOf).map some = (arrayItems n).map nameOf := by
  have hmap : ∀ {xs : List Json}, (∀ v ∈ xs, ∃ k, nameOf v = some k) →
      (xs.filterMap nameOf).map some = xs.map nameOf := by
    intro xs h
    induction xs with
    | nil => rfl
    | cons v xs ih =>
      obtain ⟨⟨k, hk⟩, h⟩ := List.forall_mem_cons.mp h
      rw [List.filterMap_cons_some hk, List.map_cons, List.map_cons, ih h, hk]
  have hnone : arrayItems n = [] → ((childValues n).filterMap nameOf).map some = [] := by
    intro he
    rw [List.map_eq_nil_iff, List.filterMap_eq_nil_iff]
    intro v hv
    cases hn : nameOf v with
    | none => rfl
    | some k =>
      have hmem := hsub v hv (by rw [hn]; rfl)
      rw [he] at hmem
      cases hmem
  rcases n with _ | n
  · exact hnone rfl
  · cases n with
    | arr xs =>
      have hc : childValues (some (.arr xs)) = xs := by
        simp [childValues, Json.child]
      rw [hc]
      exact hmap hall
    | _ => exact hnone rfl

/-- Names that are apart in the list are apart. -/
theorem nodup_names {nameOf : Json → Option CString} {n : Option Json}
    (hsub : ∀ v ∈ childValues n, (nameOf v).isSome = true → v ∈ arrayItems n)
    (hall : ∀ v ∈ arrayItems n, ∃ k, nameOf v = some k)
    (hd : ((arrayItems n).map nameOf).Nodup) : ((childValues n).filterMap nameOf).Nodup := by
  rw [← names_of_items hsub hall] at hd
  exact List.Nodup.of_map some hd

/-- The name that is read back as text is the name of the mantle. -/
theorem textOr_mantleName {m : Json} {name : CString} (h : mantleName m = some name) :
    textOr (m.get Key.name) = name := by
  rw [textOr, strOr, show (m.get Key.name).bind Json.string? = some name from h]
  rfl

theorem name_flattenMantle (policy : JoinPolicy) (name : CString) (m : Json) :
    textOr ((flattenMantle policy name m).get Key.name) = name := by
  unfold flattenMantle
  dsimp only
  cases shownField policy (m.get Key.fields) Key.id <;> rfl

/-- A state that was enriched is shown with the canonical form it had. -/
theorem canonSlice_returned {policy : JoinPolicy} {doc : Json} {b : Bytes}
    (hst : StateEnriched state doc) (hc : Carried state) (hdec : ∀ v ∈ written state, Decodable v)
    (hdecl : ∀ d ∈ declarationsOf state, HasForm d.2 → Decodable d.2)
    (hb : canonSlice state {} = .ok b) : canonSlice (flatten doc policy) {} = .ok b := by
  obtain ⟨mantles, glyphs, hm, hg, rfl⟩ := hst
  obtain ⟨mb, gb, hmb, hnames, hgb, hb⟩ := canonSlice_eq_ok.mp hb
  have hitem : ∀ m ∈ arrayItems (state.get Key.mantles), ∃ b, canonMantle {} m = .ok b :=
    fun m => encodeEach_item hmb
  -- The mantles, as a set.
  have hset : Setwise (fun m mo => canonMantle {} m = canonMantle {} (flattenMantle policy mo.1 mo.2))
      (arrayItems (state.get Key.mantles)) mantles.flatten := by
    refine setwise_flatten hm (fun m => mem_childValues_of_arrayItems) (fun m hmm out hout => ?_)
      fun m hmm out hout hne => hc.mantles m hmm ?_
    · obtain ⟨b, hbm⟩ := hitem m hmm
      have hdm : ∀ v ∈ writtenMantle m, Decodable v := fun v hv =>
        hdec v (List.mem_flatMap.mpr ⟨m, mem_childValues_of_arrayItems hmm, hv⟩)
      obtain ⟨name, hname, -⟩ := mantleName_of_canonMantle hbm
      cases hout with
      | skipped hn => rw [hn] at hname; cases hname
      | mantle hn hp hf hr ht hl =>
        exact ⟨_, rfl, hbm.trans (canonMantle_returned hn hf hr hl hdm (hc.each m hmm) hbm).symm⟩
    · cases hout with
      | skipped _ => exact absurd rfl hne
      | mantle hn _ _ _ _ _ => rw [hn]; rfl
  have hperm := (shownMembers_mantles hm).map fun mo => flattenMantle policy mo.1 mo.2
  have hshown : arrayItems ((flatten (.obj [(Key.palabra, .num Double.one),
      (Key.mantles, .obj mantles.flatten), (Key.glyphs, .obj glyphs)]) policy).get Key.mantles) =
      shownMantles policy mantles := by
    rw [flatten_enriched]
    rfl
  have hset' : Setwise (fun m n => canonMantle {} m = canonMantle {} n)
      (arrayItems (state.get Key.mantles)) (shownMantles policy mantles) := by
    constructor
    · intro m hmm
      obtain ⟨mo, hmo, he⟩ := hset.1 m hmm
      exact ⟨_, hperm.mem_iff.mpr (List.mem_map.mpr ⟨mo, hmo, rfl⟩), he⟩
    · intro y hy
      obtain ⟨mo, hmo, rfl⟩ := List.mem_map.mp (hperm.mem_iff.mp hy)
      exact hset.2 mo hmo
  obtain ⟨mb', hmb', he⟩ := encodeEach_set hmb hset'
  -- Their names.
  have hnames' : ((shownMantles policy mantles).map fun m => (textOr (m.get Key.name)).bytes).Nodup := by
    have hall : ((arrayItems (state.get Key.mantles)).map mantleName).Nodup := by
      refine List.Nodup.of_map (fun k : Option CString => (k.getD .empty).bytes) ?_
      rw [List.map_map]
      exact hnames
    have hfst := nodup_names hc.mantles (fun m hmm => by
      obtain ⟨b, hbm⟩ := hitem m hmm
      obtain ⟨name, hname, -⟩ := mantleName_of_canonMantle hbm
      exact ⟨name, hname⟩) hall
    rw [← names_mantles hm] at hfst
    have hflat := hfst.map (f := CString.bytes) fun _ _ => CString.ext
    rw [List.map_map] at hflat
    rw [shownMantles, List.map_map, ((shownMembers_mantles hm).map _).nodup_iff]
    refine (List.map_congr_left fun mo _ => ?_) ▸ hflat
    simp only [Function.comp_apply, name_flattenMantle]
  -- The declarations.
  obtain ⟨hgb', -⟩ := canonGlyphs_returned (y := flatten (.obj [(Key.palabra, .num Double.one),
    (Key.mantles, .obj mantles.flatten), (Key.glyphs, .obj glyphs)]) policy) (fun n hn => by
      rw [flatten_enriched] at hn
      cases hs : (shownMembers (some (.obj glyphs))).isEmpty with
      | true => rw [hs] at hn; cases hn
      | false => rw [hs] at hn; cases hn; rfl)
    (childMembers_shown hg hc.once hdecl) hc.once hgb
  refine canonSlice_eq_ok.mpr ⟨mb', gb, ?_, ?_, hgb', ?_⟩
  · rw [hshown]
    exact hmb'
  · rw [hshown]
    exact hnames'
  · rw [he]
    exact hb

end

/-! ### Names -/

theorem nodup_prefixed {pre : CString} {ks : List CString} (h : ks.Nodup) :
    (ks.map fun k => pre ++ k).Nodup :=
  h.map fun _ _ => CString.append_left_cancel

theorem prefix_disjoint {pre : CString} {ks ls : List CString}
    (h : ∀ l ∈ ls, l.startsWith pre = false) : (ks.map fun k => pre ++ k).Disjoint ls := by
  intro x hx hl
  obtain ⟨k, -, rfl⟩ := List.mem_map.mp hx
  exact append_ne (h _ hl) k rfl

theorem contentRegisters_obj {r : Json} {ms : List (CString × Json)}
    (h : r.get Key.content = some (.obj ms)) :
    contentRegisters r = ms.map fun m => (Key.contentDot ++ m.1, some m.2) := by
  unfold contentRegisters
  rw [h]
  simp only [Json.child, List.map_map]
  rfl

/-- The names of an optional member's registers. -/
theorem unlessDefault_names (k : CString) (v : Option Json) :
    (unlessDefault k v).map Prod.fst = [] ∨ (unlessDefault k v).map Prod.fst = [k] := by
  unfold unlessDefault
  cases nonDefault v with
  | none => exact .inl rfl
  | some w => exact .inr rfl

/-- The registers of a rune whose content is an object are apart and allowed. -/
theorem runeRegisters_named {r : Json} (hobj : ∀ c, r.get Key.content = some c → c.isObject = true)
    (hd : ((childMembers (r.get Key.content)).map Prod.fst).Nodup)
    (hn : ∀ c ∈ childMembers (r.get Key.content), c.1.isEmpty = false) :
    RegistersNamed runeFieldAllowed (runeRegisters r) := by
  have hcontent : contentRegisters r =
      (childMembers (r.get Key.content)).map fun m => (Key.contentDot ++ m.1, some m.2) := by
    cases hc : r.get Key.content with
    | none => rw [contentRegisters, hc]; rfl
    | some c =>
      cases c with
      | obj ms => exact contentRegisters_obj hc
      | _ => exact absurd (hobj _ hc) (by simp [Json.isObject])
  obtain ⟨rest, hrest, hcase⟩ : ∃ rest, (unlessDefault Key.relations (r.get Key.relations)).map
      Prod.fst = rest ∧ (rest = [] ∨ rest = [Key.relations]) := ⟨_, rfl, unlessDefault_names _ _⟩
  have hnames : (runeRegisters r).map Prod.fst = [Key.spiritName, Key.glyph] ++
      (kFacets.map (fun k => Key.facetsDot ++ k) ++
        (((childMembers (r.get Key.content)).map Prod.fst).map (fun k => Key.contentDot ++ k) ++
          (Key.placement :: rest))) := by
    rw [runeRegisters_eq, hcontent]
    simp only [List.map_append, List.map_map, List.map_cons, List.map_nil, hrest]
    rfl
  have hperm : ((runeRegisters r).map Prod.fst).Perm
      (((childMembers (r.get Key.content)).map Prod.fst).map (fun k => Key.contentDot ++ k) ++
        ([Key.spiritName, Key.glyph] ++ (kFacets.map (fun k => Key.facetsDot ++ k) ++
          (Key.placement :: rest)))) := by
    rw [hnames]
    have h1 := List.perm_append_comm_assoc (kFacets.map fun k => Key.facetsDot ++ k)
      (((childMembers (r.get Key.content)).map Prod.fst).map fun k => Key.contentDot ++ k)
      (Key.placement :: rest)
    exact (h1.append_left _).trans (List.perm_append_comm_assoc _ _ _)
  -- The names that are the same for every rune.
  have hfixed : ([Key.spiritName, Key.glyph] ++ (kFacets.map (fun k => Key.facetsDot ++ k) ++
      (Key.placement :: rest))).Nodup ∧
      (∀ k ∈ [Key.spiritName, Key.glyph] ++ (kFacets.map (fun k => Key.facetsDot ++ k) ++
        (Key.placement :: rest)), k.startsWith Key.contentDot = false ∧ runeFieldAllowed k = true) := by
    rcases hcase with rfl | rfl <;> exact ⟨by decide, by decide⟩
  constructor
  · rw [hperm.nodup_iff]
    exact List.nodup_append'.mpr ⟨nodup_prefixed hd, hfixed.1,
      prefix_disjoint fun k hk => (hfixed.2 k hk).1⟩
  · intro f hf
    rcases List.mem_append.mp (hperm.mem_iff.mp (List.mem_map_of_mem hf)) with h | h
    · obtain ⟨k, hk, hkf⟩ := List.mem_map.mp h
      obtain ⟨c, hc, rfl⟩ := List.mem_map.mp hk
      rw [← hkf]
      exact runeFieldAllowed_content (hn c hc)
    · exact (hfixed.2 _ h).2

/-- The registers of a mantle are apart and allowed. -/
theorem mantleRegisters_named {m : Json}
    (hd : ((childMembers (m.get Key.tags)).map Prod.fst).Nodup)
    (hn : ∀ t ∈ childMembers (m.get Key.tags), t.1.isEmpty = false) :
    RegistersNamed mantleFieldAllowed (mantleRegisters m) := by
  obtain ⟨rest, hrest, hcase⟩ : ∃ rest, (unlessDefault Key.rules (m.get Key.rules)).map
      Prod.fst = rest ∧ (rest = [] ∨ rest = [Key.rules]) := ⟨_, rfl, unlessDefault_names _ _⟩
  have hnames : (mantleRegisters m).map Prod.fst = [Key.id, Key.domain] ++
      (((childMembers (m.get Key.tags)).map Prod.fst).map (fun k => Key.tagsDot ++ k) ++ rest) := by
    rw [mantleRegisters_eq]
    simp only [List.map_append, List.map_map, List.map_cons, List.map_nil, hrest]
    rfl
  have hperm : ((mantleRegisters m).map Prod.fst).Perm
      (((childMembers (m.get Key.tags)).map Prod.fst).map (fun k => Key.tagsDot ++ k) ++
        ([Key.id, Key.domain] ++ rest)) := by
    rw [hnames]
    exact List.perm_append_comm_assoc _ _ _
  have hfixed : ([Key.id, Key.domain] ++ rest).Nodup ∧ ∀ k ∈ [Key.id, Key.domain] ++ rest,
      k.startsWith Key.tagsDot = false ∧ mantleFieldAllowed k = true := by
    rcases hcase with rfl | rfl <;> exact ⟨by decide, by decide⟩
  constructor
  · rw [hperm.nodup_iff]
    exact List.nodup_append'.mpr ⟨nodup_prefixed hd, hfixed.1,
      prefix_disjoint fun k hk => (hfixed.2 k hk).1⟩
  · intro f hf
    rcases List.mem_append.mp (hperm.mem_iff.mp (List.mem_map_of_mem hf)) with h | h
    · obtain ⟨k, hk, hkf⟩ := List.mem_map.mp h
      obtain ⟨c, hc, rfl⟩ := List.mem_map.mp hk
      rw [← hkf]
      exact mantleFieldAllowed_tag (hn c hc)
    · exact (hfixed.2 _ h).2

/-- No key of a state is empty. -/
structure KeysNamed (state : Json) : Prop where
  /-- Of its mantles' tags. -/
  tags : ∀ m ∈ arrayItems (state.get Key.mantles), ∀ t ∈ childMembers (m.get Key.tags),
    t.1.isEmpty = false
  /-- Of its runes' content. -/
  content : ∀ m ∈ arrayItems (state.get Key.mantles), ∀ r ∈ arrayItems (m.get Key.runes),
    ∀ c ∈ childMembers (r.get Key.content), c.1.isEmpty = false
  /-- Of its declarations. -/
  glyphs : ∀ g ∈ childMembers (state.get Key.glyphs), g.1.isEmpty = false

/-- The lengths that are written fit in a machine word. -/
structure StateFits (state : Json) : Prop where
  /-- Of the values. -/
  values : ∀ v ∈ written state, ∀ b, encode v = .ok b → Fits b.length
  /-- Of the declarations. -/
  glyphs : ∀ g ∈ childMembers (state.get Key.glyphs), ∀ b, canonGlyphDescriptor g.2 = .ok b →
    Fits b.length

theorem childMembers_nodup {n : Option Json} {b : Bytes} {d : Json} (h : encodeOr n d = .ok b) :
    ((childMembers n).map Prod.fst).Nodup := by
  cases n with
  | none => exact List.nodup_nil
  | some v =>
    cases v with
    | obj ms => exact (hasForm_obj.mp ⟨b, h⟩).2
    | _ => exact List.nodup_nil

/-- A state that comes back has the names that are asked for. -/
theorem stateNames_of_carried {state : Json} {b : Bytes} (hb : canonSlice state {} = .ok b)
    (hc : Carried state) (hk : KeysNamed state)
    (hids : ∀ m ∈ arrayItems (state.get Key.mantles),
      ((arrayItems (m.get Key.runes)).map runeId).Nodup) : StateNames state := by
  obtain ⟨mb, gb, hmb, hnames, hgb, -⟩ := canonSlice_eq_ok.mp hb
  have hitem : ∀ m ∈ arrayItems (state.get Key.mantles), ∃ b, canonMantle {} m = .ok b :=
    fun m => encodeEach_item hmb
  have hrune : ∀ m ∈ arrayItems (state.get Key.mantles), ∀ r ∈ childValues (m.get Key.runes),
      ∀ id, runeId r = some id → RuneNames r id := by
    intro m hm r hr id hid
    have hri := (hc.each m hm).runes r hr (by rw [hid]; rfl)
    obtain ⟨b, hbm⟩ := hitem m hm
    obtain ⟨-, rs, es, hrs, -, -⟩ := canonMantle_eq_ok.mp hbm
    obtain ⟨c, hcr⟩ := encodeEach_item hrs hri
    obtain ⟨id', hid', hne⟩ := runeId_of_canonRune hcr
    rw [hid] at hid'
    cases hid'
    obtain ⟨-, hrec⟩ := canonRune_eq_ok.mp hcr
    obtain ⟨v, hv⟩ := encodeRecord_fields hrec (Key.content, encodeOr (r.get Key.content) (.obj []))
      (List.mem_append_left _ (by simp))
    exact ⟨hne, runeRegisters_named ((hc.each m hm).each r hri).content (childMembers_nodup hv)
      (hk.content m hm r hri)⟩
  refine ⟨?_, fun m hm name hname => ?_, ?_, hk.glyphs⟩
  · refine nodup_names hc.mantles (fun m hm => ?_) ?_
    · obtain ⟨b, hbm⟩ := hitem m hm
      obtain ⟨name, hname, -⟩ := mantleName_of_canonMantle hbm
      exact ⟨name, hname⟩
    · refine List.Nodup.of_map (fun k : Option CString => (k.getD .empty).bytes) ?_
      rw [List.map_map]
      exact hnames
  · have hmi := hc.mantles m hm (by rw [hname]; rfl)
    obtain ⟨b, hbm⟩ := hitem m hmi
    obtain ⟨name', hname', hne⟩ := mantleName_of_canonMantle hbm
    rw [hname] at hname'
    cases hname'
    obtain ⟨-, rs, es, hrs, -, hrec⟩ := canonMantle_eq_ok.mp hbm
    obtain ⟨v, hv⟩ := encodeRecord_fields hrec (Key.tags, encodeOr (m.get Key.tags) (.obj []))
      (by simp [mantleFields])
    refine ⟨hne, mantleRegisters_named (childMembers_nodup hv) (hk.tags m hmi), ?_, hrune m hmi⟩
    refine nodup_names (hc.each m hmi).runes (fun r hr => ?_) (hids m hmi)
    obtain ⟨c, hcr⟩ := encodeEach_item hrs hr
    obtain ⟨id, hid, -⟩ := runeId_of_canonRune hcr
    exact ⟨id, hid⟩
  · have hd := hc.once.1
    rwa [declarationsOf, List.map_map] at hd

/-! ### What comes back says what went out -/

theorem isObject_of_same {v : Json} {ms : List (CString × Json)} (h : SameValue v (.obj ms)) :
    v.isObject = true := by
  cases h
  rfl

theorem content_flattenRune (policy : JoinPolicy) (id : CString) (r : Json) :
    ∃ ms, (flattenRune policy id r).get Key.content = some (.obj ms) := by
  unfold flattenRune
  dsimp only
  cases shownField policy (r.get Key.fields) Key.glyph <;> exact ⟨_, rfl⟩

theorem tags_flattenRune (policy : JoinPolicy) (id : CString) (r : Json) :
    (flattenRune policy id r).get Key.tags = some (.arr (shownSet (r.get Key.tags))) := by
  unfold flattenRune
  dsimp only
  cases shownField policy (r.get Key.fields) Key.glyph <;> rfl

theorem id_flattenRune (policy : JoinPolicy) (id : CString) (r : Json) :
    textOr (get ((flattenRune policy id r).get Key.spirit) Key.id) = id := rfl

/-- A node is a list, or it has no items. -/
theorem childValues_or (n : Option Json) : childValues n = arrayItems n ∨ arrayItems n = [] := by
  rcases n with _ | n
  · exact .inr rfl
  · cases n with
    | arr xs =>
      left
      simp [childValues, Json.child, arrayItems]
    | _ => exact .inr rfl

/-- What is shown of a set that agrees with a list is the list. -/
theorem childValues_of_shown {n : Option Json} {tags : OrSet} {R : Json → Json → Prop}
    (hl : Lists (childValues n) tags) (hd : ∀ v ∈ childValues n, Decodable v)
    (h : Setwise R (arrayItems n) (shownSet (some (orsetToJson tags)))) :
    childValues n = arrayItems n := by
  rcases childValues_or n with he | he
  · exact he
  · rw [he, List.eq_nil_iff_forall_not_mem]
    intro v hv
    obtain ⟨x, hx, -⟩ := h.2 _ ((mem_shownSet hl hd).mpr ⟨v, hv, rfl⟩)
    rw [he] at hx
    cases hx

/-- Things that are shown, and agree with a list, are the things of the list. -/
theorem items_of_shown {β : Type} {P : Json → List β → Prop} {n : Option Json}
    {nameOf : Json → Option CString} {outs : List (List β)} {R : Json → β → Prop}
    (hf : List.Forall₂ P (childValues n) outs)
    (hp : ∀ v out, P v out → (nameOf v).isSome = true → out ≠ [])
    (h : Setwise R (arrayItems n) outs.flatten) :
    ∀ v ∈ childValues n, (nameOf v).isSome = true → v ∈ arrayItems n := by
  intro v hv hn
  rcases childValues_or n with he | he
  · rwa [← he]
  · obtain ⟨out, hout, hpo⟩ := forall₂_left hf hv
    obtain ⟨o, ho⟩ := List.exists_mem_of_ne_nil out (hp v out hpo hn)
    obtain ⟨x, hx, -⟩ := h.2 o (List.mem_flatten.mpr ⟨out, hout, ho⟩)
    rw [he] at hx
    cases hx

theorem flatten_of_shownRunes {policy : JoinPolicy} {rs : List Json}
    {runes : List (List (CString × Json))} {R : Json → Json → Prop} {xs : List Json}
    (hr : List.Forall₂ RuneEnriched rs runes) (h : Setwise R xs (shownRunes policy runes)) :
    Setwise (fun r ro => R r (flattenRune policy ro.1 ro.2)) xs runes.flatten := by
  constructor
  · intro r hrm
    obtain ⟨y, hy, hry⟩ := h.1 r hrm
    obtain ⟨ro, hro, rfl⟩ := (mem_shownRunes hr).mp hy
    exact ⟨ro, hro, hry⟩
  · intro ro hro
    exact h.2 _ ((mem_shownRunes hr).mpr ⟨ro, hro, rfl⟩)

/-- The one thing with a name. -/
theorem eq_of_name {outs : List (CString × Json)} (hd : (outs.map Prod.fst).Nodup)
    {k : CString} {v w : Json} (hv : (k, v) ∈ outs) (hw : (k, w) ∈ outs) : v = w :=
  congrArg Prod.snd (List.inj_on_of_nodup_map hd hv hw rfl)

section

variable {policy : JoinPolicy} {state doc : Json}

/-- A rune that comes back is one that can be carried. -/
theorem carriedRune_of_same {r : Json} {id : CString} {ro : Json}
    (hr : RuneEnriched r [(id, ro)]) (hd : ∀ v ∈ writtenRune r, Decodable v)
    (h : SameRune {} r (flattenRune policy id ro)) : CarriedRune r := by
  cases hr with
  | rune hn hp hf ht hl =>
    constructor
    · intro c hc
      obtain ⟨ms, hms⟩ := content_flattenRune policy id (.obj [(Key.present, _), (Key.fields, .obj _),
        (Key.tags, orsetToJson _)])
      have hcontent := h.content
      rw [hms, hc] at hcontent
      exact isObject_of_same hcontent
    · have htags := h.tags
      rw [tags_flattenRune] at htags
      rw [writtenRune, hn] at hd
      exact childValues_of_shown hl (List.forall_mem_append.mp hd).2 htags

/-- A mantle that comes back is one that can be carried. -/
theorem carriedMantle_of_same {m : Json} {name : CString} {mo : Json}
    (hm : MantleEnriched m [(name, mo)]) (hd : ∀ v ∈ writtenMantle m, Decodable v)
    (hnames : MantleNames m name) (hall : ∀ r ∈ arrayItems (m.get Key.runes), ∃ id, runeId r = some id)
    (h : SameMantleBy textOr {} m (flattenMantle policy name mo)) : CarriedMantle m := by
  cases hm with
  | @mantle _ present fields runes edges hn hp hf hr ht hl =>
    rw [writtenMantle, hn] at hd
    obtain ⟨hd, hde⟩ := List.forall_mem_append.mp hd
    obtain ⟨hdf, hdr⟩ := List.forall_mem_append.mp hd
    rw [flattenMantle_eq hf hdf] at h
    have hset := flatten_of_shownRunes hr h.runes
    have hnodup : (runes.flatten.map Prod.fst).Nodup := by
      rw [names_runes hr]
      exact hnames.apart
    refine ⟨fun t ht => ?_, items_of_shown hr (fun v out hv hs => ?_) hset, fun r hrm => ?_,
      childValues_of_shown hl hde h.edges⟩
    · have htags := h.tags
      rw [ht] at htags
      exact isObject_of_same htags
    · cases hv with
      | skipped hn => rw [hn] at hs; cases hs
      | rune _ _ _ _ _ => exact List.cons_ne_nil _ _
    · -- The rune with its name is its own.
      obtain ⟨⟨id, ro⟩, hro, hsame⟩ := hset.1 r hrm
      have hmem := mem_childValues_of_arrayItems hrm
      obtain ⟨out, hout, hre⟩ := forall₂_left hr hmem
      have hid : textOr (get (r.get Key.spirit) Key.id) = id := hsame.id
      have hdrune : ∀ v ∈ writtenRune r, Decodable v := fun v hv =>
        hdr v (List.mem_flatMap.mpr ⟨r, hmem, hv⟩)
      obtain ⟨id', hid'⟩ := hall r hrm
      have hown : ∃ ro', out = [(id, ro')] := by
        rw [textOr, strOr, show (get (r.get Key.spirit) Key.id).bind Json.string? = some id' from hid']
          at hid
        cases hid
        cases hre with
        | skipped hn => rw [hn] at hid'; cases hid'
        | rune hn _ _ _ _ =>
          rw [hn] at hid'
          cases hid'
          exact ⟨_, rfl⟩
      obtain ⟨ro', rfl⟩ := hown
      have hmem' : (id, ro') ∈ runes.flatten := List.mem_flatten.mpr ⟨_, hout, List.mem_singleton.mpr rfl⟩
      cases eq_of_name hnodup hmem' hro
      exact carriedRune_of_same hre hdrune hsame

/-- What is encoded as a map is an object. -/
theorem isObject_of_head {v : Json} {b : Bytes} (h : encode v = .ok b) (hh : b.head? = some 0x08) :
    v.isObject = true := by
  cases v with
  | obj ms => rfl
  | null => cases h; cases hh
  | bool c => cases h; cases c <;> cases hh
  | num d =>
    rw [encode, encodeNumber] at h
    split at h
    · cases h
    · cases hw : d.whole? <;> (rw [hw] at h; cases h; cases hh)
  | str s =>
    rw [encode] at h
    rw [(encodeStr_eq_ok.mp h).2] at hh
    cases hh
  | arr xs =>
    rw [(encode_arr_eq_ok.mp h).2] at hh
    cases hh

/-- A declaration that can be read names no member twice. -/
theorem nodup_of_isCanonical {g : Json} {b : Bytes} (h : canonGlyphDescriptor g = .ok b)
    (hc : isCanonical b = true) : ((declared g).members.map Prod.fst).Nodup := by
  obtain ⟨v, hv, he⟩ := isCanonical_iff.mp hc
  have hobj := isObject_of_head he (head_of_descriptor h)
  cases g with
  | obj ms =>
    rw [canonGlyphDescriptor] at h
    obtain ⟨fs, hfs, h⟩ := bind_eq_ok.mp h
    obtain ⟨ps, hps, h⟩ := bind_eq_ok.mp h
    cases h
    obtain ⟨hforms, hps'⟩ := encodeMembers_eq_ok.mp (encodeMembers_declared hfs hps)
    cases v with
    | obj ns =>
      obtain ⟨hn, hnd, hb⟩ := encode_obj_eq_ok.mp he
      have hcoded : ∀ {ms : List (CString × Json)} {qs : List (Bytes × Bytes)},
          (∀ m ∈ ms, validUtf8 m.1.bytes = true ∧ HasForm m.2) → qs.Perm (ms.map memberForm) →
            ∀ p ∈ qs, (∃ k, p.1 = strBytes k) ∧ Coded Increasing p.2 := by
        intro ms qs hms hq p hp
        obtain ⟨m, hm, rfl⟩ := List.mem_map.mp (hq.mem_iff.mp hp)
        exact ⟨⟨m.1.bytes, rfl⟩, coded_form (hms m hm).2⟩
      have hsorted : sortPairs ps = (sortMembers ns).map memberForm :=
        Coded.map_inj (hcoded hforms (hps' ▸ Sorting.sortOn_perm Prod.fst ps))
          (hcoded hn ((sortMembers_perm ns).map memberForm)) hb
      have hkeys : ((sortPairs ps).map Prod.fst).Nodup := by
        rw [hsorted, memberForm_keys_nodup]
        exact ((sortMembers_perm ns).map Prod.fst).nodup_iff.mpr hnd
      have hps_keys := ((Sorting.sortOn_perm Prod.fst ps).map Prod.fst).nodup_iff.mp hkeys
      rw [hps'] at hps_keys
      exact memberForm_keys_nodup.mp hps_keys
    | _ => cases hobj
  | _ => cases h

/-- The declarations of a flattened document are an object, if they are there. -/
theorem glyphs_flatten (policy : JoinPolicy) (root : Json) :
    ∀ n, (flatten root policy).get Key.glyphs = some n → n.isObject = true := by
  intro n hn
  unfold flatten at hn
  dsimp only at hn
  cases hs : (shownMembers (root.get Key.glyphs)).isEmpty with
  | true => rw [hs] at hn; cases hn
  | false => rw [hs] at hn; cases hn; rfl

/-- What a state says again, mantle by mantle. -/
theorem flatten_of_shownMantles {ms : List Json} {mantles : List (List (CString × Json))}
    {R : Json → Json → Prop} {xs : List Json} (hm : List.Forall₂ MantleEnriched ms mantles)
    (h : Setwise R xs (shownMantles policy mantles)) :
    Setwise (fun m mo => R m (flattenMantle policy mo.1 mo.2)) xs mantles.flatten := by
  have hmem : ∀ mo, mo ∈ shownMembers (some (.obj mantles.flatten)) ↔ mo ∈ mantles.flatten :=
    fun mo => (shownMembers_mantles hm).mem_iff
  constructor
  · intro m hmm
    obtain ⟨y, hy, hr⟩ := h.1 m hmm
    obtain ⟨mo, hmo, rfl⟩ := List.mem_map.mp hy
    exact ⟨mo, (hmem mo).mp hmo, hr⟩
  · intro mo hmo
    exact h.2 _ (List.mem_map.mpr ⟨mo, (hmem mo).mpr hmo, rfl⟩)

/-- A state that comes back is one that can be carried. -/
theorem carried_of_same {b : Bytes} (hb : canonSlice state {} = .ok b)
    (hst : StateEnriched state doc) (hnames : StateNames state)
    (hd : ∀ v ∈ written state, Decodable v) (honce : DeclaredOnce state)
    (hdecl : ∀ d ∈ declarationsOf state, Decodable d.2)
    (hback : canonSlice (flatten doc policy) {} = .ok b) : Carried state := by
  obtain ⟨mantles, glyphs, hm, hg, rfl⟩ := hst
  obtain ⟨mb, gb, hmb, -, hgb, -⟩ := canonSlice_eq_ok.mp hb
  obtain ⟨-, hdy⟩ := canonGlyphs_returned (glyphs_flatten policy _)
    (childMembers_shown hg honce fun d hdm _ => hdecl d hdm) honce hgb
  have hsame := (canonSlice_inj hb hback honce hdy).mp rfl
  have hset := flatten_of_shownMantles hm (show Setwise (SameMantleBy textOr {})
    (arrayItems (state.get Key.mantles)) (shownMantles policy mantles) by
      have hmantles := hsame.mantles
      rwa [flatten_enriched] at hmantles)
  have hnodup : (mantles.flatten.map Prod.fst).Nodup := by
    rw [names_mantles hm]
    exact hnames.apart
  refine ⟨items_of_shown hm (fun v out hv hs => ?_) hset, fun m hmm => ?_,
    fun v hv => ⟨(hd v hv).hasForm, (hd v hv).depth_le⟩, honce, fun d hdm => (hdecl d hdm).depth_le⟩
  · cases hv with
    | skipped hn => rw [hn] at hs; cases hs
    | mantle _ _ _ _ _ _ => exact List.cons_ne_nil _ _
  · -- The mantle with its name is its own.
    obtain ⟨⟨name, mo⟩, hmo, hsm⟩ := hset.1 m hmm
    have hmem := mem_childValues_of_arrayItems hmm
    obtain ⟨out, hout, hme⟩ := forall₂_left hm hmem
    obtain ⟨c, hc⟩ := encodeEach_item hmb hmm
    obtain ⟨name', hname', -⟩ := mantleName_of_canonMantle hc
    obtain ⟨-, rs, es, hrs, -, -⟩ := canonMantle_eq_ok.mp hc
    have hall : ∀ r ∈ arrayItems (m.get Key.runes), ∃ id, runeId r = some id := by
      intro r hr
      obtain ⟨c', hc'⟩ := encodeEach_item hrs hr
      obtain ⟨id, hid, -⟩ := runeId_of_canonRune hc'
      exact ⟨id, hid⟩
    have hown : ∃ mo', out = [(name, mo')] := by
      have hn := hsm.name
      rw [textOr_mantleName hname', name_flattenMantle] at hn
      subst hn
      cases hme with
      | skipped hn => rw [hn] at hname'; cases hname'
      | mantle hn _ _ _ _ _ =>
        rw [hn] at hname'
        cases hname'
        exact ⟨_, rfl⟩
    obtain ⟨mo', rfl⟩ := hown
    have hmo' : (name, mo') ∈ mantles.flatten := List.mem_flatten.mpr ⟨_, hout, List.mem_singleton.mpr rfl⟩
    cases eq_of_name hnodup hmo' hmo
    have hname : mantleName m = some name := by
      cases hme with
      | mantle hn _ _ _ _ _ => exact hn
    exact carriedMantle_of_same hme (fun v hv => hd v (List.mem_flatMap.mpr ⟨m, hmem, hv⟩))
      (hnames.mantles m hmem name hname) hall hsm

/-- An accepted state comes back from its enriched document, which is accepted and has no
conflicts, exactly when it can be carried. -/
theorem comes_back_iff {b : Bytes} (mint : Mint) (policy : JoinPolicy)
    (hb : canonSlice state {} = .ok b)
    (hids : ∀ m ∈ arrayItems (state.get Key.mantles),
      ((arrayItems (m.get Key.runes)).map runeId).Nodup)
    (hkeys : KeysNamed state) (hfit : StateFits state) :
    (∃ doc, enrich mint state = .ok doc ∧ canonSlice (flatten doc policy) {} = .ok b ∧
      validate doc = .ok () ∧ conflicts doc policy = []) ↔ Carried state := by
  obtain ⟨mb, gb, -, -, hgb, -⟩ := canonSlice_eq_ok.mp hb
  have hdesc := descriptor_of_canonGlyphs hgb
  have hvalue : ∀ v ∈ written state, HasForm v → Fits (form v).length :=
    fun v hv hf => hfit.values v hv _ (encode_of_hasForm hf)
  constructor
  · rintro ⟨doc, henr, hback, hval, -⟩
    have hst := enrich_ok henr
    obtain ⟨hnames, hreads, hglyphs⟩ := (validate_enriched hst).mp hval
    have hforms := written_hasForm hst
    have hdec : ∀ v ∈ written state, Decodable v := fun v hv =>
      decodable_of_form (hforms v hv)
        ((reads_iff (hforms v hv) (hvalue v hv (hforms v hv))).mp (hreads v hv))
        (hvalue v hv (hforms v hv))
    have hdeclared : ∀ d ∈ declarationsOf state, (d.2.members.map Prod.fst).Nodup ∧ Decodable d.2 := by
      intro d hdm
      obtain ⟨g, hg, rfl⟩ := List.mem_map.mp hdm
      obtain ⟨c, hc⟩ := hdesc g hg
      have hcanon := hglyphs g hg c hc
      have hnd := nodup_of_isCanonical hc hcanon
      have he := encode_declared hc hnd
      have hfits : Fits (form (declared g.2)).length := by
        rw [form_of_encode he]
        exact hfit.glyphs g hg c hc
      refine ⟨hnd, decodable_of_form ⟨c, he⟩ ((isCanonical_form_iff ⟨c, he⟩ hfits).mp ?_) hfits⟩
      rwa [form_of_encode he]
    have honce : DeclaredOnce state := by
      refine ⟨?_, fun d hdm => (hdeclared d hdm).1⟩
      rw [declarationsOf, List.map_map]
      exact hnames.glyphs
    exact carried_of_same hb hst hnames hdec honce (fun d hdm => (hdeclared d hdm).2) hback
  · intro hc
    obtain ⟨doc, henr⟩ := enrich_total mint (fun v hv => (hc.text v hv).1) hdesc
    have hst := enrich_ok henr
    have hdec : ∀ v ∈ written state, Decodable v := fun v hv =>
      decodable_of_form (hc.text v hv).1 (hc.text v hv).2 (hvalue v hv (hc.text v hv).1)
    have hdeclared : ∀ g ∈ childMembers (state.get Key.glyphs), ∀ c, canonGlyphDescriptor g.2 = .ok c →
        encode (declared g.2) = .ok c ∧ Decodable (declared g.2) := by
      intro g hg c hcg
      have hdm : (g.1, declared g.2) ∈ declarationsOf state := List.mem_map.mpr ⟨g, hg, rfl⟩
      have he := encode_declared hcg (hc.once.2 _ hdm)
      refine ⟨he, decodable_of_form ⟨c, he⟩ (hc.declared _ hdm) ?_⟩
      rw [form_of_encode he]
      exact hfit.glyphs g hg c hcg
    refine ⟨doc, henr, canonSlice_returned hst hc hdec (fun d hdm _ => ?_) hb,
      (validate_enriched hst).mpr ⟨stateNames_of_carried hb hc hkeys hids, fun v hv => ?_,
        fun g hg c hcg => ?_⟩, conflicts_enriched hst policy⟩
    · obtain ⟨g, hg, rfl⟩ := List.mem_map.mp hdm
      obtain ⟨c, hcg⟩ := hdesc g hg
      exact (hdeclared g hg c hcg).2
    · exact (reads_iff (hdec v hv).hasForm (hvalue v hv (hdec v hv).hasForm)).mpr (hdec v hv).depth_le
    · obtain ⟨he, hdg⟩ := hdeclared g hg c hcg
      rw [← form_of_encode he]
      exact isCanonical_form hdg

end

/-- A rune with some content, alone in a mantle. -/
def holding (content : Json) : Json :=
  .obj [(Key.mantles, .arr [.obj [(Key.name, .str (.ofLit "m")), (Key.runes, .arr [.obj
    [(Key.spirit, .obj [(Key.id, .str (.ofLit "a"))]), (Key.content, content)]])]])]

theorem holding_named {c : Json} (h : ∀ m ∈ childMembers (some c), m.1.isEmpty = false) :
    (∀ m ∈ arrayItems ((holding c).get Key.mantles),
      ((arrayItems (m.get Key.runes)).map runeId).Nodup) ∧ KeysNamed (holding c) := by
  refine ⟨List.forall_mem_singleton.mpr (List.nodup_singleton _), ?_, ?_, fun g hg => by cases hg⟩
  · exact List.forall_mem_singleton.mpr fun t ht => by cases ht
  · exact List.forall_mem_singleton.mpr (List.forall_mem_singleton.mpr h)

/-- A rune whose content is an object comes back. -/
theorem comes_back_object : ∃ b doc, canonSlice (holding (.obj [(.ofLit "x", .num Double.one)])) {} = .ok b ∧
    enrich (counterMint (.ofLit "P")) (holding (.obj [(.ofLit "x", .num Double.one)])) = .ok doc ∧
    canonSlice (flatten doc {}) {} = .ok b ∧ validate doc = .ok () ∧ conflicts doc {} = [] := by
  have hb : canonSlice (holding (.obj [(.ofLit "x", .num Double.one)])) {} =
      .ok ((canonSlice (holding (.obj [(.ofLit "x", .num Double.one)])) {}).toOption.getD []) := by
    decide +kernel
  obtain ⟨hids, hkeys⟩ := holding_named (c := .obj [(.ofLit "x", .num Double.one)])
    (List.forall_mem_singleton.mpr rfl)
  have hall : ∀ v ∈ written (holding (.obj [(.ofLit "x", .num Double.one)])),
      (encode v = .ok (form v) ∧ depth v ≤ nestingLimit) ∧ (form v).length < 100 := by decide +kernel
  have hfit : StateFits (holding (.obj [(.ofLit "x", .num Double.one)])) := by
    refine ⟨fun v hv b he => ?_, fun g hg => by cases hg⟩
    have hlen := (hall v hv).2
    rw [form_of_encode he] at hlen
    exact hlen.trans (show 100 < 2 ^ 64 by decide)
  have hcarried : Carried (holding (.obj [(.ofLit "x", .num Double.one)])) := by
    refine ⟨fun m hm _ => hm, List.forall_mem_singleton.mpr ⟨fun t ht => (by cases ht), fun r hr _ => hr,
      List.forall_mem_singleton.mpr ⟨fun c hc => (by cases hc; rfl), rfl⟩, rfl⟩,
      fun v hv => ⟨⟨_, (hall v hv).1.1⟩, (hall v hv).1.2⟩, ⟨List.nodup_nil, fun d hd => (by cases hd)⟩,
      fun d hd => (by cases hd)⟩
  obtain ⟨doc, hdoc⟩ := (comes_back_iff (counterMint (.ofLit "P")) {} hb hids hkeys hfit).mpr hcarried
  exact ⟨_, doc, hb, hdoc⟩

/-- A rune whose content is null does not come back. -/
theorem null_content_lost :
    ((∀ m ∈ arrayItems ((holding .null).get Key.mantles),
      ((arrayItems (m.get Key.runes)).map runeId).Nodup) ∧ KeysNamed (holding .null)) ∧
    ∃ b, canonSlice (holding .null) {} = .ok b ∧ ¬∃ doc,
      enrich (counterMint (.ofLit "P")) (holding .null) = .ok doc ∧ canonSlice (flatten doc {}) {} = .ok b := by
  have hb : canonSlice (holding .null) {} =
      .ok ((canonSlice (holding .null) {}).toOption.getD []) := by decide +kernel
  refine ⟨holding_named fun m hm => (by cases hm), _, hb, ?_⟩
  rintro ⟨doc, henr, hback⟩
  obtain ⟨mantles, glyphs, hm, hg, rfl⟩ := enrich_ok henr
  have honce : DeclaredOnce (holding .null) := ⟨List.nodup_nil, fun d hd => by cases hd⟩
  obtain ⟨mb, gb, -, -, hgb, -⟩ := canonSlice_eq_ok.mp hb
  obtain ⟨-, hdy⟩ := canonGlyphs_returned (glyphs_flatten {} _)
    (childMembers_shown hg honce fun d hd => by cases hd) honce hgb
  have hmantles := ((canonSlice_inj hb hback honce hdy).mp rfl).mantles
  rw [flatten_enriched] at hmantles
  obtain ⟨y, hy, hsame⟩ := hmantles.1 _ List.mem_cons_self
  obtain ⟨mo, -, rfl⟩ := List.mem_map.mp hy
  obtain ⟨z, hz, hrune⟩ := hsame.runes.1 _ List.mem_cons_self
  have hruns : (flattenMantle {} mo.1 mo.2).get Key.runes =
      some (.arr ((shownMembers (mo.2.get Key.runes)).map fun r => flattenRune {} r.1 r.2)) := by
    unfold flattenMantle
    dsimp only
    cases shownField {} (mo.2.get Key.fields) Key.id <;>
      cases shownField {} (mo.2.get Key.fields) Key.domain <;> rfl
  rw [hruns] at hz
  obtain ⟨ro, -, rfl⟩ := List.mem_map.mp hz
  obtain ⟨ms, hms⟩ := content_flattenRune {} ro.1 ro.2
  have hcontent := hrune.content
  rw [hms] at hcontent
  cases hcontent

end VoidPalabra
