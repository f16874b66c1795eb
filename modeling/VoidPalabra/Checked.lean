import VoidPalabra.Returned
import VoidPalabra.Conflict
import VoidPalabra.Facts

/-!
# What is checked of an enriched state

A document that was enriched has no conflicts. The door lets it in exactly when the names of
its things and registers are apart and allowed, and no value nests too deep to be read.
-/

namespace VoidPalabra

/-! ### Sets -/

section

variable {path : Bytes} {rule : Values}

theorem checkOrset_holds {b : Bytes} {reg : Json} (h : Holds b reg) :
    checkOrset reg path rule = .ok () ↔ (rule = .canonical → isCanonical b = true) := by
  have hadds : ∀ c, (∃ t : Tag, (orsetFromJson (some reg)).adds[t]? = some c) ↔ c = b :=
    fun c => adds_of_holds h
  have hs : SpelledOrset reg := by
    obtain ⟨t, ht, rfl⟩ := h
    exact spelledOrset_orsetToJson (named_one ht b)
  rw [checkOrset_eq_ok, and_iff_right hs]
  refine imp_congr_right fun _ => ⟨fun ha => ?_, fun hb t v hv => ?_⟩
  · obtain ⟨t, ht⟩ := (hadds b).mpr rfl
    exact ha t b ht
  · rw [(hadds v).mp ⟨t, hv⟩]
    exact hb

theorem checkOrset_lists {vs : List Json} {s : OrSet} (h : Lists vs s) :
    checkOrset (orsetToJson s) path .canonical = .ok () ↔
      ∀ v ∈ vs, ∀ b, encode v = .ok b → isCanonical b = true := by
  have hadds : ∀ c, (∃ t : Tag, (orsetFromJson (some (orsetToJson s))).adds[t]? = some c) ↔
      ∃ v ∈ vs, encode v = .ok c := fun c => adds_of_lists h
  rw [checkOrset_eq_ok, and_iff_right (spelledOrset_orsetToJson h.named)]
  simp only [forall_const]
  constructor
  · intro ha v hv b hb
    obtain ⟨t, ht⟩ := (hadds b).mpr ⟨v, hv, hb⟩
    exact ha t b ht
  · intro ha t b hb
    obtain ⟨v, hv, he⟩ := (hadds b).mp ⟨t, hb⟩
    exact ha v hv b he

end

/-- A value is accepted when its canonical form is one. -/
def Reads (v : Json) : Prop := ∀ b, encode v = .ok b → isCanonical b = true

theorem reads_iff {v : Json} (h : HasForm v) (hl : Fits (form v).length) :
    Reads v ↔ depth v ≤ nestingLimit := by
  rw [← isCanonical_form_iff h hl]
  refine ⟨fun hr => hr _ (encode_of_hasForm h), fun hc b hb => ?_⟩
  rwa [← form_of_encode hb]

/-! ### Registers -/

section

variable {fs : List (CString × Option Json)} {out : List (CString × Json)}

theorem names_fields (h : List.Forall₂ FieldEnriched fs out) :
    out.map Prod.fst = fs.map Prod.fst := by
  induction h with
  | nil => rfl
  | cons hp _ ih => rw [List.map_cons, List.map_cons, ih, hp.1]

theorem checkFields_iff (path : CString → Bytes) (h : List.Forall₂ FieldEnriched fs out) :
    (∀ m ∈ out, checkOrset m.2 (path m.1) .canonical = .ok ()) ↔
      ∀ v ∈ fs.map (fun f => f.2.getD .null), Reads v := by
  induction h with
  | nil => simp
  | @cons f o _ _ hp _ ih =>
    obtain ⟨-, b, hb, hh⟩ := hp
    rw [List.forall_mem_cons, List.map_cons, List.forall_mem_cons, ih, checkOrset_holds hh]
    refine and_congr_left fun _ => ⟨fun hc b' hb' => ?_, fun hr _ => hr b hb⟩
    rw [show b' = b from (form_of_encode hb').symm.trans (form_of_encode hb)]
    exact hc rfl

/-- Which registers a thing may have. -/
structure RegistersNamed (allowed : CString → Bool) (fs : List (CString × Option Json)) : Prop where
  /-- No two have one name. -/
  apart : (fs.map Prod.fst).Nodup
  /-- Each is allowed. -/
  allowed : ∀ f ∈ fs, allowed f.1 = true

theorem fieldsOf_iff {allowed : CString → Bool} {path : Bytes} (h : List.Forall₂ FieldEnriched fs out) :
    fieldsOf allowed (.obj out) path = .ok () ↔ RegistersNamed allowed fs ∧
      ∀ v ∈ fs.map (fun f => f.2.getD .null), Reads v := by
  have hallowed : (∀ m ∈ out, allowed m.1 = true) ↔ ∀ f ∈ fs, allowed f.1 = true := by
    have hn := names_fields h
    rw [← List.forall_mem_map (f := Prod.fst) (P := fun k => allowed k = true), hn, List.forall_mem_map]
  unfold fieldsOf
  rw [bind_eq_ok_unit, checkMembers_eq_ok, forM_eq_ok, Json.members_obj, names_fields h, hallowed,
    checkFields_iff (fun k => path ++ lit "." ++ k.bytes) h]
  exact ⟨fun ⟨⟨_, hd, ha⟩, hr⟩ => ⟨⟨hd, ha⟩, hr⟩, fun ⟨⟨hd, ha⟩, hr⟩ => ⟨⟨rfl, hd, ha⟩, hr⟩⟩

end

/-! ### Things -/

/-- The mantles that were enriched are shown. -/
theorem MantleEnriched.alive {m : Json} {out : List (CString × Json)} (h : MantleEnriched m out) :
    ∀ mo ∈ out, (!(orsetFromJson (mo.2.get Key.present)).isEmpty) = true := by
  cases h with
  | skipped _ => exact fun mo hmo => (List.not_mem_nil hmo).elim
  | mantle _ hp _ _ _ _ => exact List.forall_mem_singleton.mpr hp.alive

theorem GlyphEnriched.alive {g out : CString × Json} (h : GlyphEnriched g out) :
    (!(orsetFromJson (out.2.get Key.present)).isEmpty) = true := by
  obtain ⟨present, reg, b, -, hp, -, rfl⟩ := h
  exact Holds.alive hp

/-- The names of a rune that is written. -/
structure RuneNames (r : Json) (id : CString) : Prop where
  /-- It has one. -/
  id : id.isEmpty = false
  /-- Its registers. -/
  registers : RegistersNamed runeFieldAllowed (runeRegisters r)

/-- The names of a mantle that is written. -/
structure MantleNames (m : Json) (name : CString) : Prop where
  /-- It has one. -/
  name : name.isEmpty = false
  /-- Its registers. -/
  registers : RegistersNamed mantleFieldAllowed (mantleRegisters m)
  /-- Its runes are apart. -/
  apart : ((childValues (m.get Key.runes)).filterMap runeId).Nodup
  /-- Each of them. -/
  runes : ∀ r ∈ childValues (m.get Key.runes), ∀ id, runeId r = some id → RuneNames r id

/-- The names of a state. -/
structure StateNames (state : Json) : Prop where
  /-- Its mantles are apart. -/
  apart : ((childValues (state.get Key.mantles)).filterMap mantleName).Nodup
  /-- Each of them. -/
  mantles : ∀ m ∈ childValues (state.get Key.mantles), ∀ name, mantleName m = some name →
    MantleNames m name
  /-- Its declarations are apart. -/
  glyphs : ((childMembers (state.get Key.glyphs)).map Prod.fst).Nodup
  /-- Each has a name. -/
  named : ∀ g ∈ childMembers (state.get Key.glyphs), g.1.isEmpty = false

theorem names_runes {rs : List Json} {outs : List (List (CString × Json))}
    (h : List.Forall₂ RuneEnriched rs outs) : outs.flatten.map Prod.fst = rs.filterMap runeId := by
  induction h with
  | nil => rfl
  | cons hp _ ih =>
    rw [List.flatten_cons, List.map_append, ih]
    cases hp with
    | skipped hn => rw [List.filterMap_cons_none hn]; rfl
    | rune hn _ _ _ _ => rw [List.filterMap_cons_some hn]; rfl

theorem names_mantles {ms : List Json} {outs : List (List (CString × Json))}
    (h : List.Forall₂ MantleEnriched ms outs) :
    outs.flatten.map Prod.fst = ms.filterMap mantleName := by
  induction h with
  | nil => rfl
  | cons hp _ ih =>
    rw [List.flatten_cons, List.map_append, ih]
    cases hp with
    | skipped hn => rw [List.filterMap_cons_none hn]; rfl
    | mantle hn _ _ _ _ _ => rw [List.filterMap_cons_some hn]; rfl

/-- A check of each thing that a list gives is a check of the list's items. -/
theorem forall_flatten {α β : Type} {P : α → List β → Prop} {C : β → Prop} {D : α → Prop}
    {xs : List α} {outs : List (List β)} (h : List.Forall₂ P xs outs)
    (hcd : ∀ x out, P x out → ((∀ o ∈ out, C o) ↔ D x)) :
    (∀ o ∈ outs.flatten, C o) ↔ ∀ x ∈ xs, D x := by
  induction h with
  | nil => simp
  | cons hp _ ih =>
    rw [List.flatten_cons, List.forall_mem_append, List.forall_mem_cons, hcd _ _ hp, ih]

theorem holds_any {b : Bytes} {reg : Json} {path : Bytes} (h : Holds b reg) :
    checkOrset reg path .any = .ok () := (checkOrset_holds h).mpr fun hc => by cases hc

theorem checkMembers_ok {n : List (CString × Json)} {path : Bytes} {allowed : CString → Bool}
    (names : List CString) (hd : names.Nodup) (ha : (names.all allowed) = true)
    (hn : n.map Prod.fst = names) : checkMembers (.obj n) path allowed = .ok () := by
  refine checkMembers_eq_ok.mpr ⟨rfl, by rw [Json.members_obj, hn]; exact hd, fun m hm => ?_⟩
  exact List.all_eq_true.mp ha _ (hn ▸ List.mem_map_of_mem hm)

theorem checkRune_enriched {r : Json} {out : List (CString × Json)} (h : RuneEnriched r out)
    (path : CString → Bytes) : (∀ ro ∈ out, checkRune ro.1 ro.2 (path ro.1) = .ok ()) ↔
      (∀ id, runeId r = some id → RuneNames r id) ∧ ∀ v ∈ writtenRune r, Reads v := by
  cases h with
  | skipped hn => simp [writtenRune, hn]
  | @rune id present fields tags hn hp hf ht hl =>
    have hmembers : checkMembers (.obj [(Key.present, present), (Key.fields, .obj fields),
        (Key.tags, orsetToJson tags)]) (path id) isRuneMember = .ok () :=
      checkMembers_ok [Key.present, Key.fields, Key.tags] (by decide) (by decide) rfl
    have hpresent : Check.present (.obj [(Key.present, present), (Key.fields, .obj fields),
        (Key.tags, orsetToJson tags)]) Key.present
        (fun p => checkOrset p (path id ++ lit ".present") .any) = .ok () := holds_any hp
    have hfields : Check.present (.obj [(Key.present, present), (Key.fields, .obj fields),
        (Key.tags, orsetToJson tags)]) Key.fields
        (fun f => fieldsOfRune f (path id ++ lit ".fields")) = .ok () ↔ _ := fieldsOf_iff hf
    have htags : Check.present (.obj [(Key.present, present), (Key.fields, .obj fields),
        (Key.tags, orsetToJson tags)]) Key.tags
        (fun t => checkOrset t (path id ++ lit ".tags") .canonical) = .ok () ↔ _ :=
      checkOrset_lists hl
    rw [List.forall_mem_singleton, checkRune, bind_eq_ok_unit, bind_eq_ok_unit, bind_eq_ok_unit,
      bind_eq_ok_unit, hfields, htags, checkName_eq_ok, writtenRune, hn, List.forall_mem_append]
    simp only [hmembers, hpresent, true_and, Option.some.injEq, forall_eq']
    constructor
    · rintro ⟨hid, ⟨hr, hv⟩, ht⟩
      exact ⟨⟨hid, hr⟩, hv, ht⟩
    · rintro ⟨⟨hid, hr⟩, hv, ht⟩
      exact ⟨hid, ⟨hr, hv⟩, ht⟩

theorem checkMantle_enriched {m : Json} {out : List (CString × Json)} (h : MantleEnriched m out)
    (path : CString → Bytes) : (∀ mo ∈ out, checkMantle mo.1 mo.2 (path mo.1) = .ok ()) ↔
      (∀ name, mantleName m = some name → MantleNames m name) ∧ ∀ v ∈ writtenMantle m, Reads v := by
  cases h with
  | skipped hn => simp [writtenMantle, hn]
  | @mantle name present fields runes edges hn hp hf hr ht hl =>
    have hmembers : checkMembers (.obj [(Key.present, present), (Key.fields, .obj fields),
        (Key.runes, .obj runes.flatten), (Key.edges, orsetToJson edges)]) (path name)
        isMantleMember = .ok () :=
      checkMembers_ok [Key.present, Key.fields, Key.runes, Key.edges] (by decide) (by decide) rfl
    have hpresent : Check.present (.obj [(Key.present, present), (Key.fields, .obj fields),
        (Key.runes, .obj runes.flatten), (Key.edges, orsetToJson edges)]) Key.present
        (fun p => checkOrset p (path name ++ lit ".present") .any) = .ok () := holds_any hp
    have hfields : Check.present (.obj [(Key.present, present), (Key.fields, .obj fields),
        (Key.runes, .obj runes.flatten), (Key.edges, orsetToJson edges)]) Key.fields
        (fun f => fieldsOfMantle f (path name ++ lit ".fields")) = .ok () ↔ _ := fieldsOf_iff hf
    have hedges : Check.present (.obj [(Key.present, present), (Key.fields, .obj fields),
        (Key.runes, .obj runes.flatten), (Key.edges, orsetToJson edges)]) Key.edges
        (fun e => checkOrset e (path name ++ lit ".edges") .canonical) = .ok () ↔ _ :=
      checkOrset_lists hl
    have hrunes : Check.present (.obj [(Key.present, present), (Key.fields, .obj fields),
        (Key.runes, .obj runes.flatten), (Key.edges, orsetToJson edges)]) Key.runes
        (fun rs => checkNamed rs (path name ++ lit ".runes") checkRune) = .ok () ↔ _ :=
      checkNamed_eq_ok
    have heach : (∀ ro ∈ (Json.obj runes.flatten).members, checkRune ro.1 ro.2
        (path name ++ lit ".runes" ++ lit "." ++ ro.1.bytes) = .ok ()) ↔
        ∀ r ∈ childValues (m.get Key.runes), (∀ id, runeId r = some id → RuneNames r id) ∧
          ∀ v ∈ writtenRune r, Reads v :=
      forall_flatten hr fun r out hre =>
        checkRune_enriched hre fun k => path name ++ lit ".runes" ++ lit "." ++ k.bytes
    rw [List.forall_mem_singleton, checkMantle, bind_eq_ok_unit, bind_eq_ok_unit, bind_eq_ok_unit,
      bind_eq_ok_unit, bind_eq_ok_unit, hfields, hedges, hrunes, heach, checkName_eq_ok,
      Json.members_obj, names_runes hr, writtenMantle, hn, List.forall_mem_append,
      List.forall_mem_append]
    simp only [hmembers, hpresent, true_and, Option.some.injEq, forall_eq', Json.isObject,
      List.forall_mem_flatMap]
    constructor
    · rintro ⟨hid, ⟨hreg, hv⟩, he, hd, hr⟩
      exact ⟨⟨hid, hreg, hd, fun r hrm => (hr r hrm).1⟩, ⟨hv, fun r hrm => (hr r hrm).2⟩, he⟩
    · rintro ⟨⟨hid, hreg, hd, hr⟩, ⟨hv, hrv⟩, he⟩
      exact ⟨hid, ⟨hreg, hv⟩, he, hd, fun r hrm => ⟨hr r hrm, hrv r hrm⟩⟩

/-- A declaration is a map. -/
theorem head_of_descriptor {g : Json} {b : Bytes} (h : canonGlyphDescriptor g = .ok b) :
    b.head? = some 0x08 := by
  cases g with
  | obj ms =>
    rw [canonGlyphDescriptor] at h
    obtain ⟨fs, -, h⟩ := bind_eq_ok.mp h
    obtain ⟨ps, -, h⟩ := bind_eq_ok.mp h
    cases h
    rfl
  | _ => cases h

theorem checkGlyph_enriched {g out : CString × Json} (h : GlyphEnriched g out) (path : Bytes) :
    checkGlyph out.1 out.2 path = .ok () ↔
      g.1.isEmpty = false ∧ ∀ b, canonGlyphDescriptor g.2 = .ok b → isCanonical b = true := by
  obtain ⟨present, reg, b, hb, hp, hreg, rfl⟩ := h
  have hmembers : checkMembers (.obj [(Key.present, present),
      (Key.fields, .obj [(Key.descriptor, reg)])]) path isGlyphMember = .ok () :=
    checkMembers_ok [Key.present, Key.fields] (by decide) (by decide) rfl
  have hpresent : Check.present (.obj [(Key.present, present),
      (Key.fields, .obj [(Key.descriptor, reg)])]) Key.present
      (fun p => checkOrset p (path ++ lit ".present") .any) = .ok () := holds_any hp
  have hfields : checkMembers (.obj [(Key.descriptor, reg)]) (path ++ lit ".fields") isGlyphField =
      .ok () := checkMembers_ok [Key.descriptor] (by decide) (by decide) rfl
  have hdesc : checkDescriptor reg (path ++ lit ".fields.descriptor") = .ok () ↔
      isCanonical b = true := by
    unfold checkDescriptor
    rw [bind_eq_ok_unit, checkOrset_holds hreg, forM_eq_ok]
    refine ⟨fun hc => hc.1 rfl, fun hc => ⟨fun _ => hc, fun kv hkv => ?_⟩⟩
    have hv := (adds_of_holds hreg).mp ⟨kv.1, OrSet.mem_entries.mp hkv⟩
    rw [hv, demand_eq_ok, head_of_descriptor hb]
    rfl
  have hbelow : Check.present (.obj [(Key.present, present),
      (Key.fields, .obj [(Key.descriptor, reg)])]) Key.fields (fun f => do
        checkMembers f (path ++ lit ".fields") isGlyphField
        Check.present f Key.descriptor fun d => checkDescriptor d (path ++ lit ".fields.descriptor")) =
      .ok () ↔ isCanonical b = true := by
    refine Iff.trans ?_ hdesc
    change (do
      checkMembers (.obj [(Key.descriptor, reg)]) (path ++ lit ".fields") isGlyphField
      checkDescriptor reg (path ++ lit ".fields.descriptor")) = .ok () ↔ _
    rw [bind_eq_ok_unit, and_iff_right hfields]
  unfold checkGlyph
  rw [bind_eq_ok_unit, bind_eq_ok_unit, bind_eq_ok_unit, hbelow, checkName_eq_ok]
  simp only [hmembers, hpresent, true_and]
  refine and_congr_right fun _ => ⟨fun hc c hc' => ?_, fun hc => hc b hb⟩
  rw [hb] at hc'
  cases hc'
  exact hc

theorem checkGlyphs_enriched {gs outs : List (CString × Json)} (path : CString → Bytes)
    (h : List.Forall₂ GlyphEnriched gs outs) :
    (∀ o ∈ outs, checkGlyph o.1 o.2 (path o.1) = .ok ()) ↔ ∀ g ∈ gs, g.1.isEmpty = false ∧
      ∀ b, canonGlyphDescriptor g.2 = .ok b → isCanonical b = true := by
  induction h with
  | nil => simp
  | cons hp _ ih => rw [List.forall_mem_cons, List.forall_mem_cons, ih, checkGlyph_enriched hp]

theorem names_glyphs {gs outs : List (CString × Json)} (h : List.Forall₂ GlyphEnriched gs outs) :
    outs.map Prod.fst = gs.map Prod.fst := by
  induction h with
  | nil => rfl
  | cons hp _ ih =>
    obtain ⟨_, _, _, -, -, -, rfl⟩ := hp
    rw [List.map_cons, List.map_cons, ih]

/-! ### Documents -/

section

variable {state doc : Json}

/-- Which enriched documents are let in. -/
theorem validate_enriched (h : StateEnriched state doc) :
    validate doc = .ok () ↔ StateNames state ∧ (∀ v ∈ written state, Reads v) ∧
      ∀ g ∈ childMembers (state.get Key.glyphs), ∀ b, canonGlyphDescriptor g.2 = .ok b →
        isCanonical b = true := by
  obtain ⟨mantles, glyphs, hm, hg, rfl⟩ := h
  have hmembers : checkMembers (.obj [(Key.palabra, .num Double.one),
      (Key.mantles, .obj mantles.flatten), (Key.glyphs, .obj glyphs)]) (lit "$") isRootMember =
        .ok () :=
    checkMembers_ok [Key.palabra, Key.mantles, Key.glyphs] (by decide) (by decide) rfl
  have hmarker : Check.demand (readsShapeOne (.obj [(Key.palabra, .num Double.one),
      (Key.mantles, .obj mantles.flatten), (Key.glyphs, .obj glyphs)])) (lit "$.palabra")
      "this implementation reads document shape 1" = .ok () :=
    demand_eq_ok.mpr (readsShapeOne_iff.mpr rfl)
  have hmantles : Check.present (.obj [(Key.palabra, .num Double.one),
      (Key.mantles, .obj mantles.flatten), (Key.glyphs, .obj glyphs)]) Key.mantles
      (fun ms => checkNamed ms (lit "$.mantles") checkMantle) = .ok () ↔ _ := checkNamed_eq_ok
  have hglyphs : Check.present (.obj [(Key.palabra, .num Double.one),
      (Key.mantles, .obj mantles.flatten), (Key.glyphs, .obj glyphs)]) Key.glyphs
      (fun gs => checkNamed gs (lit "$.glyphs") checkGlyph) = .ok () ↔ _ := checkNamed_eq_ok
  have heach : (∀ mo ∈ (Json.obj mantles.flatten).members, checkMantle mo.1 mo.2
      (lit "$.mantles" ++ lit "." ++ mo.1.bytes) = .ok ()) ↔
      ∀ m ∈ childValues (state.get Key.mantles),
        (∀ name, mantleName m = some name → MantleNames m name) ∧ ∀ v ∈ writtenMantle m, Reads v :=
    forall_flatten hm fun m out hme =>
      checkMantle_enriched hme fun k => lit "$.mantles" ++ lit "." ++ k.bytes
  have heach' : (∀ o ∈ (Json.obj glyphs).members, checkGlyph o.1 o.2
      (lit "$.glyphs" ++ lit "." ++ o.1.bytes) = .ok ()) ↔ _ :=
    checkGlyphs_enriched (fun k => lit "$.glyphs" ++ lit "." ++ k.bytes) hg
  unfold validate
  rw [bind_eq_ok_unit, bind_eq_ok_unit, bind_eq_ok_unit, bind_eq_ok_unit, hmantles, hglyphs, heach,
    heach', demand_eq_ok, Json.members_obj, Json.members_obj, names_mantles hm, names_glyphs hg,
    written]
  simp only [hmembers, hmarker, true_and, Json.isObject, List.forall_mem_flatMap]
  constructor
  · rintro ⟨⟨hd, hm⟩, hgd, hg⟩
    exact ⟨⟨hd, fun m hmm => (hm m hmm).1, hgd, fun g hgm => (hg g hgm).1⟩,
      fun m hmm => (hm m hmm).2, fun g hgm => (hg g hgm).2⟩
  · rintro ⟨⟨hd, hm, hgd, hg⟩, hv, hb⟩
    exact ⟨⟨hd, fun m hmm => ⟨hm m hmm, hv m hmm⟩⟩, hgd, fun g hgm => ⟨hg g hgm, hb g hgm⟩⟩

/-- A register with one value is no conflict. -/
theorem scanFields_enriched {fs : List (CString × Option Json)} {out : List (CString × Json)}
    (h : List.Forall₂ FieldEnriched fs out) (place : Conflict) (policy : JoinPolicy) :
    scanFields (some (.obj out)) place policy = [] := by
  unfold scanFields
  refine List.flatMap_eq_nil_iff.mpr fun f hf => ?_
  obtain ⟨x, -, -, b, -, hh⟩ := forall₂_right h hf
  rw [hh.resolve]
  rfl

/-- A document that was enriched has no conflicts. -/
theorem conflicts_enriched (h : StateEnriched state doc) (policy : JoinPolicy) :
    conflicts doc policy = [] := by
  obtain ⟨mantles, glyphs, hm, hg, rfl⟩ := h
  have hrune : ∀ {r : Json} {out : List (CString × Json)}, RuneEnriched r out → ∀ mantle, ∀ ro ∈ out,
      runeConflicts policy mantle ro = [] := by
    intro r out hr mantle ro hro
    have halive : alive ro.2 = true := hr.alive ro hro
    rw [runeConflicts, halive]
    cases hr with
    | skipped _ => cases hro
    | rune _ _ hf _ _ =>
      rw [List.mem_singleton.mp hro]
      exact scanFields_enriched hf _ policy
  have hmantle : ∀ mo ∈ mantles.flatten, mantleConflicts policy mo = [] := by
    intro mo hmo
    obtain ⟨out, hout, hmo⟩ := List.mem_flatten.mp hmo
    obtain ⟨m, -, hme⟩ := forall₂_right hm hout
    have halive : alive mo.2 = true := hme.alive mo hmo
    rw [mantleConflicts, halive]
    cases hme with
    | skipped _ => cases hmo
    | @mantle name present fields runes edges _ _ hf hr _ _ =>
      rw [List.mem_singleton.mp hmo]
      refine List.append_eq_nil_iff.mpr ⟨scanFields_enriched hf _ policy,
        List.flatMap_eq_nil_iff.mpr fun ro hro => ?_⟩
      obtain ⟨out', hout', hro⟩ := List.mem_flatten.mp hro
      obtain ⟨r, -, hre⟩ := forall₂_right hr hout'
      exact hrune hre _ ro hro
  have hglyph : ∀ go ∈ glyphs, glyphConflicts policy go = [] := by
    intro go hgo
    obtain ⟨g, -, hge⟩ := forall₂_right hg hgo
    have halive : alive go.2 = true := hge.alive
    rw [glyphConflicts, halive]
    obtain ⟨present, reg, b, -, -, hreg, rfl⟩ := hge
    change (scanFields (some (.obj [(Key.descriptor, reg)])) _ policy) = []
    rw [scanFields]
    refine List.flatMap_eq_nil_iff.mpr (List.forall_mem_singleton.mpr ?_)
    rw [hreg.resolve]
    rfl
  have hall : (childMembers (some (.obj mantles.flatten))).flatMap (mantleConflicts policy) ++
      (childMembers (some (.obj glyphs))).flatMap (glyphConflicts policy) = [] :=
    List.append_eq_nil_iff.mpr ⟨List.flatMap_eq_nil_iff.mpr hmantle,
      List.flatMap_eq_nil_iff.mpr hglyph⟩
  exact congrArg (Sorting.sortOn Conflict.sortKey) hall

end

end VoidPalabra
