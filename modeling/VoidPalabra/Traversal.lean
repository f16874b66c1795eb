import VoidPalabra.Keeps

/-!
# The traversal of a state

Where each part of `observe` edits: every register and set it touches is at the path
of a set, whatever the state holds, because the names it takes from the state are not
empty and the names it takes from the document are already there.
-/

namespace VoidPalabra

/-! ### Paths of things -/

/-- The nodes below a path are those of a kind of thing. -/
def AtKind (base : Path) (K : Path → Option Kind) : Prop := ∀ p, kindOf (base ++ p) = K p

theorem atKind_mantle {name : CString} (h : name.isEmpty = false) :
    AtKind [Key.mantles, name] mantleKind := by
  intro p
  have h1 : Key.mantles ≠ Key.palabra := by decide
  simp [kindOf, namedKind, h, h1]

theorem atKind_glyph {name : CString} (h : name.isEmpty = false) :
    AtKind [Key.glyphs, name] glyphKind := by
  intro p
  have h1 : Key.glyphs ≠ Key.palabra := by decide
  have h2 : Key.glyphs ≠ Key.mantles := by decide
  simp [kindOf, namedKind, h, h1, h2]

theorem AtKind.rune {base : Path} {id : CString} (hb : AtKind base mantleKind)
    (h : id.isEmpty = false) : AtKind (base ++ [Key.runes, id]) runeKind := by
  intro p
  have h1 : Key.runes ≠ Key.present := by decide
  have h2 : Key.runes ≠ Key.fields := by decide
  rw [List.append_assoc, hb]
  simp [mantleKind, namedKind, h, h1, h2]

theorem AtKind.isSetPath {base : Path} {K : Path → Option Kind} (hb : AtKind base K) {p : Path}
    (rule : ValueRule) (hp : K p = some (.set rule)) : IsSetPath (base ++ p) :=
  ⟨rule, (hb p).trans hp⟩

/-- The presence of a rune, a mantle or a glyph is a set. -/
theorem AtKind.present_rune {base : Path} (hb : AtKind base runeKind) :
    IsSetPath (base ++ [Key.present]) := hb.isSetPath .any rfl

theorem AtKind.present_mantle {base : Path} (hb : AtKind base mantleKind) :
    IsSetPath (base ++ [Key.present]) := hb.isSetPath .any rfl

theorem AtKind.present_glyph {base : Path} (hb : AtKind base glyphKind) :
    IsSetPath (base ++ [Key.present]) := hb.isSetPath .any rfl

theorem fieldsKind_field {allowed : CString → Bool} {rule : ValueRule} {f : CString}
    (h : allowed f = true) : fieldsKind allowed rule [f] = some (.set rule) := by
  simp [fieldsKind, h, setKind]

/-- An allowed field of a rune is a set. -/
theorem AtKind.rune_field {base : Path} (hb : AtKind base runeKind) {f : CString}
    (h : runeFieldAllowed f = true) : IsSetPath (base ++ [Key.fields] ++ [f]) := by
  rw [List.append_assoc]
  have h1 : Key.fields ≠ Key.present := by decide
  refine hb.isSetPath .canonical ?_
  simpa [runeKind, h1] using fieldsKind_field h

/-- An allowed field of a mantle is a set. -/
theorem AtKind.mantle_field {base : Path} (hb : AtKind base mantleKind) {f : CString}
    (h : mantleFieldAllowed f = true) : IsSetPath (base ++ [Key.fields] ++ [f]) := by
  rw [List.append_assoc]
  have h1 : Key.fields ≠ Key.present := by decide
  refine hb.isSetPath .canonical ?_
  simpa [mantleKind, h1] using fieldsKind_field h

theorem AtKind.glyph_field {base : Path} (hb : AtKind base glyphKind) :
    IsSetPath (base ++ [Key.fields, Key.descriptor]) := by
  refine hb.isSetPath .declaration ?_
  decide

theorem AtKind.rune_tags {base : Path} (hb : AtKind base runeKind) :
    IsSetPath (base ++ [Key.tags]) := hb.isSetPath .canonical (by decide)

theorem AtKind.mantle_edges {base : Path} (hb : AtKind base mantleKind) :
    IsSetPath (base ++ [Key.edges]) := hb.isSetPath .canonical (by decide)

theorem runeFieldAllowed_facet {k : CString} (h : k ∈ kFacets) :
    runeFieldAllowed (Key.facetsDot ++ k) = true := by
  revert k
  decide

theorem runeFieldAllowed_content {k : CString} (h : k.isEmpty = false) :
    runeFieldAllowed (Key.contentDot ++ k) = true := by
  have h1 : (Key.contentDot ++ k).startsWith Key.facetsDot = false := rfl
  have h2 : (Key.contentDot ++ k).drop 8 = k := CString.append_drop Key.contentDot k
  unfold runeFieldAllowed
  rw [h1, h2, CString.startsWith_append, h]
  simp

theorem mantleFieldAllowed_tag {k : CString} (h : k.isEmpty = false) :
    mantleFieldAllowed (Key.tagsDot ++ k) = true := by
  have h2 : (Key.tagsDot ++ k).drop 5 = k := CString.append_drop Key.tagsDot k
  unfold mantleFieldAllowed
  rw [h2, CString.startsWith_append, h]
  simp

/-! ### What is found in a document -/

/-- A member of a map of a document is at a path with a kind. -/
theorem Shaped.kindOf_member {root : Json} (h : Shaped root) {p : Path}
    (hp : kindOf p = some .map) {m : CString × Json} (hm : m ∈ childMembers (nodeAt root p)) :
    nodeAt root (p ++ [m.1]) = some m.2 ∧ ∃ k, kindOf (p ++ [m.1]) = some k := by
  cases hn : nodeAt root p with
  | none =>
    rw [hn] at hm
    cases hm
  | some n =>
    rw [hn] at hm
    obtain ⟨k, hk, hs⟩ := h.kinds p n hn
    cases hp.symm.trans hk
    obtain ⟨hr, hd⟩ := hs
    obtain ⟨ms, rfl⟩ := exists_members_of_rank hr
    replace hd : (ms.map Prod.fst).Nodup := hd
    have hc : nodeAt root (p ++ [m.1]) = some m.2 := by
      rw [nodeAt_append, hn, Option.bind_some, nodeAt_cons, if_pos hr, Json.get_obj,
        Json.lookup_of_mem hd hm]
      rfl
    obtain ⟨k, hk, -⟩ := h.kinds _ _ hc
    exact ⟨hc, k, hk⟩

section

variable {a : Author} {d₀ : Json} {i₀ : ℕ}

/-- A step that first looks at the editor. -/
theorem keeps_current_bind {α : Type} {f : Editor → EditM α}
    (h : ∀ e, Inv a d₀ i₀ e → Keeps a d₀ i₀ (f e)) : Keeps a d₀ i₀ (EditM.current >>= f) :=
  fun e he => h e he e he

/-- A node of the working copy whose path is a map's. -/
theorem Inv.node_map {e : Editor} (h : Inv a d₀ i₀ e) {p : Path} (hp : kindOf p = some .map) :
    e.node p = nodeAt e.work p := by
  refine atPath_eq_nodeAt (fun q r hr hq => ?_) h.work.kinds
  exact kindOf_prefix hr (by rw [hq, hp]; rfl)

/-- A register of a thing is not its presence. -/
theorem keeps_syncField {fields : Path} {name : CString} (hp : IsSetPath (fields ++ [name]))
    (hn : ¬IsSetPath (fields ++ [Key.present])) (value : Option Bytes) :
    Keeps a d₀ i₀ (syncRegister a (fields ++ [name]) name value) := by
  refine keeps_syncRegister hp ?_ name value
  rw [List.getLast?_concat]
  intro he
  rw [Option.some.inj he] at hp
  exact hn hp

theorem keeps_fixedField {fields : Path} {name : CString} (hp : IsSetPath (fields ++ [name]))
    (hn : ¬IsSetPath (fields ++ [Key.present])) (v : Option Json) :
    Keeps a d₀ i₀ (fixedField a fields name v) :=
  (keeps_lift _).bind fun _ => keeps_syncField hp hn _

theorem keeps_optionalField {fields : Path} {name : CString} (hp : IsSetPath (fields ++ [name]))
    (hn : ¬IsSetPath (fields ++ [Key.present])) (v : Option Json) :
    Keeps a d₀ i₀ (optionalField a fields name v) := by
  unfold optionalField
  split
  · exact (keeps_lift _).bind fun _ => keeps_syncField hp hn _
  · exact keeps_syncField hp hn _

/-- The kinds of a `fields` map: each allowed name is a register, and nothing else is
there. -/
structure FieldsAt (fields : Path) (allowed : CString → Bool) : Prop where
  /-- The node itself is a map. -/
  map : kindOf fields = some .map
  /-- An allowed name is a register. -/
  field : ∀ f, allowed f = true → IsSetPath (fields ++ [f])
  /-- Whatever is there is a register. -/
  only : ∀ f, (kindOf (fields ++ [f])).isSome = true → IsSetPath (fields ++ [f])
  /-- No presence is there. -/
  noPresent : ¬IsSetPath (fields ++ [Key.present])

theorem AtKind.rune_fieldsAt {base : Path} (hb : AtKind base runeKind) :
    FieldsAt (base ++ [Key.fields]) runeFieldAllowed where
  map := hb [Key.fields]
  field := fun _ => hb.rune_field
  only := fun f h => by
    refine hb.rune_field ?_
    have h1 : Key.fields ≠ Key.present := by decide
    rw [List.append_assoc, hb] at h
    by_contra hf
    simp [runeKind, h1, fieldsKind, hf] at h
  noPresent := fun ⟨rule, h⟩ => by
    have h1 : Key.fields ≠ Key.present := by decide
    have h2 : runeFieldAllowed Key.present = false := by decide
    rw [List.append_assoc, hb] at h
    simp [runeKind, h1, fieldsKind, h2] at h

theorem AtKind.mantle_fieldsAt {base : Path} (hb : AtKind base mantleKind) :
    FieldsAt (base ++ [Key.fields]) mantleFieldAllowed where
  map := hb [Key.fields]
  field := fun _ => hb.mantle_field
  only := fun f h => by
    refine hb.mantle_field ?_
    have h1 : Key.fields ≠ Key.present := by decide
    rw [List.append_assoc, hb] at h
    by_contra hf
    simp [mantleKind, h1, fieldsKind, hf] at h
  noPresent := fun ⟨rule, h⟩ => by
    have h1 : Key.fields ≠ Key.present := by decide
    have h2 : mantleFieldAllowed Key.present = false := by decide
    rw [List.append_assoc, hb] at h
    simp [mantleKind, h1, fieldsKind, h2] at h

theorem keeps_keyedFields {fields : Path} {allowed : CString → Bool} (hf : FieldsAt fields allowed)
    {pre : CString} (hpre : ∀ k : CString, k.isEmpty = false → allowed (pre ++ k) = true)
    (object : List (CString × Json)) : Keeps a d₀ i₀ (keyedFields a fields pre object) := by
  refine (keeps_each fun m _ => ?_).bind fun _ => keeps_current_bind fun e he => ?_
  · unfold keyedField
    split
    · exact keeps_pure ()
    · rename_i hm
      refine (keeps_lift _).bind fun _ => keeps_syncField ?_ hf.noPresent _
      exact hf.field _ (hpre _ (by simpa using hm))
  · refine keeps_each fun name hname => keeps_syncField ?_ hf.noPresent _
    obtain ⟨m, hm, rfl⟩ := List.mem_map.mp (List.mem_of_mem_filter hname)
    rw [he.node_map hf.map] at hm
    obtain ⟨-, k, hk⟩ := he.work.kindOf_member hf.map (List.mem_of_mem_filter hm)
    exact hf.only _ (by rw [hk]; rfl)

theorem keeps_syncValues {p : Path} {k : CString} (hp : IsSetPath (p ++ [k])) (hk : k ≠ Key.present)
    (values : List Json) : Keeps a d₀ i₀ (syncValues a (p ++ [k]) values) := by
  refine (keeps_lift _).bind fun _ => keeps_syncSet hp ?_ _
  rw [List.getLast?_concat]
  exact fun h => hk (Option.some.inj h)

theorem keeps_observeRune {base : Path} (hb : AtKind base runeKind) (r : Json) :
    Keeps a d₀ i₀ (observeRune a base r) := by
  have hfixed : ∀ f v, runeFieldAllowed f = true →
      Keeps a d₀ i₀ (fixedField a (base ++ [Key.fields]) f v) :=
    fun f v hf => keeps_fixedField (hb.rune_field hf) hb.rune_fieldsAt.noPresent v
  refine (keeps_makePresent hb.present_rune _).bind fun _ => ?_
  refine (hfixed _ _ (by decide)).bind fun _ => (hfixed _ _ (by decide)).bind fun _ => ?_
  refine (keeps_each fun k hk => hfixed _ _ (runeFieldAllowed_facet hk)).bind fun _ => ?_
  refine (hfixed _ _ (by decide)).bind fun _ => ?_
  refine (keeps_optionalField (hb.rune_field (by decide)) hb.rune_fieldsAt.noPresent _).bind fun _ => ?_
  dsimp only
  split
  · exact keeps_refuse _
  · exact (keeps_keyedFields hb.rune_fieldsAt (fun k hk => runeFieldAllowed_content hk) _).bind
      fun _ => keeps_syncValues hb.rune_tags (by decide) _

/-- Whatever stands below a map of named things has a name. -/
structure NamedAt (base : Path) : Prop where
  /-- The node itself is a map. -/
  map : kindOf base = some .map
  /-- What is there has a name. -/
  named : ∀ k, (kindOf (base ++ [k])).isSome = true → k.isEmpty = false
  /-- A thing with a name has a presence. -/
  present : ∀ k, k.isEmpty = false → IsSetPath (base ++ [k] ++ [Key.present])

theorem namedAt_mantles : NamedAt [Key.mantles] where
  map := by decide
  named := fun k h => by
    by_contra hk
    rw [Bool.not_eq_false] at hk
    have h1 : Key.mantles ≠ Key.palabra := by decide
    simp [kindOf, namedKind, hk, h1] at h
  present := fun k hk => (atKind_mantle hk).present_mantle

theorem namedAt_glyphs : NamedAt [Key.glyphs] where
  map := by decide
  named := fun k h => by
    by_contra hk
    rw [Bool.not_eq_false] at hk
    have h1 : Key.glyphs ≠ Key.palabra := by decide
    have h2 : Key.glyphs ≠ Key.mantles := by decide
    simp [kindOf, namedKind, hk, h1, h2] at h
  present := fun k hk => (atKind_glyph hk).present_glyph

theorem AtKind.namedAt_runes {base : Path} (hb : AtKind base mantleKind) :
    NamedAt (base ++ [Key.runes]) where
  map := hb [Key.runes]
  named := fun k h => by
    by_contra hk
    rw [Bool.not_eq_false] at hk
    have h1 : Key.runes ≠ Key.present := by decide
    have h2 : Key.runes ≠ Key.fields := by decide
    rw [List.append_assoc, hb] at h
    simp [mantleKind, namedKind, hk, h1, h2] at h
  present := fun k hk => by
    have hr := (hb.rune hk).present_rune
    simpa using hr

theorem keeps_removeGone {base : Path} (hb : NamedAt base) (observed : CString → Bool) :
    Keeps a d₀ i₀ (removeGone base observed) := by
  refine keeps_current_bind fun e he => keeps_each fun name hname => ?_
  obtain ⟨m, hm, rfl⟩ := List.mem_map.mp hname
  replace hm := List.mem_of_mem_filter hm
  rw [he.node_map hb.map] at hm
  obtain ⟨-, k, hk⟩ := he.work.kindOf_member hb.map hm
  exact keeps_removeThing (hb.present _ (hb.named _ (by rw [hk]; rfl))) _

/-- Everything that was gathered has a name. -/
theorem gather_named {nameOf : Json → Option CString} {missing duplicate : String} :
    ∀ {values : List Json} {out d : Dict Json}, gather nameOf missing duplicate values out = .ok d →
      (∀ k ∈ out, k.isEmpty = false) → ∀ k ∈ d, k.isEmpty = false := by
  intro values
  induction values with
  | nil =>
    intro out d h ho
    cases h
    exact ho
  | cons v values ih =>
    intro out d h ho
    rw [gather] at h
    split at h
    · cases h
    · rename_i k _
      split at h
      · cases h
      · rename_i hk
        split at h
        · cases h
        · refine ih h fun j hj => ?_
          rcases Std.ExtTreeMap.mem_insert.mp hj with he | hj
          · rw [← Std.LawfulEqCmp.eq_of_compare he]
            simpa using hk
          · exact ho j hj

theorem gatherGlyphs_named : ∀ {members : List (CString × Json)} {out d : Dict Bytes},
    gatherGlyphs members out = .ok d → (∀ k ∈ out, k.isEmpty = false) →
      ∀ k ∈ d, k.isEmpty = false := by
  intro members
  induction members with
  | nil =>
    intro out d h ho
    cases h
    exact ho
  | cons m members ih =>
    intro out d h ho
    obtain ⟨k, g⟩ := m
    rw [gatherGlyphs] at h
    split at h
    · cases h
    · rename_i hk
      obtain ⟨b, -, h⟩ := bind_eq_ok.mp h
      refine ih h fun j hj => ?_
      rcases Std.ExtTreeMap.mem_insert.mp hj with he | hj
      · rw [← Std.LawfulEqCmp.eq_of_compare he]
        simpa using hk
      · exact ho j hj

/-- A step whose continuation is run only on what a computation returns. -/
theorem keeps_lift_bind {α β : Type} {x : Except CanonicalError α} {f : α → EditM β}
    (h : ∀ y, x = .ok y → Keeps a d₀ i₀ (f y)) : Keeps a d₀ i₀ (EditM.lift x >>= f) := by
  intro e he
  cases x with
  | ok y => exact h y rfl e he
  | error c => exact he

theorem mem_of_mem_toList {β : Type} {d : Dict β} {m : CString × β} (h : m ∈ d.toList) : m.1 ∈ d := by
  rw [Std.ExtTreeMap.mem_iff_isSome_getElem?,
    Std.ExtTreeMap.mem_toList_iff_getElem?_eq_some.mp (show (m.1, m.2) ∈ d.toList from h)]
  rfl

theorem keeps_observeMantle {base : Path} (hb : AtKind base mantleKind) (m : Json) :
    Keeps a d₀ i₀ (observeMantle a base m) := by
  have hfixed : ∀ f v, mantleFieldAllowed f = true →
      Keeps a d₀ i₀ (fixedField a (base ++ [Key.fields]) f v) :=
    fun f v hf => keeps_fixedField (hb.mantle_field hf) hb.mantle_fieldsAt.noPresent v
  refine (keeps_makePresent hb.present_mantle _).bind fun _ => ?_
  refine (hfixed _ _ (by decide)).bind fun _ => (hfixed _ _ (by decide)).bind fun _ => ?_
  dsimp only
  split
  · exact keeps_refuse _
  · refine (keeps_keyedFields hb.mantle_fieldsAt (fun k hk => mantleFieldAllowed_tag hk) _).bind
      fun _ => ?_
    refine (keeps_optionalField (hb.mantle_field (by decide)) hb.mantle_fieldsAt.noPresent _).bind fun _ => ?_
    refine keeps_lift_bind fun runes hr => ?_
    refine (keeps_each fun r hmem => keeps_observeRune ?_ _).bind fun _ => ?_
    · exact hb.rune (gather_named hr (by simp) _ (mem_of_mem_toList hmem))
    · exact (keeps_removeGone hb.namedAt_runes _).bind fun _ => keeps_syncValues hb.mantle_edges (by decide) _

theorem keeps_observeGlyph {base : Path} (hb : AtKind base glyphKind) (descriptor : Bytes) :
    Keeps a d₀ i₀ (observeGlyph a base descriptor) :=
  (keeps_makePresent hb.present_glyph _).bind fun _ => keeps_syncRegister hb.glyph_field (by
    rw [show base ++ [Key.fields, Key.descriptor] = base ++ [Key.fields] ++ [Key.descriptor] by simp,
      List.getLast?_concat]
    decide) _ _

/-- Whatever state is observed, the invariant is kept. -/
theorem keeps_observeInto (state : Option Json) : Keeps a d₀ i₀ (observeInto a state) := by
  unfold observeInto
  split
  · dsimp only
    split
    · exact keeps_refuse _
    · refine keeps_lift_bind fun mantles hm => ?_
      refine (keeps_each fun m hmem => keeps_observeMantle ?_ _).bind fun _ => ?_
      · exact atKind_mantle (gather_named hm (by simp) _ (mem_of_mem_toList hmem))
      · refine (keeps_removeGone namedAt_mantles _).bind fun _ => ?_
        split
        · exact keeps_refuse _
        · refine keeps_lift_bind fun glyphs hg => ?_
          refine (keeps_each fun g hmem => keeps_observeGlyph ?_ _).bind fun _ => ?_
          · exact atKind_glyph (gatherGlyphs_named hg (by simp) _ (mem_of_mem_toList hmem))
          · exact keeps_removeGone namedAt_glyphs _
  · exact keeps_refuse _

end

end VoidPalabra
