import VoidPalabra.Strict

/-!
# What an edit stores

An edit is a run of stores. Each of them happens at a set of the document, keeps to tags
that the edit mints for what is new, and retires only tags that the document holds. The
values it adds are among those that the observed state asks to be encoded.
-/

namespace VoidPalabra

/-! ### The values of a state -/

/-- The values of the members of an object that have a name. -/
def namedValues (n : Option Json) : List Json :=
  ((childMembers n).filter fun m => !m.1.isEmpty).map Prod.snd

/-- The values that an observation of a rune encodes. -/
def recordedRune (r : Json) : List Json :=
  [get (r.get Key.spirit) Key.name, r.get Key.glyph, r.get Key.placement, r.get Key.relations].map
      (·.getD .null) ++
    (kFacets.map fun k => (get (r.get Key.facets) k).getD .null) ++
    namedValues (r.get Key.content) ++ childValues (r.get Key.tags)

/-- The values that an observation of a mantle encodes. -/
def recordedMantle (m : Json) : List Json :=
  [m.get Key.id, m.get Key.domain, m.get Key.rules].map (·.getD .null) ++
    namedValues (m.get Key.tags) ++ childValues (get (m.get Key.layout) Key.edges) ++
    (childValues (m.get Key.runes)).flatMap recordedRune

/-- A declaration without its `source`. -/
def declared (g : Json) : Json := .obj (g.members.filter fun m => m.1 ≠ Key.source)

/-- The values that an observation of a state encodes. -/
def recordedState (state : Json) : List Json :=
  (childValues (state.get Key.mantles)).flatMap recordedMantle ++
    (childMembers (state.get Key.glyphs)).map fun g => declared g.2

/-- The fields of a declaration are those of the object without its `source`. -/
theorem encodeMembers_declared {ms : List (CString × Json)} :
    ∀ {fs ps : List (Bytes × Bytes)}, descriptorFields ms = .ok fs → encodeKeys fs = .ok ps →
      encodeMembers (ms.filter fun m => m.1 ≠ Key.source) = .ok ps := by
  induction ms with
  | nil =>
    intro fs ps hf hp
    cases hf
    cases hp
    rfl
  | cons m ms ih =>
    intro fs ps hf hp
    obtain ⟨k, v⟩ := m
    rw [descriptorFields] at hf
    by_cases hk : k = Key.source
    · rw [if_pos hk] at hf
      rw [List.filter_cons_of_neg (by simpa using hk)]
      exact ih hf hp
    · rw [if_neg hk] at hf
      obtain ⟨b, hb, hf⟩ := bind_eq_ok.mp hf
      obtain ⟨fs', hfs, hf⟩ := bind_eq_ok.mp hf
      cases hf
      rw [encodeKeys] at hp
      obtain ⟨kb, hkb, hp⟩ := bind_eq_ok.mp hp
      obtain ⟨ps', hps, hp⟩ := bind_eq_ok.mp hp
      cases hp
      rw [List.filter_cons_of_pos (by simpa using hk), encodeMembers, hkb, hb, ih hfs hps]
      rfl

/-- A declaration is stored as the canonical form of an object. -/
theorem canonGlyphDescriptor_form {g : Json} {b : Bytes} (h : canonGlyphDescriptor g = .ok b)
    (hd : HasForm (declared g)) : b = form (declared g) := by
  cases g with
  | obj ms =>
    rw [canonGlyphDescriptor] at h
    obtain ⟨fs, hfs, h⟩ := bind_eq_ok.mp h
    obtain ⟨ps, hps, h⟩ := bind_eq_ok.mp h
    cases h
    obtain ⟨b', hb'⟩ := hd
    have he := hb'
    rw [declared, Json.members_obj, encode, encodeMembers_declared hfs hps] at he
    change encodeMap ps = _ at he
    rw [encodeMap] at he
    split at he
    · cases he
    · cases he
      exact (form_of_encode hb').symm
  | null => cases h
  | bool _ => cases h
  | num _ => cases h
  | str _ => cases h
  | arr _ => cases h

/-! ### Stores -/

/-- One store of an edit, at a set of the document: `V` holds of every value that it adds,
and a tag that it adds is minted past the counter. -/
inductive Stored (a : Author) (V : Path → Bytes → Prop) : Editor → Editor → Prop
  /-- The tags are minted first. -/
  | store {e : Editor} {p : Path} {after : OrSet} {intent : Intent} {j : ℕ} (counter : e.issued ≤ j)
      (place : IsSetPath p)
      (adds : ∀ (t : Tag) (v : Bytes), after.adds[t]? = some v → (e.load p).adds[t]? = some v ∨
        V p v ∧ ∃ n, e.issued < n ∧ n ≤ j ∧ t = mintTag a.id n)
      (removes : ∀ t ∈ after.removes, t ∈ (e.load p).removes ∨
        ∃ q v, (setAt e.work q).adds[t]? = some v) :
      Stored a V e (({ e with issued := j } : Editor).store p (e.load p) after intent)

section

variable {a : Author} {V : Path → Bytes → Prop} {e e' : Editor}

/-- What is loaded is the set at the path. -/
theorem Editor.load_eq (hw : Shaped e.work) {p : Path} (hp : IsSetPath p) :
    e.load p = setAt e.work p := orsetFromJson_atPath hw hp

/-- A store has been written down. -/
theorem Editor.store_work (e : Editor) (p : Path) (before after : OrSet) (intent : Intent) :
    (e.store p before after intent).work = e.work ∧ before = after ∨
      (e.store p before after intent).work = putAt p (orsetToJson after) e.work := by
  unfold Editor.store
  split
  · exact .inl ⟨rfl, ‹_›⟩
  · exact .inr rfl

/-- What a store leaves: the document's shape, and at each set what was there or what was
stored. -/
theorem Stored.work (h : Stored a V e e') (hw : Shaped e.work) :
    Shaped e'.work ∧ e.issued ≤ e'.issued ∧
      (∀ q (t : Tag) (v : Bytes), (setAt e'.work q).adds[t]? = some v →
        (setAt e.work q).adds[t]? = some v ∨
          V q v ∧ ∃ n, e.issued < n ∧ n ≤ e'.issued ∧ t = mintTag a.id n) ∧
      ∀ q, ∀ t ∈ (setAt e'.work q).removes, t ∈ (setAt e.work q).removes ∨
        ∃ q v, (setAt e.work q).adds[t]? = some v := by
  obtain @⟨p, after, intent, j, counter, place, adds, removes⟩ := h
  rw [Editor.load_eq hw place] at adds removes ⊢
  rw [Editor.store_issued]
  have hn : after.Named := by
    constructor
    · intro t v hv
      rcases adds t v hv with hv | ⟨-, n, -, -, rfl⟩
      · exact (named_setAt _ _).adds t v hv
      · exact isEmpty_mintTag _ _
    · intro t ht
      rcases removes t ht with ht | ⟨q, v, hv⟩
      · exact (named_setAt _ _).removes t ht
      · exact (named_setAt _ q).adds t v hv
  rcases Editor.store_work { e with issued := j } p (setAt e.work p) after intent with ⟨he, -⟩ | he
  · rw [he]
    exact ⟨hw, counter, fun q t v hv => .inl hv, fun q t ht => .inl ht⟩
  · rw [he]
    dsimp only
    have hset := setAt_putAt hw place hn
    refine ⟨hw.putAt place hn, counter, fun q t v hv => ?_, fun q t ht => ?_⟩
    · rw [hset] at hv
      split at hv
      · rename_i hq
        subst hq
        exact adds t v hv
      · exact .inl hv
    · rw [hset] at ht
      split at ht
      · rename_i hq
        subst hq
        exact removes t ht
      · exact .inl ht

/-- A store is logged with the document that it was made in, and its new tags are minted
past the counter. -/
theorem Stored.log (h : Stored a V e e') (hw : Shaped e.work) : ∀ act ∈ e'.log, act ∈ e.log ∨
    act.doc = e.work ∧ act.before = setAt e.work act.place ∧ ∀ t v, act.Adds t v →
      ∃ n, e.issued < n ∧ n ≤ e'.issued ∧ t = mintTag a.id n := by
  obtain @⟨p, after, intent, j, counter, place, adds, removes⟩ := h
  rw [Editor.load_eq hw place] at adds ⊢
  intro act hact
  rw [Editor.store_issued]
  unfold Editor.store at hact
  split at hact
  · exact .inl hact
  · rcases List.mem_append.mp hact with hact | hact
    · exact .inl hact
    · rw [List.mem_singleton] at hact
      subst hact
      refine .inr ⟨rfl, rfl, fun t v ⟨hnone, hv⟩ => ?_⟩
      rcases adds t v hv with hv | ⟨-, hn⟩
      · exact absurd (hnone.symm.trans hv) (by simp)
      · exact hn

/-- A step of an edit is a run of stores. -/
def Steps (a : Author) (V : Path → Bytes → Prop) {α : Type} (m : EditM α) : Prop :=
  ∀ e, Shaped e.work → Relation.ReflTransGen (Stored a V) e (m e).2

theorem shaped_of_stored (h : Relation.ReflTransGen (Stored a V) e e') (hw : Shaped e.work) :
    Shaped e'.work := by
  induction h with
  | refl => exact hw
  | tail _ hs ih => exact (hs.work ih).1

variable {α β : Type}

theorem steps_pure (x : α) : Steps a V (pure x : EditM α) := fun _ _ => .refl

theorem steps_refuse (what : Bytes) : Steps a V (EditM.refuse what : EditM α) := fun _ _ => .refl

/-- One step after another. -/
theorem Steps.bind {x : EditM α} {f : α → EditM β} (hx : Steps a V x) (hf : ∀ y, Steps a V (f y)) :
    Steps a V (x >>= f) := by
  intro e he
  have h := hx e he
  rw [EditM.bind_apply]
  generalize x e = r at h
  obtain ⟨c | y, e'⟩ := r
  · exact h
  · exact h.trans (hf y e' (shaped_of_stored h he))

/-- A loop of steps. -/
theorem steps_each {f : α → EditM Unit} {xs : List α} (h : ∀ x ∈ xs, Steps a V (f x)) :
    Steps a V (EditM.each f xs) := by
  induction xs with
  | nil => exact steps_pure ()
  | cons x xs ih =>
    exact (h x List.mem_cons_self).bind fun _ => ih fun y hy => h y (List.mem_cons_of_mem _ hy)

/-- A step whose continuation is run only on what a computation returns. -/
theorem steps_lift_bind {x : Except CanonicalError α} {f : α → EditM β}
    (h : ∀ y, x = .ok y → Steps a V (f y)) : Steps a V (EditM.lift x >>= f) := by
  intro e he
  cases x with
  | ok y => exact h y rfl e he
  | error c => exact .refl

/-- A step that first looks at the editor. -/
theorem steps_current_bind {f : Editor → EditM α} (h : ∀ e, Shaped e.work → Steps a V (f e)) :
    Steps a V (EditM.current >>= f) := fun e he => h e he e he

end

/-! ### The operations of the editor -/

section

variable {a : Author} {V : Path → Bytes → Prop} {p : Path}

/-- A register is overwritten. -/
theorem stored_overwrite (hp : IsSetPath p) {v : Bytes} (hv : V p v) (e : Editor) (hw : Shaped e.work) :
    Stored a V e (({ e with issued := e.issued + 1 } : Editor).store p (e.load p)
      ((e.load p).write (mintTag a.id (e.issued + 1)) v) .overwrite) := by
  refine .store (Nat.le_succ _) hp (fun t w ht => ?_) fun t ht => ?_
  · rw [OrSet.write_adds] at ht
    split at ht
    · rename_i he
      cases ht
      exact .inr ⟨hv, _, Nat.lt_succ_self _, le_rfl, he.symm⟩
    · exact .inl ht
  · refine (OrSet.mem_write_removes.mp ht).imp_right fun ⟨w, hw'⟩ => ⟨p, w, ?_⟩
    rwa [Editor.load_eq hw hp] at hw'

theorem steps_syncRegister (hp : IsSetPath p) {field : CString} {value : Option Bytes}
    (hv : ∀ v, value = some v → V p v) : Steps a V (syncRegister a p field value) := by
  intro e he
  cases value with
  | some v =>
    rw [syncRegister_some]
    dsimp only
    split
    · exact .refl
    · exact .single (stored_overwrite hp (hv v rfl) e he)
  | none =>
    rw [syncRegister_none]
    dsimp only
    split
    · exact .refl
    · refine .single (.store (e := e) le_rfl hp (fun t v ht => .inl ht) fun t ht => ?_)
      refine (OrSet.mem_removeAll.mp ht).imp_right fun ⟨w, hw⟩ => ⟨p, w, ?_⟩
      rwa [Editor.load_eq he hp] at hw

theorem steps_syncSet (hp : IsSetPath p) {want : List Bytes} (hv : ∀ v ∈ want, V p v) :
    Steps a V (syncSet a p want) := by
  intro e he
  obtain ⟨s, j, hadd, hj, hr, -, hnew, -⟩ := addWanted_spec a (e.load p).values want (e.load p) e
  rw [syncSet_apply hadd]
  obtain ⟨hda, hdr⟩ := OrSet.dropUnwanted_spec want (e.load p).values s
  refine .single (.store hj hp (fun t v ht => ?_) fun t ht => ?_)
  · rw [hda] at ht
    exact (hnew t v ht).imp_right fun ⟨n, h1, h2, h3, h4, _⟩ => ⟨hv v h4, n, h1, h2, h3⟩
  · rcases (hdr t).mp ht with ht | ⟨v, -, hnot, ha⟩
    · exact .inl (hr ▸ ht)
    · rcases hnew t v ha with ha | ⟨-, -, -, -, hmem, -⟩
      · refine .inr ⟨p, v, ?_⟩
        rwa [Editor.load_eq he hp] at ha
      · exact absurd hmem hnot

theorem steps_makePresent (hp : IsSetPath (p ++ [Key.present])) {value : Bytes}
    (hv : V (p ++ [Key.present]) value) : Steps a V (makePresent a p value) := by
  intro e he
  rw [makePresent_apply]
  dsimp only
  split
  · refine .single (.store (Nat.le_succ _) hp (fun t w ht => ?_) fun t ht => .inl ht)
    rw [OrSet.add_adds] at ht
    split at ht
    · rename_i heq
      cases ht
      exact .inr ⟨hv, _, Nat.lt_succ_self _, le_rfl, heq.symm⟩
    · exact .inl ht
  · exact .refl

theorem steps_removeThing (hp : IsSetPath (p ++ [Key.present])) (evenIfDead : Bool) :
    Steps a V (removeThing p evenIfDead) := by
  intro e he
  rw [removeThing_apply]
  cases hn : e.node p with
  | none => exact .refl
  | some n =>
    dsimp only
    split
    · exact .refl
    · refine .single (.store (e := e) le_rfl hp (fun t v ht => .inl ht) fun t ht => ?_)
      have hnode : e.node p = nodeAt e.work p :=
        atPath_eq_nodeAt (fun _ r hr hq => hp.prefix_map (r := r ++ [Key.present]) (by simp)
          (by rw [← List.append_assoc, hq])) he.kinds
      rw [hnode] at hn
      rw [Std.ExtTreeSet.mem_insertMany_list, List.contains_iff_mem] at ht
      rcases ht with ht | ht
      · refine (OrSet.mem_removeAll.mp ht).imp_right fun ⟨w, hw⟩ => ⟨p ++ [Key.present], w, ?_⟩
        rwa [Editor.load_eq he hp] at hw
      · obtain ⟨q, v, -, -, hl⟩ := (mem_collectLiveTags_thing he hp hn).mp ht
        exact .inr ⟨q, v, hl.1⟩

end

/-! ### Observing and settling -/

section

variable {a : Author} {V : Path → Bytes → Prop}

theorem steps_fixedField {fields : Path} {name : CString} (hp : IsSetPath (fields ++ [name]))
    {v : Option Json} (hv : ∀ b, encode (v.getD .null) = .ok b → V (fields ++ [name]) b) :
    Steps a V (fixedField a fields name v) :=
  steps_lift_bind fun b hb => steps_syncRegister hp fun w hw => by
    cases hw
    exact hv b hb

theorem steps_optionalField {fields : Path} {name : CString} (hp : IsSetPath (fields ++ [name]))
    {v : Option Json} (hv : ∀ b, encode (v.getD .null) = .ok b → V (fields ++ [name]) b) :
    Steps a V (optionalField a fields name v) := by
  unfold optionalField
  split
  · rename_i nd hnd
    have he : v = some nd := by
      unfold nonDefault at hnd
      split at hnd
      · cases hnd
      · exact hnd
    refine steps_lift_bind fun b hb => steps_syncRegister hp fun w hw => ?_
    cases hw
    subst he
    exact hv b hb
  · exact steps_syncRegister hp fun w hw => nomatch hw

theorem steps_keyedFields {fields : Path} {allowed : CString → Bool} (hf : FieldsAt fields allowed)
    {pre : CString} (hpre : ∀ k : CString, k.isEmpty = false → allowed (pre ++ k) = true)
    {n : Option Json} (hv : ∀ v ∈ namedValues n, ∀ b, encode v = .ok b → ∀ f, V (fields ++ [f]) b) :
    Steps a V (keyedFields a fields pre (childMembers n)) := by
  refine (steps_each fun m hm => ?_).bind fun _ => steps_current_bind fun e he => ?_
  · unfold keyedField
    split
    · exact steps_pure ()
    · rename_i hname
      refine steps_lift_bind fun b hb => steps_syncRegister ?_ fun w hw => ?_
      · exact hf.field _ (hpre _ (by simpa using hname))
      · cases hw
        refine hv m.2 (List.mem_map_of_mem (List.mem_filter.mpr ⟨hm, ?_⟩)) b hb _
        simpa using hname
  · refine steps_each fun name hname => steps_syncRegister ?_ fun w hw => nomatch hw
    obtain ⟨m, hm, rfl⟩ := List.mem_map.mp (List.mem_of_mem_filter hname)
    replace hm := List.mem_of_mem_filter hm
    have hnode : e.node fields = nodeAt e.work fields :=
      atPath_eq_nodeAt (fun q r hr hq => kindOf_prefix hr (by rw [hq, hf.map]; rfl)) he.kinds
    rw [hnode] at hm
    obtain ⟨-, k, hk⟩ := he.kindOf_member hf.map hm
    exact hf.only _ (by rw [hk]; rfl)

/-- Each value of a list that was encoded. -/
theorem mem_asTexts {values : List Json} : ∀ {bs : List Bytes}, asTexts values = .ok bs →
    ∀ b ∈ bs, ∃ v ∈ values, encode v = .ok b := by
  induction values with
  | nil =>
    intro bs h b hb
    cases h
    cases hb
  | cons v values ih =>
    intro bs h b hb
    rw [asTexts] at h
    obtain ⟨c, hc, h⟩ := bind_eq_ok.mp h
    obtain ⟨cs, hcs, h⟩ := bind_eq_ok.mp h
    cases h
    rcases List.mem_cons.mp hb with rfl | hb
    · exact ⟨v, List.mem_cons_self, hc⟩
    · obtain ⟨u, hu, he⟩ := ih hcs b hb
      exact ⟨u, List.mem_cons_of_mem _ hu, he⟩

theorem steps_syncValues {p : Path} (hp : IsSetPath p) {values : List Json}
    (hv : ∀ v ∈ values, ∀ b, encode v = .ok b → V p b) : Steps a V (syncValues a p values) := by
  refine steps_lift_bind fun bs hbs => steps_syncSet hp fun b hb => ?_
  obtain ⟨v, hmem, he⟩ := mem_asTexts hbs b (mem_sortUnique.mp hb)
  exact hv v hmem b he

theorem steps_removeGone {base : Path} (hb : NamedAt base) (observed : CString → Bool) :
    Steps a V (removeGone base observed) := by
  refine steps_current_bind fun e he => steps_each fun name hname => ?_
  obtain ⟨m, hm, rfl⟩ := List.mem_map.mp hname
  replace hm := List.mem_of_mem_filter hm
  have hnode : e.node base = nodeAt e.work base :=
    atPath_eq_nodeAt (fun q r hr hq => kindOf_prefix hr (by rw [hq, hb.map]; rfl)) he.kinds
  rw [hnode] at hm
  obtain ⟨-, k, hk⟩ := he.kindOf_member hb.map hm
  exact steps_removeThing (hb.present _ (hb.named _ (by rw [hk]; rfl))) _

/-- Each declaration that was gathered. -/
theorem gatherGlyphs_value {members : List (CString × Json)} : ∀ {out d : Dict Bytes},
    gatherGlyphs members out = .ok d → ∀ (k : CString) (b : Bytes), d[k]? = some b →
      out[k]? = some b ∨ ∃ g ∈ members, canonGlyphDescriptor g.2 = .ok b := by
  induction members with
  | nil =>
    intro out d h k b hb
    cases h
    exact .inl hb
  | cons m members ih =>
    intro out d h k b hb
    obtain ⟨name, g⟩ := m
    rw [gatherGlyphs] at h
    split at h
    · cases h
    · obtain ⟨c, hc, h⟩ := bind_eq_ok.mp h
      rcases ih h k b hb with ho | ⟨g', hg, he⟩
      · rw [Std.ExtTreeMap.getElem?_insert] at ho
        split at ho
        · cases ho
          exact .inr ⟨(name, g), List.mem_cons_self, hc⟩
        · exact .inl ho
      · exact .inr ⟨g', List.mem_cons_of_mem _ hg, he⟩

variable (hP : ∀ p v, V (p ++ [Key.present]) v)

include hP

theorem steps_observeRune {base : Path} (hb : AtKind base runeKind) {r : Json}
    (hv : ∀ v ∈ recordedRune r, ∀ b, encode v = .ok b → ∀ p, V (base ++ p) b) :
    Steps a V (observeRune a base r) := by
  have hfixed : ∀ f v, runeFieldAllowed f = true → v.getD .null ∈ recordedRune r →
      Steps a V (fixedField a (base ++ [Key.fields]) f v) := fun f v hf hm =>
    steps_fixedField (hb.rune_field hf) fun b he => by
      rw [List.append_assoc]
      exact hv _ hm b he _
  refine (steps_makePresent hb.present_rune (hP _ _)).bind fun _ => ?_
  refine (hfixed _ _ (by decide) (by simp [recordedRune])).bind fun _ => ?_
  refine (hfixed _ _ (by decide) (by simp [recordedRune])).bind fun _ => ?_
  refine (steps_each fun k hk => hfixed _ _ (runeFieldAllowed_facet hk) ?_).bind fun _ => ?_
  · exact List.mem_append_left _ (List.mem_append_left _ (List.mem_append_right _
      (List.mem_map_of_mem (f := fun k => (get (r.get Key.facets) k).getD .null) hk)))
  refine (hfixed _ _ (by decide) (by simp [recordedRune])).bind fun _ => ?_
  refine (steps_optionalField (hb.rune_field (by decide)) fun b he => ?_).bind fun _ => ?_
  · rw [List.append_assoc]
    exact hv _ (by simp [recordedRune]) b he _
  dsimp only
  split
  · exact steps_refuse _
  · refine (steps_keyedFields hb.rune_fieldsAt (fun k hk => runeFieldAllowed_content hk)
      fun v hm b he f => ?_).bind fun _ => steps_syncValues hb.rune_tags fun v hm b he => ?_
    · rw [List.append_assoc]
      exact hv v (List.mem_append_left _ (List.mem_append_right _ hm)) b he _
    · exact hv v (List.mem_append_right _ hm) b he _

theorem steps_observeMantle {base : Path} (hb : AtKind base mantleKind) {m : Json}
    (hv : ∀ v ∈ recordedMantle m, ∀ b, encode v = .ok b → ∀ p, V (base ++ p) b) :
    Steps a V (observeMantle a base m) := by
  have hfixed : ∀ f v, mantleFieldAllowed f = true → v.getD .null ∈ recordedMantle m →
      Steps a V (fixedField a (base ++ [Key.fields]) f v) := fun f v hf hm =>
    steps_fixedField (hb.mantle_field hf) fun b he => by
      rw [List.append_assoc]
      exact hv _ hm b he _
  refine (steps_makePresent hb.present_mantle (hP _ _)).bind fun _ => ?_
  refine (hfixed _ _ (by decide) (by simp [recordedMantle])).bind fun _ => ?_
  refine (hfixed _ _ (by decide) (by simp [recordedMantle])).bind fun _ => ?_
  dsimp only
  split
  · exact steps_refuse _
  · refine (steps_keyedFields hb.mantle_fieldsAt (fun k hk => mantleFieldAllowed_tag hk)
      fun v hm b he f => ?_).bind fun _ => ?_
    · rw [List.append_assoc]
      exact hv v (by simp [recordedMantle, hm]) b he _
    refine (steps_optionalField (hb.mantle_field (by decide)) fun b he => ?_).bind fun _ => ?_
    · rw [List.append_assoc]
      exact hv _ (by simp [recordedMantle]) b he _
    refine steps_lift_bind fun runes hr => ?_
    refine (steps_each fun r hmem => steps_observeRune hP ?_ fun v hm b he p => ?_).bind fun _ => ?_
    · exact hb.rune (gather_named hr (by simp) _ (mem_of_mem_toList hmem))
    · have hmem := (gather_forall hr (P := (· ∈ childValues (m.get Key.runes)))).mpr (fun _ h => h) r hmem
      rw [List.append_assoc]
      exact hv v (List.mem_append_right _ (List.mem_flatMap.mpr ⟨r.2, hmem, hm⟩)) b he _
    · refine (steps_removeGone hb.namedAt_runes _).bind fun _ =>
        steps_syncValues hb.mantle_edges fun v hm b he => ?_
      exact hv v (by simp [recordedMantle, hm]) b he _

theorem steps_observeGlyph {base : Path} (hb : AtKind base glyphKind) {descriptor : Bytes}
    (hv : V (base ++ [Key.fields, Key.descriptor]) descriptor) :
    Steps a V (observeGlyph a base descriptor) :=
  (steps_makePresent hb.present_glyph (hP _ _)).bind fun _ =>
    steps_syncRegister hb.glyph_field fun w hw => by
      cases hw
      exact hv

/-- An observation stores the values of the state. -/
theorem steps_observeInto {state : Json}
    (hm : ∀ name : CString, name.isEmpty = false → ∀ m ∈ childValues (state.get Key.mantles),
      ∀ v ∈ recordedMantle m, ∀ b, encode v = .ok b → ∀ p, V ([Key.mantles, name] ++ p) b)
    (hg : ∀ name : CString, name.isEmpty = false → ∀ g ∈ childMembers (state.get Key.glyphs),
      ∀ b, canonGlyphDescriptor g.2 = .ok b → V [Key.glyphs, name, Key.fields, Key.descriptor] b) :
    Steps a V (observeInto a (some state)) := by
  unfold observeInto
  split
  · rename_i members he
    cases he
    dsimp only
    split
    · exact steps_refuse _
    · refine steps_lift_bind fun mantles hr => ?_
      refine (steps_each fun m hmem => ?_).bind fun _ => ?_
      · have hname := gather_named hr (by simp) _ (mem_of_mem_toList hmem)
        refine steps_observeMantle hP (atKind_mantle hname) (hm m.1 hname m.2 ?_)
        exact (gather_forall hr (P := (· ∈ childValues ((Json.obj members).get Key.mantles)))).mpr
          (fun _ h => h) m hmem
      · refine (steps_removeGone namedAt_mantles _).bind fun _ => ?_
        split
        · exact steps_refuse _
        · refine steps_lift_bind fun glyphs hr => ?_
          refine (steps_each fun g hmem => ?_).bind fun _ => steps_removeGone namedAt_glyphs _
          have hname := gatherGlyphs_named hr (by simp) _ (mem_of_mem_toList hmem)
          refine steps_observeGlyph hP (atKind_glyph hname) ?_
          rcases gatherGlyphs_value hr g.1 g.2 (getElem?_of_mem_toList hmem) with hx | ⟨g', hg', hx⟩
          · simp at hx
          · exact hg g.1 hname g' hg' g.2 hx
  · exact steps_refuse _

/-- Settling stores the side that was chosen, or a presence. -/
theorem steps_settle {c : Conflict} (hc : Placed c) {side : Bytes}
    (hv : c.kind = .values → V (locate c ++ [Key.fields, .ofBytes c.field]) side) :
    Steps a V (settle a c side) := by
  unfold settle
  split
  · rename_i hk
    exact fun e he => .single (stored_overwrite (hc.field hk) (hv hk) e he)
  · dsimp only
    split
    · exact (steps_makePresent hc.thing.present (hP _ _)).bind fun _ => steps_pure _
    · split
      · exact (steps_removeThing hc.thing.present _).bind fun _ => steps_pure _
      · exact steps_pure _

end

end VoidPalabra
