import VoidPalabra.Raced

/-!
# What an observation refuses

Whether a state is observed depends on the state alone: on the shapes the traversal asks
for and on the values it encodes. Names go into the document as they are. The canonical
form of the state encodes the names too, so the two agree on the states whose names are
text and distinct.
-/

namespace VoidPalabra

/-! ### Steps that throw or not, whatever the document is -/

/-- A step of an edit succeeds under a condition that the editor has no part in, and does
not take the counter back. -/
structure Decides {α : Type} (m : EditM α) (ok : Prop) : Prop where
  /-- It succeeds under the condition, and under no other. -/
  iff : ∀ e, (∃ x, (m e).1 = .ok x) ↔ ok
  /-- The counter does not go back. -/
  forward : ∀ e, e.issued ≤ (m e).2.issued

section

variable {α β : Type} {P Q : Prop}

theorem Decides.congr {m : EditM α} (h : Decides m P) (hPQ : P ↔ Q) : Decides m Q :=
  ⟨fun e => (h.iff e).trans hPQ, h.forward⟩

theorem decides_pure (x : α) : Decides (pure x : EditM α) True :=
  ⟨fun _ => ⟨fun _ => trivial, fun _ => ⟨x, rfl⟩⟩, fun _ => le_rfl⟩

theorem decides_refuse (what : Bytes) : Decides (EditM.refuse what : EditM α) False :=
  ⟨fun _ => ⟨fun ⟨_, h⟩ => (nomatch h), False.elim⟩, fun _ => le_rfl⟩

/-- One step after another. -/
theorem Decides.bind {x : EditM α} {f : α → EditM β} (hx : Decides x P) (hf : ∀ y, Decides (f y) Q) :
    Decides (x >>= f) (P ∧ Q) := by
  constructor
  · intro e
    have hP := hx.iff e
    rw [EditM.bind_apply]
    generalize x e = r at hP
    obtain ⟨c | y, e'⟩ := r
    · refine ⟨fun ⟨z, hz⟩ => (nomatch hz), fun h => ?_⟩
      obtain ⟨z, hz⟩ := hP.mpr h.1
      cases hz
    · exact ((hf y).iff e').trans (and_iff_right (hP.mp ⟨y, rfl⟩)).symm
  · intro e
    have h := hx.forward e
    rw [EditM.bind_apply]
    generalize x e = r at h
    obtain ⟨c | y, e'⟩ := r
    · exact h
    · exact h.trans ((hf y).forward e')

/-- A step after something that may fail by itself. -/
theorem decides_lift_bind {x : Except CanonicalError α} {f : α → EditM β}
    (hf : ∀ y, x = .ok y → Decides (f y) Q) :
    Decides (EditM.lift x >>= f) ((∃ y, x = .ok y) ∧ Q) := by
  cases x with
  | error c =>
    refine ⟨fun e => ⟨fun ⟨z, hz⟩ => (nomatch hz), fun ⟨⟨y, hy⟩, _⟩ => (nomatch hy)⟩, fun e => le_rfl⟩
  | ok y => exact (hf y rfl).congr (and_iff_right ⟨y, rfl⟩).symm

theorem decides_current_bind {f : Editor → EditM β} (hf : ∀ e, Decides (f e) Q) :
    Decides (EditM.current >>= f) Q := ⟨fun e => (hf e).iff e, fun e => (hf e).forward e⟩

/-- A loop of steps. -/
theorem decides_each {f : α → EditM Unit} {R : α → Prop} {xs : List α}
    (h : ∀ x ∈ xs, Decides (f x) (R x)) : Decides (EditM.each f xs) (∀ x ∈ xs, R x) := by
  induction xs with
  | nil => exact (decides_pure ()).congr (by simp)
  | cons x xs ih =>
    rw [List.forall_mem_cons]
    exact (h x List.mem_cons_self).bind fun _ => ih fun y hy => h y (List.mem_cons_of_mem _ hy)

/-- A loop none of whose steps throws. -/
theorem decides_each_true {f : α → EditM Unit} {xs : List α} (h : ∀ x ∈ xs, Decides (f x) True) :
    Decides (EditM.each f xs) True := (decides_each h).congr (by simp)

theorem decides_ite_refuse {c : Bool} {what : Bytes} {m : EditM α} (hm : Decides m P) :
    Decides (if c = true then EditM.refuse what else m) (c = false ∧ P) := by
  cases c
  · exact hm.congr (by simp)
  · exact (decides_refuse what).congr (by simp)

end

/-! ### The operations of the editor -/

section

variable {a : Author}

theorem Editor.store_issued (e : Editor) (p : Path) (before after : OrSet) (intent : Intent) :
    (e.store p before after intent).issued = e.issued := by
  unfold Editor.store
  split <;> rfl

theorem decides_syncRegister (p : Path) (field : CString) (value : Option Bytes) :
    Decides (syncRegister a p field value) True := by
  constructor
  · intro e
    cases value with
    | none => exact iff_of_true ⟨(), by rw [syncRegister_none]⟩ trivial
    | some v => exact iff_of_true ⟨(), by rw [syncRegister_some]⟩ trivial
  · intro e
    cases value with
    | none =>
      rw [syncRegister_none]
      dsimp only
      split
      · exact le_rfl
      · rw [Editor.store_issued]
    | some v =>
      rw [syncRegister_some]
      dsimp only
      split
      · exact le_rfl
      · rw [Editor.store_issued]
        exact Nat.le_succ _

theorem decides_makePresent (p : Path) (value : Bytes) : Decides (makePresent a p value) True := by
  constructor
  · exact fun e => iff_of_true ⟨(), by rw [makePresent_apply]⟩ trivial
  · intro e
    rw [makePresent_apply]
    dsimp only
    split
    · rw [Editor.store_issued]
      exact Nat.le_succ _
    · exact le_rfl

theorem decides_removeThing (p : Path) (evenIfDead : Bool) : Decides (removeThing p evenIfDead) True := by
  constructor
  · exact fun e => iff_of_true ⟨(), by rw [removeThing_apply]⟩ trivial
  · intro e
    rw [removeThing_apply]
    dsimp only
    split
    · exact le_rfl
    · split
      · exact le_rfl
      · rw [Editor.store_issued]

theorem decides_syncSet (p : Path) (want : List Bytes) : Decides (syncSet a p want) True := by
  constructor
  · intro e
    obtain ⟨s, j, hs, -⟩ := addWanted_spec a (e.load p).values want (e.load p) e
    exact iff_of_true ⟨(), by rw [syncSet_apply hs]⟩ trivial
  · intro e
    obtain ⟨s, j, hs, hj, -⟩ := addWanted_spec a (e.load p).values want (e.load p) e
    rw [syncSet_apply hs, Editor.store_issued]
    exact hj

theorem decides_removeGone (base : Path) (observed : CString → Bool) :
    Decides (removeGone base observed) True :=
  decides_current_bind fun _ => decides_each_true fun _ _ => decides_removeThing _ _

end

/-! ### What an observation encodes -/

/-- `as_text` gives bytes. -/
def HasText (v : Option Json) : Prop := HasForm (v.getD .null)

/-- Every item has a name that is not empty, and has it alone. -/
def NamedApart (nameOf : Json → Option CString) (values : List Json) : Prop :=
  (∀ v ∈ values, ∃ k, nameOf v = some k ∧ k.isEmpty = false) ∧ (values.map nameOf).Nodup

/-- What an observation encodes of a rune can be encoded. -/
structure RuneEncodes (r : Json) : Prop where
  /-- The name of the spirit. -/
  name : HasText (get (r.get Key.spirit) Key.name)
  /-- The glyph. -/
  glyph : HasText (r.get Key.glyph)
  /-- The facets. -/
  facets : ∀ k ∈ kFacets, HasText (get (r.get Key.facets) k)
  /-- The placement. -/
  placement : HasText (r.get Key.placement)
  /-- The relations. -/
  relations : HasText (r.get Key.relations)
  /-- The content is an object. -/
  object : ∀ c, r.get Key.content = some c → c.isObject = true
  /-- Its values. -/
  content : ∀ m ∈ childMembers (r.get Key.content), m.1.isEmpty = false → HasForm m.2
  /-- The tags. -/
  tags : ∀ t ∈ childValues (r.get Key.tags), HasForm t

/-- What an observation encodes of a mantle can be encoded, and its runes can be told
apart. -/
structure MantleEncodes (m : Json) : Prop where
  /-- The identity. -/
  id : HasText (m.get Key.id)
  /-- The domain. -/
  domain : HasText (m.get Key.domain)
  /-- The tags are an object. -/
  object : ∀ t, m.get Key.tags = some t → t.isObject = true ∨ t.isNull = true
  /-- Their values. -/
  tags : ∀ t ∈ childMembers (m.get Key.tags), t.1.isEmpty = false → HasForm t.2
  /-- The rules. -/
  rules : HasText (m.get Key.rules)
  /-- The runes. -/
  apart : NamedApart runeId (childValues (m.get Key.runes))
  /-- Each of them. -/
  runes : ∀ r ∈ childValues (m.get Key.runes), RuneEncodes r
  /-- The edges. -/
  edges : ∀ e ∈ childValues (get (m.get Key.layout) Key.edges), HasForm e

/-- What an observation encodes of a state can be encoded, and the state has the shapes
that the traversal asks for. -/
structure StateEncodes (state : Json) : Prop where
  /-- It is an object. -/
  object : state.isObject = true
  /-- The mantles are a list. -/
  list : ∀ n, state.get Key.mantles = some n → n.isArray = true
  /-- The mantles. -/
  apart : NamedApart mantleName (childValues (state.get Key.mantles))
  /-- Each of them. -/
  mantles : ∀ m ∈ childValues (state.get Key.mantles), MantleEncodes m
  /-- The declarations are an object. -/
  declared : ∀ g, state.get Key.glyphs = some g → g.isObject = true ∨ g.isNull = true
  /-- Each of them has a name and can be encoded. -/
  glyphs : ∀ g ∈ childMembers (state.get Key.glyphs),
    g.1.isEmpty = false ∧ ∃ b, canonGlyphDescriptor g.2 = .ok b

theorem asText_ok {v : Option Json} : (∃ b, asText v = .ok b) ↔ HasText v := Iff.rfl

theorem asTexts_ok {values : List Json} :
    (∃ bs, asTexts values = .ok bs) ↔ ∀ v ∈ values, HasForm v := by
  induction values with
  | nil => exact iff_of_true ⟨[], rfl⟩ (by simp)
  | cons v values ih =>
    rw [List.forall_mem_cons, ← ih, asTexts]
    constructor
    · rintro ⟨bs, h⟩
      obtain ⟨b, hb, h⟩ := bind_eq_ok.mp h
      obtain ⟨bs', hbs, -⟩ := bind_eq_ok.mp h
      exact ⟨⟨b, hb⟩, bs', hbs⟩
    · rintro ⟨⟨b, hb⟩, bs, hbs⟩
      exact ⟨b :: bs, bind_eq_ok.mpr ⟨b, hb, bind_eq_ok.mpr ⟨bs, hbs, rfl⟩⟩⟩

/-- An empty list is encoded like any other, so leaving it out refuses nothing less. -/
theorem hasText_nonDefault {v : Option Json} : HasText (nonDefault v) ↔ HasText v := by
  unfold nonDefault
  split
  · exact iff_of_true ⟨_, rfl⟩ ⟨_, rfl⟩
  · rfl

theorem not_ok_error {ε α : Type} (e : ε) : ¬∃ a : α, (Except.error e : Except ε α) = .ok a := by
  rintro ⟨a, h⟩
  cases h

/-- What is gathered is found under its name. -/
theorem gather_iff {nameOf : Json → Option CString} {missing duplicate : String} {values : List Json} :
    ∀ {out : Dict Json}, (∃ d, gather nameOf missing duplicate values out = .ok d) ↔
      NamedApart nameOf values ∧ ∀ v ∈ values, ∀ k, nameOf v = some k → k ∉ out := by
  induction values with
  | nil => exact iff_of_true ⟨_, rfl⟩ ⟨⟨by simp, List.nodup_nil⟩, by simp⟩
  | cons v values ih =>
    intro out
    rw [gather]
    cases hv : nameOf v with
    | none =>
      refine iff_of_false (not_ok_error _) fun h => ?_
      obtain ⟨k, hk, -⟩ := h.1.1 v List.mem_cons_self
      rw [hv] at hk
      cases hk
    | some k =>
      dsimp only
      cases he : k.isEmpty with
      | true =>
        rw [if_pos rfl]
        refine iff_of_false (not_ok_error _) fun h => ?_
        obtain ⟨j, hj, hne⟩ := h.1.1 v List.mem_cons_self
        rw [hv] at hj
        cases hj
        rw [he] at hne
        cases hne
      | false =>
        rw [if_neg (by simp)]
        by_cases hk : k ∈ out
        · rw [if_pos (Std.ExtTreeMap.mem_iff_contains.mp hk)]
          exact iff_of_false (not_ok_error _) fun h => h.2 v List.mem_cons_self k hv hk
        · rw [if_neg fun hc => hk (Std.ExtTreeMap.mem_iff_contains.mpr hc), ih]
          have hfree : ∀ j, j ∉ out.insert k v ↔ j ≠ k ∧ j ∉ out := by
            intro j
            rw [Std.ExtTreeMap.mem_insert, not_or, Std.LawfulEqCmp.compare_eq_iff_eq, eq_comm (a := k)]
          simp only [NamedApart, List.forall_mem_cons, List.map_cons, List.nodup_cons, hv, hfree,
            Option.some.injEq, exists_eq_left', he, forall_eq', hk, not_false_eq_true,
            true_and, List.mem_map, not_exists, not_and]
          constructor
          · rintro ⟨⟨h1, h2⟩, h3⟩
            exact ⟨⟨h1, fun u hu hn => (h3 u hu k hn).1 rfl, h2⟩, fun u hu j hj => (h3 u hu j hj).2⟩
          · rintro ⟨⟨h1, h2, h3⟩, h4⟩
            exact ⟨⟨h1, h3⟩, fun u hu j hj => ⟨fun he => h2 u hu (he ▸ hj), h4 u hu j hj⟩⟩

/-- Nothing that was gathered is lost. -/
theorem gather_find {nameOf : Json → Option CString} {missing duplicate : String} {values : List Json} :
    ∀ {out d : Dict Json}, gather nameOf missing duplicate values out = .ok d →
      (∀ (k : CString) (v : Json), out[k]? = some v → d[k]? = some v) ∧
        ∀ v ∈ values, ∃ k : CString, d[k]? = some v := by
  induction values with
  | nil =>
    intro out d h
    cases h
    exact ⟨fun _ _ => id, by simp⟩
  | cons v values ih =>
    intro out d h
    rw [gather] at h
    split at h
    · cases h
    · rename_i j _
      split at h
      · cases h
      · split at h
        · cases h
        · rename_i hfree
          obtain ⟨hkeep, hall⟩ := ih h
          refine ⟨fun k u hu => hkeep k u ?_, List.forall_mem_cons.mpr ⟨⟨j, hkeep j v ?_⟩, hall⟩⟩
          · rw [Std.ExtTreeMap.getElem?_insert, if_neg, hu]
            intro he
            rw [Std.LawfulEqCmp.compare_eq_iff_eq] at he
            rw [he] at hfree
            exact hfree (Std.ExtTreeMap.contains_eq_isSome_getElem?.trans (by rw [hu]; rfl))
          · rw [Std.ExtTreeMap.getElem?_insert_self]

/-- What holds of everything gathered holds of every item. -/
theorem gather_forall {nameOf : Json → Option CString} {missing duplicate : String}
    {values : List Json} {d : Dict Json} (h : gather nameOf missing duplicate values ∅ = .ok d)
    {P : Json → Prop} : (∀ x ∈ d.toList, P x.2) ↔ ∀ v ∈ values, P v := by
  constructor
  · intro hd v hv
    obtain ⟨k, hk⟩ := (gather_find h).2 v hv
    exact hd (k, v) (Std.ExtTreeMap.mem_toList_iff_getElem?_eq_some.mpr hk)
  · intro hv x hx
    rcases gather_mem h x.1 x.2 (getElem?_of_mem_toList hx) with he | he
    · rw [Std.ExtTreeMap.getElem?_empty] at he
      cases he
    · exact hv x.2 he.1

theorem gatherGlyphs_iff {members : List (CString × Json)} :
    ∀ {out : Dict Bytes}, (∃ d, gatherGlyphs members out = .ok d) ↔
      ∀ g ∈ members, g.1.isEmpty = false ∧ ∃ b, canonGlyphDescriptor g.2 = .ok b := by
  induction members with
  | nil => exact fun {out} => iff_of_true ⟨out, rfl⟩ (by simp)
  | cons g members ih =>
    intro out
    obtain ⟨k, g⟩ := g
    rw [gatherGlyphs, List.forall_mem_cons]
    cases he : k.isEmpty with
    | true =>
      rw [if_pos rfl]
      exact iff_of_false (not_ok_error _) fun h => by simp at h
    | false =>
      rw [if_neg (by simp)]
      constructor
      · rintro ⟨d, hd⟩
        obtain ⟨b, hb, hd⟩ := bind_eq_ok.mp hd
        exact ⟨⟨rfl, b, hb⟩, ih.mp ⟨d, hd⟩⟩
      · rintro ⟨⟨-, b, hb⟩, hg⟩
        obtain ⟨d, hd⟩ := (@ih (out.insert k b)).mpr hg
        exact ⟨d, bind_eq_ok.mpr ⟨b, hb, hd⟩⟩

/-! ### What an observation accepts -/

section

variable {a : Author}

theorem decides_fixedField (fields : Path) (name : CString) (v : Option Json) :
    Decides (fixedField a fields name v) (HasText v) :=
  (decides_lift_bind fun _ _ => decides_syncRegister _ _ _).congr (and_iff_left trivial)

theorem decides_optionalField (fields : Path) (name : CString) (v : Option Json) :
    Decides (optionalField a fields name v) (HasText v) := by
  rw [← hasText_nonDefault]
  unfold optionalField
  cases nonDefault v with
  | none => exact (decides_syncRegister _ _ _).congr (iff_of_true trivial ⟨_, rfl⟩)
  | some nd => exact (decides_lift_bind fun _ _ => decides_syncRegister _ _ _).congr (and_iff_left trivial)

/-- Every member that has a name is encoded. -/
theorem decides_keyedFields (fields : Path) (pre : CString) (object : List (CString × Json)) :
    Decides (keyedFields a fields pre object) (∀ m ∈ object, m.1.isEmpty = false → HasForm m.2) := by
  have hfield : ∀ m ∈ object, Decides (keyedField a fields pre m) (m.1.isEmpty = false → HasForm m.2) := by
    intro m _
    unfold keyedField
    cases he : m.1.isEmpty with
    | true => exact (decides_pure ()).congr (by simp)
    | false =>
      exact (decides_lift_bind fun _ _ => decides_syncRegister _ _ _).congr
        ((and_iff_left trivial).trans ⟨fun h _ => h, fun h => h rfl⟩)
  unfold keyedFields
  exact ((decides_each hfield).bind fun _ => decides_current_bind fun _ =>
    decides_each_true fun _ _ => decides_syncRegister _ _ _).congr (and_iff_left trivial)

theorem decides_syncValues (p : Path) (values : List Json) :
    Decides (syncValues a p values) (∀ v ∈ values, HasForm v) :=
  (decides_lift_bind fun _ _ => decides_syncSet _ _).congr ((and_iff_left trivial).trans asTexts_ok)

theorem any_eq_false {n : Option Json} {f : Json → Bool} :
    n.any f = false ↔ ∀ v, n = some v → f v = false := by
  cases n <;> simp

/-- A rune is observed when what is encoded of it can be encoded. -/
theorem decides_observeRune (base : Path) (r : Json) :
    Decides (observeRune a base r) (RuneEncodes r) := by
  unfold observeRune
  refine ((decides_makePresent _ _).bind fun _ => (decides_fixedField _ _ _).bind fun _ =>
    (decides_fixedField _ _ _).bind fun _ =>
    (decides_each fun k _ => decides_fixedField _ _ _).bind fun _ =>
    (decides_fixedField _ _ _).bind fun _ => (decides_optionalField _ _ _).bind fun _ =>
    decides_ite_refuse ((decides_keyedFields _ _ _).bind fun _ => decides_syncValues _ _)).congr ?_
  rw [any_eq_false]
  simp only [Bool.not_eq_false']
  constructor
  · rintro ⟨-, h1, h2, h3, h4, h5, h6, h7, h8⟩
    exact ⟨h1, h2, h3, h4, h5, h6, h7, h8⟩
  · rintro ⟨h1, h2, h3, h4, h5, h6, h7, h8⟩
    exact ⟨trivial, h1, h2, h3, h4, h5, h6, h7, h8⟩

theorem objectOrNull {n : Option Json} : (n.any fun t => !t.isObject && !t.isNull) = false ↔
    ∀ t, n = some t → t.isObject = true ∨ t.isNull = true := by
  rw [any_eq_false]
  refine forall₂_congr fun t _ => ?_
  cases t.isObject <;> cases t.isNull <;> simp

/-- So is a mantle. -/
theorem decides_observeMantle (base : Path) (m : Json) :
    Decides (observeMantle a base m) (MantleEncodes m) := by
  unfold observeMantle
  refine ((decides_makePresent _ _).bind fun _ => (decides_fixedField _ _ _).bind fun _ =>
    (decides_fixedField _ _ _).bind fun _ =>
    decides_ite_refuse ((decides_keyedFields _ _ _).bind fun _ => (decides_optionalField _ _ _).bind fun _ =>
    decides_lift_bind (Q := (∀ r ∈ childValues (m.get Key.runes), RuneEncodes r) ∧
      ∀ e ∈ childValues (get (m.get Key.layout) Key.edges), HasForm e) fun runes hruns =>
      ((decides_each fun r _ => decides_observeRune _ _).bind fun _ => (decides_removeGone _ _).bind fun _ =>
        decides_syncValues _ _).congr ?_)).congr ?_
  · rw [gather_forall hruns, true_and]
  · rw [objectOrNull, gather_iff]
    constructor
    · rintro ⟨-, h1, h2, h3, h4, h5, ⟨h6, -⟩, h7, h8⟩
      exact ⟨h1, h2, h3, h4, h5, h6, h7, h8⟩
    · rintro ⟨h1, h2, h3, h4, h5, h6, h7, h8⟩
      exact ⟨trivial, h1, h2, h3, h4, h5, ⟨h6, fun _ _ _ _ => Std.ExtTreeMap.not_mem_empty⟩, h7, h8⟩

theorem decides_observeGlyph (base : Path) (descriptor : Bytes) :
    Decides (observeGlyph a base descriptor) True :=
  ((decides_makePresent _ _).bind fun _ => decides_syncRegister _ _ _).congr (and_iff_left trivial)

/-- So is a state. -/
theorem decides_observeInto (state : Json) : Decides (observeInto a (some state)) (StateEncodes state) := by
  cases state with
  | obj members =>
    unfold observeInto
    refine (decides_ite_refuse (decides_lift_bind
      (Q := (∀ m ∈ childValues (Json.lookup Key.mantles members), MantleEncodes m) ∧
        (∀ g, Json.lookup Key.glyphs members = some g → g.isObject = true ∨ g.isNull = true) ∧
        ∀ g ∈ childMembers (Json.lookup Key.glyphs members),
          g.1.isEmpty = false ∧ ∃ b, canonGlyphDescriptor g.2 = .ok b) fun mantles hmantles =>
      ((decides_each fun m _ => decides_observeMantle _ _).bind fun _ => (decides_removeGone _ _).bind fun _ =>
        decides_ite_refuse (decides_lift_bind (Q := True) fun glyphs _ =>
          ((decides_each_true fun g _ => decides_observeGlyph _ _).bind fun _ =>
            decides_removeGone _ _).congr (and_iff_left trivial))).congr ?_)).congr ?_
    · rw [gather_forall hmantles, objectOrNull, gatherGlyphs_iff, true_and, and_iff_left trivial]
    · rw [any_eq_false, gather_iff]
      simp only [Bool.not_eq_false']
      constructor
      · rintro ⟨h1, ⟨h2, -⟩, h3, h4, h5⟩
        exact ⟨rfl, h1, h2, h3, h4, h5⟩
      · rintro ⟨-, h1, h2, h3, h4, h5⟩
        exact ⟨h1, ⟨h2, fun _ _ _ _ => Std.ExtTreeMap.not_mem_empty⟩, h3, h4, h5⟩
  | _ => exact (decides_refuse _).congr ⟨False.elim, fun h => (nomatch h.object)⟩

end

/-! ### What the canonical form encodes beside that -/

/-- The members of an object are named by text and apart, and what has no name can be
encoded too. -/
structure MembersNamed (n : Option Json) : Prop where
  /-- Text. -/
  text : ∀ m ∈ childMembers n, validUtf8 m.1.bytes = true
  /-- Apart. -/
  distinct : ((childMembers n).map Prod.fst).Nodup
  /-- What has no name. -/
  nameless : ∀ m ∈ childMembers n, m.1.isEmpty = true → HasForm m.2

/-- The names in a rune. -/
structure RuneNamed (r : Json) : Prop where
  /-- Its identity is text. -/
  id : ∀ k, runeId r = some k → validUtf8 k.bytes = true
  /-- Its content. -/
  content : MembersNamed (r.get Key.content)

/-- The names in a mantle. -/
structure MantleNamed (m : Json) : Prop where
  /-- Its name is text. -/
  name : ∀ k, mantleName m = some k → validUtf8 k.bytes = true
  /-- Its tags. -/
  tags : MembersNamed (m.get Key.tags)
  /-- Its runes. -/
  runes : ∀ r ∈ arrayItems (m.get Key.runes), RuneNamed r

/-- The names in a state. -/
structure StateNamed (state : Json) : Prop where
  /-- Of the mantles. -/
  mantles : ∀ m ∈ arrayItems (state.get Key.mantles), MantleNamed m
  /-- Of the declarations. -/
  glyphs : ∀ g ∈ childMembers (state.get Key.glyphs), validUtf8 g.1.bytes = true

theorem mem_childValues_of_arrayItems {n : Option Json} {v : Json} (h : v ∈ arrayItems n) :
    v ∈ childValues n := by
  unfold arrayItems at h
  split at h
  · simpa [childValues, Json.child] using h
  · cases h

/-- Each item of a list is encoded when every one can be. -/
theorem encodeEach_ok {enc : Json → Except CanonicalError Bytes} {values : List Json} :
    (∃ bs, encodeEach enc values = .ok bs) ↔ ∀ v ∈ values, ∃ b, enc v = .ok b := by
  induction values with
  | nil => exact iff_of_true ⟨[], rfl⟩ (by simp)
  | cons v values ih =>
    rw [List.forall_mem_cons, ← ih, encodeEach]
    constructor
    · rintro ⟨bs, h⟩
      obtain ⟨b, hb, h⟩ := bind_eq_ok.mp h
      obtain ⟨bs', hbs, -⟩ := bind_eq_ok.mp h
      exact ⟨⟨b, hb⟩, bs', hbs⟩
    · rintro ⟨⟨b, hb⟩, bs, hbs⟩
      exact ⟨b :: bs, bind_eq_ok.mpr ⟨b, hb, bind_eq_ok.mpr ⟨bs, hbs, rfl⟩⟩⟩

theorem encodeFields_eq_ok {fields : List (CString × Except CanonicalError Bytes)} :
    ∀ {ps : List (Bytes × Bytes)}, encodeFields fields = .ok ps →
      (∀ f ∈ fields, ∃ b, f.2 = .ok b) ∧ ps.map Prod.fst = fields.map fun f => keyForm f.1 := by
  induction fields with
  | nil =>
    intro ps h
    cases h
    exact ⟨by simp, rfl⟩
  | cons f fields ih =>
    intro ps h
    obtain ⟨k, v⟩ := f
    rw [encodeFields] at h
    obtain ⟨kb, hk, h⟩ := bind_eq_ok.mp h
    obtain ⟨b, hb, h⟩ := bind_eq_ok.mp h
    obtain ⟨rest, hrest, h⟩ := bind_eq_ok.mp h
    cases h
    obtain ⟨hall, hkeys⟩ := ih hrest
    refine ⟨List.forall_mem_cons.mpr ⟨⟨b, hb⟩, hall⟩, ?_⟩
    rw [List.map_cons, List.map_cons, hkeys, (encodeStr_eq_ok.mp hk).2]
    rfl

/-- A record whose names are text and apart is encoded when its fields are. -/
theorem encodeRecord_ok {fields : List (CString × Except CanonicalError Bytes)} (names : List CString)
    (hnames : fields.map Prod.fst = names)
    (hn : (names.all fun k => validUtf8 k.bytes) = true ∧ names.Nodup) :
    (∃ b, encodeRecord fields = .ok b) ↔ ∀ f ∈ fields, ∃ b, f.2 = .ok b := by
  have hfields : ∀ {gs : List (CString × Except CanonicalError Bytes)},
      (gs.map Prod.fst).all (fun k => validUtf8 k.bytes) = true → (∀ f ∈ gs, ∃ b, f.2 = .ok b) →
        ∃ ps, encodeFields gs = .ok ps := by
    intro gs ht hg
    induction gs with
    | nil => exact ⟨[], rfl⟩
    | cons f gs ih =>
      obtain ⟨k, v⟩ := f
      obtain ⟨⟨b, hb⟩, hg⟩ := List.forall_mem_cons.mp hg
      rw [List.map_cons, List.all_cons, Bool.and_eq_true] at ht
      obtain ⟨ps, hps⟩ := ih ht.2 hg
      exact ⟨(keyForm k, b) :: ps, bind_eq_ok.mpr ⟨_, encodeStr_eq_ok.mpr ⟨ht.1, rfl⟩,
        bind_eq_ok.mpr ⟨b, hb, bind_eq_ok.mpr ⟨ps, hps, rfl⟩⟩⟩⟩
  unfold encodeRecord
  constructor
  · rintro ⟨b, h⟩
    obtain ⟨ps, hps, -⟩ := bind_eq_ok.mp h
    exact (encodeFields_eq_ok hps).1
  · intro h
    obtain ⟨ps, hps⟩ := hfields (hnames ▸ hn.1) h
    refine ⟨_, bind_eq_ok.mpr ⟨ps, hps, encodeMap_eq_ok.mpr ⟨?_, rfl⟩⟩⟩
    rw [(encodeFields_eq_ok hps).2, ← Function.comp_def keyForm Prod.fst, ← List.map_map, hnames]
    exact hn.2.map keyForm_injective

/-- A map of encoded values is encoded when its keys are text. -/
theorem encodeMapOfEncoded_ok {fields : List (Bytes × Bytes)} :
    (∃ b, encodeMapOfEncoded fields = .ok b) ↔ ∀ f ∈ fields, validUtf8 f.1 = true := by
  have hkeys : (∃ ps, encodeKeys fields = .ok ps) ↔ ∀ f ∈ fields, validUtf8 f.1 = true := by
    induction fields with
    | nil => exact iff_of_true ⟨[], rfl⟩ (by simp)
    | cons f fields ih =>
      obtain ⟨k, v⟩ := f
      rw [List.forall_mem_cons, ← ih, encodeKeys]
      constructor
      · rintro ⟨ps, h⟩
        obtain ⟨kb, hk, h⟩ := bind_eq_ok.mp h
        obtain ⟨rest, hrest, -⟩ := bind_eq_ok.mp h
        exact ⟨(encodeStr_eq_ok.mp hk).1, rest, hrest⟩
      · rintro ⟨hk, rest, hrest⟩
        exact ⟨_, bind_eq_ok.mpr ⟨_, encodeStr_eq_ok.mpr ⟨hk, rfl⟩, bind_eq_ok.mpr ⟨rest, hrest, rfl⟩⟩⟩
  rw [← hkeys, encodeMapOfEncoded]
  constructor
  · rintro ⟨b, h⟩
    obtain ⟨ps, hps, -⟩ := bind_eq_ok.mp h
    exact ⟨ps, hps⟩
  · rintro ⟨ps, hps⟩
    exact ⟨_, bind_eq_ok.mpr ⟨ps, hps, rfl⟩⟩

theorem hasText_get {n : Option Json} (h : HasText n) (k : CString) : HasText (get n k) := by
  cases n with
  | none => exact ⟨_, rfl⟩
  | some v =>
    rw [get_some]
    cases hv : v.get k with
    | none => exact ⟨_, rfl⟩
    | some u => exact hasForm_get h hv

/-- Text that can be encoded is encoded, and so is what stands for anything else. -/
theorem encodeStrOr_ok {n : Option Json} (h : HasText n) : ∃ b, encodeStrOr n = .ok b := by
  unfold encodeStrOr strOr
  rcases n with _ | v
  · exact ⟨_, rfl⟩
  · cases v with
    | str s => exact h
    | _ => exact ⟨_, rfl⟩

theorem encodeOr_ok {n : Option Json} {empty : Json} (he : HasForm empty) (h : HasText n) :
    ∃ b, encodeOr n empty = .ok b := by
  cases n with
  | none => exact he
  | some v => exact h

/-- An object has a form when its values have one and its names are as they should be. -/
theorem hasForm_named {members : List (CString × Json)}
    (h : ∀ m ∈ members, m.1.isEmpty = false → HasForm m.2) :
    HasForm (.obj members) ↔ MembersNamed (some (.obj members)) := by
  rw [hasForm_obj]
  constructor
  · rintro ⟨hm, hd⟩
    exact ⟨fun m hmem => (hm m hmem).1, hd, fun m hmem _ => (hm m hmem).2⟩
  · rintro ⟨htext, hd, hnameless⟩
    refine ⟨fun m hmem => ⟨htext m hmem, ?_⟩, hd⟩
    cases he : m.1.isEmpty with
    | true => exact hnameless m hmem he
    | false => exact h m hmem he

theorem membersNamed_of_isObject_false {n : Option Json} (h : ∀ v, n = some v → v.isObject = false) :
    MembersNamed n := by
  have hnone : childMembers n = [] := by
    cases n with
    | none => rfl
    | some v =>
      cases v with
      | obj ms => cases h _ rfl
      | _ => rfl
  constructor <;> rw [hnone] <;> simp

theorem validUtf8_strOr {n : Option Json} (h : HasText n) :
    validUtf8 (strOr n .empty).bytes = true := by
  obtain ⟨b, hb⟩ := encodeStrOr_ok h
  exact (encodeStr_eq_ok.mp hb).1

/-- An edge that can be encoded has a canonical form. -/
theorem canonEdge_ok {edge : Json} (h : HasForm edge) : ∃ b, canonEdge edge = .ok b := by
  have hget := fun k => hasText_get (n := some edge) h k
  unfold canonEdge
  rw [encodeRecord_ok [.ofLit "from", .ofLit "to", .ofLit "relation", .ofLit "weight", .ofLit "directed"]
    (by rfl) (by decide +kernel)]
  simp only [List.forall_mem_cons, List.not_mem_nil, false_implies, implies_true, and_true]
  have heither : ∀ {c : Bool} {k l : CString}, ∃ b, encodeStr (if c = true then
      (strOr (edge.get k) .empty).bytes else (strOr (edge.get l) .empty).bytes) = .ok b := by
    intro c k l
    refine ⟨_, encodeStr_eq_ok.mpr ⟨?_, rfl⟩⟩
    cases c
    · exact validUtf8_strOr (hget l)
    · exact validUtf8_strOr (hget k)
  refine ⟨heither, heither, encodeStrOr_ok (hget _), ?_, ⟨_, rfl⟩⟩
  have hone : ∃ b, encodeNumber Double.one = .ok b := ⟨[3, 2], by decide +kernel⟩
  split
  · rename_i d hw
    exact hasForm_get h hw
  · exact hone

/-- A rune that can be observed has a canonical form when its names are as they should
be. -/
theorem canonRune_ok {policy : SlicePolicy} {r : Json} (h : RuneEncodes r) {k : CString}
    (hid : runeId r = some k) (hk : k.isEmpty = false) :
    (∃ b, canonRune policy r = .ok b) ↔ RuneNamed r := by
  have hname : strOr (get (r.get Key.spirit) Key.id) .empty = k := by
    rw [strOr, show (get (r.get Key.spirit) Key.id).bind Json.string? = some k from hid]
    rfl
  have hfacets : ∃ b, encodeRecord (kFacets.map fun k =>
      (k, encodeStrOr (get (r.get Key.facets) k))) = .ok b := by
    rw [encodeRecord_ok kFacets (by rfl) (by decide +kernel)]
    intro f hf
    obtain ⟨k, hk, rfl⟩ := List.mem_map.mp hf
    exact encodeStrOr_ok (h.facets k hk)
  have htags : ∃ b, canonTags (r.get Key.tags) = .ok b := by
    obtain ⟨bs, hbs⟩ := encodeEach_ok.mpr fun t ht =>
      encodeStrOr_ok (n := some t) (h.tags t (mem_childValues_of_arrayItems ht))
    exact ⟨_, bind_eq_ok.mpr ⟨bs, hbs, rfl⟩⟩
  have hspirit : (∃ b, encodeRecord [(Key.id, encodeStr k.bytes),
      (Key.name, encodeStrOr (get (r.get Key.spirit) Key.name))] = .ok b) ↔
        validUtf8 k.bytes = true := by
    rw [encodeRecord_ok [Key.id, Key.name] (by rfl) (by decide +kernel)]
    simp only [List.forall_mem_cons, List.not_mem_nil, false_implies, implies_true, and_true]
    rw [and_iff_left (encodeStrOr_ok h.name)]
    exact ⟨fun h => h.elim fun _ hb => (encodeStr_eq_ok.mp hb).1, fun hv => ⟨_, encodeStr_eq_ok.mpr ⟨hv, rfl⟩⟩⟩
  have hcontent : (∃ b, encodeOr (r.get Key.content) (.obj []) = .ok b) ↔
      MembersNamed (r.get Key.content) := by
    have hc := h.content
    cases hn : r.get Key.content with
    | none => exact iff_of_true ⟨_, rfl⟩ (membersNamed_of_isObject_false (by simp))
    | some c =>
      have ho := h.object c hn
      cases c with
      | obj members =>
        rw [hn] at hc
        exact hasForm_named hc
      | _ => cases ho
  have hnamed : RuneNamed r ↔ validUtf8 k.bytes = true ∧ MembersNamed (r.get Key.content) := by
    constructor
    · exact fun hr => ⟨hr.id k hid, hr.content⟩
    · rintro ⟨hv, hc⟩
      refine ⟨fun j hj => ?_, hc⟩
      rw [hid] at hj
      cases hj
      exact hv
  rw [canonRune, hname, hk, if_neg (by simp), hnamed, ← hspirit, ← hcontent]
  have hglyph := encodeStrOr_ok h.glyph
  have hrelations := @encodeOr_ok _ (.arr []) ⟨_, rfl⟩ h.relations
  have hplacement := asText_ok.mpr h.placement
  cases policy.includeView with
  | true =>
    rw [if_pos rfl, encodeRecord_ok [Key.spirit, Key.glyph, Key.facets, Key.tags, Key.content,
      Key.relations, Key.placement] (by rfl) (by decide +kernel)]
    simp only [List.cons_append, List.nil_append, List.forall_mem_cons, List.not_mem_nil, false_implies,
      implies_true, and_true, hglyph, hfacets, htags, hrelations, hplacement, true_and]
  | false =>
    rw [if_neg (by simp), List.append_nil, encodeRecord_ok [Key.spirit, Key.glyph, Key.facets, Key.tags,
      Key.content, Key.relations] (by rfl) (by decide +kernel)]
    simp only [List.forall_mem_cons, List.not_mem_nil, false_implies, implies_true, and_true, hglyph,
      hfacets, htags, hrelations, true_and]

/-- So has a mantle. -/
theorem canonMantle_ok {policy : SlicePolicy} {m : Json} (h : MantleEncodes m) {k : CString}
    (hid : mantleName m = some k) (hk : k.isEmpty = false) :
    (∃ b, canonMantle policy m = .ok b) ↔ MantleNamed m := by
  have hname : strOr (m.get Key.name) .empty = k := by
    rw [strOr, show (m.get Key.name).bind Json.string? = some k from hid]
    rfl
  have hrunes : (∃ bs, encodeEach (canonRune policy) (arrayItems (m.get Key.runes)) = .ok bs) ↔
      ∀ r ∈ arrayItems (m.get Key.runes), RuneNamed r := by
    rw [encodeEach_ok]
    refine forall₂_congr fun r hr => ?_
    have hr' := mem_childValues_of_arrayItems hr
    obtain ⟨j, hj, hne⟩ := h.apart.1 r hr'
    exact canonRune_ok (h.runes r hr') hj hne
  obtain ⟨edges, hedges⟩ := encodeEach_ok.mpr fun e he =>
    canonEdge_ok (h.edges e (mem_childValues_of_arrayItems he))
  have htags : (∃ b, encodeOr (m.get Key.tags) (.obj []) = .ok b) ↔ MembersNamed (m.get Key.tags) := by
    have ht := h.tags
    cases hn : m.get Key.tags with
    | none => exact iff_of_true ⟨_, rfl⟩ (membersNamed_of_isObject_false (by simp))
    | some t =>
      have ho := h.object t hn
      cases t with
      | obj members =>
        rw [hn] at ht
        exact hasForm_named ht
      | null =>
        refine iff_of_true ⟨_, rfl⟩ (membersNamed_of_isObject_false fun v hv => ?_)
        cases hv
        rfl
      | _ => exact absurd ho (by simp [Json.isObject, Json.isNull])
  have hnamed : MantleNamed m ↔ (∀ r ∈ arrayItems (m.get Key.runes), RuneNamed r) ∧
      validUtf8 k.bytes = true ∧ MembersNamed (m.get Key.tags) := by
    constructor
    · exact fun hm => ⟨hm.runes, hm.name k hid, hm.tags⟩
    · rintro ⟨hr, hv, ht⟩
      refine ⟨fun j hj => ?_, ht, hr⟩
      rw [hid] at hj
      cases hj
      exact hv
  have hrecord : ∀ runes, (∃ b, encodeRecord [(Key.id, encodeStrOr (m.get Key.id)),
      (Key.name, encodeStr k.bytes), (Key.domain, asText (m.get Key.domain)),
      (Key.runes, .ok (encodeSet runes)), (Key.tags, encodeOr (m.get Key.tags) (.obj [])),
      (Key.edges, .ok (encodeSet edges)), (Key.rules, encodeOr (m.get Key.rules) (.arr []))] = .ok b) ↔
        validUtf8 k.bytes = true ∧ MembersNamed (m.get Key.tags) := by
    intro runes
    rw [encodeRecord_ok [Key.id, Key.name, Key.domain, Key.runes, Key.tags, Key.edges, Key.rules] (by rfl)
      (by decide +kernel), ← htags]
    simp only [List.forall_mem_cons, List.not_mem_nil, false_implies, implies_true, and_true,
      encodeStrOr_ok h.id, asText_ok.mpr h.domain, @encodeOr_ok _ (.arr []) ⟨_, rfl⟩ h.rules,
      true_and, Except.ok.injEq, exists_eq']
    refine and_congr_left fun _ => ?_
    exact ⟨fun h => h.elim fun _ hb => (encodeStr_eq_ok.mp hb).1, fun hv => ⟨_, encodeStr_eq_ok.mpr ⟨hv, rfl⟩⟩⟩
  rw [canonMantle, hname, hk, if_neg (by simp), hnamed, ← hrunes]
  constructor
  · rintro ⟨b, hb⟩
    obtain ⟨runes, hr, hb⟩ := bind_eq_ok.mp hb
    obtain ⟨edges', he, hb⟩ := bind_eq_ok.mp hb
    rw [hedges] at he
    cases he
    exact ⟨⟨runes, hr⟩, (hrecord runes).mp ⟨b, hb⟩⟩
  · rintro ⟨⟨runes, hr⟩, hn⟩
    obtain ⟨b, hb⟩ := (hrecord runes).mpr hn
    exact ⟨b, bind_eq_ok.mpr ⟨runes, hr, bind_eq_ok.mpr ⟨edges, hedges, hb⟩⟩⟩

theorem declarations_ok {members : List (CString × Json)}
    (h : ∀ g ∈ members, ∃ b, canonGlyphDescriptor g.2 = .ok b) :
    ∃ ds, declarations members = .ok ds ∧ ds.map Prod.fst = members.map fun g => g.1.bytes := by
  induction members with
  | nil => exact ⟨[], rfl, rfl⟩
  | cons g members ih =>
    obtain ⟨k, g⟩ := g
    obtain ⟨⟨b, hb⟩, hg⟩ := List.forall_mem_cons.mp h
    obtain ⟨ds, hds, hkeys⟩ := ih hg
    refine ⟨(k.bytes, b) :: ds, bind_eq_ok.mpr ⟨b, hb, bind_eq_ok.mpr ⟨ds, hds, rfl⟩⟩, ?_⟩
    rw [List.map_cons, List.map_cons, hkeys]

/-- A state that can be observed has a canonical form when its names are as they should
be. -/
theorem canonSlice_ok {policy : SlicePolicy} {state : Json} (h : StateEncodes state) :
    (∃ b, canonSlice state policy = .ok b) ↔ StateNamed state := by
  have hitems : ∀ m ∈ arrayItems (state.get Key.mantles), m ∈ childValues (state.get Key.mantles) :=
    fun m hm => mem_childValues_of_arrayItems hm
  have hmantles : (∃ bs, encodeEach (canonMantle policy) (arrayItems (state.get Key.mantles)) = .ok bs) ↔
      ∀ m ∈ arrayItems (state.get Key.mantles), MantleNamed m := by
    rw [encodeEach_ok]
    refine forall₂_congr fun m hm => ?_
    obtain ⟨j, hj, hne⟩ := h.apart.1 m (hitems m hm)
    exact canonMantle_ok (h.mantles m (hitems m hm)) hj hne
  have hapart : Sorting.adjacentEqual id (Sorting.sortOn id ((arrayItems (state.get Key.mantles)).map
      fun m => (strOr (m.get Key.name) .empty).bytes)) = false := by
    rw [Sorting.adjacentEqual_sortOn, List.map_id]
    have hall : childValues (state.get Key.mantles) = arrayItems (state.get Key.mantles) := by
      cases hn : state.get Key.mantles with
      | none => rfl
      | some n =>
        have ha := h.list n hn
        cases n with
        | arr items => simp [childValues, arrayItems, Json.child]
        | _ => cases ha
    have hnames := h.apart.2
    rw [hall] at hnames
    refine List.Nodup.of_map (fun b => some (CString.ofBytes b)) ?_
    rw [List.map_map]
    convert hnames using 1
    refine List.map_congr_left fun m hm => ?_
    obtain ⟨k, hk, -⟩ := h.apart.1 m (hitems m hm)
    rw [hk, Function.comp_apply, strOr, show (m.get Key.name).bind Json.string? = some k from hk]
    exact congrArg some (CString.ofBytes_bytes k)
  have hglyphs : (∃ b, canonGlyphs state = .ok b) ↔
      ∀ g ∈ childMembers (state.get Key.glyphs), validUtf8 g.1.bytes = true := by
    have hnone : ∃ b, encodeMapOfEncoded [] = .ok b := encodeMapOfEncoded_ok.mpr (by simp)
    have hdeclared := h.declared
    have hencoded := fun g hg => (h.glyphs g hg).2
    unfold canonGlyphs
    cases hn : state.get Key.glyphs with
    | none => exact iff_of_true hnone (by simp [childMembers])
    | some n =>
      rw [hn] at hencoded
      cases n with
      | null => exact iff_of_true hnone (by simp [childMembers, Json.members])
      | obj members =>
        change ∀ g ∈ members, ∃ b, canonGlyphDescriptor g.2 = .ok b at hencoded
        obtain ⟨ds, hds, hkeys⟩ := declarations_ok hencoded
        have htext : (∀ f ∈ ds, validUtf8 f.1 = true) ↔ ∀ g ∈ members, validUtf8 g.1.bytes = true := by
          rw [← List.forall_mem_map (f := Prod.fst) (P := fun k => validUtf8 k = true), hkeys,
            List.forall_mem_map]
        dsimp only
        rw [hds]
        exact encodeMapOfEncoded_ok.trans htext
      | _ => exact absurd (hdeclared _ hn) (by simp [Json.isObject, Json.isNull])
  have hnamed : StateNamed state ↔ (∀ m ∈ arrayItems (state.get Key.mantles), MantleNamed m) ∧
      ∀ g ∈ childMembers (state.get Key.glyphs), validUtf8 g.1.bytes = true :=
    ⟨fun hs => ⟨hs.mantles, hs.glyphs⟩, fun hs => ⟨hs.1, hs.2⟩⟩
  rw [hnamed, ← hmantles, ← hglyphs, canonSlice]
  dsimp only
  rw [hapart]
  constructor
  · rintro ⟨b, hb⟩
    obtain ⟨bs, hbs, hb⟩ := bind_eq_ok.mp hb
    obtain ⟨g, hg, -⟩ := bind_eq_ok.mp hb
    exact ⟨⟨bs, hbs⟩, g, hg⟩
  · rintro ⟨⟨bs, hbs⟩, g, hg⟩
    obtain ⟨b, hb⟩ := encodeMapOfEncoded_ok.mpr (show ∀ f ∈ [(lit "mantles", encodeSet bs), (lit "glyphs", g)],
      validUtf8 f.1 = true by simp only [List.forall_mem_cons]; decide +kernel)
    exact ⟨b, bind_eq_ok.mpr ⟨bs, hbs, bind_eq_ok.mpr ⟨g, hg, hb⟩⟩⟩

/-! ### Strictness -/

theorem canonSlice_error {policy : SlicePolicy} {state : Json} (h : StateEncodes state) :
    (∃ c, canonSlice state policy = .error c) ↔ ¬StateNamed state := by
  rw [← @canonSlice_ok policy state h]
  cases canonSlice state policy <;> simp

/-- An observation succeeds when what it encodes can be encoded, whatever the replica
holds. -/
theorem Replica.observe_ok_iff (r : Replica) (state : Json) :
    (∃ o, (r.observe (some state)).1 = .ok o) ↔ StateEncodes state := by
  rw [← (decides_observeInto (a := r.author) state).iff r.editor, Replica.observe]
  rcases observeInto r.author (some state) r.editor with ⟨_ | _, e⟩ <;> simp

/-- The counter never goes back. -/
theorem Replica.observe_issued (r : Replica) (state : Option Json) :
    r.issued ≤ (r.observe state).2.issued := by
  have h : r.issued ≤ (observeInto r.author state r.editor).2.issued := by
    cases state with
    | none => exact le_rfl
    | some s => exact (decides_observeInto (a := r.author) s).forward r.editor
  unfold Replica.observe
  rcases hr : observeInto r.author state r.editor with ⟨_ | _, e⟩
  all_goals
    rw [hr] at h
    exact h

/-- An observation that fails leaves everything but the counter, and the counter never
goes back. A state without a canonical form is refused with the document and the revision
as they were, unless everything the observation encodes of it can be encoded and only a
name is not text or is given twice. -/
theorem observe_strict_iff (r : Replica) (state : Json) (policy : SlicePolicy) :
    (((∃ c, canonSlice state policy = .error c) →
      (∃ c, (r.observe (some state)).1 = .error c) ∧
        canonBytes (r.observe (some state)).2.doc = canonBytes r.doc ∧
        (r.observe (some state)).2.revision = r.revision) ↔
      (StateEncodes state → StateNamed state)) ∧
    ∀ s : Option Json, r.issued ≤ (r.observe s).2.issued ∧
      ((∃ c, (r.observe s).1 = .error c) →
        (r.observe s).2 = { r with issued := (r.observe s).2.issued }) := by
  have herror : ∀ s, (∃ c, (r.observe s).1 = .error c) →
      (r.observe s).2 = { r with issued := (r.observe s).2.issued } := by
    rintro s ⟨c, hc⟩
    have h := (Replica.observe_error hc).2
    rw [h]
  refine ⟨?_, fun s => ⟨r.observe_issued s, herror s⟩⟩
  have hrefused : (∃ c, (r.observe (some state)).1 = .error c) ↔ ¬StateEncodes state := by
    rw [← r.observe_ok_iff state]
    cases (r.observe (some state)).1 <;> simp
  constructor
  · intro hstrict he
    by_contra hn
    exact hrefused.mp (hstrict ((canonSlice_error he).mpr hn)).1 he
  · intro hcond hthrows
    have hfails := hrefused.mpr fun he => (canonSlice_error he).mp hthrows (hcond he)
    rw [herror _ hfails]
    exact ⟨hfails, rfl, rfl⟩

/-- A mantle whose name is not text. -/
def unnamable : Json := .obj [(Key.mantles, .arr [.obj [(Key.name, .str (.ofBytes [0xFF]))]])]

/-- It is observed all the same. -/
theorem unnamable_observed : (∃ c, canonSlice unnamable {} = .error c) ∧
    ¬∃ c, ((newReplica idA).observe (some unnamable)).1 = .error c := by
  have hthrows : (canonSlice unnamable {}).toOption = none := by decide +kernel
  have hok : ((newReplica idA).observe (some unnamable)).1.toOption.isSome = true := by decide +kernel
  constructor
  · cases h : canonSlice unnamable {} with
    | error c => exact ⟨c, rfl⟩
    | ok b =>
      rw [h] at hthrows
      cases hthrows
  · rintro ⟨c, hc⟩
    rw [hc] at hok
    cases hok

end VoidPalabra
