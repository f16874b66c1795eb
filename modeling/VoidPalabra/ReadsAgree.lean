import VoidPalabra.JoinLaws
import VoidPalabra.SameRules
import VoidPalabra.Shown

/-!
# Reads are functions of the canonical document

Two documents that the door accepts and that have one canonical form say the same.
What they show has one canonical form, and what they report is the same list.
-/

namespace VoidPalabra

/-! ### Canonical values -/

/-- Every live value of the set at a path is canonical. -/
def CanonicalAt (root : Json) (p : Path) : Prop := ∀ v ∈ (setAt root p).values, isCanonical v = true

/-- The values of an accepted document are what their paths allow. -/
theorem ValuesAccepted.setAt {root : Json} (hv : ValuesAccepted root) (h : Shaped root) {p : Path}
    {rule : ValueRule} (hk : kindOf p = some (.set rule)) : rule.Accepts (setAt root p) := by
  cases hn : nodeAt root p with
  | none =>
    rw [setAt_eq_empty hn]
    cases rule <;> simp [ValueRule.Accepts]
  | some n =>
    rw [← h.orsetFromJson_set ⟨rule, hk⟩, hn]
    exact hv p rule n hk hn

/-- Outside of presences the values of an accepted document are canonical. -/
theorem ValuesAccepted.canonicalAt {root : Json} (hv : ValuesAccepted root) (h : Shaped root) {p : Path}
    (hp : kindOf p ≠ some (.set .any)) : CanonicalAt root p := by
  intro v hmem
  obtain ⟨t, ht⟩ := OrSet.mem_values.mp hmem
  by_cases hset : IsSetPath p
  · obtain ⟨rule, hk⟩ := hset
    have ha := hv.setAt h hk
    cases rule with
    | any => exact absurd hk hp
    | canonical => exact ha t v ht.1
    | declaration => exact (ha t v ht.1).1
  · rw [setAt_of_kind h hset] at ht
    simp [OrSet.IsLive] at ht

theorem AtKind.rune_field_ne_any {base : Path} (hb : AtKind base runeKind) (f : CString) :
    kindOf (base ++ [Key.fields, f]) ≠ some (.set .any) := by
  rw [hb]
  have h1 : Key.fields ≠ Key.present := by decide
  simp only [runeKind, h1, if_false, if_true, fieldsKind, setKind]
  split <;> simp

theorem AtKind.mantle_field_ne_any {base : Path} (hb : AtKind base mantleKind) (f : CString) :
    kindOf (base ++ [Key.fields, f]) ≠ some (.set .any) := by
  rw [hb]
  have h1 : Key.fields ≠ Key.present := by decide
  simp only [mantleKind, h1, if_false, if_true, fieldsKind, setKind]
  split <;> simp

/-- A value that is shown is read, and has the form that was read. -/
theorem hasForm_of_canonical {v : Bytes} {j : Json} (h : isCanonical v = true) (hd : decode v = some j) :
    HasForm j := by
  obtain ⟨j', hj, he⟩ := isCanonical_iff.mp h
  rw [hj] at hd
  cases hd
  exact ⟨v, he⟩

/-- A thing all of whose values are canonical. -/
structure Thing.Canonical (t : Thing) : Prop where
  /-- The values of its registers. -/
  register : ∀ f, ∀ v ∈ (t.register f).values, isCanonical v = true
  /-- The elements of its set. -/
  elements : ∀ v ∈ t.elements.values, isCanonical v = true

theorem thingAt_canonical {root : Json} (policy : JoinPolicy) {base : Path} {k : CString}
    (hf : ∀ f, CanonicalAt root (base ++ [Key.fields, f])) (he : CanonicalAt root (base ++ [k])) :
    (thingAt root policy base k).Canonical where
  register := fun f v hv => hf f v (OrSet.mem_values_of_resolve hv)
  elements := he

theorem rune_canonical {root : Json} (h : Shaped root) (hv : ValuesAccepted root) (policy : JoinPolicy)
    {base : Path} (hb : AtKind base runeKind) : (thingAt root policy base Key.tags).Canonical := by
  have hk : kindOf (base ++ [Key.tags]) = some (.set .canonical) := (hb _).trans (by decide)
  refine thingAt_canonical policy (fun f => hv.canonicalAt h (hb.rune_field_ne_any f))
    (hv.canonicalAt h ?_)
  rw [hk]
  decide

theorem mantle_canonical {root : Json} (h : Shaped root) (hv : ValuesAccepted root) (policy : JoinPolicy)
    {base : Path} (hb : AtKind base mantleKind) : (thingAt root policy base Key.edges).Canonical := by
  have hk : kindOf (base ++ [Key.edges]) = some (.set .canonical) := (hb _).trans (by decide)
  refine thingAt_canonical policy (fun f => hv.canonicalAt h (hb.mantle_field_ne_any f))
    (hv.canonicalAt h ?_)
  rw [hk]
  decide

/-! ### Forms of what is shown -/

theorem validUtf8_append {a b : Bytes} (ha : ∀ c ∈ a, c < 0x80) : validUtf8 (a ++ b) = validUtf8 b := by
  induction a with
  | nil => rfl
  | cons c a ih =>
    rw [List.cons_append, validUtf8_cons (ha c List.mem_cons_self)]
    exact ih fun d hd => ha d (List.mem_cons_of_mem _ hd)

namespace Thing

variable {t : Thing}

theorem mem_keyed {pre : CString} {m : CString × Json} :
    m ∈ t.keyed pre ↔ ∃ f ∈ t.fields, f = pre ++ m.1 ∧
      ∃ v vs, (t.register f).values = v :: vs ∧ decode v = some m.2 := by
  unfold keyed
  rw [List.mem_flatMap]
  refine exists_congr fun f => and_congr_right fun _ => ?_
  cases hf : f.startsWith pre with
  | false =>
    simp only [Bool.not_false, if_true, List.not_mem_nil, false_iff, not_and]
    rintro rfl
    rw [CString.startsWith_append] at hf
    cases hf
  | true =>
    have hpre := CString.eq_append_of_startsWith hf
    simp only [Bool.not_true, Bool.false_eq_true, if_false]
    cases hv : (t.register f).values with
    | nil => simp
    | cons v vs =>
      dsimp only
      cases hd : decode v with
      | none => simp [member, hd]
      | some j =>
        rw [show member (f.drop pre.bytes.length) (some j) = [(f.drop pre.bytes.length, j)] from rfl,
          List.mem_singleton]
        constructor
        · rintro rfl
          exact ⟨hpre, v, vs, rfl, hd⟩
        · rintro ⟨he, w, ws, hw, hdw⟩
          cases hw
          rw [hd] at hdw
          cases hdw
          have hk : f.drop pre.bytes.length = m.1 := by rw [he, CString.append_drop]
          rw [hk]

/-- The keys of a canonical thing have a form, when their names are text. -/
theorem Canonical.hasForm_keyed (h : t.Canonical) (hd : t.fields.Nodup) {pre : CString}
    (hpre : ∀ c ∈ pre.bytes, c < 0x80) (hu : ∀ f ∈ t.fields, validUtf8 f.bytes = true) :
    HasForm (.obj (t.keyed pre)) := by
  refine hasForm_obj.mpr ⟨fun m hm => ?_, t.keyed_nodup hd pre⟩
  obtain ⟨f, hf, hfm, v, vs, hv, hdec⟩ := mem_keyed.mp hm
  constructor
  · have := hu f hf
    rwa [hfm, show (pre ++ m.1).bytes = pre.bytes ++ m.1.bytes from rfl, validUtf8_append hpre] at this
  · exact hasForm_of_canonical (h.register f v (by rw [hv]; exact List.mem_cons_self)) hdec

end Thing

/-- The order of the members does not matter to an encoding that succeeds. -/
theorem encode_obj_eq_of_perm {ms ns : List (CString × Json)} (h : ms.Perm ns) (hf : HasForm (.obj ms)) :
    encode (.obj ms) = encode (.obj ns) := by
  obtain ⟨hm, hd⟩ := hasForm_obj.mp hf
  have hf' : HasForm (.obj ns) :=
    hasForm_obj.mpr ⟨fun m hmem => hm m (h.mem_iff.mpr hmem), (h.map _).nodup_iff.mp hd⟩
  rw [encode_of_hasForm hf, encode_of_hasForm hf', form_obj hf, form_obj hf', sortMembers_eq_of_perm hd h]

/-! ### The canonical form of what is shown -/

theorem encodeEach_map_congr {α : Type} {enc : Json → Except CanonicalError Bytes} {f g : α → Json}
    {xs : List α} (h : ∀ x ∈ xs, enc (f x) = enc (g x)) :
    encodeEach enc (xs.map f) = encodeEach enc (xs.map g) := by
  induction xs with
  | nil => rfl
  | cons x xs ih =>
    rw [List.map_cons, List.map_cons, encodeEach, encodeEach, h x List.mem_cons_self,
      ih fun y hy => h y (List.mem_cons_of_mem _ hy)]

/-- Two things that show the same, up to the order of their keys. -/
structure Thing.Same (t t' : Thing) (pre : CString) : Prop where
  /-- The registers. -/
  register : ∀ f, t.register f = t'.register f
  /-- The elements. -/
  elements : t.elements = t'.elements
  /-- The keys. -/
  keyed : encode (.obj (t.keyed pre)) = encode (.obj (t'.keyed pre))

/-- Two runes that show the same have one canonical form. -/
theorem Thing.Same.canonRune_eq {t t' : Thing} (h : t.Same t' Key.contentDot) (slice : SlicePolicy)
    (id : CString) : canonRune slice (t.rune id) = canonRune slice (t'.rune id) := by
  have hfacets : (t.rune id).get Key.facets = (t'.rune id).get Key.facets := by
    rw [Thing.rune_facets, Thing.rune_facets]
    simp only [h.register]
  have hlist : t.list Key.relations = t'.list Key.relations := by
    rw [Thing.list, Thing.list, h.register]
  unfold canonRune
  rw [hfacets]
  simp only [Thing.rune_spirit, Thing.rune_glyph, Thing.rune_content, Thing.rune_tags,
    Thing.rune_placement, Thing.rune_relations, h.register, h.elements, hlist, encodeOr,
    Option.getD_some, h.keyed]

/-- So have two mantles, when their runes do. -/
theorem Thing.Same.canonMantle_eq {t t' : Thing} (h : t.Same t' Key.tagsDot) (slice : SlicePolicy)
    (name : CString) {runes runes' : List Json}
    (hr : encodeEach (canonRune slice) runes = encodeEach (canonRune slice) runes') :
    canonMantle slice (t.mantle name runes) = canonMantle slice (t'.mantle name runes') := by
  have hlist : t.list Key.rules = t'.list Key.rules := by
    rw [Thing.list, Thing.list, h.register]
  unfold canonMantle
  simp only [Thing.mantle_id, Thing.mantle_name, Thing.mantle_domain, Thing.mantle_runes,
    Thing.mantle_tags, Thing.mantle_edges, Thing.mantle_rules, h.register, h.elements, hlist, encodeOr,
    Option.getD_some, h.keyed, arrayItems, hr]

namespace SameDoc

variable {A B : Json} (h : SameDoc A B) (hv : ValuesAccepted A) (ht : IsTextDoc A) {policy : JoinPolicy}

include h ht

/-- The things of two documents that say the same show the same. -/
theorem thing_same {base : Path} {k pre : CString} (hc : (thingAt A policy base k).Canonical)
    (hk : kindOf (base ++ [Key.fields]) = some .map) (hpre : ∀ c ∈ pre.bytes, c < 0x80) :
    (thingAt A policy base k).Same (thingAt B policy base k) pre where
  register := h.register_eq policy base k
  elements := h.elements_eq policy base k
  keyed := by
    refine encode_obj_eq_of_perm (h.keyed_perm policy hk k pre)
      (hc.hasForm_keyed (h.left.namesAt_nodup hk) hpre fun f hf => ?_)
    have hn := (h.left.mem_namesAt hk).mp hf
    exact (ht _ hn).1 f (by simp)

include hv

/-- A mantle that both show has one canonical form. -/
theorem canonMantle_eq (slice : SlicePolicy) {name : CString} (hname : name.isEmpty = false) :
    canonMantle slice (shownMantle A policy name) = canonMantle slice (shownMantle B policy name) := by
  have hb := atKind_mantle hname
  have hmap : kindOf [Key.mantles, name, Key.runes] = some .map := hb [Key.runes]
  unfold shownMantle
  refine Thing.Same.canonMantle_eq
    (h.thing_same ht (mantle_canonical h.left hv policy hb) (hb [Key.fields]) (by decide +kernel))
    slice name ?_
  rw [h.shownNames_eq hmap]
  refine encodeEach_map_congr fun id hid => Thing.Same.canonRune_eq ?_ slice id
  have hid' := Sorting.mem_sortOn.mp (List.mem_of_mem_filter hid)
  rw [h.right.mem_namesAt hmap] at hid'
  obtain ⟨v, hv'⟩ := Option.isSome_iff_exists.mp hid'
  have hr := hb.rune (h.right.name_ne_empty hb.namedAt_runes (k := id) hv')
  exact h.thing_same ht (rune_canonical h.left hv policy hr) (hr [Key.fields]) (by decide +kernel)

/-- What the two documents show has one canonical form. -/
theorem canonSlice_eq (policy : JoinPolicy) (slice : SlicePolicy) :
    canonSlice (flatten A policy) slice = canonSlice (flatten B policy) slice := by
  have hm : kindOf [Key.mantles] = some .map := by decide
  have hg : kindOf [Key.glyphs] = some .map := by decide
  have hglyph : ∀ name, shownGlyph A name = shownGlyph B name := fun name => by
    rw [shownGlyph, shownGlyph, h.sets]
  have hgd : (flatten A policy).get Key.glyphs = (flatten B policy).get Key.glyphs := by
    rw [h.left.flatten_eq, h.right.flatten_eq, h.shownNames_eq hg]
    have hne : Key.mantles ≠ Key.glyphs := by decide
    rw [funext hglyph, Json.get_obj, Json.get_obj, Json.lookup_cons, Json.lookup_cons, if_neg hne,
      if_neg hne]
  have hnames : ∀ root : Json, ((shownNames B [Key.mantles]).map (shownMantle root policy)).map
      (fun m => (strOr (m.get Key.name) .empty).bytes) = (shownNames B [Key.mantles]).map CString.bytes := by
    intro root
    rw [List.map_map]
    refine List.map_congr_left fun name _ => ?_
    rw [Function.comp_apply, shownMantle, Thing.mantle_name]
    rfl
  have hmA : (flatten A policy).get Key.mantles =
      some (.arr ((shownNames B [Key.mantles]).map (shownMantle A policy))) := by
    rw [h.left.flatten_eq, h.shownNames_eq hm]
    rfl
  have hmB : (flatten B policy).get Key.mantles =
      some (.arr ((shownNames B [Key.mantles]).map (shownMantle B policy))) := by
    rw [h.right.flatten_eq]
    rfl
  have henc : encodeEach (canonMantle slice) ((shownNames B [Key.mantles]).map (shownMantle A policy)) =
      encodeEach (canonMantle slice) ((shownNames B [Key.mantles]).map (shownMantle B policy)) := by
    refine encodeEach_map_congr fun name hn => h.canonMantle_eq hv ht slice ?_
    have hn' := Sorting.mem_sortOn.mp (List.mem_of_mem_filter hn)
    rw [h.right.mem_namesAt hm] at hn'
    obtain ⟨v, hv'⟩ := Option.isSome_iff_exists.mp hn'
    exact h.right.name_ne_empty namedAt_mantles hv'
  unfold canonSlice canonGlyphs
  rw [hmA, hmB, hgd]
  simp only [arrayItems, henc, hnames]

end SameDoc

/-- Documents with one canonical form say the same. -/
theorem sameDoc_of_canonBytes {A B : Json} (ha : Shaped A) (hb : Shaped B) {x : Bytes}
    (hA : canonBytes A = some x) (hB : canonBytes B = some x) : SameDoc A B where
  left := ha
  right := hb
  sets := setAt_eq_of_canonBytes hA hB
  nodes := fun p => by
    obtain ⟨hfa, rfl⟩ := canonBytes_eq_some.mp hA
    obtain ⟨hfb, he⟩ := canonBytes_eq_some.mp hB
    have hc := cellsAlike_of_form_eq hfa hfb he p
    rw [hasNode_iff_cellAt, hasNode_iff_cellAt]
    cases hx : cellAt A p with
    | none =>
      cases hy : cellAt B p with
      | none => exact Iff.rfl
      | some y =>
        rw [hx, hy] at hc
        exact hc.elim
    | some c =>
      cases hy : cellAt B p with
      | none =>
        rw [hx, hy] at hc
        exact hc.elim
      | some y => exact iff_of_true rfl rfl

/-- Joins with documents that say the same say the same. -/
theorem SameDoc.join {A B C : Json} (h : SameDoc A B) (hc : Shaped C) :
    SameDoc (joinNode A C) (joinNode B C) ∧ SameDoc (joinNode C A) (joinNode C B) := by
  refine ⟨⟨h.left.join hc, h.right.join hc, fun p => ?_, fun p => ?_⟩,
    ⟨hc.join h.left, hc.join h.right, fun p => ?_, fun p => ?_⟩⟩
  · rw [setAt_joinNode h.left hc, setAt_joinNode h.right hc, h.sets]
  · rw [hasNode_joinNode h.left hc, hasNode_joinNode h.right hc, h.nodes]
  · rw [setAt_joinNode hc h.left, setAt_joinNode hc h.right, h.sets]
  · rw [hasNode_joinNode hc h.left, hasNode_joinNode hc h.right, h.nodes]

/-- Whatever is read off a document that the door accepts is a function of its
canonical form: the canonical form of what is shown, the conflicts and the broken
rules with their order, and the canonical form of every join. -/
theorem reads_eq_of_canonBytes {A B : Json} {x : Bytes} (hA : validate A = .ok ())
    (hB : validate B = .ok ()) (hxA : canonBytes A = some x) (hxB : canonBytes B = some x)
    (policy : JoinPolicy) :
    (∀ slice, canonSlice (flatten A policy) slice = canonSlice (flatten B policy) slice) ∧
      conflicts A policy = conflicts B policy ∧
      (conflicts A policy).map Conflict.hash = (conflicts B policy).map Conflict.hash ∧
      anomalies A policy = anomalies B policy ∧
      ∀ C, validate C = .ok () → canonBytes (joinNode A C) = canonBytes (joinNode B C) ∧
        canonBytes (joinNode C A) = canonBytes (joinNode C B) := by
  obtain ⟨ha, hva⟩ := validate_iff.mp hA
  obtain ⟨hb, -⟩ := validate_iff.mp hB
  have h := sameDoc_of_canonBytes ha hb hxA hxB
  have ht : IsTextDoc A := by
    rw [← ha.canonBytes_isSome, hxA]
    rfl
  have hc := h.conflicts_eq policy
  refine ⟨h.canonSlice_eq hva ht policy, hc, by rw [hc], h.anomalies_eq policy, fun C hC => ?_⟩
  have hj := h.join (validate_iff.mp hC).1
  exact ⟨hj.1.canonBytes_eq, hj.2.canonBytes_eq⟩

/-- The mantle of `presentMantle`, with the document's members the other way round and a
retirement noted twice. -/
def presentMantleReordered (retired : List String) : Json :=
  .obj [(Key.mantles, .obj [(.ofLit "m", .obj [(Key.present, .obj [
      (Key.r, .arr (retired.map fun t => .str (.ofBytes (lit t)))),
      (Key.a, .obj [(.ofLit "aaaaaaaaaaaaaaaa_1", .str (.ofLit "31"))])])])]),
    (Key.palabra, .num Double.one)]

/-- Two documents that keep their members in another order and note a retirement once
and twice. -/
theorem reads_eq_of_canonBytes_reordered :
    (∀ slice, canonSlice (flatten (presentMantleReordered ["b_1"]) {}) slice =
        canonSlice (flatten (presentMantleReordered ["b_1", "b_1"]) {}) slice) ∧
      conflicts (presentMantleReordered ["b_1"]) {} =
        conflicts (presentMantleReordered ["b_1", "b_1"]) {} ∧
      (conflicts (presentMantleReordered ["b_1"]) {}).map Conflict.hash =
        (conflicts (presentMantleReordered ["b_1", "b_1"]) {}).map Conflict.hash ∧
      anomalies (presentMantleReordered ["b_1"]) {} =
        anomalies (presentMantleReordered ["b_1", "b_1"]) {} ∧
      ∀ C, validate C = .ok () →
        canonBytes (joinNode (presentMantleReordered ["b_1"]) C) =
            canonBytes (joinNode (presentMantleReordered ["b_1", "b_1"]) C) ∧
          canonBytes (joinNode C (presentMantleReordered ["b_1"])) =
            canonBytes (joinNode C (presentMantleReordered ["b_1", "b_1"])) :=
  reads_eq_of_canonBytes (x := (canonBytes (presentMantleReordered ["b_1"])).getD [])
    (by decide +kernel) (by decide +kernel) (by decide +kernel) (by decide +kernel) {}

end VoidPalabra
