import VoidPalabra.Coded
import VoidPalabra.Recorded

/-!
# What a canonical form tells apart

Two states as the canonical form sees them: defaults filled in, sets as sets, an
undirected edge from either end and a declaration without its `source`. The relation
takes the reading of an edge's endpoint as a parameter, since the code's reading is not
the one that links are resolved by.
-/

namespace VoidPalabra

/-! ### Fields -/

theorem encodeStr_inj {a b x : Bytes} (h : encodeStr a = .ok x) : encodeStr a = encodeStr b ↔ a = b := by
  refine ⟨fun he => ?_, fun he => he ▸ rfl⟩
  obtain ⟨-, ha⟩ := encodeStr_eq_ok.mp h
  obtain ⟨-, hb⟩ := encodeStr_eq_ok.mp (he ▸ h)
  exact strBytes_injective (ha.symm.trans hb)

theorem encode_inj {v w : Json} (hv : HasForm v) (hw : HasForm w) :
    encode v = encode w ↔ SameValue v w := by
  rw [← norm_eq_iff hv hw, ← form_eq_iff hv hw, encode_of_hasForm hv, encode_of_hasForm hw,
    Except.ok.injEq]

/-- A text, or the empty text in its place. -/
def textOr (n : Option Json) : CString := strOr n .empty

theorem encodeStrOr_inj {n m : Option Json} {x : Bytes} (h : encodeStrOr n = .ok x) :
    encodeStrOr n = encodeStrOr m ↔ textOr n = textOr m := by
  rw [encodeStrOr, encodeStrOr, encodeStr_inj h]
  exact ⟨fun he => CString.ext he, fun he => congrArg CString.bytes he⟩

theorem encodeOr_inj {n m : Option Json} {d : Json} {x y : Bytes} (hn : encodeOr n d = .ok x)
    (hm : encodeOr m d = .ok y) : encodeOr n d = encodeOr m d ↔ SameValue (n.getD d) (m.getD d) :=
  encode_inj ⟨x, hn⟩ ⟨y, hm⟩

theorem coded_encodeStr {s b : Bytes} (h : encodeStr s = .ok b) : Coded Increasing b := by
  rw [(encodeStr_eq_ok.mp h).2]
  exact .str s

theorem coded_encode {v : Json} {b : Bytes} (h : encode v = .ok b) : Coded Increasing b := by
  have hc := coded_form ⟨b, h⟩
  rwa [form_of_encode h] at hc

/-- A record is read back field by field once its names and the values that its fields can
have are known. -/
theorem encodeRecord_fields {fields : List (CString × Except CanonicalError Bytes)} {b : Bytes}
    (h : encodeRecord fields = .ok b) : ∀ f ∈ fields, ∃ v, f.2 = .ok v := by
  obtain ⟨ps, hps, -⟩ := bind_eq_ok.mp h
  intro f hf
  have hmem := List.mem_map_of_mem (f := Prod.snd) hf
  rw [(encodeFields_values hps).1] at hmem
  obtain ⟨p, -, hp⟩ := List.mem_map.mp hmem
  exact ⟨p.2, hp.symm⟩

/-- The same, read as an equation between what the two records give. -/
theorem encodeRecord_eq_iff {fs gs : List (CString × Except CanonicalError Bytes)} {b c : Bytes}
    (hf : encodeRecord fs = .ok b) (hg : encodeRecord gs = .ok c) (hfc : FieldsCoded fs)
    (hgc : FieldsCoded gs) (hnames : fs.map Prod.fst = gs.map Prod.fst) :
    encodeRecord fs = encodeRecord gs ↔ fs.map Prod.snd = gs.map Prod.snd := by
  rw [← encodeRecord_inj hnames hf hg hfc hgc, hf, hg, Except.ok.injEq]

/-! ### Edges -/

/-- The weight of an edge; an edge without one weighs 1. -/
def edgeWeight (edge : Json) : Double :=
  match edge.get (.ofLit "weight") with
  | some (.num d) => d
  | _ => Double.one

/-- An edge is directed unless it says otherwise. -/
def edgeDirected (edge : Json) : Bool :=
  match edge.get (.ofLit "directed") with
  | none => true
  | some (.bool b) => b
  | some _ => false

/-- Where an edge starts and where it leads, as read by `read`. -/
def edgeEnds {ε : Type} (read : Option Json → ε) (edge : Json) : ε × ε :=
  (read (edge.get (.ofLit "from")), read (edge.get (.ofLit "to")))

/-- One edge, its endpoints read by `read`. -/
structure SameEdgeBy {ε : Type} (read : Option Json → ε) (e f : Json) : Prop where
  /-- What it says. -/
  relation : textOr (e.get (.ofLit "relation")) = textOr (f.get (.ofLit "relation"))
  /-- How much. -/
  weight : SameValue (.num (edgeWeight e)) (.num (edgeWeight f))
  /-- Whether it has a direction. -/
  directed : edgeDirected e = edgeDirected f
  /-- Its ends, of which an undirected edge has no first. -/
  ends : edgeEnds read e = edgeEnds read f ∨
    edgeDirected e = false ∧ edgeEnds read e = (edgeEnds read f).swap

/-- The two ends in the order that `canon_edge` writes them in. -/
def writtenEnds (edge : Json) : Bytes × Bytes :=
  let ends := edgeEnds textOr edge
  if !edgeDirected edge && compare ends.2.bytes ends.1.bytes == .lt then
    (ends.2.bytes, ends.1.bytes)
  else (ends.1.bytes, ends.2.bytes)

/-- The fields of an edge's record. -/
def edgeFields (edge : Json) : List (CString × Except CanonicalError Bytes) :=
  [(.ofLit "from", encodeStr (writtenEnds edge).1), (.ofLit "to", encodeStr (writtenEnds edge).2),
    (.ofLit "relation", encodeStrOr (edge.get (.ofLit "relation"))),
    (.ofLit "weight", encodeNumber (edgeWeight edge)),
    (.ofLit "directed", .ok [if edgeDirected edge then 0x02 else 0x01])]

theorem canonEdge_eq (edge : Json) : canonEdge edge = encodeRecord (edgeFields edge) := by
  have hw : writtenEnds edge = (if (!edgeDirected edge && compare (edgeEnds textOr edge).2.bytes
      (edgeEnds textOr edge).1.bytes == .lt) = true then (edgeEnds textOr edge).2.bytes
        else (edgeEnds textOr edge).1.bytes,
      if (!edgeDirected edge && compare (edgeEnds textOr edge).2.bytes
      (edgeEnds textOr edge).1.bytes == .lt) = true then (edgeEnds textOr edge).1.bytes
        else (edgeEnds textOr edge).2.bytes) := by
    unfold writtenEnds
    dsimp only
    split <;> rfl
  rw [edgeFields, hw]
  rfl

theorem fieldsCoded_edge (edge : Json) : FieldsCoded (edgeFields edge) := by
  simp only [FieldsCoded, edgeFields, List.forall_mem_cons, List.not_mem_nil, false_implies,
    implies_true, and_true]
  refine ⟨fun b hb => coded_encodeStr hb, fun b hb => coded_encodeStr hb,
    fun b hb => coded_encodeStr hb, fun b hb => coded_number hb, fun b hb => ?_⟩
  cases hb
  cases edgeDirected edge <;> exact .atom (by decide)

/-- The smaller end first, or both as they are. -/
theorem sorted_ends_eq {a b c d : Bytes} :
    (if compare b a = .lt then (b, a) else (a, b)) = (if compare d c = .lt then (d, c) else (c, d)) ↔
      (a = c ∧ b = d) ∨ (a = d ∧ b = c) := by
  have hanti : ∀ {x y : Bytes}, ¬ compare x y = .lt → ¬ compare y x = .lt → x = y := by
    intro x y h k
    have hs : compare y x = (compare x y).swap := Std.OrientedCmp.eq_swap
    cases hc : compare x y with
    | lt => exact absurd hc h
    | eq => exact Std.LawfulEqCmp.eq_of_compare hc
    | gt =>
      rw [hc] at hs
      exact absurd hs k
  have hasym : ∀ {x y : Bytes}, compare x y = .lt → ¬ compare y x = .lt := by
    intro x y h k
    have hs : compare y x = (compare x y).swap := Std.OrientedCmp.eq_swap
    rw [h, k] at hs
    cases hs
  constructor
  · intro h
    split at h <;> split at h <;> simp only [Prod.mk.injEq] at h
    · exact .inl ⟨h.2, h.1⟩
    · exact .inr ⟨h.2, h.1⟩
    · exact .inr ⟨h.1, h.2⟩
    · exact .inl h
  · rintro (⟨rfl, rfl⟩ | ⟨rfl, rfl⟩)
    · rfl
    · by_cases hb : compare b a = .lt
      · rw [if_pos hb, if_neg (hasym hb)]
      · by_cases ha : compare a b = .lt
        · rw [if_neg hb, if_pos ha]
        · rw [if_neg hb, if_neg ha, hanti ha hb]

/-- Edges that can be encoded have one encoding when they are one edge, each endpoint read
as a text. -/
theorem canonEdge_inj {e f : Json} {b c : Bytes} (he : canonEdge e = .ok b)
    (hf : canonEdge f = .ok c) : canonEdge e = canonEdge f ↔ SameEdgeBy textOr e f := by
  have hebc : canonEdge e = canonEdge f ↔ b = c := by rw [he, hf, Except.ok.injEq]
  rw [canonEdge_eq] at he hf
  have hev := encodeRecord_fields he
  have hfv := encodeRecord_fields hf
  have hnames : (edgeFields e).map Prod.fst = (edgeFields f).map Prod.fst := rfl
  rw [hebc, encodeRecord_inj hnames he hf (fieldsCoded_edge e) (fieldsCoded_edge f)]
  simp only [edgeFields, List.forall_mem_cons, List.not_mem_nil, false_implies, implies_true,
    and_true] at hev hfv
  obtain ⟨⟨_, h1⟩, ⟨_, h2⟩, ⟨_, h3⟩, ⟨_, h4⟩, -⟩ := hev
  obtain ⟨-, -, -, ⟨_, h4'⟩, -⟩ := hfv
  simp only [edgeFields, List.map_cons, List.map_nil, List.cons.injEq, and_true]
  have hweight : encodeNumber (edgeWeight e) = encodeNumber (edgeWeight f) ↔
      SameValue (.num (edgeWeight e)) (.num (edgeWeight f)) :=
    encode_inj (v := .num (edgeWeight e)) (w := .num (edgeWeight f)) ⟨_, h4⟩ ⟨_, h4'⟩
  have hdirected : ((.ok [if edgeDirected e then 0x02 else 0x01] : Except CanonicalError Bytes) =
      .ok [if edgeDirected f then 0x02 else 0x01]) ↔ edgeDirected e = edgeDirected f := by
    cases edgeDirected e <;> cases edgeDirected f <;> simp
  rw [encodeStr_inj h1, encodeStr_inj h2, encodeStrOr_inj h3, hweight, hdirected]
  have hends : ∀ {g h : Json}, edgeDirected g = edgeDirected h →
      ((writtenEnds g).1 = (writtenEnds h).1 ∧ (writtenEnds g).2 = (writtenEnds h).2 ↔
        edgeEnds textOr g = edgeEnds textOr h ∨
          edgeDirected g = false ∧ edgeEnds textOr g = (edgeEnds textOr h).swap) := by
    intro g h hd
    rw [← Prod.ext_iff]
    unfold writtenEnds
    rw [← hd]
    cases edgeDirected g with
    | true =>
      simp only [Bool.not_true, Bool.false_and, Bool.false_eq_true, if_false, Prod.ext_iff,
        CString.ext_iff]
      simp
    | false =>
      simp only [Bool.not_false, Bool.true_and, beq_iff_eq, true_and]
      rw [sorted_ends_eq]
      simp only [Prod.ext_iff, CString.ext_iff, Prod.fst_swap, Prod.snd_swap]
  constructor
  · rintro ⟨hs, ht, hr, hw, hd⟩
    exact ⟨hr, hw, hd, (hends hd).mp ⟨hs, ht⟩⟩
  · rintro ⟨hr, hw, hd, hends'⟩
    obtain ⟨hs, ht⟩ := (hends hd).mpr hends'
    exact ⟨hs, ht, hr, hw, hd⟩

/-! ### Runes -/

/-- One rune. -/
structure SameRune (policy : SlicePolicy) (r s : Json) : Prop where
  /-- Its identity. -/
  id : textOr (get (r.get Key.spirit) Key.id) = textOr (get (s.get Key.spirit) Key.id)
  /-- Its name. -/
  name : textOr (get (r.get Key.spirit) Key.name) = textOr (get (s.get Key.spirit) Key.name)
  /-- Its glyph. -/
  glyph : textOr (r.get Key.glyph) = textOr (s.get Key.glyph)
  /-- Its six facets. -/
  facets : ∀ k ∈ kFacets, textOr (get (r.get Key.facets) k) = textOr (get (s.get Key.facets) k)
  /-- Its tags, as a set. -/
  tags : Setwise (fun t u => textOr (some t) = textOr (some u)) (arrayItems (r.get Key.tags))
    (arrayItems (s.get Key.tags))
  /-- Its content. -/
  content : SameValue ((r.get Key.content).getD (.obj [])) ((s.get Key.content).getD (.obj []))
  /-- Its relations. -/
  relations : SameValue ((r.get Key.relations).getD (.arr [])) ((s.get Key.relations).getD (.arr []))
  /-- Its place, where the policy counts it. -/
  placement : policy.includeView = true →
    SameValue ((r.get Key.placement).getD .null) ((s.get Key.placement).getD .null)

/-- The fields of a rune's record. -/
def runeFields (policy : SlicePolicy) (rune : Json) : List (CString × Except CanonicalError Bytes) :=
  [(Key.spirit, encodeRecord [(Key.id, encodeStr (textOr (get (rune.get Key.spirit) Key.id)).bytes),
      (Key.name, encodeStrOr (get (rune.get Key.spirit) Key.name))]),
    (Key.glyph, encodeStrOr (rune.get Key.glyph)),
    (Key.facets, encodeRecord (kFacets.map fun k =>
      (k, encodeStrOr (get (rune.get Key.facets) k)))),
    (Key.tags, canonTags (rune.get Key.tags)),
    (Key.content, encodeOr (rune.get Key.content) (.obj [])),
    (Key.relations, encodeOr (rune.get Key.relations) (.arr []))] ++
    if policy.includeView then [(Key.placement, asText (rune.get Key.placement))] else []

/-- A rune that is accepted has an identity. -/
theorem canonRune_eq_ok {policy : SlicePolicy} {rune : Json} {b : Bytes} :
    canonRune policy rune = .ok b ↔
      (textOr (get (rune.get Key.spirit) Key.id)).isEmpty = false ∧
        encodeRecord (runeFields policy rune) = .ok b := by
  rw [canonRune, show strOr (get (rune.get Key.spirit) Key.id) .empty =
    textOr (get (rune.get Key.spirit) Key.id) from rfl]
  cases (textOr (get (rune.get Key.spirit) Key.id)).isEmpty with
  | true =>
    rw [if_pos rfl]
    exact iff_of_false (fun h => by cases h) fun h => Bool.noConfusion h.1
  | false =>
    rw [if_neg Bool.false_ne_true]
    exact (and_iff_right rfl).symm

theorem coded_canonTags {n : Option Json} {b : Bytes} (h : canonTags n = .ok b) :
    Coded Increasing b := by
  obtain ⟨ts, hts, h⟩ := bind_eq_ok.mp h
  cases h
  refine .set fun t ht => ?_
  obtain ⟨v, -, hv⟩ := (encodeEach_mem hts).mp ht
  exact coded_encodeStr hv

theorem canonTags_inj {n m : Option Json} {b c : Bytes} (hn : canonTags n = .ok b)
    (hm : canonTags m = .ok c) : canonTags n = canonTags m ↔
      Setwise (fun t u => textOr (some t) = textOr (some u)) (arrayItems n) (arrayItems m) := by
  rw [hn, hm, Except.ok.injEq]
  obtain ⟨ts, hts, hn⟩ := bind_eq_ok.mp hn
  obtain ⟨us, hus, hm⟩ := bind_eq_ok.mp hm
  cases hn
  cases hm
  rw [encodeSet_each_inj hts hus
    (fun t ht => have ⟨_, _, hv⟩ := (encodeEach_mem hts).mp ht; coded_encodeStr hv)
    (fun t ht => have ⟨_, _, hv⟩ := (encodeEach_mem hus).mp ht; coded_encodeStr hv)]
  refine Setwise.congr fun t ht u _ => ?_
  obtain ⟨x, -, hx⟩ : ∃ x, x ∈ ts ∧ encodeStrOr (some t) = .ok x := by
    have hmem := List.mem_map_of_mem (f := fun t => encodeStrOr (some t)) ht
    rw [encodeEach_map hts] at hmem
    obtain ⟨x, hx, he⟩ := List.mem_map.mp hmem
    exact ⟨x, hx, he.symm⟩
  exact encodeStrOr_inj hx

theorem fieldsCoded_facets (rune : Json) : FieldsCoded (kFacets.map fun k =>
    (k, encodeStrOr (get (rune.get Key.facets) k))) := by
  intro f hf b hb
  obtain ⟨k, -, rfl⟩ := List.mem_map.mp hf
  exact coded_encodeStr hb

theorem fieldsCoded_spirit (id : Bytes) (name : Option Json) :
    FieldsCoded [(Key.id, encodeStr id), (Key.name, encodeStrOr name)] := by
  simp only [FieldsCoded, List.forall_mem_cons, List.not_mem_nil, false_implies, implies_true,
    and_true]
  exact ⟨fun b hb => coded_encodeStr hb, fun b hb => coded_encodeStr hb⟩

theorem fieldsCoded_rune (policy : SlicePolicy) (rune : Json) :
    FieldsCoded (runeFields policy rune) := by
  intro f hf b hb
  rcases List.mem_append.mp hf with hf | hf
  · simp only [List.mem_cons, List.not_mem_nil, or_false] at hf
    rcases hf with rfl | rfl | rfl | rfl | rfl | rfl
    · exact coded_encodeRecord hb (fieldsCoded_spirit _ _)
    · exact coded_encodeStr hb
    · exact coded_encodeRecord hb (fieldsCoded_facets rune)
    · exact coded_canonTags hb
    · exact coded_encode hb
    · exact coded_encode hb
  · split at hf
    · obtain rfl := List.mem_singleton.mp hf
      exact coded_encode hb
    · cases hf

/-- Runes that are accepted have one encoding when they are one rune. -/
theorem canonRune_inj {policy : SlicePolicy} {r s : Json} {b c : Bytes}
    (hr : canonRune policy r = .ok b) (hs : canonRune policy s = .ok c) :
    canonRune policy r = canonRune policy s ↔ SameRune policy r s := by
  rw [hr, hs, Except.ok.injEq]
  obtain ⟨-, hr⟩ := canonRune_eq_ok.mp hr
  obtain ⟨-, hs⟩ := canonRune_eq_ok.mp hs
  have hnames : (runeFields policy r).map Prod.fst = (runeFields policy s).map Prod.fst := by
    unfold runeFields
    cases policy.includeView <;> rfl
  rw [encodeRecord_inj hnames hr hs (fieldsCoded_rune policy r) (fieldsCoded_rune policy s)]
  have hrv := encodeRecord_fields hr
  have hsv := encodeRecord_fields hs
  simp only [runeFields, List.forall_mem_append, List.forall_mem_cons, List.not_mem_nil,
    false_implies, implies_true, and_true] at hrv hsv
  obtain ⟨⟨⟨_, r1⟩, ⟨_, r2⟩, ⟨_, r3⟩, ⟨_, r4⟩, ⟨_, r5⟩, ⟨_, r6⟩⟩, r7⟩ := hrv
  obtain ⟨⟨⟨_, s1⟩, -, ⟨_, s3⟩, ⟨_, s4⟩, ⟨_, s5⟩, ⟨_, s6⟩⟩, s7⟩ := hsv
  -- The nested records come apart the same way as the rune's own.
  have hspirit := encodeRecord_eq_iff r1 s1 (fieldsCoded_spirit _ _) (fieldsCoded_spirit _ _) rfl
  have hid := encodeRecord_fields r1
  simp only [List.forall_mem_cons, List.not_mem_nil, false_implies, implies_true, and_true] at hid
  obtain ⟨⟨_, i1⟩, ⟨_, i2⟩⟩ := hid
  simp only [List.map_cons, List.map_nil, List.cons.injEq, and_true] at hspirit
  rw [encodeStr_inj i1, encodeStrOr_inj i2, ← CString.ext_iff] at hspirit
  have hfacets : encodeRecord (kFacets.map fun k => (k, encodeStrOr (get (r.get Key.facets) k))) =
      encodeRecord (kFacets.map fun k => (k, encodeStrOr (get (s.get Key.facets) k))) ↔
        ∀ k ∈ kFacets, textOr (get (r.get Key.facets) k) = textOr (get (s.get Key.facets) k) := by
    rw [encodeRecord_eq_iff r3 s3 (fieldsCoded_facets r) (fieldsCoded_facets s) rfl, List.map_map,
      List.map_map, List.map_inj_left]
    refine forall₂_congr fun k hk => ?_
    obtain ⟨_, hv⟩ := encodeRecord_fields r3 _ (List.mem_map_of_mem hk)
    exact encodeStrOr_inj hv
  have hhead : (runeFields policy r).map Prod.snd = (runeFields policy s).map Prod.snd ↔
      ((textOr (get (r.get Key.spirit) Key.id) = textOr (get (s.get Key.spirit) Key.id) ∧
          textOr (get (r.get Key.spirit) Key.name) = textOr (get (s.get Key.spirit) Key.name)) ∧
        textOr (r.get Key.glyph) = textOr (s.get Key.glyph) ∧
        (∀ k ∈ kFacets, textOr (get (r.get Key.facets) k) = textOr (get (s.get Key.facets) k)) ∧
        Setwise (fun t u => textOr (some t) = textOr (some u)) (arrayItems (r.get Key.tags))
          (arrayItems (s.get Key.tags)) ∧
        SameValue ((r.get Key.content).getD (.obj [])) ((s.get Key.content).getD (.obj [])) ∧
        SameValue ((r.get Key.relations).getD (.arr [])) ((s.get Key.relations).getD (.arr []))) ∧
        (policy.includeView = true →
          SameValue ((r.get Key.placement).getD .null) ((s.get Key.placement).getD .null)) := by
    unfold runeFields
    rw [← hspirit, ← encodeStrOr_inj r2, ← hfacets, ← canonTags_inj r4 s4, ← encodeOr_inj r5 s5,
      ← encodeOr_inj r6 s6]
    cases hview : policy.includeView with
    | false =>
      simp only [Bool.false_eq_true, if_false, List.append_nil, List.map_cons, List.map_nil,
        List.cons.injEq, and_true, false_implies]
    | true =>
      rw [hview] at r7 s7
      obtain ⟨_, r7⟩ := r7 _ (List.mem_singleton_self _)
      obtain ⟨_, s7⟩ := s7 _ (List.mem_singleton_self _)
      have hplace : asText (r.get Key.placement) = asText (s.get Key.placement) ↔ _ :=
        encode_inj ⟨_, r7⟩ ⟨_, s7⟩
      rw [← hplace]
      simp only [if_true, true_implies, List.cons_append, List.nil_append, List.map_cons, List.map_nil,
        List.cons.injEq, and_true, and_assoc]
  rw [hhead]
  constructor
  · rintro ⟨⟨⟨h1, h2⟩, h3, h4, h5, h6, h7⟩, h8⟩
    exact ⟨h1, h2, h3, h4, h5, h6, h7, h8⟩
  · rintro ⟨h1, h2, h3, h4, h5, h6, h7, h8⟩
    exact ⟨⟨⟨h1, h2⟩, h3, h4, h5, h6, h7⟩, h8⟩

/-! ### Mantles -/

/-- One mantle, the endpoints of its edges read by `read`. -/
structure SameMantleBy {ε : Type} (read : Option Json → ε) (policy : SlicePolicy) (m n : Json) :
    Prop where
  /-- Its identity. -/
  id : textOr (m.get Key.id) = textOr (n.get Key.id)
  /-- Its name. -/
  name : textOr (m.get Key.name) = textOr (n.get Key.name)
  /-- Its domain. -/
  domain : SameValue ((m.get Key.domain).getD .null) ((n.get Key.domain).getD .null)
  /-- Its runes, as a set. -/
  runes : Setwise (SameRune policy) (arrayItems (m.get Key.runes)) (arrayItems (n.get Key.runes))
  /-- Its tags. -/
  tags : SameValue ((m.get Key.tags).getD (.obj [])) ((n.get Key.tags).getD (.obj []))
  /-- Its edges, as a set. -/
  edges : Setwise (SameEdgeBy read) (arrayItems (get (m.get Key.layout) Key.edges))
    (arrayItems (get (n.get Key.layout) Key.edges))
  /-- Its rules. -/
  rules : SameValue ((m.get Key.rules).getD (.arr [])) ((n.get Key.rules).getD (.arr []))

/-- The fields of a mantle's record, its runes and its edges being encoded. -/
def mantleFields (mantle : Json) (runes edges : List Bytes) :
    List (CString × Except CanonicalError Bytes) :=
  [(Key.id, encodeStrOr (mantle.get Key.id)),
    (Key.name, encodeStr (textOr (mantle.get Key.name)).bytes),
    (Key.domain, asText (mantle.get Key.domain)),
    (Key.runes, .ok (encodeSet runes)),
    (Key.tags, encodeOr (mantle.get Key.tags) (.obj [])),
    (Key.edges, .ok (encodeSet edges)),
    (Key.rules, encodeOr (mantle.get Key.rules) (.arr []))]

/-- A mantle that is accepted has a name, and its runes and edges are accepted. -/
theorem canonMantle_eq_ok {policy : SlicePolicy} {mantle : Json} {b : Bytes} :
    canonMantle policy mantle = .ok b ↔
      (textOr (mantle.get Key.name)).isEmpty = false ∧ ∃ runes edges,
        encodeEach (canonRune policy) (arrayItems (mantle.get Key.runes)) = .ok runes ∧
        encodeEach canonEdge (arrayItems (get (mantle.get Key.layout) Key.edges)) = .ok edges ∧
        encodeRecord (mantleFields mantle runes edges) = .ok b := by
  rw [canonMantle, show strOr (mantle.get Key.name) .empty = textOr (mantle.get Key.name) from rfl]
  cases (textOr (mantle.get Key.name)).isEmpty with
  | true =>
    rw [if_pos rfl]
    exact iff_of_false (fun h => by cases h) fun h => Bool.noConfusion h.1
  | false =>
    rw [if_neg Bool.false_ne_true, and_iff_right rfl]
    constructor
    · intro h
      obtain ⟨runes, hrunes, h⟩ := bind_eq_ok.mp h
      obtain ⟨edges, hedges, h⟩ := bind_eq_ok.mp h
      exact ⟨runes, edges, hrunes, hedges, h⟩
    · rintro ⟨runes, edges, hrunes, hedges, h⟩
      exact bind_eq_ok.mpr ⟨runes, hrunes, bind_eq_ok.mpr ⟨edges, hedges, h⟩⟩

theorem coded_canonRune {policy : SlicePolicy} {rune : Json} {b : Bytes}
    (h : canonRune policy rune = .ok b) : Coded Increasing b :=
  coded_encodeRecord (canonRune_eq_ok.mp h).2 (fieldsCoded_rune policy rune)

theorem coded_canonEdge {edge : Json} {b : Bytes} (h : canonEdge edge = .ok b) :
    Coded Increasing b := by
  rw [canonEdge_eq] at h
  exact coded_encodeRecord h (fieldsCoded_edge edge)

/-- What an encoder of items gives is in the grammar when each of its results is. -/
theorem coded_each {enc : Json → Except CanonicalError Bytes} {xs : List Json} {bs : List Bytes}
    (henc : ∀ x b, enc x = .ok b → Coded Increasing b) (h : encodeEach enc xs = .ok bs) :
    ∀ b ∈ bs, Coded Increasing b := by
  intro b hb
  obtain ⟨x, -, hx⟩ := (encodeEach_mem h).mp hb
  exact henc x b hx

theorem fieldsCoded_mantle (mantle : Json) {runes edges : List Bytes}
    (hr : ∀ r ∈ runes, Coded Increasing r) (he : ∀ e ∈ edges, Coded Increasing e) :
    FieldsCoded (mantleFields mantle runes edges) := by
  simp only [FieldsCoded, mantleFields, List.forall_mem_cons, List.not_mem_nil, false_implies,
    implies_true, and_true]
  refine ⟨fun b hb => coded_encodeStr hb, fun b hb => coded_encodeStr hb,
    fun b hb => coded_encode hb, fun b hb => ?_, fun b hb => coded_encode hb, fun b hb => ?_,
    fun b hb => coded_encode hb⟩
  · cases hb
    exact .set hr
  · cases hb
    exact .set he

/-- Each item of an accepted list is accepted. -/
theorem encodeEach_item {enc : Json → Except CanonicalError Bytes} {xs : List Json} {bs : List Bytes}
    (h : encodeEach enc xs = .ok bs) {x : Json} (hx : x ∈ xs) : ∃ b, enc x = .ok b := by
  have hmem := List.mem_map_of_mem (f := enc) hx
  rw [encodeEach_map h] at hmem
  obtain ⟨b, -, hb⟩ := List.mem_map.mp hmem
  exact ⟨b, hb.symm⟩

/-- Mantles that are accepted have one encoding when they are one mantle, each endpoint of an
edge read as a text. -/
theorem canonMantle_inj {policy : SlicePolicy} {m n : Json} {b c : Bytes}
    (hm : canonMantle policy m = .ok b) (hn : canonMantle policy n = .ok c) :
    canonMantle policy m = canonMantle policy n ↔ SameMantleBy textOr policy m n := by
  rw [hm, hn, Except.ok.injEq]
  obtain ⟨-, mr, me, hmr, hme, hm⟩ := canonMantle_eq_ok.mp hm
  obtain ⟨-, nr, ne, hnr, hne, hn⟩ := canonMantle_eq_ok.mp hn
  have hrune : ∀ x b, canonRune policy x = .ok b → Coded Increasing b := fun _ _ => coded_canonRune
  have hedge : ∀ x b, canonEdge x = .ok b → Coded Increasing b := fun _ _ => coded_canonEdge
  have hnames : (mantleFields m mr me).map Prod.fst = (mantleFields n nr ne).map Prod.fst := rfl
  rw [encodeRecord_inj hnames hm hn
    (fieldsCoded_mantle m (coded_each hrune hmr) (coded_each hedge hme))
    (fieldsCoded_mantle n (coded_each hrune hnr) (coded_each hedge hne))]
  have hmv := encodeRecord_fields hm
  have hnv := encodeRecord_fields hn
  simp only [mantleFields, List.forall_mem_cons, List.not_mem_nil, false_implies, implies_true,
    and_true] at hmv hnv
  obtain ⟨⟨_, m1⟩, ⟨_, m2⟩, ⟨_, m3⟩, -, ⟨_, m5⟩, -, ⟨_, m7⟩⟩ := hmv
  obtain ⟨-, -, ⟨_, n3⟩, -, ⟨_, n5⟩, -, ⟨_, n7⟩⟩ := hnv
  have hdomain : asText (m.get Key.domain) = asText (n.get Key.domain) ↔ _ :=
    encode_inj ⟨_, m3⟩ ⟨_, n3⟩
  have hrunes : encodeSet mr = encodeSet nr ↔ Setwise (SameRune policy)
      (arrayItems (m.get Key.runes)) (arrayItems (n.get Key.runes)) := by
    rw [encodeSet_each_inj hmr hnr (coded_each hrune hmr) (coded_each hrune hnr)]
    refine Setwise.congr fun r hr s hs => ?_
    obtain ⟨_, hr⟩ := encodeEach_item hmr hr
    obtain ⟨_, hs⟩ := encodeEach_item hnr hs
    exact canonRune_inj hr hs
  have hedges : encodeSet me = encodeSet ne ↔ Setwise (SameEdgeBy textOr)
      (arrayItems (get (m.get Key.layout) Key.edges))
      (arrayItems (get (n.get Key.layout) Key.edges)) := by
    rw [encodeSet_each_inj hme hne (coded_each hedge hme) (coded_each hedge hne)]
    refine Setwise.congr fun e he f hf => ?_
    obtain ⟨_, he⟩ := encodeEach_item hme he
    obtain ⟨_, hf⟩ := encodeEach_item hne hf
    exact canonEdge_inj he hf
  simp only [mantleFields, List.map_cons, List.map_nil, List.cons.injEq, and_true,
    Except.ok.injEq]
  rw [encodeStrOr_inj m1, encodeStr_inj m2, ← CString.ext_iff, hdomain, hrunes, encodeOr_inj m5 n5,
    hedges, encodeOr_inj m7 n7]
  constructor
  · rintro ⟨h1, h2, h3, h4, h5, h6, h7⟩
    exact ⟨h1, h2, h3, h4, h5, h6, h7⟩
  · rintro ⟨h1, h2, h3, h4, h5, h6, h7⟩
    exact ⟨h1, h2, h3, h4, h5, h6, h7⟩

/-! ### Slices -/

/-- The declarations of a state, each without its `source`. -/
def declarationsOf (state : Json) : List (CString × Json) :=
  (childMembers (state.get Key.glyphs)).map fun g => (g.1, declared g.2)

/-- No declaration is named twice, and none names a member twice besides `source`. -/
def DeclaredOnce (state : Json) : Prop :=
  ((declarationsOf state).map Prod.fst).Nodup ∧
    ∀ d ∈ declarationsOf state, (d.2.members.map Prod.fst).Nodup

/-- One versioned slice, the endpoints of edges read by `read`. -/
structure SameStateBy {ε : Type} (read : Option Json → ε) (policy : SlicePolicy) (s t : Json) :
    Prop where
  /-- Its mantles, as a set. -/
  mantles : Setwise (SameMantleBy read policy) (arrayItems (s.get Key.mantles))
    (arrayItems (t.get Key.mantles))
  /-- Its declarations. -/
  glyphs : SameValue (.obj (declarationsOf s)) (.obj (declarationsOf t))

/-- A declaration that names no member twice is encoded as an object without `source`. -/
theorem encode_declared {g : Json} {b : Bytes} (h : canonGlyphDescriptor g = .ok b)
    (hd : ((declared g).members.map Prod.fst).Nodup) : encode (declared g) = .ok b := by
  cases g with
  | obj ms =>
    rw [canonGlyphDescriptor] at h
    obtain ⟨fs, hfs, h⟩ := bind_eq_ok.mp h
    obtain ⟨ps, hps, h⟩ := bind_eq_ok.mp h
    cases h
    have hms := encodeMembers_declared hfs hps
    rw [declared, Json.members_obj] at hd ⊢
    rw [encode]
    refine bind_eq_ok.mpr ⟨ps, hms, encodeMap_eq_ok.mpr ⟨?_, rfl⟩⟩
    rw [(encodeMembers_eq_ok.mp hms).2]
    exact memberForm_keys_nodup.mpr hd
  | null => cases h
  | bool _ => cases h
  | num _ => cases h
  | str _ => cases h
  | arr _ => cases h

/-- The declarations, encoded one by one. -/
theorem encodeMembers_declarations {ms : List (CString × Json)} :
    ∀ {ds ps : List (Bytes × Bytes)}, declarations ms = .ok ds → encodeKeys ds = .ok ps →
      (∀ m ∈ ms, ((declared m.2).members.map Prod.fst).Nodup) →
        encodeMembers (ms.map fun g => (g.1, declared g.2)) = .ok ps := by
  induction ms with
  | nil =>
    intro ds ps hds hps _
    cases hds
    cases hps
    rfl
  | cons m ms ih =>
    intro ds ps hds hps hd
    obtain ⟨k, g⟩ := m
    obtain ⟨hg, hd⟩ := List.forall_mem_cons.mp hd
    rw [declarations] at hds
    obtain ⟨b, hb, hds⟩ := bind_eq_ok.mp hds
    obtain ⟨ds', hds', hds⟩ := bind_eq_ok.mp hds
    cases hds
    rw [encodeKeys] at hps
    obtain ⟨kb, hkb, hps⟩ := bind_eq_ok.mp hps
    obtain ⟨ps', hps', hps⟩ := bind_eq_ok.mp hps
    cases hps
    rw [List.map_cons, encodeMembers, hkb, encode_declared hb hg, ih hds' hps' hd]
    rfl

/-- The declarations of a state that names each once are encoded as one object. -/
theorem encode_declarationsOf {state : Json} {b : Bytes} (h : canonGlyphs state = .ok b)
    (hd : DeclaredOnce state) : encode (.obj (declarationsOf state)) = .ok b := by
  obtain ⟨hnames, hmembers⟩ := hd
  unfold canonGlyphs at h
  cases hg : state.get Key.glyphs with
  | none =>
    rw [hg] at h
    rw [declarationsOf, hg]
    exact h
  | some g =>
    rw [hg] at h
    cases g with
    | obj ms =>
      obtain ⟨ds, hds, h⟩ := bind_eq_ok.mp h
      obtain ⟨ps, hps, h⟩ := bind_eq_ok.mp h
      cases h
      have hd : declarationsOf state = ms.map fun g => (g.1, declared g.2) := by
        rw [declarationsOf, hg]
        rfl
      rw [hd] at hnames hmembers ⊢
      have hms := encodeMembers_declarations hds hps fun m hm => hmembers _ (List.mem_map_of_mem hm)
      rw [encode]
      refine bind_eq_ok.mpr ⟨ps, hms, encodeMap_eq_ok.mpr ⟨?_, rfl⟩⟩
      rw [(encodeMembers_eq_ok.mp hms).2]
      exact memberForm_keys_nodup.mpr hnames
    | null =>
      rw [declarationsOf, hg]
      exact h
    | bool _ => cases h
    | num _ => cases h
    | str _ => cases h
    | arr _ => cases h

/-- The two fields of a slice. -/
def sliceFields (mantles glyphs : Bytes) : List (CString × Except CanonicalError Bytes) :=
  [(Key.mantles, .ok mantles), (Key.glyphs, .ok glyphs)]

/-- The two names of a slice differ, so that the look for a name given twice finds none. -/
theorem sliceRecord (mantles glyphs : Bytes) :
    encodeMapOfEncoded [(lit "mantles", mantles), (lit "glyphs", glyphs)] =
      encodeRecord (sliceFields mantles glyphs) := by
  have hm : encodeStr (lit "mantles") = .ok (keyForm Key.mantles) :=
    encodeStr_eq_ok.mpr ⟨by decide +kernel, rfl⟩
  have hg : encodeStr (lit "glyphs") = .ok (keyForm Key.glyphs) :=
    encodeStr_eq_ok.mpr ⟨by decide +kernel, rfl⟩
  have hne : keyForm Key.mantles ≠ keyForm Key.glyphs := keyForm_injective.ne (by decide +kernel)
  have hkeys : encodeKeys [(lit "mantles", mantles), (lit "glyphs", glyphs)] =
      .ok [(keyForm Key.mantles, mantles), (keyForm Key.glyphs, glyphs)] := by
    simp only [encodeKeys, hm, hg]
    rfl
  have hfields : encodeFields (sliceFields mantles glyphs) =
      .ok [(keyForm Key.mantles, mantles), (keyForm Key.glyphs, glyphs)] := by
    simp only [sliceFields, encodeFields, show Key.mantles.bytes = lit "mantles" from rfl,
      show Key.glyphs.bytes = lit "glyphs" from rfl, hm, hg]
    rfl
  have hmap : encodeMap [(keyForm Key.mantles, mantles), (keyForm Key.glyphs, glyphs)] = .ok _ :=
    encodeMap_eq_ok.mpr ⟨by simpa using hne, rfl⟩
  rw [encodeRecord, encodeMapOfEncoded, hkeys, hfields]
  exact hmap.symm

/-- A slice is a record of the mantles, each named once, and the declarations. -/
theorem canonSlice_eq_ok {policy : SlicePolicy} {state : Json} {b : Bytes} :
    canonSlice state policy = .ok b ↔ ∃ mantles glyphs,
      encodeEach (canonMantle policy) (arrayItems (state.get Key.mantles)) = .ok mantles ∧
      ((arrayItems (state.get Key.mantles)).map fun m => (textOr (m.get Key.name)).bytes).Nodup ∧
      canonGlyphs state = .ok glyphs ∧
      encodeRecord (sliceFields (encodeSet mantles) glyphs) = .ok b := by
  have hrecord := sliceRecord
  unfold canonSlice
  dsimp only
  constructor
  · intro h
    obtain ⟨mantles, hmantles, h⟩ := bind_eq_ok.mp h
    split at h
    · cases h
    · rename_i hdup
      obtain ⟨glyphs, hglyphs, h⟩ := bind_eq_ok.mp h
      rw [hrecord] at h
      refine ⟨mantles, glyphs, hmantles, ?_, hglyphs, h⟩
      have hnd := Sorting.adjacentEqual_sortOn.mp (Bool.eq_false_iff.mpr hdup)
      rwa [List.map_id] at hnd
  · rintro ⟨mantles, glyphs, hmantles, hnd, hglyphs, h⟩
    refine bind_eq_ok.mpr ⟨mantles, hmantles, ?_⟩
    have hdup : Sorting.adjacentEqual id (Sorting.sortOn id ((arrayItems (state.get Key.mantles)).map
        fun m => (textOr (m.get Key.name)).bytes)) = false :=
      Sorting.adjacentEqual_sortOn.mpr (by rwa [List.map_id])
    refine (if_neg (Bool.eq_false_iff.mp hdup)).trans ?_
    exact bind_eq_ok.mpr ⟨glyphs, hglyphs, (hrecord _ _).trans h⟩

theorem coded_canonMantle {policy : SlicePolicy} {mantle : Json} {b : Bytes}
    (h : canonMantle policy mantle = .ok b) : Coded Increasing b := by
  obtain ⟨-, runes, edges, hr, he, h⟩ := canonMantle_eq_ok.mp h
  exact coded_encodeRecord h (fieldsCoded_mantle mantle
    (coded_each (fun _ _ => coded_canonRune) hr) (coded_each (fun _ _ => coded_canonEdge) he))

theorem fieldsCoded_slice {mantles : List Bytes} {glyphs : Bytes}
    (hm : ∀ m ∈ mantles, Coded Increasing m) (hg : Coded Increasing glyphs) :
    FieldsCoded (sliceFields (encodeSet mantles) glyphs) := by
  simp only [FieldsCoded, sliceFields, List.forall_mem_cons, List.not_mem_nil, false_implies,
    implies_true, and_true]
  refine ⟨fun b hb => ?_, fun b hb => ?_⟩
  · cases hb
    exact .set hm
  · cases hb
    exact hg

/-- States that are accepted and declare each glyph once have one canonical form when they
hold one slice, each endpoint of an edge read as a text. -/
theorem canonSlice_inj {policy : SlicePolicy} {s t : Json} {b c : Bytes}
    (hs : canonSlice s policy = .ok b) (ht : canonSlice t policy = .ok c) (hds : DeclaredOnce s)
    (hdt : DeclaredOnce t) : b = c ↔ SameStateBy textOr policy s t := by
  obtain ⟨sm, sg, hsm, -, hsg, hs⟩ := canonSlice_eq_ok.mp hs
  obtain ⟨tm, tg, htm, -, htg, ht⟩ := canonSlice_eq_ok.mp ht
  have hse := encode_declarationsOf hsg hds
  have hte := encode_declarationsOf htg hdt
  have hmantle : ∀ x b, canonMantle policy x = .ok b → Coded Increasing b :=
    fun _ _ => coded_canonMantle
  have hnames : (sliceFields (encodeSet sm) sg).map Prod.fst =
      (sliceFields (encodeSet tm) tg).map Prod.fst := rfl
  rw [encodeRecord_inj hnames hs ht (fieldsCoded_slice (coded_each hmantle hsm) (coded_encode hse))
    (fieldsCoded_slice (coded_each hmantle htm) (coded_encode hte))]
  simp only [sliceFields, List.map_cons, List.map_nil, List.cons.injEq, and_true, Except.ok.injEq]
  have hglyphs : sg = tg ↔ SameValue (.obj (declarationsOf s)) (.obj (declarationsOf t)) := by
    rw [← encode_inj ⟨_, hse⟩ ⟨_, hte⟩, hse, hte, Except.ok.injEq]
  have hmantles : encodeSet sm = encodeSet tm ↔ Setwise (SameMantleBy textOr policy)
      (arrayItems (s.get Key.mantles)) (arrayItems (t.get Key.mantles)) := by
    rw [encodeSet_each_inj hsm htm (coded_each hmantle hsm) (coded_each hmantle htm)]
    refine Setwise.congr fun m hm n hn => ?_
    obtain ⟨_, hm⟩ := encodeEach_item hsm hm
    obtain ⟨_, hn⟩ := encodeEach_item htm hn
    exact canonMantle_inj hm hn
  rw [hmantles, hglyphs]
  exact ⟨fun ⟨h1, h2⟩ => ⟨h1, h2⟩, fun ⟨h1, h2⟩ => ⟨h1, h2⟩⟩

end VoidPalabra
