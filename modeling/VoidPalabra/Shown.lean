import VoidPalabra.Reading
import VoidPalabra.Bindings

/-!
# What is read off what is shown

The members of a shown rune or mantle, one by one, and the canonical form of each. A
register that shows a value no decoder reads has no member, and is read as missing.
-/

namespace VoidPalabra

theorem lookup_member (j k : CString) (item : Option Json) :
    Json.lookup j (member k item) = if k = j then item else none := by
  cases item with
  | none => simp [member]
  | some v => simp [member, Json.lookup_cons]

/-- Each name of a list has at most one member. -/
theorem lookup_flatMap_member (f : CString → Option Json) (ks : List CString) (k : CString) :
    Json.lookup k (ks.flatMap fun j => member j (f j)) = if k ∈ ks then f k else none := by
  induction ks with
  | nil => rfl
  | cons j ks ih =>
    rw [List.flatMap_cons, Json.lookup_append, lookup_member, ih]
    by_cases hj : j = k
    · subst hj
      simp only [if_true, List.mem_cons, true_or]
      cases f j <;> simp
    · have hkj : k ≠ j := fun h => hj h.symm
      simp [hj, hkj]

namespace Thing

variable (t : Thing) (id name : CString) (runes : List Json)

theorem rune_spirit : (t.rune id).get Key.spirit =
    some (.obj ((Key.id, .str id) :: member Key.name (firstOrNull (t.register Key.spiritName)))) := rfl

theorem rune_glyph : (t.rune id).get Key.glyph = firstOrNull (t.register Key.glyph) := by
  simp +decide only [rune, Json.get_obj, Json.lookup_append, lookup_member, Json.lookup_cons,
    Json.lookup_nil]
  cases firstOrNull (t.register Key.glyph) <;> rfl

theorem rune_facets : (t.rune id).get Key.facets = some (.obj (kFacets.flatMap fun k =>
    member k (firstOrNull (t.register (Key.facetsDot ++ k))))) := by
  simp +decide only [rune, Json.get_obj, Json.lookup_append, lookup_member, Json.lookup_cons,
    Json.lookup_nil]
  rfl

theorem rune_content : (t.rune id).get Key.content = some (.obj (t.keyed Key.contentDot)) := by
  simp +decide only [rune, Json.get_obj, Json.lookup_append, lookup_member, Json.lookup_cons,
    Json.lookup_nil]
  rfl

theorem rune_tags : (t.rune id).get Key.tags = some (.arr (t.elements.values.filterMap decode)) := by
  simp +decide only [rune, Json.get_obj, Json.lookup_append, lookup_member, Json.lookup_cons,
    Json.lookup_nil]
  rfl

theorem rune_placement : (t.rune id).get Key.placement = firstOrNull (t.register Key.placement) := by
  simp +decide only [rune, Json.get_obj, Json.lookup_append, lookup_member, Json.lookup_cons,
    Json.lookup_nil]
  cases firstOrNull (t.register Key.placement) <;> rfl

theorem rune_relations : (t.rune id).get Key.relations = some (t.list Key.relations) := by
  simp +decide only [rune, Json.get_obj, Json.lookup_append, lookup_member, Json.lookup_cons,
    Json.lookup_nil]
  rfl

/-- A facet of a shown rune. -/
theorem facet_lookup {k : CString} (hk : k ∈ kFacets) :
    get ((t.rune id).get Key.facets) k = firstOrNull (t.register (Key.facetsDot ++ k)) := by
  rw [rune_facets, get_some, Json.get_obj,
    lookup_flatMap_member fun k => firstOrNull (t.register (Key.facetsDot ++ k)), if_pos hk]

theorem mantle_id : (t.mantle name runes).get Key.id = firstOrNull (t.register Key.id) := by
  simp +decide only [mantle, Json.get_obj, Json.lookup_append, lookup_member, Json.lookup_cons,
    Json.lookup_nil]
  cases firstOrNull (t.register Key.id) <;> rfl

theorem mantle_name : (t.mantle name runes).get Key.name = some (.str name) := by
  simp +decide only [mantle, Json.get_obj, Json.lookup_append, lookup_member, Json.lookup_cons,
    Json.lookup_nil]
  rfl

theorem mantle_domain : (t.mantle name runes).get Key.domain = firstOrNull (t.register Key.domain) := by
  simp +decide only [mantle, Json.get_obj, Json.lookup_append, lookup_member, Json.lookup_cons,
    Json.lookup_nil]
  cases firstOrNull (t.register Key.domain) <;> rfl

theorem mantle_runes : (t.mantle name runes).get Key.runes = some (.arr runes) := by
  simp +decide only [mantle, Json.get_obj, Json.lookup_append, lookup_member, Json.lookup_cons,
    Json.lookup_nil]
  rfl

theorem mantle_tags : (t.mantle name runes).get Key.tags = some (.obj (t.keyed Key.tagsDot)) := by
  simp +decide only [mantle, Json.get_obj, Json.lookup_append, lookup_member, Json.lookup_cons,
    Json.lookup_nil]
  rfl

theorem mantle_edges : get ((t.mantle name runes).get Key.layout) Key.edges =
    some (.arr (t.elements.values.filterMap decode)) := by
  simp +decide only [mantle, Json.get_obj, Json.lookup_append, lookup_member, Json.lookup_cons,
    Json.lookup_nil]
  rfl

theorem mantle_rules : (t.mantle name runes).get Key.rules = some (t.list Key.rules) := by
  simp +decide only [mantle, Json.get_obj, Json.lookup_append, lookup_member, Json.lookup_cons,
    Json.lookup_nil]
  rfl

end Thing

end VoidPalabra
