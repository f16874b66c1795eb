import VoidPalabra.JoinLaws
import VoidPalabra.Reported
import VoidPalabra.Anomaly
import VoidPalabra.RoundTrip

/-!
# What is read off two documents that say the same

Documents with the same sets and the same nodes may keep their members in another
order. What they show, what they report as conflicts and what they report as broken
rules does not depend on that order.
-/

namespace VoidPalabra

open Sorting

/-- Two documents that say the same. -/
structure SameDoc (A B : Json) : Prop where
  /-- The first is a document. -/
  left : Shaped A
  /-- So is the second. -/
  right : Shaped B
  /-- They have the same sets. -/
  sets : ∀ p, setAt A p = setAt B p
  /-- They have the same nodes. -/
  nodes : ∀ p, HasNode A p ↔ HasNode B p

/-- Documents with the same facts say the same. -/
theorem sameDoc_of_facts {A B : Json} (ha : Shaped A) (hb : Shaped B) (h : facts A = facts B) :
    SameDoc A B where
  left := ha
  right := hb
  sets := fun p => by
    refine OrSet.ext_tags (fun t => Option.ext fun v => ?_) fun t => ?_
    · exact Set.ext_iff.mp h (.add p t v)
    · exact Set.ext_iff.mp h (.retire p t)
  nodes := fun p => Set.ext_iff.mp h (.node p)

namespace SameDoc

variable {A B : Json} (h : SameDoc A B)

include h

/-- The two documents have one canonical form. -/
theorem canonBytes_eq : canonBytes A = canonBytes B :=
  canonBytes_of_facts h.left h.right (facts_eq_of_sets h.sets h.nodes)

theorem symm : SameDoc B A :=
  ⟨h.right, h.left, fun p => (h.sets p).symm, fun p => (h.nodes p).symm⟩

/-- The names below a map are the same, in some order. -/
theorem namesAt_perm {p : Path} (hk : kindOf p = some .map) : (namesAt A p).Perm (namesAt B p) := by
  refine (List.perm_ext_iff_of_nodup (h.left.namesAt_nodup hk) (h.right.namesAt_nodup hk)).mpr ?_
  intro k
  rw [h.left.mem_namesAt hk, h.right.mem_namesAt hk, h.nodes]

/-- What is made of the members of a map, when it is made alike of the same member of
both documents. -/
theorem flatMap_perm {p : Path} (hk : kindOf p = some .map) {β : Type} {f : CString × Json → List β}
    (hf : ∀ k v w, nodeAt A (p ++ [k]) = some v → nodeAt B (p ++ [k]) = some w → f (k, v) = f (k, w)) :
    ((childMembers (nodeAt A p)).flatMap f).Perm ((childMembers (nodeAt B p)).flatMap f) := by
  have hl := h.left.flatMap_childMembers hk (f := f)
    (g := fun k => (nodeAt A (p ++ [k])).elim [] fun v => f (k, v))
    fun k v hv => by rw [hv, Option.elim_some]
  have hr := h.right.flatMap_childMembers hk (f := f)
    (g := fun k => (nodeAt A (p ++ [k])).elim [] fun v => f (k, v))
    fun k w hw => by
      have hn : HasNode A (p ++ [k]) := (h.nodes _).mpr (by rw [HasNode, hw]; rfl)
      obtain ⟨v, hv⟩ := Option.isSome_iff_exists.mp hn
      rw [hv, Option.elim_some]
      exact (hf k v w hv hw).symm
  rw [hl, hr]
  exact (h.namesAt_perm hk).flatMap_right _

theorem shownAt_eq (base : Path) : shownAt A base = shownAt B base := by
  rw [shownAt, shownAt, h.sets]

theorem shownNames_eq {p : Path} (hk : kindOf p = some .map) : shownNames A p = shownNames B p := by
  rw [shownNames, shownNames, sortOn_id_eq_of_perm (h.namesAt_perm hk)]
  exact List.filter_congr fun k _ => h.shownAt_eq _

/-! ### Conflicts -/

theorem placeAt {base : Path} {m r g : Bytes} (hp : PlaceAt A base m r g) : PlaceAt B base m r g := by
  cases hp with
  | mantle m => exact .mantle m
  | rune m r hs => exact .rune m r (h.shownAt_eq _ ▸ hs)
  | glyph g => exact .glyph g

theorem reportedAt {policy : JoinPolicy} {base : Path} {m r g : Bytes} {c : Conflict} :
    ReportedAt A policy base m r g c ↔ ReportedAt B policy base m r g c := by
  unfold ReportedAt RacedAt registerAt
  simp only [h.sets, h.shownAt_eq]

theorem mem_conflicts {policy : JoinPolicy} {c : Conflict} (hc : c ∈ conflicts A policy) :
    c ∈ conflicts B policy := by
  obtain ⟨base, m, r, g, hp, hn, hr⟩ := h.left.mem_conflicts.mp hc
  exact h.right.mem_conflicts.mpr ⟨base, m, r, g, h.placeAt hp, (h.nodes _).mp hn, h.reportedAt.mp hr⟩

/-- The conflicts are the same, in the same order. -/
theorem conflicts_eq (policy : JoinPolicy) : conflicts A policy = conflicts B policy := by
  have hperm : (conflicts A policy).Perm (conflicts B policy) :=
    (List.perm_ext_iff_of_nodup h.left.conflicts_nodup.of_map h.right.conflicts_nodup.of_map).mpr
      fun c => ⟨h.mem_conflicts, h.symm.mem_conflicts⟩
  have hsort := sortOn_eq_of_perm h.left.conflicts_nodup hperm
  have hid : ∀ root, sortOn Conflict.sortKey (conflicts root policy) = conflicts root policy :=
    fun root => sortOn_of_pairwise (sortOn_pairwise _ _)
  rwa [hid, hid] at hsort

/-! ### What is shown -/

theorem register_eq (policy : JoinPolicy) (base : Path) (k f : CString) :
    (thingAt A policy base k).register f = (thingAt B policy base k).register f := by
  simp only [thingAt, h.sets]

theorem elements_eq (policy : JoinPolicy) (base : Path) (k : CString) :
    (thingAt A policy base k).elements = (thingAt B policy base k).elements := h.sets _

/-- The keys of a thing are shown in some order. -/
theorem keyed_perm (policy : JoinPolicy) {base : Path} (hb : kindOf (base ++ [Key.fields]) = some .map)
    (k pre : CString) :
    ((thingAt A policy base k).keyed pre).Perm ((thingAt B policy base k).keyed pre) := by
  unfold Thing.keyed
  simp only [h.register_eq]
  exact (h.namesAt_perm hb).flatMap_right _

/-- The keys of a thing have one normal form. -/
theorem norm_keyed (policy : JoinPolicy) {base : Path} (hb : kindOf (base ++ [Key.fields]) = some .map)
    (k pre : CString) : norm (.obj ((thingAt A policy base k).keyed pre)) =
      norm (.obj ((thingAt B policy base k).keyed pre)) := by
  have hA := Thing.keyed_nodup (thingAt A policy base k) (h.left.namesAt_nodup hb) pre
  have hB := Thing.keyed_nodup (thingAt B policy base k) (h.right.namesAt_nodup hb) pre
  rw [norm_obj hA, norm_obj hB, sortMembers_eq_of_perm hA (h.keyed_perm policy hb k pre)]

/-- A rune is shown alike. -/
theorem norm_rune (policy : JoinPolicy) {base : Path} (hb : kindOf (base ++ [Key.fields]) = some .map)
    (id : CString) : norm ((thingAt A policy base Key.tags).rune id) =
      norm ((thingAt B policy base Key.tags).rune id) := by
  have hk := h.norm_keyed policy hb Key.tags Key.contentDot
  unfold Thing.rune Thing.list
  simp only [h.register_eq, h.elements_eq]
  rw [norm, norm, normMembers_eq_map, normMembers_eq_map]
  simp only [List.map_append, List.map_cons, normMember, hk]

/-- A mantle is shown alike. -/
theorem norm_mantle (policy : JoinPolicy) {name : CString} (hname : name.isEmpty = false) :
    norm (shownMantle A policy name) = norm (shownMantle B policy name) := by
  have hb := atKind_mantle hname
  have hk := h.norm_keyed policy (hb [Key.fields]) Key.edges Key.tagsDot
  have hmap : kindOf [Key.mantles, name, Key.runes] = some .map := hb [Key.runes]
  have hruns : norm (.arr ((shownNames A [Key.mantles, name, Key.runes]).map fun id =>
        (thingAt A policy [Key.mantles, name, Key.runes, id] Key.tags).rune id)) =
      norm (.arr ((shownNames B [Key.mantles, name, Key.runes]).map fun id =>
        (thingAt B policy [Key.mantles, name, Key.runes, id] Key.tags).rune id)) := by
    rw [norm_arr, norm_arr, h.shownNames_eq hmap, List.map_map, List.map_map]
    refine congrArg Json.arr (List.map_congr_left fun id hid => ?_)
    have hid' := mem_sortOn.mp (List.mem_of_mem_filter hid)
    rw [h.right.mem_namesAt hmap] at hid'
    obtain ⟨v, hv⟩ := Option.isSome_iff_exists.mp hid'
    exact h.norm_rune policy
      ((hb.rune (h.right.name_ne_empty hb.namedAt_runes (k := id) hv)) [Key.fields]) id
  unfold shownMantle Thing.mantle Thing.list
  simp only [h.register_eq, h.elements_eq]
  rw [norm, norm, normMembers_eq_map, normMembers_eq_map]
  simp only [List.map_append, List.map_cons, normMember, hk, hruns]

/-- The two documents show the same, up to the order in which an object's members are
kept. -/
theorem norm_flatten (policy : JoinPolicy) : norm (flatten A policy) = norm (flatten B policy) := by
  have hm : kindOf [Key.mantles] = some .map := by decide
  have hg : kindOf [Key.glyphs] = some .map := by decide
  have hglyph : ∀ name, shownGlyph A name = shownGlyph B name := fun name => by
    rw [shownGlyph, shownGlyph, h.sets]
  have hmantles : norm (.arr ((shownNames A [Key.mantles]).map (shownMantle A policy))) =
      norm (.arr ((shownNames B [Key.mantles]).map (shownMantle B policy))) := by
    rw [norm_arr, norm_arr, h.shownNames_eq hm, List.map_map, List.map_map]
    refine congrArg Json.arr (List.map_congr_left fun name hn => ?_)
    have hn' := mem_sortOn.mp (List.mem_of_mem_filter hn)
    rw [h.right.mem_namesAt hm] at hn'
    obtain ⟨v, hv⟩ := Option.isSome_iff_exists.mp hn'
    exact h.norm_mantle policy (h.right.name_ne_empty namedAt_mantles hv)
  rw [h.left.flatten_eq, h.right.flatten_eq, h.shownNames_eq hg, norm, norm, normMembers_eq_map,
    normMembers_eq_map]
  simp only [List.map_cons, normMember, hmantles, funext hglyph]

end SameDoc

end VoidPalabra
