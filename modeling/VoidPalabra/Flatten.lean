import VoidPalabra.Policy
import VoidPalabra.Document

/-!
# What a document shows

`flatten` turns a document back into the state an application holds: the things
whose presence is live, each field read under its policy, and every list of things
in the order of their names. A value that does not decode is a null pointer, which
`cJSON_AddItemToObject` adds to nothing.
-/

namespace VoidPalabra

/-- `cJSON_AddItemToObject` of an item that may be null. -/
def member (k : CString) (item : Option Json) : List (CString × Json) :=
  match item with
  | some v => [(k, v)]
  | none => []

/-- The members of a node that may be missing, in order. -/
def childMembers (n : Option Json) : List (CString × Json) :=
  match n with
  | some v => v.members
  | none => []

/-- The members of a map that are present now, in the order of their names. Glyphs are
sorted after the others are left out, which gives the same list. -/
def shownMembers (n : Option Json) : List (CString × Json) :=
  (Sorting.sortOn Prod.fst (childMembers n)).filter fun m =>
    !(orsetFromJson (m.2.get Key.present)).isEmpty

/-- A field of `fields` as it is shown. -/
def shownField (policy : JoinPolicy) (fields : Option Json) (field : CString) : Option Json :=
  firstOrNull (resolve (get fields field) (policy.lookup field.bytes))

/-- A field that is shown as an empty list when it has no value. -/
def shownList (policy : JoinPolicy) (fields : Option Json) (field : CString) : Json :=
  match (resolve (get fields field) (policy.lookup field.bytes)).values with
  | [] => .arr []
  | v :: _ => (decode v).getD (.arr [])

/-- The elements of a set. -/
def shownSet (n : Option Json) : List Json := (orsetFromJson n).values.filterMap decode

/-- One content key of a rune; a register with no live value is a removed key. -/
def contentMember (policy : JoinPolicy) (m : CString × Json) : List (CString × Json) :=
  if !m.1.startsWith Key.contentDot then []
  else if (liveOf (some m.2)).values.isEmpty then []
  else member (m.1.drop 8) (firstOrNull (resolve (some m.2) (policy.lookup m.1.bytes)))

/-- One tag of a mantle. -/
def tagMember (policy : JoinPolicy) (m : CString × Json) : List (CString × Json) :=
  if !m.1.startsWith Key.tagsDot then []
  else
    match (resolve (some m.2) (policy.lookup m.1.bytes)).values with
    | [] => []
    | v :: _ => member (m.1.drop 5) (decode v)

/-- One rune of a flattened mantle. -/
def flattenRune (policy : JoinPolicy) (id : CString) (r : Json) : Json :=
  let f := r.get Key.fields
  .obj ([(Key.spirit, .obj ((Key.id, .str id) ::
        member Key.name (shownField policy f Key.spiritName)))] ++
    member Key.glyph (shownField policy f Key.glyph) ++
    [(Key.facets, .obj (kFacets.flatMap fun k =>
        member k (shownField policy f (Key.facetsDot ++ k)))),
      (Key.content, .obj ((childMembers f).flatMap (contentMember policy))),
      (Key.tags, .arr (shownSet (r.get Key.tags)))] ++
    member Key.placement (shownField policy f Key.placement) ++
    [(Key.relations, shownList policy f Key.relations)])

/-- One mantle of a flattened document. -/
def flattenMantle (policy : JoinPolicy) (name : CString) (m : Json) : Json :=
  let mf := m.get Key.fields
  .obj (member Key.id (shownField policy mf Key.id) ++
    [(Key.name, .str name)] ++
    member Key.domain (shownField policy mf Key.domain) ++
    [(Key.runes, .arr ((shownMembers (m.get Key.runes)).map fun r =>
        flattenRune policy r.1 r.2)),
      (Key.tags, .obj ((childMembers mf).flatMap (tagMember policy))),
      (Key.layout, .obj [(Key.edges, .arr (shownSet (m.get Key.edges)))]),
      (Key.rules, shownList policy mf Key.rules)])

/-- One glyph declaration; the first live value is shown, whatever the policy. -/
def glyphMember (g : CString × Json) : List (CString × Json) :=
  match (liveOf (get (g.2.get Key.fields) Key.descriptor)).values with
  | [] => []
  | v :: _ => member g.1 (decode v)

/-- `flatten`. -/
def flatten (root : Json) (policy : JoinPolicy) : Json :=
  let glyphs := shownMembers (root.get Key.glyphs)
  .obj ((Key.mantles, .arr ((shownMembers (root.get Key.mantles)).map fun m =>
      flattenMantle policy m.1 m.2)) ::
    if glyphs.isEmpty then [] else [(Key.glyphs, .obj (glyphs.flatMap glyphMember))])

end VoidPalabra
