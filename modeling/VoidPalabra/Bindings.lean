import VoidPalabra.Encode

/-!
# The canonical form of a state

Runes, mantles and glyph declarations of an application's state, with the defaults
that hydration fills in and with everything that carries no order as a set.
-/

namespace VoidPalabra

/-- `Policy`: what a canonical form leaves out. -/
structure SlicePolicy where
  /-- Whether placements count. -/
  includeView : Bool := true

/-- The items of a node that is an array. -/
def arrayItems (n : Option Json) : List Json :=
  match n with
  | some (.arr items) => items
  | _ => []

/-- `encode_str` of a member that is text, or of the empty text. -/
def encodeStrOr (n : Option Json) : Except CanonicalError Bytes := encodeStr (strOr n .empty).bytes

/-- `encode` of a member, or of an empty container when it is absent. -/
def encodeOr (n : Option Json) (empty : Json) : Except CanonicalError Bytes := encode (n.getD empty)

/-- The fields of a map, one after another. -/
def encodeFields : List (CString × Except CanonicalError Bytes) →
    Except CanonicalError (List (Bytes × Bytes))
  | [] => .ok []
  | (k, v) :: rest => do
    let k ← encodeStr k.bytes
    let v ← v
    let rest ← encodeFields rest
    pure ((k, v) :: rest)

/-- A map whose fields are known by name. -/
def encodeRecord (fields : List (CString × Except CanonicalError Bytes)) :
    Except CanonicalError Bytes := do
  let pairs ← encodeFields fields
  encodeMap pairs

/-- Each item of a list under an encoder. -/
def encodeEach (enc : Json → Except CanonicalError Bytes) :
    List Json → Except CanonicalError (List Bytes)
  | [] => .ok []
  | v :: rest => do
    let v ← enc v
    let rest ← encodeEach enc rest
    pure (v :: rest)

/-- `canon_edge`; an undirected edge is the same from either end. -/
def canonEdge (edge : Json) : Except CanonicalError Bytes :=
  let source := (strOr (edge.get (.ofLit "from")) .empty).bytes
  let target := (strOr (edge.get (.ofLit "to")) .empty).bytes
  let weight :=
    match edge.get (.ofLit "weight") with
    | some (.num d) => d
    | _ => Double.one
  let directed :=
    match edge.get (.ofLit "directed") with
    | none => true
    | some (.bool b) => b
    | some _ => false
  let swapped := !directed && compare target source == .lt
  encodeRecord [(.ofLit "from", encodeStr (if swapped then target else source)),
    (.ofLit "to", encodeStr (if swapped then source else target)),
    (.ofLit "relation", encodeStrOr (edge.get (.ofLit "relation"))),
    (.ofLit "weight", encodeNumber weight),
    (.ofLit "directed", .ok [if directed then 0x02 else 0x01])]

/-- A rune's tags are a set. -/
def canonTags (tags : Option Json) : Except CanonicalError Bytes := do
  let tags ← encodeEach (fun t => encodeStrOr (some t)) (arrayItems tags)
  pure (encodeSet tags)

/-- `canon_rune`. -/
def canonRune (policy : SlicePolicy) (rune : Json) : Except CanonicalError Bytes :=
  let spirit := rune.get Key.spirit
  let id := strOr (get spirit Key.id) .empty
  if id.isEmpty then refuse "rune has no spirit.id"
  else
    encodeRecord ([
      (Key.spirit, encodeRecord [(Key.id, encodeStr id.bytes),
        (Key.name, encodeStrOr (get spirit Key.name))]),
      (Key.glyph, encodeStrOr (rune.get Key.glyph)),
      (Key.facets, encodeRecord (kFacets.map fun k =>
        (k, encodeStrOr (get (rune.get Key.facets) k)))),
      (Key.tags, canonTags (rune.get Key.tags)),
      (Key.content, encodeOr (rune.get Key.content) (.obj [])),
      (Key.relations, encodeOr (rune.get Key.relations) (.arr []))] ++
      if policy.includeView then [(Key.placement, asText (rune.get Key.placement))] else [])

/-- `canon_mantle`. -/
def canonMantle (policy : SlicePolicy) (mantle : Json) : Except CanonicalError Bytes :=
  let name := strOr (mantle.get Key.name) .empty
  if name.isEmpty then refuse "mantle has no name"
  else do
    let runes ← encodeEach (canonRune policy) (arrayItems (mantle.get Key.runes))
    let edges ← encodeEach canonEdge (arrayItems (get (mantle.get Key.layout) Key.edges))
    encodeRecord [
      (Key.id, encodeStrOr (mantle.get Key.id)),
      (Key.name, encodeStr name.bytes),
      (Key.domain, asText (mantle.get Key.domain)),
      (Key.runes, .ok (encodeSet runes)),
      (Key.tags, encodeOr (mantle.get Key.tags) (.obj [])),
      (Key.edges, .ok (encodeSet edges)),
      (Key.rules, encodeOr (mantle.get Key.rules) (.arr []))]

/-- The members of a declaration, less the peer-local `source`. -/
def descriptorFields : List (CString × Json) → Except CanonicalError (List (Bytes × Bytes))
  | [] => .ok []
  | (k, v) :: rest =>
    if k = Key.source then descriptorFields rest
    else do
      let v ← encode v
      let rest ← descriptorFields rest
      pure ((k.bytes, v) :: rest)

/-- `canon_glyph_descriptor`. -/
def canonGlyphDescriptor (descriptor : Json) : Except CanonicalError Bytes :=
  match descriptor with
  | .obj members => do
    let fields ← descriptorFields members
    encodeMapOfEncoded fields
  | _ => refuse "glyph declaration is not an object"

/-- The declarations of a state. -/
def declarations : List (CString × Json) → Except CanonicalError (List (Bytes × Bytes))
  | [] => .ok []
  | (k, g) :: rest => do
    let d ← canonGlyphDescriptor g
    let rest ← declarations rest
    pure ((k.bytes, d) :: rest)

/-- `canon_glyphs`: no declarations are the same as an empty map of them. -/
def canonGlyphs (state : Json) : Except CanonicalError Bytes :=
  match state.get Key.glyphs with
  | some (.obj members) => do
    let decls ← declarations members
    encodeMapOfEncoded decls
  | none => encodeMapOfEncoded []
  | some .null => encodeMapOfEncoded []
  | some _ => refuse "`glyphs` is present but is not an object"

/-- `canon_slice`: the mantles, as a set, and the declarations. -/
def canonSlice (state : Json) (policy : SlicePolicy) : Except CanonicalError Bytes := do
  let items := arrayItems (state.get Key.mantles)
  let mantles ← encodeEach (canonMantle policy) items
  let names := items.map fun m => (strOr (m.get Key.name) .empty).bytes
  if Sorting.adjacentEqual id (Sorting.sortOn id names) then refuse "duplicate mantle name"
  else
    let glyphs ← canonGlyphs state
    encodeMapOfEncoded [(lit "mantles", encodeSet mantles), (lit "glyphs", glyphs)]

end VoidPalabra
