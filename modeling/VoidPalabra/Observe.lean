import VoidPalabra.Editor
import VoidPalabra.Bindings

/-!
# Observing a state

The traversal of `observe`: a state is compared with what the document shows, field
by field and set by set, and only the difference is edited in. Things that are shown
and absent from the state are removed at the end of each level.
-/

namespace VoidPalabra

/-- The values of a node's children, whatever kind of node it is. -/
def childValues (n : Option Json) : List Json :=
  match n with
  | some v => v.child.map Prod.snd
  | none => []

/-- A loop of edits over a list. -/
def EditM.each {α : Type} (f : α → EditM Unit) : List α → EditM Unit
  | [] => pure ()
  | x :: rest => do
    f x
    EditM.each f rest

/-- A list of values, encoded. -/
def asTexts : List Json → Except CanonicalError (List Bytes)
  | [] => .ok []
  | v :: rest => do
    let v ← asText (some v)
    let rest ← asTexts rest
    pure (v :: rest)

/-- `shown_with_prefix`: the fields that start with a prefix and still show a value. -/
def shownWithPrefix (e : Editor) (fields : Path) (pre : CString) : List CString :=
  ((childMembers (e.node fields)).filter fun m =>
    m.1.startsWith pre && !(liveOf (some m.2)).values.isEmpty).map Prod.fst

/-- `non_default`: a missing value and an empty list are the default. -/
def nonDefault (v : Option Json) : Option Json :=
  match v with
  | some (.arr []) => none
  | v => v

section

variable (a : Author)

/-- One member of a keyed object; a member without a name is passed over. -/
def keyedField (fields : Path) (pre : CString) (m : CString × Json) : EditM Unit :=
  if m.1.isEmpty then pure ()
  else do
    let bytes ← EditM.lift (asText (some m.2))
    syncRegister a (fields ++ [pre ++ m.1]) (pre ++ m.1) (some bytes)

/-- The registers that a keyed object's members have. -/
def keyedNames (pre : CString) (object : List (CString × Json)) : List CString :=
  (object.filter fun m => !m.1.isEmpty).map fun m => pre ++ m.1

/-- `keyed_fields`: every member has a register of its own, and a register that is
shown and has no member is cleared. -/
def keyedFields (fields : Path) (pre : CString) (object : List (CString × Json)) : EditM Unit := do
  EditM.each (keyedField a fields pre) object
  let e ← EditM.current
  let gone := (shownWithPrefix e fields pre).filter fun name =>
    !(keyedNames pre object).contains name
  EditM.each (fun name => syncRegister a (fields ++ [name]) name none) gone

/-- `optional_field`. -/
def optionalField (fields : Path) (name : CString) (v : Option Json) : EditM Unit :=
  match nonDefault v with
  | some nd => do
    let bytes ← EditM.lift (asText (some nd))
    syncRegister a (fields ++ [name]) name (some bytes)
  | none => syncRegister a (fields ++ [name]) name none

/-- `fixed_field`: a missing value is `null`. -/
def fixedField (fields : Path) (name : CString) (v : Option Json) : EditM Unit := do
  let bytes ← EditM.lift (asText v)
  syncRegister a (fields ++ [name]) name (some bytes)

/-- A set of encoded values, in order and without repetition. -/
def syncValues (p : Path) (values : List Json) : EditM Unit := do
  let want ← EditM.lift (asTexts values)
  syncSet a p (sortUnique want)

/-- `observe_rune`. -/
def observeRune (base : Path) (r : Json) : EditM Unit := do
  makePresent a base (lit "1")
  let fields := base ++ [Key.fields]
  fixedField a fields Key.spiritName (get (r.get Key.spirit) Key.name)
  fixedField a fields Key.glyph (r.get Key.glyph)
  EditM.each (fun k => fixedField a fields (Key.facetsDot ++ k) (get (r.get Key.facets) k)) kFacets
  fixedField a fields Key.placement (r.get Key.placement)
  optionalField a fields Key.relations (r.get Key.relations)
  let content := r.get Key.content
  if content.any fun c => !c.isObject then EditM.refuse (lit "rune content is not an object")
  else
    keyedFields a fields Key.contentDot (childMembers content)
    syncValues a (base ++ [Key.tags]) (childValues (r.get Key.tags))

/-- Things by name, each of which has to have one and have it alone. -/
def gather (nameOf : Json → Option CString) (missing duplicate : String) :
    List Json → Dict Json → Except CanonicalError (Dict Json)
  | [], out => .ok out
  | v :: rest, out =>
    match nameOf v with
    | none => refuse missing
    | some k =>
      if k.isEmpty then refuse missing
      else if out.contains k then .error ⟨lit duplicate ++ k.bytes⟩
      else gather nameOf missing duplicate rest (out.insert k v)

/-- The name of a mantle of a state. -/
def mantleName (m : Json) : Option CString := (m.get Key.name).bind Json.string?

/-- The identity of a rune of a state. -/
def runeId (r : Json) : Option CString := (get (r.get Key.spirit) Key.id).bind Json.string?

/-- Remove what is shown beneath a map and is not among the observed names. -/
def removeGone (base : Path) (observed : CString → Bool) : EditM Unit := do
  let e ← EditM.current
  let gone := ((childMembers (e.node base)).filter fun m =>
    !observed m.1 && e.live (base ++ [m.1])).map Prod.fst
  EditM.each (fun name => removeThing (base ++ [name]) false) gone

/-- `observe_mantle`. -/
def observeMantle (base : Path) (m : Json) : EditM Unit := do
  makePresent a base (lit "1")
  let fields := base ++ [Key.fields]
  fixedField a fields Key.id (m.get Key.id)
  fixedField a fields Key.domain (m.get Key.domain)
  let mtags := m.get Key.tags
  if mtags.any fun t => !t.isObject && !t.isNull then
    EditM.refuse (lit "mantle tags are not an object")
  else
    keyedFields a fields Key.tagsDot (childMembers mtags)
    optionalField a fields Key.rules (m.get Key.rules)
    let runes ← EditM.lift (gather runeId "a rune has no spirit.id" "duplicate rune id "
      (childValues (m.get Key.runes)) ∅)
    EditM.each (fun r => observeRune a (base ++ [Key.runes, r.1]) r.2) runes.toList
    removeGone (base ++ [Key.runes]) runes.contains
    syncValues a (base ++ [Key.edges]) (childValues (get (m.get Key.layout) Key.edges))

/-- The declarations of a state by name, encoded; a later one under a name replaces an
earlier one. -/
def gatherGlyphs : List (CString × Json) → Dict Bytes → Except CanonicalError (Dict Bytes)
  | [], out => .ok out
  | (k, g) :: rest, out =>
    if k.isEmpty then refuse "a glyph declaration has no name"
    else do
      let d ← canonGlyphDescriptor g
      gatherGlyphs rest (out.insert k d)

/-- One glyph declaration. -/
def observeGlyph (base : Path) (descriptor : Bytes) : EditM Unit := do
  makePresent a base []
  syncRegister a (base ++ [Key.fields, Key.descriptor]) Key.descriptor (some descriptor)

/-- `observe_into`. -/
def observeInto (state : Option Json) : EditM Unit :=
  match state with
  | some (.obj members) => do
    let marr := Json.lookup Key.mantles members
    if marr.any fun m => !m.isArray then EditM.refuse (lit "`mantles` is not an array")
    else
      let mantles ← EditM.lift (gather mantleName "a mantle has no name" "duplicate mantle name "
        (childValues marr) ∅)
      EditM.each (fun m => observeMantle a [Key.mantles, m.1] m.2) mantles.toList
      removeGone [Key.mantles] mantles.contains
      let gobj := Json.lookup Key.glyphs members
      if gobj.any fun g => !g.isObject && !g.isNull then
        EditM.refuse (lit "`glyphs` is present but is not an object")
      else
        let glyphs ← EditM.lift (gatherGlyphs (childMembers gobj) ∅)
        EditM.each (fun g => observeGlyph a [Key.glyphs, g.1] g.2) glyphs.toList
        removeGone [Key.glyphs] glyphs.contains
  | _ => EditM.refuse (lit "a state document is an object")

end

end VoidPalabra
