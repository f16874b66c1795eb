import VoidPalabra.CanonDoc

/-!
# The door a document comes through

`validate` refuses a document whole, with the path and the reason of the first
thing that is out of place.
-/

namespace VoidPalabra

/-- `Check::fail`: the path and the reason. -/
def Check.fail (path : Bytes) (reason : String) : Except Bytes Unit :=
  .error (path ++ lit ": " ++ lit reason)

/-- A test with the reason for refusing. -/
def Check.demand (holds : Bool) (path : Bytes) (reason : String) : Except Bytes Unit :=
  if holds then pure () else Check.fail path reason

/-- A check that is made only under a condition. -/
def Check.onlyIf (c : Bool) (check : Except Bytes Unit) : Except Bytes Unit :=
  if c then check else pure ()

/-- A check of a member that may be missing. -/
def Check.present (n : Json) (k : CString) (check : Json → Except Bytes Unit) :
    Except Bytes Unit :=
  match n.get k with
  | some v => check v
  | none => pure ()

/-- `Values`: which values an OR-set may hold. -/
inductive Values where
  /-- Any bytes. -/
  | any
  /-- Canonical forms. -/
  | canonical
  deriving DecidableEq

/-- The loop of `no_duplicates`. -/
def noDuplicatesLoop (path : Bytes) (seen : NameSet) :
    List (CString × Json) → Except Bytes Unit
  | [] => .ok ()
  | (k, _) :: rest =>
    if seen.contains k then Check.fail (path ++ lit "." ++ k.bytes) "member named twice"
    else noDuplicatesLoop path (seen.insert k) rest

/-- `no_duplicates`. -/
def noDuplicates (n : Json) (path : Bytes) : Except Bytes Unit :=
  noDuplicatesLoop path ∅ n.members

/-- `check_orset`. -/
def checkOrset (n : Json) (path : Bytes) (rule : Values) : Except Bytes Unit := do
  Check.onlyIf n.isObject (noDuplicates n path)
  Check.present n Key.a fun a => Check.onlyIf a.isObject (noDuplicates a (path ++ lit ".a"))
  Check.demand (orsetJsonWellFormed n) path
    "not an OrSet (\x7b\"a\": \x7btag: lowercase hex\x7d, \"r\": [tag]\x7d)"
  Check.onlyIf (rule == .canonical) <| (orsetFromJson (some n)).entries.forM fun kv =>
    Check.demand (isCanonical kv.2) (path ++ lit ".a." ++ kv.1.bytes)
      "value is not in canonical form"

/-- `check_name`, of a node with its name. -/
def checkName (k : CString) (path : Bytes) : Except Bytes Unit :=
  Check.demand (!k.isEmpty) path "empty name"

/-- `kRuneFixed`. -/
def kRuneFixed : List CString := [Key.spiritName, Key.glyph, Key.placement, Key.relations]

/-- `rune_field_allowed`. -/
def runeFieldAllowed (k : CString) : Bool :=
  if kRuneFixed.contains k then true
  else if k.startsWith Key.facetsDot then kFacets.contains (k.drop 7)
  else k.startsWith Key.contentDot && !(k.drop 8).isEmpty

/-- `mantle_field_allowed`. -/
def mantleFieldAllowed (k : CString) : Bool :=
  if k = Key.id ∨ k = Key.domain ∨ k = Key.rules then true
  else k.startsWith Key.tagsDot && !(k.drop 5).isEmpty

/-- `check_members`. -/
def checkMembers (n : Json) (path : Bytes) (allowed : CString → Bool) : Except Bytes Unit := do
  Check.demand n.isObject path "expected an object"
  noDuplicates n path
  n.members.forM fun m =>
    Check.demand (allowed m.1) (path ++ lit "." ++ m.1.bytes) "member not allowed here"

/-- The body `fields_of_rune` and `fields_of_mantle` share. -/
def fieldsOf (allowed : CString → Bool) (f : Json) (path : Bytes) : Except Bytes Unit := do
  checkMembers f path allowed
  f.members.forM fun m => checkOrset m.2 (path ++ lit "." ++ m.1.bytes) .canonical

/-- `fields_of_rune`. -/
def fieldsOfRune (f : Json) (path : Bytes) : Except Bytes Unit := fieldsOf runeFieldAllowed f path

/-- `fields_of_mantle`. -/
def fieldsOfMantle (f : Json) (path : Bytes) : Except Bytes Unit :=
  fieldsOf mantleFieldAllowed f path

/-- `is_rune_member`. -/
def isRuneMember (k : CString) : Bool := k == Key.present || k == Key.fields || k == Key.tags

/-- `is_mantle_member`. -/
def isMantleMember (k : CString) : Bool :=
  k == Key.present || k == Key.fields || k == Key.runes || k == Key.edges

/-- `is_glyph_member`. -/
def isGlyphMember (k : CString) : Bool := k == Key.present || k == Key.fields

/-- `is_glyph_field`. -/
def isGlyphField (k : CString) : Bool := k == Key.descriptor

/-- `is_root_member`. -/
def isRootMember (k : CString) : Bool := k == Key.palabra || k == Key.mantles || k == Key.glyphs

/-- `check_rune`. -/
def checkRune (name : CString) (r : Json) (path : Bytes) : Except Bytes Unit := do
  checkName name path
  checkMembers r path isRuneMember
  Check.present r Key.present fun p => checkOrset p (path ++ lit ".present") .any
  Check.present r Key.fields fun f => fieldsOfRune f (path ++ lit ".fields")
  Check.present r Key.tags fun t => checkOrset t (path ++ lit ".tags") .canonical

/-- A map of named things: an object without duplicates, and each thing checked. -/
def checkNamed (n : Json) (path : Bytes) (check : CString → Json → Bytes → Except Bytes Unit) :
    Except Bytes Unit := do
  Check.demand n.isObject path "expected an object"
  noDuplicates n path
  n.members.forM fun m => check m.1 m.2 (path ++ lit "." ++ m.1.bytes)

/-- `check_mantle`. -/
def checkMantle (name : CString) (m : Json) (path : Bytes) : Except Bytes Unit := do
  checkName name path
  checkMembers m path isMantleMember
  Check.present m Key.present fun p => checkOrset p (path ++ lit ".present") .any
  Check.present m Key.fields fun f => fieldsOfMantle f (path ++ lit ".fields")
  Check.present m Key.edges fun e => checkOrset e (path ++ lit ".edges") .canonical
  Check.present m Key.runes fun rs => checkNamed rs (path ++ lit ".runes") checkRune

/-- The check of a glyph's `descriptor`: a declaration is a map. -/
def checkDescriptor (d : Json) (path : Bytes) : Except Bytes Unit := do
  checkOrset d path .canonical
  (orsetFromJson (some d)).entries.forM fun kv =>
    Check.demand (kv.2.head? == some 0x08) (path ++ lit ".a." ++ kv.1.bytes)
      "a declaration must be a map"

/-- `check_glyph`. -/
def checkGlyph (name : CString) (g : Json) (path : Bytes) : Except Bytes Unit := do
  checkName name path
  checkMembers g path isGlyphMember
  Check.present g Key.present fun p => checkOrset p (path ++ lit ".present") .any
  Check.present g Key.fields fun f => do
    checkMembers f (path ++ lit ".fields") isGlyphField
    Check.present f Key.descriptor fun d => checkDescriptor d (path ++ lit ".fields.descriptor")

/-- The test of the document shape. -/
def readsShapeOne (root : Json) : Bool :=
  match root.get Key.palabra with
  | some (.num d) => d.eq Double.one
  | _ => false

/-- `validate` of a document that is there; the error is the text left in `why`. -/
def validate (root : Json) : Except Bytes Unit := do
  Check.demand root.isObject (lit "$") "a document is an object"
  checkMembers root (lit "$") isRootMember
  Check.demand (readsShapeOne root) (lit "$.palabra")
    "this implementation reads document shape 1"
  Check.present root Key.mantles fun ms => checkNamed ms (lit "$.mantles") checkMantle
  Check.present root Key.glyphs fun gs => checkNamed gs (lit "$.glyphs") checkGlyph

end VoidPalabra
