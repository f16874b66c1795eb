import VoidPalabra.Flatten
import VoidPalabra.Digest

/-!
# Conflicts

A conflict is a register that holds more than one value and has no declared join,
or a thing that was removed on one device while it was edited on another.
-/

namespace VoidPalabra

/-- `ConflictKind`. -/
inductive ConflictKind where
  /-- Concurrent writes to one register survived. -/
  | values
  /-- A thing is gone, and something beneath it was edited without the removal
  having seen it. -/
  | deletedWhileEdited
  deriving DecidableEq

/-- `Conflict`. -/
structure Conflict where
  /-- What kind of conflict. -/
  kind : ConflictKind := .values
  /-- The mantle's name, empty for a glyph. -/
  mantle : Bytes := []
  /-- The rune's identity, empty for a field of a mantle. -/
  rune : Bytes := []
  /-- The glyph's name, empty for anything else. -/
  glyph : Bytes := []
  /-- The register. -/
  field : Bytes
  /-- Canonical value bytes, canonically ordered. -/
  sides : List Bytes
  deriving DecidableEq

mutual

/-- `collect_live_tags`: every live tag in every OR-set beneath a node. -/
def collectLiveTags (n : Json) (skipOwnPresent : Bool) : List Tag :=
  if isOrset n then (orsetFromJson (some n)).liveEntries.map Prod.fst
  else
    match n with
    | .obj members => collectLiveTagsBelow members skipOwnPresent
    | _ => []

/-- The loop over a map's children, which leaves the map's own `present` out when asked. -/
def collectLiveTagsBelow : List (CString × Json) → Bool → List Tag
  | [], _ => []
  | (k, v) :: rest, skipOwnPresent =>
    (if skipOwnPresent && k == Key.present then [] else collectLiveTags v false) ++
      collectLiveTagsBelow rest skipOwnPresent

end

/-- `alive`. -/
def alive (n : Json) : Bool := !(orsetFromJson (n.get Key.present)).isEmpty

/-- `raced_by_an_edit`: not present, once removed, and with a live tag beneath that no
removal saw. -/
def racedByAnEdit (n : Json) : Bool :=
  let present := orsetFromJson (n.get Key.present)
  if !present.isEmpty then false
  else if present.removes.isEmpty then false
  else (collectLiveTags n true).any fun tag => !present.removes.contains tag

/-- `deleted_conflict`. -/
def deletedConflict : Conflict where
  kind := .deletedWhileEdited
  field := lit "present"
  sides := Sorting.sortOn id [strBytes (lit "deleted"), strBytes (lit "kept")]

/-- The registers of a `fields` map that a policy leaves with more than one value. -/
def scanFields (fields : Option Json) (place : Conflict) (policy : JoinPolicy) : List Conflict :=
  (childMembers fields).flatMap fun f =>
    let l := resolve (some f.2) (policy.lookup f.1.bytes)
    if !l.conflicted then []
    else [{ place with field := f.1.bytes, sides := l.values }]

/-- The place of a conflict before its field is known. -/
def placeOf (mantle rune glyph : Bytes) : Conflict :=
  { mantle := mantle, rune := rune, glyph := glyph, field := [], sides := [] }

/-- What a thing that is not alive reports. -/
def deadConflicts (n : Json) (mantle rune glyph : Bytes) : List Conflict :=
  if racedByAnEdit n then
    [{ deletedConflict with mantle := mantle, rune := rune, glyph := glyph }]
  else []

/-- The conflicts of a rune. -/
def runeConflicts (policy : JoinPolicy) (mantle : Bytes) (r : CString × Json) : List Conflict :=
  if !alive r.2 then deadConflicts r.2 mantle r.1.bytes []
  else scanFields (r.2.get Key.fields) (placeOf mantle r.1.bytes []) policy

/-- The conflicts of a mantle; a removed mantle is reported once. -/
def mantleConflicts (policy : JoinPolicy) (m : CString × Json) : List Conflict :=
  if !alive m.2 then deadConflicts m.2 m.1.bytes [] []
  else
    scanFields (m.2.get Key.fields) (placeOf m.1.bytes [] []) policy ++
      (childMembers (m.2.get Key.runes)).flatMap (runeConflicts policy m.1.bytes)

/-- The conflicts of a glyph declaration. -/
def glyphConflicts (policy : JoinPolicy) (g : CString × Json) : List Conflict :=
  if !alive g.2 then deadConflicts g.2 [] [] g.1.bytes
  else scanFields (g.2.get Key.fields) (placeOf [] [] g.1.bytes) policy

/-- The order of a list of conflicts: by whether it has a glyph, then kind, glyph,
mantle, rune and field. -/
def Conflict.sortKey (c : Conflict) : List Bytes :=
  [if c.glyph.isEmpty then [1] else [0],
    match c.kind with
    | .values => [0]
    | .deletedWhileEdited => [1],
    c.glyph, c.mantle, c.rune, c.field]

/-- `conflicts`. -/
def conflicts (root : Json) (policy : JoinPolicy) : List Conflict :=
  Sorting.sortOn Conflict.sortKey
    ((childMembers (root.get Key.mantles)).flatMap (mantleConflicts policy) ++
      (childMembers (root.get Key.glyphs)).flatMap (glyphConflicts policy))

/-- `conflict_to_json`. -/
def conflictToJson (c : Conflict) : Json :=
  let place :=
    if !c.glyph.isEmpty then [(Key.glyph, Json.str (.ofBytes c.glyph))]
    else (.ofLit "mantle", .str (.ofBytes c.mantle)) ::
      if !c.rune.isEmpty then [(.ofLit "rune", .str (.ofBytes c.rune))] else []
  let kind : CString :=
    match c.kind with
    | .values => .ofLit "conflict"
    | .deletedWhileEdited => .ofLit "deleted_while_edited"
  .obj [(.ofLit "kind", .str kind),
    (.ofLit "at", .obj (place ++ [(.ofLit "field", .str (.ofBytes c.field))])),
    (.ofLit "sides", .arr (c.sides.map fun v => .obj [(.ofLit "value", (decode v).getD .null)]))]

/-- `Conflict::hash`. -/
def Conflict.hash (c : Conflict) : Except CanonicalError Bytes := do
  let bytes ← encode (conflictToJson c)
  pure (domainDigest "conflict" bytes [])

end VoidPalabra
