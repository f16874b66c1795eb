import VoidPalabra.Observe
import VoidPalabra.Validate

/-!
# A replica

One device's copy of the document with the identity it mints tags under and its
Lamport counter: creating and forking, observing, merging what a peer sent, and
settling a conflict.
-/

namespace VoidPalabra

/-! ### The tags of a tree -/

mutual

/-- `collect_all_tags`: every tag in a tree, added or retired. -/
def collectAllTags (n : Json) : List Tag :=
  if isOrset n then
    let s := orsetFromJson (some n)
    s.adds.keys ++ s.removes.toList
  else
    match n with
    | .obj members => collectAllTagsBelow members
    | _ => []

/-- The loop of `collect_all_tags` over a map's children. -/
def collectAllTagsBelow : List (CString × Json) → List Tag
  | [] => []
  | (_, v) :: rest => collectAllTags v ++ collectAllTagsBelow rest

end

/-- The tags of a tree in order and without repetition. -/
def allTags (n : Json) : NameSet := Std.ExtTreeSet.ofList (collectAllTags n) compare

mutual

/-- `collect_adds`: for every add, its tag and what it names, which is the path of its
set and its value. An add that is met later replaces one of the same tag. -/
def collectAdds (n : Json) (path : Bytes) (out : Dict Bytes) : Dict Bytes :=
  if isOrset n then
    (orsetFromJson (some n)).entries.foldl (fun out kv => out.insert kv.1 (path ++ 0 :: kv.2)) out
  else
    match n with
    | .obj members => collectAddsBelow members path out
    | _ => out

/-- The loop of `collect_adds` over a map's children. -/
def collectAddsBelow : List (CString × Json) → Bytes → Dict Bytes → Dict Bytes
  | [], _, out => out
  | (k, v) :: rest, path, out =>
    collectAddsBelow rest path (collectAdds v (path ++ 0x2F :: k.bytes) out)

end

/-- `own_counter`: the counter inside `<id>_<n>`. -/
def ownCounter (tag id : Bytes) : Option ℕ :=
  if tag.length ≤ id.length + 1 ∨ !id.isPrefixOf tag ∨ tag[id.length]? ≠ some 0x5F then none
  else readDecimal 0 (tag.drop (id.length + 1))

/-- `kLamportCeiling`. -/
def kLamportCeiling : ℕ := 2 ^ 40

/-- `highest_counter`: the largest counter any tag carries, up to the ceiling. -/
def highestCounter (n : Json) : ℕ :=
  (allTags n).toList.foldl (fun best t =>
    if (stampOf t.bytes).n ≤ kLamportCeiling ∧ best < (stampOf t.bytes).n then (stampOf t.bytes).n
    else best) 0

/-! ### Identity -/

/-- A character of a replica's identity. -/
def idChar (c : UInt8) : Bool :=
  (0x61 ≤ c && c ≤ 0x7A) || (0x41 ≤ c && c ≤ 0x5A) || (0x30 ≤ c && c ≤ 0x39) || c == 0x2D

/-- `valid_id`; the error is the text left in `why`. -/
def validId (id : CString) : Except Bytes Unit :=
  if id.bytes.length < 16 ∨ 128 < id.bytes.length then
    .error (lit "a replica id is 16 to 128 characters")
  else if !id.bytes.all idChar then .error (lit "a replica id is [A-Za-z0-9-] only")
  else .ok ()

/-- `empty_root`. -/
def emptyRoot : Json := .obj [(Key.palabra, .num Double.one), (Key.mantles, .obj [])]

/-- `Replica`. -/
structure Replica where
  /-- The identity tags are minted under. -/
  id : CString
  /-- The last counter a tag was minted with, or a later one. -/
  issued : ℕ
  /-- Moves whenever the document may have changed. -/
  revision : ℕ := 0
  /-- The document. -/
  doc : Json
  /-- How fields are read. -/
  policy : JoinPolicy := {}

/-- `MergeResult`, with the text left in `why`. -/
inductive MergeResult where
  /-- Merged. -/
  | ok
  /-- The document failed `validate`. -/
  | invalid (why : Bytes)
  /-- The document holds a tag of this replica's own that this replica did not mint so. -/
  | identityCollision (why : Bytes)
  deriving DecidableEq

/-- What a successful observation returns. -/
structure Observed where
  /-- Registers and sets touched. -/
  changes : ℕ
  /-- Exactly those changes. -/
  delta : Json

namespace Replica

/-- `Replica::create`. -/
def create (id : CString) : Except Bytes Replica := do
  validId id
  pure { id := id, issued := 0, doc := emptyRoot }

/-- `Replica::fork`. -/
def fork (r : Replica) (newId : CString) : Except Bytes Replica := do
  validId newId
  if newId = r.id then
    .error (lit "a fork needs a NEW id; reusing this one is the failure it prevents")
  else
    pure { id := newId, issued := highestCounter r.doc, doc := r.doc, policy := r.policy }

/-- `set_policy`. -/
def setPolicy (r : Replica) (policy : JoinPolicy) : Replica := { r with policy := policy }

/-- The author of this replica's edits. -/
def author (r : Replica) : Author := ⟨r.id, r.policy⟩

/-- The editor that a local change starts with. -/
def editor (r : Replica) : Editor where
  work := r.doc
  delta := .obj [(Key.palabra, .num Double.one)]
  issued := r.issued
  changes := 0
  log := []

/-- `Replica::observe`: a failure leaves everything but the counter. -/
def observe (r : Replica) (state : Option Json) : Except CanonicalError Observed × Replica :=
  match observeInto r.author state r.editor with
  | (.ok (), e) =>
    (.ok ⟨e.changes, e.delta⟩,
      { r with
        issued := e.issued
        doc := e.work
        revision := if e.changes = 0 then r.revision else r.revision + 1 })
  | (.error c, e) => (.error c, { r with issued := e.issued })

/-- The reason a tag of this replica's own is refused, if it is. -/
def collision (mine : NameSet) (myAdds theirAdds : Dict Bytes) (tag : Tag) : Option Bytes :=
  if !mine.contains tag then
    some (lit "was minted under this replica's id and this replica has no record of it " ++
      lit "(restored from an older copy, or crashed after sending)")
  else
    match theirAdds[tag]? with
    | some named =>
      if myAdds[tag]? = some named then none
      else some (lit "names something different here and there " ++ [0xE2, 0x80, 0x94] ++
        lit " another device is minting under this replica's id")
    | none => none

/-- The loop of `merge` over the tags of the other document. -/
def firstCollision (id : CString) (mine : NameSet) (myAdds theirAdds : Dict Bytes) :
    List Tag → Option Bytes
  | [] => none
  | tag :: rest =>
    if (ownCounter tag.bytes id.bytes).isNone then firstCollision id mine myAdds theirAdds rest
    else
      match collision mine myAdds theirAdds tag with
      | some problem =>
        some (lit "tag " ++ tag.bytes ++ lit " " ++ problem ++ lit ". Fork to a new id.")
      | none => firstCollision id mine myAdds theirAdds rest

/-- `Replica::merge`. -/
def merge (r : Replica) (remote : Json) : MergeResult × Replica :=
  match validate remote with
  | .error why => (.invalid why, r)
  | .ok () =>
    match firstCollision r.id (allTags r.doc) (collectAdds r.doc [] ∅) (collectAdds remote [] ∅)
        (allTags remote).toList with
    | some why => (.identityCollision why, r)
    | none =>
      (.ok, { r with
        doc := joinNode r.doc remote
        issued := max r.issued (highestCounter remote)
        revision := r.revision + 1 })

/-- `Replica::flatten`. -/
def flatten (r : Replica) : Json := VoidPalabra.flatten r.doc r.policy

/-- `Replica::conflicts`. -/
def conflicts (r : Replica) : List Conflict := VoidPalabra.conflicts r.doc r.policy

end Replica

/-- `locate`. -/
def locate (c : Conflict) : Path :=
  if !c.glyph.isEmpty then [Key.glyphs, .ofBytes c.glyph]
  else if !c.rune.isEmpty then [Key.mantles, .ofBytes c.mantle, Key.runes, .ofBytes c.rune]
  else [Key.mantles, .ofBytes c.mantle]

/-- The search for a conflict of a given name; it stops at the first one that has it. -/
def isCurrent (wanted : Bytes) : List Conflict → Except CanonicalError Bool
  | [] => .ok false
  | c :: rest => do
    let h ← c.hash
    if h = wanted then pure true else isCurrent wanted rest

/-- The edit that settles a conflict, and whether the chosen side is one that can be. -/
def settle (a : Author) (c : Conflict) (side : Bytes) : EditM Bool :=
  match c.kind with
  | .values => do
    let p := locate c ++ [Key.fields, .ofBytes c.field]
    let e ← EditM.current
    let t ← mint a
    storeAt p (e.load p) ((e.load p).write t side) .overwrite
    pure true
  | .deletedWhileEdited =>
    let what := strOr (decode side) .empty
    if what = .ofLit "kept" then do
      makePresent a (locate c) (if c.glyph.isEmpty then lit "1" else [])
      pure true
    else if what = .ofLit "deleted" then do
      removeThing (locate c) true
      pure true
    else pure false

namespace Replica

/-- `Replica::resolve`: the delta, when the conflict still is as it was given. -/
def resolve (r : Replica) (c : Conflict) (side : ℕ) :
    Except CanonicalError (Option Json) × Replica :=
  match c.sides[side]? with
  | none => (.ok none, r)
  | some chosen =>
    let current := do
      let wanted ← c.hash
      isCurrent wanted r.conflicts
    match current with
    | .error e => (.error e, r)
    | .ok false => (.ok none, r)
    | .ok true =>
      match settle r.author c chosen r.editor with
      | (.ok true, e) =>
        (.ok (some e.delta), { r with issued := e.issued, doc := e.work, revision := r.revision + 1 })
      | (.ok false, _) => (.ok none, r)
      | (.error c, _) => (.error c, r)

end Replica

end VoidPalabra
