import VoidPalabra.Bindings
import VoidPalabra.Flatten
import VoidPalabra.Digest

/-!
# What a document names but does not contain

Which fields of a state hold addresses is declared, and so is how they are found. The
references of a state are collected field by field, and bytes deserve an address when their
digest is written like it.
-/

namespace VoidPalabra

/-- `AddressFinder`: the addresses inside one field value. An empty function finds nothing. -/
abbrev AddressFinder := Option (Json → List Bytes)

/-- `lower_hex`. -/
def lowerHex (c : UInt8) : Bool := (0x30 ≤ c && c ≤ 0x39) || (0x61 ≤ c && c ≤ 0x66)

/-- The loop of `hex_runs`, with the run that is being read. -/
def hexRuns : Bytes → Bytes → List Bytes
  | run, [] => if run.length = 64 then [run] else []
  | run, c :: rest =>
    if lowerHex c then hexRuns (run ++ [c]) rest
    else (if run.length = 64 then [run] else []) ++ hexRuns [] rest

mutual

/-- `walk_strings`. -/
def walkStrings : Json → List Bytes
  | .str s => hexRuns [] s.bytes
  | .arr items => walkItems items
  | .obj members => walkMembers members
  | _ => []

/-- The children of an array. -/
def walkItems : List Json → List Bytes
  | [] => []
  | v :: rest => walkStrings v ++ walkItems rest

/-- The children of an object. -/
def walkMembers : List (CString × Json) → List Bytes
  | [] => []
  | (_, v) :: rest => walkStrings v ++ walkMembers rest

end

/-- `sha256_hex_anywhere`. -/
def sha256HexAnywhere : AddressFinder := some walkStrings

/-- `ReferencePolicy`. -/
structure ReferencePolicy where
  /-- Field name, or a prefix ending in `*`, to how its addresses are found. -/
  fields : Std.ExtTreeMap Bytes AddressFinder compare := ∅

namespace ReferencePolicy

/-- One round of the prefix loop of `lookup`; the prefix kept so far comes with its length. -/
def prefixStep (field : Bytes) (best : Option (ℕ × AddressFinder)) (kv : Bytes × AddressFinder) :
    Option (ℕ × AddressFinder) :=
  if kv.1.length < 2 ∨ kv.1.getLast? ≠ some 0x2A then best
  else if !kv.1.dropLast.isPrefixOf field then best
  else
    match best with
    | none => some (kv.1.dropLast.length, kv.2)
    | some (n, find) =>
      if n < kv.1.dropLast.length then some (kv.1.dropLast.length, kv.2) else some (n, find)

/-- `ReferencePolicy::lookup`. -/
def lookup (p : ReferencePolicy) (field : Bytes) : Option AddressFinder :=
  match p.fields[field]? with
  | some find => some find
  | none => (p.fields.toList.foldl (prefixStep field) none).map Prod.snd

end ReferencePolicy

/-- `Reference`: one place where an address is named. -/
structure Reference where
  /-- The address. -/
  address : Bytes
  /-- The mantle's name, empty for a declaration. -/
  mantle : Bytes
  /-- The rune's identity, empty for a member of a mantle. -/
  rune : Bytes
  /-- The glyph's name, empty for anything else. -/
  glyph : Bytes
  /-- The field. -/
  field : Bytes
  deriving DecidableEq

/-- The order of references. -/
def Reference.sortKey (r : Reference) : List Bytes := [r.address, r.mantle, r.rune, r.glyph, r.field]

/-- `Collector::field`. -/
def collectField (policy : ReferencePolicy) (name : Bytes) (value : Option Json)
    (mantle rune glyph : Bytes) : List Reference :=
  match value, policy.lookup name with
  | some v, some (some find) =>
    (sortUnique (find v)).map fun a =>
      { address := a, mantle := mantle, rune := rune, glyph := glyph, field := name }
  | _, _ => []

/-- The references of a rune. -/
def runeReferences (policy : ReferencePolicy) (mantle : Bytes) (r : Json) : List Reference :=
  let id := (strOr (get (r.get Key.spirit) Key.id) .empty).bytes
  (childMembers (r.get Key.content)).flatMap (fun k =>
      collectField policy (Key.contentDot.bytes ++ k.1.bytes) (some k.2) mantle id []) ++
    collectField policy (lit "placement") (r.get Key.placement) mantle id [] ++
    collectField policy (lit "relations") (r.get Key.relations) mantle id [] ++
    collectField policy (lit "tags") (r.get Key.tags) mantle id []

/-- The references of a mantle. -/
def mantleReferences (policy : ReferencePolicy) (m : Json) : List Reference :=
  let name := (strOr (m.get Key.name) .empty).bytes
  collectField policy (lit "mantle.tags") (m.get Key.tags) name [] [] ++
    collectField policy (lit "mantle.rules") (m.get Key.rules) name [] [] ++
    (arrayItems (m.get Key.runes)).flatMap (runeReferences policy name)

/-- `references`. -/
def references (state : Json) (policy : ReferencePolicy) : List Reference :=
  Sorting.sortOn Reference.sortKey
    ((arrayItems (state.get Key.mantles)).flatMap (mantleReferences policy) ++
      (childMembers (state.get Key.glyphs)).flatMap fun g =>
        collectField policy (lit "descriptor") (some g.2) [] [] g.1.bytes)

/-- `is_hex_digest`. -/
def isHexDigest (a : Bytes) : Bool := a.length == 64 && a.all lowerHex

/-- `content_matches`. -/
def contentMatches (address bytes : Bytes) : Bool :=
  isHexDigest address && hexBytes (sha256 bytes) == address

end VoidPalabra
