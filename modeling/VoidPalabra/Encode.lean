import VoidPalabra.Json
import VoidPalabra.Sorting

/-!
# Values to canonical bytes

The encoder of `encode.cpp`: every value is a tag byte and a payload, a length or
a count is a varint, and the members of a map are sorted by their encoded keys.
Encoding refuses text that is not UTF-8, numbers that are not finite and objects
that name a member twice.
-/

namespace VoidPalabra

/-- `CanonicalError`, with the text it carries. -/
structure CanonicalError where
  /-- `what()`. -/
  what : Bytes
  deriving DecidableEq

/-- `throw CanonicalError("...")`. -/
def refuse {α : Type} (what : String) : Except CanonicalError α := .error ⟨lit what⟩

/-- A UTF-8 continuation byte. -/
def isContinuation (c : UInt8) : Bool := c &&& 0xC0 == 0x80

/-- A code point that a sequence of the given least value may spell: no overlong
form, nothing past the last code point and no surrogate. -/
def codePointAllowed (least cp : ℕ) : Bool :=
  decide (least ≤ cp) && decide (cp ≤ 0x10FFFF) && !(decide (0xD800 ≤ cp) && decide (cp ≤ 0xDFFF))

/-- The six payload bits of a continuation byte. -/
def low6 (c : UInt8) : ℕ := c.toNat % 64

/-- `valid_utf8`. -/
def validUtf8 : Bytes → Bool
  | [] => true
  | c :: rest =>
    if c < 0x80 then validUtf8 rest
    else if c &&& 0xE0 == 0xC0 then
      match rest with
      | c1 :: rest =>
        isContinuation c1 && codePointAllowed 0x80 (c.toNat % 32 * 64 + low6 c1) && validUtf8 rest
      | _ => false
    else if c &&& 0xF0 == 0xE0 then
      match rest with
      | c1 :: c2 :: rest =>
        isContinuation c1 && isContinuation c2 &&
          codePointAllowed 0x800 ((c.toNat % 16 * 64 + low6 c1) * 64 + low6 c2) && validUtf8 rest
      | _ => false
    else if c &&& 0xF8 == 0xF0 then
      match rest with
      | c1 :: c2 :: c3 :: rest =>
        isContinuation c1 && isContinuation c2 && isContinuation c3 &&
          codePointAllowed 0x10000
            (((c.toNat % 8 * 64 + low6 c1) * 64 + low6 c2) * 64 + low6 c3) && validUtf8 rest
      | _ => false
    else false

/-- The varint loop with a bound on its rounds. -/
def putUvarintLoop : ℕ → ℕ → Bytes
  | 0, n => [(n % 128).toUInt8]
  | fuel + 1, n =>
    if n < 128 then [n.toUInt8] else (n % 128 + 128).toUInt8 :: putUvarintLoop fuel (n / 128)

/-- `put_uvarint`: seven bits a byte, low bits first, the high bit set on all but
the last byte. -/
def putUvarint (n : ℕ) : Bytes := putUvarintLoop n n

/-- `zigzag`: the sign goes to the lowest bit. -/
def zigzag (n : ℤ) : ℕ := if n < 0 then 2 * n.natAbs - 1 else 2 * n.natAbs

/-- `encode_str` without its check. -/
def strBytes (s : Bytes) : Bytes := 0x05 :: putUvarint s.length ++ s

/-- `encode_str`. -/
def encodeStr (s : Bytes) : Except CanonicalError Bytes :=
  if validUtf8 s then .ok (strBytes s) else refuse "string is not valid UTF-8"

/-- `encode_int`. -/
def encodeInt (n : ℤ) : Bytes := 0x03 :: putUvarint (zigzag n)

/-- The eight bytes of a double, most significant first. -/
def bigEndian (w : UInt64) : Bytes :=
  [7, 6, 5, 4, 3, 2, 1, 0].map fun i => (w.toNat / 256 ^ i).toUInt8

/-- `encode_number`: a whole number below 2^53 is encoded as an integer. -/
def encodeNumber (d : Double) : Except CanonicalError Bytes :=
  if d.isNan || d.isInf then refuse "NaN and infinity have no canonical form"
  else
    match d.whole? with
    | some n => .ok (encodeInt n)
    | none => .ok (0x04 :: bigEndian d.bits)

/-- `encode_seq`. -/
def encodeSeq (items : List Bytes) : Bytes := 0x07 :: putUvarint items.length ++ items.flatten

/-- `encode_set`: sorted, repetitions dropped. -/
def encodeSet (items : List Bytes) : Bytes :=
  0x09 :: putUvarint (sortUnique items).length ++ (sortUnique items).flatten

/-- The pairs sorted by key. -/
def sortPairs (pairs : List (Bytes × Bytes)) : List (Bytes × Bytes) := Sorting.sortOn Prod.fst pairs

/-- The bytes of a map whose pairs are already sorted. -/
def mapBytes (pairs : List (Bytes × Bytes)) : Bytes :=
  0x08 :: putUvarint pairs.length ++ pairs.flatMap fun kv => kv.1 ++ kv.2

/-- `encode_map`. -/
def encodeMap (pairs : List (Bytes × Bytes)) : Except CanonicalError Bytes :=
  if Sorting.adjacentEqual Prod.fst (sortPairs pairs) then refuse "duplicate object key"
  else .ok (mapBytes (sortPairs pairs))

/-- The key loop of `encode_map_of_encoded`. -/
def encodeKeys : List (Bytes × Bytes) → Except CanonicalError (List (Bytes × Bytes))
  | [] => .ok []
  | (k, v) :: rest => do
    let k ← encodeStr k
    let rest ← encodeKeys rest
    pure ((k, v) :: rest)

/-- `encode_map_of_encoded`, which does not look for a key named twice. The order
that `std::sort` leaves open among equal keys is the given one here. -/
def encodeMapOfEncoded (fields : List (Bytes × Bytes)) : Except CanonicalError Bytes := do
  let pairs ← encodeKeys fields
  pure (mapBytes (sortPairs pairs))

mutual

/-- `encode`. -/
def encode : Json → Except CanonicalError Bytes
  | .null => .ok [0x00]
  | .bool b => .ok [if b then 0x02 else 0x01]
  | .num d => encodeNumber d
  | .str s => encodeStr s.bytes
  | .arr items => do
    let items ← encodeItems items
    pure (encodeSeq items)
  | .obj members => do
    let pairs ← encodeMembers members
    encodeMap pairs

/-- The items of an array, encoded. -/
def encodeItems : List Json → Except CanonicalError (List Bytes)
  | [] => .ok []
  | v :: rest => do
    let v ← encode v
    let rest ← encodeItems rest
    pure (v :: rest)

/-- The members of an object with encoded keys and values. -/
def encodeMembers : List (CString × Json) → Except CanonicalError (List (Bytes × Bytes))
  | [] => .ok []
  | (k, v) :: rest => do
    let k ← encodeStr k.bytes
    let v ← encode v
    let rest ← encodeMembers rest
    pure ((k, v) :: rest)

end

/-- `as_text`: a missing value is encoded as `null`. -/
def asText (v : Option Json) : Except CanonicalError Bytes := encode (v.getD .null)

example : encode (.obj [(Key.r, .arr []), (Key.a, .num Double.one)]) =
    .ok [8, 2, 5, 1, 97, 3, 2, 5, 1, 114, 7, 0] := by decide +kernel

end VoidPalabra
