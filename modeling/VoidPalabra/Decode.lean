import VoidPalabra.Encode

/-!
# Canonical bytes to a value

The decoder of `decode.cpp`. Its position in the input is the list of bytes that
are left. A count is checked against what is left before anything is read, and
nesting is bounded by the same limit cJSON's parser has.
-/

namespace VoidPalabra

/-- `CJSON_NESTING_LIMIT`. -/
def nestingLimit : ℕ := 1000

/-- The loop of `read_varint` with the number of bytes it may still read; the last
of the ten may carry one bit only. -/
def readVarintLoop : ℕ → ℕ → ℕ → Bytes → Option (ℕ × Bytes)
  | 0, _, _, _ => none
  | _ + 1, _, _, [] => none
  | left + 1, shift, v, c :: rest =>
    if left = 0 ∧ 1 < c then none
    else if c < 0x80 then some (v + c.toNat % 128 * 2 ^ shift, rest)
    else readVarintLoop left (shift + 7) (v + c.toNat % 128 * 2 ^ shift) rest

/-- `read_varint`. -/
def readVarint (b : Bytes) : Option (ℕ × Bytes) := readVarintLoop 10 0 0 b

/-- The sign back from the lowest bit. -/
def unzigzag (z : ℕ) : ℤ := if z % 2 = 0 then (z / 2 : ℕ) else -((z / 2 : ℕ) : ℤ) - 1

/-- Eight bytes as a word, most significant first. -/
def readWord (b : Bytes) : UInt64 :=
  (b.foldl (fun (w : ℕ) (c : UInt8) => w * 256 + c.toNat) 0).toUInt64

/-- A loop that reads `n` things one after another. -/
def readMany {α : Type} (read : Bytes → Option (α × Bytes)) :
    ℕ → Bytes → Option (List α × Bytes)
  | 0, b => some ([], b)
  | n + 1, b => do
    let (x, b) ← read b
    let (xs, b) ← readMany read n b
    pure (x :: xs, b)

/-- One member of a map: a key, which has to be a string, and a value. -/
def readMember (read : Bytes → Option (Json × Bytes)) (b : Bytes) :
    Option ((CString × Json) × Bytes) := do
  let (key, b) ← read b
  let k ← key.string?
  let (v, b) ← read b
  pure ((k, v), b)

/-- `decode_at`, with the number of levels that may still be entered. -/
def decodeAt : ℕ → Bytes → Option (Json × Bytes)
  | 0, _ => none
  | _ + 1, [] => none
  | levels + 1, tag :: b =>
    if tag = 0x00 then some (.null, b)
    else if tag = 0x01 then some (.bool false, b)
    else if tag = 0x02 then some (.bool true, b)
    else if tag = 0x03 then do
      let (z, b) ← readVarint b
      pure (.num (Double.ofInt (unzigzag z)), b)
    else if tag = 0x04 then
      if b.length < 8 then none else some (.num ⟨readWord (b.take 8)⟩, b.drop 8)
    else if tag = 0x05 then do
      let (n, b) ← readVarint b
      if b.length < n then none else pure (.str (.ofBytes (b.take n)), b.drop n)
    else if tag = 0x07 ∨ tag = 0x09 then do
      let (n, b) ← readVarint b
      if b.length < n then none
      else
        let (items, b) ← readMany (decodeAt levels) n b
        pure (.arr items, b)
    else if tag = 0x08 then do
      let (n, b) ← readVarint b
      if b.length / 2 < n then none
      else
        let (members, b) ← readMany (readMember (decodeAt levels)) n b
        pure (.obj members, b)
    else none

/-- `decode`: the whole input, and nothing behind it. -/
def decode (bytes : Bytes) : Option Json :=
  match decodeAt (nestingLimit + 1) bytes with
  | some (v, []) => some v
  | _ => none

/-- `is_canonical`: what decodes and encodes back to the same bytes. -/
def isCanonical (bytes : Bytes) : Bool :=
  match decode bytes with
  | none => false
  | some v =>
    match encode v with
    | .ok b => b == bytes
    | .error _ => false

/-- A canonical value is decoded to something that is encoded to it. -/
theorem isCanonical_iff {b : Bytes} :
    isCanonical b = true ↔ ∃ v, decode b = some v ∧ encode v = .ok b := by
  unfold isCanonical
  constructor
  · intro h
    split at h
    · cases h
    · rename_i v hv
      split at h
      · rename_i b' hb
        exact ⟨v, hv, by rw [hb, eq_of_beq h]⟩
      · cases h
  · rintro ⟨v, hv, he⟩
    simp [hv, he]

example : decode [8, 2, 5, 1, 97, 3, 2, 5, 1, 114, 7, 0] =
    some (.obj [(Key.a, .num Double.one), (Key.r, .arr [])]) := by rfl

end VoidPalabra
