import VoidPalabra.Print
import VoidPalabra.Decode

/-!
# Reading a tree

`cJSON_ParseWithLength`. Text after the value is not looked at, a string is whatever
stands between its quotes up to the first NUL, and containers nest to the limit that
the decoder has too. What is
left of the input stands for the position in it; a position never moves past the last
byte while white space is skipped.
-/

namespace VoidPalabra

/-- `buffer_skip_whitespace`: at the end of the input it steps back to the last byte. -/
def skipWhitespace : Bytes → Bytes
  | [] => []
  | [c] => [c]
  | c :: d :: rest => if c ≤ 32 then skipWhitespace (d :: rest) else c :: d :: rest

/-- `skip_utf8_bom`, of an input of five bytes at least. -/
def skipBom (b : Bytes) : Bytes :=
  if 4 < b.length ∧ [0xEF, 0xBB, 0xBF].isPrefixOf b then b.drop 3 else b

/-! ### Numbers -/

/-- The characters that a number is copied from. -/
def isNumberChar (c : UInt8) : Bool :=
  (0x30 ≤ c && c ≤ 0x39) || c == 0x2B || c == 0x2D || c == 0x65 || c == 0x45 || c == 0x2E

/-- `parse_number`: at most sixty-three characters are looked at. -/
def parseNumber (b : Bytes) : Option (Double × Bytes) :=
  let text := (b.takeWhile isNumberChar).take 63
  match strtod text with
  | none => none
  | some (d, tail) => some (d, b.drop (text.length - tail.length))

/-! ### Strings -/

/-- One digit of `parse_hex4`. -/
def hexValue? (c : UInt8) : Option ℕ :=
  if 0x30 ≤ c ∧ c ≤ 0x39 then some (c.toNat - 0x30)
  else if 0x41 ≤ c ∧ c ≤ 0x46 then some (10 + c.toNat - 0x41)
  else if 0x61 ≤ c ∧ c ≤ 0x66 then some (10 + c.toNat - 0x61)
  else none

/-- `parse_hex4`: what is not four digits is zero. -/
def parseHex4 (b : Bytes) : ℕ :=
  match (b.take 4).mapM hexValue? with
  | some digits => digits.foldl (fun h d => h * 16 + d) 0
  | none => 0

/-- The UTF-8 bytes of a code point. -/
def utf8Bytes (cp : ℕ) : Bytes :=
  if cp < 0x80 then [cp.toUInt8]
  else if cp < 0x800 then [(0xC0 + cp / 64).toUInt8, (0x80 + cp % 64).toUInt8]
  else if cp < 0x10000 then
    [(0xE0 + cp / 4096).toUInt8, (0x80 + cp / 64 % 64).toUInt8, (0x80 + cp % 64).toUInt8]
  else
    [(0xF0 + cp / 262144).toUInt8, (0x80 + cp / 4096 % 64).toUInt8, (0x80 + cp / 64 % 64).toUInt8,
      (0x80 + cp % 64).toUInt8]

/-- `utf16_literal_to_utf8`, at the backslash of a literal. -/
def utf16Literal (b : Bytes) : Option (Bytes × Bytes) :=
  if b.length < 6 then none
  else
    let first := parseHex4 (b.drop 2)
    if 0xDC00 ≤ first ∧ first ≤ 0xDFFF then none
    else if 0xD800 ≤ first ∧ first ≤ 0xDBFF then
      let rest := b.drop 6
      if rest.length < 6 ∨ !(lit "\\u").isPrefixOf rest then none
      else
        let second := parseHex4 (rest.drop 2)
        if second < 0xDC00 ∨ 0xDFFF < second then none
        else some (utf8Bytes (0x10000 + (first % 1024 * 1024 + second % 1024)), rest.drop 6)
    else some (utf8Bytes first, b.drop 6)

/-- What an escaped character other than `u` stands for. -/
def escaped? (c : UInt8) : Option UInt8 :=
  if c = 0x62 then some 0x08
  else if c = 0x66 then some 0x0C
  else if c = 0x6E then some 0x0A
  else if c = 0x72 then some 0x0D
  else if c = 0x74 then some 0x09
  else if c = 0x22 ∨ c = 0x5C ∨ c = 0x2F then some c
  else none

/-- The loop through a string literal, with a bound on its rounds. -/
def unescapeLoop : ℕ → Bytes → Option Bytes
  | _, [] => some []
  | 0, _ :: _ => none
  | fuel + 1, c :: rest =>
    if c ≠ 0x5C then (unescapeLoop fuel rest).map (c :: ·)
    else
      match rest with
      | [] => none
      | d :: rest' =>
        if d = 0x75 then
          match utf16Literal (c :: rest) with
          | none => none
          | some (out, rest) => (unescapeLoop fuel rest).map (out ++ ·)
        else
          match escaped? d with
          | none => none
          | some e => (unescapeLoop fuel rest').map (e :: ·)

/-- What a string literal stands for. -/
def unescape (b : Bytes) : Option Bytes := unescapeLoop b.length b

/-- A literal up to its closing quote, and what follows the quote. -/
def stringEnd : Bytes → Option (Bytes × Bytes)
  | [] => none
  | c :: rest =>
    if c = 0x22 then some ([], rest)
    else if c = 0x5C then
      match rest with
      | [] => none
      | d :: rest => (stringEnd rest).map fun (literal, tail) => (c :: d :: literal, tail)
    else (stringEnd rest).map fun (literal, tail) => (c :: literal, tail)

/-- `parse_string`. The output is read as a C string. -/
def parseString : Bytes → Option (CString × Bytes)
  | [] => none
  | c :: rest =>
    if c ≠ 0x22 then none
    else
      match stringEnd rest with
      | none => none
      | some (literal, tail) => (unescape literal).map fun out => (.ofBytes out, tail)

/-! ### Containers -/

/-- The loop of `parse_array`, at an element, with a bound on its rounds. -/
def parseItems (value : Bytes → Option (Json × Bytes)) : ℕ → Bytes → Option (List Json × Bytes)
  | 0, _ => none
  | fuel + 1, b =>
    match value (skipWhitespace b) with
    | none => none
    | some (v, rest) =>
      match skipWhitespace rest with
      | [] => none
      | c :: rest =>
        if c = 0x2C then (parseItems value fuel rest).map fun (items, tail) => (v :: items, tail)
        else if c = 0x5D then some ([v], rest)
        else none

/-- `parse_array`, after the bracket. -/
def parseArray (value : Bytes → Option (Json × Bytes)) (b : Bytes) : Option (Json × Bytes) :=
  match skipWhitespace b with
  | [] => none
  | c :: rest =>
    if c = 0x5D then some (.arr [], rest)
    else (parseItems value b.length (c :: rest)).map fun (items, tail) => (.arr items, tail)

/-- The loop of `parse_object`, at a name, with a bound on its rounds. -/
def parseMembers (value : Bytes → Option (Json × Bytes)) :
    ℕ → Bytes → Option (List (CString × Json) × Bytes)
  | 0, _ => none
  | fuel + 1, b =>
    match parseString (skipWhitespace b) with
    | none => none
    | some (k, rest) =>
      match skipWhitespace rest with
      | [] => none
      | c :: rest =>
        if c ≠ 0x3A then none
        else
          match value (skipWhitespace rest) with
          | none => none
          | some (v, rest) =>
            match skipWhitespace rest with
            | [] => none
            | c :: rest =>
              if c = 0x2C then
                (parseMembers value fuel rest).map fun (members, tail) => ((k, v) :: members, tail)
              else if c = 0x7D then some ([(k, v)], rest)
              else none

/-- `parse_object`, after the brace. -/
def parseObject (value : Bytes → Option (Json × Bytes)) (b : Bytes) : Option (Json × Bytes) :=
  match skipWhitespace b with
  | [] => none
  | c :: rest =>
    if c = 0x7D then some (.obj [], rest)
    else (parseMembers value b.length (c :: rest)).map fun (members, tail) => (.obj members, tail)

/-- A value that is neither an array nor an object. -/
def parseLeaf (b : Bytes) : Option (Json × Bytes) :=
  if (lit "null").isPrefixOf b then some (.null, b.drop 4)
  else if (lit "false").isPrefixOf b then some (.bool false, b.drop 5)
  else if (lit "true").isPrefixOf b then some (.bool true, b.drop 4)
  else
    match b with
    | [] => none
    | c :: _ =>
      if c = 0x22 then (parseString b).map fun (s, tail) => (.str s, tail)
      else if c = 0x2D ∨ (0x30 ≤ c ∧ c ≤ 0x39) then (parseNumber b).map fun (d, tail) => (.num d, tail)
      else none

/-- `parse_value`, with the number of containers that may still be opened. -/
def parseValue : ℕ → Bytes → Option (Json × Bytes)
  | 0, b => parseLeaf b
  | left + 1, b =>
    match b with
    | 0x5B :: rest => parseArray (parseValue left) rest
    | 0x7B :: rest => parseObject (parseValue left) rest
    | b => parseLeaf b

/-- `cJSON_ParseWithLength`. -/
def parseJson (b : Bytes) : Option Json :=
  (parseValue nestingLimit (skipWhitespace (skipBom b))).map Prod.fst

end VoidPalabra
