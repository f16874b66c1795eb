import VoidPalabra.OrSet

/-!
# Printing a tree

`cJSON_PrintUnformatted`. A number is printed as a C `int` when it is one, else
with fifteen significant digits if these read back as a number that cJSON takes to
be the same one, else with seventeen.
-/

namespace VoidPalabra

/-- The exponent of the first significant digit of a positive ratio. -/
def decimalExponent (n m : ℕ) : ℤ :=
  if m ≤ n then (Nat.log 10 (n / m) : ℕ) else -(Nat.clog 10 ((m + n - 1) / n) : ℕ)

/-- A ratio scaled by a power of ten and rounded. -/
def scaled (n m : ℕ) (shift : ℤ) : ℕ :=
  Double.roundQuotient (n * 10 ^ shift.toNat) (m * 10 ^ (-shift).toNat)

/-- The significant digits of a ratio as a number of `precision` digits, and the
exponent of the first of them. -/
def significantDigits (precision n m : ℕ) : ℕ × ℤ :=
  let e := decimalExponent n m
  let q := scaled n m (precision - 1 - e)
  if q = 10 ^ precision then (10 ^ (precision - 1), e + 1) else (q, e)

/-- Digits with the zeros at the end dropped. -/
def dropZeros (b : Bytes) : Bytes := (b.reverse.dropWhile (· == 0x30)).reverse

/-- An integer part and a fraction without the zeros at its end. -/
def withFraction (whole fraction : Bytes) : Bytes :=
  if dropZeros fraction = [] then whole else whole ++ 0x2E :: dropZeros fraction

/-- The exponent of `%e`: a sign and two digits at least. -/
def exponentText (e : ℤ) : Bytes :=
  (if e < 0 then 0x2D else 0x2B) ::
    (if e.natAbs < 10 then 0x30 :: decimal e.natAbs else decimal e.natAbs)

/-- `%.<precision>g` of a positive finite ratio: the plain spelling when the
exponent lies between -4 and the precision, else the one with an exponent. -/
def formatG (precision n m : ℕ) : Bytes :=
  let (q, e) := significantDigits precision n m
  let digits := decimal q
  if -4 ≤ e ∧ e < precision then
    if e < 0 then
      withFraction [0x30] (List.replicate (-e - 1).toNat 0x30 ++ digits)
    else withFraction (digits.take (e + 1).toNat) (digits.drop (e + 1).toNat)
  else withFraction (digits.take 1) (digits.drop 1) ++ 0x65 :: exponentText e

/-- A run of digits at the front of the input: its value, its length and the rest. -/
def digitRun : Bytes → ℕ × ℕ × Bytes
  | [] => (0, 0, [])
  | c :: rest =>
    if 0x30 ≤ c ∧ c ≤ 0x39 then
      let (v, n, tail) := digitRun rest
      ((c.toNat - 0x30) * 10 ^ n + v, n + 1, tail)
    else (0, 0, c :: rest)

/-- A sign at the front of the input. -/
def signAhead : Bytes → Bool × Bytes
  | 0x2D :: rest => (true, rest)
  | 0x2B :: rest => (false, rest)
  | b => (false, b)

/-- The exponent part of a number, when there is one. -/
def exponentAhead : Bytes → ℤ × Bytes
  | [] => (0, [])
  | c :: rest =>
    if c = 0x65 ∨ c = 0x45 then
      let (negative, tail) := signAhead rest
      let (v, n, tail) := digitRun tail
      if n = 0 then (0, c :: rest) else (if negative then -(v : ℤ) else v, tail)
    else (0, c :: rest)

/-- `strtod` on decimal text: the nearest double and what follows the number. -/
def strtod (b : Bytes) : Option (Double × Bytes) :=
  let (negative, tail) := signAhead b
  let (whole, n, tail) := digitRun tail
  let (fraction, k, tail) :=
    match tail with
    | 0x2E :: rest =>
      let (fraction, k, rest') := digitRun rest
      if n = 0 ∧ k = 0 then (0, 0, 0x2E :: rest) else (fraction, k, rest')
    | tail => (0, 0, tail)
  if n = 0 ∧ k = 0 then none
  else
    let (e, tail) := exponentAhead tail
    let mantissa := whole * 10 ^ k + fraction
    let shift := e - k
    some (Double.ofRatio negative (mantissa * 10 ^ shift.toNat) (10 ^ (-shift).toNat), tail)

/-- `fabs(a - b)`, rounded to a double, of two finite values. -/
def Double.absDiff (a b : Double) : Double :=
  let (n, m) := a.ratio
  let (k, l) := b.ratio
  let x : ℤ := (if a.negative then -1 else 1) * (n * l : ℕ)
  let y : ℤ := (if b.negative then -1 else 1) * (k * m : ℕ)
  Double.ofRatio false (x - y).natAbs (m * l)

/-- `compare_double`; an infinity is taken to be the same as anything finite. -/
def compareDouble (a b : Double) : Bool :=
  if a.isInf || b.isInf then true
  else
    let larger := if (Double.mk (a.bits % 2 ^ 63)).lt ⟨b.bits % 2 ^ 63⟩ then b else a
    let (n, m) := larger.ratio
    let bound := Double.ofRatio false n (m * 2 ^ 52)
    !(bound.lt (a.absDiff b))

/-- The sign of a printed number. -/
def signText (negative : Bool) : Bytes := if negative then [0x2D] else []

/-- `print_number`. -/
def printNumber (d : Double) : Bytes :=
  if d.isNan || d.isInf then lit "null"
  else
    match d.whole?.filter fun n => decide (-2 ^ 31 ≤ n ∧ n < 2 ^ 31) with
    | some n => signText (decide (n < 0)) ++ decimal n.natAbs
    | none =>
      let (n, m) := d.ratio
      let short := signText d.negative ++ formatG 15 n m
      match strtod short with
      | some (test, _) =>
        if compareDouble test d then short else signText d.negative ++ formatG 17 n m
      | none => signText d.negative ++ formatG 17 n m

/-- One byte inside a printed string. -/
def escapeByte (c : UInt8) : Bytes :=
  if c = 0x5C then lit "\\\\"
  else if c = 0x22 then lit "\\\""
  else if c = 0x08 then lit "\\b"
  else if c = 0x0C then lit "\\f"
  else if c = 0x0A then lit "\\n"
  else if c = 0x0D then lit "\\r"
  else if c = 0x09 then lit "\\t"
  else if c < 0x20 then lit "\\u00" ++ [hexDigit (c.toNat / 16), hexDigit (c.toNat % 16)]
  else [c]

/-- `print_string_ptr`. -/
def printString (s : CString) : Bytes := 0x22 :: s.bytes.flatMap escapeByte ++ [0x22]

mutual

/-- `print_value`, unformatted. -/
def printValue : Json → Bytes
  | .null => lit "null"
  | .bool b => if b then lit "true" else lit "false"
  | .num d => printNumber d
  | .str s => printString s
  | .arr items => 0x5B :: printItems items ++ [0x5D]
  | .obj members => 0x7B :: printMembers members ++ [0x7D]

/-- The items of an array with commas between them. -/
def printItems : List Json → Bytes
  | [] => []
  | v :: rest => printValue v ++ (if rest.isEmpty then [] else [0x2C]) ++ printItems rest

/-- The members of an object with commas between them. -/
def printMembers : List (CString × Json) → Bytes
  | [] => []
  | (k, v) :: rest =>
    printString k ++ 0x3A :: printValue v ++ (if rest.isEmpty then [] else [0x2C]) ++
      printMembers rest

end

/-- `printed`. -/
def printed (n : Json) : Bytes := printValue n

end VoidPalabra
