import Mathlib

/-!
# Base 64

Three bytes are four digits of six bits. One or two bytes at the end are two or three digits, the
missing bits zero, and the group is filled up with a sign that is no digit.
-/

namespace Base64

/-- The digits. -/
def alphabet : List UInt8 :=
  "ABCDEFGHIJKLMNOPQRSTUVWXYZabcdefghijklmnopqrstuvwxyz0123456789+/".toList.map fun c => c.toNat.toUInt8

/-- A digit by its value. -/
def digit (n : ℕ) : UInt8 := alphabet.getD n 0

/-- The sign that fills up a group. -/
def pad : UInt8 := 0x3D

/-- The encoding of some bytes. -/
def encode : List UInt8 → List UInt8
  | [] => []
  | [a] => [digit (a.toNat / 4), digit (a.toNat % 4 * 16), pad, pad]
  | [a, b] => [digit (a.toNat / 4), digit (a.toNat % 4 * 16 + b.toNat / 16),
      digit (b.toNat % 16 * 4), pad]
  | a :: b :: c :: rest => digit (a.toNat / 4) :: digit (a.toNat % 4 * 16 + b.toNat / 16) ::
      digit (b.toNat % 16 * 4 + c.toNat / 64) :: digit (c.toNat % 64) :: encode rest

/-- A digit has the value that it stands for. -/
theorem idxOf_digit {n : ℕ} (h : n < 64) : alphabet.idxOf? (digit n) = some n := by
  have hall : ∀ n < 64, alphabet.idxOf? (digit n) = some n := by decide +kernel
  exact hall n h

/-- A digit is neither the sign that fills up nor a line break. -/
theorem digit_ne {n : ℕ} (h : n < 64) : digit n ≠ pad ∧ digit n ≠ 0x0A ∧ digit n ≠ 0x0D := by
  have hall : ∀ n < 64, digit n ≠ pad ∧ digit n ≠ 0x0A ∧ digit n ≠ 0x0D := by decide +kernel
  exact hall n h

example : encode [0x4D, 0x61] = "TWE=".toList.map fun c => c.toNat.toUInt8 := by decide

end Base64
