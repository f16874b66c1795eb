import Mathlib

/-!
# The double a cJSON number holds

cJSON keeps every number as an IEEE 754 double. The value is modelled by its 64
bits. Reading it as an integer, rounding an integer to the nearest double and the
order of two doubles are computed from the sign, exponent and fraction fields.
-/

namespace VoidPalabra

/-- An IEEE 754 binary64 value by its bits. -/
structure Double where
  /-- Sign, eleven exponent bits and 52 fraction bits. -/
  bits : UInt64
  deriving DecidableEq

namespace Double

/-- The sign bit. -/
def negative (d : Double) : Bool := decide (2 ^ 63 ≤ d.bits.toNat)

/-- The biased exponent field. -/
def expo (d : Double) : ℕ := d.bits.toNat / 2 ^ 52 % 2048

/-- The fraction field. -/
def frac (d : Double) : ℕ := d.bits.toNat % 2 ^ 52

/-- `isnan`. -/
def isNan (d : Double) : Bool := d.expo == 2047 && d.frac != 0

/-- `isinf`. -/
def isInf (d : Double) : Bool := d.expo == 2047 && d.frac == 0

/-- The significand with its hidden bit; subnormals have none. -/
def significand (d : Double) : ℕ := if d.expo = 0 then d.frac else 2 ^ 52 + d.frac

/-- The exponent of two of the significand's last bit is `lastBit - 1075`. -/
def lastBit (d : Double) : ℕ := max d.expo 1

/-- The integer a double is, when `v == floor(v) && fabs(v) < 2^53`. -/
def whole? (d : Double) : Option ℤ :=
  if 1075 < d.lastBit then none
  else
    let k := 1075 - d.lastBit
    if d.significand % 2 ^ k = 0 then
      let m : ℤ := (d.significand / 2 ^ k : ℕ)
      some (if d.negative then -m else m)
    else none

/-- The numerator and denominator of a finite magnitude. -/
def ratio (d : Double) : ℕ × ℕ :=
  if 1075 ≤ d.lastBit then (d.significand * 2 ^ (d.lastBit - 1075), 1)
  else (d.significand, 2 ^ (1075 - d.lastBit))

/-- The integral part of a finite double, `static_cast<std::uint64_t>`. -/
def floor (d : Double) : ℕ := d.ratio.1 / d.ratio.2

/-- The conversion of a finite double to an integer, towards zero. -/
def trunc (d : Double) : ℤ := if d.negative then -(d.floor : ℤ) else d.floor

/-- A natural quotient rounded to the nearest, ties to even. -/
def roundQuotient (n d : ℕ) : ℕ :=
  let q := n / d
  let r := n % d
  if d < 2 * r ∨ (2 * r = d ∧ q % 2 = 1) then q + 1 else q

/-- The magnitude bits of the double nearest to a natural number: an exponent
field one below the true one, plus the rounded 53-bit significand. -/
def roundNat (n : ℕ) : ℕ :=
  if n = 0 then 0
  else (n.log2 + 1022) * 2 ^ 52 +
    roundQuotient (n * 2 ^ (52 - n.log2)) (2 ^ (n.log2 - 52))

/-- The conversion of an integer to the nearest double, `static_cast<double>`. -/
def ofInt (n : ℤ) : Double :=
  ⟨UInt64.ofNat (roundNat n.natAbs + if n < 0 then 2 ^ 63 else 0)⟩

/-- The order of the finite values and infinities; both zeros have the same key. -/
def key (d : Double) : ℤ :=
  let m : ℤ := (d.bits.toNat % 2 ^ 63 : ℕ)
  if d.negative then -m else m

/-- `a < b`, false when either is not a number. -/
def lt (a b : Double) : Bool := !a.isNan && !b.isNan && decide (a.key < b.key)

/-- `a == b`, false when either is not a number. -/
def eq (a b : Double) : Bool := !a.isNan && !b.isNan && decide (a.key = b.key)

/-- The largest power of two that is at most a ratio, as an exponent. -/
def binaryExponent (n m : ℕ) : ℤ :=
  if m ≤ n then ((n / m).log2 : ℕ) else -(Nat.clog 2 ((m + n - 1) / n) : ℕ)

/-- The magnitude bits of the double nearest to a ratio: subnormals have the least
exponent, and what is too large is infinite. -/
def roundRatio (n m : ℕ) : ℕ :=
  if n = 0 then 0
  else
    let last := max (binaryExponent n m - 52) (-1074)
    let q := roundQuotient (n * 2 ^ (-last).toNat) (m * 2 ^ last.toNat)
    min ((last + 1074).toNat * 2 ^ 52 + q) (2047 * 2 ^ 52)

/-- The double nearest to a ratio with a sign. -/
def ofRatio (negative : Bool) (n m : ℕ) : Double :=
  ⟨UInt64.ofNat (roundRatio n m + if negative then 2 ^ 63 else 0)⟩

/-- The double `1.0`. -/
def one : Double := ofInt 1

/-- An integer is finite and small exactly when the reader accepts it. -/
theorem whole?_finite {d : Double} {n : ℤ} (h : d.whole? = some n) :
    d.isNan = false ∧ d.isInf = false := by
  have he : d.expo ≠ 2047 := by
    intro he
    have hl : 1075 < d.lastBit := by simp [lastBit, he]
    simp [whole?, hl] at h
  simp [isNan, isInf, he]

theorem roundQuotient_one (n : ℕ) : roundQuotient n 1 = n := by
  simp [roundQuotient, Nat.mod_one]

/-- A natural number of at most 53 bits is rounded to itself. -/
theorem roundNat_small {n : ℕ} (h0 : n ≠ 0) (h : n < 2 ^ 53) :
    roundNat n = (n.log2 + 1022) * 2 ^ 52 + n * 2 ^ (52 - n.log2) := by
  have hl : n.log2 < 53 := (Nat.log2_lt h0).mpr h
  have hz : n.log2 - 52 = 0 := by omega
  rw [roundNat, if_neg h0, hz, pow_zero, roundQuotient_one]

/-- The fields of the double that an integer is. -/
theorem ofInt_fields {n : ℤ} (h0 : n ≠ 0) (h : n.natAbs < 2 ^ 53) :
    (ofInt n).lastBit = n.natAbs.log2 + 1023 ∧
      (ofInt n).significand = n.natAbs * 2 ^ (52 - n.natAbs.log2) ∧
      (ofInt n).negative = decide (n < 0) := by
  have hm0 : n.natAbs ≠ 0 := Int.natAbs_ne_zero.mpr h0
  have hl : n.natAbs.log2 < 53 := (Nat.log2_lt hm0).mpr h
  have hlow : 2 ^ 52 ≤ n.natAbs * 2 ^ (52 - n.natAbs.log2) := by
    calc 2 ^ 52 = 2 ^ n.natAbs.log2 * 2 ^ (52 - n.natAbs.log2) := by
          rw [← pow_add]; congr 1; omega
      _ ≤ _ := Nat.mul_le_mul_right _ (Nat.log2_self_le hm0)
  have hhigh : n.natAbs * 2 ^ (52 - n.natAbs.log2) < 2 ^ 53 := by
    calc _ < 2 ^ (n.natAbs.log2 + 1) * 2 ^ (52 - n.natAbs.log2) :=
          (Nat.mul_lt_mul_right (Nat.two_pow_pos _)).mpr Nat.lt_log2_self
      _ = 2 ^ 53 := by rw [← pow_add]; congr 1; omega
  have hr := roundNat_small hm0 h
  generalize hq : n.natAbs * 2 ^ (52 - n.natAbs.log2) = q at *
  generalize hsg : (if n < 0 then 2 ^ 63 else 0 : ℕ) = sg at *
  have hsgle : sg = if n < 0 then 2 ^ 63 else 0 := hsg.symm
  have hb : (ofInt n).bits.toNat = (n.natAbs.log2 + 1022) * 2 ^ 52 + q + sg := by
    simp only [ofInt, hr, hsg, UInt64.toNat_ofNat']
    apply Nat.mod_eq_of_lt
    split at hsgle <;> omega
  have hexpo : (ofInt n).expo = n.natAbs.log2 + 1023 := by
    unfold expo
    rw [hb]
    split at hsgle <;> omega
  have hfrac : (ofInt n).frac = q - 2 ^ 52 := by
    unfold frac
    rw [hb]
    split at hsgle <;> omega
  refine ⟨?_, ?_, ?_⟩
  · unfold lastBit
    omega
  · unfold significand
    rw [hexpo, hfrac, if_neg (by omega)]
    omega
  · unfold negative
    rw [hb]
    congr 1
    simp only [eq_iff_iff]
    split at hsgle <;> omega

/-- Every integer below 2^53 survives the conversion to a double. -/
theorem whole?_ofInt {n : ℤ} (h : n.natAbs < 2 ^ 53) : (ofInt n).whole? = some n := by
  by_cases h0 : n = 0
  · subst h0
    decide +kernel
  have hl : n.natAbs.log2 < 53 := (Nat.log2_lt (Int.natAbs_ne_zero.mpr h0)).mpr h
  obtain ⟨hlast, hsig, hneg⟩ := ofInt_fields h0 h
  have hk : 1075 - (n.natAbs.log2 + 1023) = 52 - n.natAbs.log2 := by omega
  unfold whole?
  rw [hlast, if_neg (by omega), hsig, hneg, hk, if_pos (Nat.mul_mod_left _ _),
    Nat.mul_div_cancel _ (Nat.two_pow_pos _)]
  refine congrArg some ?_
  by_cases hn : n < 0 <;> simp only [hn, decide_true, decide_false, if_true, Bool.false_eq_true,
    if_false] <;> omega

/-- What `whole?` reads is below 2^53. -/
theorem whole?_lt {d : Double} {n : ℤ} (h : d.whole? = some n) : n.natAbs < 2 ^ 53 := by
  have hf : d.frac < 2 ^ 52 := Nat.mod_lt _ (by decide)
  have hs : d.significand < 2 ^ 53 := by
    unfold significand
    split <;> omega
  unfold whole? at h
  split at h
  · cases h
  · simp only at h
    split at h
    · injection h with h
      subst h
      have hd := Nat.div_le_self d.significand (2 ^ (1075 - d.lastBit))
      generalize d.significand / 2 ^ (1075 - d.lastBit) = m at hd ⊢
      split <;> omega
    · cases h

/-- An integer of at most 53 bits comes back from the double that it is written as. -/
theorem trunc_ofInt {n : ℤ} (h : n.natAbs ≤ 2 ^ 53) : (ofInt n).trunc = n := by
  rcases Nat.lt_or_eq_of_le h with hlt | heq
  · have hw := whole?_ofInt hlt
    unfold whole? at hw
    split at hw
    · cases hw
    · dsimp only at hw
      split at hw
      · rename_i hlast hmod
        have hfloor : (ofInt n).floor =
            (ofInt n).significand / 2 ^ (1075 - (ofInt n).lastBit) := by
          unfold floor ratio
          split
          · have he : (ofInt n).lastBit = 1075 := by omega
            simp [he]
          · rfl
        rw [trunc, hfloor]
        exact Option.some.inj hw
      · cases hw
  · rcases Int.natAbs_eq n with hn | hn <;> rw [hn, heq] <;> decide +kernel

end Double

end VoidPalabra
