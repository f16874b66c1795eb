import VoidPalabra.RoundTrip

/-!
# Numbers as the specification encodes them

A number that a signed 64-bit integer holds is to be written as that integer, any other as the
bits of its double. What the encoder folds is decided by a magnitude instead.
-/

namespace VoidPalabra

namespace Double

/-! ### The value of a double -/

/-- Neither an infinity nor a NaN. -/
def Finite (d : Double) : Prop := d.isNan = false ∧ d.isInf = false

/-- The exact value of a finite double. -/
def value (d : Double) : ℚ :=
  (if d.negative then -1 else 1) * d.significand * 2 ^ ((d.lastBit : ℤ) - 1075)

theorem significand_lt (d : Double) : d.significand < 2 ^ 53 := by
  have hf : d.frac < 2 ^ 52 := Nat.mod_lt _ (by decide)
  unfold significand
  split <;> omega

/-- A large exponent comes with the hidden bit. -/
theorem le_significand {d : Double} (h : 1 < d.lastBit) : 2 ^ 52 ≤ d.significand := by
  have he : d.expo ≠ 0 := by
    intro he
    rw [lastBit, he] at h
    omega
  rw [significand, if_neg he]
  omega

theorem abs_value (d : Double) : |d.value| = d.significand * 2 ^ ((d.lastBit : ℤ) - 1075) := by
  have hpow : (0 : ℚ) ≤ 2 ^ ((d.lastBit : ℤ) - 1075) := by positivity
  rw [value, abs_mul, abs_mul, abs_of_nonneg hpow, Nat.abs_cast]
  congr 1
  split <;> simp

/-- A double with digits behind the point is a fraction with a power of two below it. -/
theorem value_of_le {d : Double} (h : d.lastBit ≤ 1075) :
    d.value * 2 ^ (1075 - d.lastBit) = (if d.negative then -1 else 1) * d.significand := by
  have hexp : (2 : ℚ) ^ ((d.lastBit : ℤ) - 1075) * 2 ^ (1075 - d.lastBit) = 1 := by
    rw [← zpow_natCast, ← zpow_add₀ two_ne_zero, Nat.cast_sub h]
    simp
  rw [value, mul_assoc, hexp, mul_one]

/-- What `whole?` reads is the value, when it is an integer below 2^53. -/
theorem whole?_iff {d : Double} {n : ℤ} : d.whole? = some n ↔ d.value = n ∧ n.natAbs < 2 ^ 53 := by
  by_cases hlast : 1075 < d.lastBit
  · -- The last bit is worth two at least, so the magnitude is too large.
    have habs : (2 : ℚ) ^ 53 ≤ |d.value| := by
      have hsig : ((2 ^ 52 : ℕ) : ℚ) ≤ d.significand := Nat.cast_le.mpr (le_significand (by omega))
      have hpow : (2 : ℚ) ^ (1 : ℤ) ≤ 2 ^ ((d.lastBit : ℤ) - 1075) :=
        zpow_le_zpow_right₀ (by norm_num) (by omega)
      rw [abs_value]
      calc (2 : ℚ) ^ 53 = ((2 ^ 52 : ℕ) : ℚ) * 2 ^ (1 : ℤ) := by norm_num
        _ ≤ _ := mul_le_mul hsig hpow (by norm_num) (by positivity)
    rw [whole?, if_pos hlast]
    refine iff_of_false (fun h => by cases h) ?_
    rintro ⟨hv, hn⟩
    rw [hv, ← Int.cast_abs, Int.abs_eq_natAbs] at habs
    have hcast : ((n.natAbs : ℕ) : ℚ) < 2 ^ 53 := by exact_mod_cast hn
    rw [Int.cast_natCast] at habs
    linarith
  · have hvalue := value_of_le (not_lt.mp hlast)
    have hpow : (2 : ℚ) ^ (1075 - d.lastBit) ≠ 0 := by positivity
    rw [whole?, if_neg hlast]
    dsimp only
    constructor
    · intro h
      by_cases hdvd : d.significand % 2 ^ (1075 - d.lastBit) = 0
      · obtain ⟨q, hq⟩ := Nat.dvd_of_mod_eq_zero hdvd
        have hle : q ≤ d.significand := by
          rw [hq]
          exact Nat.le_mul_of_pos_left _ (Nat.two_pow_pos _)
        have hlt := d.significand_lt
        rw [if_pos hdvd, hq, Nat.mul_div_cancel_left _ (Nat.two_pow_pos _)] at h
        obtain rfl := Option.some.inj h
        refine ⟨mul_right_cancel₀ hpow (hvalue.trans ?_), ?_⟩
        · rw [hq]
          split <;> push_cast <;> ring
        · split <;> omega
      · rw [if_neg hdvd] at h
        cases h
    · rintro ⟨hv, -⟩
      have hint : n * 2 ^ (1075 - d.lastBit) = (if d.negative then -1 else 1) * (d.significand : ℤ) := by
        have hcast : ((n * 2 ^ (1075 - d.lastBit) : ℤ) : ℚ) =
            (((if d.negative then -1 else 1) * (d.significand : ℤ) : ℤ) : ℚ) := by
          push_cast
          rw [← hv, hvalue]
        exact_mod_cast hcast
      have hsig : d.significand = n.natAbs * 2 ^ (1075 - d.lastBit) := by
        have habs := congrArg Int.natAbs hint
        rw [Int.natAbs_mul, Int.natAbs_mul, Int.natAbs_pow, Int.natAbs_natCast] at habs
        split at habs <;> simpa using habs.symm
      have hpos : (0 : ℤ) < 2 ^ (1075 - d.lastBit) := by positivity
      rw [hsig, if_pos (Nat.mul_mod_left _ _), Nat.mul_div_cancel _ (Nat.two_pow_pos _)]
      rw [hsig] at hint
      push_cast at hint
      refine congrArg some ?_
      cases hneg : d.negative with
      | false =>
        rw [hneg, if_neg (by decide), one_mul] at hint
        rw [if_neg (by decide), Int.natCast_natAbs]
        exact (mul_right_cancel₀ hpos.ne' hint).symm
      | true =>
        rw [hneg, if_pos rfl, neg_one_mul, ← neg_mul] at hint
        rw [if_pos rfl, Int.natCast_natAbs]
        exact (mul_right_cancel₀ hpos.ne' hint).symm

/-- A finite double is encoded. -/
theorem encodeNumber_finite {d : Double} (h : d.Finite) :
    encodeNumber d = match d.whole? with
      | some n => .ok (encodeInt n)
      | none => .ok (0x04 :: bigEndian d.bits) := by
  rw [encodeNumber, h.1, h.2]
  rfl

theorem finite_ofInt {n : ℤ} (h : n.natAbs < 2 ^ 53) : (ofInt n).Finite := whole?_finite (whole?_ofInt h)

theorem value_ofInt {n : ℤ} (h : n.natAbs < 2 ^ 53) : (ofInt n).value = n :=
  (whole?_iff.mp (whole?_ofInt h)).1

end Double

/-! ### The shortest varint -/

theorem length_putUvarint_le {k n : ℕ} (h : n < 2 ^ (7 * (k + 1))) : (putUvarint n).length ≤ k + 1 := by
  induction k generalizing n with
  | zero => rw [putUvarint_small (by simpa using h), List.length_singleton]
  | succ k ih =>
    by_cases hn : n < 128
    · rw [putUvarint_small hn, List.length_singleton]
      omega
    · rw [putUvarint_step (by omega), List.length_cons]
      have hpow : (2 : ℕ) ^ (7 * (k + 1 + 1)) = 2 ^ (7 * (k + 1)) * 128 := by
        rw [show 7 * (k + 1 + 1) = 7 * (k + 1) + 7 by omega, pow_add]
        rfl
      have := ih (Nat.div_lt_of_lt_mul (by rwa [Nat.mul_comm, ← hpow]))
      omega

/-- Bytes that are read as a number have room for it. -/
theorem readVarintLoop_lt {left shift v n : ℕ} {b rest : Bytes}
    (h : readVarintLoop left shift v b = some (n, rest)) :
    ∃ k, b.length = k + 1 + rest.length ∧ n + 2 ^ shift ≤ v + 2 ^ (shift + 7 * (k + 1)) := by
  induction left generalizing shift v b with
  | zero => cases h
  | succ left ih =>
    cases b with
    | nil => cases h
    | cons c b =>
      have hc : c.toNat % 128 * 2 ^ shift + 2 ^ shift ≤ 2 ^ (shift + 7) := by
        calc c.toNat % 128 * 2 ^ shift + 2 ^ shift = (c.toNat % 128 + 1) * 2 ^ shift := by ring
          _ ≤ 128 * 2 ^ shift := Nat.mul_le_mul_right _ (by omega)
          _ = 2 ^ (shift + 7) := by rw [pow_add, Nat.mul_comm]; rfl
      have hpos := Nat.two_pow_pos shift
      rw [readVarintLoop] at h
      split_ifs at h
      · cases h
        exact ⟨0, by simp [Nat.add_comm], by simp only [Nat.zero_add, Nat.mul_one]; omega⟩
      · obtain ⟨k, hk, hn⟩ := ih h
        refine ⟨k + 1, by rw [List.length_cons, hk]; omega, ?_⟩
        rw [show shift + 7 * (k + 1 + 1) = shift + 7 + 7 * (k + 1) by omega]
        omega

/-- No shorter bytes are read as the number. -/
theorem length_putUvarint_minimal {n : ℕ} {b : Bytes} (h : readVarint b = some (n, [])) :
    (putUvarint n).length ≤ b.length := by
  obtain ⟨k, hk, hn⟩ := readVarintLoop_lt h
  rw [hk]
  refine length_putUvarint_le ?_
  simp only [pow_zero, Nat.zero_add] at hn
  omega

/-! ### What the specification prescribes -/

/-- The signed 64-bit integer that a double is. -/
def Double.IsInt64 (d : Double) (n : ℤ) : Prop := d.value = n ∧ -2 ^ 63 ≤ n ∧ n < 2 ^ 63

/-- The encoding that the specification prescribes for a finite number. -/
def Prescribed (d : Double) (b : Bytes) : Prop :=
  (∃ n, d.IsInt64 n ∧ b = encodeInt n) ∨ (¬∃ n, d.IsInt64 n) ∧ b = 0x04 :: bigEndian d.bits

/-- A number is encoded as the specification has it. -/
structure AsPrescribed (d : Double) : Prop where
  /-- With the bytes it prescribes, -/
  encoded : ∀ b, Prescribed d b → encodeNumber d = .ok b
  /-- in which no varint is longer than it has to be, -/
  minimal : ∀ n, d.IsInt64 n → ∀ b, readVarint b = some (zigzag n, []) →
    (encodeInt n).length ≤ b.length + 1
  /-- which decode to the same value, and bit for bit when it is not an integer. -/
  decoded : ∀ b, encodeNumber d = .ok b → ∃ e, decode b = some (.num e) ∧ e.value = d.value ∧
    ((¬∃ n, d.IsInt64 n) → e = d)
  /-- No other value is encoded so, -/
  distinct : ∀ e : Double, e.Finite → encodeNumber e = encodeNumber d → e.value = d.value
  /-- and what it prescribes is canonical. -/
  accepted : ∀ b, Prescribed d b → isCanonical b = true

namespace Double

variable {d : Double}

theorem IsInt64.eq {m n : ℤ} (hm : d.IsInt64 m) (hn : d.IsInt64 n) : m = n := by
  have h : (m : ℚ) = n := hm.1.symm.trans hn.1
  exact_mod_cast h

/-- What is read as a whole number is a small one of 64 bits. -/
theorem isInt64_of_whole {n : ℤ} (h : d.whole? = some n) : d.IsInt64 n ∧ n.natAbs < 2 ^ 53 := by
  obtain ⟨hv, hn⟩ := whole?_iff.mp h
  exact ⟨⟨hv, by omega, by omega⟩, hn⟩

theorem hasForm (h : d.Finite) : HasForm (.num d) := by
  rw [HasForm, encode, encodeNumber_finite h]
  cases d.whole? <;> exact ⟨_, rfl⟩

theorem decodable (h : d.Finite) : Decodable (.num d) := ⟨hasForm h, Nat.zero_le _, trivial⟩

/-- What a number is decoded to has its value, and its bits when it is not folded. -/
theorem decode_encodeNumber {b : Bytes} (h : d.Finite) (hb : encodeNumber d = .ok b) :
    ∃ e, decode b = some (.num e) ∧ e.value = d.value ∧ (d.whole? = none → e = d) := by
  have henc : encode (.num d) = .ok b := hb
  rw [← form_of_encode henc, decode_form (decodable h), norm]
  cases hw : d.whole? with
  | none => exact ⟨d, rfl, rfl, fun _ => rfl⟩
  | some n =>
    obtain ⟨⟨hv, -, -⟩, hn⟩ := isInt64_of_whole hw
    exact ⟨ofInt n, rfl, (value_ofInt hn).trans hv.symm, fun h => by cases h⟩

/-- An encoding stands for one value. -/
theorem value_eq_of_encodeNumber {e : Double} (hd : d.Finite) (he : e.Finite)
    (h : encodeNumber e = encodeNumber d) : e.value = d.value := by
  obtain ⟨b, hb⟩ : ∃ b, encodeNumber d = .ok b := hasForm hd
  obtain ⟨x, hx, hxv, -⟩ := decode_encodeNumber hd hb
  obtain ⟨y, hy, hyv, -⟩ := decode_encodeNumber he (h.trans hb)
  cases hx.symm.trans hy
  exact hyv.symm.trans hxv

/-- **Numbers.** A finite number is encoded as the specification has it unless it is an integer of
64 bits whose magnitude is 2^53 at least. -/
theorem asPrescribed_iff (h : d.Finite) : AsPrescribed d ↔ ∀ n, d.IsInt64 n → n.natAbs < 2 ^ 53 := by
  constructor
  · intro hd n hn
    by_contra hlarge
    have hw : d.whole? = none := by
      cases hw : d.whole? with
      | none => rfl
      | some m =>
        obtain ⟨hm, hsmall⟩ := isInt64_of_whole hw
        exact absurd (hm.eq hn ▸ hsmall) hlarge
    have hb := hd.encoded (encodeInt n) (Or.inl ⟨n, hn, rfl⟩)
    rw [encodeNumber_finite h, hw] at hb
    cases hb
  · intro hsmall
    have hencoded : ∀ b, Prescribed d b → encodeNumber d = .ok b := by
      rintro b (⟨n, hn, rfl⟩ | ⟨hn, rfl⟩)
      · rw [encodeNumber_finite h, whole?_iff.mpr ⟨hn.1, hsmall n hn⟩]
      · have hw : d.whole? = none := by
          cases hw : d.whole? with
          | none => rfl
          | some m => exact absurd ⟨m, (isInt64_of_whole hw).1⟩ hn
        rw [encodeNumber_finite h, hw]
    refine ⟨hencoded, fun n _ b hb => ?_, fun b hb => ?_, fun e he => value_eq_of_encodeNumber h he,
      fun b hb => ?_⟩
    · rw [encodeInt, List.length_cons]
      exact Nat.add_le_add_right (length_putUvarint_minimal hb) 1
    · obtain ⟨e, he, hv, hbits⟩ := decode_encodeNumber h hb
      refine ⟨e, he, hv, fun hn => hbits ?_⟩
      cases hw : d.whole? with
      | none => rfl
      | some m => exact absurd ⟨m, (isInt64_of_whole hw).1⟩ hn
    · have henc : encode (.num d) = .ok b := hencoded b hb
      exact form_of_encode henc ▸ isCanonical_form (decodable h)

theorem asPrescribed_iff_one : AsPrescribed one ↔ ∀ n, one.IsInt64 n → n.natAbs < 2 ^ 53 :=
  asPrescribed_iff (finite_ofInt (n := 1) (by decide))

/-- The integer 2^53 is written as a double. -/
theorem large_integer_not_folded : ¬AsPrescribed (ofInt (2 ^ 53)) := by
  intro h
  have hlast : (ofInt (2 ^ 53)).negative = false ∧ (ofInt (2 ^ 53)).significand = 2 ^ 52 ∧
      (ofInt (2 ^ 53)).lastBit = 1076 := by decide +kernel
  have hvalue : (ofInt (2 ^ 53)).value = ((2 ^ 53 : ℤ) : ℚ) := by
    rw [value, hlast.1, hlast.2.1, hlast.2.2]
    norm_num
  have hb := h.encoded (encodeInt (2 ^ 53)) (Or.inl ⟨2 ^ 53, ⟨hvalue, by norm_num, by norm_num⟩, rfl⟩)
  have hne : encodeNumber (ofInt (2 ^ 53)) ≠ .ok (encodeInt (2 ^ 53)) := by decide +kernel
  exact hne hb

end Double

end VoidPalabra
