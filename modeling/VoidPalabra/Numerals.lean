import VoidPalabra.Reread

/-!
# Whole numbers in text

A whole number of at most fifteen digits is printed digit by digit, and read back from
its digits.
-/

namespace VoidPalabra

/-! ### Digits -/

/-- A digit at the end of a run of digits. -/
theorem digitRun_concat {a : Bytes} (ha : ∀ c ∈ a, 0x30 ≤ c ∧ c ≤ 0x39) {v d : ℕ}
    (hv : digitRun a = (v, a.length, [])) (hd : d < 10) :
    digitRun (a ++ [(d + 0x30).toUInt8]) = (v * 10 + d, a.length + 1, []) := by
  induction a generalizing v with
  | nil =>
    cases hv
    have hall : ∀ d < 10, digitRun [(d + 0x30).toUInt8] = (d, 1, []) := by decide
    simpa using hall d hd
  | cons c a ih =>
    have hc := ha c List.mem_cons_self
    rw [digitRun, if_pos hc] at hv
    rw [List.cons_append, digitRun, if_pos hc]
    rcases hr : digitRun a with ⟨w, k, tail⟩
    rw [hr] at hv
    dsimp only at hv
    obtain ⟨hvw, hk, htail⟩ : (c.toNat - 0x30) * 10 ^ k + w = v ∧ k + 1 = (c :: a).length ∧ tail = [] := by
      simpa using hv
    have hk' : k = a.length := by simpa using hk
    subst hk' htail
    rw [ih (fun x hx => ha x (List.mem_cons_of_mem _ hx)) hr]
    simp only [Prod.mk.injEq, List.length_cons, and_true]
    rw [← hvw]
    ring

theorem digitRun_decimal (n : ℕ) : digitRun (decimal n) = (n, (decimal n).length, []) := by
  induction n using Nat.strongRecOn with
  | ind n ih =>
    by_cases hn : n < 10
    · rw [decimal_digit hn]
      have h := digitRun_concat (a := []) (by simp) (v := 0) rfl hn
      simpa using h
    · rw [decimal_step (by omega), digitRun_concat (fun c hc => digit_of_mem_decimal hc)
        (ih (n / 10) (by omega)) (by omega), List.length_append]
      simp only [Prod.mk.injEq, and_true]
      exact ⟨by omega, rfl⟩

/-- Zeros behind a number. -/
theorem decimal_mul_pow {n : ℕ} (h : n ≠ 0) (k : ℕ) :
    decimal (n * 10 ^ k) = decimal n ++ List.replicate k 0x30 := by
  induction k with
  | zero => simp
  | succ k ih =>
    have hpos : 0 < n * 10 ^ k := Nat.mul_pos (Nat.pos_of_ne_zero h) (by positivity)
    have hmul : n * 10 ^ (k + 1) = n * 10 ^ k * 10 := by ring
    rw [hmul, decimal_step (by omega), Nat.mul_div_cancel _ (by decide), Nat.mul_mod_left, ih,
      List.replicate_succ', List.append_assoc]
    rfl

theorem length_decimal {n : ℕ} (h : n ≠ 0) : (decimal n).length = Nat.log 10 n + 1 := by
  rw [decimal, if_neg h, List.length_map, List.length_reverse, Nat.length_digits 10 n (by decide) h]

/-! ### The double of a whole number -/

theorem Double.roundRatio_one {n : ℕ} (h : n < 2 ^ 53) : Double.roundRatio n 1 = Double.roundNat n := by
  by_cases h0 : n = 0
  · subst h0
    rfl
  have hl : n.log2 < 53 := (Nat.log2_lt h0).mpr h
  have hhigh : n * 2 ^ (52 - n.log2) < 2 ^ 53 := by
    calc _ < 2 ^ (n.log2 + 1) * 2 ^ (52 - n.log2) :=
          (Nat.mul_lt_mul_right (Nat.two_pow_pos _)).mpr Nat.lt_log2_self
      _ = 2 ^ 53 := by rw [← pow_add]; congr 1; omega
  have hlast : max (Double.binaryExponent n 1 - 52) (-1074) = (n.log2 : ℤ) - 52 := by
    rw [Double.binaryExponent, if_pos (by omega), Nat.div_one]
    omega
  have h1 : (-((n.log2 : ℤ) - 52)).toNat = 52 - n.log2 := by omega
  have h2 : ((n.log2 : ℤ) - 52).toNat = 0 := by omega
  have h3 : ((n.log2 : ℤ) - 52 + 1074).toNat = n.log2 + 1022 := by omega
  rw [Double.roundNat_small h0 h, Double.roundRatio, if_neg h0]
  dsimp only
  rw [hlast, h1, h2, h3, pow_zero, Nat.mul_one, Double.roundQuotient_one]
  exact min_eq_left (by omega)

/-- Digits are read as the number they spell. -/
theorem strtod_decimal {n : ℕ} (h : n < 2 ^ 53) : strtod (decimal n) = some (Double.ofInt n, []) := by
  have hsign : signAhead (decimal n) = (false, decimal n) := by
    cases hd : decimal n with
    | nil => exact absurd hd (decimal_ne_nil n)
    | cons c rest =>
      have hc := digit_of_mem_decimal (n := n) (c := c) (by rw [hd]; exact List.mem_cons_self)
      unfold signAhead
      split
      · rename_i he
        cases he
        exact absurd hc.1 (by decide)
      · rename_i he
        cases he
        exact absurd hc.1 (by decide)
      · rfl
  have hlen : (decimal n).length ≠ 0 := by
    rw [Ne, List.length_eq_zero_iff]
    exact decimal_ne_nil n
  unfold strtod
  rw [hsign]
  dsimp only
  rw [digitRun_decimal]
  dsimp only
  rw [if_neg (fun hz => hlen hz.1), exponentAhead]
  simp only [pow_zero, Nat.mul_one, Nat.add_zero]
  norm_num
  rw [Double.ofRatio, Double.roundRatio_one h, Double.ofInt]
  have hpos : ¬(n : ℤ) < 0 := by omega
  simp [hpos]

/-- A finite double is close to itself. -/
theorem compareDouble_self (d : Double) : compareDouble d d = true := by
  have hzero : d.absDiff d = ⟨0⟩ := by
    simp [Double.absDiff, Double.ofRatio, Double.roundRatio]
  have hkey : ∀ n m, 0 ≤ (Double.ofRatio false n m).key := by
    intro n m
    have hb : (Double.ofRatio false n m).bits.toNat < 2 ^ 63 := by
      have : Double.roundRatio n m ≤ 2047 * 2 ^ 52 := by
        unfold Double.roundRatio
        split
        · exact Nat.zero_le _
        · exact min_le_right _ _
      simp only [Double.ofRatio, UInt64.toNat_ofNat', Bool.false_eq_true, if_false, Nat.add_zero]
      omega
    have hneg : (Double.ofRatio false n m).negative = false := by
      rw [Double.negative, decide_eq_false_iff_not]
      omega
    rw [Double.key, hneg, if_neg Bool.false_ne_true]
    omega
  unfold compareDouble
  split
  · rfl
  · rw [hzero]
    dsimp only
    rw [Bool.not_eq_true', Double.lt]
    have h0 : (⟨0⟩ : Double).key = 0 := by decide
    rw [h0, decide_eq_false (not_lt.mpr (hkey _ _)), Bool.and_false]

/-- Fifteen digits are enough for a whole number that has no more. -/
theorem formatG_whole {n k : ℕ} (h0 : n ≠ 0) (h : n < 10 ^ 15) :
    formatG 15 (n * 2 ^ k) (2 ^ k) = decimal n := by
  have hlog : Nat.log 10 n < 15 := Nat.log_lt_of_lt_pow h0 h
  have hexp : decimalExponent (n * 2 ^ k) (2 ^ k) = (Nat.log 10 n : ℕ) := by
    rw [decimalExponent, if_pos (Nat.le_mul_of_pos_left _ (Nat.pos_of_ne_zero h0)),
      Nat.mul_div_cancel _ (Nat.two_pow_pos k)]
  have hscaled : scaled (n * 2 ^ k) (2 ^ k) (15 - 1 - (Nat.log 10 n : ℕ)) = n * 10 ^ (14 - Nat.log 10 n) := by
    have h1 : ((15 : ℤ) - 1 - (Nat.log 10 n : ℕ)).toNat = 14 - Nat.log 10 n := by omega
    have h2 : (-((15 : ℤ) - 1 - (Nat.log 10 n : ℕ))).toNat = 0 := by omega
    rw [scaled, h1, h2, pow_zero, Nat.mul_one, Nat.mul_right_comm, Double.roundQuotient]
    have hk : 2 ^ k ≠ 0 := (Nat.two_pow_pos k).ne'
    simp [Nat.mul_div_cancel _ (Nat.two_pow_pos k), hk.symm]
  have hlt : n * 10 ^ (14 - Nat.log 10 n) < 10 ^ 15 := by
    have := Nat.lt_pow_succ_log_self (by decide : 1 < 10) n
    calc _ < 10 ^ (Nat.log 10 n + 1) * 10 ^ (14 - Nat.log 10 n) :=
          (Nat.mul_lt_mul_right (by positivity)).mpr this
      _ = 10 ^ 15 := by rw [← pow_add]; congr 1; omega
  have hdigits : significantDigits 15 (n * 2 ^ k) (2 ^ k) =
      (n * 10 ^ (14 - Nat.log 10 n), (Nat.log 10 n : ℤ)) := by
    unfold significantDigits
    dsimp only
    rw [hexp]
    norm_num only [Nat.cast_ofNat] at hscaled ⊢
    rw [hscaled, if_neg (by omega)]
  have hlen := length_decimal h0
  rw [formatG, hdigits]
  dsimp only
  rw [if_pos ⟨by omega, by omega⟩, if_neg (by omega), decimal_mul_pow h0]
  have htoNat : ((Nat.log 10 n : ℤ) + 1).toNat = (decimal n).length := by
    rw [hlen]
    omega
  rw [htoNat, List.take_left' rfl, List.drop_left' rfl, withFraction, if_pos]
  unfold dropZeros
  rw [List.reverse_replicate]
  simp

/-- The ratio of the double of a whole number. -/
theorem Double.ratio_ofInt {n : ℕ} (h0 : n ≠ 0) (h : n < 2 ^ 53) :
    (Double.ofInt n).ratio = (n * 2 ^ (52 - n.log2), 2 ^ (52 - n.log2)) := by
  obtain ⟨hlast, hsig, -⟩ := Double.ofInt_fields (n := n) (by omega) (by simpa using h)
  have hl : n.log2 < 53 := (Nat.log2_lt h0).mpr h
  rw [Double.ratio, hlast, hsig]
  simp only [Int.natAbs_natCast]
  split
  · have : n.log2 = 52 := by omega
    rw [this]
    simp
  · rw [show 1075 - (n.log2 + 1023) = 52 - n.log2 by omega]

/-- A whole number of at most fifteen digits is printed as its digits. -/
theorem printNumber_ofInt {n : ℕ} (h : n < 10 ^ 15) : printNumber (Double.ofInt n) = decimal n := by
  have h53 : n < 2 ^ 53 := by omega
  have hw : (Double.ofInt n).whole? = some (n : ℤ) := Double.whole?_ofInt (by simpa using h53)
  obtain ⟨hnan, hinf⟩ := Double.whole?_finite hw
  rw [printNumber, hnan, hinf, hw, Bool.or_self, if_neg Bool.false_ne_true]
  by_cases hsmall : n < 2 ^ 31
  · have hin : decide (-(2 ^ 31) ≤ (n : ℤ) ∧ (n : ℤ) < 2 ^ 31) = true := decide_eq_true ⟨by omega, by omega⟩
    rw [Option.filter_some, if_pos (by simpa using hin)]
    simp [signText]
  · have h0 : n ≠ 0 := by omega
    rw [Option.filter_some, if_neg (by simp; omega)]
    obtain ⟨-, -, hneg⟩ := Double.ofInt_fields (n := n) (by omega) (by simpa using h53)
    have hratio := Double.ratio_ofInt h0 h53
    have hsign : signText (Double.ofInt n).negative = [] := by
      rw [hneg]
      simp [signText]
    dsimp only
    rw [hratio, hsign]
    dsimp only
    rw [List.nil_append, formatG_whole h0 h, strtod_decimal h53]
    dsimp only
    rw [compareDouble_self, if_pos rfl]

/-- It is read back. -/
theorem readsBack_ofInt {n : ℕ} (h : n < 10 ^ 15) : (Double.ofInt n).ReadsBack := by
  have hp := printNumber_ofInt h
  have hchar : ∀ c ∈ decimal n, isNumberChar c = true := fun c hc => by
    simp [isNumberChar, digit_of_mem_decimal hc]
  refine ⟨by rw [hp]; exact strtod_decimal (by omega), ?_, by rwa [hp], ?_⟩
  · rw [hp]
    by_cases h0 : n = 0
    · subst h0
      decide
    · rw [length_decimal h0]
      have := Nat.log_lt_of_lt_pow h0 h
      omega
  · rw [hp]
    cases hd : decimal n with
    | nil => exact absurd hd (decimal_ne_nil n)
    | cons c rest =>
      exact ⟨c, rest, rfl, .inr (digit_of_mem_decimal (n := n) (by rw [hd]; exact List.mem_cons_self))⟩

end VoidPalabra
