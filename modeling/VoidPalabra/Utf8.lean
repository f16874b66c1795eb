import VoidPalabra.Encode

/-!
# Well-formed UTF-8

The validator as it runs, one indexed read after another, where a read past the length has no
value. It finds every byte it asks for, decides what the reading by pattern decides, and
accepts the concatenations of the shortest forms of Unicode scalar values and nothing else.
-/

namespace VoidPalabra

/-- What a leading byte announces: how many bytes follow, and its own payload. -/
def leading (c : UInt8) : Option (ℕ × UInt32) :=
  if c < 0x80 then some (0, c.toUInt32)
  else if c &&& 0xE0 = 0xC0 then some (1, c.toUInt32 &&& 0x1F)
  else if c &&& 0xF0 = 0xE0 then some (2, c.toUInt32 &&& 0x0F)
  else if c &&& 0xF8 = 0xF0 then some (3, c.toUInt32 &&& 0x07)
  else none

/-- The inner loop: the bytes that follow, from the `k`-th on, or nothing when one of them is
no continuation byte. -/
def continuations (s : Bytes) (i : ℕ) : ℕ → ℕ → UInt32 → Option (Option UInt32)
  | 0, _, cp => some (some cp)
  | left + 1, k, cp => do
    let cc ← s[i + k]?
    if cc &&& 0xC0 ≠ 0x80 then pure none
    else continuations s i left (k + 1) ((cp <<< 6) ||| (cc.toUInt32 &&& 0x3F))

/-- Overlong forms, surrogates and what is out of range. -/
def refusedPoint (n : ℕ) (cp : UInt32) : Bool :=
  (n = 1 && cp < 0x80) || (n = 2 && cp < 0x800) || (n = 3 && cp < 0x10000) || cp > 0x10FFFF ||
    (cp ≥ 0xD800 && cp ≤ 0xDFFF)

/-- `valid_utf8` from an index on. -/
def validUtf8From (s : Bytes) (i : ℕ) : Option Bool :=
  if _h : i < s.length then do
    let c ← s[i]?
    match leading c with
    | none => pure false
    | some (n, cp) =>
      if n > 0 ∧ i + n ≥ s.length then pure false
      else
        match ← continuations s i n 1 cp with
        | none => pure false
        | some cp => if refusedPoint n cp then pure false else validUtf8From s (i + n + 1)
  else some true
  termination_by s.length - i

/-! ### Bytes -/

/-- What holds of the first 256 numbers holds of every byte. -/
theorem forall_byte {P : UInt8 → Prop} (h : ∀ n < 256, P n.toUInt8) (c : UInt8) : P c := by
  have := h c.toNat c.toNat_lt
  rwa [Nat.toUInt8_eq, UInt8.ofNat_toNat] at this

/-- The payload of a continuation byte, shifted in. -/
theorem shift_in {cp : UInt32} {c : UInt8} (h : cp.toNat < 2 ^ 26) :
    ((cp <<< 6) ||| (c.toUInt32 &&& 0x3F)).toNat = cp.toNat * 64 + low6 c := by
  have hlow : (c.toUInt32 &&& 0x3F).toNat = low6 c := by
    rw [UInt32.toNat_and, UInt8.toNat_toUInt32, low6]
    exact Nat.and_two_pow_sub_one_eq_mod c.toNat 6
  have hshift : (cp <<< 6).toNat = cp.toNat <<< 6 := by
    rw [UInt32.toNat_shiftLeft, Nat.mod_eq_of_lt]
    · rfl
    · rw [Nat.shiftLeft_eq]
      have : cp.toNat * 2 ^ 6 < 2 ^ 26 * 2 ^ 6 := Nat.mul_lt_mul_of_pos_right h (by decide)
      exact this
  rw [UInt32.toNat_or, hlow, hshift, ← Nat.shiftLeft_add_eq_or_of_lt, Nat.shiftLeft_eq]
  exact Nat.mod_lt _ (by decide)

/-! ### One round of the loop -/

/-- Continuation bytes, joined to a payload. -/
def joinPayload (cp : UInt32) : Bytes → Option UInt32
  | [] => some cp
  | c :: rest =>
    if isContinuation c then joinPayload ((cp <<< 6) ||| (c.toUInt32 &&& 0x3F)) rest else none

theorem getElem?_append_add (pre b : Bytes) (k : ℕ) : (pre ++ b)[pre.length + k]? = b[k]? := by
  rw [List.getElem?_append_right (Nat.le_add_right _ _), Nat.add_sub_cancel_left]

/-- The inner loop finds its bytes when they are there. -/
theorem continuations_eq (pre b : Bytes) {left k : ℕ} (h : k + left ≤ b.length) (cp : UInt32) :
    continuations (pre ++ b) pre.length left k cp =
      some (joinPayload cp ((b.drop k).take left)) := by
  induction left generalizing k cp with
  | zero => simp [continuations, joinPayload]
  | succ left ih =>
    have hk : k < b.length := by omega
    rw [continuations, getElem?_append_add, List.getElem?_eq_getElem hk, List.drop_eq_getElem_cons hk,
      List.take_succ_cons, joinPayload, isContinuation]
    by_cases hc : b[k] &&& 0xC0 = 0x80
    · simp only [Option.bind_eq_bind, Option.bind_some, hc, ne_eq, not_true_eq_false, if_false,
        beq_self_eq_true, if_true]
      exact ih (by omega) _
    · simp [hc]

/-- A sequence with its bytes present is read past, and one that is cut off is refused. -/
theorem validUtf8From_cons (pre : Bytes) {c : UInt8} {n : ℕ} {cp : UInt32} (rest : Bytes)
    (hc : leading c = some (n, cp)) : validUtf8From (pre ++ c :: rest) pre.length =
      if rest.length < n then some false
      else
        match joinPayload cp (rest.take n) with
        | none => some false
        | some cp =>
          if refusedPoint n cp then some false
          else validUtf8From (pre ++ c :: rest) (pre.length + n + 1) := by
  have hget : (pre ++ c :: rest)[pre.length]? = some c := by
    simp
  have hlen : (pre ++ c :: rest).length = pre.length + (rest.length + 1) := by
    rw [List.length_append, List.length_cons]
  rw [validUtf8From, dif_pos (by omega), hget, hlen]
  simp only [Option.bind_eq_bind, Option.bind_some, hc]
  by_cases hn : rest.length < n
  · rw [if_pos hn, if_pos ⟨by omega, by omega⟩]
    rfl
  · rw [if_neg hn, if_neg (by omega), continuations_eq pre (c :: rest) (by simp; omega),
      List.drop_one, List.tail_cons, Option.bind_some]
    rfl

/-- A byte that begins nothing is refused. -/
theorem validUtf8From_stray (pre : Bytes) {c : UInt8} (rest : Bytes) (hc : leading c = none) :
    validUtf8From (pre ++ c :: rest) pre.length = some false := by
  have hget : (pre ++ c :: rest)[pre.length]? = some c := by
    simp
  rw [validUtf8From, dif_pos (by simp), hget]
  simp only [Option.bind_eq_bind, Option.bind_some, hc]
  rfl

/-- The least code point that a sequence of so many continuation bytes may spell. -/
def leastPoint : ℕ → ℕ
  | 0 => 0
  | 1 => 0x80
  | 2 => 0x800
  | _ => 0x10000

/-- A code point is allowed when it is a Unicode scalar value and in its shortest form. -/
theorem codePointAllowed_iff {least cp : ℕ} : codePointAllowed least cp = true ↔
    least ≤ cp ∧ cp ≤ 0x10FFFF ∧ (cp < 0xD800 ∨ 0xDFFF < cp) := by
  simp only [codePointAllowed, Bool.and_eq_true, decide_eq_true_eq, Bool.not_eq_true',
    Bool.and_eq_false_iff, decide_eq_false_iff_not, Nat.not_le, and_assoc]

/-- The rejections of the loop are those of the code point. -/
theorem refusedPoint_eq {n : ℕ} (hn : n ≤ 3) (cp : UInt32) :
    refusedPoint n cp = !codePointAllowed (leastPoint n) cp.toNat := by
  have h : n = 0 ∨ n = 1 ∨ n = 2 ∨ n = 3 := by omega
  rcases h with rfl | rfl | rfl | rfl
  · simp [refusedPoint, codePointAllowed, leastPoint, UInt32.lt_iff_toNat_lt, UInt32.le_iff_toNat_le]
    grind
  · simp [refusedPoint, codePointAllowed, leastPoint, UInt32.lt_iff_toNat_lt, UInt32.le_iff_toNat_le]
    grind
  · simp [refusedPoint, codePointAllowed, leastPoint, UInt32.lt_iff_toNat_lt, UInt32.le_iff_toNat_le]
    grind
  · simp [refusedPoint, codePointAllowed, leastPoint, UInt32.lt_iff_toNat_lt, UInt32.le_iff_toNat_le]
    grind

/-- Continuation bytes, joined to a number. -/
def joined (cp : ℕ) (bs : Bytes) : ℕ := bs.foldl (fun cp c => cp * 64 + low6 c) cp

/-- No payload outgrows its 32 bits. -/
theorem joinPayload_eq {bs : Bytes} : ∀ {cp : UInt32}, (cp.toNat + 1) * 64 ^ bs.length ≤ 2 ^ 32 →
    joinPayload cp bs = none ∧ bs.all isContinuation = false ∨
      ∃ x, joinPayload cp bs = some x ∧ bs.all isContinuation = true ∧ x.toNat = joined cp.toNat bs := by
  induction bs with
  | nil => exact fun {cp} _ => .inr ⟨cp, rfl, rfl, rfl⟩
  | cons c bs ih =>
    intro cp h
    rw [List.length_cons, Nat.pow_succ] at h
    by_cases hc : isContinuation c = true
    · have hpos : 0 < 64 ^ bs.length := Nat.pow_pos (by decide)
      have hcp : cp.toNat < 2 ^ 26 := by nlinarith
      have hlow : low6 c < 64 := Nat.mod_lt _ (by decide)
      have hnext := shift_in hcp (c := c)
      have hbound : (((cp <<< 6) ||| (c.toUInt32 &&& 0x3F)).toNat + 1) * 64 ^ bs.length ≤ 2 ^ 32 := by
        rw [hnext]
        refine Nat.le_trans (Nat.mul_le_mul_right _ (by omega : _ ≤ (cp.toNat + 1) * 64)) ?_
        rwa [Nat.mul_assoc, Nat.mul_comm 64]
      rw [joinPayload, if_pos hc, List.all_cons, hc, Bool.true_and]
      rw [joined, List.foldl_cons, ← hnext]
      exact ih hbound
    · have hc' : isContinuation c = false := by simpa using hc
      rw [joinPayload, if_neg hc, List.all_cons, hc']
      exact .inl ⟨rfl, rfl⟩

/-- The low bits of a leading byte. -/
theorem toNat_lowBits (c : UInt8) : (c.toUInt32 &&& 0x1F).toNat = c.toNat % 32 ∧
    (c.toUInt32 &&& 0x0F).toNat = c.toNat % 16 ∧ (c.toUInt32 &&& 0x07).toNat = c.toNat % 8 := by
  simp only [UInt32.toNat_and, UInt8.toNat_toUInt32]
  exact ⟨Nat.and_two_pow_sub_one_eq_mod c.toNat 5, Nat.and_two_pow_sub_one_eq_mod c.toNat 4,
    Nat.and_two_pow_sub_one_eq_mod c.toNat 3⟩

/-- The four kinds of leading byte. -/
theorem leading_cases {c : UInt8} {n : ℕ} {cp : UInt32} (h : leading c = some (n, cp)) :
    (n = 0 ∧ c < 0x80 ∧ cp.toNat = c.toNat) ∨
    (n = 1 ∧ ¬c < 0x80 ∧ c &&& 0xE0 = 0xC0 ∧ cp.toNat = c.toNat % 32) ∨
    (n = 2 ∧ ¬c < 0x80 ∧ c &&& 0xE0 ≠ 0xC0 ∧ c &&& 0xF0 = 0xE0 ∧ cp.toNat = c.toNat % 16) ∨
    (n = 3 ∧ ¬c < 0x80 ∧ c &&& 0xE0 ≠ 0xC0 ∧ c &&& 0xF0 ≠ 0xE0 ∧ c &&& 0xF8 = 0xF0 ∧
      cp.toNat = c.toNat % 8) := by
  obtain ⟨hb5, hb4, hb3⟩ := toNat_lowBits c
  rw [leading] at h
  by_cases h1 : c < 0x80
  · rw [if_pos h1] at h
    cases h
    exact .inl ⟨rfl, h1, UInt8.toNat_toUInt32 c⟩
  · rw [if_neg h1] at h
    by_cases h2 : c &&& 0xE0 = 0xC0
    · rw [if_pos h2] at h
      cases h
      exact .inr (.inl ⟨rfl, h1, h2, hb5⟩)
    · rw [if_neg h2] at h
      by_cases h3 : c &&& 0xF0 = 0xE0
      · rw [if_pos h3] at h
        cases h
        exact .inr (.inr (.inl ⟨rfl, h1, h2, h3, hb4⟩))
      · rw [if_neg h3] at h
        by_cases h4 : c &&& 0xF8 = 0xF0
        · rw [if_pos h4] at h
          cases h
          exact .inr (.inr (.inr ⟨rfl, h1, h2, h3, h4, hb3⟩))
        · rw [if_neg h4] at h
          cases h

/-- A payload has room for what follows. -/
theorem leading_bound {c : UInt8} {n : ℕ} {cp : UInt32} (h : leading c = some (n, cp)) :
    (cp.toNat + 1) * 64 ^ n ≤ 2 ^ 32 := by
  rcases leading_cases h with ⟨rfl, h1, hcp⟩ | ⟨rfl, -, -, hcp⟩ | ⟨rfl, -, -, -, hcp⟩ |
      ⟨rfl, -, -, -, -, hcp⟩
  · have hlt : c.toNat < 128 := UInt8.lt_iff_toNat_lt.mp h1
    omega
  all_goals omega

/-- A byte of no kind begins nothing. -/
theorem leading_none {c : UInt8} (h : leading c = none) :
    ¬c < 0x80 ∧ c &&& 0xE0 ≠ 0xC0 ∧ c &&& 0xF0 ≠ 0xE0 ∧ c &&& 0xF8 ≠ 0xF0 := by
  rw [leading] at h
  split at h
  · cases h
  rename_i h1
  split at h
  · cases h
  rename_i h2
  split at h
  · cases h
  rename_i h3
  split at h
  · cases h
  rename_i h4
  exact ⟨h1, h2, h3, h4⟩

/-- A code point spelt by a leading byte and some continuation bytes. -/
structure Spells (c : UInt8) (n : ℕ) (cp : UInt32) (taken : Bytes) : Prop where
  /-- The bytes that were announced. -/
  length : taken.length = n
  /-- They continue a sequence. -/
  continued : taken.all isContinuation = true
  /-- In its shortest form. -/
  allowed : codePointAllowed (leastPoint n) (joined cp.toNat taken) = true

/-- Reading by pattern, one code point at a time. -/
theorem validUtf8_cons_iff {c : UInt8} {n : ℕ} {cp : UInt32} (h : leading c = some (n, cp))
    (rest : Bytes) : validUtf8 (c :: rest) = true ↔
      Spells c n cp (rest.take n) ∧ validUtf8 (rest.drop n) = true := by
  have hiff : Spells c n cp (rest.take n) ↔ n ≤ rest.length ∧
      (rest.take n).all isContinuation = true ∧
      codePointAllowed (leastPoint n) (joined cp.toNat (rest.take n)) = true := by
    constructor
    · rintro ⟨h1, h2, h3⟩
      rw [List.length_take] at h1
      exact ⟨by omega, h2, h3⟩
    · rintro ⟨h1, h2, h3⟩
      exact ⟨List.length_take_of_le h1, h2, h3⟩
  rw [hiff]
  rcases leading_cases h with ⟨rfl, h1, hcp⟩ | ⟨rfl, h1, h2, hcp⟩ | ⟨rfl, h1, h2, h3, hcp⟩ |
      ⟨rfl, h1, h2, h3, h4, hcp⟩
  · conv_lhs => unfold validUtf8
    have hlt : c.toNat < 128 := UInt8.lt_iff_toNat_lt.mp h1
    have hallowed : codePointAllowed (leastPoint 0) (joined cp.toNat []) = true := by
      rw [codePointAllowed_iff, joined, List.foldl_nil, leastPoint]
      omega
    simp [h1, hallowed]
  · conv_lhs => unfold validUtf8
    rcases rest with _ | ⟨c1, rest⟩
    · simp [h1, h2]
    · simp [h1, h2, hcp, joined, leastPoint, and_assoc]
  · conv_lhs => unfold validUtf8
    rcases rest with _ | ⟨c1, _ | ⟨c2, rest⟩⟩
    · simp [h1, h2, h3]
    · simp [h1, h2, h3]
    · simp [h1, h2, h3, hcp, joined, leastPoint, and_assoc]
  · conv_lhs => unfold validUtf8
    rcases rest with _ | ⟨c1, _ | ⟨c2, _ | ⟨c3, rest⟩⟩⟩
    · simp [h1, h2, h3, h4]
    · simp [h1, h2, h3, h4]
    · simp [h1, h2, h3, h4]
    · simp [h1, h2, h3, h4, hcp, joined, leastPoint, and_assoc]

/-- A byte that begins nothing is refused. -/
theorem validUtf8_stray {c : UInt8} (h : leading c = none) (rest : Bytes) :
    validUtf8 (c :: rest) = false := by
  obtain ⟨h1, h2, h3, h4⟩ := leading_none h
  unfold validUtf8
  simp [h1, h2, h3, h4]

/-- The loop decides what the reading by pattern decides, and asks for no byte that is not there. -/
theorem validUtf8From_append : ∀ (b pre : Bytes),
    validUtf8From (pre ++ b) pre.length = some (validUtf8 b) := by
  intro b
  induction hlen : b.length using Nat.strongRecOn generalizing b with
  | ind k ih =>
    subst hlen
    intro pre
    cases b with
    | nil => rw [validUtf8From, dif_neg (by simp), validUtf8]
    | cons c rest =>
      cases hc : leading c with
      | none => rw [validUtf8From_stray pre rest hc, validUtf8_stray hc]
      | some x =>
        obtain ⟨n, cp⟩ := x
        have hiff := validUtf8_cons_iff hc rest
        have hrefused : ¬Spells c n cp (rest.take n) → some false = some (validUtf8 (c :: rest)) :=
          fun h => congrArg some (Bool.eq_false_iff.mpr fun hv => h (hiff.mp hv).1).symm
        rw [validUtf8From_cons pre rest hc]
        by_cases hn : rest.length < n
        · rw [if_pos hn]
          refine hrefused fun h => ?_
          have := h.length
          rw [List.length_take] at this
          omega
        · have htake : (rest.take n).length = n := List.length_take_of_le (Nat.le_of_not_lt hn)
          rw [if_neg hn]
          rcases joinPayload_eq (htake.symm ▸ leading_bound hc) with ⟨hx, hall⟩ | ⟨x, hx, hall, hval⟩
          · rw [hx]
            refine hrefused fun h => ?_
            rw [h.continued] at hall
            cases hall
          · have hn3 : n ≤ 3 := by
              rcases leading_cases hc with h | h | h | h <;> omega
            rw [hx]
            dsimp only
            rw [refusedPoint_eq hn3, hval]
            cases hallowed : codePointAllowed (leastPoint n) (joined cp.toNat (rest.take n)) with
            | false =>
              refine hrefused fun h => ?_
              rw [h.allowed] at hallowed
              cases hallowed
            | true =>
              have hspells : Spells c n cp (rest.take n) := ⟨htake, hall, hallowed⟩
              have hsame : validUtf8 (c :: rest) = validUtf8 (rest.drop n) := by
                rw [Bool.eq_iff_iff, hiff, and_iff_right hspells]
              have hnext := ih (rest.drop n).length (by simp) (rest.drop n) rfl
                (pre ++ c :: rest.take n)
              rw [List.append_assoc, List.cons_append, List.take_append_drop, List.length_append,
                List.length_cons, htake, ← Nat.add_assoc] at hnext
              rw [hsame]
              exact hnext

/-! ### The shortest forms -/

/-- A leading byte is its mark and its payload. -/
theorem byte_of_mark (c : UInt8) :
    (c &&& 0xE0 = 0xC0 → UInt8.ofNat (c.toNat % 32 + 0xC0) = c) ∧
    (c &&& 0xF0 = 0xE0 → UInt8.ofNat (c.toNat % 16 + 0xE0) = c) ∧
    (c &&& 0xF8 = 0xF0 → UInt8.ofNat (c.toNat % 8 + 0xF0) = c) ∧
    (isContinuation c = true → UInt8.ofNat (low6 c + 0x80) = c) := by
  revert c
  exact forall_byte (by decide +kernel)

/-- A continuation byte with a payload. -/
theorem continuation_mark {k : ℕ} (h : k < 64) :
    isContinuation (UInt8.ofNat (k + 0x80)) = true ∧ low6 (UInt8.ofNat (k + 0x80)) = k := by
  revert k
  decide

/-- The leading bytes with a payload. -/
theorem leading_mark2 {k : ℕ} (h : k < 32) :
    leading (UInt8.ofNat (k + 0xC0)) = some (1, UInt32.ofNat k) := by
  revert k
  decide

theorem leading_mark3 {k : ℕ} (h : k < 16) :
    leading (UInt8.ofNat (k + 0xE0)) = some (2, UInt32.ofNat k) := by
  revert k
  decide

theorem leading_mark4 {k : ℕ} (h : k < 8) :
    leading (UInt8.ofNat (k + 0xF0)) = some (3, UInt32.ofNat k) := by
  revert k
  decide

/-- What a sequence spells is a character. -/
theorem char_of_spells {c : UInt8} {n : ℕ} {cp : UInt32} {taken : Bytes}
    (hc : leading c = some (n, cp)) (h : Spells c n cp taken) :
    ∃ ch : Char, String.utf8EncodeChar ch = c :: taken := by
  obtain ⟨hlen, hcont, hallowed⟩ := h
  obtain ⟨hleast, hmost, hscalar⟩ := codePointAllowed_iff.mp hallowed
  obtain ⟨v, hv⟩ : ∃ v, v = joined cp.toNat taken := ⟨_, rfl⟩
  rw [← hv] at hleast hmost hscalar
  have hval : (UInt32.ofNat v).toNat = v :=
    UInt32.toNat_ofNat_of_lt (Nat.lt_of_le_of_lt hmost (by decide))
  have hvalid : UInt32.isValidChar (UInt32.ofNat v) := by
    rw [UInt32.isValidChar, hval]
    rcases hscalar with hs | hs
    · exact .inl hs
    · exact .inr ⟨hs, by omega⟩
  refine ⟨⟨UInt32.ofNat v, hvalid⟩, ?_⟩
  rw [String.utf8EncodeChar]
  dsimp only
  rw [hval]
  obtain ⟨hm2, hm3, hm4, -⟩ := byte_of_mark c
  have hmark := fun c => (byte_of_mark c).2.2.2
  have hlow : ∀ c, low6 c < 64 := fun c => Nat.mod_lt _ (by decide)
  rcases leading_cases hc with ⟨rfl, h1, hcp⟩ | ⟨rfl, h1, h2, hcp⟩ | ⟨rfl, h1, h2, h3, hcp⟩ |
      ⟨rfl, h1, h2, h3, h4, hcp⟩
  · obtain rfl := List.length_eq_zero_iff.mp hlen
    have hc128 : c.toNat < 128 := UInt8.lt_iff_toNat_lt.mp h1
    obtain rfl : v = c.toNat := by rw [hv, joined, List.foldl_nil, hcp]
    rw [if_pos (by omega), UInt8.ofNat_toNat]
  · obtain ⟨c1, rfl⟩ := List.length_eq_one_iff.mp hlen
    have hc1 := hmark c1 (by simpa using hcont)
    have hl1 := hlow c1
    have hvj : v = c.toNat % 32 * 64 + low6 c1 := by
      rw [hv, hcp]
      rfl
    have hleast : 0x80 ≤ v := hleast
    rw [if_neg (by omega), if_pos (by omega), show v / 64 % 32 = c.toNat % 32 by omega,
      show v % 64 = low6 c1 by omega, hm2 h2, hc1]
  · obtain ⟨c1, c2, rfl⟩ := List.length_eq_two.mp hlen
    have hall : isContinuation c1 = true ∧ isContinuation c2 = true := by simpa using hcont
    have hc1 := hmark c1 hall.1
    have hc2 := hmark c2 hall.2
    have hl1 := hlow c1
    have hl2 := hlow c2
    have hvj : v = (c.toNat % 16 * 64 + low6 c1) * 64 + low6 c2 := by
      rw [hv, hcp]
      rfl
    have hleast : 0x800 ≤ v := hleast
    rw [if_neg (by omega), if_neg (by omega), if_pos (by omega),
      show v / 4096 % 16 = c.toNat % 16 by omega, show v / 64 % 64 = low6 c1 by omega,
      show v % 64 = low6 c2 by omega, hm3 h3, hc1, hc2]
  · obtain ⟨c1, c2, c3, rfl⟩ := List.length_eq_three.mp hlen
    have hall : isContinuation c1 = true ∧ isContinuation c2 = true ∧ isContinuation c3 = true := by
      simpa using hcont
    have hc1 := hmark c1 hall.1
    have hc2 := hmark c2 hall.2.1
    have hc3 := hmark c3 hall.2.2
    have hl1 := hlow c1
    have hl2 := hlow c2
    have hl3 := hlow c3
    have hvj : v = ((c.toNat % 8 * 64 + low6 c1) * 64 + low6 c2) * 64 + low6 c3 := by
      rw [hv, hcp]
      rfl
    have hleast : 0x10000 ≤ v := hleast
    rw [if_neg (by omega), if_neg (by omega), if_neg (by omega),
      show v / 262144 % 8 = c.toNat % 8 by omega, show v / 4096 % 64 = low6 c1 by omega,
      show v / 64 % 64 = low6 c2 by omega, show v % 64 = low6 c3 by omega, hm4 h4, hc1, hc2, hc3]

/-- A character is spelt by its bytes. -/
theorem spells_char (ch : Char) : ∃ c n cp taken, String.utf8EncodeChar ch = c :: taken ∧
    leading c = some (n, cp) ∧ Spells c n cp taken := by
  obtain ⟨v, hv⟩ : ∃ v, v = ch.val.toNat := ⟨_, rfl⟩
  have hvalid : v < 0xD800 ∨ 0xDFFF < v ∧ v < 0x110000 := hv ▸ ch.valid
  rw [String.utf8EncodeChar, ← hv]
  have hcont : ∀ k, isContinuation (UInt8.ofNat (k % 64 + 0x80)) = true := fun k =>
    (continuation_mark (Nat.mod_lt k (by decide))).1
  have hlow : ∀ k, low6 (UInt8.ofNat (k % 64 + 0x80)) = k % 64 := fun k =>
    (continuation_mark (Nat.mod_lt k (by decide))).2
  have hsmall : ∀ {k}, k < 32 → (UInt32.ofNat k).toNat = k := fun h =>
    UInt32.toNat_ofNat_of_lt (Nat.lt_trans h (by decide))
  by_cases h1 : v ≤ 0x7f
  · have hval : (UInt8.ofNat v).toNat = v := UInt8.toNat_ofNat_of_lt (Nat.lt_of_le_of_lt h1 (by decide))
    have hc : UInt8.ofNat v < 0x80 := by
      rw [UInt8.lt_iff_toNat_lt, hval]
      exact Nat.lt_succ_of_le h1
    rw [if_pos h1]
    refine ⟨_, 0, _, [], rfl, by rw [leading, if_pos hc], rfl, rfl, ?_⟩
    rw [codePointAllowed_iff, joined, List.foldl_nil, UInt8.toNat_toUInt32, hval, leastPoint]
    omega
  rw [if_neg h1]
  by_cases h2 : v ≤ 0x7ff
  · rw [if_pos h2]
    have hk : v / 64 % 32 < 32 := Nat.mod_lt _ (by decide)
    refine ⟨_, _, _, _, rfl, leading_mark2 hk, rfl,
      by simp only [List.all_cons, List.all_nil, hcont, Bool.and_true], ?_⟩
    rw [codePointAllowed_iff, joined, List.foldl_cons, List.foldl_nil, hlow, hsmall hk, leastPoint]
    omega
  rw [if_neg h2]
  by_cases h3 : v ≤ 0xffff
  · rw [if_pos h3]
    have hk : v / 4096 % 16 < 16 := Nat.mod_lt _ (by decide)
    refine ⟨_, _, _, _, rfl, leading_mark3 hk, rfl,
      by simp only [List.all_cons, List.all_nil, hcont, Bool.and_true], ?_⟩
    rw [codePointAllowed_iff, joined, List.foldl_cons, List.foldl_cons, List.foldl_nil, hlow, hlow,
      hsmall (Nat.lt_trans hk (by decide)), leastPoint]
    omega
  · rw [if_neg h3]
    have hk : v / 262144 % 8 < 8 := Nat.mod_lt _ (by decide)
    refine ⟨_, _, _, _, rfl, leading_mark4 hk, rfl,
      by simp only [List.all_cons, List.all_nil, hcont, Bool.and_true], ?_⟩
    rw [codePointAllowed_iff, joined, List.foldl_cons, List.foldl_cons, List.foldl_cons,
      List.foldl_nil, hlow, hlow, hlow, hsmall (Nat.lt_trans hk (by decide)),
      show leastPoint 3 = 0x10000 from rfl]
    omega

/-- Valid UTF-8 is a sequence of characters, each in its one form. -/
theorem validUtf8_iff (b : Bytes) :
    validUtf8 b = true ↔ ∃ cs : List Char, b = cs.flatMap String.utf8EncodeChar := by
  constructor
  · induction hlen : b.length using Nat.strongRecOn generalizing b with
    | ind k ih =>
      subst hlen
      intro hv
      cases b with
      | nil => exact ⟨[], rfl⟩
      | cons c rest =>
        cases hc : leading c with
        | none =>
          rw [validUtf8_stray hc] at hv
          cases hv
        | some x =>
          obtain ⟨n, cp⟩ := x
          obtain ⟨hspells, hrest⟩ := (validUtf8_cons_iff hc rest).mp hv
          obtain ⟨ch, hch⟩ := char_of_spells hc hspells
          obtain ⟨cs, hcs⟩ := ih (rest.drop n).length (by simp) (rest.drop n) rfl hrest
          refine ⟨ch :: cs, ?_⟩
          rw [List.flatMap_cons, hch, ← hcs, List.cons_append, List.take_append_drop]
  · rintro ⟨cs, rfl⟩
    induction cs with
    | nil => rfl
    | cons ch cs ih =>
      obtain ⟨c, n, cp, taken, hch, hc, hspells⟩ := spells_char ch
      rw [List.flatMap_cons, hch, List.cons_append, validUtf8_cons_iff hc]
      obtain rfl := hspells.length
      rw [List.take_left, List.drop_left]
      exact ⟨hspells, ih⟩

/-- The validator reads no byte at or past the length, and accepts a string exactly when it is
the shortest forms of some Unicode scalar values, one after another. -/
theorem validUtf8_characters (s : Bytes) :
    ∃ valid, validUtf8From s 0 = some valid ∧
      (valid = true ↔ ∃ cs : List Char, s = cs.flatMap String.utf8EncodeChar) :=
  ⟨validUtf8 s, validUtf8From_append s [], validUtf8_iff s⟩

end VoidPalabra
