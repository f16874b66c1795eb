import VoidPalabra.Decode

/-!
# What the canonical form keeps

An encoding never is a proper prefix of another one, equal encodings come from
values that are equal up to the order of members and the spelling of whole
numbers, and a value within the nesting limit is decoded back from its encoding.
-/

namespace VoidPalabra

open Sorting

/-! ### Varints -/

/-- The loop does not depend on its bound. -/
theorem putUvarintLoop_eq {f g n : ℕ} (hf : n ≤ f) (hg : n ≤ g) :
    putUvarintLoop f n = putUvarintLoop g n := by
  induction f generalizing g n with
  | zero =>
    have h0 : n = 0 := by omega
    subst h0
    cases g <;> rfl
  | succ f ih =>
    cases g with
    | zero =>
      have h0 : n = 0 := by omega
      subst h0
      rfl
    | succ g =>
      rw [putUvarintLoop, putUvarintLoop]
      split
      · rfl
      · exact congrArg _ (ih (by omega) (by omega))

theorem putUvarint_small {n : ℕ} (h : n < 128) : putUvarint n = [n.toUInt8] := by
  unfold putUvarint
  cases n with
  | zero => rfl
  | succ n => rw [putUvarintLoop, if_pos h]

theorem putUvarint_step {n : ℕ} (h : 128 ≤ n) :
    putUvarint n = (n % 128 + 128).toUInt8 :: putUvarint (n / 128) := by
  unfold putUvarint
  cases n with
  | zero => omega
  | succ n =>
    rw [putUvarintLoop, if_neg (by omega)]
    exact congrArg _ (putUvarintLoop_eq (by omega) (le_refl _))

theorem toUInt8_toNat {n : ℕ} (h : n < 256) : n.toUInt8.toNat = n := by
  simp only [Nat.toUInt8, UInt8.toNat_ofNat']
  omega

theorem putUvarint_length_pos (n : ℕ) : 0 < (putUvarint n).length := by
  by_cases h : n < 128
  · simp [putUvarint_small h]
  · simp [putUvarint_step (Nat.le_of_not_lt h)]

/-- A varint is not a proper prefix of another, and determines its number. -/
theorem putUvarint_inj {m n : ℕ} {r s : Bytes} (h : putUvarint m ++ r = putUvarint n ++ s) :
    m = n ∧ r = s := by
  induction m using Nat.strongRecOn generalizing n with
  | ind m ih =>
    by_cases hm : m < 128 <;> by_cases hn : n < 128
    · rw [putUvarint_small hm, putUvarint_small hn] at h
      obtain ⟨hb, hr⟩ := List.cons.inj h
      have hb' := congrArg UInt8.toNat hb
      rw [toUInt8_toNat (by omega), toUInt8_toNat (by omega)] at hb'
      exact ⟨hb', hr⟩
    · rw [putUvarint_small hm, putUvarint_step (by omega)] at h
      have hb := congrArg UInt8.toNat (List.cons.inj h).1
      rw [toUInt8_toNat (by omega), toUInt8_toNat (by omega)] at hb
      omega
    · rw [putUvarint_small hn, putUvarint_step (by omega)] at h
      have hb := congrArg UInt8.toNat (List.cons.inj h).1
      rw [toUInt8_toNat (by omega), toUInt8_toNat (by omega)] at hb
      omega
    · rw [putUvarint_step (by omega : 128 ≤ m), putUvarint_step (by omega : 128 ≤ n)] at h
      obtain ⟨hb, hrest⟩ := List.cons.inj h
      have hb' := congrArg UInt8.toNat hb
      rw [toUInt8_toNat (by omega), toUInt8_toNat (by omega)] at hb'
      obtain ⟨hq, hr⟩ := ih (m / 128) (by omega) hrest
      exact ⟨by omega, hr⟩

/-- The reader takes exactly one varint, up to the bits its bytes may carry. -/
theorem readVarintLoop_putUvarint {left shift v n : ℕ} (rest : Bytes)
    (h : n < 2 ^ (7 * left + 1)) :
    readVarintLoop (left + 1) shift v (putUvarint n ++ rest) = some (v + n * 2 ^ shift, rest) := by
  induction left generalizing shift v n with
  | zero =>
    have hn : n < 2 := by simpa using h
    have hlt : (n.toUInt8 : UInt8) < 0x80 := by
      rw [UInt8.lt_iff_toNat_lt, toUInt8_toNat (by omega)]
      change n < 128
      omega
    have hle : ¬(1 : UInt8) < n.toUInt8 := by
      rw [UInt8.lt_iff_toNat_lt, toUInt8_toNat (by omega)]
      change ¬1 < n
      omega
    rw [putUvarint_small (by omega), List.cons_append, readVarintLoop, if_neg (by simp [hle]),
      if_pos hlt, toUInt8_toNat (by omega), Nat.mod_eq_of_lt (by omega), List.nil_append]
  | succ left ih =>
    by_cases hn : n < 128
    · have hlt : (n.toUInt8 : UInt8) < 0x80 := by
        rw [UInt8.lt_iff_toNat_lt, toUInt8_toNat (by omega)]
        exact hn
      rw [putUvarint_small hn, List.cons_append, readVarintLoop, if_neg (by simp), if_pos hlt,
        toUInt8_toNat (by omega), Nat.mod_eq_of_lt hn, List.nil_append]
    · have hge : ¬((n % 128 + 128).toUInt8 : UInt8) < 0x80 := by
        rw [UInt8.lt_iff_toNat_lt, toUInt8_toNat (by omega)]
        change ¬n % 128 + 128 < 128
        omega
      have hq : n / 128 < 2 ^ (7 * left + 1) := by
        have hp : (2 : ℕ) ^ (7 * (left + 1) + 1) = 2 ^ (7 * left + 1) * 128 := by
          rw [show 7 * (left + 1) + 1 = 7 * left + 1 + 7 by omega, pow_add]
          rfl
        rw [hp] at h
        exact Nat.div_lt_of_lt_mul (by rwa [Nat.mul_comm])
      rw [putUvarint_step (by omega), List.cons_append, readVarintLoop, if_neg (by simp),
        if_neg hge, ih hq, toUInt8_toNat (by omega), Nat.add_mod_right, Nat.mod_mod, pow_add]
      refine congrArg some (Prod.ext ?_ rfl)
      have hd := Nat.div_add_mod n 128
      calc v + n % 128 * 2 ^ shift + n / 128 * (2 ^ shift * 2 ^ 7)
          = v + (128 * (n / 128) + n % 128) * 2 ^ shift := by ring
        _ = v + n * 2 ^ shift := by rw [hd]

/-- Every 64-bit number is read back. -/
theorem readVarint_putUvarint {n : ℕ} (rest : Bytes) (h : n < 2 ^ 64) :
    readVarint (putUvarint n ++ rest) = some (n, rest) := by
  unfold readVarint
  rw [readVarintLoop_putUvarint rest (show n < 2 ^ (7 * 9 + 1) from h), Nat.zero_add, pow_zero, Nat.mul_one]

theorem unzigzag_zigzag (n : ℤ) : unzigzag (zigzag n) = n := by
  unfold unzigzag zigzag
  split <;> split <;> omega

theorem zigzag_lt {n : ℤ} (h : n.natAbs < 2 ^ 53) : zigzag n < 2 ^ 64 := by
  unfold zigzag
  split <;> omega

theorem zigzag_injective {m n : ℤ} (h : zigzag m = zigzag n) : m = n := by
  rw [← unzigzag_zigzag m, h, unzigzag_zigzag]

/-- The eight bytes of a word are read back. -/
theorem readWord_bigEndian (w : UInt64) : readWord (bigEndian w) = w := by
  have hw := w.toNat_lt
  unfold readWord bigEndian
  apply UInt64.toNat_inj.mp
  simp only [List.map_cons, List.map_nil, List.foldl_cons, List.foldl_nil, Nat.toUInt8,
    UInt8.toNat_ofNat', Nat.toUInt64, UInt64.toNat_ofNat']
  norm_num
  omega

/-! ### What encoding succeeds on, and with which bytes -/

/-- Encoding gives bytes rather than an error. -/
def HasForm (j : Json) : Prop := ∃ b, encode j = .ok b

/-- The bytes of a value that has a canonical form. -/
def form (j : Json) : Bytes :=
  match encode j with
  | .ok b => b
  | .error _ => []

/-- The bytes of a key, by which members are sorted. -/
def keyForm (k : CString) : Bytes := strBytes k.bytes

/-- One member, encoded. -/
def memberForm (m : CString × Json) : Bytes × Bytes := (keyForm m.1, form m.2)

theorem form_of_encode {j : Json} {b : Bytes} (h : encode j = .ok b) : form j = b := by
  simp [form, h]

theorem encode_of_hasForm {j : Json} (h : HasForm j) : encode j = .ok (form j) := by
  obtain ⟨b, hb⟩ := h
  rw [form_of_encode hb, hb]

theorem encode_eq_ok {j : Json} {b : Bytes} : encode j = .ok b ↔ HasForm j ∧ b = form j := by
  constructor
  · intro h
    exact ⟨⟨b, h⟩, (form_of_encode h).symm⟩
  · rintro ⟨h, rfl⟩
    exact encode_of_hasForm h

theorem encodeStr_eq_ok {s b : Bytes} :
    encodeStr s = .ok b ↔ validUtf8 s = true ∧ b = strBytes s := by
  unfold encodeStr
  split
  · rename_i h
    simp [h, eq_comm]
  · rename_i h
    simp [h, refuse]

/-- A computation that may fail gives a value exactly when both of its parts do. -/
theorem bind_eq_ok {ε α β : Type} {x : Except ε α} {f : α → Except ε β} {b : β} :
    (x >>= f) = .ok b ↔ ∃ a, x = .ok a ∧ f a = .ok b := by
  cases x <;> simp [bind, Except.bind]

theorem pure_eq_ok {ε α : Type} {a b : α} : (pure a : Except ε α) = .ok b ↔ b = a := by
  simp [pure, Except.pure, eq_comm]

theorem encodeItems_eq_ok {xs : List Json} {bs : List Bytes} :
    encodeItems xs = .ok bs ↔ (∀ x ∈ xs, HasForm x) ∧ bs = xs.map form := by
  induction xs generalizing bs with
  | nil => simp [encodeItems, eq_comm]
  | cons x xs ih =>
    simp only [encodeItems, bind_eq_ok, pure_eq_ok, encode_eq_ok, ih, List.forall_mem_cons,
      List.map_cons]
    constructor
    · rintro ⟨b, ⟨hx, rfl⟩, bs, ⟨hxs, rfl⟩, rfl⟩
      exact ⟨⟨hx, hxs⟩, rfl⟩
    · rintro ⟨⟨hx, hxs⟩, rfl⟩
      exact ⟨_, ⟨hx, rfl⟩, _, ⟨hxs, rfl⟩, rfl⟩

theorem encodeMembers_eq_ok {ms : List (CString × Json)} {ps : List (Bytes × Bytes)} :
    encodeMembers ms = .ok ps ↔
      (∀ m ∈ ms, validUtf8 m.1.bytes = true ∧ HasForm m.2) ∧ ps = ms.map memberForm := by
  induction ms generalizing ps with
  | nil =>
    simp only [encodeMembers, Except.ok.injEq, List.map_nil, List.not_mem_nil, false_implies,
      implies_true, true_and]
    exact eq_comm
  | cons m ms ih =>
    obtain ⟨k, v⟩ := m
    simp only [encodeMembers, bind_eq_ok, pure_eq_ok, encodeStr_eq_ok, encode_eq_ok, ih,
      List.forall_mem_cons, List.map_cons]
    constructor
    · rintro ⟨kb, ⟨hk, rfl⟩, b, ⟨hv, rfl⟩, ps, ⟨hms, rfl⟩, rfl⟩
      exact ⟨⟨⟨hk, hv⟩, hms⟩, rfl⟩
    · rintro ⟨⟨⟨hk, hv⟩, hms⟩, rfl⟩
      exact ⟨_, ⟨hk, rfl⟩, _, ⟨hv, rfl⟩, _, ⟨hms, rfl⟩, rfl⟩

theorem encodeMap_eq_ok {ps : List (Bytes × Bytes)} {b : Bytes} :
    encodeMap ps = .ok b ↔ (ps.map Prod.fst).Nodup ∧ b = mapBytes (sortPairs ps) := by
  unfold encodeMap
  rw [← adjacentEqual_sortOn]
  split
  · rename_i h
    simp [sortPairs, refuse] at h ⊢
    simp [h]
  · rename_i h
    have h' : adjacentEqual Prod.fst (sortOn Prod.fst ps) = false := by
      simpa [sortPairs] using h
    simp [h', eq_comm]

theorem keyForm_injective : Function.Injective keyForm := by
  intro k l h
  simp only [keyForm, strBytes, List.cons_append, List.cons.injEq, true_and] at h
  exact CString.ext (putUvarint_inj h).2

/-- The keys of encoded members repeat exactly when the names do. -/
theorem memberForm_keys_nodup {ms : List (CString × Json)} :
    ((ms.map memberForm).map Prod.fst).Nodup ↔ (ms.map Prod.fst).Nodup := by
  have he : (ms.map memberForm).map Prod.fst = (ms.map Prod.fst).map keyForm := by
    simp [memberForm, Function.comp_def]
  rw [he]
  exact List.nodup_map_iff keyForm_injective

/-- The members of an object in the order of its canonical form. -/
def sortMembers (ms : List (CString × Json)) : List (CString × Json) :=
  sortOn (fun m => keyForm m.1) ms

theorem sortMembers_perm (ms : List (CString × Json)) : (sortMembers ms).Perm ms :=
  sortOn_perm _ ms

/-- Distinct names: distinct sorting keys. -/
theorem keys_nodup {ms : List (CString × Json)} (h : (ms.map Prod.fst).Nodup) :
    (ms.map fun m => keyForm m.1).Nodup := by
  have he : (ms.map fun m => keyForm m.1) = (ms.map Prod.fst).map keyForm := by simp
  rw [he]
  exact h.map keyForm_injective

theorem sortMembers_eq_of_perm {ms ns : List (CString × Json)} (hd : (ms.map Prod.fst).Nodup)
    (h : ms.Perm ns) : sortMembers ms = sortMembers ns :=
  sortOn_eq_of_perm (keys_nodup hd) h

/-- An array has a form when its items have one. -/
theorem encode_arr_eq_ok {xs : List Json} {b : Bytes} :
    encode (.arr xs) = .ok b ↔ (∀ x ∈ xs, HasForm x) ∧ b = encodeSeq (xs.map form) := by
  simp only [encode, bind_eq_ok, pure_eq_ok, encodeItems_eq_ok]
  constructor
  · rintro ⟨bs, ⟨hxs, rfl⟩, rfl⟩
    exact ⟨hxs, rfl⟩
  · rintro ⟨hxs, rfl⟩
    exact ⟨_, ⟨hxs, rfl⟩, rfl⟩

/-- Sorting the encoded members is encoding the sorted members. -/
theorem sortPairs_memberForm {ms : List (CString × Json)} (h : (ms.map Prod.fst).Nodup) :
    sortPairs (ms.map memberForm) = (sortMembers ms).map memberForm :=
  sortOn_map (fun _ _ => rfl) (keys_nodup h)

/-- An object has a form when its names are text and distinct and its values have
one; the order of its members does not matter. -/
theorem encode_obj_eq_ok {ms : List (CString × Json)} {b : Bytes} :
    encode (.obj ms) = .ok b ↔
      (∀ m ∈ ms, validUtf8 m.1.bytes = true ∧ HasForm m.2) ∧ (ms.map Prod.fst).Nodup ∧
        b = mapBytes ((sortMembers ms).map memberForm) := by
  simp only [encode, bind_eq_ok, encodeMembers_eq_ok, encodeMap_eq_ok]
  constructor
  · rintro ⟨ps, ⟨hms, rfl⟩, hd, rfl⟩
    have hd' := memberForm_keys_nodup.mp hd
    exact ⟨hms, hd', by rw [sortPairs_memberForm hd']⟩
  · rintro ⟨hms, hd, rfl⟩
    exact ⟨_, ⟨hms, rfl⟩, memberForm_keys_nodup.mpr hd, by rw [sortPairs_memberForm hd]⟩

theorem hasForm_arr {xs : List Json} : HasForm (.arr xs) ↔ ∀ x ∈ xs, HasForm x := by
  simp [HasForm, encode_arr_eq_ok]

theorem hasForm_obj {ms : List (CString × Json)} :
    HasForm (.obj ms) ↔
      (∀ m ∈ ms, validUtf8 m.1.bytes = true ∧ HasForm m.2) ∧ (ms.map Prod.fst).Nodup := by
  constructor
  · rintro ⟨b, hb⟩
    obtain ⟨hf, hd, -⟩ := encode_obj_eq_ok.mp hb
    exact ⟨hf, hd⟩
  · rintro ⟨hf, hd⟩
    exact ⟨_, encode_obj_eq_ok.mpr ⟨hf, hd, rfl⟩⟩

theorem form_arr {xs : List Json} (h : HasForm (.arr xs)) :
    form (.arr xs) = encodeSeq (xs.map form) :=
  form_of_encode (encode_arr_eq_ok.mpr ⟨hasForm_arr.mp h, rfl⟩)

theorem form_obj {ms : List (CString × Json)} (h : HasForm (.obj ms)) :
    form (.obj ms) = mapBytes ((sortMembers ms).map memberForm) := by
  obtain ⟨hf, hd⟩ := hasForm_obj.mp h
  exact form_of_encode (encode_obj_eq_ok.mpr ⟨hf, hd, rfl⟩)

end VoidPalabra
