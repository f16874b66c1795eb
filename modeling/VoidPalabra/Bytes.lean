import Mathlib

/-!
# Bytes, C strings and decimal counters

The source moves two kinds of text: `std::string` values, which are arbitrary
bytes, and the NUL-terminated strings a cJSON tree holds. The second kind is a
subtype here, so that a name with a NUL in it cannot be written down. Ordered
maps and sets over C strings are the standard library's extensional trees,
ordered by unsigned bytes as `strcmp` and `std::string` order them.
-/

namespace VoidPalabra

/-- A `std::string`: arbitrary bytes. -/
abbrev Bytes := List UInt8

instance : LawfulBEq Bytes := inferInstanceAs (LawfulBEq (List UInt8))

/-- The bytes of an ASCII literal of the source. -/
def lit (s : String) : Bytes := s.toList.map fun c => c.toNat.toUInt8

/-- A NUL-terminated string, as cJSON holds names and string values. -/
@[ext] structure CString where
  /-- The bytes before the terminator. -/
  bytes : Bytes
  /-- The terminator ends the string, so it is not inside it. -/
  noNul : (0 : UInt8) ∉ bytes
  deriving DecidableEq

namespace CString

/-- What a check that succeeds comes to. -/
theorem checked : true = true := rfl

/-- A literal is checked for a NUL by looking at its bytes. -/
theorem noNul_lit (s : String) (h : decide ((0 : UInt8) ∉ lit s) = true) : (0 : UInt8) ∉ lit s :=
  of_decide_eq_true h

/-- A literal C string of the source. -/
def ofLit (s : String)
    (h : (0 : UInt8) ∉ lit s := by exact VoidPalabra.CString.noNul_lit _ VoidPalabra.CString.checked) :
    CString :=
  ⟨lit s, h⟩

/-- `c_str()` of an arbitrary `std::string`: everything before the first NUL. -/
def ofBytes (b : Bytes) : CString :=
  ⟨b.takeWhile (· ≠ 0), fun h => by simpa using List.mem_takeWhile_imp h⟩

/-- The empty string. -/
def empty : CString := ⟨[], by simp⟩

/-- Concatenation of two C strings. -/
def append (a b : CString) : CString := ⟨a.bytes ++ b.bytes, by simp [a.noNul, b.noNul]⟩

instance : Append CString := ⟨append⟩

@[simp] theorem append_bytes (a b : CString) : (a ++ b).bytes = a.bytes ++ b.bytes := rfl

/-- `strncmp(s, prefix, strlen(prefix)) == 0`. -/
def startsWith (s pre : CString) : Bool := pre.bytes.isPrefixOf s.bytes

/-- `s + n` on a `const char*` that is at least `n` long. -/
def drop (s : CString) (n : ℕ) : CString :=
  ⟨s.bytes.drop n, fun h => s.noNul (List.mem_of_mem_drop h)⟩

/-- The first byte is the terminator. -/
def isEmpty (s : CString) : Bool := s.bytes.isEmpty

/-- A C string without NUL is what `c_str()` of its bytes gives back. -/
@[simp] theorem ofBytes_bytes (s : CString) : ofBytes s.bytes = s := by
  ext1
  refine List.takeWhile_eq_self_iff.mpr fun c hc => ?_
  have hne : c ≠ 0 := by
    rintro rfl
    exact s.noNul hc
  simpa using hne

/-- What follows a prefix is found by dropping its length. -/
theorem append_drop (pre s : CString) : (pre ++ s).drop pre.bytes.length = s := by
  ext1
  simp [drop]

/-- A string with a prefix is that prefix and the rest. -/
theorem eq_append_of_startsWith {s pre : CString} (h : s.startsWith pre = true) :
    s = pre ++ s.drop pre.bytes.length := by
  obtain ⟨t, ht⟩ := List.isPrefixOf_iff_prefix.mp h
  ext1
  simp [drop, ← ht]

theorem startsWith_append (pre s : CString) : (pre ++ s).startsWith pre = true :=
  List.isPrefixOf_iff_prefix.mpr (List.prefix_append _ _)

/-- A fixed prefix can be cancelled. -/
theorem append_left_cancel {pre s t : CString} (h : pre ++ s = pre ++ t) : s = t := by
  ext1
  exact List.append_cancel_left (congrArg bytes h)

theorem isEmpty_iff (s : CString) : s.isEmpty = true ↔ s = empty := by
  cases s with
  | mk b h => simp [isEmpty, empty]

instance : Ord CString := ⟨fun a b => compare a.bytes b.bytes⟩

theorem compare_def (a b : CString) : compare a b = compare a.bytes b.bytes := rfl

instance : Std.TransOrd CString where
  eq_swap := by
    intro a b
    exact (Std.OrientedCmp.eq_swap : compare a.bytes b.bytes = (compare b.bytes a.bytes).swap)
  isLE_trans := by
    intro a b c h k
    exact (Std.TransCmp.isLE_trans : (compare a.bytes b.bytes).isLE →
      (compare b.bytes c.bytes).isLE → (compare a.bytes c.bytes).isLE) h k

instance : Std.LawfulEqOrd CString where
  compare_self := by
    intro a
    exact (Std.ReflCmp.compare_self : compare a.bytes a.bytes = .eq)
  eq_of_compare := by
    intro a b h
    exact CString.ext (Std.LawfulEqCmp.eq_of_compare (h : compare a.bytes b.bytes = .eq))

end CString

/-- `std::map` keyed by C strings. -/
abbrev Dict (β : Type) := Std.ExtTreeMap CString β compare

/-- `std::set` of C strings. -/
abbrev NameSet := Std.ExtTreeSet CString compare

/-- `std::set<std::string>`: sorted and without repetition. -/
abbrev ByteSet := Std.ExtTreeSet Bytes compare

/-- The keys of a map are distinct. -/
theorem dict_keys_nodup {β : Type} (d : Dict β) : (d.toList.map Prod.fst).Nodup := by
  refine List.pairwise_map.mpr (d.distinct_keys_toList.imp fun h he => h ?_)
  rw [he]
  exact Std.ReflCmp.compare_self

/-- What a map built from a list holds was in the list. -/
theorem mem_of_getElem?_ofList {β : Type} {l : List (CString × β)} {k : CString} {v : β}
    (h : (Std.ExtTreeMap.ofList l compare : Dict β)[k]? = some v) : (k, v) ∈ l := by
  have hfold : ∀ (l : List (CString × β)) (d : Dict β),
      (l.foldl (fun d p => d.insert p.1 p.2) d)[k]? = some v → (k, v) ∈ l ∨ d[k]? = some v := by
    intro l
    induction l with
    | nil => exact fun d h => .inr h
    | cons p l ih =>
      intro d h
      rcases ih _ h with h | h
      · exact .inl (List.mem_cons_of_mem _ h)
      · rw [Std.ExtTreeMap.getElem?_insert] at h
        split at h
        · rename_i hk
          cases h
          rw [← Std.LawfulEqCmp.eq_of_compare hk]
          exact .inl List.mem_cons_self
        · exact .inr h
  rw [Std.ExtTreeMap.ofList_eq_foldl] at h
  rcases hfold l ∅ h with h | h
  · exact h
  · simp at h

/-- With distinct keys, a map built from a list holds exactly the list. -/
theorem getElem?_ofList {β : Type} {l : List (CString × β)} (hd : (l.map Prod.fst).Nodup)
    {k : CString} {v : β} :
    (Std.ExtTreeMap.ofList l compare : Dict β)[k]? = some v ↔ (k, v) ∈ l := by
  constructor
  · exact mem_of_getElem?_ofList
  · intro h
    refine Std.ExtTreeMap.getElem?_ofList_of_mem Std.ReflCmp.compare_self ?_ h
    refine (List.pairwise_map.mp hd).imp fun hne he => hne ?_
    exact Std.LawfulEqCmp.eq_of_compare he

/-- A list sorted by unsigned bytes with repetitions dropped: `std::sort` followed
by erasing what `std::unique` leaves behind. -/
def sortUnique (xs : List Bytes) : List Bytes := (Std.ExtTreeSet.ofList xs compare).toList

@[simp] theorem mem_sortUnique {xs : List Bytes} {b : Bytes} : b ∈ sortUnique xs ↔ b ∈ xs := by
  simp [sortUnique, Std.ExtTreeSet.mem_ofList]

/-- Only the elements matter to a sorted list without repetition. -/
theorem sortUnique_congr {xs ys : List Bytes} (h : ∀ b, b ∈ xs ↔ b ∈ ys) :
    sortUnique xs = sortUnique ys := by
  unfold sortUnique
  congr 1
  refine Std.ExtTreeSet.ext_mem fun b => ?_
  simpa [Std.ExtTreeSet.mem_ofList] using h b

theorem sortUnique_eq_nil_iff {xs : List Bytes} : sortUnique xs = [] ↔ xs = [] := by
  constructor
  · intro h
    refine List.eq_nil_iff_forall_not_mem.mpr fun b hb => ?_
    have hm := mem_sortUnique.mpr hb
    simp [h] at hm
  · rintro rfl
    rfl

/-! ### Decimal counters -/

/-- `std::to_string` of an unsigned integer. -/
def decimal (n : ℕ) : Bytes :=
  if n = 0 then [0x30] else ((Nat.digits 10 n).reverse.map fun d => (d + 0x30).toUInt8)

/-- The largest accumulator that one more digit cannot push past 64 bits:
`(UINT64_MAX - 9) / 10`. -/
def digitGuard : ℕ := (2 ^ 64 - 1 - 9) / 10

/-- The digit loop of `own_counter` and `stamp_of`: refuse a byte that is not a
digit, and refuse to overflow. -/
def readDecimal : ℕ → Bytes → Option ℕ
  | n, [] => some n
  | n, c :: rest =>
    if c < 0x30 ∨ 0x39 < c ∨ digitGuard < n then none
    else readDecimal (n * 10 + (c.toNat - 0x30)) rest

theorem readDecimal_append (n : ℕ) (a b : Bytes) :
    readDecimal n (a ++ b) = (readDecimal n a).bind fun m => readDecimal m b := by
  induction a generalizing n with
  | nil => rfl
  | cons c rest ih =>
    rw [List.cons_append, readDecimal, readDecimal]
    split
    · rfl
    · exact ih _

/-- The decimal text of a number ends in its last digit. -/
theorem decimal_step {n : ℕ} (h : 10 ≤ n) :
    decimal n = decimal (n / 10) ++ [(n % 10 + 0x30).toUInt8] := by
  have h0 : n ≠ 0 := by omega
  have h1 : n / 10 ≠ 0 := by omega
  have hd : Nat.digits 10 n = n % 10 :: Nat.digits 10 (n / 10) :=
    Nat.digits_def' (by decide) (by omega)
  rw [decimal, if_neg h0, decimal, if_neg h1, hd]
  simp

/-- A number below ten is one digit. -/
theorem decimal_digit {n : ℕ} (h : n < 10) : decimal n = [(n + 0x30).toUInt8] := by
  interval_cases n <;> decide

theorem readDecimal_digit {m d : ℕ} (hm : m ≤ digitGuard) (hd : d < 10) :
    readDecimal m [(d + 0x30).toUInt8] = some (m * 10 + d) := by
  have hg : ¬digitGuard < m := by omega
  interval_cases d <;> simp [readDecimal, hg]

/-- The digit loop reads back every counter that fits. -/
theorem readDecimal_decimal {n : ℕ} (h : n ≤ digitGuard * 10 + 9) :
    readDecimal 0 (decimal n) = some n := by
  induction n using Nat.strongRecOn with
  | ind n ih =>
    by_cases hn : n < 10
    · rw [decimal_digit hn, readDecimal_digit (Nat.zero_le _) hn, Nat.zero_mul, Nat.zero_add]
    · have hq : n / 10 ≤ digitGuard := by omega
      rw [decimal_step (by omega), readDecimal_append, ih _ (by omega) (by omega)]
      change readDecimal (n / 10) _ = _
      rw [readDecimal_digit hq (by omega)]
      congr 1
      omega

theorem decimal_ne_nil (n : ℕ) : decimal n ≠ [] := by
  by_cases hn : n < 10
  · simp [decimal_digit hn]
  · simp [decimal_step (by omega : 10 ≤ n)]

/-- Every byte of a decimal text is a digit. -/
theorem digit_of_mem_decimal {n : ℕ} {c : UInt8} (h : c ∈ decimal n) : 0x30 ≤ c ∧ c ≤ 0x39 := by
  induction n using Nat.strongRecOn with
  | ind n ih =>
    by_cases hn : n < 10
    · rw [decimal_digit hn, List.mem_singleton] at h
      subst h
      interval_cases n <;> decide
    · rw [decimal_step (by omega), List.mem_append, List.mem_singleton] at h
      rcases h with h | rfl
      · exact ih _ (by omega) h
      · have hd : n % 10 < 10 := by omega
        interval_cases n % 10 <;> decide

/-- Distinct counters have distinct texts. -/
theorem decimal_injective {m n : ℕ} (h : decimal m = decimal n) : m = n := by
  induction m using Nat.strongRecOn generalizing n with
  | ind m ih =>
    have hd : ∀ {a b : ℕ}, a < 10 → b < 10 → (a + 0x30).toUInt8 = (b + 0x30).toUInt8 → a = b := by
      intro a b ha hb he
      have he' := congrArg UInt8.toNat he
      simp only [Nat.toUInt8, UInt8.toNat_ofNat'] at he'
      omega
    by_cases hm : m < 10 <;> by_cases hn : n < 10
    · rw [decimal_digit hm, decimal_digit hn] at h
      exact hd hm hn (List.cons.inj h).1
    · rw [decimal_digit hm, decimal_step (by omega : 10 ≤ n)] at h
      have hl := congrArg List.length h
      have := List.length_pos_of_ne_nil (decimal_ne_nil (n / 10))
      simp only [List.length_append, List.length_singleton] at hl
      omega
    · rw [decimal_digit hn, decimal_step (by omega : 10 ≤ m)] at h
      have hl := congrArg List.length h
      have := List.length_pos_of_ne_nil (decimal_ne_nil (m / 10))
      simp only [List.length_append, List.length_singleton] at hl
      omega
    · rw [decimal_step (by omega : 10 ≤ m), decimal_step (by omega : 10 ≤ n)] at h
      obtain ⟨hq, hr⟩ := List.append_inj' h rfl
      have h1 := ih (m / 10) (by omega) hq
      have h2 := hd (by omega : m % 10 < 10) (by omega : n % 10 < 10) (List.cons.inj hr).1
      omega

end VoidPalabra
