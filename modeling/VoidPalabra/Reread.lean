import VoidPalabra.Parse
import VoidPalabra.RoundTrip

/-!
# Reading back what was printed

A tree whose containers do not nest too deep, and whose numbers are printed so that they
are read back, is read back from its text, whatever follows the text.
-/

namespace VoidPalabra

/-! ### White space -/

theorem skipWhitespace_cons {c : UInt8} (h : 32 < c) (b : Bytes) : skipWhitespace (c :: b) = c :: b := by
  cases b with
  | nil => rfl
  | cons d b => rw [skipWhitespace, if_neg (by simpa using h)]

/-! ### Strings -/

theorem stringEnd_plain {c : UInt8} (hq : c ≠ 0x22) (hb : c ≠ 0x5C) (tail : Bytes) :
    stringEnd (c :: tail) = (stringEnd tail).map fun x => (c :: x.1, x.2) := by
  rw [stringEnd.eq_def]
  dsimp only
  rw [if_neg hq, if_neg hb]

theorem stringEnd_pair (d : UInt8) (tail : Bytes) :
    stringEnd (0x5C :: d :: tail) = (stringEnd tail).map fun x => (0x5C :: d :: x.1, x.2) := by
  rw [stringEnd.eq_def]
  rfl

theorem hexDigit_plain {n : ℕ} (h : n < 16) : hexDigit n ≠ 0x22 ∧ hexDigit n ≠ 0x5C := by
  have hall : ∀ n < 16, hexDigit n ≠ 0x22 ∧ hexDigit n ≠ 0x5C := by decide
  exact hall n h

/-- The characters of an escape are no quotes, and what follows a backslash is passed
over with it. -/
theorem stringEnd_escapeByte (c : UInt8) (tail : Bytes) :
    stringEnd (escapeByte c ++ tail) = (stringEnd tail).map fun x => (escapeByte c ++ x.1, x.2) := by
  unfold escapeByte
  split
  · exact stringEnd_pair 0x5C tail
  split
  · exact stringEnd_pair 0x22 tail
  split
  · exact stringEnd_pair 0x62 tail
  split
  · exact stringEnd_pair 0x66 tail
  split
  · exact stringEnd_pair 0x6E tail
  split
  · exact stringEnd_pair 0x72 tail
  split
  · exact stringEnd_pair 0x74 tail
  split
  · have h1 := hexDigit_plain (n := c.toNat / 16) (by have := c.toNat_lt; omega)
    have h2 := hexDigit_plain (n := c.toNat % 16) (by omega)
    change stringEnd (0x5C :: 0x75 :: 0x30 :: 0x30 :: _ :: _ :: tail) = _
    rw [stringEnd_pair, stringEnd_plain (by decide) (by decide), stringEnd_plain (by decide) (by decide),
      stringEnd_plain h1.1 h1.2, stringEnd_plain h2.1 h2.2]
    simp only [Option.map_map]
    rfl
  · rename_i hb hq _ _ _ _ _ _
    exact stringEnd_plain hq hb tail

theorem unescapeLoop_plain {c : UInt8} (h : c ≠ 0x5C) (fuel : ℕ) (tail : Bytes) :
    unescapeLoop (fuel + 1) (c :: tail) = (unescapeLoop fuel tail).map (c :: ·) := by
  rw [unescapeLoop.eq_def]
  dsimp only
  rw [if_pos h]

theorem unescapeLoop_pair {d e : UInt8} (hd : escaped? d = some e) (fuel : ℕ) (tail : Bytes) :
    unescapeLoop (fuel + 1) (0x5C :: d :: tail) = (unescapeLoop fuel tail).map (e :: ·) := by
  have hu : d ≠ 0x75 := by
    rintro rfl
    cases hd
  rw [unescapeLoop.eq_def]
  dsimp only
  rw [if_neg (by decide), if_neg hu, hd]

/-- The literal of a control character. -/
theorem utf16Literal_control {n : ℕ} (h : n < 32) (tail : Bytes) :
    utf16Literal (0x5C :: 0x75 :: 0x30 :: 0x30 :: hexDigit (n / 16) :: hexDigit (n % 16) :: tail) =
      some ([n.toUInt8], tail) := by
  have hall : ∀ n < 32, parseHex4 [0x30, 0x30, hexDigit (n / 16), hexDigit (n % 16)] = n := by decide
  have hfirst : parseHex4 (0x30 :: 0x30 :: hexDigit (n / 16) :: hexDigit (n % 16) :: tail) = n :=
    hall n h
  rw [utf16Literal, if_neg (by simp)]
  simp only [List.drop_succ_cons, List.drop_zero, hfirst]
  rw [if_neg (by omega), if_neg (by omega), utf8Bytes, if_pos (by omega)]

/-- An escape is read back as the character. -/
theorem unescapeLoop_escapeByte {c : UInt8} (fuel : ℕ) (tail : Bytes) :
    unescapeLoop (fuel + 1) (escapeByte c ++ tail) = (unescapeLoop fuel tail).map (c :: ·) := by
  unfold escapeByte
  split
  · subst c; exact unescapeLoop_pair rfl fuel tail
  split
  · subst c; exact unescapeLoop_pair rfl fuel tail
  split
  · subst c; exact unescapeLoop_pair rfl fuel tail
  split
  · subst c; exact unescapeLoop_pair rfl fuel tail
  split
  · subst c; exact unescapeLoop_pair rfl fuel tail
  split
  · subst c; exact unescapeLoop_pair rfl fuel tail
  split
  · subst c; exact unescapeLoop_pair rfl fuel tail
  split
  · rename_i hc
    change unescapeLoop (fuel + 1) (0x5C :: 0x75 :: 0x30 :: 0x30 :: _ :: _ :: tail) = _
    rw [unescapeLoop.eq_def]
    dsimp only
    rw [if_neg (by decide), if_pos rfl,
      utf16Literal_control (n := c.toNat) (by simpa [UInt8.lt_iff_toNat_lt] using hc)]
    simp
  · rename_i hb _ _ _ _ _ _ _
    exact unescapeLoop_plain hb fuel tail

theorem escapeByte_ne_nil (c : UInt8) : escapeByte c ≠ [] := by
  unfold escapeByte
  repeat' split
  all_goals simp [lit]

theorem stringEnd_escaped (b rest : Bytes) :
    stringEnd (b.flatMap escapeByte ++ 0x22 :: rest) = some (b.flatMap escapeByte, rest) := by
  induction b with
  | nil =>
    rw [List.flatMap_nil, List.nil_append, stringEnd.eq_def]
    rfl
  | cons c b ih =>
    rw [List.flatMap_cons, List.append_assoc, stringEnd_escapeByte, ih]
    rfl

theorem unescapeLoop_escaped {b : Bytes} :
    ∀ fuel, b.length ≤ fuel → unescapeLoop fuel (b.flatMap escapeByte) = some b := by
  induction b with
  | nil =>
    intro fuel _
    cases fuel <;> rfl
  | cons c b ih =>
    intro fuel hf
    cases fuel with
    | zero => cases hf
    | succ fuel =>
      rw [List.flatMap_cons, unescapeLoop_escapeByte, ih fuel (by simpa using hf)]
      rfl

theorem length_le_escaped (b : Bytes) : b.length ≤ (b.flatMap escapeByte).length := by
  induction b with
  | nil => exact le_rfl
  | cons c b ih =>
    have := List.length_pos_iff.mpr (escapeByte_ne_nil c)
    rw [List.flatMap_cons, List.length_append, List.length_cons]
    omega

/-- A string is read back. -/
theorem parseString_printString (s : CString) (rest : Bytes) :
    parseString (printString s ++ rest) = some (s, rest) := by
  have htext : printString s ++ rest = 0x22 :: (s.bytes.flatMap escapeByte ++ 0x22 :: rest) := by
    simp [printString]
  rw [htext, parseString, if_neg (by simp), stringEnd_escaped]
  dsimp only
  rw [unescape, unescapeLoop_escaped _ (length_le_escaped _), Option.map_some, CString.ofBytes_bytes]

/-! ### Numbers -/

/-- A number is printed so that it is read back. -/
structure Double.ReadsBack (d : Double) : Prop where
  /-- The number that the text stands for. -/
  value : strtod (printNumber d) = some (d, [])
  /-- The text is looked at as a whole. -/
  length : (printNumber d).length ≤ 63
  /-- It has no other characters. -/
  chars : ∀ c ∈ printNumber d, isNumberChar c = true
  /-- It begins like a number. -/
  head : ∃ c text, printNumber d = c :: text ∧ (c = 0x2D ∨ 0x30 ≤ c ∧ c ≤ 0x39)

/-- Text that does not go on with a number. -/
def EndsNumber (b : Bytes) : Prop := ∀ c ∈ b.head?, isNumberChar c = false

theorem parseNumber_printNumber {d : Double} (h : d.ReadsBack) {rest : Bytes} (hr : EndsNumber rest) :
    parseNumber (printNumber d ++ rest) = some (d, rest) := by
  have htake : (printNumber d ++ rest).takeWhile isNumberChar = printNumber d := by
    rw [List.takeWhile_append_of_pos h.chars]
    cases rest with
    | nil => simp
    | cons c rest =>
      rw [List.takeWhile_cons_of_neg (by simp [hr c rfl]), List.append_nil]
  rw [parseNumber, htake, List.take_of_length_le h.length, h.value]
  simp

/-! ### Trees -/

/-- Containers nest at most so deep, and numbers are read back. -/
def Printable : ℕ → Json → Prop
  | _, .null => True
  | _, .bool _ => True
  | _, .str _ => True
  | _, .num d => d.ReadsBack
  | 0, .arr _ => False
  | 0, .obj _ => False
  | left + 1, .arr items => ∀ v ∈ items, Printable left v
  | left + 1, .obj members => ∀ m ∈ members, Printable left m.2

/-- A value's text begins with a character that is not white space. -/
theorem printValue_head {left : ℕ} {j : Json} (h : Printable left j) :
    ∃ c text, printValue j = c :: text ∧ 32 < c ∧ c ≠ 0x5D ∧ c ≠ 0xEF := by
  cases j with
  | null => exact ⟨_, _, rfl, by decide⟩
  | bool b => cases b <;> exact ⟨_, _, rfl, by decide⟩
  | num d =>
    have hd : d.ReadsBack := by cases left <;> exact h
    obtain ⟨c, text, he, hc⟩ := hd.head
    refine ⟨c, text, he, ?_⟩
    rcases hc with rfl | hc
    · decide
    · simp only [UInt8.lt_iff_toNat_lt, UInt8.le_iff_toNat_le, ne_eq, ← UInt8.toNat_inj] at hc ⊢
      simp at hc ⊢
      omega
  | str s => exact ⟨_, _, rfl, by decide⟩
  | arr items => exact ⟨_, _, rfl, by decide⟩
  | obj members => exact ⟨_, _, rfl, by decide⟩

theorem skipWhitespace_printValue {left : ℕ} {j : Json} (h : Printable left j) (rest : Bytes) :
    skipWhitespace (printValue j ++ rest) = printValue j ++ rest := by
  obtain ⟨c, text, he, hc, -⟩ := printValue_head h
  rw [he, List.cons_append, skipWhitespace_cons hc]

/-- A value is read back, whatever follows it. -/
def ReadBack (value : Bytes → Option (Json × Bytes)) (j : Json) : Prop :=
  ∀ rest, EndsNumber rest → value (printValue j ++ rest) = some (j, rest)

section

variable {left : ℕ} {value : Bytes → Option (Json × Bytes)}

/-- So are the items of an array. -/
theorem parseItems_printItems {v : Json} {items : List Json}
    (hp : ∀ u ∈ v :: items, Printable left u) (hv : ∀ u ∈ v :: items, ReadBack value u) (tail : Bytes) :
    ∀ fuel, items.length < fuel →
      parseItems value fuel (printItems (v :: items) ++ 0x5D :: tail) = some (v :: items, tail) := by
  induction items generalizing v with
  | nil =>
    intro fuel hf
    obtain ⟨fuel, rfl⟩ := Nat.exists_eq_succ_of_ne_zero (by omega : fuel ≠ 0)
    have htext : printItems [v] ++ 0x5D :: tail = printValue v ++ 0x5D :: tail := by
      simp [printItems]
    rw [htext, parseItems, skipWhitespace_printValue (hp v List.mem_cons_self),
      hv v List.mem_cons_self _ (by simp [EndsNumber, isNumberChar])]
    dsimp only
    rw [skipWhitespace_cons (by decide)]
    rfl
  | cons u items ih =>
    intro fuel hf
    obtain ⟨fuel, rfl⟩ := Nat.exists_eq_succ_of_ne_zero (by omega : fuel ≠ 0)
    have htext : printItems (v :: u :: items) ++ 0x5D :: tail =
        printValue v ++ 0x2C :: (printItems (u :: items) ++ 0x5D :: tail) := by
      rw [printItems]
      simp
    rw [htext, parseItems, skipWhitespace_printValue (hp v List.mem_cons_self),
      hv v List.mem_cons_self _ (by simp [EndsNumber, isNumberChar])]
    dsimp only
    rw [skipWhitespace_cons (by decide)]
    dsimp only
    rw [if_pos rfl, ih (fun w hw => hp w (List.mem_cons_of_mem _ hw))
      (fun w hw => hv w (List.mem_cons_of_mem _ hw)) fuel (by simpa using hf)]
    rfl

/-- So are the members of an object. -/
theorem parseMembers_printMembers {m : CString × Json} {members : List (CString × Json)}
    (hp : ∀ u ∈ m :: members, Printable left u.2) (hv : ∀ u ∈ m :: members, ReadBack value u.2)
    (tail : Bytes) :
    ∀ fuel, members.length < fuel →
      parseMembers value fuel (printMembers (m :: members) ++ 0x7D :: tail) = some (m :: members, tail) := by
  have hname : ∀ (k : CString) (rest : Bytes), skipWhitespace (printString k ++ rest) = printString k ++ rest :=
    fun k rest => skipWhitespace_cons (by decide) _
  induction members generalizing m with
  | nil =>
    intro fuel hf
    obtain ⟨fuel, rfl⟩ := Nat.exists_eq_succ_of_ne_zero (by omega : fuel ≠ 0)
    obtain ⟨k, v⟩ := m
    have htext : printMembers [(k, v)] ++ 0x7D :: tail =
        printString k ++ 0x3A :: (printValue v ++ 0x7D :: tail) := by
      simp [printMembers]
    rw [htext, parseMembers, hname, parseString_printString]
    dsimp only
    rw [skipWhitespace_cons (by decide)]
    dsimp only
    rw [if_neg (by decide), skipWhitespace_printValue (hp _ List.mem_cons_self),
      hv _ List.mem_cons_self _ (by simp [EndsNumber, isNumberChar])]
    dsimp only
    rw [skipWhitespace_cons (by decide)]
    rfl
  | cons u members ih =>
    intro fuel hf
    obtain ⟨fuel, rfl⟩ := Nat.exists_eq_succ_of_ne_zero (by omega : fuel ≠ 0)
    obtain ⟨k, v⟩ := m
    have htext : printMembers ((k, v) :: u :: members) ++ 0x7D :: tail =
        printString k ++ 0x3A :: (printValue v ++ 0x2C :: (printMembers (u :: members) ++ 0x7D :: tail)) := by
      rw [printMembers]
      simp
    rw [htext, parseMembers, hname, parseString_printString]
    dsimp only
    rw [skipWhitespace_cons (by decide)]
    dsimp only
    rw [if_neg (by decide), skipWhitespace_printValue (hp _ List.mem_cons_self),
      hv _ List.mem_cons_self _ (by simp [EndsNumber, isNumberChar])]
    dsimp only
    rw [skipWhitespace_cons (by decide)]
    dsimp only
    rw [if_pos rfl, ih (fun w hw => hp w (List.mem_cons_of_mem _ hw))
      (fun w hw => hv w (List.mem_cons_of_mem _ hw)) fuel (by simpa using hf)]
    rfl

end

theorem length_le_printItems {left : ℕ} {items : List Json} (h : ∀ v ∈ items, Printable left v) :
    items.length ≤ (printItems items).length := by
  induction items with
  | nil => exact le_rfl
  | cons v items ih =>
    obtain ⟨c, text, he, -⟩ := printValue_head (h v List.mem_cons_self)
    have := ih fun u hu => h u (List.mem_cons_of_mem _ hu)
    rw [printItems, he]
    simp only [List.length_append, List.length_cons]
    omega

theorem length_le_printMembers (members : List (CString × Json)) :
    members.length ≤ (printMembers members).length := by
  induction members with
  | nil => exact le_rfl
  | cons m members ih =>
    obtain ⟨k, v⟩ := m
    rw [printMembers]
    simp only [List.length_append, List.length_cons]
    omega

/-- Text that begins with no bracket or brace is no container. -/
theorem parseValue_leaf {c : UInt8} (ha : c ≠ 0x5B) (ho : c ≠ 0x7B) (left : ℕ) (b : Bytes) :
    parseValue left (c :: b) = parseLeaf (c :: b) := by
  cases left with
  | zero => rfl
  | succ left =>
    rw [parseValue.eq_def]
    dsimp only
    split
    · rename_i h
      cases h
      exact absurd rfl ha
    · rename_i h
      cases h
      exact absurd rfl ho
    · rfl

theorem parseValue_array (left : ℕ) (b : Bytes) :
    parseValue (left + 1) (0x5B :: b) = parseArray (parseValue left) b := rfl

theorem parseValue_object (left : ℕ) (b : Bytes) :
    parseValue (left + 1) (0x7B :: b) = parseObject (parseValue left) b := rfl

/-- Text that begins with no letter is a string or a number. -/
theorem parseLeaf_text {c : UInt8} (h : c ∉ [0x6E, 0x66, 0x74]) (b : Bytes) :
    parseLeaf (c :: b) =
      if c = 0x22 then (parseString (c :: b)).map fun (s, tail) => (.str s, tail)
      else if c = 0x2D ∨ (0x30 ≤ c ∧ c ≤ 0x39) then
        (parseNumber (c :: b)).map fun (d, tail) => (.num d, tail)
      else none := by
  have hno : ∀ (w : Bytes) (d : UInt8), d ∈ [0x6E, 0x66, 0x74] → (d :: w).isPrefixOf (c :: b) = false := by
    intro w d hd
    rw [List.isPrefixOf_cons_cons, Bool.and_eq_false_iff]
    left
    simp only [beq_eq_false_iff_ne]
    rintro rfl
    exact h hd
  have hnull : (lit "null").isPrefixOf (c :: b) = false := hno _ 0x6E (by decide)
  have hfalse : (lit "false").isPrefixOf (c :: b) = false := hno _ 0x66 (by decide)
  have htrue : (lit "true").isPrefixOf (c :: b) = false := hno _ 0x74 (by decide)
  rw [parseLeaf, hnull, hfalse, htrue]
  rfl

/-- A tree is read back from its text. -/
theorem parseValue_printValue : ∀ {left : ℕ} {j : Json}, Printable left j → ReadBack (parseValue left) j := by
  have hword : ∀ left {rest : Bytes},
      parseValue left (printValue .null ++ rest) = some (.null, rest) ∧
      ∀ b, parseValue left (printValue (.bool b) ++ rest) = some (.bool b, rest) := by
    intro left rest
    cases left with
    | zero => exact ⟨rfl, fun b => by cases b <;> rfl⟩
    | succ left => exact ⟨rfl, fun b => by cases b <;> rfl⟩
  have hstr : ∀ left s {rest : Bytes},
      parseValue left (printValue (.str s) ++ rest) = some (.str s, rest) := by
    intro left s rest
    have hs := parseString_printString s rest
    rw [show printValue (.str s) = printString s from rfl]
    rw [show printString s ++ rest = 0x22 :: ((s.bytes.flatMap escapeByte ++ [0x22]) ++ rest) from rfl] at hs ⊢
    rw [parseValue_leaf (by decide) (by decide), parseLeaf_text (by decide), if_pos rfl, hs]
    rfl
  have hnum : ∀ left {d : Double} {rest : Bytes}, d.ReadsBack → EndsNumber rest →
      parseValue left (printValue (.num d) ++ rest) = some (.num d, rest) := by
    intro left d rest hd hr
    obtain ⟨c, text, he, hc⟩ := hd.head
    have hn := parseNumber_printNumber hd hr
    rw [show printValue (.num d) = printNumber d from rfl, he] at *
    rw [List.cons_append] at hn ⊢
    have hne : c ∉ [0x5B, 0x7B, 0x6E, 0x66, 0x74, 0x22] := by
      rcases hc with rfl | hc
      · decide
      · simp only [List.mem_cons, List.not_mem_nil, or_false, ← UInt8.toNat_inj,
          UInt8.le_iff_toNat_le] at hc ⊢
        simp at hc ⊢
        omega
    simp only [List.mem_cons, List.not_mem_nil, or_false, not_or] at hne
    rw [parseValue_leaf hne.1 hne.2.1, parseLeaf_text (by simp [hne]), if_neg hne.2.2.2.2.2, if_pos hc, hn]
    rfl
  intro left
  induction left with
  | zero =>
    intro j h rest hr
    cases j with
    | null => exact (hword 0).1
    | bool b => exact (hword 0).2 b
    | num d => exact hnum 0 h hr
    | str s => exact hstr 0 s
    | arr items => exact h.elim
    | obj members => exact h.elim
  | succ left ih =>
    intro j h rest hr
    cases j with
    | null => exact (hword _).1
    | bool b => exact (hword _).2 b
    | num d => exact hnum _ h hr
    | str s => exact hstr _ s
    | arr items =>
      have htext : printValue (.arr items) ++ rest = 0x5B :: (printItems items ++ 0x5D :: rest) := by
        simp [printValue]
      rw [htext, parseValue_array]
      cases items with
      | nil =>
        unfold parseArray
        rw [printItems, List.nil_append, skipWhitespace_cons (by decide)]
        rfl
      | cons v items =>
        have hv : ∀ u ∈ v :: items, Printable left u := h
        obtain ⟨c, text, he, hc, hne, -⟩ := printValue_head (hv v List.mem_cons_self)
        have hlen := length_le_printItems hv
        have hread := parseItems_printItems hv (fun u hu => ih (hv u hu)) rest
          (printItems (v :: items) ++ 0x5D :: rest).length (by
            rw [List.length_append]
            simp only [List.length_cons] at hlen ⊢
            omega)
        obtain ⟨more, hmore⟩ : ∃ more, printItems (v :: items) ++ 0x5D :: rest = c :: more := by
          rw [printItems, he]
          exact ⟨_, rfl⟩
        rw [hmore] at hread ⊢
        unfold parseArray
        rw [skipWhitespace_cons hc]
        dsimp only
        rw [if_neg hne, hread]
        rfl
    | obj members =>
      have htext : printValue (.obj members) ++ rest = 0x7B :: (printMembers members ++ 0x7D :: rest) := by
        simp [printValue]
      rw [htext, parseValue_object]
      cases members with
      | nil =>
        unfold parseObject
        rw [printMembers, List.nil_append, skipWhitespace_cons (by decide)]
        rfl
      | cons m members =>
        have hv : ∀ u ∈ m :: members, Printable left u.2 := h
        have hlen := length_le_printMembers (m :: members)
        have hread := parseMembers_printMembers hv (fun u hu => ih (hv u hu)) rest
          (printMembers (m :: members) ++ 0x7D :: rest).length (by
            rw [List.length_append]
            simp only [List.length_cons] at hlen ⊢
            omega)
        obtain ⟨more, hmore⟩ : ∃ more, printMembers (m :: members) ++ 0x7D :: rest = 0x22 :: more := by
          rw [printMembers]
          exact ⟨_, rfl⟩
        rw [hmore] at hread ⊢
        unfold parseObject
        rw [skipWhitespace_cons (by decide)]
        dsimp only
        rw [if_neg (by decide), hread]
        rfl

/-- So is a tree as a whole. -/
theorem parseJson_printed {j : Json} (h : Printable nestingLimit j) : parseJson (printed j) = some j := by
  obtain ⟨c, text, he, hc, -, hbyte⟩ := printValue_head h
  have hread := parseValue_printValue h [] (by simp [EndsNumber])
  rw [List.append_nil] at hread
  have hbom : skipBom (printValue j) = printValue j := by
    rw [skipBom, he, if_neg]
    rintro ⟨-, hpre⟩
    rw [List.isPrefixOf_cons_cons, Bool.and_eq_true, beq_iff_eq] at hpre
    exact hbyte hpre.1.symm
  rw [parseJson, printed, hbom, he, skipWhitespace_cons hc, ← he, hread]
  rfl

end VoidPalabra
