import VoidPalabra.Reread

/-!
# Reading on

What is read from a text is read from every longer text too, except for a number that ends
with it. So the text of an object that is cut off is read as nothing or as the whole object.
-/

namespace VoidPalabra

/-! ### White space -/

theorem skipWhitespace_append {b rest : Bytes} {c : UInt8} (h : skipWhitespace b = c :: rest)
    (hc : 32 < c) (more : Bytes) : skipWhitespace (b ++ more) = c :: (rest ++ more) := by
  induction b using skipWhitespace.induct with
  | case1 => cases h
  | case2 d =>
    cases h
    exact skipWhitespace_cons hc more
  | case3 d e b hd ih =>
    rw [skipWhitespace, if_pos hd] at h
    rw [List.cons_append, List.cons_append, skipWhitespace, if_pos hd]
    exact ih h
  | case4 d e b hd =>
    rw [skipWhitespace, if_neg hd] at h
    cases h
    exact skipWhitespace_cons hc _

/-- White space is skipped to something else or to the last byte. -/
theorem skipWhitespace_head {b rest : Bytes} {c : UInt8} (h : skipWhitespace b = c :: rest) :
    32 < c ∨ rest = [] := by
  induction b using skipWhitespace.induct with
  | case1 => cases h
  | case2 d =>
    cases h
    exact Or.inr rfl
  | case3 d e b hd ih =>
    rw [skipWhitespace, if_pos hd] at h
    exact ih h
  | case4 d e b hd =>
    rw [skipWhitespace, if_neg hd] at h
    cases h
    exact Or.inl (by simpa using hd)

/-- What stands before something that is no part of a number is no part of one. -/
theorem notNumber_of_skip {b rest : Bytes} {c : UInt8} (h : skipWhitespace b = c :: rest)
    (hc : isNumberChar c = false) : ∃ d tail, b = d :: tail ∧ isNumberChar d = false := by
  match b with
  | [] => cases h
  | [d] =>
    have he : d = c := (List.cons.inj h).1
    exact ⟨d, [], rfl, he ▸ hc⟩
  | d :: e :: tail =>
    refine ⟨d, e :: tail, rfl, ?_⟩
    by_cases hd : d ≤ 32
    · have hspace : ∀ n : ℕ, n ≤ 32 → isNumberChar n.toUInt8 = false := by decide
      simpa using hspace d.toNat (by simpa [UInt8.le_iff_toNat_le] using hd)
    · rw [skipWhitespace, if_neg hd] at h
      cases h
      exact hc

/-! ### Strings and numbers -/

theorem stringEnd_append {b : Bytes} (more : Bytes) :
    ∀ {x : Bytes × Bytes}, stringEnd b = some x → stringEnd (b ++ more) = some (x.1, x.2 ++ more) := by
  induction b using stringEnd.induct with
  | case1 =>
    intro x h
    cases h
  | case2 b =>
    intro x h
    rw [stringEnd.eq_def] at h
    cases h
    rw [List.cons_append, stringEnd.eq_def]
    rfl
  | case3 =>
    intro x h
    rw [stringEnd.eq_def] at h
    cases h
  | case4 d b _ ih =>
    intro x h
    rw [stringEnd_pair] at h
    obtain ⟨y, hy, rfl⟩ := Option.map_eq_some_iff.mp h
    rw [List.cons_append, List.cons_append, stringEnd_pair, ih hy]
    rfl
  | case5 c b hq hb ih =>
    intro x h
    rw [stringEnd_plain hq hb] at h
    obtain ⟨y, hy, rfl⟩ := Option.map_eq_some_iff.mp h
    rw [List.cons_append, stringEnd_plain hq hb, ih hy]
    rfl

theorem parseString_append {b tail : Bytes} {s : CString} (h : parseString b = some (s, tail))
    (more : Bytes) : parseString (b ++ more) = some (s, tail ++ more) := by
  cases b with
  | nil => cases h
  | cons c b =>
    rw [parseString] at h
    rw [List.cons_append, parseString]
    split_ifs at h ⊢ with hc
    cases he : stringEnd b with
    | none =>
      rw [he] at h
      cases h
    | some x =>
      rw [he] at h
      rw [stringEnd_append more he]
      obtain ⟨out, hout, hx⟩ := Option.map_eq_some_iff.mp h
      cases hx
      exact Option.map_eq_some_iff.mpr ⟨out, hout, rfl⟩

theorem parseNumber_append {b tail : Bytes} {d : Double} {c : UInt8}
    (h : parseNumber b = some (d, c :: tail)) (hc : isNumberChar c = false) (more : Bytes) :
    parseNumber (b ++ more) = some (d, c :: tail ++ more) := by
  unfold parseNumber at h ⊢
  dsimp only at h ⊢
  cases hs : strtod ((b.takeWhile isNumberChar).take 63) with
  | none =>
    rw [hs] at h
    cases h
  | some x =>
    rw [hs] at h
    dsimp only at h
    have hdrop := (Prod.mk.inj (Option.some.inj h)).2
    have hstop : (b.takeWhile isNumberChar).length ≠ b.length := by
      intro hlen
      have hall := List.takeWhile_eq_self_iff.mp ((List.takeWhile_prefix isNumberChar).eq_of_length hlen)
      have hmem : c ∈ b := List.mem_of_mem_drop (hdrop ▸ List.mem_cons_self)
      rw [hall c hmem] at hc
      cases hc
    have hle : ((b.takeWhile isNumberChar).take 63).length - x.2.length ≤ b.length := by
      have := (List.takeWhile_prefix isNumberChar (l := b)).length_le
      rw [List.length_take]
      omega
    rw [List.takeWhile_append, if_neg hstop, hs]
    dsimp only
    rw [List.drop_append_of_le_length hle, hdrop, (Prod.mk.inj (Option.some.inj h)).1]

/-! ### Values -/

/-- A reader of values that reads on. -/
structure ReadsOn (value : Bytes → Option (Json × Bytes)) : Prop where
  /-- A value does not begin with white space. -/
  head : ∀ {b x}, value b = some x → ∃ c rest, b = c :: rest ∧ 32 < c
  /-- A value that something follows is read from a longer text. -/
  more : ∀ {b v c tail}, value b = some (v, c :: tail) → isNumberChar c = false →
    ∀ more, value (b ++ more) = some (v, c :: tail ++ more)

section

variable {value : Bytes → Option (Json × Bytes)} (hv : ReadsOn value)

include hv

theorem ReadsOn.skip {b : Bytes} {x : Json × Bytes} (h : value (skipWhitespace b) = some x)
    (more : Bytes) : skipWhitespace (b ++ more) = skipWhitespace b ++ more := by
  obtain ⟨c, rest, hb, hc⟩ := hv.head h
  rw [hb, List.cons_append]
  exact skipWhitespace_append hb hc more

/-- A value, and what is no part of a number behind it. -/
theorem ReadsOn.step {b rest tail : Bytes} {v : Json} {c : UInt8}
    (h : value (skipWhitespace b) = some (v, rest)) (hr : skipWhitespace rest = c :: tail)
    (hc : 32 < c) (hn : isNumberChar c = false) (more : Bytes) :
    value (skipWhitespace (b ++ more)) = some (v, rest ++ more) ∧
      skipWhitespace (rest ++ more) = c :: (tail ++ more) := by
  obtain ⟨d, t, rfl, hd⟩ := notNumber_of_skip hr hn
  exact ⟨by rw [hv.skip h, hv.more h hd], skipWhitespace_append hr hc more⟩

theorem parseItems_append {fuel : ℕ} : ∀ {b tail : Bytes} {items : List Json},
    parseItems value fuel b = some (items, tail) → ∀ {more : Bytes} {fuel' : ℕ}, fuel ≤ fuel' →
      parseItems value fuel' (b ++ more) = some (items, tail ++ more) := by
  induction fuel with
  | zero =>
    intro b tail items h
    cases h
  | succ fuel ih =>
    intro b tail items h more fuel' hf
    obtain ⟨fuel', rfl⟩ : ∃ n, fuel' = n + 1 := ⟨fuel' - 1, by omega⟩
    rw [parseItems] at h ⊢
    split at h
    · cases h
    rename_i v rest hvalue
    split at h
    · cases h
    rename_i c rest' hr
    split_ifs at h with hcomma hclose
    · obtain ⟨x, hx, hx'⟩ := Option.map_eq_some_iff.mp h
      cases hx'
      obtain ⟨hval, hskip⟩ := hv.step hvalue hr (by rw [hcomma]; decide) (by rw [hcomma]; decide) more
      rw [hval]
      dsimp only
      rw [hskip]
      dsimp only
      rw [if_pos hcomma, ih hx (by omega)]
      rfl
    · cases h
      obtain ⟨hval, hskip⟩ := hv.step hvalue hr (by rw [hclose]; decide) (by rw [hclose]; decide) more
      rw [hval]
      dsimp only
      rw [hskip]
      dsimp only
      rw [if_neg hcomma, if_pos hclose]

theorem parseMembers_append {fuel : ℕ} : ∀ {b tail : Bytes} {members : List (CString × Json)},
    parseMembers value fuel b = some (members, tail) → ∀ {more : Bytes} {fuel' : ℕ}, fuel ≤ fuel' →
      parseMembers value fuel' (b ++ more) = some (members, tail ++ more) := by
  induction fuel with
  | zero =>
    intro b tail members h
    cases h
  | succ fuel ih =>
    intro b tail members h more fuel' hf
    obtain ⟨fuel', rfl⟩ : ∃ n, fuel' = n + 1 := ⟨fuel' - 1, by omega⟩
    rw [parseMembers] at h ⊢
    split at h
    · cases h
    rename_i k rest hname
    split at h
    · cases h
    rename_i c rest' hr
    split_ifs at h with hcolon
    split at h
    · cases h
    rename_i v rest'' hvalue
    split at h
    · cases h
    rename_i c' rest''' hr'
    have hkey : skipWhitespace (b ++ more) = skipWhitespace b ++ more := by
      cases hb : skipWhitespace b with
      | nil =>
        rw [hb] at hname
        cases hname
      | cons q t =>
        rw [hb, parseString] at hname
        split_ifs at hname with hq
        exact skipWhitespace_append hb (by rw [not_not.mp hq]; decide) more
    rw [hkey, parseString_append hname]
    dsimp only
    rw [skipWhitespace_append hr (by rw [not_not.mp hcolon]; decide)]
    dsimp only
    rw [if_neg hcolon]
    split_ifs at h with hcomma hclose
    · obtain ⟨x, hx, hx'⟩ := Option.map_eq_some_iff.mp h
      cases hx'
      obtain ⟨hval, hskip⟩ := hv.step hvalue hr' (by rw [hcomma]; decide) (by rw [hcomma]; decide) more
      rw [hval]
      dsimp only
      rw [hskip]
      dsimp only
      rw [if_pos hcomma, ih hx (by omega)]
      rfl
    · cases h
      obtain ⟨hval, hskip⟩ := hv.step hvalue hr' (by rw [hclose]; decide) (by rw [hclose]; decide) more
      rw [hval]
      dsimp only
      rw [hskip]
      dsimp only
      rw [if_neg hcomma, if_pos hclose]

theorem parseArray_append {b tail : Bytes} {v : Json} (h : parseArray value b = some (v, tail))
    (more : Bytes) : parseArray value (b ++ more) = some (v, tail ++ more) := by
  unfold parseArray at h ⊢
  split at h
  · cases h
  rename_i c rest hb
  split_ifs at h with hclose
  · cases h
    rw [skipWhitespace_append hb (by rw [hclose]; decide)]
    dsimp only
    rw [if_pos hclose]
  · obtain ⟨x, hx, hx'⟩ := Option.map_eq_some_iff.mp h
    cases hx'
    have hc : 32 < c := by
      rcases skipWhitespace_head hb with hc | rfl
      · exact hc
      · cases hl : b.length with
        | zero =>
          rw [hl] at hx
          cases hx
        | succ n =>
          rw [hl, parseItems] at hx
          split at hx
          · cases hx
          rename_i hval
          obtain ⟨d, t, hd, hlt⟩ := hv.head hval
          cases hd
          exact hlt
    rw [skipWhitespace_append hb hc]
    dsimp only
    rw [if_neg hclose, ← List.cons_append, parseItems_append hv hx (by simp)]
    rfl

theorem parseObject_append {b tail : Bytes} {v : Json} (h : parseObject value b = some (v, tail))
    (more : Bytes) : parseObject value (b ++ more) = some (v, tail ++ more) := by
  unfold parseObject at h ⊢
  split at h
  · cases h
  rename_i c rest hb
  split_ifs at h with hclose
  · cases h
    rw [skipWhitespace_append hb (by rw [hclose]; decide)]
    dsimp only
    rw [if_pos hclose]
  · obtain ⟨x, hx, hx'⟩ := Option.map_eq_some_iff.mp h
    cases hx'
    have hc : 32 < c := by
      rcases skipWhitespace_head hb with hc | rfl
      · exact hc
      · cases hl : b.length with
        | zero =>
          rw [hl] at hx
          cases hx
        | succ n =>
          rw [hl, parseMembers] at hx
          split at hx
          · cases hx
          rename_i hname
          rw [show skipWhitespace [c] = [c] from rfl, parseString] at hname
          split_ifs at hname with hq
          rw [not_not.mp hq]
          decide
    rw [skipWhitespace_append hb hc]
    dsimp only
    rw [if_neg hclose, ← List.cons_append, parseMembers_append hv hx (by simp)]
    rfl

end

/-- A leaf is one of three words, or begins like none of them. -/
theorem parseLeaf_cases {b tail : Bytes} {v : Json} (h : parseLeaf b = some (v, tail)) :
    (∃ w, b = w ++ tail ∧ ((w = lit "null" ∧ v = .null) ∨ (w = lit "false" ∧ v = .bool false) ∨
      (w = lit "true" ∧ v = .bool true))) ∨
    ∃ c rest, b = c :: rest ∧ c ∉ [0x6E, 0x66, 0x74] ∧ 32 < c := by
  have hword : ∀ {w : Bytes}, w.isPrefixOf b = true → b = w ++ b.drop w.length := fun hw => by
    obtain ⟨t, rfl⟩ := List.isPrefixOf_iff_prefix.mp hw
    rw [List.drop_left]
  unfold parseLeaf at h
  split_ifs at h with hnull hfalse htrue
  · cases h
    exact Or.inl ⟨_, hword hnull, Or.inl ⟨rfl, rfl⟩⟩
  · cases h
    exact Or.inl ⟨_, hword hfalse, Or.inr (Or.inl ⟨rfl, rfl⟩)⟩
  · cases h
    exact Or.inl ⟨_, hword htrue, Or.inr (Or.inr ⟨rfl, rfl⟩)⟩
  · split at h
    · cases h
    rename_i c rest
    right
    refine ⟨c, rest, rfl, ?_⟩
    split_ifs at h with hq hnum
    · rw [hq]
      decide
    · rcases hnum with rfl | hnum
      · decide
      · simp only [List.mem_cons, List.not_mem_nil, or_false, ← UInt8.toNat_inj,
          UInt8.le_iff_toNat_le, UInt8.lt_iff_toNat_lt] at hnum ⊢
        simp at hnum ⊢
        omega

theorem readsOn_parseLeaf : ReadsOn parseLeaf where
  head := by
    intro b x h
    rcases parseLeaf_cases h with ⟨w, rfl, hw⟩ | ⟨c, rest, rfl, -, hc⟩
    · rcases hw with ⟨rfl, -⟩ | ⟨rfl, -⟩ | ⟨rfl, -⟩
      all_goals exact ⟨_, _, rfl, by decide⟩
    · exact ⟨c, rest, rfl, hc⟩
  more := by
    intro b v d tail h hd more
    rcases parseLeaf_cases h with ⟨w, rfl, hw⟩ | ⟨c, rest, rfl, hc, -⟩
    · rw [List.append_assoc]
      rcases hw with ⟨rfl, rfl⟩ | ⟨rfl, rfl⟩ | ⟨rfl, rfl⟩
      all_goals rfl
    · rw [parseLeaf_text hc] at h
      rw [List.cons_append, parseLeaf_text hc]
      split_ifs at h ⊢ with hq hnum
      · obtain ⟨⟨y, t⟩, hx, hx'⟩ := Option.map_eq_some_iff.mp h
        cases hx'
        rw [← List.cons_append, parseString_append hx]
        rfl
      · obtain ⟨⟨y, t⟩, hx, hx'⟩ := Option.map_eq_some_iff.mp h
        cases hx'
        rw [← List.cons_append, parseNumber_append hx hd]
        rfl

theorem readsOn_parseValue (left : ℕ) : ReadsOn (parseValue left) := by
  induction left with
  | zero => exact readsOn_parseLeaf
  | succ left ih =>
    have hcases : ∀ {b : Bytes} {x : Json × Bytes}, parseValue (left + 1) b = some x →
        (∃ rest, b = 0x5B :: rest) ∨ (∃ rest, b = 0x7B :: rest) ∨
          (∃ c rest, b = c :: rest ∧ c ≠ 0x5B ∧ c ≠ 0x7B ∧ parseLeaf b = some x) := by
      intro b x h
      rw [parseValue.eq_def] at h
      dsimp only at h
      split at h
      · exact Or.inl ⟨_, rfl⟩
      · exact Or.inr (Or.inl ⟨_, rfl⟩)
      · rename_i ha ho
        obtain ⟨c, rest, rfl, -⟩ := readsOn_parseLeaf.head h
        exact Or.inr (Or.inr ⟨c, rest, rfl, fun hc => ha rest (by rw [hc]), fun hc => ho rest (by rw [hc]), h⟩)
    constructor
    · intro b x h
      rcases hcases h with ⟨rest, rfl⟩ | ⟨rest, rfl⟩ | ⟨c, rest, rfl, -, -, hleaf⟩
      · exact ⟨_, _, rfl, by decide⟩
      · exact ⟨_, _, rfl, by decide⟩
      · exact readsOn_parseLeaf.head hleaf
    · intro b v d tail h hd more
      rcases hcases h with ⟨rest, rfl⟩ | ⟨rest, rfl⟩ | ⟨c, rest, rfl, ha, ho, hleaf⟩
      · rw [List.cons_append, parseValue_array, parseArray_append ih h]
      · rw [List.cons_append, parseValue_object, parseObject_append ih h]
      · rw [List.cons_append, parseValue_leaf ha ho, ← List.cons_append]
        exact readsOn_parseLeaf.more hleaf hd more

/-- What is read from the beginning of an object's text is read from the whole text. -/
theorem parseJson_append {b : Bytes} {j : Json} (h : parseJson (0x7B :: b) = some j) (more : Bytes) :
    parseJson (0x7B :: (b ++ more)) = some j := by
  have hopen : ∀ b : Bytes, parseJson (0x7B :: b) =
      (parseObject (parseValue (nestingLimit - 1)) b).map Prod.fst := by
    intro b
    have hbom : skipBom (0x7B :: b) = 0x7B :: b := by
      rw [skipBom, if_neg]
      rintro ⟨-, hpre⟩
      cases hpre
    rw [parseJson, hbom, skipWhitespace_cons (by decide)]
    rfl
  rw [hopen] at h ⊢
  obtain ⟨x, hx, rfl⟩ := Option.map_eq_some_iff.mp h
  rw [parseObject_append (readsOn_parseValue _) hx]
  rfl

end VoidPalabra
