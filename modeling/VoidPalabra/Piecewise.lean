import Mathlib.Data.List.Basic

/-!
# Parsing what arrives in pieces

A parser looks at the front of its input and waits, gives up, or takes an item off it. When a
verdict stays what it is as more input comes, the items of an input do not depend on how it is
cut into pieces.
-/

namespace Piecewise

variable {α β : Type}

/-- What a parser makes of the front of its input. -/
inductive Front (β : Type) where
  /-- More input is needed. -/
  | wait
  /-- The input can not be parsed. -/
  | fail
  /-- An item, and how much of the input it takes up. -/
  | take (item : β) (used : ℕ)

/-- A parser that does not change its mind. -/
structure Steady (step : List α → Front β) : Prop where
  /-- What is taken stays taken. -/
  take_append : ∀ {xs b n}, step xs = .take b n → ∀ ys, step (xs ++ ys) = .take b n
  /-- A failure stays one. -/
  fail_append : ∀ {xs}, step xs = .fail → ∀ ys, step (xs ++ ys) = .fail
  /-- What is taken is there, and it is something. -/
  used : ∀ {xs b n}, step xs = .take b n → 0 < n ∧ n ≤ xs.length

/-- What all of an input is parsed to: its items, and what is left to wait with, or nothing after
a failure. -/
inductive Parsed (step : List α → Front β) : List α → List β → Option (List α) → Prop
  /-- The parser waits. -/
  | wait {xs : List α} (h : step xs = .wait) : Parsed step xs [] (some xs)
  /-- It gives up. -/
  | fail {xs : List α} (h : step xs = .fail) : Parsed step xs [] none
  /-- It takes an item and goes on. -/
  | take {xs : List α} {b : β} {n : ℕ} {bs : List β} {left : Option (List α)}
      (h : step xs = .take b n) (hr : Parsed step (xs.drop n) bs left) : Parsed step xs (b :: bs) left

section

variable {step : List α → Front β} {xs : List α} {bs cs : List β} {left left' : Option (List α)}

/-- An input is parsed in one way. -/
theorem Parsed.unique (h : Parsed step xs bs left) (h' : Parsed step xs cs left') :
    bs = cs ∧ left = left' := by
  induction h generalizing cs left' with
  | wait hw =>
    cases h' with
    | wait => exact ⟨rfl, rfl⟩
    | fail hf => cases hw.symm.trans hf
    | take ht => cases hw.symm.trans ht
  | fail hf =>
    cases h' with
    | wait hw => cases hf.symm.trans hw
    | fail => exact ⟨rfl, rfl⟩
    | take ht => cases hf.symm.trans ht
  | take ht _ ih =>
    cases h' with
    | wait hw => cases ht.symm.trans hw
    | fail hf => cases ht.symm.trans hf
    | take ht' hr' =>
      cases ht.symm.trans ht'
      obtain ⟨rfl, rfl⟩ := ih hr'
      exact ⟨rfl, rfl⟩

/-- Every input is parsed. -/
theorem exists_parsed (hs : Steady step) (xs : List α) : ∃ bs left, Parsed step xs bs left := by
  induction hn : xs.length using Nat.strongRecOn generalizing xs with
  | ind n ih =>
    cases hx : step xs with
    | wait => exact ⟨[], some xs, .wait hx⟩
    | fail => exact ⟨[], none, .fail hx⟩
    | take b k =>
      obtain ⟨hk, hle⟩ := hs.used hx
      obtain ⟨bs, left, hr⟩ := ih (xs.drop k).length (by rw [List.length_drop]; omega) _ rfl
      exact ⟨b :: bs, left, .take hx hr⟩

/-- What is left is waited with. -/
theorem Parsed.left_wait (h : Parsed step xs bs left) {rest : List α} (hl : left = some rest) :
    step rest = .wait := by
  induction h with
  | wait hw =>
    cases hl
    exact hw
  | fail => cases hl
  | take _ _ ih => exact ih hl

/-- More input goes on with what was left. -/
theorem Parsed.append (hs : Steady step) (h : Parsed step xs bs left) {rest ys : List α}
    (hl : left = some rest) (h' : Parsed step (rest ++ ys) cs left') :
    Parsed step (xs ++ ys) (bs ++ cs) left' := by
  induction h with
  | wait =>
    cases hl
    exact h'
  | fail => cases hl
  | @take xs b n bs left ht _ ih =>
    refine .take (hs.take_append ht ys) ?_
    rw [List.drop_append_of_le_length (hs.used ht).2]
    exact ih hl

/-- After a failure more input changes nothing. -/
theorem Parsed.append_failed (hs : Steady step) (h : Parsed step xs bs left) (hl : left = none)
    (ys : List α) : Parsed step (xs ++ ys) bs none := by
  induction h with
  | wait => cases hl
  | fail hf => exact .fail (hs.fail_append hf ys)
  | @take xs b n bs left ht _ ih =>
    refine .take (hs.take_append ht ys) ?_
    rw [List.drop_append_of_le_length (hs.used ht).2]
    exact ih hl


end

end Piecewise
