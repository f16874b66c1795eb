import Mathlib.Data.List.Perm.Basic

/-!
# The longest so far

A loop over candidates keeps the first one and replaces it only by one that is longer than it
by more than a slack. Without slack it ends with a longest candidate, whatever the order. With
a slack of one it does so in every order exactly when no candidate is one shorter than a
longest one.
-/

namespace Longest

variable {α : Type} (weight : α → ℕ)

/-- One round of the loop. -/
def keep (slack : ℕ) (best : Option α) (x : α) : Option α :=
  match best with
  | none => some x
  | some b => if weight b + slack < weight x then some x else some b

/-- The whole loop. -/
def longest (slack : ℕ) (xs : List α) : Option α := xs.foldl (keep weight slack) none

variable {weight} {slack : ℕ} {xs : List α}

/-- A loop that has a candidate ends with one, and no candidate is longer by more than the slack. -/
theorem foldl_keep (xs : List α) (b : α) :
    ∃ c, xs.foldl (keep weight slack) (some b) = some c ∧ c ∈ b :: xs ∧ weight b ≤ weight c ∧
      ∀ x ∈ b :: xs, weight x ≤ weight c + slack := by
  induction xs generalizing b with
  | nil =>
    refine ⟨b, rfl, List.mem_cons_self, Nat.le_refl _, fun x hx => ?_⟩
    rw [List.mem_singleton.mp hx]
    exact Nat.le_add_right _ _
  | cons y xs ih =>
    rw [List.foldl_cons, keep]
    split_ifs with hy
    · obtain ⟨c, hc, hmem, hle, hall⟩ := ih y
      refine ⟨c, hc, List.mem_cons_of_mem _ hmem, by omega, fun x hx => ?_⟩
      rcases List.mem_cons.mp hx with rfl | hx
      · omega
      · exact hall x hx
    · obtain ⟨c, hc, hmem, hle, hall⟩ := ih b
      refine ⟨c, hc, ?_, hle, fun x hx => ?_⟩
      · rcases List.mem_cons.mp hmem with rfl | hmem
        · exact List.mem_cons_self
        · exact List.mem_cons_of_mem _ (List.mem_cons_of_mem _ hmem)
      · rcases List.mem_cons.mp hx with rfl | hx
        · exact hall _ List.mem_cons_self
        · rcases List.mem_cons.mp hx with rfl | hx
          · omega
          · exact hall x (List.mem_cons_of_mem _ hx)

theorem longest_eq_none : longest weight slack xs = none ↔ xs = [] := by
  cases xs with
  | nil => exact ⟨fun _ => rfl, fun _ => rfl⟩
  | cons x xs =>
    obtain ⟨c, hc, -⟩ := @foldl_keep α weight slack xs x
    constructor
    · intro h
      change xs.foldl _ (some x) = none at h
      rw [hc] at h
      cases h
    · intro h
      cases h

/-- The loop ends with a candidate that none exceeds by more than the slack. -/
theorem longest_spec {c : α} (h : longest weight slack xs = some c) :
    c ∈ xs ∧ ∀ x ∈ xs, weight x ≤ weight c + slack := by
  cases xs with
  | nil => cases h
  | cons x xs =>
    obtain ⟨d, hd, hmem, -, hall⟩ := @foldl_keep α weight slack xs x
    obtain rfl : d = c := Option.some.inj (hd.symm.trans h)
    exact ⟨hmem, hall⟩

/-- A candidate that comes before any longer by more than the slack is never replaced. -/
theorem longest_cons {x : α} (h : ∀ y ∈ xs, weight y ≤ weight x + slack) :
    longest weight slack (x :: xs) = some x := by
  change xs.foldl (keep weight slack) (some x) = some x
  induction xs with
  | nil => rfl
  | cons y xs ih =>
    have hy := h y List.mem_cons_self
    rw [List.foldl_cons, keep, if_neg (by omega)]
    exact ih fun z hz => h z (List.mem_cons_of_mem _ hz)

/-- With a slack of one the loop finds a longest candidate when none is one shorter. -/
theorem longest_of_gap {c m : α} (h : longest weight 1 xs = some c) (hm : m ∈ xs)
    (hmax : ∀ x ∈ xs, weight x ≤ weight m) (hgap : ∀ x ∈ xs, weight x + 1 ≠ weight m) :
    weight c = weight m := by
  obtain ⟨hc, hall⟩ := longest_spec h
  have hle := hmax c hc
  have hge := hall m hm
  have hne := hgap c hc
  omega

end Longest
