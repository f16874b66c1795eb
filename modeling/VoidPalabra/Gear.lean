import Mathlib.Data.BitVec
import Mathlib.Algebra.BigOperators.Group.Finset.Basic
import Mathlib.Algebra.BigOperators.Intervals

/-!
# Gear hashes

A gear hash rolls over a sequence: it is shifted by one and takes the weight of the next item. In a
register of `w` bits an item's weight has left the register after `w` shifts, so once `w` items
have gone by the hash is a sum over the last `w` of them (`windowSum_of_le`), wherever the rolling
began. A search that stops at the first hit is the other half of a chunker: where it stops depends
on the items up to there alone (`firstHit_extend`).
-/

namespace Gear

variable {α : Type} {w : ℕ}

/-- One item more. -/
def roll (g : α → BitVec w) (h : BitVec w) (b : α) : BitVec w := (h <<< 1) + g b

/-- The weights of the `n` items before position `i`, each shifted by its distance. -/
def windowSum (g : α → BitVec w) (items : ℕ → α) (i n : ℕ) : BitVec w :=
  ∑ d ∈ Finset.range n, g (items (i - 1 - d)) <<< d

section
variable (g : α → BitVec w) (items : ℕ → α)

@[simp] theorem windowSum_zero (i : ℕ) : windowSum g items i 0 = 0 := rfl

/-- A shift goes through a sum. -/
theorem sum_shiftLeft (f : ℕ → BitVec w) (n k : ℕ) :
    (∑ d ∈ Finset.range n, f d) <<< k = ∑ d ∈ Finset.range n, f d <<< k := by
  induction n with
  | zero => simp
  | succ n ih => rw [Finset.sum_range_succ, Finset.sum_range_succ, BitVec.shiftLeft_add_distrib, ih]

/-- **Rolling over the next item takes in one more item.** -/
theorem roll_windowSum (i n : ℕ) :
    roll g (windowSum g items i n) (items i) = windowSum g items (i + 1) (n + 1) := by
  have hstep : ∀ d, g (items (i + 1 - 1 - (d + 1))) <<< (d + 1) =
      (g (items (i - 1 - d)) <<< d) <<< 1 := by
    intro d
    have hpos : i + 1 - 1 - (d + 1) = i - 1 - d := by omega
    rw [hpos, ← BitVec.shiftLeft_add]
  unfold roll windowSum
  rw [Finset.sum_range_succ', sum_shiftLeft, Finset.sum_congr rfl fun d _ => hstep d]
  simp

/-- **Items further back than the register is wide do not count.** -/
theorem windowSum_of_le {n : ℕ} (h : w ≤ n) (i : ℕ) :
    windowSum g items i n = windowSum g items i w := by
  induction n, h using Nat.le_induction with
  | base => rfl
  | succ n hle ih =>
    have hgone : g (items (i - 1 - n)) <<< n = 0 := BitVec.shiftLeft_eq_zero hle
    rw [← ih, windowSum, windowSum, Finset.sum_range_succ, hgone, add_zero]

/-- Only the items in the window count. -/
theorem windowSum_congr {items items' : ℕ → α} {i i' n : ℕ}
    (h : ∀ d < n, items (i - 1 - d) = items' (i' - 1 - d)) :
    windowSum g items i n = windowSum g items' i' n :=
  Finset.sum_congr rfl fun d hd => by rw [h d (Finset.mem_range.mp hd)]

end

/-! ### Searches that stop at the first hit -/

/-- The first of the `n` positions from `i` on that hits, or the one after them. -/
def firstHit (hit : ℕ → Bool) : ℕ → ℕ → ℕ
  | 0, i => i
  | n + 1, i => if hit i then i else firstHit hit n (i + 1)

section
variable {hit hit' : ℕ → Bool}

theorem firstHit_bounds {n i : ℕ} : i ≤ firstHit hit n i ∧ firstHit hit n i ≤ i + n := by
  induction n generalizing i with
  | zero => exact ⟨le_rfl, le_rfl⟩
  | succ n ih =>
    rw [firstHit]
    split
    · exact ⟨le_rfl, by omega⟩
    · have := @ih (i + 1)
      omega

theorem firstHit_congr {n i : ℕ} (h : ∀ j, i ≤ j → j < i + n → hit j = hit' j) :
    firstHit hit n i = firstHit hit' n i := by
  induction n generalizing i with
  | zero => rfl
  | succ n ih =>
    rw [firstHit, firstHit, h i le_rfl (by omega), ih fun j hj hlt => h j (by omega) (by omega)]

/-- Nothing before the first hit hits. -/
theorem not_hit_of_lt_firstHit {n i j : ℕ} (hij : i ≤ j) (hj : j < firstHit hit n i) :
    hit j = false := by
  induction n generalizing i with
  | zero => exact absurd hij (Nat.not_le.mpr hj)
  | succ n ih =>
    rw [firstHit] at hj
    split_ifs at hj with hi
    · exact absurd hij (Nat.not_le.mpr hj)
    · rcases Nat.eq_or_lt_of_le hij with rfl | hlt
      · exact Bool.eq_false_iff.mpr hi
      · exact ih hlt hj

/-- A search that stops before its end stops at a hit. -/
theorem hit_firstHit {n i : ℕ} (h : firstHit hit n i < i + n) : hit (firstHit hit n i) = true := by
  induction n generalizing i with
  | zero => exact absurd h (Nat.lt_irrefl i)
  | succ n ih =>
    rw [firstHit] at h ⊢
    split_ifs at h ⊢ with hi
    · exact hi
    · exact ih (by omega)

/-- The first hit is the only one with no hit before it. -/
theorem firstHit_eq {n i j : ℕ} (hij : i ≤ j) (hjn : j < i + n) (hj : hit j = true)
    (hbefore : ∀ k, i ≤ k → k < j → hit k = false) : firstHit hit n i = j := by
  have hb : i ≤ firstHit hit n i ∧ _ := firstHit_bounds
  rcases Nat.lt_trichotomy (firstHit hit n i) j with hlt | heq | hgt
  · have hh := hit_firstHit (hlt.trans hjn)
    rw [hbefore _ hb.1 hlt] at hh
    cases hh
  · exact heq
  · rw [not_hit_of_lt_firstHit hij hgt] at hj
    cases hj

/-- A search that stopped early stops there in a longer stretch. -/
theorem firstHit_extend {n m i : ℕ} (hstop : firstHit hit n i < i + n) (hle : n ≤ m) :
    firstHit hit m i = firstHit hit n i :=
  firstHit_eq firstHit_bounds.1 (by omega) (hit_firstHit hstop)
    fun _ hk hlt => not_hit_of_lt_firstHit hk hlt

end

end Gear
