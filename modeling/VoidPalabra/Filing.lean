import Mathlib.Data.List.Basic
import Std.Data.ExtTreeMap

/-!
# Things filed under keys

A map from keys to lists is built by appending to the list of one key after another. What it
holds is a relation: a key is in it when something was filed under it, and its list has what
was filed.
-/

namespace VoidPalabra

variable {κ β : Type} [Ord κ] [Std.TransOrd κ]

/-- A map that files things under keys; no list of it is empty. -/
def Files (d : Std.ExtTreeMap κ (List β) compare) (R : κ → β → Prop) : Prop :=
  ∀ k, (d[k]? = none ∧ ∀ b, ¬R k b) ∨ ∃ xs, d[k]? = some xs ∧ xs ≠ [] ∧ ∀ b, b ∈ xs ↔ R k b

namespace Files

variable {d : Std.ExtTreeMap κ (List β) compare} {R : κ → β → Prop} {k : κ} {xs : List β}

theorem congr {R' : κ → β → Prop} (h : Files d R) (hr : ∀ k b, R k b ↔ R' k b) : Files d R' := by
  intro k
  rcases h k with ⟨hn, hno⟩ | ⟨xs, hk, hne, hmem⟩
  · exact .inl ⟨hn, fun b hb => hno b ((hr k b).mpr hb)⟩
  · exact .inr ⟨xs, hk, hne, fun b => (hmem b).trans (hr k b)⟩

/-- A list has what was filed under its key. -/
theorem mem_iff (h : Files d R) (hk : d[k]? = some xs) (b : β) : b ∈ xs ↔ R k b := by
  rcases h k with ⟨hn, -⟩ | ⟨ys, hy, -, hmem⟩
  · rw [hn] at hk
    cases hk
  · obtain rfl := Option.some.inj (hy.symm.trans hk)
    exact hmem b

theorem none_iff (h : Files d R) : d[k]? = none ↔ ∀ b, ¬R k b := by
  rcases h k with ⟨hn, hno⟩ | ⟨xs, hk, hne, hmem⟩
  · exact ⟨fun _ => hno, fun _ => hn⟩
  · obtain ⟨b, hb⟩ := List.exists_mem_of_ne_nil xs hne
    rw [hk]
    exact ⟨nofun, fun hno => absurd ((hmem b).mp hb) (hno b)⟩

/-- A key with something filed under it has a list. -/
theorem exists_list (h : Files d R) {b : β} (hb : R k b) : ∃ xs, d[k]? = some xs :=
  Option.ne_none_iff_exists'.mp fun hn => h.none_iff.mp hn b hb

theorem exists_of_list (h : Files d R) (hk : d[k]? = some xs) : ∃ b, R k b := by
  rcases h k with ⟨hn, -⟩ | ⟨ys, hy, hne, hmem⟩
  · rw [hn] at hk
    cases hk
  · obtain ⟨b, hb⟩ := List.exists_mem_of_ne_nil ys hne
    exact ⟨b, (hmem b).mp hb⟩

theorem empty : Files (∅ : Std.ExtTreeMap κ (List β) compare) fun _ _ => False :=
  fun _ => .inl ⟨by simp, fun _ => id⟩

variable [Std.LawfulEqOrd κ]

/-- One list more is filed. -/
theorem append (h : Files d R) (k : κ) {ys : List β} (hy : ys ≠ []) :
    Files (d.insert k (d[k]?.getD [] ++ ys)) fun j b => R j b ∨ j = k ∧ b ∈ ys := by
  intro j
  rw [Std.ExtTreeMap.getElem?_insert]
  by_cases hj : compare k j = .eq
  · obtain rfl := Std.LawfulEqCmp.eq_of_compare hj
    rw [if_pos hj]
    refine .inr ⟨_, rfl, by simp [hy], fun b => ?_⟩
    rcases h k with ⟨hn, hno⟩ | ⟨xs, hk, -, hmem⟩
    · simp [hn, hno b]
    · simp [hk, hmem b]
  · rw [if_neg hj]
    have hne : j ≠ k := fun he => hj (he ▸ Std.ReflCmp.compare_self)
    rcases h j with ⟨hn, hno⟩ | ⟨xs, hk, hx, hmem⟩
    · exact .inl ⟨hn, fun b hb => hb.elim (hno b) fun hb => hne hb.1⟩
    · refine .inr ⟨xs, hk, hx, fun b => (hmem b).trans ?_⟩
      exact ⟨.inl, fun hb => hb.resolve_right fun hb => hne hb.1⟩

/-- So are lists one after another. -/
theorem foldl (h : Files d R) {ys : List (κ × List β)} (hne : ∀ y ∈ ys, y.2 ≠ []) :
    Files (ys.foldl (fun d y => d.insert y.1 (d[y.1]?.getD [] ++ y.2)) d)
      fun k b => R k b ∨ ∃ y ∈ ys, y.1 = k ∧ b ∈ y.2 := by
  induction ys generalizing d R with
  | nil => exact h.congr fun k b => by simp
  | cons y ys ih =>
    refine (ih (h.append y.1 (hne y List.mem_cons_self)) fun z hz =>
      hne z (List.mem_cons_of_mem _ hz)).congr fun k b => ?_
    simp only [List.exists_mem_cons_iff, or_assoc]
    rw [eq_comm (a := k)]

end Files

end VoidPalabra
