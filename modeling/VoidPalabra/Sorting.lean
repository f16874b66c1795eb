import Mathlib

/-!
# Sorting by a key

A stable sort of a list by a key, over any type of keys with a lawful order. When
the keys are distinct the result depends on the elements only, not on the order in
which they were given.
-/

namespace Sorting

variable {α κ : Type} [Ord κ]

/-- The order of two elements by their keys. -/
def KeyLe (key : α → κ) (a b : α) : Prop := (compare (key a) (key b)).isLE = true

instance (key : α → κ) : DecidableRel (KeyLe key) :=
  fun a b => inferInstanceAs (Decidable ((compare (key a) (key b)).isLE = true))

/-- The elements in the order of their keys. -/
def sortOn (key : α → κ) (xs : List α) : List α := xs.insertionSort (KeyLe key)

/-- Two neighbours with equal keys. -/
def adjacentEqual (key : α → κ) : List α → Bool
  | a :: b :: rest => compare (key a) (key b) == .eq || adjacentEqual key (b :: rest)
  | _ => false

/-- Sorting keeps the elements. -/
theorem sortOn_perm (key : α → κ) (xs : List α) : (sortOn key xs).Perm xs :=
  List.perm_insertionSort _ xs

@[simp] theorem mem_sortOn {key : α → κ} {xs : List α} {a : α} : a ∈ sortOn key xs ↔ a ∈ xs :=
  (sortOn_perm key xs).mem_iff

@[simp] theorem length_sortOn (key : α → κ) (xs : List α) :
    (sortOn key xs).length = xs.length :=
  (sortOn_perm key xs).length_eq

/-- A list that is in order already is left alone. -/
theorem sortOn_of_pairwise {key : α → κ} {xs : List α} (h : xs.Pairwise (KeyLe key)) :
    sortOn key xs = xs :=
  h.insertionSort_eq

variable [Std.TransOrd κ]

instance (key : α → κ) : Std.Total (KeyLe key) where
  total a b := by
    have ho : compare (key b) (key a) = (compare (key a) (key b)).swap :=
      Std.OrientedCmp.eq_swap
    unfold KeyLe
    rw [ho]
    cases compare (key a) (key b) <;> simp

instance (key : α → κ) : IsTrans α (KeyLe key) where
  trans _ _ _ h k := Std.TransCmp.isLE_trans h k

/-- The result is in order. -/
theorem sortOn_pairwise (key : α → κ) (xs : List α) : (sortOn key xs).Pairwise (KeyLe key) :=
  List.pairwise_insertionSort _ xs

variable [Std.LawfulEqOrd κ]

/-- Elements that are below each other have one key. -/
theorem key_eq_of_le {key : α → κ} {a b : α} (h : KeyLe key a b) (k : KeyLe key b a) :
    key a = key b :=
  Std.LawfulEqCmp.eq_of_compare (Std.OrientedCmp.isLE_antisymm h k)

/-- When the key tells the elements apart the result depends on the elements only. -/
theorem sortOn_eq_of_perm_of_inj {key : α → κ} {xs ys : List α}
    (hinj : ∀ a ∈ xs, ∀ b ∈ xs, key a = key b → a = b) (h : xs.Perm ys) :
    sortOn key xs = sortOn key ys := by
  refine List.Perm.eq_of_pairwise (fun a b ha hb hab hba => ?_) (sortOn_pairwise key xs)
    (sortOn_pairwise key ys) (((sortOn_perm key xs).trans h).trans (sortOn_perm key ys).symm)
  exact hinj a (mem_sortOn.mp ha) b (h.mem_iff.mpr (mem_sortOn.mp hb)) (key_eq_of_le hab hba)

/-- Distinct keys: the result depends on the elements only. -/
theorem sortOn_eq_of_perm {key : α → κ} {xs ys : List α} (hd : (xs.map key).Nodup)
    (h : xs.Perm ys) : sortOn key xs = sortOn key ys :=
  sortOn_eq_of_perm_of_inj (fun _ ha _ hb => List.inj_on_of_nodup_map hd ha hb) h

/-- Sorting by a key commutes with a map that keeps the keys. -/
theorem sortOn_map {β : Type} {key : α → κ} {key' : β → κ} {f : α → β} {xs : List α}
    (hk : ∀ a ∈ xs, key' (f a) = key a) (hd : (xs.map key).Nodup) :
    sortOn key' (xs.map f) = (sortOn key xs).map f := by
  have hkeys : (xs.map f).map key' = xs.map key := by
    rw [List.map_map]
    exact List.map_congr_left hk
  refine List.Perm.eq_of_pairwise (fun a b ha hb (hab : KeyLe key' a b) hba => ?_)
    (sortOn_pairwise key' _) ?_
    ((sortOn_perm key' _).trans ((sortOn_perm key xs).symm.map f))
  · refine List.inj_on_of_nodup_map (hkeys ▸ hd) (mem_sortOn.mp ha) ?_ (key_eq_of_le hab hba)
    obtain ⟨c, hc, rfl⟩ := List.mem_map.mp hb
    exact List.mem_map_of_mem (mem_sortOn.mp hc)
  · refine List.pairwise_map.mpr ?_
    refine List.Pairwise.imp_of_mem ?_ (sortOn_pairwise key xs)
    intro a b ha hb hab
    unfold KeyLe
    rw [hk a (mem_sortOn.mp ha), hk b (mem_sortOn.mp hb)]
    exact hab

/-- In a sorted list, equal neighbours are the only way two elements share a key. -/
theorem adjacentEqual_iff {key : α → κ} {xs : List α} (hs : xs.Pairwise (KeyLe key)) :
    adjacentEqual key xs = false ↔ (xs.map key).Nodup := by
  induction xs with
  | nil => simp [adjacentEqual]
  | cons a rest ih =>
    cases rest with
    | nil => simp [adjacentEqual]
    | cons b rest =>
      obtain ⟨ha, hrest⟩ := List.pairwise_cons.mp hs
      have hrb := (List.pairwise_cons.mp hrest).1
      rw [adjacentEqual, Bool.or_eq_false_iff, ih hrest, List.map_cons (a := a), List.nodup_cons]
      refine and_congr ?_ Iff.rfl
      constructor
      · intro hne hmem
        obtain ⟨c, hc, hk⟩ := List.mem_map.mp hmem
        have hcb : KeyLe key c b := by
          unfold KeyLe
          rw [hk]
          exact ha b List.mem_cons_self
        have hbc : KeyLe key b c := by
          rcases List.mem_cons.mp hc with rfl | hc
          · exact hcb
          · exact hrb c hc
        have he : key a = key b := hk.symm.trans (key_eq_of_le hcb hbc)
        simp [he, Std.ReflCmp.compare_self] at hne
      · intro hmem
        refine beq_eq_false_iff_ne.mpr fun he => hmem ?_
        rw [Std.LawfulEqCmp.eq_of_compare he]
        exact List.mem_cons_self

/-- Sorting leaves equal neighbours exactly when two elements share a key. -/
theorem adjacentEqual_sortOn {key : α → κ} {xs : List α} :
    adjacentEqual key (sortOn key xs) = false ↔ (xs.map key).Nodup := by
  rw [adjacentEqual_iff (sortOn_pairwise key xs)]
  exact ((sortOn_perm key xs).map key).nodup_iff

/-- Sorting whole elements depends on the elements only. -/
theorem sortOn_id_eq_of_perm {xs ys : List κ} (h : xs.Perm ys) : sortOn id xs = sortOn id ys :=
  List.Perm.eq_of_pairwise (fun _ _ _ _ hab hba => @key_eq_of_le _ _ _ _ _ id _ _ hab hba)
    (sortOn_pairwise id xs) (sortOn_pairwise id ys)
    (((sortOn_perm id xs).trans h).trans (sortOn_perm id ys).symm)

/-- Two maps with the same keys whose values are read alike are read alike, entry by
entry in the order of their keys. -/
theorem map_toList_congr {α β γ : Type} {d : Std.ExtTreeMap κ α compare}
    {d' : Std.ExtTreeMap κ β compare} {f : κ × α → γ} {g : κ × β → γ}
    (h : ∀ k, (d[k]?).map (fun x => f (k, x)) = (d'[k]?).map fun y => g (k, y)) :
    d.toList.map f = d'.toList.map g := by
  have hm : d.map (fun k x => f (k, x)) = d'.map fun k y => g (k, y) :=
    Std.ExtTreeMap.ext_getElem? fun k => by
      rw [Std.ExtTreeMap.getElem?_map, Std.ExtTreeMap.getElem?_map]
      exact h k
  have hl := congrArg (fun m => m.toList.map Prod.snd) hm
  simp only [Std.ExtTreeMap.toList_map, List.map_map] at hl
  exact hl

/-- What a map that is filled from a list holds: the last value of each key. -/
theorem getElem?_foldl_insert {α : Type} (xs : List (κ × α)) (d : Std.ExtTreeMap κ α compare) (k : κ) :
    (xs.foldl (fun d x => d.insert x.1 x.2) d)[k]? =
      (((xs.filter fun x => compare x.1 k == .eq).getLast?).map Prod.snd).or d[k]? := by
  induction xs generalizing d with
  | nil => simp
  | cons x xs ih =>
    rw [List.foldl_cons, ih, List.filter_cons, Std.ExtTreeMap.getElem?_insert]
    by_cases hx : compare x.1 k = .eq
    · rw [if_pos hx, if_pos (by simp [hx]), List.getLast?_cons]
      cases (xs.filter fun y => compare y.1 k == .eq).getLast? <;> simp
    · rw [if_neg hx, if_neg (by simpa using hx)]

omit [Std.TransOrd κ] in
/-- Without repeated keys at most one element has a given key. -/
theorem length_filter_key_le_one {β : Type} {xs : List (κ × β)} (hd : (xs.map Prod.fst).Nodup) (k : κ) :
    (xs.filter fun x => compare x.1 k == .eq).length ≤ 1 := by
  have hkey : ∀ x ∈ xs.filter fun x => compare x.1 k == .eq, x.1 = k := fun x hx =>
    Std.LawfulEqCmp.eq_of_compare (beq_iff_eq.mp (List.mem_filter.mp hx).2)
  have hnd : ((xs.filter fun x => compare x.1 k == .eq).map Prod.fst).Nodup :=
    hd.sublist (List.filter_sublist.map Prod.fst)
  generalize (xs.filter fun x => compare x.1 k == .eq) = ys at hkey hnd ⊢
  match ys with
  | [] => simp
  | [_] => simp
  | a :: b :: rest =>
    have ha := hkey a (by simp)
    have hb := hkey b (by simp)
    simp [ha, hb] at hnd

/-- A map that is filled from a list without repeated keys holds the elements of the
list. -/
theorem getElem?_foldl_insert_eq_some {β : Type} {xs : List (κ × β)} (hd : (xs.map Prod.fst).Nodup)
    {k : κ} {v : β} :
    (xs.foldl (fun d x => d.insert x.1 x.2) (∅ : Std.ExtTreeMap κ β compare))[k]? = some v ↔
      (k, v) ∈ xs := by
  rw [getElem?_foldl_insert, Std.ExtTreeMap.getElem?_empty, Option.or_none]
  have hmem : (k, v) ∈ xs ↔ (k, v) ∈ xs.filter fun x => compare x.1 k == .eq := by
    simp [List.mem_filter, Std.ReflCmp.compare_self]
  have hone := length_filter_key_le_one hd k
  rw [hmem]
  have hkey : ∀ x ∈ xs.filter fun x => compare x.1 k == .eq, x.1 = k := fun x hx =>
    Std.LawfulEqCmp.eq_of_compare (beq_iff_eq.mp (List.mem_filter.mp hx).2)
  generalize (xs.filter fun x => compare x.1 k == .eq) = ys at hkey hone ⊢
  match ys, hone with
  | [], _ => simp
  | [x], _ =>
    obtain ⟨k', v'⟩ := x
    obtain rfl : k' = k := hkey (k', v') (by simp)
    simp [eq_comm]
  | _ :: _ :: _, hone => simp at hone

/-- It depends on the elements of the list only. -/
theorem foldl_insert_eq_of_perm {β : Type} {xs ys : List (κ × β)} (hd : (xs.map Prod.fst).Nodup)
    (h : xs.Perm ys) :
    xs.foldl (fun d x => d.insert x.1 x.2) (∅ : Std.ExtTreeMap κ β compare) =
      ys.foldl (fun d x => d.insert x.1 x.2) ∅ := by
  refine Std.ExtTreeMap.ext_getElem? fun k => Option.ext fun v => ?_
  rw [getElem?_foldl_insert_eq_some hd, h.mem_iff,
    getElem?_foldl_insert_eq_some ((h.map Prod.fst).nodup_iff.mp hd)]

end Sorting
