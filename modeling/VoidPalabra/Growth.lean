import Mathlib.Data.Set.Finite.Lattice
import Mathlib.Logic.Relation
import Mathlib.Order.WellFounded

/-!
# Sets that grow, each element after those it needs

An offer gives an element once all it needs is there. What a run of placements ends with
does not depend on the order: it is the least set that is closed under the offers. Elements
that were placed so are ordered by what they need, and those nothing needs determine the
rest.
-/

namespace Growth

variable {α ι : Type} {needs : ι → Set α} {gives : ι → α} {held : Set α} {offered : Set ι}

/-! ### Placing what can be placed -/

/-- What is held, and what the offers give from it. -/
inductive Placed (needs : ι → Set α) (gives : ι → α) (held : Set α) (offered : Set ι) : α → Prop
  /-- It is held. -/
  | held {a : α} (h : a ∈ held) : Placed needs gives held offered a
  /-- It is offered, and what it needs is placed. -/
  | given {i : ι} (offer : i ∈ offered) (placed : ∀ p ∈ needs i, Placed needs gives held offered p) :
    Placed needs gives held offered (gives i)

/-- A run of placements. -/
inductive Grows (needs : ι → Set α) (gives : ι → α) (offered : Set ι) (s : Set α) : Set α → Prop
  /-- No placement. -/
  | refl : Grows needs gives offered s s
  /-- One more. -/
  | place {t : Set α} {i : ι} (before : Grows needs gives offered s t) (offer : i ∈ offered)
    (here : needs i ⊆ t) : Grows needs gives offered s (insert (gives i) t)

/-- No offer gives anything new. -/
def Stuck (needs : ι → Set α) (gives : ι → α) (offered : Set ι) (s : Set α) : Prop :=
  ∀ i ∈ offered, needs i ⊆ s → gives i ∈ s

/-- It is the least set that holds what is held and is closed under the offers. -/
theorem Placed.least {s : Set α} (hs : held ⊆ s) (hstuck : Stuck needs gives offered s) {a : α}
    (h : Placed needs gives held offered a) : a ∈ s := by
  induction h with
  | held h => exact hs h
  | given offer _ ih => exact hstuck _ offer ih

theorem Grows.subset {s t : Set α} (h : Grows needs gives offered s t) : s ⊆ t := by
  induction h with
  | refl => exact subset_rfl
  | place _ _ _ ih => exact ih.trans (Set.subset_insert _ _)

/-- A run places only what can be placed. -/
theorem Grows.placed {t : Set α} (h : Grows needs gives offered held t) :
    ∀ a ∈ t, Placed needs gives held offered a := by
  induction h with
  | refl => exact fun a ha => .held ha
  | place _ offer here ih =>
    rintro a (rfl | ha)
    · exact .given offer fun p hp => ih p (here hp)
    · exact ih a ha

/-- **Confluence.** A run that ends where nothing more can be placed has placed all that
can be, whatever its order. -/
theorem Grows.mem_iff {t : Set α} (h : Grows needs gives offered held t)
    (hstuck : Stuck needs gives offered t) (a : α) : a ∈ t ↔ Placed needs gives held offered a :=
  ⟨h.placed a, Placed.least h.subset hstuck⟩

/-! ### The order of what was placed -/

section Order

variable {R R' : α → α → Prop} {held' : Set α} {rank rank' : α → ℕ}

/-- A relation on a set whose elements were placed one after another. -/
structure Graded (held : Set α) (R : α → α → Prop) (rank : α → ℕ) : Prop where
  /-- What is needed is held. -/
  parent : ∀ {p c}, R p c → p ∈ held
  /-- What needs is held. -/
  child : ∀ {p c}, R p c → c ∈ held
  /-- What is needed was there before. -/
  lt : ∀ {p c}, R p c → rank p < rank c

/-- What nothing needs. -/
def Head (held : Set α) (R : α → α → Prop) (a : α) : Prop := a ∈ held ∧ ∀ c, ¬R a c

theorem Graded.lt_of_transGen (h : Graded held R rank) {a b : α} (hab : Relation.TransGen R a b) :
    rank a < rank b := by
  induction hab with
  | single hr => exact h.lt hr
  | tail _ hr ih => exact ih.trans (h.lt hr)

theorem Graded.irrefl (h : Graded held R rank) (a : α) : ¬Relation.TransGen R a a :=
  fun ha => lt_irrefl _ (h.lt_of_transGen ha)

theorem Graded.asymm (h : Graded held R rank) {a b : α} (hab : Relation.TransGen R a b) :
    ¬Relation.TransGen R b a :=
  fun hba => h.irrefl a (hab.trans hba)

theorem Graded.mem_left (h : Graded held R rank) {a b : α} (hab : Relation.TransGen R a b) :
    a ∈ held := by
  obtain ⟨c, hac, -⟩ := Relation.TransGen.head'_iff.mp hab
  exact h.parent hac

theorem Graded.mem_right (h : Graded held R rank) {a b : α} (hab : Relation.TransGen R a b) :
    b ∈ held := by
  obtain ⟨c, -, hcb⟩ := Relation.TransGen.tail'_iff.mp hab
  exact h.child hcb

open Classical in
/-- A new element that needs what is held comes after all of it. -/
theorem Graded.insert (h : Graded held R rank) {n : α} (hn : n ∉ held) {ps : Set α}
    (hps : ps ⊆ held) {b : ℕ} (hb : ∀ p ∈ ps, rank p < b) :
    Graded (insert n held) (fun p c => R p c ∨ c = n ∧ p ∈ ps)
      fun x => if x = n then b else rank x where
  parent := by
    rintro p c (hr | ⟨-, hp⟩)
    · exact Or.inr (h.parent hr)
    · exact Or.inr (hps hp)
  child := by
    rintro p c (hr | ⟨rfl, -⟩)
    · exact Or.inr (h.child hr)
    · exact Or.inl rfl
  lt := by
    have hne : ∀ {x}, x ∈ held → x ≠ n := fun hx he => hn (he ▸ hx)
    rintro p c (hr | ⟨rfl, hp⟩)
    · rw [if_neg (hne (h.parent hr)), if_neg (hne (h.child hr))]
      exact h.lt hr
    · rw [if_neg (hne (hps hp)), if_pos rfl]
      exact hb p hp

/-- In a finite set nothing is needed again and again. -/
theorem Graded.wellFounded_swap (h : Graded held R rank) (hfin : held.Finite) :
    WellFounded fun c p => R p c := by
  obtain ⟨n, hn⟩ : ∃ n, ∀ a ∈ held, rank a ≤ n := by
    obtain ⟨n, hn⟩ := (hfin.image rank).bddAbove
    exact ⟨n, fun a ha => hn (Set.mem_image_of_mem rank ha)⟩
  refine Subrelation.wf (r := fun c p => n - rank c < n - rank p) ?_ (measure fun a => n - rank a).wf
  intro c p hr
  have hc := hn c (h.child hr)
  have hlt := h.lt hr
  change n - rank c < n - rank p
  omega

/-- Every element is a head or below one. -/
theorem Graded.below_head (h : Graded held R rank) (hfin : held.Finite) {a : α} (ha : a ∈ held) :
    ∃ m, Head held R m ∧ Relation.ReflTransGen R a m := by
  induction a using (h.wellFounded_swap hfin).induction with
  | _ a ih =>
    by_cases hhead : ∃ c, R a c
    · obtain ⟨c, hc⟩ := hhead
      obtain ⟨m, hm, hcm⟩ := ih c hc (h.child hc)
      exact ⟨m, hm, hcm.head hc⟩
    · exact ⟨a, ⟨ha, fun c hc => hhead ⟨c, hc⟩⟩, .refl⟩

/-- What is above an element is held where its heads are, when what is held in both needs
the same. -/
theorem Graded.subset_of_heads (h : Graded held R rank) (hfin : held.Finite)
    (h' : Graded held' R' rank') (hheads : ∀ a, Head held R a → a ∈ held')
    (hagree : ∀ c ∈ held, c ∈ held' → ∀ p, R p c → R' p c) : held ⊆ held' := by
  intro a ha
  induction a using (h.wellFounded_swap hfin).induction with
  | _ a ih =>
    by_cases hhead : ∃ c, R a c
    · obtain ⟨c, hc⟩ := hhead
      have hc' := ih c hc (h.child hc)
      exact h'.parent (hagree c (h.child hc) hc' a hc)
    · exact hheads a ⟨ha, fun c hc => hhead ⟨c, hc⟩⟩

/-- **A cut is named by its heads.** -/
theorem Graded.eq_of_heads (h : Graded held R rank) (hfin : held.Finite)
    (h' : Graded held' R' rank') (hfin' : held'.Finite)
    (hheads : ∀ a, Head held R a ↔ Head held' R' a)
    (hagree : ∀ c ∈ held, c ∈ held' → ∀ p, R p c ↔ R' p c) : held = held' :=
  Set.Subset.antisymm
    (h.subset_of_heads hfin h' (fun a ha => ((hheads a).mp ha).1)
      fun c hc hc' p => (hagree c hc hc' p).mp)
    (h'.subset_of_heads hfin' h (fun a ha => ((hheads a).mpr ha).1)
      fun c hc' hc p => (hagree c hc hc' p).mpr)

end Order

end Growth
