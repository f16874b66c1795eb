import Mathlib.Data.Set.Lattice
import Mathlib.Logic.Function.Basic
import Mathlib.Logic.Relation

/-!
# Replicated sets of facts

Parties that hold sets of facts, change them by adding facts, and hand one another
single changes or everything they hold. What is handed over is delivered in any
order, any number of times, with any delay. Whatever happens, a party holds exactly
the facts of the changes it has heard of, so two parties that have heard the same
changes hold the same facts.

The second part is about sets from which elements are removed by those who saw them:
which writes are live is read off the events that reached a place.
-/

namespace Replication

/-! ### Parties, changes and what they hold -/

/-- What someone holds, and which changes it comes from. -/
structure Holding (F : Type*) where
  /-- The facts. -/
  state : Set F
  /-- The changes, by number. -/
  known : Set ℕ

namespace Holding

variable {F : Type*}

/-- Two holdings put together. -/
def join (h m : Holding F) : Holding F := ⟨h.state ∪ m.state, h.known ∪ m.known⟩

/-- A holding after one more change. -/
def extend (h : Holding F) (n : ℕ) (delta : Set F) : Holding F := ⟨h.state ∪ delta, insert n h.known⟩

end Holding

/-- A change, and what its author held when it was made. -/
structure Change (F : Type*) where
  /-- What the change says. -/
  delta : Set F
  /-- What its author held. -/
  start : Holding F

/-- Everyone there is, all changes so far, and all that was handed over so far. -/
structure System (I F : Type*) where
  /-- The changes in the order they were made. -/
  changes : List (Change F)
  /-- The parties. -/
  parties : I → Option (Holding F)
  /-- What was handed over. -/
  mail : Set (Holding F)

variable {I F : Type*}

namespace System

/-- Nothing has happened. -/
def init : System I F := ⟨[], fun _ => none, ∅⟩

/-- One party holds something else. -/
def put [DecidableEq I] (s : System I F) (i : I) (h : Holding F) : System I F :=
  { s with parties := Function.update s.parties i (some h) }

/-- A party makes a change, and hands it over. -/
def commit [DecidableEq I] (s : System I F) (i : I) (h : Holding F) (delta : Set F) : System I F where
  changes := s.changes ++ [⟨delta, h⟩]
  parties := Function.update s.parties i (some (h.extend s.changes.length delta))
  mail := insert ⟨delta, {s.changes.length}⟩ s.mail

/-- A party hands over all that it holds. -/
def publish (s : System I F) (h : Holding F) : System I F := { s with mail := insert h s.mail }

/-- The facts of some changes. -/
def said (s : System I F) (known : Set ℕ) : Set F :=
  {f | ∃ n ∈ known, ∃ c, s.changes[n]? = some c ∧ f ∈ c.delta}

/-- Some changes, each as the set of its facts. -/
def deltas (s : System I F) (known : Set ℕ) : Set (Set F) :=
  {d | ∃ n ∈ known, ∃ c, s.changes[n]? = some c ∧ d = c.delta}

end System

/-- What may happen. All parties start from the same facts. -/
inductive Step [DecidableEq I] (base : Set F) : System I F → System I F → Prop
  /-- A party starts. -/
  | start {s : System I F} {i : I} (free : s.parties i = none) : Step base s (s.put i ⟨base, ∅⟩)
  /-- A party starts from what another holds. -/
  | fork {s : System I F} {i j : I} {h : Holding F} (there : s.parties i = some h)
      (free : s.parties j = none) : Step base s (s.put j h)
  /-- A party makes a change. -/
  | commit {s : System I F} {i : I} {h : Holding F} (delta : Set F)
      (there : s.parties i = some h) : Step base s (s.commit i h delta)
  /-- A party takes in what was handed over. -/
  | deliver {s : System I F} {i : I} {h m : Holding F} (there : s.parties i = some h)
      (posted : m ∈ s.mail) : Step base s (s.put i (h.join m))
  /-- A party hands over all that it holds. -/
  | publish {s : System I F} {i : I} {h : Holding F} (there : s.parties i = some h) :
      Step base s (s.publish h)

/-- A holding is the facts of the changes it comes from, and maybe those that all
parties start from. -/
structure Tracked (base : Set F) (s : System I F) (h : Holding F) : Prop where
  /-- Every change it comes from was made. -/
  known : ∀ n ∈ h.known, n < s.changes.length
  /-- Nothing is missing and nothing is added. -/
  state : base ∪ h.state = base ∪ s.said h.known

/-- Everything that anyone holds is tracked. -/
structure Sound (base : Set F) (s : System I F) : Prop where
  /-- What the parties hold. -/
  parties : ∀ i h, s.parties i = some h → base ⊆ h.state ∧ Tracked base s h
  /-- What was handed over. -/
  mail : ∀ h ∈ s.mail, Tracked base s h
  /-- What the authors of changes held: changes that were made before. -/
  changes : ∀ (n : ℕ) (c : Change F), s.changes[n]? = some c →
    base ⊆ c.start.state ∧ Tracked base s c.start ∧ ∀ m ∈ c.start.known, m < n

section

variable {base : Set F} {s s' : System I F} {h m : Holding F}

theorem said_union (s : System I F) (k l : Set ℕ) : s.said (k ∪ l) = s.said k ∪ s.said l := by
  ext f
  simp only [System.said, Set.mem_ofPred_eq, Set.mem_union, or_and_right, exists_or]

/-- What some changes say is settled by the changes as sets of facts. -/
theorem said_eq_sUnion (s : System I F) (k : Set ℕ) : s.said k = ⋃₀ s.deltas k := by
  ext f
  constructor
  · rintro ⟨n, hn, c, hc, hf⟩
    exact ⟨c.delta, ⟨n, hn, c, hc, rfl⟩, hf⟩
  · rintro ⟨_, ⟨n, hn, c, hc, rfl⟩, hf⟩
    exact ⟨n, hn, c, hc, hf⟩

/-- Only the changes matter to what is tracked. -/
theorem Tracked.of_changes (ht : Tracked base s h) (he : s'.changes = s.changes) :
    Tracked base s' h where
  known := fun n hn => he ▸ ht.known n hn
  state := by
    rw [ht.state]
    unfold System.said
    rw [he]

theorem Tracked.join (hh : Tracked base s h) (hm : Tracked base s m) : Tracked base s (h.join m) where
  known := fun n hn => hn.elim (hh.known n) (hm.known n)
  state := by
    rw [Holding.join, said_union, Set.union_union_distrib_left, hh.state, hm.state,
      ← Set.union_union_distrib_left]

theorem sound_init : Sound base (System.init : System I F) where
  parties := fun i h hi => by cases hi
  mail := fun h hm => hm.elim
  changes := fun n c hc => by cases hc

/-- Two holdings from the same changes say the same. -/
theorem Tracked.state_eq (hh : Tracked base s h) (hm : Tracked base s m)
    (he : s.deltas h.known = s.deltas m.known) : base ∪ h.state = base ∪ m.state := by
  rw [hh.state, hm.state, said_eq_sUnion, said_eq_sUnion, he]

/-- Parties that have heard the same changes hold the same facts. -/
theorem Sound.agree (hs : Sound base s) {i j : I} (hi : s.parties i = some h)
    (hj : s.parties j = some m) (he : s.deltas h.known = s.deltas m.known) : h.state = m.state := by
  obtain ⟨hbi, hti⟩ := hs.parties i h hi
  obtain ⟨hbj, htj⟩ := hs.parties j m hj
  have := hti.state_eq htj he
  rwa [Set.union_eq_right.mpr hbi, Set.union_eq_right.mpr hbj] at this

variable [DecidableEq I]

/-- Later changes say nothing about earlier ones. -/
theorem said_commit (s : System I F) (i : I) (h : Holding F) (delta : Set F) {k : Set ℕ}
    (hk : ∀ n ∈ k, n < s.changes.length) : (s.commit i h delta).said k = s.said k := by
  ext f
  refine exists_congr fun n => and_congr_right fun hn => exists_congr fun c => ?_
  rw [System.commit, List.getElem?_append_left (hk n hn)]

theorem said_commit_last (s : System I F) (i : I) (h : Holding F) (delta : Set F) :
    (s.commit i h delta).said {s.changes.length} = delta := by
  ext f
  simp [System.said, System.commit]

theorem Tracked.commit (ht : Tracked base s h) (i : I) (a : Holding F) (delta : Set F) :
    Tracked base (s.commit i a delta) h where
  known := fun n hn => by
    have := ht.known n hn
    simp only [System.commit, List.length_append, List.length_singleton]
    omega
  state := by rw [said_commit _ _ _ _ ht.known, ht.state]

theorem Sound.put {i : I} (hs : Sound base s) (hb : base ⊆ h.state) (ht : Tracked base s h) :
    Sound base (s.put i h) where
  parties := fun j g hj => by
    change Function.update s.parties i (some h) j = some g at hj
    rw [Function.update_apply] at hj
    split at hj
    · cases hj
      exact ⟨hb, ht.of_changes rfl⟩
    · exact ⟨(hs.parties j g hj).1, (hs.parties j g hj).2.of_changes rfl⟩
  mail := fun g hg => (hs.mail g hg).of_changes rfl
  changes := fun n c hc => by
    obtain ⟨h1, h2, h3⟩ := hs.changes n c hc
    exact ⟨h1, h2.of_changes rfl, h3⟩

theorem Sound.commit {i : I} (hs : Sound base s) (hi : s.parties i = some h) (delta : Set F) :
    Sound base (s.commit i h delta) := by
  obtain ⟨hb, ht⟩ := hs.parties i h hi
  have hlast : Tracked base (s.commit i h delta) ⟨delta, {s.changes.length}⟩ := by
    constructor
    · rintro n rfl
      simp [System.commit]
    · rw [said_commit_last]
  have hnew : Tracked base (s.commit i h delta) (h.extend s.changes.length delta) := by
    have hj := (ht.commit i h delta).join hlast
    rwa [Holding.join, Set.union_singleton] at hj
  constructor
  · intro j g hj
    change Function.update s.parties i _ j = some g at hj
    rw [Function.update_apply] at hj
    split at hj
    · cases hj
      exact ⟨hb.trans Set.subset_union_left, hnew⟩
    · exact ⟨(hs.parties j g hj).1, (hs.parties j g hj).2.commit i h delta⟩
  · rintro g (rfl | hg)
    · exact hlast
    · exact (hs.mail g hg).commit i h delta
  · intro n c hc
    change (s.changes ++ [⟨delta, h⟩])[n]? = some c at hc
    rw [List.getElem?_append] at hc
    split at hc
    · obtain ⟨h1, h2, h3⟩ := hs.changes n c hc
      exact ⟨h1, h2.commit i h delta, h3⟩
    · rename_i hn
      obtain ⟨hlt, rfl⟩ := List.getElem?_eq_some_iff.mp hc
      simp only [List.length_singleton, Nat.lt_one_iff] at hlt
      have hn' : n = s.changes.length := by omega
      simp only [hlt, List.getElem_cons_zero]
      exact ⟨hb, ht.commit i h delta, fun m hm => hn' ▸ ht.known m hm⟩

/-- One step keeps everything tracked. -/
theorem Step.sound (h : Step base s s') (hs : Sound base s) : Sound base s' := by
  cases h with
  | start free => exact hs.put subset_rfl ⟨fun n hn => hn.elim, by simp [System.said]⟩
  | fork there free =>
    obtain ⟨hb, ht⟩ := hs.parties _ _ there
    exact hs.put hb ht
  | commit delta there => exact hs.commit there delta
  | deliver there posted =>
    obtain ⟨hb, ht⟩ := hs.parties _ _ there
    exact hs.put (hb.trans Set.subset_union_left) (ht.join (hs.mail _ posted))
  | publish there =>
    refine ⟨fun j g hj => ⟨(hs.parties j g hj).1, (hs.parties j g hj).2.of_changes rfl⟩, ?_,
      fun n c hc => ⟨(hs.changes n c hc).1, (hs.changes n c hc).2.1.of_changes rfl,
        (hs.changes n c hc).2.2⟩⟩
    rintro g (rfl | hg)
    · exact (hs.parties _ _ there).2.of_changes rfl
    · exact (hs.mail g hg).of_changes rfl

/-- In every run everything stays tracked. -/
theorem sound_of_run (h : Relation.ReflTransGen (Step base) s s') (hs : Sound base s) :
    Sound base s' := by
  induction h with
  | refl => exact hs
  | tail _ hstep ih => exact hstep.sound ih

end

/-! ### Removal by those who saw -/

/-- Events that make writes and end others. An event records the retirement of exactly
the writes that it means to end, that its maker held, and that its maker did not hold
as retired. -/
structure History (E W : Type*) where
  /-- The writes an event makes. -/
  made : E → Set W
  /-- The writes an event means to end. -/
  ended : E → Set W
  /-- The writes its maker held. -/
  seen : E → Set W
  /-- The writes its maker held as retired. -/
  gone : E → Set W
  /-- The writes whose retirement the event records. -/
  retired : E → Set W
  /-- What is recorded. -/
  retired_iff : ∀ e w, w ∈ retired e ↔ w ∈ ended e ∧ w ∈ seen e ∧ w ∉ gone e

namespace History

variable {E W : Type*} (H : History E W)

/-- Some events make a write. -/
def Contains (K : Set E) (w : W) : Prop := ∃ e ∈ K, w ∈ H.made e

/-- A write is live among some events. -/
def Live (K : Set E) (w : W) : Prop := H.Contains K w ∧ ∀ e ∈ K, w ∉ H.retired e

/-- Events that come with whatever retired what their makers held as retired. -/
def Closed (K : Set E) : Prop := ∀ e ∈ K, ∀ w ∈ H.gone e, ∃ e' ∈ K, w ∈ H.retired e'

/-- A write is live unless someone for whom it was live ended it. -/
theorem live_iff {K : Set E} {w : W} :
    H.Live K w ↔ H.Contains K w ∧ ¬∃ e ∈ K, w ∈ H.ended e ∧ w ∈ H.seen e ∧ w ∉ H.gone e := by
  unfold Live
  refine and_congr_right fun _ => ?_
  push Not
  exact forall₂_congr fun e _ => by rw [H.retired_iff]; tauto

/-- Among events that come with the retirements they build on, a write is live unless
someone who had seen it ended it. -/
theorem live_iff_of_closed {K : Set E} {w : W} (hK : H.Closed K) :
    H.Live K w ↔ H.Contains K w ∧ ¬∃ e ∈ K, w ∈ H.ended e ∧ w ∈ H.seen e := by
  constructor
  · rintro ⟨hc, hl⟩
    refine ⟨hc, fun ⟨e, he, hend, hseen⟩ => ?_⟩
    by_cases hg : w ∈ H.gone e
    · obtain ⟨e', he', hr⟩ := hK e he w hg
      exact hl e' he' hr
    · exact hl e he ((H.retired_iff e w).mpr ⟨hend, hseen, hg⟩)
  · rintro ⟨hc, hn⟩
    refine ⟨hc, fun e he hr => hn ?_⟩
    obtain ⟨h1, h2, -⟩ := (H.retired_iff e w).mp hr
    exact ⟨e, he, h1, h2⟩

/-- With more events, no write that was retired comes back. -/
theorem Live.of_subset {K L : Set E} {w : W} (h : H.Live L w) (hKL : K ⊆ L)
    (hc : H.Contains K w) : H.Live K w := ⟨hc, fun e he => h.2 e (hKL he)⟩

end History

end Replication
