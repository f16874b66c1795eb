import Mathlib.Algebra.Order.BigOperators.Group.List
import VoidPalabra.Growth
import VoidPalabra.History
import VoidPalabra.JoinLaws

/-!
# What a history holds

Each utterance is held under the name of its content and after its parents, and the index
lists it under each parent as often as it names it. Whatever is done to a history is done by
adding utterances, and keeps this.
-/

namespace VoidPalabra.Utterances

open Growth

/-- An utterance whose name is the one of its content. -/
def WellFormed (u : Utterance) : Prop := u.hash ≠ [] ∧ u.name = .ok u.hash

instance (u : Utterance) : Decidable (WellFormed u) := inferInstanceAs (Decidable (_ ∧ _))

/-- A well-formed utterance is text and named by its digest. -/
theorem WellFormed.valid {u : Utterance} (h : WellFormed u) :
    u.Valid ∧ u.hash = lit "u:" ++ hexBytes (sha256 u.hashed) :=
  Utterance.name_eq_ok.mp h.2

theorem hexBytes_injective : Function.Injective hexBytes := fun a b hab =>
  Option.some.inj (by rw [← unhexStrict_hexBytes a, ← unhexStrict_hexBytes b, hab])

/-- A name is text. -/
theorem WellFormed.text {u : Utterance} (hu : WellFormed u) : validUtf8 u.hash = true := by
  have hname : u.hash = 0x75 :: 0x3A :: hexBytes (sha256 u.hashed) := hu.valid.2
  rw [hname, validUtf8_cons (by decide), validUtf8_cons (by decide)]
  exact validUtf8_hexify (sha256 u.hashed)

/-- Utterances of one name, where different bytes have different digests, say the same. -/
theorem WellFormed.same {u v : Utterance} {s : Set Bytes} (hs : Set.InjOn sha256 s)
    (hus : u.hashed ∈ s) (hvs : v.hashed ∈ s) (hu : WellFormed u) (hv : WellFormed v)
    (he : u.hash = v.hash) : u.Same v := by
  have hhex : lit "u:" ++ hexBytes (sha256 u.hashed) = lit "u:" ++ hexBytes (sha256 v.hashed) :=
    hu.valid.2.symm.trans (he.trans hv.valid.2)
  exact Utterance.hashed_inj.mp (hs hus hvs (hexBytes_injective (List.append_cancel_left hhex)))

namespace History

/-- The names that are held. -/
def names (h : History) : Set Bytes := {n | n ∈ h.byHash}

/-- An utterance follows another. -/
def Follows (h : History) (p c : Bytes) : Prop := p ∈ h.parentsOf c

theorem has_iff {h : History} {n : Bytes} : h.has n = true ↔ n ∈ h.names :=
  Std.ExtTreeMap.contains_iff_mem

/-- What `History::add` does. -/
theorem add_cases (h : History) (u : Utterance) :
    ¬WellFormed u ∧ h.add u = (.malformed, h) ∨
    WellFormed u ∧ u.hash ∈ h.names ∧ h.add u = (.duplicate, h) ∨
    WellFormed u ∧ u.hash ∉ h.names ∧ (∃ p ∈ u.parents, p ∉ h.names) ∧
      h.add u = (.missingParent, h) ∨
    WellFormed u ∧ u.hash ∉ h.names ∧ (∀ p ∈ u.parents, p ∈ h.names) ∧ h.add u = (.ok, h.file u) := by
  unfold add
  by_cases hempty : u.hash.isEmpty = true
  · rw [if_pos hempty]
    exact Or.inl ⟨fun hw => hw.1 (List.isEmpty_iff.mp hempty), rfl⟩
  rw [if_neg hempty]
  have hne : u.hash ≠ [] := fun he => hempty (List.isEmpty_iff.mpr he)
  cases hn : u.name with
  | error e => exact Or.inl ⟨fun hw => absurd (hn.symm.trans hw.2) nofun, rfl⟩
  | ok n =>
    dsimp only
    by_cases hname : n = u.hash
    swap
    · rw [if_pos hname]
      exact Or.inl ⟨fun hw => hname (Except.ok.inj (hn.symm.trans hw.2)), rfl⟩
    rw [if_neg (not_not.mpr hname)]
    have hw : WellFormed u := ⟨hne, hname ▸ hn⟩
    refine Or.inr ?_
    by_cases hheld : h.has u.hash = true
    · rw [if_pos hheld]
      exact Or.inl ⟨hw, has_iff.mp hheld, rfl⟩
    rw [if_neg hheld]
    have hnew : u.hash ∉ h.names := fun hmem => hheld (has_iff.mpr hmem)
    refine Or.inr ?_
    by_cases hmissing : (u.parents.any fun p => !h.has p) = true
    · rw [if_pos hmissing]
      obtain ⟨p, hp, hnot⟩ := List.any_eq_true.mp hmissing
      refine Or.inl ⟨hw, hnew, ⟨p, hp, fun hmem => ?_⟩, rfl⟩
      rw [has_iff.mpr hmem] at hnot
      cases hnot
    · rw [if_neg hmissing]
      refine Or.inr ⟨hw, hnew, fun p hp => ?_, rfl⟩
      by_contra hnot
      refine hmissing (List.any_eq_true.mpr ⟨p, hp, ?_⟩)
      simpa using fun hhas => hnot (has_iff.mp hhas)

/-! ### Filing -/

theorem parentsOf_of_not_mem {h : History} {n : Bytes} (hn : n ∉ h.names) : h.parentsOf n = [] := by
  have hnone : h.byHash[n]? = none := Std.ExtTreeMap.getElem?_eq_none hn
  rw [parentsOf, hnone]

theorem byHash_file (h : History) (u : Utterance) (n : Bytes) :
    (h.file u).byHash[n]? = if n = u.hash then some u else h.byHash[n]? := by
  rw [file, Std.ExtTreeMap.getElem?_insert]
  by_cases hn : n = u.hash
  · rw [if_pos hn, if_pos (Std.LawfulEqCmp.compare_eq_iff_eq.mpr hn.symm)]
  · rw [if_neg hn, if_neg fun he => hn (Std.LawfulEqCmp.eq_of_compare he).symm]

theorem names_file (h : History) (u : Utterance) : (h.file u).names = insert u.hash h.names := by
  ext n
  change n ∈ h.byHash.insert u.hash u ↔ n = u.hash ∨ n ∈ h.byHash
  rw [Std.ExtTreeMap.mem_insert, Std.LawfulEqCmp.compare_eq_iff_eq, eq_comm]

theorem parentsOf_file (h : History) (u : Utterance) (n : Bytes) :
    (h.file u).parentsOf n = if n = u.hash then u.parents else h.parentsOf n := by
  rw [parentsOf, byHash_file]
  by_cases hn : n = u.hash
  · rw [if_pos hn, if_pos hn]
  · rw [if_neg hn, if_neg hn, parentsOf]

/-- The utterance is listed under a name as often as it names it. -/
theorem foldl_listChild (n : Bytes) : ∀ (ps : List Bytes)
    (children : Std.ExtTreeMap Bytes (List Bytes) compare) (p : Bytes),
    (ps.foldl (listChild n) children).getD p [] =
      children.getD p [] ++ List.replicate (ps.count p) n
  | [], children, p => by simp
  | q :: ps, children, p => by
    rw [List.foldl_cons, foldl_listChild n ps, listChild, Std.ExtTreeMap.getD_insert]
    by_cases hq : q = p
    · subst hq
      rw [if_pos Std.ReflCmp.compare_self, List.count_cons_self, List.append_assoc, Nat.add_comm,
        List.replicate_add]
      rfl
    · rw [if_neg fun he => hq (Std.LawfulEqCmp.eq_of_compare he), List.count_cons_of_ne hq]

theorem count_childrenOf_file (h : History) (u : Utterance) (p c : Bytes) :
    ((h.file u).childrenOf p).count c =
      (h.childrenOf p).count c + if c = u.hash then u.parents.count p else 0 := by
  rw [childrenOf, file, foldl_listChild, List.count_append, List.count_replicate, ← childrenOf]
  by_cases hc : c = u.hash
  · simp [hc]
  · simp [hc, Ne.symm hc]

/-! ### The invariant -/

/-- What every history satisfies. -/
structure Filed (h : History) : Prop where
  /-- An utterance is held under the name of its content. -/
  named : ∀ {n u}, h.byHash[n]? = some u → u.hash = n ∧ WellFormed u
  /-- It was filed after those it follows. -/
  graded : ∃ rank, Graded h.names h.Follows rank
  /-- The index. -/
  index : ∀ p c, (h.childrenOf p).count c = (h.parentsOf c).count p

theorem filed_empty : ({} : History).Filed where
  named hu := by simp at hu
  graded := by
    refine ⟨fun _ => 0, ?_, ?_, ?_⟩ <;>
    · intro p c hr
      simp [Follows, parentsOf] at hr
  index p c := by simp [childrenOf, parentsOf]

/-- Filing an utterance whose parents are held keeps the invariant. -/
theorem Filed.file {h : History} (hf : h.Filed) {u : Utterance} (hu : WellFormed u)
    (hnew : u.hash ∉ h.names) (hparents : ∀ p ∈ u.parents, p ∈ h.names) : (h.file u).Filed where
  named {n v} hv := by
    rw [byHash_file] at hv
    split at hv
    · rename_i hn
      obtain rfl := Option.some.inj hv
      exact ⟨hn.symm, hu⟩
    · exact hf.named hv
  graded := by
    classical
    obtain ⟨rank, hrank⟩ := hf.graded
    have hbound : ∀ p ∈ {p | p ∈ u.parents}, rank p < (u.parents.map rank).sum + 1 :=
      fun p hp => Nat.lt_succ_of_le (List.le_sum_of_mem (List.mem_map_of_mem hp))
    have hinsert := @Graded.insert _ _ _ _ hrank u.hash hnew {p | p ∈ u.parents} hparents _ hbound
    rw [names_file]
    have hfollows : (h.file u).Follows =
        fun p c => h.Follows p c ∨ c = u.hash ∧ p ∈ {p | p ∈ u.parents} := by
      funext p c
      rw [Follows, parentsOf_file]
      by_cases hc : c = u.hash
      · subst hc
        simp [Follows, parentsOf_of_not_mem hnew]
      · simp [Follows, hc]
    rw [hfollows]
    exact ⟨_, hinsert⟩
  index p c := by
    rw [count_childrenOf_file, hf.index, parentsOf_file]
    by_cases hc : c = u.hash
    · rw [if_pos hc, if_pos hc, hc, parentsOf_of_not_mem hnew, List.count_nil, Nat.zero_add]
    · rw [if_neg hc, if_neg hc, Nat.add_zero]

/-- Every call keeps the invariant. -/
theorem Filed.add {h : History} (hf : h.Filed) (u : Utterance) : (h.add u).2.Filed := by
  rcases h.add_cases u with ⟨-, he⟩ | ⟨-, -, he⟩ | ⟨-, -, -, he⟩ | ⟨hu, hnew, hparents, he⟩
  · rw [he]
    exact hf
  · rw [he]
    exact hf
  · rw [he]
    exact hf
  · rw [he]
    exact hf.file hu hnew hparents

/-! ### Runs -/

/-- A run of calls of `History::add` with utterances of a set. -/
inductive Adds (offered : Set Utterance) (h : History) : History → Prop
  /-- No call. -/
  | refl : Adds offered h h
  /-- One more. -/
  | add {k : History} {u : Utterance} (before : Adds offered h k) (offer : u ∈ offered) :
    Adds offered h (k.add u).2

/-- A history that is built by adding utterances to the empty one. -/
def Reachable (h : History) : Prop := Adds Set.univ {} h

theorem Adds.trans {offered : Set Utterance} {h k l : History} (hk : Adds offered h k)
    (hl : Adds offered k l) : Adds offered h l := by
  induction hl with
  | refl => exact hk
  | add _ offer ih => exact ih.add offer

theorem Adds.mono {offered offered' : Set Utterance} (ho : offered ⊆ offered') {h k : History}
    (hk : Adds offered h k) : Adds offered' h k := by
  induction hk with
  | refl => exact .refl
  | add _ offer ih => exact ih.add (ho offer)

theorem Adds.filed {offered : Set Utterance} {h k : History} (hk : Adds offered h k)
    (hf : h.Filed) : k.Filed := by
  induction hk with
  | refl => exact hf
  | add _ _ ih => exact ih.add _

theorem Reachable.filed {h : History} (hr : h.Reachable) : h.Filed := Adds.filed hr filed_empty

theorem Reachable.adds {h k : History} {offered : Set Utterance} (hr : h.Reachable)
    (hk : Adds offered h k) : k.Reachable :=
  Adds.trans hr (hk.mono (Set.subset_univ _))

/-- What is held stays held, and the names grow by what is offered. -/
theorem Adds.grows {offered : Set Utterance} {h k : History} (hk : Adds offered h k) :
    Grows (fun u : Utterance => {p | p ∈ u.parents}) Utterance.hash {u | u ∈ offered ∧ WellFormed u}
      h.names k.names := by
  induction hk with
  | refl => exact .refl
  | @add k u before offer ih =>
    rcases k.add_cases u with ⟨-, he⟩ | ⟨-, -, he⟩ | ⟨-, -, -, he⟩ | ⟨hu, -, hparents, he⟩
    · rw [he]
      exact ih
    · rw [he]
      exact ih
    · rw [he]
      exact ih
    · rw [he, names_file]
      exact ih.place ⟨offer, hu⟩ hparents

/-- What is held is what was held or was offered. -/
theorem Adds.origin {offered : Set Utterance} {h k : History} (hk : Adds offered h k) :
    ∀ {n : Bytes} {u : Utterance}, k.byHash[n]? = some u → h.byHash[n]? = some u ∨ u ∈ offered := by
  induction hk with
  | refl => exact Or.inl
  | @add k u before offer ih =>
    intro n v (hv : (k.add u).2.byHash[n]? = some v)
    rcases k.add_cases u with ⟨-, he⟩ | ⟨-, -, he⟩ | ⟨-, -, -, he⟩ | ⟨-, -, -, he⟩
    · rw [he] at hv
      exact ih hv
    · rw [he] at hv
      exact ih hv
    · rw [he] at hv
      exact ih hv
    · rw [he, byHash_file] at hv
      split at hv
      · obtain rfl := Option.some.inj hv
        exact Or.inr offer
      · exact ih hv

end History

end VoidPalabra.Utterances
