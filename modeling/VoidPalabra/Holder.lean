import VoidPalabra.Tidy
import VoidPalabra.Sequence

/-!
# Where a sequence is kept

A field of a rune is a register or the holder of a sequence. A document is entered at a
sequence by name, whatever the nodes are on the way; in the documents that come about, the
nodes on the way are maps, the holder is a map when it has a sequence, and the two sets of
the sequence are OR-sets. This is kept by joins and by putting one of the two sets.
-/

namespace VoidPalabra

/-- Whose field a sequence is. -/
structure SeqPlace where
  /-- The mantle's name. -/
  mantle : CString
  /-- The rune's identity. -/
  runeId : CString
  /-- The field's name. -/
  field : CString
  deriving DecidableEq

namespace SeqPlace

variable (p : SeqPlace)

/-- The fields of the rune. -/
def fieldsPath : Path := [Key.mantles, p.mantle, Key.runes, p.runeId, Key.fields]

/-- The field. -/
def holderPath : Path := p.fieldsPath ++ [p.field]

/-- The sequence in it. -/
def seqPath : Path := p.holderPath ++ [Key.seq]

/-- One of the two sets of the sequence. -/
def setPath (k : CString) : Path := p.seqPath ++ [k]

end SeqPlace

/-- The two sets of a sequence. -/
def IsSeqSet (k : CString) : Prop := k = Key.nodes ∨ k = Key.dead

/-- What a node at a path on the way to a sequence is. -/
structure SeqNodeOk (q : Path) (n : Json) : Prop where
  /-- A map, down to the fields of a rune. -/
  spine : ∀ p : SeqPlace, q <+: p.fieldsPath → nodeRank n = 3
  /-- A field has a sequence only if it is a map. -/
  holder : ∀ p : SeqPlace, q = p.holderPath → nodeRank n ≠ 3 → n.get Key.seq = none
  /-- The sequence is a map. -/
  seq : ∀ p : SeqPlace, q = p.seqPath → nodeRank n = 3
  /-- Its two sets are OR-sets. -/
  set : ∀ (p : SeqPlace) (k : CString), IsSeqSet k → q = p.setPath k → nodeRank n = 2

/-- A document whose fields may be sequences. -/
structure Sequential (root : Json) : Prop where
  /-- Its maps are tidy. -/
  tidy : Tidy root
  /-- Its nodes are what they should be on the way to a sequence. -/
  nodes : ∀ q n, nodeAt root q = some n → SeqNodeOk q n

/-! ### A document without sequences -/

/-- An OR-set that is spelled right has no third member. -/
theorem SpelledOrset.get_seq {n : Json} (h : SpelledOrset n) : n.get Key.seq = none := by
  have hw := h.wellFormed
  cases n with
  | obj ms =>
    rw [orsetJsonWellFormed] at hw
    split at hw
    · rename_i adds removes ha hr
      simp only [Bool.and_eq_true, beq_iff_eq] at hw
      by_contra hs
      have hmem : ∀ {k : CString} {v : Json}, Json.lookup k ms = some v → k ∈ ms.map Prod.fst := by
        intro k v hv
        by_contra hk
        rw [Json.lookup_eq_none_iff.mpr hk] at hv
        cases hv
      obtain ⟨v, hv⟩ := Option.ne_none_iff_exists'.mp hs
      have hsub : [Key.a, Key.r, Key.seq] ⊆ ms.map Prod.fst := by
        simp only [List.cons_subset, List.nil_subset, and_true]
        exact ⟨hmem ha, hmem hr, hmem hv⟩
      have hlen := (List.subperm_of_subset (by decide) hsub).length_le
      simp only [List.length_map, List.length_cons, List.length_nil] at hlen
      omega
    · cases hw
  | _ => cases hw

/-- The nodes down to the fields of a rune are maps. -/
theorem kindOf_spine {p : SeqPlace} {q : Path} {k : Kind} (hq : q <+: p.fieldsPath)
    (hk : kindOf q = some k) : k = .map := by
  have hm : Key.mantles ≠ Key.palabra := by decide
  have hr : Key.runes ≠ Key.present ∧ Key.runes ≠ Key.fields := by decide
  have hf : Key.fields ≠ Key.present := by decide
  simp only [SeqPlace.fieldsPath, List.prefix_cons_iff, List.prefix_nil] at hq
  rcases hq with rfl | ⟨_, rfl, rfl | ⟨_, rfl, rfl | ⟨_, rfl, rfl | ⟨_, rfl, rfl | ⟨_, rfl, rfl⟩⟩⟩⟩⟩
  all_goals
    simp only [kindOf, namedKind, mantleKind, runeKind, fieldsKind, hm, hr.1, hr.2, hf, if_true,
      if_false, Option.ite_none_left_eq_some, Option.some.injEq] at hk
    grind

/-- What may be below the fields of a rune. -/
theorem kindOf_fields {p : SeqPlace} {r : Path} {k : Kind} (hk : kindOf (p.fieldsPath ++ r) = some k) :
    fieldsKind runeFieldAllowed .canonical r = some k := by
  have hm : Key.mantles ≠ Key.palabra := by decide
  have hr : Key.runes ≠ Key.present ∧ Key.runes ≠ Key.fields := by decide
  have hf : Key.fields ≠ Key.present := by decide
  simp only [SeqPlace.fieldsPath, List.cons_append, List.nil_append, kindOf, namedKind, mantleKind,
    runeKind, hm, hr.1, hr.2, hf, if_true, if_false, Option.ite_none_left_eq_some] at hk
  exact hk.2.2

/-- A field is a set. -/
theorem kindOf_holder {p : SeqPlace} {k : Kind} (hk : kindOf p.holderPath = some k) :
    k = .set .canonical := by
  have h := kindOf_fields hk
  rw [fieldsKind] at h
  split at h
  · cases h
    rfl
  · cases h

/-- There is nothing below a field. -/
theorem kindOf_seq (p : SeqPlace) (r : Path) : kindOf (p.seqPath ++ r) = none := by
  cases hk : kindOf (p.seqPath ++ r) with
  | none => rfl
  | some k =>
    rw [SeqPlace.seqPath, SeqPlace.holderPath, List.append_assoc, List.append_assoc] at hk
    have h := kindOf_fields hk
    simp [fieldsKind, setKind] at h

/-- A document in which no field is a sequence yet. -/
theorem Shaped.sequential {root : Json} (h : Shaped root) : Sequential root where
  tidy := by
    intro q n hn hr
    obtain ⟨k, hk, hs⟩ := h.kinds q n hn
    obtain ⟨ms, rfl⟩ := exists_members_of_rank hr
    cases k with
    | map =>
      refine ⟨hs.2, fun j v hv => ?_⟩
      have hv' : nodeAt root (q ++ [j]) = some v := by
        rw [nodeAt_append, hn, Option.bind_some, nodeAt_cons, if_pos hr, hv]
        rfl
      obtain ⟨k', -, hs'⟩ := h.kinds _ v hv'
      exact hs'.notArray
    | set rule =>
      have hrank := nodeRank_eq_two.mpr (isOrset_of_wellFormed (SpelledOrset.wellFormed hs))
      omega
    | marker => cases hs
  nodes := by
    intro q n hn
    obtain ⟨k, hk, hs⟩ := h.kinds q n hn
    constructor
    · intro p hq
      obtain rfl := kindOf_spine hq hk
      exact hs.1
    · rintro p rfl -
      obtain rfl := kindOf_holder hk
      exact SpelledOrset.get_seq hs
    · rintro p rfl
      have hnone := kindOf_seq p []
      rw [List.append_nil, hk] at hnone
      cases hnone
    · rintro p j - rfl
      have hnone := kindOf_seq p [j]
      rw [← SeqPlace.setPath, hk] at hnone
      cases hnone

/-! ### Joining and putting -/

theorem SeqNodeOk.of_rank {q : Path} {m n : Json} (h : SeqNodeOk q m) (hm : nodeRank m = 3)
    (hn : nodeRank n = 3) : SeqNodeOk q n where
  spine _ _ := hn
  holder _ _ hne := absurd hn hne
  seq _ _ := hn
  set p k hk hq := by
    have hset := h.set p k hk hq
    omega

/-- The join of two nodes of a path is what a node there is. -/
theorem SeqNodeOk.join {q : Path} {x y : Json} (hx : SeqNodeOk q x) (hy : SeqNodeOk q y)
    (htx : nodeRank x = 3 → TidyMap x) (hty : nodeRank y = 3 → TidyMap y) :
    SeqNodeOk q (joinNode x y) := by
  rcases joinNode_cases x y with h | h | ⟨hrx, -, s, h⟩ | ⟨hrx, hry⟩
  · rwa [h]
  · rwa [h]
  · rw [h]
    refine ⟨fun p hq => ?_, fun _ _ _ => rfl, fun p hq => ?_, fun _ _ _ _ => nodeRank_orsetToJson s⟩
    · have hs := hx.spine p hq
      omega
    · have hs := hx.seq p hq
      omega
  · exact hx.of_rank hrx (tidyMap_joinNode hrx hry (htx hrx) (hty hry)).2

theorem Sequential.join {a b : Json} (ha : Sequential a) (hb : Sequential b) :
    Sequential (joinNode a b) where
  tidy := ha.tidy.join hb.tidy
  nodes := by
    intro q n hn
    rcases nodeAt_joinNode (noClash_of_tidy ha.tidy hb.tidy) hn with h | h | ⟨x, y, hx, hy, rfl⟩
    · exact ha.nodes q n h
    · exact hb.nodes q n h
    · exact (ha.nodes q x hx).join (hb.nodes q y hy) (ha.tidy q x hx) (hb.tidy q y hy)

/-- Putting under a map what belongs there. -/
theorem Sequential.put {root v parent : Json} {k : CString} {p : Path} (h : Sequential root)
    (ht : Tidy v) (hv : v.isArray = false) (hn : nodeAt root p = some parent)
    (hr : nodeRank parent = 3) (hok : ∀ r n, nodeAt v r = some n → SeqNodeOk (p ++ [k] ++ r) n) :
    Sequential (putAt (p ++ [k]) v root) where
  tidy := h.tidy.put ht hv hn hr
  nodes := by
    intro q n hq
    rw [(putAt_put hv h.tidy hn hr).2, putNode] at hq
    split at hq
    · rename_i hpre
      obtain ⟨r, rfl⟩ := hpre
      rw [List.drop_left] at hq
      exact hok r n hq
    · rename_i hnot
      split at hq
      · rename_i hpre
        obtain ⟨m, hm, rfl⟩ := Option.map_eq_some_iff.mp hq
        obtain ⟨r, rfl, hdrop⟩ := exists_rest hpre hnot
        rw [nodeAt_append, hm, Option.bind_some] at hn
        have hrm : nodeRank m = 3 := by
          cases r with
          | nil =>
            cases hn
            exact hr
          | cons x r => exact nodeRank_above hn
        rw [hdrop]
        exact (h.nodes q m hm).of_rank hrm (putAt_put hv (h.tidy.below hm) hn hr).1.1
      · exact h.nodes q n hq

end VoidPalabra
