import VoidPalabra.Filed

/-!
# The order of a history

Being an ancestor is a strict partial order, which both walks of a history decide. Its
heads are the maximal utterances, everything else is below one of them, and so the name of
the heads is the name of everything that is held.
-/

namespace VoidPalabra.Utterances.History

open Growth

variable {h k : History}

/-! ### Walks -/

/-- What a walk from the parents of an utterance can reach are its ancestors. -/
theorem reach_iff {a b : Bytes} :
    Search.Reach h.parentsOf (h.parentsOf b).reverse a ↔ Relation.TransGen h.Follows a b := by
  rw [← Relation.transGen_swap, Relation.TransGen.head'_iff]
  simp only [Search.Reach, List.mem_reverse]
  rfl

theorem walk_fuel (h : History) (b : Bytes) : (h.parentsOf b).reverse.length +
    (h.byHash.keys.map fun n => (h.parentsOf n).length).sum ≤ (h.parentsOf b).length + h.edges := by
  rw [List.length_reverse, edges]

theorem parentsOf_of_not_key {a : Bytes} (ha : a ∉ h.byHash.keys) : h.parentsOf a = [] :=
  parentsOf_of_not_mem fun hn => ha (Std.ExtTreeMap.mem_keys.mpr hn)

theorem mem_ancestors {a b : Bytes} :
    a ∈ h.ancestors b ↔ b ∈ h.names ∧ Relation.TransGen h.Follows a b := by
  unfold ancestors
  by_cases hb : h.has b = true
  · rw [if_neg (by simp [hb]), walkFrom, Search.mem_walk Std.ExtTreeMap.nodup_keys
      (fun a => parentsOf_of_not_key) (h.walk_fuel b), reach_iff]
    exact ⟨fun hr => ⟨has_iff.mp hb, hr⟩, And.right⟩
  · rw [if_pos (by simpa using hb)]
    exact ⟨fun ha => absurd ha Std.ExtTreeSet.not_mem_empty, fun ha => absurd (has_iff.mpr ha.1) hb⟩

/-- `History::is_ancestor` decides the order. -/
theorem isAncestor_iff (hf : h.Filed) {a b : Bytes} :
    h.isAncestor a b = true ↔ Relation.TransGen h.Follows a b := by
  obtain ⟨rank, hrank⟩ := hf.graded
  unfold isAncestor
  by_cases hab : a = b
  · subst hab
    rw [if_pos rfl]
    exact ⟨fun hf => (nomatch hf), fun hr => absurd hr (hrank.irrefl a)⟩
  rw [if_neg hab]
  by_cases hheld : h.has a = true ∧ h.has b = true
  · rw [if_neg (by simp [hheld]), walkFrom, Search.walk_found Std.ExtTreeMap.nodup_keys
      (fun a => parentsOf_of_not_key) (h.walk_fuel b)]
    simp only [reach_iff, beq_iff_eq, exists_eq_right]
  · rw [if_pos (by simpa [Bool.or_eq_true, or_iff_not_imp_left] using hheld)]
    refine ⟨fun hf => (nomatch hf), fun hr => absurd ?_ hheld⟩
    exact ⟨has_iff.mpr (hrank.mem_left hr), has_iff.mpr (hrank.mem_right hr)⟩

/-! ### Heads -/

/-- `History::heads` are what nothing follows. -/
theorem mem_heads (hf : h.Filed) {n : Bytes} : n ∈ h.heads ↔ Head h.names h.Follows n := by
  have hempty : (h.childrenOf n).isEmpty = true ↔ ∀ c, ¬h.Follows n c := by
    rw [List.isEmpty_iff, List.eq_nil_iff_forall_not_mem]
    refine forall_congr' fun c => not_congr ?_
    rw [← List.count_pos_iff, hf.index, List.count_pos_iff]
    rfl
  rw [heads, Sorting.mem_sortOn, List.mem_filter, Std.ExtTreeMap.mem_keys, hempty]
  rfl

theorem finite_names (h : History) : h.names.Finite :=
  (List.finite_toSet h.byHash.keys).subset fun _ hn => Std.ExtTreeMap.mem_keys.mpr hn

/-- Without repetition there is nothing to drop. -/
theorem sortUnique_of_nodup {xs : List Bytes} (h : xs.Nodup) :
    sortUnique xs = Sorting.sortOn id xs := by
  have hordered : (sortUnique xs).Pairwise fun a b => compare a b = .lt :=
    Std.ExtTreeSet.ordered_toList
  have hle : (sortUnique xs).Pairwise (Sorting.KeyLe id) := hordered.imp fun {a b} hlt => by
    change (compare a b).isLE = true
    rw [hlt]
    rfl
  have hself : ∀ a : Bytes, compare a a = .eq := fun a => Std.ReflCmp.compare_self
  have hnodup : (sortUnique xs).Nodup := hordered.imp fun {a b} hlt hab => by
    rw [hab, hself] at hlt
    cases hlt
  rw [← Sorting.sortOn_of_pairwise hle]
  exact Sorting.sortOn_id_eq_of_perm
    ((List.perm_ext_iff_of_nodup hnodup h).mpr fun b => mem_sortUnique)

theorem sortUnique_singleton (n : Bytes) : sortUnique [n] = [n] :=
  sortUnique_of_nodup (List.nodup_singleton n)

theorem sortUnique_sortUnique (xs : List Bytes) : sortUnique (sortUnique xs) = sortUnique xs :=
  sortUnique_congr fun _ => mem_sortUnique

theorem heads_eq_sortUnique (h : History) :
    h.heads = sortUnique (h.byHash.keys.filter fun hash => (h.childrenOf hash).isEmpty) :=
  (sortUnique_of_nodup (Std.ExtTreeMap.nodup_keys.filter _)).symm

/-- Heads that are the same are listed the same. -/
theorem heads_congr (hf : h.Filed) (hk : k.Filed)
    (hheads : ∀ n, Head h.names h.Follows n ↔ Head k.names k.Follows n) : h.heads = k.heads := by
  rw [heads_eq_sortUnique, heads_eq_sortUnique]
  refine sortUnique_congr fun n => ?_
  have hn := hheads n
  rwa [← mem_heads hf, ← mem_heads hk, heads, heads, Sorting.mem_sortOn, Sorting.mem_sortOn] at hn

/-! ### Names -/

/-- What is hashed for a cut. -/
def cutHashed (heads : List Bytes) : Bytes :=
  Domain.cut.hashed (encodeSet (heads.map strBytes))

/-- What is hashed for the utterances of a history and for its cut. -/
def hashedOf (h : History) : Set Bytes :=
  {b | (∃ (n : Bytes) (u : Utterance), h.byHash[n]? = some u ∧ b = u.hashed) ∨ b = cutHashed h.heads}

theorem cutName_eq (hf : h.Filed) :
    h.cutName = .ok (lit "c:" ++ hexBytes (sha256 (cutHashed h.heads))) := by
  have htext : ∀ n ∈ h.heads, validUtf8 n = true := by
    intro n hn
    have hmem : n ∈ h.byHash := ((mem_heads hf).mp hn).1
    obtain ⟨u, hu⟩ := Option.isSome_iff_exists.mp (Std.ExtTreeMap.isSome_getElem?_iff_mem.mpr hmem)
    obtain ⟨rfl, hw⟩ := hf.named hu
    exact hw.text
  exact bind_eq_ok.mpr ⟨_, encodedEach_eq_ok.mpr ⟨htext, rfl⟩, rfl⟩

/-! ### The linear extension -/

/-- The names, the parents and the index are what the loop runs on. -/
theorem Filed.indexed (hf : h.Filed) : ∃ rank, Kahn.Indexed
    (h.byHash.toList.map fun kv => (kv.1, kv.2.parents.length)) h.childrenOf h.parentsOf rank := by
  obtain ⟨rank, hrank⟩ := hf.graded
  have hkeys : (h.byHash.toList.map fun kv => (kv.1, kv.2.parents.length)).map Prod.fst =
      h.byHash.keys := by
    rw [List.map_map, ← Std.ExtTreeMap.map_fst_toList_eq_keys]
    rfl
  refine ⟨rank, ?_, fun n hn => ?_, fun p c => ?_, fun c _ p hp => ?_, fun c _ p hp => hrank.lt hp⟩
  · rw [hkeys]
    exact Std.ExtTreeMap.nodup_keys
  · obtain ⟨kv, hkv, rfl⟩ := List.mem_map.mp hn
    have hget := Std.ExtTreeMap.mem_toList_iff_getElem?_eq_some.mp hkv
    change kv.2.parents.length = (h.parentsOf kv.1).length
    rw [parentsOf, hget]
  · have hbeq : (instBEqOfDecidableEq : BEq Bytes) = List.instBEq := lawful_beq_subsingleton _ _
    have hindex := hf.index p c
    rw [hkeys]
    by_cases hc : c ∈ h.byHash.keys
    · rwa [if_pos hc, hbeq]
    · rw [if_neg hc, hbeq, hindex, parentsOf_of_not_key hc, List.count_nil]
  · rw [hkeys]
    exact Std.ExtTreeMap.mem_keys.mpr (hrank.parent hp)

/-- **The linear extension is the one reading of the order.** -/
theorem Filed.reading (hf : h.Filed) :
    Kahn.Reading compare h.byHash.keys h.parentsOf h.linearExtension := by
  obtain ⟨rank, hi⟩ := hf.indexed
  have hread : Kahn.Reading compare _ _ _ := Kahn.reading_run hi
  rw [List.length_map, Std.ExtTreeMap.length_toList, List.map_map,
    show (Prod.fst ∘ fun kv : Bytes × Utterance => (kv.1, kv.2.parents.length)) = Prod.fst from rfl,
    Std.ExtTreeMap.map_fst_toList_eq_keys] at hread
  exact hread

/-! ### The order and its name -/

/-- What two histories hold in common follows the same in both. -/
theorem follows_agree {s : Set Bytes} (hs : Set.InjOn sha256 s) (hf : h.Filed) (hk : k.Filed)
    (hh : ∀ (n : Bytes) (u : Utterance), h.byHash[n]? = some u → u.hashed ∈ s)
    (hk' : ∀ (n : Bytes) (u : Utterance), k.byHash[n]? = some u → u.hashed ∈ s) :
    ∀ c ∈ h.names, c ∈ k.names → ∀ p, h.Follows p c ↔ k.Follows p c := by
  intro c hc hc' p
  obtain ⟨u, hu⟩ := Option.isSome_iff_exists.mp (Std.ExtTreeMap.isSome_getElem?_iff_mem.mpr hc)
  obtain ⟨v, hv⟩ := Option.isSome_iff_exists.mp (Std.ExtTreeMap.isSome_getElem?_iff_mem.mpr hc')
  obtain ⟨hun, hw⟩ := hf.named hu
  obtain ⟨hvn, hw'⟩ := hk.named hv
  have hsame := hw.same hs (hh c u hu) (hk' c v hv) hw' (hun.trans hvn.symm)
  rw [Follows, Follows, parentsOf, parentsOf, hu, hv]
  exact hsame.parents p

/-- Being an ancestor is a strict partial order with its maximal elements in the heads. -/
structure Ordered (h : History) : Prop where
  /-- Nothing is its own ancestor. -/
  irrefl : ∀ a, h.isAncestor a a = false
  /-- An ancestor of an ancestor is one. -/
  trans : ∀ a b c, h.isAncestor a b = true → h.isAncestor b c = true → h.isAncestor a c = true
  /-- Both walks find the same. -/
  agrees : ∀ a b, h.isAncestor a b = true ↔ a ∈ h.ancestors b
  /-- Two that are held are the same, one above the other, or concurrent, and only one of
  these. -/
  exactlyOne : ∀ a b, h.has a = true → h.has b = true →
    [decide (a = b), h.isAncestor a b, h.isAncestor b a, h.concurrent a b].count true = 1
  /-- The heads are the maximal ones. -/
  maximal : ∀ n, n ∈ h.heads ↔ h.has n = true ∧ ∀ c, h.isAncestor n c = false
  /-- Everything is a head or below one. -/
  below : ∀ n, h.has n = true → n ∈ h.heads ∨ ∃ m ∈ h.heads, h.isAncestor n m = true

theorem Filed.exactlyOne (hf : h.Filed) {a b : Bytes} (ha : h.has a = true) (hb : h.has b = true) :
    [decide (a = b), h.isAncestor a b, h.isAncestor b a, h.concurrent a b].count true = 1 := by
  obtain ⟨rank, hrank⟩ := hf.graded
  have hasymm : ¬(h.isAncestor a b = true ∧ h.isAncestor b a = true) := fun ⟨hab, hba⟩ =>
    hrank.asymm ((isAncestor_iff hf).mp hab) ((isAncestor_iff hf).mp hba)
  have hself : a = b → h.isAncestor a b = false ∧ h.isAncestor b a = false := by
    rintro rfl
    exact ⟨if_pos rfl, if_pos rfl⟩
  rw [concurrent, if_neg (by simp [ha, hb])]
  by_cases hab : a = b
  · obtain ⟨hl, hr⟩ := hself hab
    rw [if_pos hab, hl, hr, decide_eq_true hab]
    rfl
  · rw [if_neg hab, decide_eq_false hab]
    revert hasymm
    cases h.isAncestor a b <;> cases h.isAncestor b a <;> simp

theorem Filed.ordered (hf : h.Filed) : h.Ordered := by
  obtain ⟨rank, hrank⟩ := hf.graded
  have hmaximal : ∀ n, n ∈ h.heads ↔ h.has n = true ∧ ∀ c, h.isAncestor n c = false := by
    intro n
    rw [mem_heads hf, Head, has_iff]
    refine and_congr_right fun _ => ⟨fun hn c => ?_, fun hn c hc => ?_⟩
    · refine Bool.eq_false_iff.mpr fun hanc => ?_
      obtain ⟨c', hc', -⟩ := Relation.TransGen.head'_iff.mp ((isAncestor_iff hf).mp hanc)
      exact hn c' hc'
    · have hanc := (isAncestor_iff hf).mpr (.single hc)
      rw [hn c] at hanc
      cases hanc
  constructor
  · exact fun a => if_pos rfl
  · intro a b c hab hbc
    rw [isAncestor_iff hf] at hab hbc ⊢
    exact hab.trans hbc
  · intro a b
    rw [isAncestor_iff hf, mem_ancestors]
    exact ⟨fun hr => ⟨hrank.mem_right hr, hr⟩, And.right⟩
  · exact fun a b => hf.exactlyOne
  · exact hmaximal
  · intro n hn
    obtain ⟨m, hm, hnm⟩ := hrank.below_head h.finite_names (has_iff.mp hn)
    have hm := (mem_heads hf).mpr hm
    rcases Relation.reflTransGen_iff_eq_or_transGen.mp hnm with rfl | hnm
    · exact Or.inl hm
    · exact Or.inr ⟨m, hm, (isAncestor_iff hf).mpr hnm⟩

/-- A name of a cut names its heads. -/
theorem heads_of_cutName (hf : h.Filed) (hk : k.Filed) {s : Set Bytes} (hs : Set.InjOn sha256 s)
    (hh : cutHashed h.heads ∈ s) (hh' : cutHashed k.heads ∈ s) (hname : h.cutName = k.cutName) :
    ∀ n, n ∈ h.heads ↔ n ∈ k.heads := by
  rw [cutName_eq hf, cutName_eq hk] at hname
  have hhex := hexBytes_injective (List.append_cancel_left (Except.ok.inj hname))
  have hset := (hashed_eq_iff.mp (hs hh hh' hhex)).2
  exact Utterance.encodeSet_strings_inj.mp hset

/-- **The history is a strict partial order and a cut names it.** Where no two of the bytes
that were hashed have one digest, histories whose cuts have one name hold the same. -/
theorem ordered_and_named (h k : History) (hh : h.Reachable) (hk : k.Reachable)
    (hsha : Set.InjOn sha256 (h.hashedOf ∪ k.hashedOf)) :
    h.Ordered ∧ (h.cutName = k.cutName → ∀ n, h.has n = k.has n) := by
  refine ⟨hh.filed.ordered, fun hname n => ?_⟩
  obtain ⟨rank, hrank⟩ := hh.filed.graded
  obtain ⟨rank', hrank'⟩ := hk.filed.graded
  have hheads := heads_of_cutName hh.filed hk.filed hsha (Or.inl (Or.inr rfl)) (Or.inr (Or.inr rfl)) hname
  have hagree := follows_agree hsha hh.filed hk.filed
    (fun n u hu => Or.inl (Or.inl ⟨n, u, hu, rfl⟩)) fun n u hu => Or.inr (Or.inl ⟨n, u, hu, rfl⟩)
  have hnames : h.names = k.names := hrank.eq_of_heads h.finite_names hrank' k.finite_names
    (fun a => by rw [← mem_heads hh.filed, ← mem_heads hk.filed, hheads]) hagree
  rw [Bool.eq_iff_iff, has_iff, has_iff, hnames]

/-- A first utterance. -/
def opens (command : String) : Utterance where
  command := lit command
  verb := lit "rune"
  hash := lit "u:" ++ hexBytes (sha256
    (Utterance.hashed { command := lit command, verb := lit "rune" }))

/-- Two first utterances in one order. -/
def oneWay : History := ((({} : History).add (opens "rune new a")).2.add (opens "rune new b")).2

/-- And in the other. -/
def otherWay : History := ((({} : History).add (opens "rune new b")).2.add (opens "rune new a")).2

/-- The bytes that are hashed for both. -/
def openedBytes : List Bytes :=
  [(opens "rune new a").hashed, (opens "rune new b").hashed, cutHashed oneWay.heads]

theorem ordered_and_named_opened : oneWay.Ordered ∧ ∀ n, oneWay.has n = otherWay.has n := by
  have hcomputed : oneWay.heads = otherWay.heads ∧ (openedBytes.map sha256).Nodup := by
    decide +kernel
  obtain ⟨hheads, hnodup⟩ := hcomputed
  have hone' : Adds {opens "rune new a", opens "rune new b"} {} oneWay :=
    (Adds.refl.add (Or.inl rfl)).add (Or.inr rfl)
  have hother' : Adds {opens "rune new a", opens "rune new b"} {} otherWay :=
    (Adds.refl.add (Or.inr rfl)).add (Or.inl rfl)
  have hone : oneWay.Reachable := hone'.mono (Set.subset_univ _)
  have hother : otherWay.Reachable := hother'.mono (Set.subset_univ _)
  have hheld : ∀ (h : History), Adds {opens "rune new a", opens "rune new b"} {} h →
      h.heads = oneWay.heads → h.hashedOf ⊆ {b | b ∈ openedBytes} := by
    rintro h hadds hh b (⟨n, u, hu, rfl⟩ | rfl)
    · rcases hadds.origin hu with hnone | rfl | rfl
      · simp at hnone
      · exact List.mem_cons_self
      · exact List.mem_cons_of_mem _ List.mem_cons_self
    · rw [hh]
      exact List.mem_cons_of_mem _ (List.mem_cons_of_mem _ List.mem_cons_self)
  have hsub := Set.union_subset (hheld _ hone' rfl) (hheld _ hother' hheads.symm)
  have hsha : Set.InjOn sha256 {b | b ∈ openedBytes} := List.inj_on_of_nodup_map hnodup
  obtain ⟨hordered, hcut⟩ := ordered_and_named oneWay otherWay hone hother (hsha.mono hsub)
  exact ⟨hordered, hcut (by rw [cutName, cutName, hheads])⟩

end VoidPalabra.Utterances.History
