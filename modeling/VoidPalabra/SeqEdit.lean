import VoidPalabra.Holder
import VoidPalabra.Fugue
import VoidPalabra.Enrich

/-!
# Editing a sequence

The three edits of a sequence and its reading: a field becomes a sequence, an element is
put at a visible index, the element at a visible index gets a tombstone, and the visible
elements are read in order. What an edit does to the two sets of every sequence of a
document is said here once; whether the list reads as it should is not asked yet.
-/

namespace VoidPalabra

/-! ### The source -/

/-- `seq_holder`: the sequence of a field, following names. -/
def seqHolder (root : Json) (p : SeqPlace) : Option Json := atPath root p.seqPath

/-- `make_empty_seq`. -/
def makeEmptySeq : Json :=
  .obj [(Key.nodes, orsetToJson .empty), (Key.dead, orsetToJson .empty)]

/-- What `seq_init` puts in the place of a field. -/
def emptyHolder : Json := .obj [(Key.seq, makeEmptySeq)]

/-- The order of the nodes in a set of nodes; the traversal always ends. -/
def orderIn (ns : OrSet) : List SeqNode := (seqOrderOf (liveNodes ns)).getD []

/-- The traversal that every edit and the reading begin with. -/
def seqAll (seq : Json) : List SeqNode := (seqOrder (some seq)).getD []

/-- `seq_is`. -/
def seqIs (root : Json) (p : SeqPlace) : Bool := (seqHolder root p).isSome

/-- `seq_insert` with the tag that the mint hands out next: what is returned or thrown, and
the document after it. -/
def seqInsert (root : Json) (p : SeqPlace) (index : ℕ) (value : Json) (tag : Tag) :
    Except CanonicalError Bool × Json :=
  match seqHolder root p with
  | none => (.ok false, root)
  | some seq =>
    match attachPoint (seqAll seq) (seqDead seq) index with
    | none => (.ok false, root)
    | some (parent, side) =>
      match encode value >>= encodeNode parent side with
      | .error e => (.error e, root)
      | .ok node =>
        let ns := orsetFromJson (seq.get Key.nodes)
        (.ok true, putAt (p.setPath Key.nodes) (orsetToJson (ns.add tag node)) root)

/-- The loop of `seq_init`: each item at the index after the one before. A call that puts
nothing takes no tag. -/
def seqInsertEach (mint : Mint) (p : SeqPlace) :
    List Json → ℕ → ℕ → Json → Except CanonicalError Bool × Json
  | [], _, _, root => (.ok true, root)
  | v :: rest, i, issued, root =>
    match seqInsert root p i v (mint.tag issued) with
    | (.error e, root) => (.error e, root)
    | (.ok put, root) => seqInsertEach mint p rest (i + 1) (if put then issued + 1 else issued) root

/-- `seq_init` with a mint that has handed out some tags. -/
def seqInit (mint : Mint) (issued : ℕ) (root : Json) (p : SeqPlace) (array : Option Json) :
    Except CanonicalError Bool × Json :=
  match atPath root p.fieldsPath with
  | none => (.ok false, root)
  | some _ =>
    seqInsertEach mint p (arrayItems array) 0 issued (putAt p.holderPath emptyHolder root)

/-- `seq_erase`. -/
def seqErase (root : Json) (p : SeqPlace) (index : ℕ) : Bool × Json :=
  match seqHolder root p with
  | none => (false, root)
  | some seq =>
    match visibleAt (seqDead seq) index (seqAll seq) 0 with
    | none => (false, root)
    | some n =>
      let ds := orsetFromJson (seq.get Key.dead)
      (true, putAt (p.setPath Key.dead) (orsetToJson (ds.add n.id (lit "1"))) root)

/-- The value of an element; one that cannot be decoded reads as null. -/
def SeqNode.value (n : SeqNode) : Json := (decode n.payload).getD .null

/-- `seq_read`. -/
def seqRead (root : Json) (p : SeqPlace) : Option (List Json) :=
  (seqHolder root p).map fun seq => (visibleOf (seqDead seq) (seqAll seq)).map SeqNode.value

/-! ### The two sets of a sequence -/

/-- One of the two sets of a sequence. -/
def seqSet (root : Json) (p : SeqPlace) (k : CString) : OrSet :=
  orsetFromJson (get (seqHolder root p) k)

section

variable {root a b : Json} {p p' : SeqPlace} {k k' : CString}

/-- Whether a set of tombstones has one for an element. -/
def deadIn (ds : OrSet) (id : Tag) : Bool := ds.adds.contains id && !ds.removes.contains id

theorem seqAll_eq {seq : Json} (hs : seqHolder root p = some seq) :
    seqAll seq = orderIn (seqSet root p Key.nodes) := by
  rw [seqSet, hs]
  rfl

theorem seqDead_eq {seq : Json} (hs : seqHolder root p = some seq) :
    seqDead seq = deadIn (seqSet root p Key.dead) := by
  rw [seqSet, hs]
  rfl

/-- The elements that are shown, in order. -/
def shownIn (ns ds : OrSet) : List SeqNode := visibleOf (deadIn ds) (orderIn ns)

/-- The reading of a sequence from its two sets. -/
theorem seqRead_eq (hs : (seqHolder root p).isSome = true) :
    seqRead root p =
      some ((shownIn (seqSet root p Key.nodes) (seqSet root p Key.dead)).map SeqNode.value) := by
  obtain ⟨seq, hs⟩ := Option.isSome_iff_exists.mp hs
  rw [seqRead, hs, Option.map_some, seqAll_eq hs, seqDead_eq hs, shownIn]

/-- In these documents the sequence is a node of the tree, and a map. -/
theorem Sequential.seqHolder_eq (h : Sequential root) (p : SeqPlace) :
    seqHolder root p = nodeAt root p.seqPath := by
  have hholder : atPath root p.holderPath = nodeAt root p.holderPath := by
    refine atPath_of_maps fun q m hq hne hm => (h.nodes q m hm).spine p ?_
    exact (List.prefix_concat_iff.mp hq).resolve_left hne
  rw [seqHolder, SeqPlace.seqPath, atPath_concat, hholder, nodeAt_concat]
  cases hm : nodeAt root p.holderPath with
  | none => rfl
  | some m =>
    rw [Option.bind_some, get_some]
    by_cases hr : nodeRank m = 3
    · rw [if_pos hr]
    · rw [if_neg hr, (h.nodes _ m hm).holder p rfl hr]

theorem Sequential.rank_seq (h : Sequential root) {seq : Json} (hs : seqHolder root p = some seq) :
    nodeRank seq = 3 := by
  rw [h.seqHolder_eq] at hs
  exact (h.nodes _ seq hs).seq p rfl

/-- Its sets are sets of the tree. -/
theorem Sequential.seqSet_eq (h : Sequential root) (p : SeqPlace) (hk : IsSeqSet k) :
    seqSet root p k = setAt root (p.setPath k) := by
  have hnode : get (seqHolder root p) k = nodeAt root (p.setPath k) := by
    rw [SeqPlace.setPath, nodeAt_concat, ← h.seqHolder_eq]
    cases hs : seqHolder root p with
    | none => rfl
    | some seq => rw [Option.bind_some, if_pos (h.rank_seq hs), get_some]
  rw [seqSet, hnode]
  cases hn : nodeAt root (p.setPath k) with
  | none => rw [setAt_eq_empty hn, orsetFromJson_none]
  | some n => rw [setAt_of_nodeAt hn ((h.nodes _ n hn).set p k hk rfl)]

/-- The cell of a set of a sequence. -/
theorem Sequential.cellAt_eq (h : Sequential root) (p : SeqPlace) (hk : IsSeqSet k) :
    cellAt root (p.setPath k) = none ∧ seqSet root p k = .empty ∨
      cellAt root (p.setPath k) = some (.set (seqSet root p k)) := by
  rw [h.seqSet_eq p hk]
  cases hn : nodeAt root (p.setPath k) with
  | none => exact .inl ⟨by rw [cellAt, hn]; rfl, setAt_eq_empty hn⟩
  | some n =>
    have hr := (h.nodes _ n hn).set p k hk rfl
    exact .inr (by rw [cellAt, hn, Option.map_some, cellOf_orset hr, setAt_of_nodeAt hn hr])

/-- A join joins the sets of every sequence. -/
theorem Sequential.seqSet_join (ha : Sequential a) (hb : Sequential b) (p : SeqPlace)
    (hk : IsSeqSet k) : seqSet (joinNode a b) p k = (seqSet a p k).join (seqSet b p k) := by
  rw [(ha.join hb).seqSet_eq p hk, setAt, cellAt_joinNode (noClash_of_tidy ha.tidy hb.tidy)]
  rcases ha.cellAt_eq p hk with ⟨hca, hsa⟩ | hca <;> rcases hb.cellAt_eq p hk with ⟨hcb, hsb⟩ | hcb
  · rw [hca, hcb, hsa, hsb, OrSet.join_empty]
    rfl
  · rw [hca, hcb, hsa, OrSet.empty_join]
    rfl
  · rw [hca, hcb, hsb, OrSet.join_empty]
    rfl
  · rw [hca, hcb]
    rfl

theorem setPath_starts : p.setPath k <+: p'.setPath k' ↔ p' = p ∧ k' = k := by
  obtain ⟨m, r, f⟩ := p
  obtain ⟨m', r', f'⟩ := p'
  simp only [SeqPlace.setPath, SeqPlace.seqPath, SeqPlace.holderPath, SeqPlace.fieldsPath,
    List.cons_append, List.nil_append, List.cons_prefix_cons, List.prefix_nil, SeqPlace.mk.injEq,
    true_and, and_true]
  grind

theorem holderPath_starts : p.holderPath <+: p'.setPath k ↔ p' = p := by
  obtain ⟨m, r, f⟩ := p
  obtain ⟨m', r', f'⟩ := p'
  simp only [SeqPlace.setPath, SeqPlace.seqPath, SeqPlace.holderPath, SeqPlace.fieldsPath,
    List.cons_append, List.nil_append, List.cons_prefix_cons, SeqPlace.mk.injEq,
    List.nil_prefix, true_and, and_true]
  grind

/-- A node below a sequence is on no other way than that to its sets. -/
theorem seqNodeOk_set {n : Json} (hr : nodeRank n = 2) : SeqNodeOk (p.setPath k) n where
  spine p' hq := by
    have hle := hq.length_le
    simp [SeqPlace.setPath, SeqPlace.seqPath, SeqPlace.holderPath, SeqPlace.fieldsPath] at hle
  holder p' hq := by
    have hlen := congrArg List.length hq
    simp [SeqPlace.setPath, SeqPlace.seqPath, SeqPlace.holderPath, SeqPlace.fieldsPath] at hlen
  seq p' hq := by
    have hlen := congrArg List.length hq
    simp [SeqPlace.setPath, SeqPlace.seqPath, SeqPlace.holderPath, SeqPlace.fieldsPath] at hlen
  set _ _ _ _ := hr

/-- A map above the sets of a sequence. -/
theorem seqNodeOk_map {q : Path} {n : Json} (hq : q.length < 8) (hr : nodeRank n = 3) :
    SeqNodeOk q n where
  spine _ _ := hr
  holder _ _ hne := absurd hr hne
  seq _ _ := hr
  set p' k' _ hset := by
    have hlen := congrArg List.length hset
    simp [SeqPlace.setPath, SeqPlace.seqPath, SeqPlace.holderPath, SeqPlace.fieldsPath] at hlen
    omega

theorem nodeAt_orsetToJson {s : OrSet} {q : Path} {n : Json} (h : nodeAt (orsetToJson s) q = some n) :
    q = [] ∧ n = orsetToJson s := by
  cases q with
  | nil =>
    cases h
    exact ⟨rfl, rfl⟩
  | cons j q =>
    have hr := nodeRank_above h
    rw [nodeRank_orsetToJson] at hr
    omega

theorem tidy_orsetToJson (s : OrSet) : Tidy (orsetToJson s) := by
  intro q n hq hr
  obtain ⟨rfl, rfl⟩ := nodeAt_orsetToJson hq
  rw [nodeRank_orsetToJson] at hr
  omega

theorem Sequential.seqHolder_isSome (h : Sequential root) :
    (seqHolder root p).isSome = true ↔ (cellAt root p.seqPath).isSome = true := by
  rw [h.seqHolder_eq, cellAt, Option.isSome_map]

/-- Putting one of the sets of a sequence. -/
theorem Sequential.putSet (h : Sequential root) (hs : (seqHolder root p).isSome = true)
    (k : CString) {s : OrSet} (hn : s.Named) :
    Sequential (putAt (p.setPath k) (orsetToJson s) root) ∧
      (seqHolder (putAt (p.setPath k) (orsetToJson s) root) p).isSome = true ∧
      ∀ p' k', IsSeqSet k' → seqSet (putAt (p.setPath k) (orsetToJson s) root) p' k' =
        if p' = p ∧ k' = k then s else seqSet root p' k' := by
  obtain ⟨seq, hseq⟩ := Option.isSome_iff_exists.mp hs
  have hr := h.rank_seq hseq
  rw [h.seqHolder_eq] at hseq
  have hput : Sequential (putAt (p.setPath k) (orsetToJson s) root) := by
    refine h.put (tidy_orsetToJson s) rfl hseq hr fun r n hq => ?_
    obtain ⟨rfl, rfl⟩ := nodeAt_orsetToJson hq
    rw [List.append_nil]
    exact seqNodeOk_set (nodeRank_orsetToJson s)
  refine ⟨hput, ?_, fun p' k' hk' => ?_⟩
  · rw [h.seqHolder_isSome] at hs
    rwa [hput.seqHolder_isSome, SeqPlace.setPath, cellAt_put h.tidy rfl hseq hr, if_neg]
    intro hle
    have := hle.length_le
    simp at this
  · rw [hput.seqSet_eq p' hk', h.seqSet_eq p' hk', SeqPlace.setPath,
      setAt_put (p := p.seqPath) (k := k) h.tidy rfl hseq hr (p'.setPath k')]
    change (if p.setPath k <+: p'.setPath k' then _ else _) = _
    by_cases he : p' = p ∧ k' = k
    · rw [if_pos (setPath_starts.mpr he), if_pos he, he.1, he.2]
      simp only [SeqPlace.setPath, List.drop_length]
      rw [setAt_of_nodeAt (p := []) rfl (nodeRank_orsetToJson s), orsetFromJson_orsetToJson hn]
    · rw [if_neg fun hp => he (setPath_starts.mp hp), if_neg he]

theorem get_emptyHolder (j : CString) :
    emptyHolder.get j = if Key.seq = j then some makeEmptySeq else none := Json.lookup_cons _ _ _ _

theorem get_makeEmptySeq {k : CString} {x : Json} :
    makeEmptySeq.get k = some x ↔ IsSeqSet k ∧ x = orsetToJson .empty := by
  have hne : Key.nodes ≠ Key.dead := by decide
  rw [makeEmptySeq, Json.get_obj, Json.lookup_cons, Json.lookup_cons, Json.lookup_nil, IsSeqSet]
  grind

/-- The nodes of an empty sequence and of what holds it. -/
theorem nodeAt_emptyHolder {q : Path} {n : Json} (h : nodeAt emptyHolder q = some n) :
    q = [] ∧ n = emptyHolder ∨ q = [Key.seq] ∧ n = makeEmptySeq ∨
      ∃ k, IsSeqSet k ∧ q = [Key.seq, k] ∧ n = orsetToJson .empty := by
  match q with
  | [] =>
    cases h
    exact .inl ⟨rfl, rfl⟩
  | j :: q =>
    rw [nodeAt_cons, if_pos (by decide), get_emptyHolder] at h
    by_cases hj : Key.seq = j
    · subst hj
      rw [if_pos rfl, Option.bind_some] at h
      match q with
      | [] =>
        cases h
        exact .inr (.inl ⟨rfl, rfl⟩)
      | k :: q =>
        rw [nodeAt_cons, if_pos (by decide)] at h
        obtain ⟨x, hx, h⟩ := Option.bind_eq_some_iff.mp h
        obtain ⟨hk, rfl⟩ := get_makeEmptySeq.mp hx
        obtain ⟨rfl, rfl⟩ := nodeAt_orsetToJson h
        exact .inr (.inr ⟨k, hk, rfl, rfl⟩)
    · rw [if_neg hj] at h
      cases h

theorem tidy_emptyHolder : Tidy emptyHolder := by
  intro q n hq hr
  rcases nodeAt_emptyHolder hq with ⟨-, rfl⟩ | ⟨-, rfl⟩ | ⟨k, -, -, rfl⟩
  · refine ⟨List.nodup_singleton _, fun k v hv => ?_⟩
    rw [get_emptyHolder] at hv
    split at hv
    · cases hv
      rfl
    · cases hv
  · refine ⟨by decide, fun k v hv => ?_⟩
    obtain ⟨-, rfl⟩ := get_makeEmptySeq.mp hv
    rfl
  · rw [nodeRank_orsetToJson] at hr
    omega

/-- Putting an empty sequence in the place of a field. -/
theorem Sequential.putHolder (h : Sequential root) (hf : (atPath root p.fieldsPath).isSome = true) :
    Sequential (putAt p.holderPath emptyHolder root) ∧
      (seqHolder (putAt p.holderPath emptyHolder root) p).isSome = true ∧
      ∀ p' k', IsSeqSet k' → seqSet (putAt p.holderPath emptyHolder root) p' k' =
        if p' = p then .empty else seqSet root p' k' := by
  have hpath : atPath root p.fieldsPath = nodeAt root p.fieldsPath :=
    atPath_of_maps fun q m hq _ hm => (h.nodes q m hm).spine p hq
  rw [hpath] at hf
  obtain ⟨f, hf⟩ := Option.isSome_iff_exists.mp hf
  have hr : nodeRank f = 3 := (h.nodes _ f hf).spine p (List.prefix_refl _)
  have hput : Sequential (putAt p.holderPath emptyHolder root) := by
    refine h.put tidy_emptyHolder rfl hf hr fun r n hq => ?_
    rcases nodeAt_emptyHolder hq with ⟨rfl, rfl⟩ | ⟨rfl, rfl⟩ | ⟨k, -, rfl, rfl⟩
    · exact seqNodeOk_map (by simp [SeqPlace.fieldsPath]) (by decide)
    · exact seqNodeOk_map (by simp [SeqPlace.fieldsPath]) (by decide)
    · have hset : p.fieldsPath ++ [p.field] ++ [Key.seq, k] = p.setPath k := by
        simp [SeqPlace.setPath, SeqPlace.seqPath, SeqPlace.holderPath]
      rw [hset]
      exact seqNodeOk_set (nodeRank_orsetToJson _)
  refine ⟨hput, ?_, fun p' k' hk' => ?_⟩
  · rw [hput.seqHolder_isSome, SeqPlace.holderPath, cellAt_put h.tidy rfl hf hr]
    have hpre : p.fieldsPath ++ [p.field] <+: p.seqPath := List.prefix_append _ _
    rw [if_pos hpre, SeqPlace.seqPath, SeqPlace.holderPath, List.drop_left]
    rfl
  · rw [hput.seqSet_eq p' hk', h.seqSet_eq p' hk', SeqPlace.holderPath,
      setAt_put (p := p.fieldsPath) (k := p.field) h.tidy rfl hf hr (p'.setPath k')]
    change (if p.holderPath <+: p'.setPath k' then _ else _) = _
    by_cases he : p' = p
    · rw [if_pos (holderPath_starts.mpr he), if_pos he, he, SeqPlace.setPath, SeqPlace.seqPath,
        SeqPlace.holderPath, List.append_assoc, List.drop_left]
      rcases hk' with rfl | rfl <;> rfl
    · rw [if_neg fun hp => he (holderPath_starts.mp hp), if_neg he]

/-- In a document without sequences every set is empty. -/
theorem Shaped.seqHolder_eq_none (h : Shaped root) (p : SeqPlace) : seqHolder root p = none := by
  rw [h.sequential.seqHolder_eq]
  cases hn : nodeAt root p.seqPath with
  | none => rfl
  | some n =>
    obtain ⟨k, hk, -⟩ := h.kinds _ n hn
    have hnone := kindOf_seq p []
    rw [List.append_nil, hk] at hnone
    cases hnone

end

end VoidPalabra
