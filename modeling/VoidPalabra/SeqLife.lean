import VoidPalabra.SeqLog

/-!
# A life of sequences

Documents start without sequences; from then on fields become sequences, elements are
inserted and erased, and documents are joined, in any order and with every document made so
far at hand. The tags of one call are names that no sequence has. In every such document a
sequence is edited as a list is.
-/

namespace VoidPalabra

/-- A name for an element that no sequence of some documents has. -/
def FreshIn (docs : List Json) (t : Tag) : Prop :=
  t.isEmpty = false ∧ ∀ d ∈ docs, ∀ p, t ∉ (seqSet d p Key.nodes).adds

/-- The documents made so far, the newest first. -/
inductive Sequenced : List Json → Prop
  /-- None. -/
  | nothing : Sequenced []
  /-- A document without sequences. -/
  | start {docs : List Json} {d : Json} (h : Sequenced docs) (hd : Shaped d) : Sequenced (d :: docs)
  /-- A field becomes a sequence. -/
  | init {docs : List Json} {d : Json} (h : Sequenced docs) (hd : d ∈ docs) (mint : Mint)
      (issued : ℕ) (p : SeqPlace) (array : Option Json)
      (fresh : ∀ i, issued ≤ i → FreshIn docs (mint.tag i)) :
      Sequenced ((seqInit mint issued d p array).2 :: docs)
  /-- An element is inserted, or the call is refused. -/
  | insert {docs : List Json} {d : Json} (h : Sequenced docs) (hd : d ∈ docs) (p : SeqPlace)
      (index : ℕ) (value : Json) {tag : Tag} (fresh : FreshIn docs tag) :
      Sequenced ((seqInsert d p index value tag).2 :: docs)
  /-- An element is erased, or the call is refused. -/
  | erase {docs : List Json} {d : Json} (h : Sequenced docs) (hd : d ∈ docs) (p : SeqPlace)
      (index : ℕ) : Sequenced ((seqErase d p index).2 :: docs)
  /-- Two documents are joined. -/
  | join {docs : List Json} {a b : Json} (h : Sequenced docs) (ha : a ∈ docs) (hb : b ∈ docs) :
      Sequenced (joinNode a b :: docs)

/-- The nodes of every sequence of a document have a length that a machine holds. -/
def HeldByMachine (d : Json) : Prop :=
  ∀ p (t : Tag) (b : Bytes), (seqSet d p Key.nodes).adds[t]? = some b → Fits b.length

/-- A document whose sequences are out of one log. -/
structure SeqDoc (log : SeqLog) (d : Json) : Prop where
  /-- Its nodes are what they should be. -/
  sequential : Sequential d
  /-- So are its sequences. -/
  sets : ∀ p, SeqSets log (seqSet d p Key.nodes) (seqSet d p Key.dead)

/-- The elements of a sequence that are shown, in order. -/
def seqShown (d : Json) (p : SeqPlace) : List SeqNode :=
  shownIn (seqSet d p Key.nodes) (seqSet d p Key.dead)

section

variable {log log' : SeqLog} {d a b : Json} {p : SeqPlace} {index : ℕ} {v : Json} {t : Tag}

theorem isSeqSet_nodes : IsSeqSet Key.nodes := .inl rfl

theorem isSeqSet_dead : IsSeqSet Key.dead := .inr rfl

namespace SeqDoc

theorem mono (h : SeqDoc log d) (hle : log.Le log') : SeqDoc log' d :=
  ⟨h.sequential, fun p => (h.sets p).mono hle⟩

theorem start (log : SeqLog) (h : Shaped d) : SeqDoc log d := by
  refine ⟨h.sequential, fun p => ?_⟩
  rw [seqSet, seqSet, h.seqHolder_eq_none]
  exact SeqSets.empty log

theorem join (ha : SeqDoc log a) (hb : SeqDoc log b) : SeqDoc log (joinNode a b) := by
  refine ⟨ha.sequential.join hb.sequential, fun p => ?_⟩
  rw [ha.sequential.seqSet_join hb.sequential p isSeqSet_nodes,
    ha.sequential.seqSet_join hb.sequential p isSeqSet_dead]
  exact (ha.sets p).join (hb.sets p)

/-- What is read is what is shown. -/
theorem of_seqRead {xs : List Json} (hr : seqRead d p = some xs) :
    (seqHolder d p).isSome = true ∧ xs = (seqShown d p).map SeqNode.value := by
  have hs : (seqHolder d p).isSome = true := by
    rw [seqRead, Option.map_eq_some_iff] at hr
    obtain ⟨seq, hs, -⟩ := hr
    rw [hs]
    rfl
  rw [seqRead_eq hs] at hr
  exact ⟨hs, (Option.some.inj hr).symm⟩

end SeqDoc

/-- An insertion, from the two sets of the sequence. -/
theorem seqInsert_eq (hs : (seqHolder d p).isSome = true) :
    seqInsert d p index v t =
      match attachPoint (orderIn (seqSet d p Key.nodes)) (deadIn (seqSet d p Key.dead)) index with
      | none => (.ok false, d)
      | some (parent, side) =>
        match encode v >>= encodeNode parent side with
        | .error e => (.error e, d)
        | .ok node =>
          (.ok true, putAt (p.setPath Key.nodes)
            (orsetToJson ((seqSet d p Key.nodes).add t node)) d) := by
  obtain ⟨seq, hs⟩ := Option.isSome_iff_exists.mp hs
  rw [seqInsert, hs]
  dsimp only
  rw [seqAll_eq hs, seqDead_eq hs, seqSet, seqSet, hs]
  rfl

/-- An erasure, from the two sets of the sequence. -/
theorem seqErase_eq (hs : (seqHolder d p).isSome = true) :
    seqErase d p index =
      match (seqShown d p)[index]? with
      | none => (false, d)
      | some n =>
        (true, putAt (p.setPath Key.dead)
          (orsetToJson ((seqSet d p Key.dead).add n.id (lit "1"))) d) := by
  obtain ⟨seq, hs⟩ := Option.isSome_iff_exists.mp hs
  rw [seqErase, hs]
  dsimp only
  rw [visibleAt_eq (Nat.zero_le _), seqAll_eq hs, seqDead_eq hs, Nat.sub_zero, ← shownIn, ← seqShown]
  cases (seqShown d p)[index]? with
  | none => rfl
  | some n =>
    rw [seqSet, hs]
    rfl

/-- The document with a node more in a sequence. -/
def storedIn (d : Json) (p : SeqPlace) (t : Tag) (node : Bytes) : Json :=
  putAt (p.setPath Key.nodes) (orsetToJson ((seqSet d p Key.nodes).add t node)) d

/-- What a call to insert can do: nothing, or store a node where the index says. -/
theorem seqInsert_cases (d : Json) (p : SeqPlace) (index : ℕ) (v : Json) (t : Tag) :
    (∃ r, seqInsert d p index v t = (r, d) ∧ r ≠ .ok true) ∨
      (seqHolder d p).isSome = true ∧ ∃ parent side payload node,
        attachPoint (orderIn (seqSet d p Key.nodes)) (deadIn (seqSet d p Key.dead)) index =
          some (parent, side) ∧ encode v = .ok payload ∧
        encodeNode parent side payload = .ok node ∧
        seqInsert d p index v t = (.ok true, storedIn d p t node) := by
  by_cases hs : (seqHolder d p).isSome = true
  · rw [seqInsert_eq hs]
    cases hpoint : attachPoint (orderIn (seqSet d p Key.nodes)) (deadIn (seqSet d p Key.dead)) index with
    | none => exact .inl ⟨_, rfl, by simp⟩
    | some point =>
      obtain ⟨parent, side⟩ := point
      dsimp only
      cases hb : encode v >>= encodeNode parent side with
      | error e => exact .inl ⟨_, rfl, by simp⟩
      | ok node =>
        obtain ⟨payload, hv, hn⟩ := bind_eq_ok.mp hb
        exact .inr ⟨hs, parent, side, payload, node, rfl, hv, hn, rfl⟩
  · rw [Option.not_isSome_iff_eq_none] at hs
    rw [seqInsert, hs]
    exact .inl ⟨_, rfl, by simp⟩

/-- The sets of the sequences after a node was stored. -/
theorem Sequential.seqSet_storedIn (h : Sequential d) (hs : (seqHolder d p).isSome = true)
    (hempty : t.isEmpty = false) (node : Bytes) :
    Sequential (storedIn d p t node) ∧ (seqHolder (storedIn d p t node) p).isSome = true ∧
      ∀ p', seqSet (storedIn d p t node) p' Key.nodes =
          (if p' = p then (seqSet d p Key.nodes).add t node else seqSet d p' Key.nodes) ∧
        seqSet (storedIn d p t node) p' Key.dead = seqSet d p' Key.dead := by
  have hnamed : ((seqSet d p Key.nodes).add t node).Named :=
    OrSet.named_add (named_orsetFromJson _) hempty
  obtain ⟨hseq, hholder, hsets⟩ := h.putSet hs Key.nodes hnamed
  refine ⟨hseq, hholder, fun p' => ⟨?_, ?_⟩⟩
  · rw [storedIn, hsets p' _ isSeqSet_nodes]
    simp only [and_true]
  · have hne : Key.dead ≠ Key.nodes := by decide
    rw [storedIn, hsets p' _ isSeqSet_dead, if_neg fun he => hne he.2]

/-- The node that was stored is there. -/
theorem Sequential.stored_mem (h : Sequential d) (hs : (seqHolder d p).isSome = true)
    (hempty : t.isEmpty = false) (node : Bytes) :
    (seqSet (storedIn d p t node) p Key.nodes).adds[t]? = some node := by
  obtain ⟨-, -, hput⟩ := h.seqSet_storedIn hs hempty node
  rw [(hput p).1, if_pos rfl, OrSet.add_adds, if_pos rfl]

/-- An insertion keeps the nodes of every sequence. -/
theorem Sequential.insert_grows (h : Sequential d) (p : SeqPlace) (index : ℕ) (v : Json)
    (hempty : t.isEmpty = false) (ht : (seqSet d p Key.nodes).adds[t]? = none) :
    Sequential (seqInsert d p index v t).2 ∧ ∀ p' (u : Tag) (c : Bytes),
      ((seqSet d p' Key.nodes).adds[u]? = some c →
        (seqSet (seqInsert d p index v t).2 p' Key.nodes).adds[u]? = some c) ∧
      ((seqSet (seqInsert d p index v t).2 p' Key.nodes).adds[u]? = some c →
        (seqSet d p' Key.nodes).adds[u]? = some c ∨
          u = t ∧ (seqInsert d p index v t).1 = .ok true) := by
  rcases seqInsert_cases d p index v t with ⟨r, hr, -⟩ | ⟨hs, parent, side, payload, node, -, -, -, hr⟩
  · rw [hr]
    exact ⟨h, fun p' u c => ⟨id, .inl⟩⟩
  · rw [hr]
    obtain ⟨hseq, -, hput⟩ := h.seqSet_storedIn hs hempty node
    refine ⟨hseq, fun p' u c => ?_⟩
    rw [(hput p').1]
    by_cases he : p' = p
    · rw [if_pos he, he, OrSet.add_adds]
      by_cases hu : t = u
      · subst hu
        rw [ht]
        exact ⟨fun hc => (nomatch hc), fun _ => .inr ⟨rfl, rfl⟩⟩
      · rw [if_neg hu]
        exact ⟨id, .inl⟩
    · rw [if_neg he]
      exact ⟨id, .inl⟩

namespace SeqDoc

/-- An insertion within the list: it attaches somewhere, and when the node can be stored the
element is read at that index afterwards. -/
theorem insert_within (h : SeqDoc log d) (hl : log.Reads) (hs : (seqHolder d p).isSome = true)
    (hempty : t.isEmpty = false) (ht : log t = none)
    (hindex : index ≤ (seqShown d p).length) :
    ∃ parent side,
      attachPoint (orderIn (seqSet d p Key.nodes)) (deadIn (seqSet d p Key.dead)) index =
        some (parent, side) ∧ (side = kSideLeft ∨ side = kSideRight) ∧
      ∀ {payload node : Bytes}, encodeNode parent side payload = .ok node → Fits node.length →
        (log.record t node).Reads ∧ SeqDoc (log.record t node) (storedIn d p t node) ∧
          (seqHolder (storedIn d p t node) p).isSome = true ∧
          seqShown (storedIn d p t node) p =
            (seqShown d p).insertIdx index ⟨t, parent, side, payload⟩ := by
  obtain ⟨parent, side, hpoint, hside, hlands⟩ := (h.sets p).lands (t := t) hl hindex
  refine ⟨parent, side, hpoint, hside, fun {payload node} hn hfits => ?_⟩
  obtain ⟨hreads, hsets, hshown⟩ := hlands hempty ht hn hfits
  obtain ⟨hseq, hholder, hput⟩ := h.sequential.seqSet_storedIn hs hempty node
  refine ⟨hreads, ⟨hseq, fun p' => ?_⟩, hholder, ?_⟩
  · rw [(hput p').1, (hput p').2]
    by_cases he : p' = p
    · rw [if_pos he, he]
      exact hsets
    · rw [if_neg he]
      exact (h.sets p').mono (SeqLog.le_record node ht)
  · rw [seqShown, (hput p).1, (hput p).2, if_pos rfl, hshown, seqShown]

/-- An erasure within the list. -/
theorem erase_within (h : SeqDoc log d) (hl : log.Reads) (hs : (seqHolder d p).isSome = true)
    {n : SeqNode}
    (hn : (seqShown d p)[index]? = some n) :
    SeqDoc log (seqErase d p index).2 ∧ (seqErase d p index).1 = true ∧
      (seqHolder (seqErase d p index).2 p).isSome = true ∧
      seqShown (seqErase d p index).2 p = (seqShown d p).eraseIdx index := by
  obtain ⟨hempty, hlog⟩ := (h.sets p).shown_logged hl (List.mem_of_getElem? hn)
  have hnamed : ((seqSet d p Key.dead).add n.id (lit "1")).Named :=
    OrSet.named_add (named_orsetFromJson _) hempty
  obtain ⟨hseq, hholder, hput⟩ := h.sequential.putSet hs Key.dead hnamed
  have hne : Key.nodes ≠ Key.dead := by decide
  have hnodes := fun p' => hput p' _ isSeqSet_nodes
  have hdead := fun p' => hput p' _ isSeqSet_dead
  simp only [hne, and_false, if_false] at hnodes
  simp only [and_true] at hdead
  rw [seqErase_eq hs, hn]
  refine ⟨⟨hseq, fun p' => ?_⟩, rfl, hholder, ?_⟩
  · rw [hnodes, hdead]
    by_cases he : p' = p
    · rw [if_pos he, he]
      exact (h.sets p).erase hlog
    · rw [if_neg he]
      exact h.sets p'
  · rw [seqShown, hnodes, hdead, if_pos rfl, (h.sets p).shown_erase hl hn, seqShown]

/-- A call to erase, whatever it does. -/
theorem erase (h : SeqDoc log d) (hl : log.Reads) : SeqDoc log (seqErase d p index).2 := by
  by_cases hs : (seqHolder d p).isSome = true
  · cases hn : (seqShown d p)[index]? with
    | none =>
      rw [seqErase_eq hs, hn]
      exact h
    | some n => exact (h.erase_within hl hs hn).1
  · rw [Option.not_isSome_iff_eq_none] at hs
    rw [seqErase, hs]
    exact h

/-- A call to insert, whatever it does. What the log gains is in the document. -/
theorem insert (h : SeqDoc log d) (hl : log.Reads) (p : SeqPlace) (index : ℕ) (v : Json)
    (hempty : t.isEmpty = false) (ht : log t = none) (hheld : HeldByMachine (seqInsert d p index v t).2) :
    ∃ log', log.Le log' ∧ log'.Reads ∧ SeqDoc log' (seqInsert d p index v t).2 ∧
      ∀ u c, log' u = some c → log u = some c ∨
        (u = t ∧ (seqInsert d p index v t).1 = .ok true) ∧
          ∃ p', (seqSet (seqInsert d p index v t).2 p' Key.nodes).adds[u]? = some c := by
  rcases seqInsert_cases d p index v t with
    ⟨r, hr, -⟩ | ⟨hs, parent, side, payload, node, hpoint, -, hn, hr⟩
  · rw [hr]
    exact ⟨log, .refl log, hl, h, fun u c => .inl⟩
  · have hindex : index ≤ (seqShown d p).length := by
      by_contra hlt
      rw [SeqSets.beyond (Nat.lt_of_not_le hlt)] at hpoint
      cases hpoint
    obtain ⟨parent', side', hpoint', -, hwithin⟩ := h.insert_within hl hs hempty ht hindex
    rw [hpoint] at hpoint'
    cases hpoint'
    rw [hr] at hheld ⊢
    have hstored := h.sequential.stored_mem hs hempty node
    obtain ⟨hreads, hdoc, -⟩ := hwithin hn (hheld p t node hstored)
    refine ⟨log.record t node, SeqLog.le_record node ht, hreads, hdoc, fun u c hu => ?_⟩
    rw [SeqLog.record] at hu
    split at hu
    · rename_i he
      cases hu
      exact .inr ⟨⟨he, rfl⟩, p, he ▸ hstored⟩
    · exact .inl hu

end SeqDoc

/-! ### A field becomes a sequence -/

section

variable {mint : Mint}

/-- The tags the mint has yet to hand out are in no sequence after an item either. -/
theorem unused_next {i issued : ℕ} {put : Bool} {d' : Json} (hd : Sequential d)
    (hnone : ∀ p' j, issued ≤ j → (seqSet d p' Key.nodes).adds[mint.tag j]? = none)
    (hr : seqInsert d p i v (mint.tag issued) = (.ok put, d')) (p' : SeqPlace) (j : ℕ)
    (hj : (if put then issued + 1 else issued) ≤ j) :
    (seqSet d' p' Key.nodes).adds[mint.tag j]? = none := by
  have hgrows := (hd.insert_grows p i v (mint.named issued)
    (hnone p issued (Nat.le_refl _))).2
  rw [hr] at hgrows
  cases hx : (seqSet d' p' Key.nodes).adds[mint.tag j]? with
  | none => rfl
  | some x =>
    rcases (hgrows p' _ x).2 hx with hold | ⟨he, hput⟩
    · rw [hnone p' j (by split at hj <;> omega)] at hold
      cases hold
    · cases hput
      have hji := mint.distinct he
      rw [if_pos rfl] at hj
      omega

/-- The loop of `seq_init` keeps the nodes of every sequence. -/
theorem seqInsertEach_grows (items : List Json) : ∀ {i issued : ℕ} {d : Json}, Sequential d →
    (∀ p' j, issued ≤ j → (seqSet d p' Key.nodes).adds[mint.tag j]? = none) →
      ∀ p' (u : Tag) (c : Bytes), (seqSet d p' Key.nodes).adds[u]? = some c →
        (seqSet (seqInsertEach mint p items i issued d).2 p' Key.nodes).adds[u]? = some c := by
  induction items with
  | nil => exact fun _ _ _ _ _ hc => hc
  | cons v items ih =>
    intro i issued d hd hnone p' u c hc
    obtain ⟨hseq, hgrows⟩ := hd.insert_grows p i v (mint.named issued)
      (hnone p issued (Nat.le_refl _))
    have hc' := (hgrows p' u c).1 hc
    rw [seqInsertEach]
    cases hr : seqInsert d p i v (mint.tag issued) with
    | mk r d' =>
      rw [hr] at hseq hc'
      cases r with
      | error e => exact hc'
      | ok put => exact ih hseq (unused_next hd hnone hr) p' u c hc'

/-- The loop of `seq_init`. -/
theorem SeqDoc.insertEach {items : List Json} : ∀ {i issued : ℕ} {d : Json} {log : SeqLog},
    SeqDoc log d → log.Reads → (∀ j, issued ≤ j → log (mint.tag j) = none) →
      HeldByMachine (seqInsertEach mint p items i issued d).2 →
        ∃ log', log.Le log' ∧ log'.Reads ∧ SeqDoc log' (seqInsertEach mint p items i issued d).2 ∧
          ∀ u c, log' u = some c → log u = some c ∨
            ∃ p', (seqSet (seqInsertEach mint p items i issued d).2 p' Key.nodes).adds[u]? = some c := by
  induction items with
  | nil => exact fun {_ _ _ log} h hl _ _ => ⟨log, .refl log, hl, h, fun u c => .inl⟩
  | cons v items ih =>
    intro i issued d log h hl hnone hheld
    have hfresh := hnone issued (Nat.le_refl _)
    have hunused : ∀ p' j, issued ≤ j → (seqSet d p' Key.nodes).adds[mint.tag j]? = none :=
      fun p' j hj => (h.sets p').absent (hnone j hj)
    have hstep := h.insert hl p i v (mint.named issued) hfresh
    have hseq := (h.sequential.insert_grows p i v (mint.named issued)
      (hunused p issued (Nat.le_refl _))).1
    rw [seqInsertEach] at hheld ⊢
    cases hr : seqInsert d p i v (mint.tag issued) with
    | mk r d' =>
      rw [hr] at hstep hseq hheld
      cases r with
      | error e =>
        obtain ⟨log', hle, hreads, hdoc, hnew⟩ := hstep hheld
        exact ⟨log', hle, hreads, hdoc, fun u c hu => (hnew u c hu).imp_right And.right⟩
      | ok put =>
        have hkept := @seqInsertEach_grows p mint items (i + 1) _ _ hseq
          (unused_next h.sequential hunused hr)
        obtain ⟨log', hle, hreads, hdoc, hnew⟩ :=
          hstep fun p' u c hc => hheld p' u c (hkept p' u c hc)
        have hnone' : ∀ j, (if put then issued + 1 else issued) ≤ j → log' (mint.tag j) = none := by
          intro j hj
          cases hx : log' (mint.tag j) with
          | none => rfl
          | some c =>
            rcases hnew _ c hx with hold | ⟨⟨he, hput⟩, -⟩
            · rw [hnone j (by split at hj <;> omega)] at hold
              cases hold
            · cases hput
              have hji := mint.distinct he
              rw [if_pos rfl] at hj
              omega
        obtain ⟨log'', hle', hreads', hdoc', hnew'⟩ := ih hdoc hreads hnone' hheld
        refine ⟨log'', fun u c hu => hle' u c (hle u c hu), hreads', hdoc', fun u c hu => ?_⟩
        rcases hnew' u c hu with hu | hu
        · rcases hnew u c hu with hu | ⟨-, p', hp'⟩
          · exact .inl hu
          · exact .inr ⟨p', hkept p' u c hp'⟩
        · exact .inr hu

/-- An empty sequence in the place of a field. -/
theorem SeqDoc.holder (h : SeqDoc log d) (hf : (atPath d p.fieldsPath).isSome = true) :
    SeqDoc log (putAt p.holderPath emptyHolder d) := by
  obtain ⟨hseq, -, hsets⟩ := h.sequential.putHolder hf
  refine ⟨hseq, fun p' => ?_⟩
  rw [hsets p' _ isSeqSet_nodes, hsets p' _ isSeqSet_dead]
  by_cases he : p' = p
  · rw [if_pos he, if_pos he]
    exact SeqSets.empty log
  · rw [if_neg he, if_neg he]
    exact h.sets p'

end

end

/-! ### A whole life -/

/-- What is fresh is not in a log that has only what the documents have. -/
theorem FreshIn.absent {docs : List Json} {t : Tag} {log : SeqLog} (h : FreshIn docs t)
    (hlog : ∀ u c, log u = some c → ∃ d ∈ docs, ∃ p, (seqSet d p Key.nodes).adds[u]? = some c) :
    log t = none := by
  cases hx : log t with
  | none => rfl
  | some c =>
    obtain ⟨d, hd, p, hc⟩ := hlog t c hx
    refine absurd ?_ (h.2 d hd p)
    rw [Std.ExtTreeMap.mem_iff_isSome_getElem?, hc]
    rfl

/-- A log of the sequences of some documents, which has only what they have. -/
structure LogOf (docs : List Json) (log : SeqLog) : Prop where
  /-- Every stored node can be read. -/
  reads : log.Reads
  /-- The sequences are out of it. -/
  each : ∀ d ∈ docs, SeqDoc log d
  /-- It has nothing else. -/
  only : ∀ u c, log u = some c → ∃ d ∈ docs, ∃ p, (seqSet d p Key.nodes).adds[u]? = some c

/-- A document more, and what it adds to the log. -/
theorem LogOf.cons {docs : List Json} {d : Json} {log log' : SeqLog} (h : LogOf docs log)
    (hle : log.Le log') (hreads : log'.Reads) (hd : SeqDoc log' d)
    (hnew : ∀ u c, log' u = some c → log u = some c ∨
      ∃ p', (seqSet d p' Key.nodes).adds[u]? = some c) : LogOf (d :: docs) log' where
  reads := hreads
  each := List.forall_mem_cons.mpr ⟨hd, fun e he => (h.each e he).mono hle⟩
  only u c hu := by
    rcases hnew u c hu with hu | ⟨p', hp'⟩
    · obtain ⟨e, he, hp⟩ := h.only u c hu
      exact ⟨e, List.mem_cons_of_mem _ he, hp⟩
    · exact ⟨d, List.mem_cons_self, p', hp'⟩

/-- A document more that adds nothing. -/
theorem LogOf.cons_same {docs : List Json} {d : Json} {log : SeqLog} (h : LogOf docs log)
    (hd : SeqDoc log d) : LogOf (d :: docs) log :=
  h.cons (.refl log) h.reads hd fun _ _ => .inl

/-- The sequences of all documents of a life are out of one log. -/
theorem Sequenced.exists_log {docs : List Json} (h : Sequenced docs)
    (hheld : ∀ d ∈ docs, HeldByMachine d) : ∃ log, LogOf docs log := by
  induction h with
  | nothing =>
    exact ⟨fun _ => none, fun _ _ h => (nomatch h), fun _ h => (nomatch h), fun _ _ h => (nomatch h)⟩
  | start h hd ih =>
    obtain ⟨log, hlog⟩ := ih fun d hd => hheld d (List.mem_cons_of_mem _ hd)
    exact ⟨log, hlog.cons_same (SeqDoc.start log hd)⟩
  | @init docs d h hd mint issued p array fresh ih =>
    obtain ⟨log, hlog⟩ := ih fun d hd => hheld d (List.mem_cons_of_mem _ hd)
    have hresult := hheld _ List.mem_cons_self
    rw [seqInit] at hresult ⊢
    cases hf : atPath d p.fieldsPath with
    | none => exact ⟨log, hlog.cons_same (hlog.each d hd)⟩
    | some f =>
      rw [hf] at hresult
      have hholder := (hlog.each d hd).holder (p := p) (by rw [hf]; rfl)
      obtain ⟨log', hle, hreads, hdoc, hnew⟩ := hholder.insertEach hlog.reads
        (fun j hj => (fresh j hj).absent hlog.only) hresult
      exact ⟨log', hlog.cons hle hreads hdoc hnew⟩
  | @insert docs d h hd p index value tag fresh ih =>
    obtain ⟨log, hlog⟩ := ih fun d hd => hheld d (List.mem_cons_of_mem _ hd)
    obtain ⟨log', hle, hreads, hdoc, hnew⟩ := (hlog.each d hd).insert hlog.reads _ _ _ fresh.1
      (fresh.absent hlog.only) (hheld _ List.mem_cons_self)
    exact ⟨log', hlog.cons hle hreads hdoc fun u c hu => (hnew u c hu).imp_right And.right⟩
  | @erase docs d h hd p index ih =>
    obtain ⟨log, hlog⟩ := ih fun d hd => hheld d (List.mem_cons_of_mem _ hd)
    exact ⟨log, hlog.cons_same ((hlog.each d hd).erase hlog.reads)⟩
  | join h ha hb ih =>
    obtain ⟨log, hlog⟩ := ih fun d hd => hheld d (List.mem_cons_of_mem _ hd)
    exact ⟨log, hlog.cons_same ((hlog.each _ ha).join (hlog.each _ hb))⟩

end VoidPalabra
