import VoidPalabra.SeqLife

/-!
# A sequence edits like a list

In every document of a life of sequences an insertion at a visible index puts the value
there in what is read, an erasure takes the element away, and an index out of range changes
nothing. The one thing that fails is a value that the decoder does not read back: it is
stored, and read as null.
-/

namespace VoidPalabra

/-- Where an insertion at a visible index attaches the new node. -/
def attachesTo (d : Json) (p : SeqPlace) (index : ℕ) : Option (CString × ℤ) :=
  (seqHolder d p).bind fun seq => attachPoint (seqAll seq) (seqDead seq) index

/-- An insertion reads as one into the list: the element of the tag is shown at the index,
and is read there as the value. -/
def InsertsAt (d : Json) (p : SeqPlace) (index : ℕ) (v : Json) (tag : Tag) (xs : List Json) : Prop :=
  ∃ d' n, seqInsert d p index v tag = (.ok true, d') ∧ n.id = tag ∧ SameValue v n.value ∧
    seqShown d' p = (seqShown d p).insertIdx index n ∧
    seqRead d' p = some (xs.insertIdx index n.value)

/-- A sequence whose reading is `xs` edits like that list at an index. -/
structure EditsLikeList (d : Json) (p : SeqPlace) (xs : List Json) (index : ℕ) (v : Json)
    (tag : Tag) : Prop where
  /-- An insertion up to the length. -/
  inserts : index ≤ xs.length → InsertsAt d p index v tag xs
  /-- An insertion out of range. -/
  insert_beyond : xs.length < index → seqInsert d p index v tag = (.ok false, d)
  /-- An erasure within the list. -/
  erases : index < xs.length → ∃ d', seqErase d p index = (true, d') ∧
    seqShown d' p = (seqShown d p).eraseIdx index ∧ seqRead d' p = some (xs.eraseIdx index)
  /-- An erasure out of range. -/
  erase_beyond : xs.length ≤ index → seqErase d p index = (false, d)

/-- A value that can be stored at an index and read back: it has a canonical form, nests no
deeper than the decoder reads, and the name it is attached to is text. -/
structure Storable (d : Json) (p : SeqPlace) (index : ℕ) (v : Json) : Prop where
  /-- A canonical form. -/
  hasForm : HasForm v
  /-- The nesting limit. -/
  depth_le : depth v ≤ nestingLimit
  /-- The name. -/
  text : ∀ point ∈ attachesTo d p index, validUtf8 point.1.bytes = true

section

variable {docs : List Json} {d : Json} {p : SeqPlace} {xs : List Json} {index : ℕ} {v : Json} {tag : Tag}

theorem attachesTo_eq (hs : (seqHolder d p).isSome = true) :
    attachesTo d p index =
      attachPoint (orderIn (seqSet d p Key.nodes)) (deadIn (seqSet d p Key.dead)) index := by
  obtain ⟨seq, hs⟩ := Option.isSome_iff_exists.mp hs
  rw [attachesTo, hs, Option.bind_some, seqAll_eq hs, seqDead_eq hs]

/-- The bytes of a node are more than those of its payload. -/
theorem fits_payload {parent : CString} {side : ℤ} {payload node : Bytes}
    (hn : encodeNode parent side payload = .ok node) (hl : Fits node.length) : Fits payload.length := by
  obtain ⟨hf, rfl⟩ := encode_eq_ok.mp hn
  have hsized := (sized_of_form hf hl).2
  rw [sizedItems_iff] at hsized
  have hhex : Fits (hexify payload).bytes.length := hsized (.str (hexify payload)) (by simp)
  change (hexBytes payload).length < _ at hhex
  rw [length_hexBytes] at hhex
  exact Nat.lt_of_le_of_lt (by omega) hhex

/-- A value is read back as itself exactly when the decoder goes that deep. -/
theorem sameValue_read_iff (hf : HasForm v) (hl : Fits (form v).length) :
    SameValue v ((decode (form v)).getD .null) ↔ depth v ≤ nestingLimit := by
  constructor
  · intro h
    by_contra hd
    rw [decode_form_deep hf hl (Nat.lt_of_not_le hd), Option.getD_none] at h
    cases h
    exact hd (Nat.zero_le _)
  · intro hd
    rw [decode_form (decodable_of_form hf hd hl), Option.getD_some]
    exact (norm_eq_iff hf (hasForm_norm hf)).mp ((form_eq_iff hf (hasForm_norm hf)).mp (form_norm hf).symm)

/-- An insertion within the list, in a document whose sequences are out of a log. -/
theorem insertsAt_iff {log : SeqLog} (h : SeqDoc log d) (hl : log.Reads)
    (hr : seqRead d p = some xs) (hempty : tag.isEmpty = false) (ht : log tag = none)
    (hmachine : HeldByMachine (seqInsert d p index v tag).2) (hindex : index ≤ xs.length) :
    InsertsAt d p index v tag xs ↔ Storable d p index v := by
  obtain ⟨hs, rfl⟩ := SeqDoc.of_seqRead hr
  rw [List.length_map] at hindex
  obtain ⟨parent, side, hpoint, hside, hwithin⟩ := h.insert_within hl hs hempty ht hindex
  have hattach : attachesTo d p index = some (parent, side) := by rw [attachesTo_eq hs, hpoint]
  -- what a call that stored its node did
  have hstored : ∀ {node : Bytes}, seqInsert d p index v tag = (.ok true, storedIn d p tag node) →
      encodeNode parent side (form v) = .ok node → Fits (form v).length ∧
        seqShown (storedIn d p tag node) p =
          (seqShown d p).insertIdx index ⟨tag, parent, side, form v⟩ ∧
        seqRead (storedIn d p tag node) p = some (((seqShown d p).map SeqNode.value).insertIdx index
          ((decode (form v)).getD .null)) := by
    intro node hr hn
    rw [hr] at hmachine
    have hfits := hmachine p tag node (h.sequential.stored_mem hs hempty node)
    obtain ⟨-, -, hholder, hshown⟩ := hwithin hn hfits
    refine ⟨fits_payload hn hfits, hshown, ?_⟩
    rw [seqRead_eq hholder, ← seqShown, hshown, List.map_insertIdx]
    rfl
  constructor
  · rintro ⟨d', n, hok, -, hsame, hshown, -⟩
    rcases seqInsert_cases d p index v tag with
      ⟨r, hr, hne⟩ | ⟨-, parent', side', payload, node, hpoint', hv, hn, hr⟩
    · rw [hok] at hr
      cases hr
      exact absurd rfl hne
    · rw [hpoint] at hpoint'
      cases hpoint'
      obtain ⟨hf, rfl⟩ := encode_eq_ok.mp hv
      obtain ⟨hl, hshown', -⟩ := hstored hr hn
      rw [hok] at hr
      cases hr
      have hn' : n = ⟨tag, parent, side, form v⟩ := by
        have hat := congrArg (·[index]?) (hshown.symm.trans hshown')
        simpa [List.getElem?_insertIdx_self, hindex] using hat
      rw [hn'] at hsame
      refine ⟨hf, (sameValue_read_iff hf hl).mp hsame, fun point hp => ?_⟩
      rw [hattach] at hp
      cases hp
      exact (encodeNode_ok hside).mp ⟨node, hn⟩
  · rintro ⟨hf, hd, htext⟩
    obtain ⟨node, hn⟩ := (@encodeNode_ok _ _ (form v) hside).mpr (htext _ hattach)
    have hr : seqInsert d p index v tag = (.ok true, storedIn d p tag node) := by
      rw [seqInsert_eq hs, hpoint]
      have hb : encode v >>= encodeNode parent side = .ok node :=
        bind_eq_ok.mpr ⟨_, encode_of_hasForm hf, hn⟩
      dsimp only
      rw [hb]
      rfl
    obtain ⟨hl, hshown, hread⟩ := hstored hr hn
    exact ⟨_, ⟨tag, parent, side, form v⟩, hr, rfl, (sameValue_read_iff hf hl).mpr hd, hshown, hread⟩

end

/-! ### A value that is lost -/

/-- A list in a list, and so on. -/
def nested : ℕ → Json
  | 0 => .arr []
  | n + 1 => .arr [nested n]

theorem depth_nested (n : ℕ) : depth (nested n) = n := by
  induction n with
  | zero => rfl
  | succ n ih =>
    rw [nested, depth, depthItems, depthItems, ih]
    omega

theorem hasForm_nested (n : ℕ) : HasForm (nested n) ∧ (form (nested n)).length = 2 * n + 2 := by
  induction n with
  | zero => exact ⟨⟨[7, 0], by decide +kernel⟩, by decide +kernel⟩
  | succ n ih =>
    have hf : HasForm (nested (n + 1)) := hasForm_arr.mpr fun x hx => by
      rw [List.mem_singleton.mp hx]
      exact ih.1
    refine ⟨hf, ?_⟩
    rw [nested, form_arr hf, encodeSeq]
    simp only [List.map_cons, List.map_nil, List.length_append, List.length_cons, List.length_nil,
      List.flatten_cons, List.flatten_nil, List.append_nil, ih.2]
    rw [putUvarint_small (by decide), List.length_singleton]
    omega

/-- A document with a rune. -/
def beforeSeq : Json :=
  .obj [(Key.palabra, .num Double.one), (Key.mantles, .obj [(.ofLit "m",
    .obj [(Key.runes, .obj [(.ofLit "r", .obj [(Key.fields, .obj [])])])])])]

/-- A field of that rune. -/
def onePlace : SeqPlace := ⟨.ofLit "m", .ofLit "r", .ofLit "f"⟩

/-- The document after the field became an empty sequence. -/
def withSeq : Json := (seqInit (counterMint (.ofLit "a")) 0 beforeSeq onePlace none).2

theorem shaped_beforeSeq : Shaped beforeSeq := (validate_iff.mp (by decide +kernel)).1

theorem seqSet_withSeq (p : SeqPlace) {k : CString} (hk : IsSeqSet k) :
    seqSet withSeq p k = .empty ∧ seqSet beforeSeq p k = .empty := by
  have hb : seqSet beforeSeq p k = .empty := by
    rw [seqSet, shaped_beforeSeq.seqHolder_eq_none, get_none, orsetFromJson_none]
  have hf : (atPath beforeSeq onePlace.fieldsPath).isSome = true := by decide
  refine ⟨?_, hb⟩
  have hw : withSeq = putAt onePlace.holderPath emptyHolder beforeSeq := rfl
  rw [hw, (shaped_beforeSeq.sequential.putHolder hf).2.2 p k hk, hb, ite_self]

/-- No sequence of the two documents has a node. -/
theorem not_mem_withSeq {d : Json} (hd : d ∈ [withSeq, beforeSeq]) (p : SeqPlace) (t : Tag) :
    (seqSet d p Key.nodes).adds[t]? = none := by
  obtain ⟨hw, hb⟩ := seqSet_withSeq p isSeqSet_nodes
  rcases List.mem_cons.mp hd with rfl | hd
  · rw [hw]
    rfl
  · rw [List.mem_singleton.mp hd, hb]
    rfl

theorem freshIn_withSeq {t : Tag} (ht : t.isEmpty = false) : FreshIn [withSeq, beforeSeq] t := by
  refine ⟨ht, fun d hd p hm => ?_⟩
  rw [Std.ExtTreeMap.mem_iff_isSome_getElem?, not_mem_withSeq hd] at hm
  cases hm

theorem sequenced_withSeq : Sequenced [withSeq, beforeSeq] := by
  have hstart : Sequenced [beforeSeq] := .start .nothing shaped_beforeSeq
  refine .init hstart List.mem_cons_self _ 0 onePlace none fun i _ => ?_
  have hfresh := freshIn_withSeq ((counterMint (.ofLit "a")).named i)
  exact ⟨hfresh.1, fun d hd => hfresh.2 d (List.mem_cons_of_mem _ hd)⟩

theorem held_withSeq {d : Json} (hd : d ∈ [withSeq, beforeSeq]) : HeldByMachine d := by
  intro p t b hb
  rw [not_mem_withSeq hd] at hb
  cases hb

theorem seqHolder_withSeq : (seqHolder withSeq onePlace).isSome = true := by decide +kernel

theorem seqRead_withSeq : seqRead withSeq onePlace = some [] := by
  rw [seqRead_eq seqHolder_withSeq, (seqSet_withSeq onePlace isSeqSet_nodes).1,
    (seqSet_withSeq onePlace isSeqSet_dead).1]
  have hshown : shownIn .empty .empty = [] := by decide +kernel
  rw [hshown]
  rfl

theorem sequential_withSeq : Sequential withSeq := by
  have hf : (atPath beforeSeq onePlace.fieldsPath).isSome = true := by decide
  exact (shaped_beforeSeq.sequential.putHolder hf).1

/-- The node of a nested list is stored in a few thousand bytes. -/
theorem length_nested_node {n : ℕ} (hn : n ≤ 1001) {node : Bytes}
    (h : encodeNode .empty kSideRight (form (nested n)) = .ok node) : Fits node.length := by
  obtain ⟨hf, rfl⟩ := encode_eq_ok.mp h
  have hstr : form (.str .empty) = [5, 0] := by decide +kernel
  have hnum : form (.num (.ofInt kSideRight)) = [3, 2] := by decide +kernel
  have hhex : (form (.str (hexify (form (nested n))))).length ≤ 5000 := by
    have hlen : (hexify (form (nested n))).bytes.length = 2 * (2 * n + 2) := by
      rw [← (hasForm_nested n).2]
      exact length_hexBytes _
    have hvar := @length_putUvarint_le 1 _ (show 2 * (2 * n + 2) < 2 ^ (7 * (1 + 1)) by omega)
    rw [form_str (hasForm_arr.mp hf _ (by simp)), keyForm, strBytes, List.length_append,
      List.length_cons, hlen]
    omega
  rw [form_arr hf, encodeSeq]
  simp only [List.map_cons, List.map_nil, hstr, hnum, List.length_append, List.length_cons,
    List.length_nil, List.flatten_cons, List.flatten_nil]
  rw [putUvarint_small (by decide), List.length_singleton, Fits]
  omega

theorem held_nested {n : ℕ} (hn : n ≤ 1001) {t : Tag} (ht : t.isEmpty = false) :
    HeldByMachine (seqInsert withSeq onePlace 0 (nested n) t).2 := by
  intro p u b hb
  have hempty : ∀ {p : SeqPlace}, (seqSet withSeq p Key.nodes).adds[u]? = none :=
    not_mem_withSeq List.mem_cons_self _ _
  rcases seqInsert_cases withSeq onePlace 0 (nested n) t with
    ⟨r, hr, -⟩ | ⟨hs, parent, side, payload, node, hpoint, hv, hn', hr⟩
  · rw [hr, hempty] at hb
    cases hb
  · obtain ⟨-, -, hput⟩ := sequential_withSeq.seqSet_storedIn hs ht node
    obtain rfl : node = b := by
      rw [hr, (hput p).1] at hb
      split at hb
      · rw [OrSet.add_adds] at hb
        split at hb
        · exact Option.some.inj hb
        · rw [hempty] at hb
          cases hb
      · rw [hempty] at hb
        cases hb
    have hp : attachPoint (orderIn .empty) (deadIn .empty) 0 = some (.empty, kSideRight) := by
      decide +kernel
    rw [(seqSet_withSeq onePlace isSeqSet_nodes).1, (seqSet_withSeq onePlace isSeqSet_dead).1, hp]
      at hpoint
    cases hpoint
    obtain ⟨-, rfl⟩ := encode_eq_ok.mp hv
    exact length_nested_node hn hn'

end VoidPalabra
