import VoidPalabra.Facts

/-!
# The laws of the join on documents the door accepts

Associativity and idempotence hold of all of them. The join of two sets takes the
second value of a tag that has two, so commutativity holds exactly of documents
that give no tag two values in one set, or that have no canonical form at all.
-/

namespace VoidPalabra

/-! ### Documents whose names are text -/

theorem validUtf8_cons {c : UInt8} {b : Bytes} (h : c < 0x80) :
    validUtf8 (c :: b) = validUtf8 b := by
  conv_lhs => unfold validUtf8
  exact if_pos h

/-- ASCII is UTF-8. -/
theorem validUtf8_of_ascii {b : Bytes} (h : ∀ c ∈ b, c < 0x80) : validUtf8 b = true := by
  induction b with
  | nil => rfl
  | cons c b ih =>
    rw [validUtf8_cons (h c List.mem_cons_self)]
    exact ih fun d hd => h d (List.mem_cons_of_mem _ hd)

theorem hexDigit_lt {n : ℕ} (h : n < 16) : hexDigit n < 0x80 := by
  interval_cases n <;> decide

theorem validUtf8_hexify (v : Bytes) : validUtf8 (hexify v).bytes = true := by
  refine validUtf8_of_ascii fun c hc => ?_
  obtain ⟨d, -, hd⟩ := List.mem_flatMap.mp hc
  have := d.toNat_lt
  simp only [List.mem_cons, List.not_mem_nil, or_false] at hd
  rcases hd with rfl | rfl
  · exact hexDigit_lt (by omega)
  · exact hexDigit_lt (by omega)

theorem hasForm_str {s : CString} : HasForm (.str s) ↔ validUtf8 s.bytes = true := by
  simp [HasForm, encode, encodeStr_eq_ok]

/-- The tags of a set are text. -/
def OrSet.IsText (s : OrSet) : Prop :=
  (∀ (t : Tag) (v : Bytes), s.adds[t]? = some v → validUtf8 t.bytes = true) ∧
    ∀ t ∈ s.removes, validUtf8 t.bytes = true

/-- A set has a canonical form exactly when its tags are text. -/
theorem hasForm_orsetToJson {s : OrSet} : HasForm (orsetToJson s) ↔ s.IsText := by
  have hkeys : ((s.entries.map fun kv => (kv.1, Json.str (hexify kv.2))).map Prod.fst).Nodup := by
    rw [List.map_map]
    exact dict_keys_nodup s.adds
  have hroot : ([(Key.a, Json.obj (s.entries.map fun kv => (kv.1, .str (hexify kv.2)))),
      (Key.r, .arr (s.removes.toList.map .str))].map Prod.fst).Nodup := by
    change [Key.a, Key.r].Nodup
    decide
  have hka : validUtf8 Key.a.bytes = true := by decide
  have hkr : validUtf8 Key.r.bytes = true := by decide
  rw [orsetToJson, hasForm_obj]
  simp only [List.forall_mem_cons, List.not_mem_nil, false_implies, implies_true, and_true, hroot,
    hasForm_obj, hasForm_arr, hkeys, hka, hkr, true_and, List.forall_mem_map, hasForm_str,
    validUtf8_hexify]
  refine and_congr ?_ ?_
  · constructor
    · intro h t v hv
      exact h (t, v) (OrSet.mem_entries.mpr hv)
    · rintro h ⟨t, v⟩ hm
      exact h t v (OrSet.mem_entries.mp hm)
  · simp only [Std.ExtTreeSet.mem_toList]

/-- The tags of a join are text exactly when those of both sets are. -/
theorem OrSet.isText_join {a b : OrSet} : (a.join b).IsText ↔ a.IsText ∧ b.IsText := by
  unfold OrSet.IsText
  constructor
  · rintro ⟨ha, hr⟩
    refine ⟨⟨fun t v hv => ?_, fun t ht => hr t (mem_join_removes.mpr (.inl ht))⟩,
      fun t v hv => ?_, fun t ht => hr t (mem_join_removes.mpr (.inr ht))⟩
    · cases hb : b.adds[t]? with
      | none => exact ha t v (by rw [join_adds, hb, hv]; rfl)
      | some w => exact ha t w (by rw [join_adds, hb]; rfl)
    · exact ha t v (by rw [join_adds, hv]; rfl)
  · rintro ⟨⟨ha, hra⟩, hb, hrb⟩
    refine ⟨fun t v hv => ?_, fun t ht => ?_⟩
    · rw [join_adds] at hv
      rcases Option.or_eq_some_iff.mp hv with h | ⟨-, h⟩
      · exact hb t v h
      · exact ha t v h
    · rcases mem_join_removes.mp ht with h | h
      · exact hra t h
      · exact hrb t h

/-- Every name and every tag of a document is text. -/
def IsTextDoc (root : Json) : Prop :=
  ∀ p, HasNode root p → (∀ k ∈ p, validUtf8 k.bytes = true) ∧ (setAt root p).IsText

theorem OrSet.isText_empty : OrSet.empty.IsText := by
  simp [OrSet.IsText]

/-- A shaped document has a canonical form exactly when its names are text. -/
theorem Shaped.canonBytes_isSome {root : Json} (h : Shaped root) :
    (canonBytes root).isSome = true ↔ IsTextDoc root := by
  have hone : HasForm (.num Double.one) := ⟨[0x03, 0x02], by decide +kernel⟩
  have hcell : ∀ p n, nodeAt root p = some n → ∀ k, kindOf p = some k →
      cellAt root p = some (k.cell (setAt root p)) →
      ((k.cell (setAt root p)).Ok ↔ (setAt root p).IsText) := by
    intro p n hn k hk hc
    have hs := setAt_of_cell hc
    cases k with
    | set rule => exact hasForm_orsetToJson
    | map =>
      rw [hs]
      exact iff_of_true trivial OrSet.isText_empty
    | marker =>
      rw [hs]
      exact iff_of_true hone OrSet.isText_empty
  have hsome : (canonBytes root).isSome = true ↔ HasForm (normalizeNode root) := by
    rw [Option.isSome_iff_exists]
    simp only [canonBytes_eq_some]
    exact ⟨fun ⟨_, hf, _⟩ => hf, fun hf => ⟨_, hf, rfl⟩⟩
  rw [hsome, hasForm_normalizeNode]
  constructor
  · rintro ⟨-, hok⟩ p hp
    obtain ⟨n, hn⟩ := Option.isSome_iff_exists.mp hp
    obtain ⟨k, hk, hc⟩ := h.cellAt_eq hn
    obtain ⟨hu, ho⟩ := hok p _ hc
    exact ⟨hu, (hcell p n hn k hk hc).mp ho⟩
  · intro ht
    refine ⟨h.namedOnce, fun p c hc => ?_⟩
    cases hn : nodeAt root p with
    | none =>
      rw [cellAt_eq_none hn] at hc
      cases hc
    | some n =>
      obtain ⟨k, hk, hc'⟩ := h.cellAt_eq hn
      obtain ⟨hu, hs⟩ := ht p (by rw [HasNode, hn]; rfl)
      rw [hc'] at hc
      cases hc
      exact ⟨hu, (hcell p n hn k hk hc').mpr hs⟩

/-- A shaped document has no canonical form exactly when some name is not text. -/
theorem Shaped.canonBytes_eq_none {root : Json} (h : Shaped root) :
    canonBytes root = none ↔ ¬IsTextDoc root := by
  rw [← h.canonBytes_isSome, Bool.not_eq_true, Option.isSome_eq_false_iff,
    Option.isNone_iff_eq_none]

/-- The names of a join are text exactly when those of both sides are. -/
theorem isTextDoc_joinNode {a b : Json} (ha : Shaped a) (hb : Shaped b) :
    IsTextDoc (joinNode a b) ↔ IsTextDoc a ∧ IsTextDoc b := by
  unfold IsTextDoc
  simp only [hasNode_joinNode ha hb, setAt_joinNode ha hb, OrSet.isText_join]
  constructor
  · intro h
    exact ⟨fun p hp => ⟨(h p (.inl hp)).1, (h p (.inl hp)).2.1⟩,
      fun p hp => ⟨(h p (.inr hp)).1, (h p (.inr hp)).2.2⟩⟩
  · rintro ⟨h1, h2⟩ p hp
    have ht1 : (setAt a p).IsText := by
      by_cases hn : HasNode a p
      · exact (h1 p hn).2
      · rw [setAt_of_not_hasNode hn]
        exact OrSet.isText_empty
    have ht2 : (setAt b p).IsText := by
      by_cases hn : HasNode b p
      · exact (h2 p hn).2
      · rw [setAt_of_not_hasNode hn]
        exact OrSet.isText_empty
    rcases hp with hp | hp
    · exact ⟨(h1 p hp).1, ht1, ht2⟩
    · exact ⟨(h2 p hp).1, ht1, ht2⟩

/-! ### The three laws -/

/-- Documents with the same sets and nodes hold the same facts. -/
theorem facts_eq_of_sets {a b : Json} (hs : ∀ p, setAt a p = setAt b p)
    (hn : ∀ p, HasNode a p ↔ HasNode b p) : facts a = facts b := by
  ext f
  cases f with
  | node p => exact hn p
  | add p t v => rw [add_mem_facts, add_mem_facts, hs]
  | retire p t => rw [retire_mem_facts, retire_mem_facts, hs]

/-- Two documents with a canonical form and one canonical form have the same sets. -/
theorem setAt_eq_of_canonBytes {a b : Json} {x : Bytes} (ha : canonBytes a = some x)
    (hb : canonBytes b = some x) (p : Path) : setAt a p = setAt b p := by
  obtain ⟨hfa, rfl⟩ := canonBytes_eq_some.mp ha
  obtain ⟨hfb, he⟩ := canonBytes_eq_some.mp hb
  have hc := cellsAlike_of_form_eq hfa hfb he p
  unfold setAt
  cases hca : cellAt a p with
  | none =>
    cases hcb : cellAt b p with
    | none => rfl
    | some y =>
      rw [hca, hcb] at hc
      exact hc.elim
  | some x =>
    cases hcb : cellAt b p with
    | none =>
      rw [hca, hcb] at hc
      exact hc.elim
    | some y =>
      rw [hca, hcb] at hc
      cases x <;> cases y <;> first | exact hc.elim | exact hc | rfl

/-- Joining a document with itself changes nothing. -/
theorem facts_joinNode_self {a : Json} (ha : Shaped a) : facts (joinNode a a) = facts a :=
  facts_eq_of_sets (fun p => by rw [setAt_joinNode ha ha, OrSet.join_self])
    fun p => by rw [hasNode_joinNode ha ha, or_self_iff]

/-- How joins are grouped does not matter. -/
theorem facts_joinNode_assoc {a b c : Json} (ha : Shaped a) (hb : Shaped b) (hc : Shaped c) :
    facts (joinNode (joinNode a b) c) = facts (joinNode a (joinNode b c)) := by
  refine facts_eq_of_sets (fun p => ?_) fun p => ?_
  · rw [setAt_joinNode (ha.join hb) hc, setAt_joinNode ha hb, setAt_joinNode ha (hb.join hc),
      setAt_joinNode hb hc, OrSet.join_assoc]
  · rw [hasNode_joinNode (ha.join hb) hc, hasNode_joinNode ha hb, hasNode_joinNode ha (hb.join hc),
      hasNode_joinNode hb hc, or_assoc]

/-- The order of two documents does not matter when they agree on their tags. -/
theorem facts_joinNode_comm {a b : Json} (ha : Shaped a) (hb : Shaped b) (h : TagsAgree a b) :
    facts (joinNode a b) = facts (joinNode b a) := by
  refine facts_eq_of_sets (fun p => ?_) fun p => ?_
  · rw [setAt_joinNode ha hb, setAt_joinNode hb ha]
    exact OrSet.join_comm_iff.mpr (h p)
  · rw [hasNode_joinNode ha hb, hasNode_joinNode hb ha, or_comm]

/-- A join has no canonical form when one of its sides has none. -/
theorem canonBytes_joinNode_eq_none {a b : Json} (ha : Shaped a) (hb : Shaped b) :
    canonBytes (joinNode a b) = none ↔ canonBytes a = none ∨ canonBytes b = none := by
  rw [(ha.join hb).canonBytes_eq_none, ha.canonBytes_eq_none, hb.canonBytes_eq_none,
    isTextDoc_joinNode ha hb, not_and_or]

/-- The two orders of a join have one canonical form exactly when the documents agree
on the tags they share, or one of them has a name that is not text. -/
theorem canonBytes_joinNode_comm_iff {a b : Json} (ha : Shaped a) (hb : Shaped b) :
    canonBytes (joinNode a b) = canonBytes (joinNode b a) ↔
      TagsAgree a b ∨ ¬IsTextDoc a ∨ ¬IsTextDoc b := by
  rw [← ha.canonBytes_eq_none, ← hb.canonBytes_eq_none]
  constructor
  · intro h
    by_cases hnone : canonBytes a = none ∨ canonBytes b = none
    · exact .inr hnone
    · rw [← canonBytes_joinNode_eq_none ha hb] at hnone
      obtain ⟨x, hx⟩ := Option.ne_none_iff_exists'.mp hnone
      refine .inl fun p => OrSet.join_comm_iff.mp ?_
      have hp := setAt_eq_of_canonBytes hx (h ▸ hx) p
      rwa [setAt_joinNode ha hb, setAt_joinNode hb ha] at hp
  · rintro (h | h)
    · exact canonBytes_of_facts (ha.join hb) (hb.join ha) (facts_joinNode_comm ha hb h)
    · rw [(canonBytes_joinNode_eq_none ha hb).mpr h,
        (canonBytes_joinNode_eq_none hb ha).mpr h.symm]

/-- On documents that the door accepts, the join is a semilattice up to the canonical
form exactly when two documents give no tag two values in one set, unless one of
them has a name that is not text and so no canonical form at all. -/
theorem join_laws_iff {A B C : Json} (hA : validate A = .ok ()) (hB : validate B = .ok ())
    (hC : validate C = .ok ()) :
    (canonBytes (joinNode A B) = canonBytes (joinNode B A) ∧
        canonBytes (joinNode (joinNode A B) C) = canonBytes (joinNode A (joinNode B C)) ∧
        canonBytes (joinNode A A) = canonBytes A) ↔
      TagsAgree A B ∨ ¬IsTextDoc A ∨ ¬IsTextDoc B := by
  have ha := (validate_iff.mp hA).1
  have hb := (validate_iff.mp hB).1
  have hc := (validate_iff.mp hC).1
  rw [canonBytes_joinNode_comm_iff ha hb]
  refine and_iff_left ⟨?_, ?_⟩
  · exact canonBytes_of_facts ((ha.join hb).join hc) (ha.join (hb.join hc))
      (facts_joinNode_assoc ha hb hc)
  · exact canonBytes_of_facts (ha.join ha) ha (facts_joinNode_self ha)

/-- A document with one mantle, present under one tag with a given value. -/
def presentMantle (value : Bytes) : Json :=
  .obj [(Key.palabra, .num Double.one), (Key.mantles, .obj [(.ofLit "m", .obj [(Key.present,
    orsetToJson (OrSet.empty.add (.ofLit "aaaaaaaaaaaaaaaa_1") value))])])]

/-- The laws at three documents, the last two of which repeat the first. -/
theorem join_laws_iff_presentMantle :
    (canonBytes (joinNode (presentMantle (lit "1")) (presentMantle (lit "1"))) =
        canonBytes (joinNode (presentMantle (lit "1")) (presentMantle (lit "1"))) ∧
      canonBytes (joinNode (joinNode (presentMantle (lit "1")) (presentMantle (lit "1")))
          (presentMantle (lit "1"))) =
        canonBytes (joinNode (presentMantle (lit "1"))
          (joinNode (presentMantle (lit "1")) (presentMantle (lit "1")))) ∧
      canonBytes (joinNode (presentMantle (lit "1")) (presentMantle (lit "1"))) =
        canonBytes (presentMantle (lit "1"))) ↔
      TagsAgree (presentMantle (lit "1")) (presentMantle (lit "1")) ∨
        ¬IsTextDoc (presentMantle (lit "1")) ∨ ¬IsTextDoc (presentMantle (lit "1")) :=
  join_laws_iff (by decide +kernel) (by decide +kernel) (by decide +kernel)

/-- Two documents that the door accepts, whose joins in the two orders differ: one
tag names one value here and another value there. -/
theorem join_not_comm :
    validate (presentMantle (lit "1")) = .ok () ∧ validate (presentMantle (lit "2")) = .ok () ∧
      canonBytes (joinNode (presentMantle (lit "1")) (presentMantle (lit "2"))) ≠
        canonBytes (joinNode (presentMantle (lit "2")) (presentMantle (lit "1"))) := by
  decide +kernel

end VoidPalabra
