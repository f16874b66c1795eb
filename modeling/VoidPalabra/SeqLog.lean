import VoidPalabra.Codec
import VoidPalabra.JoinLaws
import VoidPalabra.Numbers
import VoidPalabra.SeqEdit

/-!
# What the sequences of a life share

The sets of the sequences of all documents hold nodes out of one log, which has one node for
a name. In each of them the parents of a node lead to the root, nothing was ever retired,
and what has a tombstone is in the log. Inserting, erasing and joining keep this, and the
tree of such a set is one on which an insertion lands where it should.
-/

namespace VoidPalabra

/-- What was stored under which name. -/
abbrev SeqLog := Tag → Option Bytes

/-- The log with a node more. -/
def SeqLog.record (log : SeqLog) (t : Tag) (b : Bytes) : SeqLog :=
  fun u => if u = t then some b else log u

/-- Every stored node can be read, and is on one of the two sides. -/
def SeqLog.Reads (log : SeqLog) : Prop :=
  ∀ t b, log t = some b → ∃ n, decodeNode t b = some n ∧ (n.side = kSideLeft ∨ n.side = kSideRight)

/-- One log goes on from another. -/
def SeqLog.Le (log log' : SeqLog) : Prop := ∀ t b, log t = some b → log' t = some b

/-- The two sets of a sequence whose nodes are out of a log. -/
structure SeqSets (log : SeqLog) (ns ds : OrSet) : Prop where
  /-- Its nodes are. -/
  logged : ∀ (t : Tag) (b : Bytes), ns.adds[t]? = some b → log t = some b
  /-- No node has the empty name. -/
  named : ns.Named
  /-- No node was retired. -/
  kept : ∀ t, t ∉ ns.removes
  /-- The parents of each lead to the root. -/
  rooted : ∀ n ∈ liveNodes ns, Rooted (liveNodes ns) n
  /-- What has a tombstone was stored. -/
  dead : ∀ t, t ∈ ds.adds → (log t).isSome = true
  /-- No tombstone was retired. -/
  deadKept : ∀ t, t ∉ ds.removes

section

variable {log log' : SeqLog} {ns ns' ds ds' : OrSet}

theorem SeqLog.Le.refl (log : SeqLog) : SeqLog.Le log log := fun _ _ h => h

theorem SeqLog.le_record {t : Tag} (b : Bytes) (h : log t = none) : SeqLog.Le log (log.record t b) := by
  intro u c hu
  have hne : u ≠ t := by
    rintro rfl
    rw [h] at hu
    cases hu
  rw [record, if_neg hne, hu]

theorem SeqLog.Reads.record {t : Tag} {b : Bytes} {n : SeqNode} (h : log.Reads)
    (hn : decodeNode t b = some n) (hs : n.side = kSideLeft ∨ n.side = kSideRight) :
    (log.record t b).Reads := by
  intro u c hu
  rw [SeqLog.record] at hu
  split at hu
  · rename_i he
    cases hu
    exact ⟨n, he ▸ hn, hs⟩
  · exact h u c hu

theorem Rooted.mono {nodes nodes' : List SeqNode} {n : SeqNode} (h : Rooted nodes n)
    (hsub : ∀ m ∈ nodes, m ∈ nodes') : Rooted nodes' n := by
  induction h with
  | top hn hp => exact .top (hsub _ hn) hp
  | under hn _ hp ih => exact .under (hsub _ hn) ih hp

namespace SeqSets

theorem empty (log : SeqLog) : SeqSets log .empty .empty where
  logged _ _ h := nomatch h
  named := OrSet.named_empty
  kept _ := OrSet.not_mem_empty_removes _
  rooted n hn := by
    obtain ⟨t, v, ⟨h, -⟩, -⟩ := mem_liveNodes.mp hn
    cases h
  dead t h := by
    rw [Std.ExtTreeMap.mem_iff_isSome_getElem?] at h
    cases h
  deadKept _ := OrSet.not_mem_empty_removes _

theorem mono (h : SeqSets log ns ds) (hle : log.Le log') : SeqSets log' ns ds where
  logged t b hb := hle t b (h.logged t b hb)
  named := h.named
  kept := h.kept
  rooted := h.rooted
  dead t ht := by
    obtain ⟨b, hb⟩ := Option.isSome_iff_exists.mp (h.dead t ht)
    rw [hle t b hb]
    rfl
  deadKept := h.deadKept

/-- The nodes of such a set are those that were stored in it. -/
theorem mem_nodes (h : SeqSets log ns ds) {n : SeqNode} :
    n ∈ liveNodes ns ↔ ∃ b, ns.adds[n.id]? = some b ∧ decodeNode n.id b = some n := by
  rw [mem_liveNodes]
  constructor
  · rintro ⟨t, b, ⟨hb, -⟩, hn⟩
    obtain rfl := id_of_decodeNode hn
    exact ⟨b, hb, hn⟩
  · rintro ⟨b, hb, hn⟩
    exact ⟨n.id, b, ⟨hb, h.kept _⟩, hn⟩

/-- Its tree is one that insertions have grown. -/
theorem grown (h : SeqSets log ns ds) (hl : log.Reads) : Grown (liveNodes ns) where
  toNodes := nodes_liveNodes h.named
  rooted := h.rooted
  sides n hn := by
    obtain ⟨b, hb, hd⟩ := h.mem_nodes.mp hn
    obtain ⟨m, hm, hs⟩ := hl _ b (h.logged _ b hb)
    rw [hd] at hm
    cases hm
    exact hs

/-- Two sequences out of one log are joined to one. -/
theorem join (ha : SeqSets log ns ds) (hb : SeqSets log ns' ds') :
    SeqSets log (ns.join ns') (ds.join ds') := by
  have hadds : ∀ {t : Tag} {b : Bytes}, (ns.join ns').adds[t]? = some b ↔
      ns.adds[t]? = some b ∨ ns'.adds[t]? = some b := by
    intro t b
    rw [OrSet.join_adds]
    cases hc : ns'.adds[t]? with
    | none => simp
    | some c =>
      simp only [Option.some_or, Option.some.injEq]
      refine ⟨.inr, ?_⟩
      rintro (hx | hx)
      · have hlog := ha.logged t b hx
        rw [hb.logged t c hc] at hlog
        exact Option.some.inj hlog
      · exact hx
  have hkept : ∀ t, t ∉ (ns.join ns').removes := by
    intro t ht
    rcases OrSet.mem_join_removes.mp ht with ht | ht
    · exact ha.kept t ht
    · exact hb.kept t ht
  have hnodes : ∀ {n : SeqNode}, n ∈ liveNodes (ns.join ns') ↔ n ∈ liveNodes ns ∨ n ∈ liveNodes ns' := by
    intro n
    rw [ha.mem_nodes, hb.mem_nodes, mem_liveNodes]
    constructor
    · rintro ⟨t, b, ⟨hx, -⟩, hn⟩
      obtain rfl := id_of_decodeNode hn
      exact (hadds.mp hx).imp (fun hx => ⟨b, hx, hn⟩) fun hx => ⟨b, hx, hn⟩
    · rintro (⟨b, hx, hn⟩ | ⟨b, hx, hn⟩)
      · exact ⟨_, b, ⟨hadds.mpr (.inl hx), hkept _⟩, hn⟩
      · exact ⟨_, b, ⟨hadds.mpr (.inr hx), hkept _⟩, hn⟩
  refine ⟨fun t b hx => ?_, ha.named.join hb.named, hkept, fun n hn => ?_, fun t ht => ?_, fun t ht => ?_⟩
  · exact (hadds.mp hx).elim (ha.logged t b) (hb.logged t b)
  · rcases hnodes.mp hn with hn | hn
    · exact (ha.rooted n hn).mono fun m hm => hnodes.mpr (.inl hm)
    · exact (hb.rooted n hn).mono fun m hm => hnodes.mpr (.inr hm)
  · rw [Std.ExtTreeMap.mem_iff_isSome_getElem?, OrSet.join_adds, Option.isSome_or] at ht
    rcases Bool.or_eq_true_iff.mp ht with ht | ht
    · exact hb.dead t (Std.ExtTreeMap.mem_iff_isSome_getElem?.mpr ht)
    · exact ha.dead t (Std.ExtTreeMap.mem_iff_isSome_getElem?.mpr ht)
  · rcases OrSet.mem_join_removes.mp ht with ht | ht
    · exact ha.deadKept t ht
    · exact hb.deadKept t ht

/-- A tombstone for a node of the log. -/
theorem erase (h : SeqSets log ns ds) {t : Tag} {v : Bytes} (ht : (log t).isSome = true) :
    SeqSets log ns (ds.add t v) where
  logged := h.logged
  named := h.named
  kept := h.kept
  rooted := h.rooted
  dead u hu := by
    rw [Std.ExtTreeMap.mem_iff_isSome_getElem?, OrSet.add_adds] at hu
    split at hu
    · rename_i he
      exact he ▸ ht
    · exact h.dead u (Std.ExtTreeMap.mem_iff_isSome_getElem?.mpr hu)
  deadKept := h.deadKept

end SeqSets

/-! ### A node is stored -/

/-- A node can be stored exactly when its parent's name is text. -/
theorem encodeNode_ok {parent : CString} {side : ℤ} {payload : Bytes}
    (hs : side = kSideLeft ∨ side = kSideRight) :
    (∃ b, encodeNode parent side payload = .ok b) ↔ validUtf8 parent.bytes = true := by
  have hnum : HasForm (.num (.ofInt side)) := by
    refine Double.hasForm (Double.finite_ofInt ?_)
    rcases hs with rfl | rfl <;> decide
  change HasForm _ ↔ _
  rw [hasForm_arr]
  simp only [List.forall_mem_cons, List.not_mem_nil, false_implies, implies_true, and_true,
    hasForm_str, validUtf8_hexify, hnum]

/-- What is stored for a node is read back. -/
theorem decodeNode_encodeNode {t : Tag} {parent : CString} {side : ℤ} {payload b : Bytes}
    (hs : side = kSideLeft ∨ side = kSideRight) (hb : encodeNode parent side payload = .ok b)
    (hl : Fits b.length) : decodeNode t b = some ⟨t, parent, side, payload⟩ := by
  obtain ⟨hf, rfl⟩ := encode_eq_ok.mp hb
  have hside : side.natAbs < 2 ^ 53 := by rcases hs with rfl | rfl <;> decide
  have hnorm : norm (.arr [.str parent, .num (.ofInt side), .str (hexify payload)]) =
      .arr [.str parent, .num (.ofInt side), .str (hexify payload)] := by
    rw [norm_arr]
    simp only [List.map_cons, List.map_nil, norm, Double.whole?_ofInt hside]
  have hdepth : depth (.arr [.str parent, .num (.ofInt side), .str (hexify payload)]) ≤ nestingLimit := by
    simp [depth, depthItems, nestingLimit]
  have hd : decode (form (.arr [.str parent, .num (.ofInt side), .str (hexify payload)])) =
      some (.arr [.str parent, .num (.ofInt side), .str (hexify payload)]) := by
    rw [decode_form (decodable_of_form hf hdepth hl), hnorm]
  rw [decodeNode, hd]
  simp only [Json.string?, Option.getD_some, Option.map_some, unhexify, unhexStrict_hexify,
    Double.trunc_ofInt (Nat.le_of_lt hside)]

namespace SeqSets

variable {t : Tag} {b : Bytes} {new : SeqNode}

theorem order (h : SeqSets log ns ds) (hl : log.Reads) :
    seqOrderOf (liveNodes ns) = some (orderIn ns) := by
  obtain ⟨all, hall, -⟩ := (h.grown hl).exists_order
  rw [orderIn, hall, Option.getD_some]

/-- What is not in the log is not in the sequence. -/
theorem absent (h : SeqSets log ns ds) (ht : log t = none) : ns.adds[t]? = none := by
  cases hb : ns.adds[t]? with
  | none => rfl
  | some b =>
    have hlog := h.logged t b hb
    rw [ht] at hlog
    cases hlog

theorem liveNodes_add (h : SeqSets log ns ds) (hempty : t.isEmpty = false) (ht : log t = none)
    (hd : decodeNode t b = some new) : (liveNodes (ns.add t b)).Perm (new :: liveNodes ns) := by
  have hid : new.id = t := id_of_decodeNode hd
  have hnot : ∀ n ∈ liveNodes ns, n.id ≠ t := by
    intro n hn he
    obtain ⟨c, hc, -⟩ := h.mem_nodes.mp hn
    rw [he, h.absent ht] at hc
    cases hc
  have hnodup : (liveNodes (ns.add t b)).Nodup :=
    (nodes_liveNodes (OrSet.named_add h.named hempty)).nodup.of_map
  have hnodup' : (new :: liveNodes ns).Nodup :=
    List.nodup_cons.mpr ⟨fun hm => hnot new hm hid, (nodes_liveNodes h.named).nodup.of_map⟩
  refine (List.perm_ext_iff_of_nodup hnodup hnodup').mpr fun n => ?_
  rw [List.mem_cons, h.mem_nodes, mem_liveNodes]
  constructor
  · rintro ⟨u, c, ⟨hc, -⟩, hn⟩
    rw [OrSet.add_adds] at hc
    obtain rfl := id_of_decodeNode hn
    split at hc
    · rename_i he
      cases hc
      rw [← he, hd] at hn
      exact .inl (Option.some.inj hn).symm
    · exact .inr ⟨c, hc, hn⟩
  · rintro (rfl | ⟨c, hc, hn⟩)
    · refine ⟨t, b, ⟨?_, h.kept t⟩, hd⟩
      rw [OrSet.add_adds, if_pos rfl]
    · refine ⟨n.id, c, ⟨?_, h.kept _⟩, hn⟩
      rw [OrSet.add_adds, if_neg ?_, hc]
      rintro rfl
      rw [h.absent ht] at hc
      cases hc

/-- A new node under a node that is there, or at the root. -/
theorem insert (h : SeqSets log ns ds) (hempty : t.isEmpty = false) (ht : log t = none)
    (hd : decodeNode t b = some new)
    (hp : new.parent = .empty ∨ ∃ n ∈ liveNodes ns, n.id = new.parent) :
    SeqSets (log.record t b) (ns.add t b) ds where
  logged u c hc := by
    rw [OrSet.add_adds] at hc
    split at hc
    · rename_i he
      cases hc
      rw [SeqLog.record, if_pos he.symm]
    · exact SeqLog.le_record b ht u c (h.logged u c hc)
  named := OrSet.named_add h.named hempty
  kept := h.kept
  rooted n hn := by
    have hperm := h.liveNodes_add hempty ht hd
    have hsub : ∀ m ∈ liveNodes ns, m ∈ liveNodes (ns.add t b) :=
      fun m hm => hperm.mem_iff.mpr (List.mem_cons_of_mem _ hm)
    rcases List.mem_cons.mp (hperm.mem_iff.mp hn) with rfl | hm
    · rcases hp with hp | ⟨m, hm, hp⟩
      · exact .top hn hp
      · exact .under hn ((h.rooted m hm).mono hsub) hp.symm
    · exact (h.rooted n hm).mono hsub
  dead := (h.mono (SeqLog.le_record b ht)).dead
  deadKept := h.deadKept

theorem deadIn_iff {ds : OrSet} (hk : ∀ u, u ∉ ds.removes) :
    deadIn ds t = true ↔ (ds.adds[t]?).isSome = true := by
  have hr : ds.removes.contains t = false := by
    rw [← Bool.not_eq_true, Std.ExtTreeSet.contains_iff_mem]
    exact hk t
  rw [deadIn, hr, Bool.not_false, Bool.and_true, Std.ExtTreeMap.contains_iff_mem,
    Std.ExtTreeMap.mem_iff_isSome_getElem?]

/-- What has just been named has no tombstone. -/
theorem not_dead (h : SeqSets log ns ds) (ht : log t = none) : deadIn ds t = false := by
  rw [← Bool.not_eq_true, deadIn_iff h.deadKept]
  intro hm
  have hlog := h.dead t (Std.ExtTreeMap.mem_iff_isSome_getElem?.mpr hm)
  rw [ht] at hlog
  cases hlog

/-- Where an insertion at a visible index attaches, and that the new element is shown at that
index. -/
theorem lands (h : SeqSets log ns ds) (hl : log.Reads) {index : ℕ}
    (hindex : index ≤ (shownIn ns ds).length) :
    ∃ parent side, attachPoint (orderIn ns) (deadIn ds) index = some (parent, side) ∧
      (side = kSideLeft ∨ side = kSideRight) ∧
      ∀ {payload b : Bytes}, t.isEmpty = false → log t = none →
        encodeNode parent side payload = .ok b → Fits b.length → (log.record t b).Reads ∧ SeqSets (log.record t b) (ns.add t b) ds ∧
          shownIn (ns.add t b) ds = (shownIn ns ds).insertIdx index ⟨t, parent, side, payload⟩ := by
  have hg := h.grown hl
  obtain ⟨parent, side, hpoint, hparent, hside, pre, post, hall, hpre, hlands⟩ :=
    attachPoint_lands hg (h.order hl) hindex
  refine ⟨parent, side, hpoint, hside, fun {payload b} hempty ht hb hfits => ?_⟩
  have hd := @decodeNode_encodeNode t _ _ _ _ hside hb hfits
  have hperm := h.liveNodes_add hempty ht hd
  have hne : t ≠ .empty := by
    rintro rfl
    cases hempty
  have hnot : Unnamed (liveNodes ns) t := by
    refine ⟨hne, fun n hn he => ?_⟩
    obtain ⟨c, hc, -⟩ := h.mem_nodes.mp hn
    rw [he, h.absent ht] at hc
    cases hc
  have hinsert := h.insert hempty ht hd hparent
  refine ⟨hl.record hd hside, hinsert, ?_⟩
  have horder := @hlands ⟨t, parent, side, payload⟩ _ hnot rfl rfl hperm
  rw [(hinsert.order (hl.record hd hside))] at horder
  rw [shownIn, Option.some.inj horder, visibleOf_insert (h.not_dead ht), hpre, ← hall]
  rfl

/-- What is shown is in the log. -/
theorem shown_logged (h : SeqSets log ns ds) (hl : log.Reads) {n : SeqNode}
    (hn : n ∈ shownIn ns ds) : n.id.isEmpty = false ∧ (log n.id).isSome = true := by
  obtain ⟨all, hall, -, -, hmem⟩ := (h.grown hl).exists_order
  rw [h.order hl] at hall
  cases hall
  obtain ⟨b, hb, -⟩ := h.mem_nodes.mp ((hmem n).mp (List.mem_filter.mp hn).1)
  refine ⟨h.named.adds _ b hb, ?_⟩
  rw [h.logged _ b hb]
  rfl

/-- Beyond the end nothing is inserted. -/
theorem beyond {index : ℕ} (hindex : (shownIn ns ds).length < index) :
    attachPoint (orderIn ns) (deadIn ds) index = none := attachPoint_beyond hindex

/-- A tombstone takes its element out of what is shown. -/
theorem shown_erase (h : SeqSets log ns ds) (hl : log.Reads) {index : ℕ} {n : SeqNode} {v : Bytes}
    (hn : (shownIn ns ds)[index]? = some n) :
    shownIn ns (ds.add n.id v) = (shownIn ns ds).eraseIdx index := by
  obtain ⟨all, hall, -, hnodup, hmem⟩ := (h.grown hl).exists_order
  rw [h.order hl] at hall
  cases hall
  have hids : ((orderIn ns).map SeqNode.id).Nodup := by
    refine List.Nodup.map_on (fun a ha b hb he => ?_) hnodup
    exact (nodes_liveNodes h.named).inj ((hmem a).mp ha) ((hmem b).mp hb) he
  have hdead : deadIn (ds.add n.id v) = fun t => deadIn ds t || t == n.id := by
    funext t
    have hk : ∀ u, u ∉ (ds.add n.id v).removes := h.deadKept
    rw [Bool.eq_iff_iff, deadIn_iff hk, OrSet.add_adds, Bool.or_eq_true, deadIn_iff h.deadKept,
      beq_iff_eq]
    by_cases he : n.id = t
    · simp [he]
    · simp [he, Ne.symm he]
  rw [shownIn, hdead, visibleOf_erase hids hn]
  rfl

end SeqSets

end

end VoidPalabra
