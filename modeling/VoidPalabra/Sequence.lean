import VoidPalabra.Editor
import VoidPalabra.InOrder
import VoidPalabra.RoundTrip

/-!
# Ordered content

A sequence is two OR-sets: its nodes, each with a parent, a side and a payload, under the node's
own name, and the names of the nodes that were removed. Its order is the in-order traversal of the
tree that the parents make, and the visible elements are those not removed. An insertion turns a
place in the visible order into a node's side where nothing is attached yet.

The nodes may come from anyone. Whatever they are, the traversal ends, and it emits those whose
parents lead to the root, once each (`traversal_safe`).
-/

namespace VoidPalabra

namespace Key

def seq : CString := .ofLit "seq"
def nodes : CString := .ofLit "nodes"
def dead : CString := .ofLit "dead"

end Key

/-- The sides of a node. -/
def kSideLeft : ℤ := 0
def kSideRight : ℤ := 1

/-- A node of a sequence. -/
structure SeqNode where
  /-- Its name, the tag it was added under. -/
  id : Tag
  /-- Its parent's name; empty for the root. -/
  parent : CString
  /-- The side of its parent it is on. -/
  side : ℤ
  /-- The canonical bytes of the element's value. -/
  payload : Bytes
  deriving DecidableEq

/-- Hexadecimal digits back to bytes; nothing for a text that is none. -/
def unhexify (hex : CString) : Bytes := (unhexStrict hex.bytes).getD []

/-- What is stored of a node: its parent, its side and the payload in hexadecimal. -/
def encodeNode (parent : CString) (side : ℤ) (payload : Bytes) : Except CanonicalError Bytes :=
  encode (.arr [.str parent, .num (.ofInt side), .str (hexify payload)])

/-- A stored node; none for what is no array of three. -/
def decodeNode (id : Tag) (bytes : Bytes) : Option SeqNode :=
  match decode bytes with
  | some (.arr [p, s, v]) => some
    { id
      parent := p.string?.getD .empty
      side := match s with
        | .num d => d.trunc
        | _ => kSideRight
      payload := (v.string?.map unhexify).getD [] }
  | _ => none

/-- The nodes of a set that are not retired and can be decoded. -/
def liveNodes (ns : OrSet) : List SeqNode := ns.liveEntries.filterMap fun kv => decodeNode kv.1 kv.2

/-- The children of a node on one side, by name. -/
def children (nodes : List SeqNode) (right : Bool) (parent : CString) : List SeqNode :=
  Sorting.sortOn SeqNode.id
    (nodes.filter fun n => decide (n.parent = parent) && decide (n.side = kSideLeft) != right)

/-- The children of the root. -/
def roots (nodes : List SeqNode) : List SeqNode :=
  children nodes false .empty ++ children nodes true .empty

/-- The in-order traversal, with an explicit stack; none where it would not return. -/
def seqOrderOf (nodes : List SeqNode) : Option (List SeqNode) :=
  InOrder.run (fun n => children nodes false n.id) (fun n => children nodes true n.id)
    (3 * nodes.length) ((roots nodes).map (·, .enter)) []

/-- The order of a sequence, the removed nodes included. -/
def seqOrder (seq : Option Json) : Option (List SeqNode) :=
  match seq with
  | none => some []
  | some seq => seqOrderOf (liveNodes (orsetFromJson (seq.get Key.nodes)))

/-- Whether a name is among the removed. -/
def seqDead (seq : Json) (id : Tag) : Bool :=
  let d := orsetFromJson (seq.get Key.dead)
  d.adds.contains id && !d.removes.contains id

/-- Whether a node has a child on its right. -/
def hasRightChild (all : List SeqNode) (id : Tag) : Bool :=
  all.any fun n => n.parent == id && n.side == kSideRight

/-- The scan for a visible index: the element before it, with its place, and how many visible
elements were passed. -/
def scanVisible (dead : Tag → Bool) (index : ℕ) :
    List SeqNode → ℕ → ℕ → Option (ℕ × SeqNode) → Option (ℕ × SeqNode) × ℕ
  | [], _, visible, left => (left, visible)
  | n :: rest, i, visible, left =>
    if dead n.id then scanVisible dead index rest (i + 1) visible left
    else if visible = index then (left, visible)
    else scanVisible dead index rest (i + 1) (visible + 1) (some (i, n))

/-- The parent and the side of an element that is inserted at a visible index; none where the index
is out of range. -/
def attachPoint (all : List SeqNode) (dead : Tag → Bool) (index : ℕ) : Option (CString × ℤ) :=
  let scan := scanVisible dead index all 0 0 none
  if scan.2 < index then none
  else
    match scan.1 with
    | some (i, l) =>
      -- extending a run into a chain
      if !hasRightChild all l.id then some (l.id, kSideRight)
      else
        match all[i + 1]? with
        | some r => some (r.id, kSideLeft)
        | none => some (l.id, kSideRight)
    | none =>
      match all[0]? with
      | some r => some (r.id, kSideLeft)
      | none => some (.empty, kSideRight)

/-- The element at a visible index. -/
def visibleAt (dead : Tag → Bool) (index : ℕ) : List SeqNode → ℕ → Option SeqNode
  | [], _ => none
  | n :: rest, visible =>
    if dead n.id then visibleAt dead index rest visible
    else if visible = index then some n
    else visibleAt dead index rest (visible + 1)

/-- The visible elements. -/
def visibleOf (dead : Tag → Bool) (all : List SeqNode) : List SeqNode :=
  all.filter fun n => !dead n.id

/-! ### The tree -/

/-- Where the parents of a node lead to the root. -/
inductive Rooted (nodes : List SeqNode) : SeqNode → Prop
  /-- The root is its parent. -/
  | top {n : SeqNode} (h : n ∈ nodes) (hp : n.parent = .empty) : Rooted nodes n
  /-- A node that is rooted is its parent. -/
  | under {n m : SeqNode} (h : n ∈ nodes) (hm : Rooted nodes m) (hp : n.parent = m.id) :
    Rooted nodes n

/-- `m` is attached to `n` on a side, or below a node that is. -/
inductive Descends (nodes : List SeqNode) (right : Bool) (n : SeqNode) : SeqNode → Prop
  /-- It is attached to `n` itself. -/
  | child {m : SeqNode} (h : m ∈ nodes) (hp : m.parent = n.id)
      (hs : decide (m.side = kSideLeft) = !right) : Descends nodes right n m
  /-- It is attached to a node below. -/
  | under {m k : SeqNode} (h : m ∈ nodes) (hk : Descends nodes right n k) (hp : m.parent = k.id) :
    Descends nodes right n m

/-- Nodes as a set of them gives them: each under a name of its own, which is not the root's. -/
structure Nodes (nodes : List SeqNode) : Prop where
  /-- No name twice. -/
  nodup : (nodes.map SeqNode.id).Nodup
  /-- The root is no node. -/
  named : ∀ n ∈ nodes, n.id ≠ .empty

section
variable {nodes : List SeqNode} {n m : SeqNode}

theorem mem_children {right : Bool} {parent : CString} : n ∈ children nodes right parent ↔
    n ∈ nodes ∧ n.parent = parent ∧ decide (n.side = kSideLeft) = !right := by
  rw [children, Sorting.mem_sortOn, List.mem_filter, Bool.and_eq_true, decide_eq_true_eq]
  cases right <;> cases decide (n.side = kSideLeft) <;> simp

/-- A child, whichever side it is on. -/
abbrev ChildOf (nodes : List SeqNode) : SeqNode → SeqNode → Prop :=
  InOrder.Child (fun n => children nodes false n.id) fun n => children nodes true n.id

theorem childOf_iff : ChildOf nodes m n ↔ m ∈ nodes ∧ m.parent = n.id := by
  unfold ChildOf InOrder.Child
  rw [mem_children, mem_children]
  by_cases hs : m.side = kSideLeft <;> simp [hs]

theorem mem_roots : n ∈ roots nodes ↔ n ∈ nodes ∧ n.parent = .empty := by
  rw [roots, List.mem_append, mem_children, mem_children]
  by_cases hs : n.side = kSideLeft <;> simp [hs]

theorem Rooted.mem (h : Rooted nodes n) : n ∈ nodes := by
  cases h <;> assumption

theorem Nodes.inj (h : Nodes nodes) (hn : n ∈ nodes) (hm : m ∈ nodes) (hid : n.id = m.id) : n = m :=
  List.inj_on_of_nodup_map h.nodup hn hm hid

theorem nodup_children (h : Nodes nodes) (parent : CString) :
    (children nodes false parent ++ children nodes true parent).Nodup := by
  have hone : ∀ right, (children nodes right parent).Nodup := fun right =>
    (Sorting.sortOn_perm _ _).nodup_iff.mpr (h.nodup.of_map.filter _)
  refine List.nodup_append.mpr ⟨hone _, hone _, ?_⟩
  rintro a ha _ hb rfl
  have hleft := (mem_children.mp ha).2.2
  rw [(mem_children.mp hb).2.2] at hleft
  cases hleft

/-- The children make a forest of the nodes. -/
theorem Nodes.isForest (h : Nodes nodes) : InOrder.IsForest (· ∈ nodes)
    (fun n => children nodes false n.id) fun n => children nodes true n.id where
  child hc := (childOf_iff.mp hc).1
  parent hn hn' hc hc' := h.inj hn hn' ((childOf_iff.mp hc).2.symm.trans (childOf_iff.mp hc').2)
  nodup n := nodup_children h n.id

/-- A node that leads to the root is not above itself. -/
theorem Rooted.irrefl (h : Nodes nodes) (hn : Rooted nodes n) :
    ¬Relation.TransGen (ChildOf nodes) n n := by
  induction hn with
  | top hmem hp =>
    intro hloop
    obtain ⟨k, hk, hkn⟩ := Relation.TransGen.head'_iff.mp hloop
    have hkmem : k ∈ nodes := h.isForest.of_below hkn hmem
    exact h.named k hkmem ((childOf_iff.mp hk).2.symm.trans hp)
  | @under n m hmem hm hp ih =>
    intro hloop
    obtain ⟨k, hk, hkn⟩ := Relation.TransGen.head'_iff.mp hloop
    have hkmem : k ∈ nodes := h.isForest.of_below hkn hmem
    obtain rfl := h.inj hkmem hm.mem ((childOf_iff.mp hk).2.symm.trans hp)
    exact ih (Relation.TransGen.tail' hkn hk)

theorem rooted_of_child (hn : Rooted nodes n) (hm : ChildOf nodes m n) : Rooted nodes m :=
  .under (childOf_iff.mp hm).1 hn (childOf_iff.mp hm).2

theorem rooted_iff : Rooted nodes m ↔ ∃ n ∈ roots nodes, InOrder.Below
    (fun n => children nodes false n.id) (fun n => children nodes true n.id) m n := by
  constructor
  · intro h
    induction h with
    | top h hp => exact ⟨_, mem_roots.mpr ⟨h, hp⟩, .refl⟩
    | under h hm hp ih =>
      obtain ⟨n, hn, hbelow⟩ := ih
      exact ⟨n, hn, .head (childOf_iff.mpr ⟨h, hp⟩) hbelow⟩
  · rintro ⟨n, hn, hbelow⟩
    have hroot := mem_roots.mp hn
    induction hbelow using Relation.ReflTransGen.head_induction_on with
    | refl => exact .top hroot.1 hroot.2
    | head hmk _ ih => exact rooted_of_child ih hmk

/-- What is below the children on one side. -/
theorem descends_iff {right : Bool} : Descends nodes right n m ↔
    ∃ k ∈ children nodes right n.id, InOrder.Below
      (fun n => children nodes false n.id) (fun n => children nodes true n.id) m k := by
  constructor
  · intro h
    induction h with
    | child h hp hs => exact ⟨_, mem_children.mpr ⟨h, hp, hs⟩, .refl⟩
    | under h _ hp ih =>
      obtain ⟨k, hk, hbelow⟩ := ih
      exact ⟨k, hk, .head (childOf_iff.mpr ⟨h, hp⟩) hbelow⟩
  · rintro ⟨k, hk, hbelow⟩
    obtain ⟨hmem, hp, hs⟩ := mem_children.mp hk
    induction hbelow using Relation.ReflTransGen.head_induction_on with
    | refl => exact .child hmem hp hs
    | head hmk _ ih => exact .under (childOf_iff.mp hmk).1 ih (childOf_iff.mp hmk).2

/-- What the traversal emits, as a derivation. -/
abbrev InOrderOf (nodes : List SeqNode) : List SeqNode → List SeqNode → Prop :=
  InOrder.Emits (fun n => children nodes false n.id) fun n => children nodes true n.id

/-- **The traversal of any nodes ends**, and emits those that lead to the root, each once. -/
theorem exists_seqOrderOf (h : Nodes nodes) : ∃ out, seqOrderOf nodes = some out ∧
    InOrderOf nodes (roots nodes) out ∧ out.Nodup ∧ ∀ n, n ∈ out ↔ Rooted nodes n := by
  have hacc : ∀ n, Rooted nodes n → Acc (ChildOf nodes) n := fun n hn =>
    InOrder.acc_of_irrefl (fun hc hr => ⟨rooted_of_child hr hc, (childOf_iff.mp hc).1⟩)
      (fun n hn => hn.irrefl h) hn
  have hrooted : ∀ n ∈ roots nodes, Rooted nodes n := fun n hn =>
    .top (mem_roots.mp hn).1 (mem_roots.mp hn).2
  obtain ⟨out, hout⟩ := InOrder.exists_emits fun n hn => hacc n (hrooted n hn)
  have happart : InOrder.Apart (fun n => children nodes false n.id)
      (fun n => children nodes true n.id) (roots nodes) := by
    intro a ha b hb hab
    rcases Relation.ReflTransGen.cases_head hab with rfl | ⟨k, hk, hkb⟩
    · rfl
    · have hkmem := h.isForest.of_below hkb (mem_roots.mp hb).1
      exact absurd ((childOf_iff.mp hk).2.symm.trans (mem_roots.mp ha).2) (h.named k hkmem)
  have hnodup := hout.nodup h.isForest (fun n hn => (mem_roots.mp hn).1)
    (nodup_children h .empty) happart
  have hmem : ∀ n, n ∈ out ↔ Rooted nodes n := fun n =>
    (InOrder.mem_emits_iff hout).trans rooted_iff.symm
  have hlen : out.length ≤ nodes.length :=
    (hnodup.subperm fun n hn => ((hmem n).mp hn).mem).length_le
  exact ⟨out, InOrder.run_eq_some hout (by omega), hout, hnodup, hmem⟩

end

theorem id_of_decodeNode {id : Tag} {bytes : Bytes} {n : SeqNode}
    (h : decodeNode id bytes = some n) : n.id = id := by
  unfold decodeNode at h
  split at h <;> cases h
  rfl

theorem mem_liveNodes {ns : OrSet} {n : SeqNode} :
    n ∈ liveNodes ns ↔ ∃ t v, ns.IsLive t v ∧ decodeNode t v = some n := by
  unfold liveNodes
  rw [List.mem_filterMap]
  constructor
  · rintro ⟨⟨t, v⟩, hlive, hn⟩
    exact ⟨t, v, OrSet.mem_liveEntries.mp hlive, hn⟩
  · rintro ⟨t, v, hlive, hn⟩
    exact ⟨(t, v), OrSet.mem_liveEntries.mpr hlive, hn⟩

/-- The nodes of an OR-set have names of their own, and none is empty. -/
theorem nodes_liveNodes {ns : OrSet} (h : ns.Named) : Nodes (liveNodes ns) where
  nodup := by
    have hkeys : (ns.liveEntries.map Prod.fst).Nodup :=
      (dict_keys_nodup ns.adds).sublist (List.filter_sublist.map Prod.fst)
    have hsub : ∀ l : List (Tag × Bytes),
        ((l.filterMap fun kv => decodeNode kv.1 kv.2).map SeqNode.id).Sublist (l.map Prod.fst) := by
      intro l
      induction l with
      | nil => exact .slnil
      | cons kv l ih =>
        rw [List.filterMap_cons, List.map_cons]
        split
        · exact ih.cons kv.1
        · rename_i n hn
          rw [List.map_cons, id_of_decodeNode hn]
          exact ih.cons_cons kv.1
    exact hkeys.sublist (hsub _)
  named n hn := by
    obtain ⟨t, v, hlive, hdec⟩ := mem_liveNodes.mp hn
    rw [id_of_decodeNode hdec]
    have := h.adds t v hlive.1
    rintro rfl
    cases this

/-- The traversal does not depend on the order the nodes come in. -/
theorem seqOrderOf_perm {nodes nodes' : List SeqNode} (h : Nodes nodes) (hp : nodes.Perm nodes') :
    seqOrderOf nodes = seqOrderOf nodes' := by
  have hkids : ∀ right parent, children nodes right parent = children nodes' right parent :=
    fun right parent => Sorting.sortOn_eq_of_perm
      (h.nodup.sublist (List.filter_sublist.map SeqNode.id)) (hp.filter _)
  unfold seqOrderOf roots
  simp only [hkids, hp.length_eq]

/-! ### Any nodes -/

/-- The nodes of a sequence. -/
def seqNodes (seq : Option Json) : List SeqNode :=
  liveNodes (orsetFromJson (get seq Key.nodes))

/-- What the traversal makes of nodes. -/
structure Traversed (nodes out : List SeqNode) : Prop where
  /-- No node is emitted twice. -/
  once : (out.map SeqNode.id).Nodup
  /-- Those are emitted whose parents lead to the root. -/
  rooted : ∀ n, n ∈ out ↔ Rooted nodes n
  /-- A node stands between what is below it on the left and what is below it on the right. -/
  subtree : ∀ n ∈ out, ∃ before left right after, out = before ++ (left ++ n :: right) ++ after ∧
    (∀ m, m ∈ left ↔ Descends nodes false n m) ∧ ∀ m, m ∈ right ↔ Descends nodes true n m

theorem exists_traversed {nodes : List SeqNode} (h : Nodes nodes) :
    ∃ out, seqOrderOf nodes = some out ∧ Traversed nodes out := by
  obtain ⟨out, hrun, hemits, hnodup, hmem⟩ := exists_seqOrderOf h
  refine ⟨out, hrun, ?_, hmem, ?_⟩
  · refine hnodup.map_on fun n hn m hm hid => ?_
    exact h.inj ((hmem n).mp hn).mem ((hmem m).mp hm).mem hid
  · intro n hn
    obtain ⟨before, left, right, after, hout, hl, hr⟩ := hemits.around hn
    exact ⟨before, left, right, after, hout,
      fun m => (InOrder.mem_emits_iff hl).trans descends_iff.symm,
      fun m => (InOrder.mem_emits_iff hr).trans descends_iff.symm⟩

/-- The OR-set that is read does not depend on the order of the members. -/
theorem orsetFromJson_perm {o o' : Option Json} {ms ms' : List (CString × Json)}
    {rs rs' : List Json} (hd : (ms.map Prod.fst).Nodup) (ha : get o Key.a = some (.obj ms))
    (ha' : get o' Key.a = some (.obj ms')) (hm : ms.Perm ms')
    (hr : get o Key.r = some (.arr rs)) (hr' : get o' Key.r = some (.arr rs'))
    (hp : rs.Perm rs') : orsetFromJson o = orsetFromJson o' := by
  have hd' : (ms'.map Prod.fst).Nodup := (hm.map Prod.fst).nodup_iff.mp hd
  unfold orsetFromJson
  rw [ha, ha', hr, hr']
  refine OrSet.ext_tags (fun t => Option.ext fun v => ?_) fun t => ?_
  · exact (readAdds_getElem? hd).trans
      ((and_congr_left fun _ => hm.mem_iff).trans (readAdds_getElem? hd').symm)
  · exact mem_readRemoves.trans ((and_congr_left fun _ => hp.mem_iff).trans mem_readRemoves.symm)

/-- **The traversal is safe on any node set.** It ends on whatever is read, emits the nodes whose
parents lead to the root, no node twice and each subtree in one piece, and it does so whatever order
the nodes are stored in. -/
theorem traversal_safe :
    (∀ seq : Option Json, ∃ out, seqOrder seq = some out ∧ Traversed (seqNodes seq) out) ∧
    (∀ nodes nodes' : List SeqNode, Nodes nodes → nodes.Perm nodes' →
      seqOrderOf nodes = seqOrderOf nodes') ∧
    ∀ (seq seq' : Json) (ms ms' : List (CString × Json)) (rs rs' : List Json),
      (ms.map Prod.fst).Nodup → get (seq.get Key.nodes) Key.a = some (.obj ms) →
        get (seq'.get Key.nodes) Key.a = some (.obj ms') → ms.Perm ms' →
        get (seq.get Key.nodes) Key.r = some (.arr rs) →
        get (seq'.get Key.nodes) Key.r = some (.arr rs') → rs.Perm rs' →
          seqOrder (some seq) = seqOrder (some seq') := by
  refine ⟨?_, fun _ _ => seqOrderOf_perm, ?_⟩
  · intro seq
    cases seq with
    | none => exact ⟨[], rfl, List.nodup_nil, fun n => ⟨nofun, fun h => nomatch h.mem⟩, nofun⟩
    | some seq => exact exists_traversed (nodes_liveNodes (named_orsetFromJson _))
  · intro seq seq' ms ms' rs rs' hd ha ha' hm hr hr' hp
    rw [seqOrder, seqOrder, orsetFromJson_perm hd ha ha' hm hr hr' hp]

/-! ### Two nodes under each other -/

/-- A node as it is stored. -/
def storedNode (id parent : String) (side : ℤ)
    (hi : (0 : UInt8) ∉ lit id := by exact VoidPalabra.CString.noNul_lit _ VoidPalabra.CString.checked)
    (hp : (0 : UInt8) ∉ lit parent := by exact VoidPalabra.CString.noNul_lit _ VoidPalabra.CString.checked) :
    CString × Json :=
  (.ofLit id hi, .str (hexify ((encodeNode (.ofLit parent hp) side []).toOption.getD [])))

/-- A sequence of these nodes. -/
def sequenceOf (ms : List (CString × Json)) : Json :=
  .obj [(Key.nodes, .obj [(Key.a, .obj ms), (Key.r, .arr [])])]

/-- Two nodes that are each other's parents, two at the root, and one whose parent is missing. -/
def tangled : List (CString × Json) :=
  [storedNode "a" "b" 1, storedNode "b" "a" 0, storedNode "c" "" 1, storedNode "d" "" 7,
    storedNode "e" "x" 1]

/-- The tangled nodes in either order: the two at the root are emitted. -/
theorem traversal_safe_tangled :
    seqOrder (some (sequenceOf tangled)) = seqOrder (some (sequenceOf tangled.reverse)) ∧
      (seqOrder (some (sequenceOf tangled))).map (·.map SeqNode.id) =
        some [.ofLit "c", .ofLit "d"] :=
  ⟨traversal_safe.2.2 (sequenceOf tangled) (sequenceOf tangled.reverse) tangled tangled.reverse
    [] [] (by decide +kernel) rfl rfl tangled.reverse_perm.symm rfl rfl .nil, by decide +kernel⟩

end VoidPalabra
