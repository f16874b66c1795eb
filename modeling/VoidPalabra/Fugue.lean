import VoidPalabra.Sequence

/-!
# Where an insertion lands

Nodes that grew one from another all lead to the root and sit on one of two sides. Among such nodes
the place an insertion picks has no node attached to it yet: a node without a right child, or the
node after one that has a right child, or the first of all. Attached there, the new node comes right
after the element it follows, and no other node moves (`seqOrderOf_attach`).
-/

namespace VoidPalabra

/-- Nodes that grew one from another. -/
structure Grown (nodes : List SeqNode) : Prop extends Nodes nodes where
  /-- Every node's parents lead to the root. -/
  rooted : ∀ n ∈ nodes, Rooted nodes n
  /-- Every node is on one of the two sides. -/
  sides : ∀ n ∈ nodes, n.side = kSideLeft ∨ n.side = kSideRight

/-- A name that no node has. -/
def Unnamed (nodes : List SeqNode) (id : Tag) : Prop := id ≠ .empty ∧ ∀ n ∈ nodes, n.id ≠ id

section
variable {nodes nodes' : List SeqNode} {new : SeqNode}

/-- No node is attached to a name that none has. -/
theorem Grown.parent_ne (h : Grown nodes) {id : Tag} (hid : Unnamed nodes id) :
    ∀ n ∈ nodes, n.parent ≠ id := by
  intro n hn hp
  cases h.rooted n hn with
  | top _ hroot => exact hid.1 (hp.symm.trans hroot)
  | under _ hm hparent => exact hid.2 _ hm.mem (hparent.symm.trans hp)

theorem Nodes.add (h : Nodes nodes) (hid : Unnamed nodes new.id) (hp : nodes'.Perm (new :: nodes)) :
    Nodes nodes' where
  nodup := by
    refine (hp.map SeqNode.id).nodup_iff.mpr (List.nodup_cons.mpr ⟨?_, h.nodup⟩)
    intro hmem
    obtain ⟨n, hn, hnid⟩ := List.mem_map.mp hmem
    exact hid.2 n hn hnid
  named n hn := by
    rcases List.mem_cons.mp (hp.mem_iff.mp hn) with rfl | hn
    · exact hid.1
    · exact h.named n hn

/-- With a node more, the children of a node stay, -/
theorem children_add_of_ne (h : Nodes nodes) (hid : Unnamed nodes new.id)
    (hp : nodes'.Perm (new :: nodes)) {right : Bool} {parent : CString}
    (hne : ¬(new.parent = parent ∧ decide (new.side = kSideLeft) = !right)) :
    children nodes' right parent = children nodes right parent := by
  have hkeep : ((new :: nodes).filter fun n =>
      decide (n.parent = parent) && decide (n.side = kSideLeft) != right) =
        nodes.filter fun n => decide (n.parent = parent) && decide (n.side = kSideLeft) != right := by
    refine List.filter_cons_of_neg fun htrue => hne ?_
    rw [Bool.and_eq_true, decide_eq_true_eq] at htrue
    refine ⟨htrue.1, ?_⟩
    have := htrue.2
    revert this
    cases right <;> cases decide (new.side = kSideLeft) <;> simp
  unfold children
  rw [Sorting.sortOn_eq_of_perm ((h.add hid hp).nodup.sublist (List.filter_sublist.map _))
    (hp.filter _), hkeep]

/-- or the new node is the only one, where there was none. -/
theorem children_add_self (h : Nodes nodes) (hid : Unnamed nodes new.id)
    (hp : nodes'.Perm (new :: nodes)) {right : Bool} (hs : decide (new.side = kSideLeft) = !right)
    (hnone : children nodes right new.parent = []) : children nodes' right new.parent = [new] := by
  have hperm : (children nodes' right new.parent).Perm [new] := by
    refine (List.perm_ext_iff_of_nodup ?_ (List.nodup_singleton new)).mpr fun n => ?_
    · exact (Sorting.sortOn_perm _ _).nodup_iff.mpr ((h.add hid hp).nodup.of_map.filter _)
    · rw [mem_children, hp.mem_iff, List.mem_cons, List.mem_singleton]
      constructor
      · rintro ⟨rfl | hn, hparent, hside⟩
        · rfl
        · have := mem_children.mpr ⟨hn, hparent, hside⟩
          rw [hnone] at this
          cases this
      · rintro rfl
        exact ⟨.inl rfl, rfl, hs⟩
  exact List.perm_singleton.mp hperm

/-- No node is attached to the new one. -/
theorem children_new (h : Grown nodes) (hid : Unnamed nodes new.id)
    (hp : nodes'.Perm (new :: nodes)) (hself : new.parent ≠ new.id) (right : Bool) :
    children nodes' right new.id = [] := by
  refine List.eq_nil_iff_forall_not_mem.mpr fun n hn => ?_
  obtain ⟨hmem, hparent, -⟩ := mem_children.mp hn
  rcases List.mem_cons.mp (hp.mem_iff.mp hmem) with rfl | hmem
  · exact hself hparent
  · exact h.parent_ne hid n hmem hparent

/-- The order of grown nodes is all of them. -/
theorem Grown.exists_order (h : Grown nodes) : ∃ all, seqOrderOf nodes = some all ∧
    InOrderOf nodes (roots nodes) all ∧ all.Nodup ∧ ∀ n, n ∈ all ↔ n ∈ nodes := by
  obtain ⟨all, hrun, hemits, hnodup, hmem⟩ := exists_seqOrderOf h.toNodes
  exact ⟨all, hrun, hemits, hnodup, fun n => (hmem n).trans ⟨Rooted.mem, h.rooted n⟩⟩

/-- A derivation is what the machine does. -/
theorem seqOrderOf_eq {all : List SeqNode} (h : Nodes nodes)
    (he : InOrderOf nodes (roots nodes) all) : seqOrderOf nodes = some all := by
  obtain ⟨out, hrun, hemits, -, -⟩ := exists_seqOrderOf h
  rw [hrun, hemits.unique he]

/-- `hasRightChild` among all the nodes. -/
theorem hasRightChild_iff (h : Grown nodes) {all : List SeqNode} (hall : ∀ n, n ∈ all ↔ n ∈ nodes)
    {id : Tag} : hasRightChild all id = true ↔ children nodes true id ≠ [] := by
  rw [hasRightChild, List.any_eq_true, Ne, List.eq_nil_iff_forall_not_mem, not_forall_not]
  refine exists_congr fun n => ?_
  rw [hall, mem_children, Bool.and_eq_true, beq_iff_eq, beq_iff_eq]
  refine and_congr_right fun hn => and_congr_right fun _ => ?_
  rcases h.sides n hn with hs | hs <;> rw [hs] <;> decide

/-! ### Attaching a node -/

/-- One occurrence is replaced. -/
theorem flatMap_only {α : Type} [DecidableEq α] {pre post : List α} {p : α} (mid : List α)
    (hd : (pre ++ p :: post).Nodup) :
    ((pre ++ p :: post).flatMap fun n => if n = p then mid else [n]) = pre ++ (mid ++ post) := by
  have hsame : ∀ l : List α, p ∉ l → (l.flatMap fun n => if n = p then mid else [n]) = l := by
    intro l hl
    have hone : ∀ n ∈ l, (if n = p then mid else [n]) = [n] := by
      intro n hn
      rw [if_neg]
      rintro rfl
      exact hl hn
    rw [List.flatMap_congr hone, List.flatMap_singleton']
  obtain ⟨-, hpost, hdisj⟩ := List.nodup_append.mp hd
  have hpre : p ∉ pre := fun hmem => hdisj p hmem p (List.mem_cons_self ..) rfl
  rw [List.flatMap_append, List.flatMap_cons, hsame pre hpre,
    hsame post (List.nodup_cons.mp hpost).1, if_pos rfl]

/-- A node that is attached to another leaves the roots. -/
theorem roots_add (h : Nodes nodes) (hid : Unnamed nodes new.id) (hp : nodes'.Perm (new :: nodes))
    (hparent : new.parent ≠ .empty) : roots nodes' = roots nodes := by
  unfold roots
  rw [children_add_of_ne h hid hp fun hc => hparent hc.1,
    children_add_of_ne h hid hp fun hc => hparent hc.1]

/-- The children of the nodes, with one attached to `p` where there was none. -/
theorem children_attach (h : Grown nodes) (hid : Unnamed nodes new.id)
    (hp : nodes'.Perm (new :: nodes)) {p n : SeqNode} {right : Bool} (hmem : p ∈ nodes)
    (hparent : new.parent = p.id) (hs : decide (new.side = kSideLeft) = !right)
    (hnone : children nodes right p.id = []) (hn : n ∈ nodes) :
    children nodes' right n.id = (if n = p then [new] else children nodes right n.id) ∧
      children nodes' (!right) n.id = children nodes (!right) n.id := by
  constructor
  · split
    · rename_i heq
      subst heq
      have := children_add_self h.toNodes hid hp hs (hparent ▸ hnone)
      rwa [hparent] at this
    · rename_i hne
      exact children_add_of_ne h.toNodes hid hp fun hc =>
        hne (h.inj hn hmem (hc.1.symm.trans hparent))
  · refine children_add_of_ne h.toNodes hid hp fun hc => ?_
    rw [hs] at hc
    exact absurd hc.2 (by cases right <;> decide)

/-- **Attached on the right of a node that has no right child, a node comes right after it.** -/
theorem seqOrderOf_attach_right (h : Grown nodes) (hid : Unnamed nodes new.id)
    (hp : nodes'.Perm (new :: nodes)) {pre post : List SeqNode} {l : SeqNode}
    (hall : seqOrderOf nodes = some (pre ++ l :: post)) (hnone : children nodes true l.id = [])
    (hparent : new.parent = l.id) (hside : new.side = kSideRight) :
    seqOrderOf nodes' = some (pre ++ l :: new :: post) := by
  obtain ⟨all, hrun, hemits, hnodup, hmem⟩ := h.exists_order
  obtain rfl : all = pre ++ l :: post := Option.some.inj (hrun.symm.trans hall)
  have hl : l ∈ nodes := (hmem l).mp (List.mem_append_right _ (List.mem_cons_self ..))
  have hself : new.parent ≠ new.id := hparent ▸ hid.2 l hl
  have hkids := fun n hn => @children_attach nodes nodes' new h hid hp l n true hl hparent
    (by rw [hside]; decide) hnone ((hmem n).mp hn)
  refine seqOrderOf_eq (h.add hid hp) ?_
  have hafter := flatMap_only [l, new] hnodup
  rw [InOrderOf, roots_add h.toNodes hid hp (hparent ▸ h.named l hl)]
  rw [List.cons_append, List.singleton_append] at hafter
  rw [← hafter]
  exact hemits.graft_right hnone (fun n hn => (hkids n hn).2) (fun n hn => (hkids n hn).1)
    ⟨children_new h hid hp hself false, children_new h hid hp hself true⟩

/-- **Attached on the left of a node that has no left child, a node comes right before it.** -/
theorem seqOrderOf_attach_left (h : Grown nodes) (hid : Unnamed nodes new.id)
    (hp : nodes'.Perm (new :: nodes)) {pre post : List SeqNode} {r : SeqNode}
    (hall : seqOrderOf nodes = some (pre ++ r :: post)) (hnone : children nodes false r.id = [])
    (hparent : new.parent = r.id) (hside : new.side = kSideLeft) :
    seqOrderOf nodes' = some (pre ++ new :: r :: post) := by
  obtain ⟨all, hrun, hemits, hnodup, hmem⟩ := h.exists_order
  obtain rfl : all = pre ++ r :: post := Option.some.inj (hrun.symm.trans hall)
  have hr : r ∈ nodes := (hmem r).mp (List.mem_append_right _ (List.mem_cons_self ..))
  have hself : new.parent ≠ new.id := hparent ▸ hid.2 r hr
  have hkids := fun n hn => @children_attach nodes nodes' new h hid hp r n false hr hparent
    (by rw [hside]; decide) hnone ((hmem n).mp hn)
  refine seqOrderOf_eq (h.add hid hp) ?_
  have hbefore := flatMap_only [new, r] hnodup
  rw [InOrderOf, roots_add h.toNodes hid hp (hparent ▸ h.named r hr)]
  rw [List.cons_append, List.singleton_append] at hbefore
  rw [← hbefore]
  exact hemits.graft_left hnone (fun n hn => (hkids n hn).1) (fun n hn => (hkids n hn).2)
    ⟨children_new h hid hp hself false, children_new h hid hp hself true⟩

/-- The first node of all. -/
theorem seqOrderOf_first (hid : new.id ≠ .empty) (hparent : new.parent = .empty) :
    seqOrderOf [new] = some [new] := by
  have hgrown : Nodes [new] := ⟨List.nodup_singleton _, fun n hn => List.mem_singleton.mp hn ▸ hid⟩
  obtain ⟨out, hrun, -, hnodup, hmem⟩ := exists_seqOrderOf hgrown
  have hperm : out.Perm [new] := (List.perm_ext_iff_of_nodup hnodup (List.nodup_singleton _)).mpr
    fun n => (hmem n).trans ⟨Rooted.mem, fun hn => .top hn (List.mem_singleton.mp hn ▸ hparent)⟩
  rw [hrun, List.perm_singleton.mp hperm]

/-! ### The place of an insertion -/

variable {dead : Tag → Bool} {index : ℕ}

/-- Once the index is reached the scan only looks for a visible element to stop at. -/
theorem scanVisible_reached : ∀ {all : List SeqNode} {i : ℕ} {left : Option (ℕ × SeqNode)},
    scanVisible dead index all i index left = (left, index) := by
  intro all
  induction all with
  | nil => exact fun {_ _} => rfl
  | cons n rest ih =>
    intro i left
    rw [scanVisible]
    split
    · exact ih
    · rw [if_pos rfl]

/-- The scan passes the elements before the index and remembers the last of them. -/
theorem scanVisible_within : ∀ {all : List SeqNode} {i visible : ℕ} {left : Option (ℕ × SeqNode)},
    visible < index → index ≤ visible + (visibleOf dead all).length →
      ∃ pre l post, all = pre ++ l :: post ∧
        visible + (visibleOf dead (pre ++ [l])).length = index ∧
        scanVisible dead index all i visible left = (some (i + pre.length, l), index) := by
  intro all
  induction all with
  | nil =>
    intro i visible left hlt hle
    exact absurd hle (Nat.not_le.mpr hlt)
  | cons n rest ih =>
    intro i visible left hlt hle
    rw [scanVisible]
    by_cases hdead : dead n.id = true
    · have hsame : ∀ l, visibleOf dead (n :: l) = visibleOf dead l := fun l => by
        simp [visibleOf, hdead]
      rw [hsame] at hle
      obtain ⟨pre, l, post, rfl, hcount, hscan⟩ := @ih (i + 1) visible left hlt hle
      refine ⟨n :: pre, l, post, rfl, by rw [List.cons_append, hsame]; exact hcount, ?_⟩
      rw [if_pos hdead, hscan, List.length_cons, Nat.add_right_comm, Nat.add_assoc]
    · have hmore : ∀ l, (visibleOf dead (n :: l)).length = (visibleOf dead l).length + 1 := fun l => by
        simp [visibleOf, hdead]
      rw [hmore] at hle
      rw [if_neg hdead, if_neg (by omega)]
      rcases Nat.lt_or_eq_of_le hlt with hlt' | heq
      · obtain ⟨pre, l, post, rfl, hcount, hscan⟩ := @ih (i + 1) (visible + 1) (some (i, n)) hlt'
          (by omega)
        refine ⟨n :: pre, l, post, rfl, by rw [List.cons_append, hmore]; omega, ?_⟩
        rw [hscan, List.length_cons, Nat.add_right_comm, Nat.add_assoc]
      · refine ⟨[], n, rest, rfl, by rw [List.nil_append, hmore]; exact heq, ?_⟩
        change visible + 1 = index at heq
        rw [heq, scanVisible_reached]
        rfl

/-- Past the last visible element the scan has counted them all. -/
theorem scanVisible_beyond : ∀ {all : List SeqNode} {i visible : ℕ} {left : Option (ℕ × SeqNode)},
    visible + (visibleOf dead all).length < index →
      (scanVisible dead index all i visible left).2 = visible + (visibleOf dead all).length := by
  intro all
  induction all with
  | nil => exact fun {_ _ _} _ => rfl
  | cons n rest ih =>
    intro i visible left hlt
    rw [scanVisible]
    by_cases hdead : dead n.id = true
    · have hsame : visibleOf dead (n :: rest) = visibleOf dead rest := by simp [visibleOf, hdead]
      rw [hsame] at hlt ⊢
      rw [if_pos hdead, ih hlt]
    · have hmore : (visibleOf dead (n :: rest)).length = (visibleOf dead rest).length + 1 := by
        simp [visibleOf, hdead]
      rw [hmore] at hlt ⊢
      rw [if_neg hdead, if_neg (by omega), ih (by omega)]
      omega

/-- An index past the last visible element has no place. -/
theorem attachPoint_beyond {all : List SeqNode} (h : (visibleOf dead all).length < index) :
    attachPoint all dead index = none := by
  have := @scanVisible_beyond dead index all 0 0 none (by omega)
  rw [attachPoint, this, if_pos (by omega)]

/-- **An insertion lands at its index.** Every index up to the number of visible elements has a
place, a node that goes there is between the elements before the index and the others, and what it
is attached to is a node that is there. -/
theorem attachPoint_lands (h : Grown nodes) {all : List SeqNode}
    (hall : seqOrderOf nodes = some all) (hindex : index ≤ (visibleOf dead all).length) :
    ∃ parent side, attachPoint all dead index = some (parent, side) ∧
      (parent = .empty ∨ ∃ n ∈ nodes, n.id = parent) ∧ (side = kSideLeft ∨ side = kSideRight) ∧
      ∃ pre post, all = pre ++ post ∧ (visibleOf dead pre).length = index ∧
        ∀ {new : SeqNode} {nodes' : List SeqNode}, Unnamed nodes new.id → new.parent = parent →
          new.side = side → nodes'.Perm (new :: nodes) →
            seqOrderOf nodes' = some (pre ++ new :: post) := by
  obtain ⟨out, hrun, hemits, hnodup, hmem⟩ := h.exists_order
  obtain rfl : out = all := Option.some.inj (hrun.symm.trans hall)
  rw [attachPoint]
  rcases Nat.eq_zero_or_pos index with rfl | hpos
  · -- nothing is before the first element of all, and nothing is on its left
    rw [scanVisible_reached, if_neg (Nat.not_lt.mpr le_rfl)]
    cases out with
    | nil =>
      have hnone : nodes = [] := List.eq_nil_iff_forall_not_mem.mpr fun n hn =>
        nomatch (hmem n).mpr hn
      refine ⟨_, _, rfl, .inl rfl, .inr rfl, [], [], rfl, rfl, ?_⟩
      intro new nodes' hid hparent hside hp
      rw [hnone] at hp
      rw [List.perm_singleton.mp hp]
      exact seqOrderOf_first hid.1 hparent
    | cons r out =>
      refine ⟨_, _, rfl, .inr ⟨r, (hmem r).mp (List.mem_cons_self ..), rfl⟩, .inl rfl, [], r :: out,
        rfl, rfl, ?_⟩
      intro new nodes' hid hparent hside hp
      have hleft : children nodes false r.id = [] := hemits.head r rfl
      exact @seqOrderOf_attach_left nodes nodes' new h hid hp [] out r hall hleft hparent hside
  · obtain ⟨pre, l, post, rfl, hcount, hscan⟩ := @scanVisible_within dead index out 0 0 none hpos
      (by omega)
    rw [hscan, if_neg (Nat.not_lt.mpr le_rfl)]
    dsimp only
    rw [Nat.zero_add] at hcount ⊢
    have hl : l ∈ nodes := (hmem l).mp (List.mem_append_right _ (List.mem_cons_self ..))
    have hsplit : pre ++ l :: post = (pre ++ [l]) ++ post := by simp
    by_cases hright : hasRightChild (pre ++ l :: post) l.id = true
    · -- the next element is the first on the right of `l`, and nothing is on its left
      have hkids := (hasRightChild_iff h hmem).mp hright
      have hnext : (pre ++ l :: post)[pre.length + 1]? = post[0]? := by
        rw [hsplit, List.getElem?_append_right (by simp)]
        simp
      rw [hright, Bool.not_true, if_neg Bool.false_ne_true, hnext]
      cases post with
      | nil => exact absurd (hemits.last l (by simp)) hkids
      | cons r post =>
        have hr : r ∈ nodes := (hmem r).mp (by simp)
        refine ⟨_, _, rfl, .inr ⟨r, hr, rfl⟩, .inl rfl, pre ++ [l], r :: post, hsplit, hcount, ?_⟩
        intro new nodes' hid hparent hside hp
        have hleft : children nodes false r.id = [] :=
          (List.isChain_append_cons_cons.mp hemits.neighbours).2.1 hkids
        rw [hsplit] at hall
        exact seqOrderOf_attach_left h hid hp hall hleft hparent hside
    · -- nothing is on the right of `l`
      have hnone : children nodes true l.id = [] := by
        by_contra hne
        exact hright ((hasRightChild_iff h hmem).mpr hne)
      rw [Bool.eq_false_iff.mpr hright, Bool.not_false, if_pos rfl]
      refine ⟨_, _, rfl, .inr ⟨l, hl, rfl⟩, .inr rfl, pre ++ [l], post, hsplit, hcount, ?_⟩
      intro new nodes' hid hparent hside hp
      rw [seqOrderOf_attach_right h hid hp hall hnone hparent hside]
      simp

/-- The element at a visible index is that of the visible elements. -/
theorem visibleAt_eq : ∀ {all : List SeqNode} {visible : ℕ}, visible ≤ index →
    visibleAt dead index all visible = (visibleOf dead all)[index - visible]? := by
  intro all
  induction all with
  | nil => exact fun {_} _ => rfl
  | cons n rest ih =>
    intro visible hle
    rw [visibleAt]
    by_cases hdead : dead n.id = true
    · have hsame : visibleOf dead (n :: rest) = visibleOf dead rest := by simp [visibleOf, hdead]
      rw [if_pos hdead, hsame, ih hle]
    · have hmore : visibleOf dead (n :: rest) = n :: visibleOf dead rest := by
        simp [visibleOf, hdead]
      rw [if_neg hdead, hmore]
      split_ifs with heq
      · rw [heq, Nat.sub_self]
        rfl
      · have hsub : index - visible = index - (visible + 1) + 1 := by omega
        rw [ih (by omega), hsub, List.getElem?_cons_succ]

/-! ### The visible elements -/

theorem insertIdx_length {α : Type} (xs ys : List α) (a : α) :
    (xs ++ ys).insertIdx xs.length a = xs ++ a :: ys := by
  induction xs with
  | nil => rfl
  | cons x xs ih => rw [List.cons_append, List.length_cons, List.insertIdx_succ_cons, ih]; rfl

/-- An element more, where it lands. -/
theorem visibleOf_insert {pre post : List SeqNode} (hdead : dead new.id = false) :
    visibleOf dead (pre ++ new :: post) =
      (visibleOf dead (pre ++ post)).insertIdx (visibleOf dead pre).length new := by
  have hone : visibleOf dead (new :: post) = new :: visibleOf dead post := by
    simp [visibleOf, hdead]
  have happ : ∀ xs ys, visibleOf dead (xs ++ ys) = visibleOf dead xs ++ visibleOf dead ys :=
    fun xs ys => List.filter_append ..
  rw [happ, hone, happ, insertIdx_length]

/-- An element less: the others keep their order. -/
theorem visibleOf_erase {all : List SeqNode} (hd : (all.map SeqNode.id).Nodup) {n : SeqNode}
    (hn : (visibleOf dead all)[index]? = some n) :
    visibleOf (fun t => dead t || t == n.id) all = (visibleOf dead all).eraseIdx index := by
  have hsame : visibleOf (fun t => dead t || t == n.id) all =
      (visibleOf dead all).filter fun m => m.id != n.id := by
    unfold visibleOf
    rw [List.filter_filter]
    refine List.filter_congr fun m _ => ?_
    rw [Bool.not_or, Bool.and_comm]
    rfl
  have hd' : ((visibleOf dead all).map SeqNode.id).Nodup :=
    hd.sublist (List.filter_sublist.map SeqNode.id)
  obtain ⟨hlt, hget⟩ := List.getElem?_eq_some_iff.mp hn
  have hsplit := List.take_append_drop index (visibleOf dead all)
  rw [List.drop_eq_getElem_cons hlt, hget] at hsplit
  rw [hsame]
  generalize visibleOf dead all = vis at *
  rw [← hsplit] at hd' ⊢
  have hlen : (vis.take index).length = index := List.length_take_of_le hlt.le
  generalize vis.take index = xs at *
  generalize vis.drop (index + 1) = ys at *
  rw [List.map_append, List.map_cons] at hd'
  obtain ⟨-, hys, hdisj⟩ := List.nodup_append.mp hd'
  have hkeep : ∀ l : List SeqNode, (∀ m ∈ l, m.id ≠ n.id) → l.filter (fun m => m.id != n.id) = l :=
    fun l hl => List.filter_eq_self.mpr fun m hm => bne_iff_ne.mpr (hl m hm)
  rw [List.filter_append, List.filter_cons_of_neg (by simp), hkeep xs ?_, hkeep ys ?_,
    List.eraseIdx_append_of_length_le hlen.le, hlen, Nat.sub_self]
  · rfl
  · intro m hm heq
    exact (List.nodup_cons.mp hys).1 (heq ▸ List.mem_map_of_mem hm)
  · intro m hm heq
    exact hdisj m.id (List.mem_map_of_mem hm) n.id (List.mem_cons_self ..) heq

end

end VoidPalabra
