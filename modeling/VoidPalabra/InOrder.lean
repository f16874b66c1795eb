import Mathlib.Logic.Relation
import Mathlib.Data.List.Chain
import Mathlib.Data.List.Nodup
import Mathlib.Data.Set.Finite.Basic
import Mathlib.Order.WellFounded

/-!
# In-order traversal with an explicit stack

A node has left and right children. The traversal emits what is below its left children, the node,
and what is below its right children; it keeps a stack of nodes with a stage each, since a long
chain is a deep recursion. `Emits` says what the traversal emits as a derivation tree, and the
machine follows it (`run_emits`).

Nothing says that the children form a tree. Where a node has at most one parent and no node is
above itself, everything below the nodes that are entered is emitted, once, and each subtree in one
piece (`Emits.nodup`, `mem_emits_iff`, `Emits.around`). Attaching a node where there was no child
puts it next to the node it is attached to and moves nothing else (`Emits.graft`).
-/

namespace InOrder

variable {α : Type}

/-- How far the traversal is with a node. -/
inductive Stage where
  /-- The left children come next. -/
  | enter
  /-- The node itself comes next. -/
  | emit
  /-- The right children come next. -/
  | leave
  deriving DecidableEq

/-- The machine: a stack of nodes with their stages, and what was emitted. None where the fuel runs
out. -/
def run (left right : α → List α) : ℕ → List (α × Stage) → List α → Option (List α)
  | _, [], out => some out
  | 0, _ :: _, _ => none
  | fuel + 1, (n, .enter) :: stack, out =>
    run left right fuel ((left n).map (·, .enter) ++ (n, .emit) :: stack) out
  | fuel + 1, (n, .emit) :: stack, out => run left right fuel ((n, .leave) :: stack) (out ++ [n])
  | fuel + 1, (n, .leave) :: stack, out =>
    run left right fuel ((right n).map (·, .enter) ++ stack) out

/-- What is emitted for the nodes of a list. -/
inductive Emits (left right : α → List α) : List α → List α → Prop
  /-- No nodes. -/
  | nil : Emits left right [] []
  /-- One node more. -/
  | cons {n : α} {rest l r out : List α} (hl : Emits left right (left n) l)
    (hr : Emits left right (right n) r) (ho : Emits left right rest out) :
    Emits left right (n :: rest) (l ++ n :: (r ++ out))

/-- `m` is a child of `n`. -/
def Child (left right : α → List α) (m n : α) : Prop := m ∈ left n ∨ m ∈ right n

/-- `m` is `n` or below it. -/
def Below (left right : α → List α) : α → α → Prop := Relation.ReflTransGen (Child left right)

section
variable {left right : α → List α} {ns out : List α} {m n : α}

/-- **The machine emits what the derivation says**, in three steps a node. -/
theorem run_emits (h : Emits left right ns out) (fuel : ℕ) (stack : List (α × Stage))
    (acc : List α) :
    run left right (fuel + 3 * out.length) (ns.map (·, .enter) ++ stack) acc =
      run left right fuel stack (acc ++ out) := by
  induction h generalizing fuel stack acc with
  | nil => simp
  | @cons n rest l r out hl hr ho ihl ihr iho =>
    have hfuel : fuel + 3 * (l ++ n :: (r ++ out)).length =
        (((fuel + 3 * out.length) + 3 * r.length + 1 + 1) + 3 * l.length) + 1 := by
      simp only [List.length_append, List.length_cons]
      omega
    rw [hfuel, List.map_cons, List.cons_append, run, ihl, run, run, ihr, iho]
    simp

/-- A stack that is emitted whole. -/
theorem run_eq_some (h : Emits left right ns out) {fuel : ℕ} (hf : 3 * out.length ≤ fuel) :
    run left right fuel (ns.map (·, .enter)) [] = some out := by
  obtain ⟨more, rfl⟩ := Nat.exists_eq_add_of_le' hf
  have := run_emits h more [] []
  rw [List.append_nil, List.nil_append] at this
  rw [this]
  cases more <;> rfl

/-- The derivation is unique. -/
theorem Emits.unique {out' : List α} (h : Emits left right ns out) (h' : Emits left right ns out') :
    out = out' := by
  induction h generalizing out' with
  | nil => cases h'; rfl
  | cons hl hr ho ihl ihr iho =>
    cases h' with
    | cons hl' hr' ho' => rw [ihl hl', ihr hr', iho ho']

theorem Emits.append {ns' out' : List α} (h : Emits left right ns out)
    (h' : Emits left right ns' out') : Emits left right (ns ++ ns') (out ++ out') := by
  induction h with
  | nil => exact h'
  | cons hl hr ho ihl ihr iho =>
    have := Emits.cons hl hr iho
    simpa using this

/-! ### Where there is a derivation -/

/-- Below a node that is not above itself the derivation ends. -/
theorem exists_emits (h : ∀ n ∈ ns, Acc (Child left right) n) : ∃ out, Emits left right ns out := by
  have hone : ∀ n, Acc (Child left right) n → ∃ out, Emits left right [n] out := by
    intro n hn
    induction hn with
    | intro n _ ih =>
      have hlist : ∀ {ks : List α}, (∀ k ∈ ks, Child left right k n) →
          ∃ out, Emits left right ks out := by
        intro ks hks
        induction ks with
        | nil => exact ⟨[], .nil⟩
        | cons k ks ihk =>
          obtain ⟨o, ho⟩ := ih k (hks k (List.mem_cons_self ..))
          obtain ⟨os, hos⟩ := ihk fun k' hk' => hks k' (List.mem_cons_of_mem _ hk')
          exact ⟨o ++ os, ho.append hos⟩
      obtain ⟨l, hl⟩ := hlist fun _ hk => .inl hk
      obtain ⟨r, hr⟩ := hlist fun _ hk => .inr hk
      exact ⟨_, .cons hl hr .nil⟩
  induction ns with
  | nil => exact ⟨[], .nil⟩
  | cons n ns ih =>
    obtain ⟨o, ho⟩ := hone n (h n (List.mem_cons_self ..))
    obtain ⟨os, hos⟩ := ih fun n' hn' => h n' (List.mem_cons_of_mem _ hn')
    exact ⟨o ++ os, ho.append hos⟩

/-- Conversely, a node that is emitted is not above itself. -/
theorem Emits.acc (h : Emits left right ns out) : ∀ n ∈ ns, Acc (Child left right) n := by
  induction h with
  | nil => exact List.forall_mem_nil _
  | cons hl hr ho ihl ihr iho =>
    refine List.forall_mem_cons.mpr ⟨⟨_, fun m hm => ?_⟩, iho⟩
    rcases hm with hm | hm
    · exact ihl m hm
    · exact ihr m hm

/-- No node is above itself where the descent ends. -/
theorem irrefl_of_acc (h : Acc (Child left right) n) :
    ¬Relation.TransGen (Child left right) n n := by
  intro hloop
  have htrans := Acc.transGen h
  clear h
  induction htrans with
  | intro n _ ih => exact ih n hloop hloop

/-! ### What is emitted -/

/-- **What is emitted is what is below the nodes.** -/
theorem mem_emits_iff (h : Emits left right ns out) :
    m ∈ out ↔ ∃ n ∈ ns, Below left right m n := by
  induction h with
  | nil => simp
  | @cons n rest l r out hl hr ho ihl ihr iho =>
    have hbelow : Below left right m n ↔ m ∈ l ∨ m = n ∨ m ∈ r := by
      unfold Below at ihl ihr ⊢
      rw [Relation.ReflTransGen.cases_tail_iff, ihl, ihr]
      constructor
      · rintro (rfl | ⟨k, hk, hkl | hkr⟩)
        · exact .inr (.inl rfl)
        · exact .inl ⟨k, hkl, hk⟩
        · exact .inr (.inr ⟨k, hkr, hk⟩)
      · rintro (⟨k, hkl, hk⟩ | rfl | ⟨k, hkr, hk⟩)
        · exact .inr ⟨k, hk, .inl hkl⟩
        · exact .inl rfl
        · exact .inr ⟨k, hk, .inr hkr⟩
    simp only [List.mem_append, List.mem_cons, exists_eq_or_imp, ← iho, hbelow]
    tauto

/-- Each subtree is emitted in one piece, the node between what is left and right of it. -/
theorem Emits.around (h : Emits left right ns out) (hn : n ∈ out) :
    ∃ before l r after, out = before ++ (l ++ n :: r) ++ after ∧
      Emits left right (left n) l ∧ Emits left right (right n) r := by
  induction h with
  | nil => cases hn
  | @cons k rest l r out hl hr ho ihl ihr iho =>
    rcases List.mem_append.mp hn with hn | hn
    · obtain ⟨b, l', r', a, rfl, hl', hr'⟩ := ihl hn
      exact ⟨b, l', r', a ++ k :: (r ++ out), by simp, hl', hr'⟩
    · rcases List.mem_cons.mp hn with rfl | hn
      · exact ⟨[], l, r, out, by simp, hl, hr⟩
      · rcases List.mem_append.mp hn with hn | hn
        · obtain ⟨b, l', r', a, rfl, hl', hr'⟩ := ihr hn
          exact ⟨l ++ k :: b, l', r', a ++ out, by simp, hl', hr'⟩
        · obtain ⟨b, l', r', a, rfl, hl', hr'⟩ := iho hn
          exact ⟨l ++ k :: (r ++ b), l', r', a, by simp, hl', hr'⟩

/-- At most one parent among the nodes of `S`, to which every child belongs, and no child twice. -/
structure IsForest (S : α → Prop) (left right : α → List α) : Prop where
  /-- A child is a node. -/
  child : ∀ {m n}, Child left right m n → S m
  /-- A child has one parent. -/
  parent : ∀ {m n n'}, S n → S n' → Child left right m n → Child left right m n' → n = n'
  /-- No child is there twice. -/
  nodup : ∀ n, (left n ++ right n).Nodup

/-- No node of the list is below another. -/
def Apart (left right : α → List α) (ns : List α) : Prop :=
  ∀ a ∈ ns, ∀ b ∈ ns, Below left right a b → a = b

variable {S : α → Prop}

theorem IsForest.of_below (F : IsForest S left right) (h : Below left right m n) (hn : S n) : S m := by
  rcases Relation.ReflTransGen.cases_head h with rfl | ⟨k, hk, -⟩
  · exact hn
  · exact F.child hk

/-- Of two nodes with a common node below them, one is below the other. -/
theorem IsForest.comparable (F : IsForest S left right) {a b : α} (ha : Below left right m a)
    (hb : Below left right m b) (hSa : S a) (hSb : S b) :
    Below left right a b ∨ Below left right b a := by
  induction ha using Relation.ReflTransGen.head_induction_on with
  | refl => exact .inl hb
  | @head m k hmk hka ih =>
    rcases Relation.ReflTransGen.cases_head hb with rfl | ⟨k', hmk', hkb⟩
    · exact .inr (.head hmk hka)
    · obtain rfl := F.parent (F.of_below hka hSa) (F.of_below hkb hSb) hmk hmk'
      exact ih hkb

/-- The children of a node that is not above itself are apart. -/
theorem IsForest.apart (F : IsForest S left right) (h : Acc (Child left right) n) (hn : S n) :
    Apart left right (left n ++ right n) := by
  intro a ha b hb hab
  have hbn := List.mem_append.mp hb
  rcases Relation.ReflTransGen.cases_head hab with rfl | ⟨k, hak, hkb⟩
  · rfl
  · obtain rfl := F.parent hn (F.of_below hkb (F.child hbn)) (List.mem_append.mp ha) hak
    exact absurd (Relation.TransGen.tail' hkb hbn) (irrefl_of_acc h)

/-- Lists of nodes that are apart emit nothing in common. -/
theorem IsForest.disjoint (F : IsForest S left right) {ns ns' out out' : List α}
    (h : Emits left right ns out) (h' : Emits left right ns' out') (hS : ∀ n ∈ ns ++ ns', S n)
    (hd : (ns ++ ns').Nodup) (ha : Apart left right (ns ++ ns')) :
    ∀ a ∈ out, ∀ b ∈ out', a ≠ b := by
  rintro a hm _ hm' rfl
  obtain ⟨n, hn, hmn⟩ := (mem_emits_iff h).mp hm
  obtain ⟨n', hn', hmn'⟩ := (mem_emits_iff h').mp hm'
  have hne : n ≠ n' := (List.nodup_append.mp hd).2.2 n hn n' hn'
  have hin := List.mem_append_left ns' hn
  have hin' := List.mem_append_right ns hn'
  rcases F.comparable hmn hmn' (hS n hin) (hS n' hin') with hb | hb
  · exact hne (ha n hin n' hin' hb)
  · exact hne (ha n' hin' n hin hb).symm

/-- **Nothing is emitted twice.** -/
theorem Emits.nodup (F : IsForest S left right) (h : Emits left right ns out)
    (hS : ∀ n ∈ ns, S n) (hd : ns.Nodup) (ha : Apart left right ns) : out.Nodup := by
  have hacc := h.acc
  induction h with
  | nil => exact List.nodup_nil
  | @cons n rest l r out hl hr ho ihl ihr iho =>
    have hn := hacc n (List.mem_cons_self ..)
    have hSn := hS n (List.mem_cons_self ..)
    have hkids := F.nodup n
    have hapart := F.apart hn hSn
    have hSk : ∀ k ∈ left n ++ right n, S k := fun k hk => F.child (List.mem_append.mp hk)
    have hlr := F.disjoint hl hr hSk hkids hapart
    have hone : Emits left right [n] (l ++ n :: r) := by
      have := Emits.cons hl hr .nil
      rwa [List.append_nil] at this
    have hrest := F.disjoint hone ho (by simpa using hS) (by simpa using hd) (by simpa using ha)
    have hnot : ∀ ks out', (∀ k ∈ ks, Child left right k n) → Emits left right ks out' → n ∉ out' := by
      intro ks out' hks he hm
      obtain ⟨k, hk, hnk⟩ := (mem_emits_iff he).mp hm
      exact irrefl_of_acc hn (Relation.TransGen.tail' hnk (hks k hk))
    have hnl := hnot _ _ (fun _ hk => .inl hk) hl
    have hnr := hnot _ _ (fun _ hk => .inr hk) hr
    have hl' := ihl (fun k hk => hSk k (List.mem_append_left _ hk)) hkids.of_append_left
      (fun a ha b hb => hapart a (List.mem_append_left _ ha) b (List.mem_append_left _ hb)) hl.acc
    have hr' := ihr (fun k hk => hSk k (List.mem_append_right _ hk)) hkids.of_append_right
      (fun a ha b hb => hapart a (List.mem_append_right _ ha) b (List.mem_append_right _ hb)) hr.acc
    have ho' := iho (fun k hk => hS k (List.mem_cons_of_mem _ hk)) hd.of_cons
      (fun a hin b hbn => ha a (List.mem_cons_of_mem _ hin) b (List.mem_cons_of_mem _ hbn)) ho.acc
    have hleft : (l ++ n :: r).Nodup := by
      refine List.nodup_append.mpr ⟨hl', List.nodup_cons.mpr ⟨hnr, hr'⟩, fun a hm b hb => ?_⟩
      rcases List.mem_cons.mp hb with rfl | hb
      · exact fun h => hnl (h ▸ hm)
      · exact hlr a hm b hb
    have hall := List.nodup_append.mpr ⟨hleft, ho', hrest⟩
    simpa using hall

/-- Among finitely many nodes, none of which is above itself, the descent ends. -/
theorem acc_of_irrefl {nodes : List α} (hS : ∀ {m n}, Child left right m n → S n → S m ∧ m ∈ nodes)
    (hirr : ∀ n, S n → ¬Relation.TransGen (Child left right) n n) (hn : S n) :
    Acc (Child left right) n := by
  have hdown : ∀ {a b}, Relation.TransGen (Child left right) a b → S b → S a ∧ a ∈ nodes := by
    intro a b hab hb
    induction hab using Relation.TransGen.head_induction_on with
    | single h => exact hS h hb
    | head h _ ih => exact hS h ih.1
  let r : {x // x ∈ nodes ∧ S x} → {x // x ∈ nodes ∧ S x} → Prop :=
    fun a b => Relation.TransGen (Child left right) a b
  have hfin : Finite {x // x ∈ nodes ∧ S x} :=
    ((List.finite_toSet nodes).subset fun _ hx => hx.1).to_subtype
  have htrans : IsTrans _ r := ⟨fun _ _ _ h k => h.trans k⟩
  have hirrefl : Std.Irrefl r := ⟨fun a h => hirr a a.2.2 h⟩
  have hwf : WellFounded r := Finite.wellFounded_of_trans_of_irrefl r
  have hin : ∀ a : {x // x ∈ nodes ∧ S x}, Acc (Child left right) a.1 := by
    intro a
    induction a using hwf.induction with
    | _ a ih =>
      refine ⟨_, fun m hm => ?_⟩
      obtain ⟨hSm, hmem⟩ := hS hm a.2.2
      exact ih ⟨m, hmem, hSm⟩ (.single hm)
  refine ⟨_, fun m hm => ?_⟩
  obtain ⟨hSm, hmem⟩ := hS hm hn
  exact hin ⟨m, hmem, hSm⟩

/-! ### Neighbours -/

theorem Emits.eq_nil (h : Emits left right ns []) : ns = [] := by
  generalize hout : [] = out at h
  cases h with
  | nil => rfl
  | cons hl hr ho => simp at hout

/-- Nothing is left of the first node that is emitted. -/
theorem Emits.head (h : Emits left right ns out) : ∀ n ∈ out.head?, left n = [] := by
  induction h with
  | nil => nofun
  | @cons n rest l r out hl hr ho ihl ihr iho =>
    intro m hm
    cases l with
    | nil =>
      cases hm
      exact hl.eq_nil
    | cons a l => exact ihl m hm

/-- Nothing is right of the last one. -/
theorem Emits.last (h : Emits left right ns out) : ∀ n ∈ out.getLast?, right n = [] := by
  induction h with
  | nil => nofun
  | @cons n rest l r out hl hr ho ihl ihr iho =>
    intro m hm
    rw [List.getLast?_append, List.getLast?_cons, Option.mem_def, Option.some_or,
      List.getLast?_append] at hm
    cases hout : out.getLast? with
    | some x =>
      rw [hout] at hm
      cases hm
      exact iho x hout
    | none =>
      rw [hout, Option.none_or] at hm
      cases hrl : r.getLast? with
      | some x =>
        rw [hrl] at hm
        cases hm
        exact ihr x hrl
      | none =>
        rw [hrl] at hm
        cases hm
        obtain rfl := List.getLast?_eq_none_iff.mp hrl
        exact hr.eq_nil

/-- **Of two neighbours, the first has nothing on its right or the second nothing on its left.** -/
theorem Emits.neighbours (h : Emits left right ns out) :
    out.IsChain fun p q => right p ≠ [] → left q = [] := by
  induction h with
  | nil => exact .nil
  | @cons n rest l r out hl hr ho ihl ihr iho =>
    have hlast : ∀ x ∈ l.getLast?, ∀ y ∈ (n :: (r ++ out)).head?, right x ≠ [] → left y = [] :=
      fun x hx y _ hne => absurd (hl.last x hx) hne
    have hlater : (r ++ out).IsChain fun p q => right p ≠ [] → left q = [] :=
      List.isChain_append.mpr ⟨ihr, iho, fun x hx y _ hne => absurd (hr.last x hx) hne⟩
    have hfirst : ∀ y ∈ (r ++ out).head?, right n ≠ [] → left y = [] := by
      intro y hy hne
      cases r with
      | nil => exact absurd hr.eq_nil hne
      | cons x r => exact hr.head y hy
    exact List.isChain_append.mpr ⟨ihl, List.isChain_cons.mpr ⟨hfirst, hlater⟩, hlast⟩

/-! ### A new node -/

/-- A node without children. -/
theorem emits_leaf (hl : left n = []) (hr : right n = []) : Emits left right [n] [n] := by
  have hl' : Emits left right (left n) [] := by rw [hl]; exact .nil
  have hr' : Emits left right (right n) [] := by rw [hr]; exact .nil
  exact .cons hl' hr' .nil

/-- **A node attached where there was no child is emitted next to the node it is attached to.** -/
theorem Emits.graft {left' right' : α → List α} {beside : α → List α}
    (h : Emits left right ns out)
    (hbeside : ∀ n ∈ out, ∃ l r, beside n = l ++ n :: r ∧
      (left n = left' n ∧ l = [] ∨ left n = [] ∧ Emits left' right' (left' n) l) ∧
      (right n = right' n ∧ r = [] ∨ right n = [] ∧ Emits left' right' (right' n) r)) :
    Emits left' right' ns (out.flatMap beside) := by
  induction h with
  | nil => exact .nil
  | @cons n rest l r out hl hr ho ihl ihr iho =>
    have hl' := ihl fun m hm => hbeside m (List.mem_append_left _ hm)
    have hr' := ihr fun m hm => hbeside m
      (List.mem_append_right _ (List.mem_cons_of_mem _ (List.mem_append_left _ hm)))
    have ho' := iho fun m hm => hbeside m
      (List.mem_append_right _ (List.mem_cons_of_mem _ (List.mem_append_right _ hm)))
    obtain ⟨ln, rn, hn, hcl, hcr⟩ := hbeside n (List.mem_append_right _ (List.mem_cons_self ..))
    have hleft : Emits left' right' (left' n) (l.flatMap beside ++ ln) := by
      rcases hcl with ⟨hsame, rfl⟩ | ⟨hnone, hemit⟩
      · rwa [List.append_nil, ← hsame]
      · rw [hnone] at hl
        cases hl
        exact hemit
    have hright : Emits left' right' (right' n) (rn ++ r.flatMap beside) := by
      rcases hcr with ⟨hsame, rfl⟩ | ⟨hnone, hemit⟩
      · rwa [List.nil_append, ← hsame]
      · rw [hnone] at hr
        cases hr
        rwa [List.flatMap_nil, List.append_nil]
    have := Emits.cons hleft hright ho'
    simpa [hn] using this

/-- A node without children, attached on the right of `p` where there was nothing. -/
theorem Emits.graft_right {left' right' : α → List α} {new p : α} [DecidableEq α]
    (h : Emits left right ns out) (hp : right p = []) (hl : ∀ n ∈ out, left' n = left n)
    (hr : ∀ n ∈ out, right' n = if n = p then [new] else right n)
    (hleaf : left' new = [] ∧ right' new = []) :
    Emits left' right' ns (out.flatMap fun n => if n = p then [p, new] else [n]) := by
  refine h.graft fun n hn => ?_
  by_cases hnp : n = p
  · refine ⟨[], [new], by rw [if_pos hnp, hnp]; rfl, .inl ⟨(hl n hn).symm, rfl⟩,
      .inr ⟨hnp ▸ hp, ?_⟩⟩
    rw [hr n hn, if_pos hnp]
    exact emits_leaf hleaf.1 hleaf.2
  · refine ⟨[], [], by rw [if_neg hnp]; rfl, .inl ⟨(hl n hn).symm, rfl⟩, .inl ⟨?_, rfl⟩⟩
    rw [hr n hn, if_neg hnp]

/-- A node without children, attached on the left of `p` where there was nothing. -/
theorem Emits.graft_left {left' right' : α → List α} {new p : α} [DecidableEq α]
    (h : Emits left right ns out) (hp : left p = [])
    (hl : ∀ n ∈ out, left' n = if n = p then [new] else left n)
    (hr : ∀ n ∈ out, right' n = right n) (hleaf : left' new = [] ∧ right' new = []) :
    Emits left' right' ns (out.flatMap fun n => if n = p then [new, p] else [n]) := by
  refine h.graft fun n hn => ?_
  by_cases hnp : n = p
  · refine ⟨[new], [], by rw [if_pos hnp, hnp]; rfl, .inr ⟨hnp ▸ hp, ?_⟩,
      .inl ⟨(hr n hn).symm, rfl⟩⟩
    rw [hl n hn, if_pos hnp]
    exact emits_leaf hleaf.1 hleaf.2
  · refine ⟨[], [], by rw [if_neg hnp]; rfl, .inl ⟨?_, rfl⟩, .inl ⟨(hr n hn).symm, rfl⟩⟩
    rw [hl n hn, if_neg hnp]

end

end InOrder
