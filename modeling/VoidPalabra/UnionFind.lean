import Mathlib.Data.List.Perm.Basic
import Mathlib.Data.List.Nodup
import Mathlib.Logic.Relation
import Std.Data.ExtTreeMap

/-!
# Union-find with the least root

A forest of parents in which every parent is less than its child. Finding a root compresses
the path to it and terminates, since the parents go down through the finitely many children;
uniting two elements hangs the greater root under the less. The roots are the least elements
of the classes of the equivalence that the united pairs generate, whatever order they came in.
-/

namespace UnionFind

variable {α : Type} [Ord α] [Std.TransOrd α]

/-- The parents of the elements that are no roots. -/
abbrev Parents (α : Type) [Ord α] := Std.ExtTreeMap α α compare

/-- Follow the parents to the root, and hang every element on the way under it. -/
def findLoop : ℕ → Parents α → α → Option (α × Parents α)
  | 0, _, _ => none
  | fuel + 1, p, x =>
    match p[x]? with
    | none => some (x, p)
    | some y => do
      let (root, p) ← findLoop fuel p y
      pure (root, p.insert x root)

/-- The root of an element. There are no more steps than children. -/
def find (p : Parents α) (x : α) : Option (α × Parents α) := findLoop (p.size + 1) p x

/-- Make two classes one: the less root becomes the root. -/
def unite (p : Parents α) (a b : α) : Option (Parents α) := do
  let (ra, p) ← find p a
  let (rb, p) ← find p b
  if compare ra rb = .eq then pure p
  else if compare rb ra = .lt then pure (p.insert ra rb)
  else pure (p.insert rb ra)

/-- Unite the pairs of a list. -/
def uniteAll : List (α × α) → Parents α → Option (Parents α)
  | [], p => some p
  | (a, b) :: rest, p => do
    let p ← unite p a b
    uniteAll rest p

/-- The element at the end of the parents of another. -/
inductive Root (p : Parents α) : α → α → Prop
  /-- An element without a parent. -/
  | self {x : α} (h : p[x]? = none) : Root p x x
  /-- The root of the parent. -/
  | up {x y r : α} (h : p[x]? = some y) (hr : Root p y r) : Root p x r

/-- Every parent is less than its child. -/
def Down (p : Parents α) : Prop := ∀ x y : α, p[x]? = some y → compare y x = .lt

omit [Std.TransOrd α] in
/-- Nothing is less than itself. -/
theorem ne_of_lt [Std.ReflOrd α] {x y : α} (h : compare x y = .lt) : x ≠ y := by
  rintro rfl
  rw [@Std.ReflCmp.compare_self _ compare _ x] at h
  cases h

section

variable {p p' : Parents α} {x y z r s a b : α}

theorem Root.unique (h : Root p x r) (h' : Root p x s) : r = s := by
  induction h with
  | self hn =>
    cases h' with
    | self _ => rfl
    | up hy _ =>
      rw [hn] at hy
      cases hy
  | up hy _ ih =>
    cases h' with
    | self hn =>
      rw [hn] at hy
      cases hy
    | up hy' hr' =>
      rw [hy] at hy'
      cases hy'
      exact ih hr'

/-- A root has no parent. -/
theorem Root.root (h : Root p x r) : p[r]? = none := by
  induction h with
  | self hn => exact hn
  | up _ _ ih => exact ih

theorem Root.idem (h : Root p x r) : Root p r r := .self h.root

/-- A root is not above its element. -/
theorem Root.le (hd : Down p) (h : Root p x r) : (compare r x).isLE = true := by
  induction h with
  | self _ => exact Std.ReflCmp.isLE_rfl
  | up hy _ ih => exact Std.TransCmp.isLE_trans ih (by rw [hd _ _ hy]; rfl)

variable [DecidableEq α] [Std.LawfulEqOrd α]

theorem getElem?_insert {β : Type} (d : Std.ExtTreeMap α β compare) (x : α) (y : β) (z : α) :
    (d.insert x y)[z]? = if x = z then some y else d[z]? := by
  rw [Std.ExtTreeMap.getElem?_insert]
  by_cases h : x = z
  · subst h
    rw [if_pos Std.ReflCmp.compare_self, if_pos rfl]
  · rw [if_neg h, if_neg fun he => h (Std.LawfulEqCmp.eq_of_compare he)]

/-! ### Compressing and linking -/

/-- Hanging an element under its root leaves every root as it is. -/
theorem Root.compress (hx : Root p x r) (hp : p[x]? = some y) (hz : Root p z s) :
    Root (p.insert x r) z s := by
  have hne : x ≠ r := by
    rintro rfl
    rw [hx.root] at hp
    cases hp
  have hr : (p.insert x r)[r]? = none := by rw [getElem?_insert, if_neg hne, hx.root]
  induction hz with
  | @self z hn =>
    refine .self ?_
    rw [getElem?_insert, if_neg, hn]
    rintro rfl
    rw [hn] at hp
    cases hp
  | @up z w s hw hs ih =>
    by_cases he : x = z
    · subst he
      rw [Root.unique (.up hw hs) hx]
      exact .up (by rw [getElem?_insert, if_pos rfl]) (.self hr)
    · exact .up (by rw [getElem?_insert, if_neg he, hw]) ih

/-- Hanging one root under another sends the elements of the one to the other. -/
theorem Root.link (ha : p[a]? = none) (hb : p[b]? = none) (hne : a ≠ b) (hz : Root p z s) :
    (s = b → Root (p.insert b a) z a) ∧ (s ≠ b → Root (p.insert b a) z s) := by
  have hra : Root (p.insert b a) a a := .self (by rw [getElem?_insert, if_neg (Ne.symm hne), ha])
  induction hz with
  | @self z hn =>
    refine ⟨?_, fun hs => .self (by rw [getElem?_insert, if_neg (Ne.symm hs), hn])⟩
    rintro rfl
    exact .up (by rw [getElem?_insert, if_pos rfl]) hra
  | @up z w s hw hs ih =>
    have hw' : (p.insert b a)[z]? = some w := by
      rw [getElem?_insert, if_neg, hw]
      rintro rfl
      rw [hb] at hw
      cases hw
    exact ⟨fun h => .up hw' (ih.1 h), fun h => .up hw' (ih.2 h)⟩

theorem Down.insert (hd : Down p) (h : compare a b = .lt) : Down (p.insert b a) := by
  intro x y hy
  rw [getElem?_insert] at hy
  split at hy
  · rename_i he
    cases hy
    exact he ▸ h
  · exact hd x y hy

/-! ### Finding -/

/-- How many children there are up to an element. -/
def childrenTo (p : Parents α) (x : α) : ℕ := (p.keys.filter fun k => (compare k x).isLE).length

omit [DecidableEq α] [Std.LawfulEqOrd α] in
theorem childrenTo_le (p : Parents α) (x : α) : childrenTo p x ≤ p.size :=
  Nat.le_trans (List.length_filter_le _ _) (Nat.le_of_eq Std.ExtTreeMap.length_keys)

omit [DecidableEq α] in
/-- There are fewer children up to the parent. -/
theorem childrenTo_lt (hd : Down p) (h : p[x]? = some y) : childrenTo p y < childrenTo p x := by
  have hlt := hd x y h
  have hnodup : (p.keys.filter fun k => (compare k y).isLE).Nodup :=
    Std.ExtTreeMap.nodup_keys.filter _
  have hnot : x ∉ p.keys.filter fun k => (compare k y).isLE := by
    intro hx
    have hle := (List.mem_filter.mp hx).2
    rw [@Std.OrientedCmp.eq_swap _ compare _ x y, hlt] at hle
    cases hle
  have hsub : x :: (p.keys.filter fun k => (compare k y).isLE) ⊆
      p.keys.filter fun k => (compare k x).isLE := by
    intro k hk
    rw [List.mem_filter]
    rcases List.mem_cons.mp hk with rfl | hk
    · refine ⟨Std.ExtTreeMap.mem_keys.mpr ?_, Std.ReflCmp.isLE_rfl⟩
      rw [Std.ExtTreeMap.mem_iff_isSome_getElem?, h]
      rfl
    · obtain ⟨hm, hle⟩ := List.mem_filter.mp hk
      exact ⟨hm, Std.TransCmp.isLE_trans hle (by rw [hlt]; rfl)⟩
  have hlen := (List.subperm_of_subset (List.nodup_cons.mpr ⟨hnot, hnodup⟩) hsub).length_le
  rw [List.length_cons] at hlen
  exact hlen

/-- Finding gives the root, and changes no root. -/
theorem findLoop_spec : ∀ {fuel : ℕ} {p : Parents α} {x : α}, Down p → childrenTo p x < fuel →
    ∃ r p', findLoop fuel p x = some (r, p') ∧ Root p x r ∧ Down p' ∧
      ∀ z s, Root p z s → Root p' z s := by
  intro fuel
  induction fuel with
  | zero => exact fun _ h => absurd h (Nat.not_lt_zero _)
  | succ fuel ih =>
    intro p x hd hfuel
    rw [findLoop]
    cases hx : p[x]? with
    | none => exact ⟨x, p, rfl, .self hx, hd, fun _ _ => id⟩
    | some y =>
      have hlt := childrenTo_lt hd hx
      obtain ⟨r, p', hr, hroot, hd', hkeep⟩ := ih (p := p) (x := y) hd (by omega)
      have hxr := hkeep x r (.up hx hroot)
      have hrx : compare r x = .lt := Std.TransCmp.lt_of_isLE_of_lt (hroot.le hd) (hd x y hx)
      obtain ⟨w, hw⟩ : ∃ w, p'[x]? = some w := by
        cases hn : p'[x]? with
        | some w => exact ⟨w, rfl⟩
        | none => exact absurd (hxr.unique (.self hn)) (ne_of_lt hrx)
      refine ⟨r, p'.insert x r, ?_, .up hx hroot, hd'.insert hrx, fun z s hz => ?_⟩
      · dsimp only
        rw [hr]
        rfl
      · exact hxr.compress hw (hkeep z s hz)

/-- Finding terminates. -/
theorem find_spec (hd : Down p) (x : α) : ∃ r p', find p x = some (r, p') ∧ Root p x r ∧ Down p' ∧
    ∀ z s, Root p z s → Root p' z s :=
  findLoop_spec hd (Nat.lt_succ_of_le (childrenTo_le p x))

/-! ### Classes -/

/-- A forest whose classes are those of the equivalence that a relation generates. -/
structure Forest (p : Parents α) (R : α → α → Prop) : Prop where
  /-- Parents are less than their children. -/
  down : Down p
  /-- Every element has a root. -/
  total : ∀ x, ∃ r, Root p x r
  /-- It is equivalent to it. -/
  sound : ∀ x r, Root p x r → Relation.EqvGen R x r
  /-- Related elements have one root. -/
  complete : ∀ x y, R x y → ∃ r, Root p x r ∧ Root p y r

variable {R R' : α → α → Prop}

omit [DecidableEq α] [Std.LawfulEqOrd α] in
theorem Forest.empty : Forest (∅ : Parents α) fun _ _ => False where
  down _ _ h := nomatch h
  total x := ⟨x, .self rfl⟩
  sound x r h := by
    cases h with
    | self _ => exact .refl _
    | up h _ => cases h
  complete _ _ h := h.elim

omit [DecidableEq α] [Std.LawfulEqOrd α] in
/-- Another forest with the same roots. -/
theorem Forest.of_roots (h : Forest p R) (hd : Down p') (hkeep : ∀ z s, Root p z s → Root p' z s) :
    Forest p' R where
  down := hd
  total x := by
    obtain ⟨r, hr⟩ := h.total x
    exact ⟨r, hkeep x r hr⟩
  sound x r hr := by
    obtain ⟨s, hs⟩ := h.total x
    rw [hr.unique (hkeep x s hs)]
    exact h.sound x s hs
  complete x y hxy := by
    obtain ⟨r, hx, hy⟩ := h.complete x y hxy
    exact ⟨r, hkeep x r hx, hkeep y r hy⟩

/-- Finding in a forest. -/
theorem Forest.find (h : Forest p R) (x : α) : ∃ r p', find p x = some (r, p') ∧ Root p x r ∧
    Forest p' R ∧ ∀ z s, Root p z s → Root p' z s := by
  obtain ⟨r, p', hr, hroot, hd, hkeep⟩ := find_spec h.down x
  exact ⟨r, p', hr, hroot, h.of_roots hd hkeep, hkeep⟩

omit [DecidableEq α] [Std.LawfulEqOrd α] in
/-- Two elements have one root exactly when they are equivalent. -/
theorem Forest.same_iff (h : Forest p R) : (∃ r, Root p x r ∧ Root p y r) ↔ Relation.EqvGen R x y := by
  constructor
  · rintro ⟨r, hx, hy⟩
    exact .trans _ _ _ (h.sound x r hx) (.symm _ _ (h.sound y r hy))
  · intro he
    induction he with
    | rel x y hxy => exact h.complete x y hxy
    | refl x =>
      obtain ⟨r, hr⟩ := h.total x
      exact ⟨r, hr, hr⟩
    | symm x y _ ih =>
      obtain ⟨r, hx, hy⟩ := ih
      exact ⟨r, hy, hx⟩
    | trans x y z _ _ ih ih' =>
      obtain ⟨r, hx, hy⟩ := ih
      obtain ⟨s, hy', hz⟩ := ih'
      obtain rfl := hy.unique hy'
      exact ⟨r, hx, hz⟩

omit [DecidableEq α] [Std.LawfulEqOrd α] in
/-- The root of an element is the least one equivalent to it. -/
theorem Forest.least (h : Forest p R) (hr : Root p x r) :
    Relation.EqvGen R x r ∧ ∀ y, Relation.EqvGen R x y → (compare r y).isLE = true := by
  refine ⟨h.sound x r hr, fun y hy => ?_⟩
  obtain ⟨s, hx, hys⟩ := h.same_iff.mpr hy
  obtain rfl := hr.unique hx
  exact hys.le h.down

omit [DecidableEq α] [Std.LawfulEqOrd α] in
theorem Forest.congr (h : Forest p R) (hR : ∀ x y, R x y ↔ R' x y) : Forest p R' := by
  have : R = R' := funext fun x => funext fun y => propext (hR x y)
  exact this ▸ h

/-- The relation with a pair more. -/
def Joined (R : α → α → Prop) (a b : α) (x y : α) : Prop := R x y ∨ x = a ∧ y = b

/-- Hanging the root of one of two elements under the root of the other. -/
theorem Forest.link (h : Forest p R) {a b s t : α} (hs : Root p s s) (ht : Root p t t)
    (hlt : compare s t = .lt)
    (hpair : Root p a s ∧ Root p b t ∨ Root p a t ∧ Root p b s) :
    Forest (p.insert t s) (Joined R a b) := by
  have hne : s ≠ t := ne_of_lt hlt
  have hto : ∀ z, Root p z t → Root (p.insert t s) z s := fun z hz =>
    (hz.link hs.root ht.root hne).1 rfl
  have hkeep : ∀ z r, Root p z r → r ≠ t → Root (p.insert t s) z r := fun z r hz hr =>
    (hz.link hs.root ht.root hne).2 hr
  have hmove : ∀ z r, Root p z r → Root (p.insert t s) z (if r = t then s else r) := by
    intro z r hz
    split
    · rename_i he
      exact hto z (he ▸ hz)
    · rename_i he
      exact hkeep z r hz he
  have hmono : ∀ {x y}, Relation.EqvGen R x y → Relation.EqvGen (Joined R a b) x y := fun he =>
    (Relation.EqvGen.mono (fun _ _ hr => Or.inl hr) _) _ he
  have hts : Relation.EqvGen (Joined R a b) t s := by
    have hab : Relation.EqvGen (Joined R a b) a b := .rel _ _ (.inr ⟨rfl, rfl⟩)
    rcases hpair with ⟨ha, hb⟩ | ⟨ha, hb⟩
    · exact .symm _ _ (.trans _ _ _ (.symm _ _ (hmono (h.sound a s ha)))
        (.trans _ _ _ hab (hmono (h.sound b t hb))))
    · exact .trans _ _ _ (.symm _ _ (hmono (h.sound a t ha)))
        (.trans _ _ _ hab (hmono (h.sound b s hb)))
  refine ⟨h.down.insert hlt, fun x => ?_, fun x r hr => ?_, fun x y hxy => ?_⟩
  · obtain ⟨r, hr⟩ := h.total x
    exact ⟨_, hmove x r hr⟩
  · obtain ⟨u, hu⟩ := h.total x
    rw [hr.unique (hmove x u hu)]
    split
    · rename_i he
      exact .trans _ _ _ (hmono (h.sound x t (he ▸ hu))) hts
    · exact hmono (h.sound x u hu)
  · rcases hxy with hxy | ⟨rfl, rfl⟩
    · obtain ⟨u, hx, hy⟩ := h.complete x y hxy
      exact ⟨_, hmove x u hx, hmove y u hy⟩
    · rcases hpair with ⟨ha, hb⟩ | ⟨ha, hb⟩
      · exact ⟨s, hkeep x s ha hne, hto y hb⟩
      · exact ⟨s, hto x ha, hkeep y s hb hne⟩

omit [DecidableEq α] [Std.LawfulEqOrd α] in
/-- A pair of one class adds nothing. -/
theorem Forest.joined (h : Forest p R) {r : α} (ha : Root p a r) (hb : Root p b r) :
    Forest p (Joined R a b) where
  down := h.down
  total := h.total
  sound x s hs := (Relation.EqvGen.mono (fun _ _ hr => Or.inl hr) _) _ (h.sound x s hs)
  complete x y hxy := by
    rcases hxy with hxy | ⟨rfl, rfl⟩
    · exact h.complete x y hxy
    · exact ⟨r, ha, hb⟩

/-- Uniting two elements adds a pair to the relation. -/
theorem Forest.unite (h : Forest p R) (a b : α) :
    ∃ p', unite p a b = some p' ∧ Forest p' (Joined R a b) := by
  obtain ⟨ra, p₁, ha, hra, h₁, hkeep₁⟩ := h.find a
  obtain ⟨rb, p₂, hb, hrb, h₂, hkeep₂⟩ := h₁.find b
  have hra₂ := hkeep₂ a ra (hkeep₁ a ra hra)
  have hrb₂ := hkeep₂ b rb hrb
  rw [UnionFind.unite, ha]
  simp only [Option.bind_eq_bind, Option.bind_some, hb]
  by_cases heq : compare ra rb = .eq
  · obtain rfl := Std.LawfulEqCmp.eq_of_compare heq
    exact ⟨p₂, if_pos heq, h₂.joined hra₂ hrb₂⟩
  · rw [if_neg heq]
    by_cases hlt : compare rb ra = .lt
    · exact ⟨_, if_pos hlt, h₂.link hrb₂.idem hra₂.idem hlt (.inr ⟨hra₂, hrb₂⟩)⟩
    · rw [if_neg hlt]
      have hlt' : compare ra rb = .lt := by
        rw [@Std.OrientedCmp.eq_swap _ compare _ rb ra] at hlt
        cases hc : compare ra rb with
        | lt => rfl
        | eq => exact absurd hc heq
        | gt =>
          rw [hc] at hlt
          exact absurd rfl hlt
      exact ⟨_, rfl, h₂.link hra₂.idem hrb₂.idem hlt' (.inl ⟨hra₂, hrb₂⟩)⟩

/-- Uniting the pairs of a list. -/
theorem Forest.uniteAll {pairs : List (α × α)} : ∀ {p : Parents α} {R : α → α → Prop}, Forest p R →
    ∃ p', uniteAll pairs p = some p' ∧ Forest p' fun x y => R x y ∨ (x, y) ∈ pairs := by
  induction pairs with
  | nil => exact fun {p _} h => ⟨p, rfl, h.congr (by simp)⟩
  | cons pair pairs ih =>
    intro p R h
    obtain ⟨a, b⟩ := pair
    obtain ⟨p₁, h₁, hf₁⟩ := h.unite a b
    obtain ⟨p₂, h₂, hf₂⟩ := ih hf₁
    refine ⟨p₂, ?_, hf₂.congr fun x y => ?_⟩
    · rw [UnionFind.uniteAll, h₁]
      exact h₂
    · rw [Joined, List.mem_cons, Prod.mk.injEq, or_assoc]

omit [DecidableEq α] [Std.LawfulEqOrd α] [Ord α] [Std.TransOrd α] in
/-- What is equivalent to something else is related to something. -/
theorem touched_of_eqvGen (h : Relation.EqvGen R x y) :
    x = y ∨ (∃ z, R x z ∨ R z x) ∧ ∃ z, R y z ∨ R z y := by
  induction h with
  | rel x y hxy => exact .inr ⟨⟨y, .inl hxy⟩, x, .inr hxy⟩
  | refl x => exact .inl rfl
  | symm x y _ ih =>
    rcases ih with rfl | ⟨hx, hy⟩
    · exact .inl rfl
    · exact .inr ⟨hy, hx⟩
  | trans x y z _ _ ih ih' =>
    rcases ih with rfl | ⟨hx, hy⟩
    · exact ih'
    · rcases ih' with rfl | ⟨-, hz⟩
      · exact .inr ⟨hx, hy⟩
      · exact .inr ⟨hx, hz⟩

end

end UnionFind
