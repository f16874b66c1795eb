import VoidPalabra.Links
import VoidPalabra.UnionFind

/-!
# The quotient of a state

Links under an equivalence label mean that two runes are one thing. The quotient is the smallest
equivalence that contains them: its classes of two and more, each sorted and named by its least
member. It is determined by the equivalence alone, so neither the order of the links nor the
order in which the union-find visits them is seen in it.
-/

namespace VoidPalabra

/-- `Slot`: which part of a link occupies what. -/
inductive Slot where
  /-- The rune it ends at. -/
  | to
  /-- The rune it begins at. -/
  | from
  /-- The rune at either end. -/
  | ends
  /-- A port of the rune at either end. -/
  | ports
  /-- A port of the rune it begins at. -/
  | fromPort
  /-- A port of the rune it ends at. -/
  | toPort
  deriving DecidableEq

/-- `Capacity`: how many links may occupy a slot. -/
structure Capacity where
  /-- The host's word for the rule. -/
  name : Bytes
  /-- Which links count. -/
  relation : Bytes := lit "*"
  /-- What they occupy. -/
  slot : Slot := .to
  /-- How many may. -/
  max : ℕ := 1
  /-- Whether a class of runes counts as one. -/
  throughEquivalence : Bool := false

/-- `LinkRules`. -/
structure LinkRules where
  /-- The labels of links that fuse. -/
  equivalence : List Bytes := []
  /-- The slots. -/
  capacity : List Capacity := []
  /-- The labels of links that close no cycle. -/
  acyclic : List Bytes := []

/-- `Quotient`. -/
structure Quotient where
  /-- The representative of each rune in a class. -/
  rep : Std.ExtTreeMap RuneRef RuneRef compare
  /-- The classes of two and more. -/
  classes : List (List RuneRef)

/-- `Quotient::representative`. -/
def Quotient.representative (q : Quotient) (r : RuneRef) : RuneRef := q.rep[r]?.getD r

/-- The pairs of runes that links fuse. -/
def fusedPairs (links : List Link) (rules : LinkRules) : List (RuneRef × RuneRef) :=
  (links.filter fun l => anyMatches rules.equivalence l.relation).map fun l => (l.source, l.target)

/-- The runes that are fused with something, in order. -/
def touched (pairs : List (RuneRef × RuneRef)) : List RuneRef :=
  (Std.ExtTreeSet.ofList (pairs.flatMap fun x => [x.1, x.2]) compare).toList

/-- `map[root].push_back(r)`. -/
def fileUnder (d : Std.ExtTreeMap RuneRef (List RuneRef) compare) (root r : RuneRef) :
    Std.ExtTreeMap RuneRef (List RuneRef) compare :=
  d.insert root (d[root]?.getD [] ++ [r])

/-- Runes, filed under their roots. -/
def byRoot : List RuneRef → UnionFind.Parents RuneRef →
    Std.ExtTreeMap RuneRef (List RuneRef) compare →
    Option (Std.ExtTreeMap RuneRef (List RuneRef) compare)
  | [], _, d => some d
  | r :: rest, p, d => do
    let (root, p) ← UnionFind.find p r
    byRoot rest p (fileUnder d root r)

/-- `quotient_of`. -/
def quotientOf (links : List Link) (rules : LinkRules) : Option Quotient := do
  let pairs := fusedPairs links rules
  let uf ← UnionFind.uniteAll pairs ∅
  let found ← byRoot (touched pairs) uf ∅
  let kept := found.toList.filter fun x => 2 ≤ x.2.length
  pure
    { rep := (kept.flatMap fun x => x.2.map fun r => (r, x.1)).foldl
        (fun rep x => rep.insert x.1 x.2) ∅
      classes := kept.map Prod.snd }

/-- `quotient`. -/
def quotient (state : Json) (rules : LinkRules) : Except CanonicalError (Option Quotient) := do
  let links ← resolvedLinks state
  pure (quotientOf links rules)

/-! ### What a quotient is -/

/-- The classes of two and more of the equivalence that a relation generates. -/
structure IsQuotient (R : RuneRef → RuneRef → Prop) (q : Quotient) : Prop where
  /-- Each class is sorted. -/
  sorted : ∀ c ∈ q.classes, c.Pairwise fun x y => compare x y = .lt
  /-- It has two members. -/
  two : ∀ c ∈ q.classes, 2 ≤ c.length
  /-- Its members are what is equivalent to one of them. -/
  generated : ∀ c ∈ q.classes, ∀ x ∈ c, ∀ y, y ∈ c ↔ Relation.EqvGen R x y
  /-- Every rune with another equivalent to it is in a class. -/
  complete : ∀ x y, x ≠ y → Relation.EqvGen R x y → ∃ c ∈ q.classes, x ∈ c
  /-- The classes are sorted by their first members. -/
  ordered : q.classes.Pairwise fun c d =>
    ∃ r s, c.head? = some r ∧ d.head? = some s ∧ compare r s = .lt
  /-- The first member stands for every other, and nothing stands for any other rune. -/
  rep : ∀ x r, q.rep[x]? = some r ↔ ∃ c ∈ q.classes, x ∈ c ∧ c.head? = some r

namespace IsQuotient

variable {R R' : RuneRef → RuneRef → Prop} {q q' : Quotient}

/-- The representative of a member is the least member of its class. -/
theorem least (h : IsQuotient R q) {c : List RuneRef} (hc : c ∈ q.classes) {x : RuneRef}
    (hx : x ∈ c) : q.representative x ∈ c ∧
      ∀ y ∈ c, (compare (q.representative x) y).isLE = true := by
  obtain ⟨r, rest, rfl⟩ := List.exists_cons_of_ne_nil (List.ne_nil_of_mem hx)
  have hrep : q.rep[x]? = some r := (h.rep x r).mpr ⟨_, hc, hx, rfl⟩
  rw [Quotient.representative, hrep, Option.getD_some]
  refine ⟨List.mem_cons_self, fun y hy => ?_⟩
  rcases List.mem_cons.mp hy with rfl | hy
  · exact Std.ReflCmp.isLE_rfl
  · rw [List.rel_of_pairwise_cons (h.sorted _ hc) hy]
    rfl

/-- A rune in no class stands for itself. -/
theorem elsewhere (h : IsQuotient R q) {x : RuneRef} (hx : ∀ c ∈ q.classes, x ∉ c) :
    q.representative x = x := by
  have hrep : q.rep[x]? = none := by
    cases hr : q.rep[x]? with
    | none => rfl
    | some r =>
      obtain ⟨c, hc, hm, -⟩ := (h.rep x r).mp hr
      exact absurd hm (hx c hc)
  rw [Quotient.representative, hrep, Option.getD_none]

/-- Classes with a common member are one class. -/
theorem class_eq (h : IsQuotient R q) (h' : IsQuotient R' q')
    (hR : ∀ x y, Relation.EqvGen R x y ↔ Relation.EqvGen R' x y) {c d : List RuneRef}
    (hc : c ∈ q.classes) (hd : d ∈ q'.classes) {x : RuneRef} (hx : x ∈ c) (hx' : x ∈ d) : c = d := by
  have hmem : ∀ y, y ∈ c ↔ y ∈ d := fun y => by
    rw [h.generated c hc x hx, h'.generated d hd x hx', hR]
  have hp : c.Perm d := (List.perm_ext_iff_of_nodup ((h.sorted c hc).imp UnionFind.ne_of_lt)
    ((h'.sorted d hd).imp UnionFind.ne_of_lt)).mpr hmem
  refine hp.eq_of_pairwise (fun a b _ _ hab hba => ?_) (h.sorted c hc) (h'.sorted d hd)
  rw [@Std.OrientedCmp.eq_swap _ compare _ b a, hab] at hba
  cases hba

/-- A class is a class of any quotient by the same equivalence. -/
theorem mem_classes (h : IsQuotient R q) (h' : IsQuotient R' q')
    (hR : ∀ x y, Relation.EqvGen R x y ↔ Relation.EqvGen R' x y) {c : List RuneRef}
    (hc : c ∈ q.classes) : c ∈ q'.classes := by
  obtain ⟨x, y, rest, rfl⟩ : ∃ x y rest, c = x :: y :: rest := by
    match c, h.two c hc with
    | x :: y :: rest, _ => exact ⟨x, y, rest, rfl⟩
  have hne : x ≠ y :=
    UnionFind.ne_of_lt (List.rel_of_pairwise_cons (h.sorted _ hc) List.mem_cons_self)
  have he : Relation.EqvGen R x y :=
    (h.generated _ hc x List.mem_cons_self y).mp (List.mem_cons_of_mem _ List.mem_cons_self)
  obtain ⟨d, hd, hx⟩ := h'.complete x y hne ((hR x y).mp he)
  rw [h.class_eq h' hR hc hd List.mem_cons_self hx]
  exact hd

/-- A quotient is determined by its equivalence. -/
theorem unique (h : IsQuotient R q) (h' : IsQuotient R' q')
    (hR : ∀ x y, Relation.EqvGen R x y ↔ Relation.EqvGen R' x y) : q = q' := by
  have hmem : ∀ c, c ∈ q.classes ↔ c ∈ q'.classes := fun c =>
    ⟨h.mem_classes h' hR, h'.mem_classes h fun x y => (hR x y).symm⟩
  have hne : ∀ {c d : List RuneRef},
      (∃ r s, c.head? = some r ∧ d.head? = some s ∧ compare r s = .lt) → c ≠ d := by
    rintro c d ⟨r, s, hr, hs, hlt⟩ rfl
    rw [hr] at hs
    exact UnionFind.ne_of_lt hlt (Option.some.inj hs)
  have hp : q.classes.Perm q'.classes := (List.perm_ext_iff_of_nodup (h.ordered.imp hne)
    (h'.ordered.imp hne)).mpr hmem
  have hclasses : q.classes = q'.classes := by
    refine hp.eq_of_pairwise (fun c d _ _ hcd hdc => ?_) h.ordered h'.ordered
    obtain ⟨r, s, hr, hs, hlt⟩ := hcd
    obtain ⟨s', r', hs', hr', hgt⟩ := hdc
    rw [hs] at hs'
    cases hs'
    rw [hr] at hr'
    cases hr'
    rw [@Std.OrientedCmp.eq_swap _ compare _ s r, hlt] at hgt
    cases hgt
  have hrep : q.rep = q'.rep := by
    refine Std.ExtTreeMap.ext_getElem? fun {x} => Option.ext fun r => ?_
    rw [h.rep, h'.rep, hclasses]
  obtain ⟨rep, classes⟩ := q
  obtain ⟨rep', classes'⟩ := q'
  exact Quotient.mk.injEq .. ▸ ⟨hrep, hclasses⟩

end IsQuotient

/-! ### What is computed -/

/-- Runes, filed under what a function makes of them. -/
def FiledUnder (f : RuneRef → RuneRef) (xs : List RuneRef)
    (d : Std.ExtTreeMap RuneRef (List RuneRef) compare) : Prop :=
  ∀ k c, d[k]? = some c ↔ c ≠ [] ∧ c = xs.filter fun r => f r = k

theorem under_empty (f : RuneRef → RuneRef) :
    FiledUnder f [] (∅ : Std.ExtTreeMap RuneRef (List RuneRef) compare) := by
  intro k c
  rw [Std.ExtTreeMap.getElem?_empty]
  simp

theorem under_fileUnder {f : RuneRef → RuneRef} {xs : List RuneRef}
    {d : Std.ExtTreeMap RuneRef (List RuneRef) compare} (h : FiledUnder f xs d) (r : RuneRef) :
    FiledUnder f (xs ++ [r]) (fileUnder d (f r) r) := by
  have hget : ∀ k, d[k]?.getD [] = xs.filter fun r => f r = k := by
    intro k
    cases hk : d[k]? with
    | some c => exact ((h k c).mp hk).2
    | none =>
      by_contra hne
      have := (h k _).mpr ⟨fun he => hne he.symm, rfl⟩
      rw [hk] at this
      cases this
  intro k c
  rw [fileUnder, UnionFind.getElem?_insert, List.filter_append, List.filter_singleton,
    Bool.cond_decide]
  by_cases hk : f r = k
  · subst hk
    rw [if_pos rfl, hget, if_pos rfl]
    constructor
    · rintro ⟨rfl⟩
      exact ⟨by simp, rfl⟩
    · rintro ⟨-, rfl⟩
      rfl
  · rw [if_neg hk, h k c, if_neg hk, List.append_nil]

/-- Filing runes under their roots. -/
theorem byRoot_eq {R : RuneRef → RuneRef → Prop} {f : RuneRef → RuneRef} (xs : List RuneRef) :
    ∀ {p : UnionFind.Parents RuneRef} {ys : List RuneRef}
      {d : Std.ExtTreeMap RuneRef (List RuneRef) compare}, UnionFind.Forest p R →
      (∀ x, UnionFind.Root p x (f x)) → FiledUnder f ys d →
      ∃ d', byRoot xs p d = some d' ∧ FiledUnder f (ys ++ xs) d' := by
  induction xs with
  | nil => exact fun {_ ys _} _ _ hd => ⟨_, rfl, (List.append_nil ys).symm ▸ hd⟩
  | cons x xs ih =>
    intro p ys d hp hf hd
    obtain ⟨r, p', hr, hroot, hp', hkeep⟩ := hp.find x
    obtain rfl := hroot.unique (hf x)
    obtain ⟨d', hd', hunder⟩ := ih hp' (fun y => hkeep y _ (hf y)) (under_fileUnder hd x)
    refine ⟨d', ?_, by rwa [List.append_assoc] at hunder⟩
    rw [byRoot, hr]
    exact hd'

/-- Inserting pairs whose second part is told by the first. -/
theorem getElem?_foldl_insert_of {f : RuneRef → RuneRef} {xs : List (RuneRef × RuneRef)}
    (hf : ∀ x ∈ xs, x.2 = f x.1) : ∀ (d : Std.ExtTreeMap RuneRef RuneRef compare) (x : RuneRef),
    (xs.foldl (fun d x => d.insert x.1 x.2) d)[x]? = if x ∈ xs.map Prod.fst then some (f x) else d[x]? := by
  induction xs with
  | nil => exact fun d x => (if_neg List.not_mem_nil).symm
  | cons y xs ih =>
    intro d x
    rw [List.foldl_cons, ih (fun z hz => hf z (List.mem_cons_of_mem _ hz)), UnionFind.getElem?_insert,
      List.map_cons]
    by_cases hx : x ∈ xs.map Prod.fst
    · rw [if_pos hx, if_pos (List.mem_cons_of_mem _ hx)]
    · rw [if_neg hx]
      by_cases hy : y.1 = x
      · rw [if_pos hy, if_pos (by simp [hy]), hf y List.mem_cons_self, hy]
      · rw [if_neg hy, if_neg (by simpa [hx] using Ne.symm hy)]

/-- What is related is touched, and nothing else is. -/
theorem mem_touched {pairs : List (RuneRef × RuneRef)} {x : RuneRef} :
    x ∈ touched pairs ↔ ∃ y, (x, y) ∈ pairs ∨ (y, x) ∈ pairs := by
  rw [touched, Std.ExtTreeSet.mem_toList, Std.ExtTreeSet.mem_ofList, List.contains_iff_mem,
    List.mem_flatMap]
  constructor
  · rintro ⟨⟨a, b⟩, hab, hx⟩
    rcases List.mem_cons.mp hx with rfl | hx
    · exact ⟨b, .inl hab⟩
    · obtain rfl := List.mem_singleton.mp hx
      exact ⟨a, .inr hab⟩
  · rintro ⟨y, h | h⟩
    · exact ⟨_, h, by simp⟩
    · exact ⟨_, h, by simp⟩

/-- The runes of one root, when there are two and more, for every root in order. -/
structure Classes (pairs : List (RuneRef × RuneRef)) (f : RuneRef → RuneRef)
    (kept : List (RuneRef × List RuneRef)) : Prop where
  /-- Roots are equal for what the pairs make equivalent. -/
  same : ∀ x y, f x = f y ↔ Relation.EqvGen (fun x y => (x, y) ∈ pairs) x y
  /-- A root is equivalent to its rune. -/
  root : ∀ x, Relation.EqvGen (fun x y => (x, y) ∈ pairs) x (f x)
  /-- It is the least such rune. -/
  least : ∀ x y, f x = f y → (compare (f x) y).isLE = true
  /-- What is kept. -/
  mem : ∀ k c, (k, c) ∈ kept ↔ (c = (touched pairs).filter fun r => f r = k) ∧ 2 ≤ c.length
  /-- The roots are in order. -/
  ordered : kept.Pairwise fun a b => compare a.1 b.1 = .lt

namespace Classes

variable {pairs : List (RuneRef × RuneRef)} {f : RuneRef → RuneRef}
  {kept : List (RuneRef × List RuneRef)} (h : Classes pairs f kept)

include h

/-- Of two runes with one root, either is both or both are touched. -/
theorem touched_of_same {x y : RuneRef} (hxy : f x = f y) :
    x = y ∨ x ∈ touched pairs ∧ y ∈ touched pairs := by
  rcases UnionFind.touched_of_eqvGen ((h.same x y).mp hxy) with rfl | ⟨hx, hy⟩
  · exact .inl rfl
  · exact .inr ⟨mem_touched.mpr hx, mem_touched.mpr hy⟩

theorem mem_iff {k : RuneRef} {c : List RuneRef} (hc : (k, c) ∈ kept) (x : RuneRef) :
    x ∈ c ↔ x ∈ touched pairs ∧ f x = k := by
  rw [((h.mem k c).mp hc).1, List.mem_filter, decide_eq_true_iff]

theorem sorted {k : RuneRef} {c : List RuneRef} (hc : (k, c) ∈ kept) :
    c.Pairwise fun x y => compare x y = .lt := by
  rw [((h.mem k c).mp hc).1]
  exact Std.ExtTreeSet.ordered_toList.filter _

/-- A class begins with its root. -/
theorem head {k : RuneRef} {c : List RuneRef} (hc : (k, c) ∈ kept) : c.head? = some k := by
  have hlen := ((h.mem k c).mp hc).2
  obtain ⟨x, rest, rfl⟩ : ∃ x rest, c = x :: rest := by
    match c, hlen with
    | x :: rest, _ => exact ⟨x, rest, rfl⟩
  obtain ⟨hx, rfl⟩ := (h.mem_iff hc x).mp List.mem_cons_self
  have hff : f x = f (f x) := (h.same x (f x)).mpr (h.root x)
  have hk : f x ∈ x :: rest := by
    rw [h.mem_iff hc]
    rcases h.touched_of_same hff with he | ⟨-, ht⟩
    · exact ⟨by rwa [← he], hff.symm⟩
    · exact ⟨ht, hff.symm⟩
  rcases List.mem_cons.mp hk with he | hrest
  · rw [List.head?_cons, he]
  · have hlt := List.rel_of_pairwise_cons (h.sorted hc) hrest
    have hle := h.least x x rfl
    rw [@Std.OrientedCmp.eq_swap _ compare _ (f x) x, hlt] at hle
    cases hle

/-- The quotient that the classes make. -/
theorem isQuotient : IsQuotient (fun x y => (x, y) ∈ pairs)
    { rep := (kept.flatMap fun x => x.2.map fun r => (r, x.1)).foldl
        (fun rep x => rep.insert x.1 x.2) ∅
      classes := kept.map Prod.snd } := by
  have hclass : ∀ {c}, c ∈ kept.map Prod.snd → ∃ k, (k, c) ∈ kept := by
    intro c hc
    obtain ⟨⟨k, _⟩, hk, rfl⟩ := List.mem_map.mp hc
    exact ⟨k, hk⟩
  refine ⟨fun c hc => ?_, fun c hc => ?_, fun c hc x hx y => ?_, fun x y hne hxy => ?_, ?_,
    fun x r => ?_⟩
  · obtain ⟨k, hk⟩ := hclass hc
    exact h.sorted hk
  · obtain ⟨k, hk⟩ := hclass hc
    exact ((h.mem k c).mp hk).2
  · obtain ⟨k, hk⟩ := hclass hc
    obtain ⟨hxt, rfl⟩ := (h.mem_iff hk x).mp hx
    rw [h.mem_iff hk, ← h.same]
    refine ⟨fun hy => hy.2.symm, fun he => ⟨?_, he.symm⟩⟩
    rcases h.touched_of_same he with rfl | ⟨-, hy⟩
    · exact hxt
    · exact hy
  · have he := (h.same x y).mpr hxy
    rcases h.touched_of_same he with rfl | ⟨hx, hy⟩
    · exact absurd rfl hne
    · have hmem : ∀ z, z ∈ (touched pairs).filter (fun r => f r = f x) ↔
          z ∈ touched pairs ∧ f z = f x := by simp
      have hx' := (hmem x).mpr ⟨hx, rfl⟩
      refine ⟨_, List.mem_map.mpr ⟨(f x, _), (h.mem _ _).mpr ⟨rfl, ?_⟩, rfl⟩, hx'⟩
      have hy' := (hmem y).mpr ⟨hy, he.symm⟩
      match (touched pairs).filter (fun r => f r = f x), hx', hy' with
      | [z], hx', hy' =>
        exact absurd ((List.mem_singleton.mp hx').trans (List.mem_singleton.mp hy').symm) hne
      | _ :: _ :: _, _, _ => simp
  · refine List.pairwise_map.mpr (h.ordered.imp_of_mem fun ha hb hlt => ?_)
    exact ⟨_, _, h.head ha, h.head hb, hlt⟩
  · rw [getElem?_foldl_insert_of (f := f), Std.ExtTreeMap.getElem?_empty]
    · constructor
      · intro hr
        split at hr
        · rename_i hx
          cases hr
          obtain ⟨⟨y, k⟩, hy, rfl⟩ := List.mem_map.mp hx
          obtain ⟨⟨k', c⟩, hc, hy⟩ := List.mem_flatMap.mp hy
          obtain ⟨z, hz, he⟩ := List.mem_map.mp hy
          cases he
          refine ⟨c, List.mem_map.mpr ⟨_, hc, rfl⟩, hz, ?_⟩
          rw [((h.mem_iff hc y).mp hz).2]
          exact h.head hc
        · cases hr
      · rintro ⟨c, hc, hx, hr⟩
        obtain ⟨k, hk⟩ := hclass hc
        rw [h.head hk] at hr
        cases hr
        rw [if_pos, ((h.mem_iff hk x).mp hx).2]
        exact List.mem_map.mpr ⟨(x, r), List.mem_flatMap.mpr ⟨_, hk, List.mem_map.mpr ⟨x, hx, rfl⟩⟩, rfl⟩
    · intro x hx
      obtain ⟨⟨k, c⟩, hc, hx⟩ := List.mem_flatMap.mp hx
      obtain ⟨z, hz, rfl⟩ := List.mem_map.mp hx
      exact ((h.mem_iff hc z).mp hz).2.symm

end Classes

/-- Uniting terminates, and gives the quotient by the equivalence that the links generate. -/
theorem quotientOf_spec (links : List Link) (rules : LinkRules) :
    ∃ q, quotientOf links rules = some q ∧
      IsQuotient (fun x y => (x, y) ∈ fusedPairs links rules) q := by
  rw [quotientOf]
  generalize fusedPairs links rules = pairs
  obtain ⟨uf, huf, hforest⟩ := (@UnionFind.Forest.empty RuneRef _ _).uniteAll
  have hforest : UnionFind.Forest uf fun x y => (x, y) ∈ pairs :=
    hforest.congr fun x y => by rw [false_or]
  choose f hf using hforest.total
  obtain ⟨found, hfound, hunder⟩ := byRoot_eq (touched pairs) hforest hf (under_empty f)
  rw [List.nil_append] at hunder
  have hclasses : Classes pairs f (found.toList.filter fun x => 2 ≤ x.2.length) := by
    refine ⟨fun x y => ?_, fun x => hforest.sound x _ (hf x), fun x y he => ?_, fun k c => ?_,
      Std.ExtTreeMap.ordered_keys_toList.filter _⟩
    · rw [← hforest.same_iff]
      constructor
      · exact fun h => ⟨f x, hf x, h ▸ hf y⟩
      · rintro ⟨r, hx, hy⟩
        rw [(hf x).unique hx, (hf y).unique hy]
    · exact he ▸ (hf y).le hforest.down
    · rw [List.mem_filter, Std.ExtTreeMap.mem_toList_iff_getElem?_eq_some, hunder,
        decide_eq_true_iff]
      constructor
      · exact fun h => ⟨h.1.2, h.2⟩
      · rintro ⟨rfl, hlen⟩
        refine ⟨⟨fun hn => ?_, rfl⟩, hlen⟩
        rw [hn] at hlen
        cases hlen
  simp only [huf, hfound, Option.bind_eq_bind, Option.bind_some]
  exact ⟨_, rfl, hclasses.isQuotient⟩

/-! ### The quotient of a state -/

/-- Two runes that an edge of a state makes one: it joins them under an equivalence label. -/
def Fuses (state : Json) (rules : LinkRules) (x y : RuneRef) : Prop :=
  ∃ e ∈ edgesOf state, Resolves (runesOf state) (e.2.get (.ofLit "from")) e.1 x ∧
    Resolves (runesOf state) (e.2.get (.ofLit "to")) e.1 y ∧
    anyMatches rules.equivalence (strOr (e.2.get (.ofLit "relation")) .empty).bytes = true

/-- The edges that make runes one are the resolved links under an equivalence label. -/
theorem fuses_iff {state : Json} {links : List Link} (h : resolvedLinks state = .ok links)
    (rules : LinkRules) (x y : RuneRef) : Fuses state rules x y ↔ (x, y) ∈ fusedPairs links rules := by
  rw [fusedPairs, List.mem_map]
  constructor
  · rintro ⟨e, he, hx, hy, hm⟩
    have hform := resolvedLinks_ok_iff.mp ⟨links, h⟩ e he ⟨⟨x, hx⟩, y, hy⟩
    have hlink : IsLink (runesOf state) e
        ⟨e.1, (strOr (e.2.get (.ofLit "relation")) .empty).bytes, x, y, form e.2⟩ :=
      ⟨rfl, rfl, hx, hy, encode_of_hasForm hform⟩
    exact ⟨_, List.mem_filter.mpr ⟨(mem_resolvedLinks h _).mpr ⟨e, he, hlink⟩, hm⟩, rfl⟩
  · rintro ⟨l, hl, hxy⟩
    cases hxy
    obtain ⟨hl, hm⟩ := List.mem_filter.mp hl
    obtain ⟨e, he, hlink⟩ := (mem_resolvedLinks h l).mp hl
    exact ⟨e, he, hlink.source, hlink.target, hlink.relation ▸ hm⟩

namespace IsQuotient

variable {R R' : RuneRef → RuneRef → Prop} {q : Quotient}

/-- A quotient is one by any relation that generates the same equivalence. -/
theorem congr (h : IsQuotient R q) (hR : ∀ x y, Relation.EqvGen R x y ↔ Relation.EqvGen R' x y) :
    IsQuotient R' q where
  sorted := h.sorted
  two := h.two
  generated c hc x hx y := by rw [← hR, h.generated c hc x hx]
  complete x y hne hxy := h.complete x y hne ((hR x y).mpr hxy)
  ordered := h.ordered
  rep := h.rep

end IsQuotient

/-- Two members of one class. -/
def Quotient.Together (q : Quotient) (x y : RuneRef) : Prop := ∃ c ∈ q.classes, x ∈ c ∧ y ∈ c

/-- Members of one class are equivalent, and equivalent runes are one or in one class. -/
theorem IsQuotient.together {R : RuneRef → RuneRef → Prop} {q : Quotient} (h : IsQuotient R q)
    (x y : RuneRef) : (q.Together x y → Relation.EqvGen R x y) ∧
      (Relation.EqvGen R x y → x = y ∨ q.Together x y) := by
  constructor
  · rintro ⟨c, hc, hx, hy⟩
    exact (h.generated c hc x hx y).mp hy
  · intro hxy
    by_cases hne : x = y
    · exact .inl hne
    · obtain ⟨c, hc, hx⟩ := h.complete x y hne hxy
      exact .inr ⟨c, hc, hx, (h.generated c hc x hx y).mpr hxy⟩

/-- The equivalence that a relation generates is within any that has its pairs. -/
theorem eqvGen_within {α : Type} {R S : α → α → Prop} (h : ∀ x y, R x y → Relation.EqvGen S x y)
    {x y : α} (hxy : Relation.EqvGen R x y) : Relation.EqvGen S x y := by
  induction hxy with
  | rel x y hxy => exact h x y hxy
  | refl x => exact .refl x
  | symm x y _ ih => exact .symm _ _ ih
  | trans x y z _ _ ih ih' => exact .trans _ _ _ ih ih'

/-- Two states with the same runes, and a third with these runes and the edges of both. -/
structure HoldsBoth (a b c : Json) : Prop where
  /-- The first two have the same runes. -/
  same : (runesOf a).Perm (runesOf b)
  /-- The third has them. -/
  runes : (runesOf c).Perm (runesOf a)
  /-- It has the edges of the one and of the other. -/
  edges : ∀ x, x ∈ edgesOf c ↔ x ∈ edgesOf a ∨ x ∈ edgesOf b

/-- A state is read unless an edge that joins two runes has no canonical form. -/
theorem quotient_ok_iff {state : Json} {rules : LinkRules} : (∃ r, quotient state rules = .ok r) ↔
    ∀ x ∈ edgesOf state, Joins (runesOf state) x → HasForm x.2 := by
  rw [← resolvedLinks_ok_iff]
  constructor
  · rintro ⟨r, h⟩
    obtain ⟨links, hl, -⟩ := bind_eq_ok.mp h
    exact ⟨links, hl⟩
  · rintro ⟨links, hl⟩
    exact ⟨_, bind_eq_ok.mpr ⟨links, hl, rfl⟩⟩

/-- What is read is the quotient by the edges of the state. -/
theorem quotient_eq_ok {state : Json} {rules : LinkRules} {r : Option Quotient}
    (h : quotient state rules = .ok r) : ∃ q, r = some q ∧ IsQuotient (Fuses state rules) q := by
  obtain ⟨links, hl, hr⟩ := bind_eq_ok.mp h
  cases hr
  obtain ⟨q, hq, his⟩ := quotientOf_spec links rules
  have hR : (fun x y => (x, y) ∈ fusedPairs links rules) = Fuses state rules :=
    funext fun x => funext fun y => propext (fuses_iff hl rules x y).symm
  exact ⟨q, hq, hR ▸ his⟩

theorem quotient_of_isQuotient {state : Json} {rules : LinkRules} {q : Quotient}
    (hok : ∃ r, quotient state rules = .ok r) (h : IsQuotient (Fuses state rules) q) :
    quotient state rules = .ok (some q) := by
  obtain ⟨r, hr⟩ := hok
  obtain ⟨q', rfl, h'⟩ := quotient_eq_ok hr
  rw [hr, h.unique h' fun _ _ => Iff.rfl]

/-- Other runes in the same order of edges, or edges in another order, fuse the same. -/
theorem Fuses.of_same {a c : Json} {rules : LinkRules} (hr : (runesOf a).Perm (runesOf c))
    (he : ∀ x ∈ edgesOf a, x ∈ edgesOf c) {x y : RuneRef} (h : Fuses a rules x y) :
    Fuses c rules x y := by
  obtain ⟨e, hm, hx, hy, hrel⟩ := h
  exact ⟨e, he e hm, hx.perm hr, hy.perm hr, hrel⟩

theorem Joins.perm {runes runes' : List (RuneRef × Bytes)} (hp : runes.Perm runes')
    {x : Bytes × Json} (h : Joins runes x) : Joins runes' x := by
  obtain ⟨⟨r, hr⟩, s, hs⟩ := h
  exact ⟨⟨r, hr.perm hp⟩, s, hs.perm hp⟩

/-- The quotient of a state does not depend on the order of its runes and its edges. -/
theorem quotient_congr {a b : Json} {rules : LinkRules} (hr : (runesOf a).Perm (runesOf b))
    (he : ∀ x, x ∈ edgesOf a ↔ x ∈ edgesOf b) {r : Option Quotient}
    (h : quotient a rules = .ok r) : quotient b rules = .ok r := by
  obtain ⟨q, rfl, hq⟩ := quotient_eq_ok h
  refine quotient_of_isQuotient (quotient_ok_iff.mpr fun x hx hj => ?_) (hq.congr fun x y => ?_)
  · exact quotient_ok_iff.mp ⟨_, h⟩ x ((he x).mpr hx) (hj.perm hr.symm)
  · exact ⟨eqvGen_within fun x y hxy => .rel _ _ (hxy.of_same hr fun x => (he x).mp),
      eqvGen_within fun x y hxy => .rel _ _ (hxy.of_same hr.symm fun x => (he x).mpr)⟩

/-- The state with the edges of two has the join of their quotients. -/
theorem HoldsBoth.joined {a b c : Json} (h : HoldsBoth a b c) {rules : LinkRules} {qa qb : Quotient}
    (ha : quotient a rules = .ok (some qa)) (hb : quotient b rules = .ok (some qb)) :
    ∃ qc, quotient c rules = .ok (some qc) ∧
      IsQuotient (fun x y => qa.Together x y ∨ qb.Together x y) qc := by
  have hca := h.runes
  have hcb := h.runes.trans h.same
  obtain ⟨_, he, hqa⟩ := quotient_eq_ok ha
  cases he
  obtain ⟨_, he, hqb⟩ := quotient_eq_ok hb
  cases he
  have hok : ∃ r, quotient c rules = .ok r := by
    refine quotient_ok_iff.mpr fun x hx hj => ?_
    rcases (h.edges x).mp hx with hx | hx
    · exact quotient_ok_iff.mp ⟨_, ha⟩ x hx (hj.perm hca)
    · exact quotient_ok_iff.mp ⟨_, hb⟩ x hx (hj.perm hcb)
  obtain ⟨r, hr⟩ := hok
  obtain ⟨qc, rfl, hqc⟩ := quotient_eq_ok hr
  refine ⟨qc, hr, hqc.congr fun x y => ⟨eqvGen_within fun x y hxy => ?_, eqvGen_within fun x y hxy => ?_⟩⟩
  · obtain ⟨e, hm, hx, hy, hrel⟩ := hxy
    rcases (h.edges e).mp hm with hm | hm
    · have he : Fuses a rules x y := ⟨e, hm, hx.perm hca, hy.perm hca, hrel⟩
      rcases (hqa.together x y).2 (.rel _ _ he) with rfl | ht
      · exact .refl _
      · exact .rel _ _ (.inl ht)
    · have he : Fuses b rules x y := ⟨e, hm, hx.perm hcb, hy.perm hcb, hrel⟩
      rcases (hqb.together x y).2 (.rel _ _ he) with rfl | ht
      · exact .refl _
      · exact .rel _ _ (.inr ht)
  · rcases hxy with ht | ht
    · exact eqvGen_within (fun x y hxy => .rel _ _
        (hxy.of_same hca.symm fun e he => (h.edges e).mpr (.inl he))) ((hqa.together x y).1 ht)
    · exact eqvGen_within (fun x y hxy => .rel _ _
        (hxy.of_same hcb.symm fun e he => (h.edges e).mpr (.inr he))) ((hqb.together x y).1 ht)

/-- The quotient is the equivalence that the edges under an equivalence label generate, each class
named by its least member, whatever the order of runes, edges and links; and the state with the
edges of two states has the equivalence that their classes generate. -/
theorem quotient_generates (rules : LinkRules) :
    (∀ state, (∃ r, quotient state rules = .ok r) ↔
      ∀ x ∈ edgesOf state, Joins (runesOf state) x → HasForm x.2) ∧
    (∀ state r, quotient state rules = .ok r → ∃ q, r = some q ∧ IsQuotient (Fuses state rules) q ∧
      (∀ c ∈ q.classes, ∀ x ∈ c, q.representative x ∈ c ∧
        ∀ y ∈ c, (compare (q.representative x) y).isLE = true) ∧
      ∀ x, (∀ c ∈ q.classes, x ∉ c) → q.representative x = x) ∧
    (∀ links links', (∀ l, l ∈ links ↔ l ∈ links') →
      quotientOf links rules = quotientOf links' rules) ∧
    (∀ a b, (runesOf a).Perm (runesOf b) → (∀ x, x ∈ edgesOf a ↔ x ∈ edgesOf b) →
      ∀ r, quotient a rules = .ok r ↔ quotient b rules = .ok r) ∧
    ∀ a b c qa qb, HoldsBoth a b c → quotient a rules = .ok (some qa) →
      quotient b rules = .ok (some qb) → ∃ qc, quotient c rules = .ok (some qc) ∧
        IsQuotient (fun x y => qa.Together x y ∨ qb.Together x y) qc := by
  refine ⟨fun _ => quotient_ok_iff, fun state r h => ?_, fun links links' hl => ?_,
    fun a b hr he r => ⟨quotient_congr hr he, quotient_congr hr.symm fun x => (he x).symm⟩,
    fun a b c qa qb h => h.joined⟩
  · obtain ⟨q, rfl, hq⟩ := quotient_eq_ok h
    exact ⟨q, rfl, hq, fun c hc x hx => hq.least hc hx, fun x hx => hq.elsewhere hx⟩
  · obtain ⟨q, hq, his⟩ := quotientOf_spec links rules
    obtain ⟨q', hq', his'⟩ := quotientOf_spec links' rules
    have hpairs : ∀ x y, (x, y) ∈ fusedPairs links rules ↔ (x, y) ∈ fusedPairs links' rules := by
      simp only [fusedPairs, List.mem_map, List.mem_filter, hl, implies_true]
    rw [hq, hq', his.unique his' fun x y => ⟨eqvGen_within fun x y h => .rel _ _ ((hpairs x y).mp h),
      eqvGen_within fun x y h => .rel _ _ ((hpairs x y).mpr h)⟩]

/-- A state with one mantle of three runes and some edges under one label. -/
def threeRunes (edges : List (String × String)) : Json :=
  let text := fun s => Json.str (.ofBytes (lit s))
  .obj [(Key.mantles, .arr [.obj [(Key.name, text "m"),
    (Key.runes, .arr (["x", "y", "z"].map fun n =>
      .obj [(Key.spirit, .obj [(Key.id, text n), (Key.name, text n)])])),
    (Key.layout, .obj [(Key.edges, .arr (edges.map fun e =>
      .obj [(.ofLit "from", text e.1), (.ofLit "to", text e.2), (.ofLit "relation", text "same")]))])]])]

/-- The rule that fuses them. -/
def sameRule : LinkRules := { equivalence := [lit "same"] }

theorem ok_of_read {x : Except CanonicalError (Option Quotient)} (h : x.toOption.join.isSome = true) :
    ∃ q, x = .ok (some q) := by
  match x, h with
  | .ok (some q), _ => exact ⟨q, rfl⟩

/-- Two edges on two devices, and all three runes are one on a third. -/
theorem quotient_generates_three :
    (∃ qa qb qc, quotient (threeRunes [("z", "y")]) sameRule = .ok (some qa) ∧
      quotient (threeRunes [("y", "x")]) sameRule = .ok (some qb) ∧
      quotient (threeRunes [("z", "y"), ("y", "x")]) sameRule = .ok (some qc) ∧
      IsQuotient (fun x y => qa.Together x y ∨ qb.Together x y) qc) ∧
    (quotient (threeRunes [("z", "y"), ("y", "x")]) sameRule).toOption.join.map Quotient.classes =
      some [[⟨lit "m", lit "x"⟩, ⟨lit "m", lit "y"⟩, ⟨lit "m", lit "z"⟩]] := by
  obtain ⟨qa, ha⟩ := ok_of_read (x := quotient (threeRunes [("z", "y")]) sameRule) (by decide +kernel)
  obtain ⟨qb, hb⟩ := ok_of_read (x := quotient (threeRunes [("y", "x")]) sameRule) (by decide +kernel)
  have hedges : edgesOf (threeRunes [("z", "y"), ("y", "x")]) =
      edgesOf (threeRunes [("z", "y")]) ++ edgesOf (threeRunes [("y", "x")]) := rfl
  have hboth : HoldsBoth (threeRunes [("z", "y")]) (threeRunes [("y", "x")])
      (threeRunes [("z", "y"), ("y", "x")]) :=
    ⟨.refl _, .refl _, fun x => by rw [hedges, List.mem_append]⟩
  obtain ⟨qc, hc, his⟩ := (quotient_generates sameRule).2.2.2.2 _ _ _ _ _ hboth ha hb
  exact ⟨⟨qa, qb, qc, ha, hb, hc, his⟩, by decide +kernel⟩

end VoidPalabra
