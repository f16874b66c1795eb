import VoidPalabra.Anomaly
import VoidPalabra.Bindings
import VoidPalabra.CanonDoc

/-!
# Resolved links

The links of a state whose two ends each name exactly one rune, in canonical order and each
once. What resolves is told from the runes of the state and its edges alone, as a relation on
runes, and does not depend on the order in which either is listed.
-/

namespace VoidPalabra

open Sorting

/-- `RuneRef`: a rune, by its mantle and its spirit. -/
structure RuneRef where
  /-- The name of the mantle. -/
  mantle : Bytes
  /-- `spirit.id`. -/
  id : Bytes
  deriving DecidableEq

namespace RuneRef

/-- By mantle, then by spirit. -/
def key (r : RuneRef) : List Bytes := [r.mantle, r.id]

instance : Ord RuneRef := ⟨fun a b => compare a.key b.key⟩

theorem compare_def (a b : RuneRef) : compare a b = compare a.key b.key := rfl

instance : Std.TransOrd RuneRef where
  eq_swap := by
    intro a b
    exact (Std.OrientedCmp.eq_swap : compare a.key b.key = (compare b.key a.key).swap)
  isLE_trans := by
    intro a b c h k
    exact (Std.TransCmp.isLE_trans : (compare a.key b.key).isLE →
      (compare b.key c.key).isLE → (compare a.key c.key).isLE) h k

theorem key_injective {a b : RuneRef} (h : a.key = b.key) : a = b := by
  obtain ⟨m, i⟩ := a
  obtain ⟨n, j⟩ := b
  obtain ⟨rfl, h⟩ := List.cons.inj h
  obtain ⟨rfl, -⟩ := List.cons.inj h
  rfl

instance : Std.LawfulEqOrd RuneRef where
  compare_self := by
    intro a
    exact (Std.ReflCmp.compare_self : compare a.key a.key = .eq)
  eq_of_compare := by
    intro a b h
    have h : compare a.key b.key = .eq := h
    exact key_injective (Std.LawfulEqCmp.eq_of_compare h)

end RuneRef

/-- `Link`: a link with both ends resolved. -/
structure Link where
  /-- The mantle whose layout holds it. -/
  mantle : Bytes
  /-- Its label. -/
  relation : Bytes
  /-- Where it begins. -/
  source : RuneRef
  /-- Where it ends. -/
  target : RuneRef
  /-- Its canonical bytes. -/
  bytes : Bytes
  deriving DecidableEq

/-- What links are sorted by. -/
def Link.key (l : Link) : List Bytes := [l.mantle, l.bytes]

/-- `Names`: the spirits that hold a name, by mantle. -/
abbrev Names := Std.ExtTreeMap Bytes Filed compare

/-- The name of a mantle. -/
def mantleText (m : Json) : Bytes := (strOr (m.get Key.name) .empty).bytes

/-- The name of a rune's spirit. -/
def spiritName (r : Json) : Bytes := (strOr (get (r.get Key.spirit) Key.name) .empty).bytes

/-- The id of a rune's spirit. -/
def spiritId (r : Json) : Bytes := (strOr (get (r.get Key.spirit) Key.id) .empty).bytes

/-- One rune of `index_names`. -/
def indexSpirit (names : Filed) (r : Json) : Filed :=
  if spiritId r = [] then names else names.push (spiritName r) (spiritId r)

/-- One mantle of `index_names`. -/
def indexMantleNames (out : Names) (m : Json) : Names :=
  out.insert (mantleText m)
    ((arrayItems (m.get Key.runes)).foldl indexSpirit (out[mantleText m]?.getD ∅))

/-- `index_names`. -/
def indexNames (state : Json) : Names :=
  (arrayItems (state.get Key.mantles)).foldl indexMantleNames ∅

/-- `resolve_end`: a name resolves when exactly one rune of the mantle holds it. -/
def resolveEnd (names : Names) (e : Option Json) (own : Bytes) : Option RuneRef := do
  let (mantle, rune) ← endpoint e own
  let m ← names[mantle]?
  match m[rune]? with
  | some [id] => some ⟨mantle, id⟩
  | _ => none

/-- `label_matches`. -/
def labelMatches (pattern relation : Bytes) : Bool :=
  if pattern.getLast? = some 0x2A then pattern.dropLast.isPrefixOf relation
  else pattern == relation

/-- `any_matches`. -/
def anyMatches (patterns : List Bytes) (relation : Bytes) : Bool :=
  patterns.any fun p => labelMatches p relation

/-- The edges of a state, each with the name of its mantle. -/
def edgesOf (state : Json) : List (Bytes × Json) :=
  (arrayItems (state.get Key.mantles)).flatMap fun m =>
    (arrayItems (get (m.get Key.layout) Key.edges)).map fun e => (mantleText m, e)

/-- The link that an edge is, when both of its ends resolve. -/
def linkOf (names : Names) (x : Bytes × Json) : Except CanonicalError (Option Link) :=
  match resolveEnd names (x.2.get (.ofLit "from")) x.1 with
  | none => .ok none
  | some source =>
    match resolveEnd names (x.2.get (.ofLit "to")) x.1 with
    | none => .ok none
    | some target => do
      let bytes ← encode x.2
      pure (some ⟨x.1, (strOr (x.2.get (.ofLit "relation")) .empty).bytes, source, target, bytes⟩)

/-- The links of some edges. -/
def linkEach (names : Names) : List (Bytes × Json) → Except CanonicalError (List Link)
  | [] => .ok []
  | x :: rest => do
    let l ← linkOf names x
    let rest ← linkEach names rest
    pure (l.toList ++ rest)

/-- `std::unique` after an item: of neighbours with one key, the first stays. -/
def uniqueAfter {α κ : Type} [DecidableEq κ] (key : α → κ) (a : α) : List α → List α
  | [] => [a]
  | b :: rest => if key a = key b then uniqueAfter key a rest else a :: uniqueAfter key b rest

/-- `std::unique`. -/
def uniqueOn {α κ : Type} [DecidableEq κ] (key : α → κ) : List α → List α
  | [] => []
  | a :: rest => uniqueAfter key a rest

/-- `resolved_links`. -/
def resolvedLinks (state : Json) : Except CanonicalError (List Link) := do
  let out ← linkEach (indexNames state) (edgesOf state)
  pure (uniqueOn Link.key (sortOn Link.key out))

/-! ### What the index holds -/

/-- The runes of a state with an id, each with its mantle and its name. -/
def runesOf (state : Json) : List (RuneRef × Bytes) :=
  (arrayItems (state.get Key.mantles)).flatMap fun m =>
    ((arrayItems (m.get Key.runes)).filter fun r => spiritId r ≠ []).map fun r =>
      (⟨mantleText m, spiritId r⟩, spiritName r)

/-- The runes of a mantle that hold a name. -/
def holders (runes : List (RuneRef × Bytes)) (mantle name : Bytes) : List RuneRef :=
  (runes.filter fun r => r.1.mantle = mantle ∧ r.2 = name).map Prod.fst

/-- The spirits that an index has under a mantle and a name. -/
def Names.held (names : Names) (mantle name : Bytes) : List Bytes :=
  ((names[mantle]?.getD ∅)[name]?).getD []


theorem held_push (names : Filed) (name id n : Bytes) :
    (names.push name id)[n]?.getD [] = names[n]?.getD [] ++ if name = n then [id] else [] := by
  rw [Filed.push, Std.ExtTreeMap.getElem?_insert]
  by_cases h : name = n
  · subst h
    rw [if_pos Std.ReflCmp.compare_self, if_pos rfl, Option.getD_some]
  · rw [if_neg fun he => h (Std.LawfulEqCmp.eq_of_compare he), if_neg h, List.append_nil]

theorem held_foldl (rs : List Json) (names : Filed) (n : Bytes) :
    (rs.foldl indexSpirit names)[n]?.getD [] = names[n]?.getD [] ++
      (rs.filter fun r => spiritId r ≠ [] ∧ spiritName r = n).map spiritId := by
  induction rs generalizing names with
  | nil => simp
  | cons r rs ih =>
    rw [List.foldl_cons, ih, indexSpirit]
    by_cases hi : spiritId r = []
    · simp [hi]
    · rw [if_neg hi, held_push]
      by_cases hn : spiritName r = n
      · simp [hi, hn]
      · simp [hi, hn]

/-- The runes that the index of some mantles adds. -/
theorem held_foldl_mantles (ms : List Json) (names : Names) (mantle name : Bytes) :
    (ms.foldl indexMantleNames names).held mantle name = names.held mantle name ++
      (ms.flatMap fun m => if mantleText m = mantle then
        ((arrayItems (m.get Key.runes)).filter fun r => spiritId r ≠ [] ∧ spiritName r = name).map
          spiritId else []) := by
  induction ms generalizing names with
  | nil => simp
  | cons m ms ih =>
    have hone : (indexMantleNames names m).held mantle name = names.held mantle name ++
        if mantleText m = mantle then
          ((arrayItems (m.get Key.runes)).filter
            fun r => spiritId r ≠ [] ∧ spiritName r = name).map spiritId else [] := by
      rw [Names.held, Names.held, indexMantleNames, Std.ExtTreeMap.getElem?_insert]
      by_cases h : mantleText m = mantle
      · subst h
        rw [if_pos Std.ReflCmp.compare_self, if_pos rfl, Option.getD_some, held_foldl]
      · rw [if_neg fun he => h (Std.LawfulEqCmp.eq_of_compare he), if_neg h, List.append_nil]
    rw [List.foldl_cons, ih, hone, List.flatMap_cons, List.append_assoc]

/-- The index holds the runes of the state. -/
theorem held_indexNames (state : Json) (mantle name : Bytes) :
    ((indexNames state).held mantle name).map (RuneRef.mk mantle) =
      holders (runesOf state) mantle name := by
  rw [indexNames, held_foldl_mantles, holders, runesOf]
  have hnil : Names.held ∅ mantle name = [] := rfl
  rw [hnil, List.nil_append]
  generalize arrayItems (state.get Key.mantles) = ms
  induction ms with
  | nil => rfl
  | cons m ms ih =>
    rw [List.flatMap_cons, List.flatMap_cons, List.map_append, List.filter_append, List.map_append,
      ih]
    congr 1
    generalize arrayItems (m.get Key.runes) = rs
    by_cases h : mantleText m = mantle
    · rw [if_pos h]
      induction rs with
      | nil => rfl
      | cons r rs ih =>
        by_cases hi : spiritId r = []
        · simpa [hi] using ih
        · by_cases hn : spiritName r = name
          · simpa [hi, hn, h] using ih
          · simpa [hi, hn, h] using ih
    · rw [if_neg h, List.map_nil, eq_comm, List.map_eq_nil_iff, List.filter_eq_nil_iff]
      intro x hx
      obtain ⟨r, -, rfl⟩ := List.mem_map.mp hx
      simpa using fun he => absurd he h

/-- An end of an edge names exactly one rune. -/
def Resolves (runes : List (RuneRef × Bytes)) (e : Option Json) (own : Bytes) (r : RuneRef) : Prop :=
  ∃ mantle name, endpoint e own = some (mantle, name) ∧ holders runes mantle name = [r]

/-- A name resolves when exactly one rune holds it. -/
theorem resolveEnd_iff {state : Json} {e : Option Json} {own : Bytes} {r : RuneRef} :
    resolveEnd (indexNames state) e own = some r ↔ Resolves (runesOf state) e own r := by
  rw [resolveEnd, Resolves]
  cases hend : endpoint e own with
  | none => simp
  | some x =>
    obtain ⟨mantle, name⟩ := x
    have hheld := held_indexNames state mantle name
    simp only [Option.bind_eq_bind, Option.bind_some, Option.some.injEq, Prod.mk.injEq]
    constructor
    · intro h
      obtain ⟨m, hm, h⟩ := Option.bind_eq_some_iff.mp h
      refine ⟨mantle, name, ⟨rfl, rfl⟩, ?_⟩
      rw [← hheld, Names.held, hm, Option.getD_some]
      split at h
      · rename_i id hid
        cases h
        rw [hid]
        rfl
      · cases h
    · rintro ⟨_, _, ⟨rfl, rfl⟩, h⟩
      rw [← hheld, Names.held] at h
      cases hm : (indexNames state)[mantle]? with
      | none =>
        rw [hm] at h
        cases h
      | some m =>
        rw [hm, Option.getD_some] at h
        obtain ⟨id, hid, hr⟩ := List.map_eq_singleton_iff.mp h
        rw [Option.bind_some]
        cases hn : m[name]? with
        | none =>
          rw [hn] at hid
          cases hid
        | some ids =>
          rw [hn, Option.getD_some] at hid
          rw [hid]
          exact congrArg some hr

/-- Runes in another order resolve alike. -/
theorem Resolves.perm {runes runes' : List (RuneRef × Bytes)} (hp : runes.Perm runes')
    {e : Option Json} {own : Bytes} {r : RuneRef} (h : Resolves runes e own r) :
    Resolves runes' e own r := by
  obtain ⟨mantle, name, hend, hr⟩ := h
  refine ⟨mantle, name, hend, List.perm_singleton.mp ?_⟩
  rw [← hr]
  exact ((hp.filter _).map _).symm

/-- An end resolves to one rune. -/
theorem Resolves.unique {runes : List (RuneRef × Bytes)} {e : Option Json} {own : Bytes}
    {r s : RuneRef} (h : Resolves runes e own r) (h' : Resolves runes e own s) : r = s := by
  obtain ⟨mantle, name, hend, hr⟩ := h
  obtain ⟨mantle', name', hend', hs⟩ := h'
  rw [hend] at hend'
  cases hend'
  rw [hr] at hs
  exact (List.cons.inj hs).1

/-! ### The links of a state -/

/-- An edge of a state as a link, told from its runes. -/
structure IsLink (runes : List (RuneRef × Bytes)) (x : Bytes × Json) (l : Link) : Prop where
  /-- The mantle of the edge. -/
  mantle : l.mantle = x.1
  /-- The label. -/
  relation : l.relation = (strOr (x.2.get (.ofLit "relation")) .empty).bytes
  /-- It begins at a rune. -/
  source : Resolves runes (x.2.get (.ofLit "from")) x.1 l.source
  /-- It ends at a rune. -/
  target : Resolves runes (x.2.get (.ofLit "to")) x.1 l.target
  /-- It has canonical bytes. -/
  bytes : encode x.2 = .ok l.bytes

/-- Both ends of an edge resolve. -/
def Joins (runes : List (RuneRef × Bytes)) (x : Bytes × Json) : Prop :=
  (∃ r, Resolves runes (x.2.get (.ofLit "from")) x.1 r) ∧
    ∃ r, Resolves runes (x.2.get (.ofLit "to")) x.1 r

theorem linkOf_eq_some {state : Json} {x : Bytes × Json} {l : Link} :
    linkOf (indexNames state) x = .ok (some l) ↔ IsLink (runesOf state) x l := by
  rw [linkOf]
  constructor
  · intro h
    split at h
    · cases h
    · rename_i source hs
      split at h
      · cases h
      · rename_i target ht
        obtain ⟨bytes, hb, h⟩ := bind_eq_ok.mp h
        cases h
        exact ⟨rfl, rfl, resolveEnd_iff.mp hs, resolveEnd_iff.mp ht, hb⟩
  · rintro ⟨hm, hr, hs, ht, hb⟩
    rw [resolveEnd_iff.mpr hs, resolveEnd_iff.mpr ht]
    dsimp only
    rw [hb, ← hm, ← hr]
    rfl

/-- An edge is read unless it joins two runes and has no canonical form. -/
theorem linkOf_ok_iff {state : Json} {x : Bytes × Json} :
    (∃ o, linkOf (indexNames state) x = .ok o) ↔ (Joins (runesOf state) x → HasForm x.2) := by
  rw [linkOf, Joins]
  cases hs : resolveEnd (indexNames state) (x.2.get (.ofLit "from")) x.1 with
  | none =>
    refine ⟨fun _ h => ?_, fun _ => ⟨none, rfl⟩⟩
    obtain ⟨⟨r, hr⟩, -⟩ := h
    rw [resolveEnd_iff.mpr hr] at hs
    cases hs
  | some source =>
    cases ht : resolveEnd (indexNames state) (x.2.get (.ofLit "to")) x.1 with
    | none =>
      refine ⟨fun _ h => ?_, fun _ => ⟨none, rfl⟩⟩
      obtain ⟨-, r, hr⟩ := h
      rw [resolveEnd_iff.mpr hr] at ht
      cases ht
    | some target =>
      refine ⟨fun hl _ => ?_, fun h => ?_⟩
      · obtain ⟨o, ho⟩ := hl
        obtain ⟨bytes, hb, -⟩ := bind_eq_ok.mp ho
        exact ⟨bytes, hb⟩
      · obtain ⟨bytes, hb⟩ := h ⟨⟨_, resolveEnd_iff.mp hs⟩, _, resolveEnd_iff.mp ht⟩
        exact ⟨_, bind_eq_ok.mpr ⟨bytes, hb, rfl⟩⟩

theorem linkEach_eq_ok {names : Names} {xs : List (Bytes × Json)} {links : List Link}
    (h : linkEach names xs = .ok links) (l : Link) :
    l ∈ links ↔ ∃ x ∈ xs, linkOf names x = .ok (some l) := by
  induction xs generalizing links with
  | nil =>
    cases h
    simp
  | cons x xs ih =>
    obtain ⟨o, ho, h⟩ := bind_eq_ok.mp h
    obtain ⟨rest, hrest, h⟩ := bind_eq_ok.mp h
    cases h
    rw [List.mem_append, ih hrest, List.exists_mem_cons_iff, ho, Option.mem_toList]
    simp only [Except.ok.injEq]

theorem linkEach_ok_iff {names : Names} {xs : List (Bytes × Json)} :
    (∃ links, linkEach names xs = .ok links) ↔ ∀ x ∈ xs, ∃ o, linkOf names x = .ok o := by
  induction xs with
  | nil => simp [linkEach]
  | cons x xs ih =>
    rw [List.forall_mem_cons, ← ih]
    constructor
    · rintro ⟨links, h⟩
      obtain ⟨o, ho, h⟩ := bind_eq_ok.mp h
      obtain ⟨rest, hrest, -⟩ := bind_eq_ok.mp h
      exact ⟨⟨o, ho⟩, rest, hrest⟩
    · rintro ⟨⟨o, ho⟩, rest, hrest⟩
      exact ⟨_, bind_eq_ok.mpr ⟨o, ho, bind_eq_ok.mpr ⟨rest, hrest, rfl⟩⟩⟩

section

variable {α κ : Type} [DecidableEq κ] {key : α → κ} {a b : α} {xs : List α}

theorem mem_of_mem_uniqueAfter (h : b ∈ uniqueAfter key a xs) : b ∈ a :: xs := by
  induction xs generalizing a with
  | nil => exact h
  | cons c xs ih =>
    rw [uniqueAfter] at h
    split at h
    · rcases List.mem_cons.mp (ih h) with rfl | hm
      · exact List.mem_cons_self
      · exact List.mem_cons_of_mem _ (List.mem_cons_of_mem _ hm)
    · rcases List.mem_cons.mp h with rfl | hm
      · exact List.mem_cons_self
      · exact List.mem_cons_of_mem _ (ih hm)

theorem mem_uniqueAfter (hinj : ∀ b ∈ a :: xs, ∀ c ∈ a :: xs, key b = key c → b = c) :
    b ∈ uniqueAfter key a xs ↔ b ∈ a :: xs := by
  refine ⟨mem_of_mem_uniqueAfter, fun h => ?_⟩
  induction xs generalizing a with
  | nil => exact h
  | cons c xs ih =>
    rw [uniqueAfter]
    by_cases hk : key a = key c
    · obtain rfl := hinj a (by simp) c (by simp) hk
      rw [if_pos hk]
      refine ih (fun b hb d hd => hinj b ?_ d ?_) ?_
      · exact List.mem_cons_of_mem _ hb
      · exact List.mem_cons_of_mem _ hd
      · simpa using h
    · rw [if_neg hk]
      rcases List.mem_cons.mp h with rfl | hm
      · exact List.mem_cons_self
      · exact List.mem_cons_of_mem _ (ih (fun b hb d hd =>
          hinj b (List.mem_cons_of_mem _ hb) d (List.mem_cons_of_mem _ hd)) hm)

/-- Where items with one key are equal, none is lost. -/
theorem mem_uniqueOn (hinj : ∀ b ∈ xs, ∀ c ∈ xs, key b = key c → b = c) :
    b ∈ uniqueOn key xs ↔ b ∈ xs := by
  cases xs with
  | nil => rfl
  | cons a xs => exact mem_uniqueAfter hinj

end

/-! ### A link is its mantle and its bytes -/

theorem string?_norm (v : Json) : (norm v).string? = v.string? := by
  cases v with
  | num d =>
    rw [norm]
    cases d.whole? <;> rfl
  | _ => rfl

theorem bind_string?_norm (v : Option Json) : (v.map norm).bind Json.string? = v.bind Json.string? := by
  cases v with
  | none => rfl
  | some v => exact string?_norm v

/-- An end that is an object names a rune, and may name its mantle. -/
theorem endpoint_obj (ms : List (CString × Json)) (own : Bytes) :
    endpoint (some (.obj ms)) own = ((Json.lookup (.ofLit "rune") ms).bind Json.string?).map fun r =>
      (((Json.lookup (.ofLit "mantle") ms).bind Json.string?).elim own CString.bytes, r.bytes) := by
  rw [endpoint]
  cases Json.lookup (.ofLit "rune") ms with
  | none => rfl
  | some r =>
    cases r with
    | str r =>
      cases Json.lookup (.ofLit "mantle") ms with
      | none => rfl
      | some m => cases m <;> rfl
    | _ => rfl

/-- An end is read off the normal form. -/
theorem endpoint_norm {v : Json} (h : HasForm v) (own : Bytes) :
    endpoint (some (norm v)) own = endpoint (some v) own := by
  cases v with
  | num d =>
    rw [norm]
    cases d.whole? <;> rfl
  | obj ms =>
    have hget : ∀ k, Json.lookup k ((sortMembers ms).map normMember) = (Json.lookup k ms).map norm := by
      intro k
      have := get_norm h k
      rwa [norm_obj (hasForm_obj.mp h).2, Json.get_obj, Json.get_obj] at this
    rw [norm_obj (hasForm_obj.mp h).2, endpoint_obj, endpoint_obj, hget, hget, bind_string?_norm,
      bind_string?_norm]
  | _ => rfl

/-- Edges with the same canonical bytes end alike. -/
theorem endpoint_get_of_norm_eq {v w : Json} (hv : HasForm v) (hw : HasForm w) (h : norm v = norm w)
    (k : CString) (own : Bytes) : endpoint (v.get k) own = endpoint (w.get k) own := by
  have hget : (v.get k).map norm = (w.get k).map norm := by rw [← get_norm hv, ← get_norm hw, h]
  cases hvk : v.get k with
  | none =>
    cases hwk : w.get k with
    | none => rfl
    | some b =>
      rw [hvk, hwk] at hget
      cases hget
  | some a =>
    cases hwk : w.get k with
    | none =>
      rw [hvk, hwk] at hget
      cases hget
    | some b =>
      rw [hvk, hwk] at hget
      rw [← endpoint_norm (hasForm_get hv hvk), ← endpoint_norm (hasForm_get hw hwk),
        Option.some.inj hget]

/-- A link of a state is known by its mantle and its bytes. -/
theorem IsLink.inj {runes : List (RuneRef × Bytes)} {x y : Bytes × Json} {l l' : Link}
    (h : IsLink runes x l) (h' : IsLink runes y l') (hk : l.key = l'.key) : l = l' := by
  obtain ⟨hm, hk⟩ := List.cons.inj hk
  obtain ⟨hb, -⟩ := List.cons.inj hk
  have hown : x.1 = y.1 := by rw [← h.mantle, ← h'.mantle, hm]
  have hx : HasForm x.2 := ⟨_, h.bytes⟩
  have hy : HasForm y.2 := ⟨_, h'.bytes⟩
  have hn : norm x.2 = norm y.2 :=
    norm_eq_of_form_eq hx hy (by rw [form_of_encode h.bytes, form_of_encode h'.bytes, hb])
  have hend : ∀ k {r s}, Resolves runes (x.2.get k) x.1 r → Resolves runes (y.2.get k) y.1 s →
      r = s := by
    rintro k r s ⟨mantle, name, he, hr⟩ hs
    rw [hown, endpoint_get_of_norm_eq hx hy hn] at he
    exact Resolves.unique ⟨mantle, name, he, hr⟩ hs
  have hrel : l.relation = l'.relation := by
    rw [h.relation, h'.relation, strOr, strOr, ← bind_string?_norm, ← get_norm hx, hn, get_norm hy,
      bind_string?_norm]
  obtain ⟨m, r, s, t, b⟩ := l
  obtain ⟨m', r', s', t', b'⟩ := l'
  obtain rfl : m = m' := hm
  obtain rfl : b = b' := hb
  obtain rfl : r = r' := hrel
  obtain rfl : s = s' := hend _ h.source h'.source
  obtain rfl : t = t' := hend _ h.target h'.target
  rfl

/-- The resolved links are the edges that join two runes. -/
theorem mem_resolvedLinks {state : Json} {links : List Link} (h : resolvedLinks state = .ok links)
    (l : Link) : l ∈ links ↔ ∃ x ∈ edgesOf state, IsLink (runesOf state) x l := by
  obtain ⟨out, hout, h⟩ := bind_eq_ok.mp h
  cases h
  have hmem : ∀ l, l ∈ out ↔ ∃ x ∈ edgesOf state, IsLink (runesOf state) x l := by
    intro l
    simp only [linkEach_eq_ok hout, linkOf_eq_some]
  rw [← hmem, mem_uniqueOn, mem_sortOn]
  intro a ha b hb hk
  obtain ⟨x, -, hx⟩ := (hmem a).mp (mem_sortOn.mp ha)
  obtain ⟨y, -, hy⟩ := (hmem b).mp (mem_sortOn.mp hb)
  exact hx.inj hy hk

/-- They are found unless an edge that joins two runes has no canonical form. -/
theorem resolvedLinks_ok_iff {state : Json} : (∃ links, resolvedLinks state = .ok links) ↔
    ∀ x ∈ edgesOf state, Joins (runesOf state) x → HasForm x.2 := by
  have hread : (∃ links, resolvedLinks state = .ok links) ↔
      ∃ out, linkEach (indexNames state) (edgesOf state) = .ok out := by
    constructor
    · rintro ⟨links, h⟩
      obtain ⟨out, hout, -⟩ := bind_eq_ok.mp h
      exact ⟨out, hout⟩
    · rintro ⟨out, hout⟩
      exact ⟨_, bind_eq_ok.mpr ⟨out, hout, rfl⟩⟩
  rw [hread, linkEach_ok_iff]
  simp only [linkOf_ok_iff]

end VoidPalabra
