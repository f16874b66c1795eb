import VoidPalabra.Identity
import VoidPalabra.Keeps

/-!
# The tags of a document, set by set

The walks over a tree that gather its tags and its adds go through its sets in order, so
what they find is what the sets hold, wherever these are.
-/

namespace VoidPalabra

mutual

/-- The sets of a tree in document order, each with its path. -/
def setsIn (n : Json) (p : Path) : List (Path × OrSet) :=
  if isOrset n then [(p, orsetFromJson (some n))]
  else
    match n with
    | .obj members => setsBelow members p
    | _ => []

/-- The sets of the children of a map. -/
def setsBelow : List (CString × Json) → Path → List (Path × OrSet)
  | [], _ => []
  | (k, v) :: rest, p => setsIn v (p ++ [k]) ++ setsBelow rest p

end

theorem setsIn_orset {n : Json} (h : isOrset n = true) (p : Path) :
    setsIn n p = [(p, orsetFromJson (some n))] := by
  cases n with
  | obj ms => rw [setsIn, if_pos h]
  | _ => cases isObject_of_isOrset h

theorem setsIn_leaf {n : Json} (h : n.isObject = false) (p : Path) : setsIn n p = [] := by
  cases n with
  | obj ms => cases h
  | _ => rfl

/-- What is gathered of every set. -/
theorem setsIn_induct {β : Type} {f : Json → Path → List β} {g : List (CString × Json) → Path → List β}
    {h : Path × OrSet → List β}
    (hset : ∀ n p, isOrset n = true → f n p = h (p, orsetFromJson (some n)))
    (hobj : ∀ ms p, isOrset (.obj ms) = false → f (.obj ms) p = g ms p)
    (hleaf : ∀ n p, isOrset n = false → n.isObject = false → f n p = [])
    (hnil : ∀ p, g [] p = []) (hcons : ∀ k v ms p, g ((k, v) :: ms) p = f v (p ++ [k]) ++ g ms p)
    (n : Json) : ∀ p, f n p = (setsIn n p).flatMap h := by
  have hother : ∀ n : Json, n.isObject = false → ∀ p, f n p = (setsIn n p).flatMap h := by
    intro n hn p
    have ho : isOrset n = false := Bool.eq_false_iff.mpr fun ho => by
      rw [isObject_of_isOrset ho] at hn
      cases hn
    rw [setsIn_leaf hn, hleaf n p ho hn, List.flatMap_nil]
  induction n using Json.induct with
  | obj ms ih =>
    have hbelow : ∀ p, g ms p = (setsBelow ms p).flatMap h := by
      induction ms with
      | nil => exact fun p => hnil p
      | cons m ms ihs =>
        obtain ⟨k, v⟩ := m
        intro p
        rw [hcons, setsBelow, List.flatMap_append, ih (k, v) List.mem_cons_self,
          ihs fun m hm => ih m (List.mem_cons_of_mem _ hm)]
    intro p
    rw [setsIn]
    split
    · rename_i ho
      rw [hset _ p ho, List.flatMap_singleton]
    · rename_i ho
      rw [hobj ms p (by simpa using ho), hbelow]
  | null => exact hother _ rfl
  | bool b => exact hother _ rfl
  | num d => exact hother _ rfl
  | str s => exact hother _ rfl
  | arr xs _ => exact hother _ rfl

theorem addsIn_eq_flatMap (n : Json) (p : Path) :
    addsIn n p = (setsIn n p).flatMap fun x => x.2.entries.map fun kv => (kv.1, x.1, kv.2) := by
  refine setsIn_induct (f := addsIn) (g := addsBelow) ?_ ?_ ?_ ?_ ?_ n p
  · intro n p ho
    cases n with
    | obj ms => rw [addsIn, if_pos ho]
    | _ => cases isObject_of_isOrset ho
  · intro ms p ho
    rw [addsIn, if_neg (by simp [ho])]
  · intro n p ho hn
    cases n with
    | obj ms => cases hn
    | _ => rfl
  · exact fun p => rfl
  · exact fun k v ms p => rfl

theorem collectAllTags_eq_flatMap (n : Json) (p : Path) :
    collectAllTags n = (setsIn n p).flatMap fun x => x.2.adds.keys ++ x.2.removes.toList := by
  refine setsIn_induct (f := fun n _ => collectAllTags n) (g := fun ms _ => collectAllTagsBelow ms)
    (h := fun x : Path × OrSet => x.2.adds.keys ++ x.2.removes.toList) ?_ ?_ ?_ ?_ ?_ n p
  · intro n p ho
    cases n with
    | obj ms => simp only [collectAllTags, ho, if_true]
    | _ => cases isObject_of_isOrset ho
  · intro ms p ho
    simp only [collectAllTags, ho, if_false, Bool.false_eq_true]
  · intro n p ho hn
    cases n with
    | obj ms => cases hn
    | _ => rfl
  · exact fun p => rfl
  · exact fun k v ms p => rfl

/-- The sets of a tree are those at its paths. -/
theorem mem_setsIn {n : Json} (h : NamedOnce n) : ∀ {p q : Path} {s : OrSet},
    (q, s) ∈ setsIn n p ↔ ∃ r, q = p ++ r ∧ cellAt n r = some (.set s) := by
  have hset : ∀ {n : Json} {p q : Path} {s : OrSet}, nodeRank n = 2 →
      ((q, s) ∈ setsIn n p ↔ ∃ r, q = p ++ r ∧ cellAt n r = some (.set s)) := by
    intro n p q s hr
    rw [setsIn_orset (nodeRank_eq_two.mp hr), List.mem_singleton, Prod.mk.injEq]
    constructor
    · rintro ⟨rfl, rfl⟩
      exact ⟨[], (List.append_nil q).symm, by rw [cellAt_nil, cellOf_orset hr]⟩
    · rintro ⟨r, rfl, hc⟩
      cases r with
      | nil =>
        rw [cellAt_nil, cellOf_orset hr] at hc
        cases hc
        exact ⟨List.append_nil p, rfl⟩
      | cons k r =>
        rw [cellAt_cons_none (by omega)] at hc
        cases hc
  have hleaf : ∀ {n : Json} {p q : Path} {s : OrSet}, n.isObject = false →
      ((q, s) ∈ setsIn n p ↔ ∃ r, q = p ++ r ∧ cellAt n r = some (.set s)) := by
    intro n p q s hn
    have hr := nodeRank_eq_one.mpr hn
    rw [setsIn_leaf hn]
    refine ⟨fun hm => (nomatch hm), ?_⟩
    rintro ⟨r, -, hc⟩
    cases r with
    | nil =>
      rw [cellAt_nil, cellOf_leaf hr] at hc
      cases hc
    | cons k r =>
      rw [cellAt_cons_none (by omega)] at hc
      cases hc
  induction n using Json.induct with
  | obj ms ih =>
    rcases nodeRank_cases (.obj ms) with hr | hr | hr
    · cases nodeRank_eq_one.mp hr
    · exact fun {p q s} => hset hr
    · have hno : isOrset (.obj ms) = false := (nodeRank_eq_three.mp hr).2
      obtain ⟨hd, hms⟩ := (namedOnce_map hr).mp h
      have hbelow : ∀ {p q : Path} {s : OrSet} (ns : List (CString × Json)),
          (q, s) ∈ setsBelow ns p ↔ ∃ m ∈ ns, (q, s) ∈ setsIn m.2 (p ++ [m.1]) := by
        intro p q s ns
        induction ns with
        | nil => simp [setsBelow]
        | cons m ns ihs => rw [setsBelow, List.mem_append, ihs, List.exists_mem_cons_iff]
      intro p q s
      rw [setsIn, if_neg (by simp [hno]), hbelow]
      constructor
      · rintro ⟨⟨k, v⟩, hm, hq⟩
        have hl := Json.lookup_of_mem hd hm
        obtain ⟨r, rfl, hc⟩ := (ih (k, v) hm (hms k v hl)).mp hq
        refine ⟨k :: r, by simp, ?_⟩
        rwa [cellAt_cons hr, Json.get_obj, hl]
      · rintro ⟨r, rfl, hc⟩
        cases r with
        | nil =>
          rw [cellAt_nil, cellOf_map hr] at hc
          cases hc
        | cons k r =>
          rw [cellAt_cons hr, Json.get_obj] at hc
          obtain ⟨v, hv, hc⟩ := Option.bind_eq_some_iff.mp hc
          have hm := Json.mem_of_lookup hv
          exact ⟨(k, v), hm, (ih (k, v) hm (hms k v hv)).mpr ⟨r, by simp, hc⟩⟩
  | null => exact fun {_ _ _} => hleaf rfl
  | bool b => exact fun {_ _ _} => hleaf rfl
  | num d => exact fun {_ _ _} => hleaf rfl
  | str s => exact fun {_ _ _} => hleaf rfl
  | arr xs _ => exact fun {_ _ _} => hleaf rfl

/-- The set at a path is empty, or the set of a cell. -/
theorem cellAt_of_setAt {n : Json} {q : Path} (h : setAt n q ≠ .empty) :
    cellAt n q = some (.set (setAt n q)) := by
  unfold setAt at h ⊢
  split at h
  · rename_i s hs
    rw [hs]
  · exact absurd rfl h

/-- The adds that a walk finds are those of the sets. -/
theorem mem_addsIn {n : Json} (h : NamedOnce n) {t : Tag} {q : Path} {v : Bytes} :
    (t, q, v) ∈ addsIn n [] ↔ (setAt n q).adds[t]? = some v := by
  rw [addsIn_eq_flatMap, List.mem_flatMap]
  constructor
  · rintro ⟨⟨p, s⟩, hm, hx⟩
    obtain ⟨r, rfl, hc⟩ := (mem_setsIn h).mp hm
    obtain ⟨⟨u, w⟩, hu, he⟩ := List.mem_map.mp hx
    cases he
    dsimp only at hc ⊢
    rw [setAt, hc]
    exact OrSet.mem_entries.mp hu
  · intro hv
    have hne : setAt n q ≠ .empty := fun he => by
      rw [he] at hv
      cases hv
    exact ⟨(q, setAt n q), (mem_setsIn h).mpr ⟨q, rfl, cellAt_of_setAt hne⟩,
      List.mem_map.mpr ⟨(t, v), OrSet.mem_entries.mpr hv, rfl⟩⟩

/-- So are the tags. -/
theorem mem_collectAllTags_iff {n : Json} (h : NamedOnce n) {t : Tag} :
    t ∈ collectAllTags n ↔ ∃ q, (∃ v, (setAt n q).adds[t]? = some v) ∨ t ∈ (setAt n q).removes := by
  have hmem : ∀ s : OrSet, t ∈ s.adds.keys ++ s.removes.toList ↔
      (∃ v, s.adds[t]? = some v) ∨ t ∈ s.removes := by
    intro s
    rw [List.mem_append, Std.ExtTreeMap.mem_keys, Std.ExtTreeSet.mem_toList,
      Std.ExtTreeMap.mem_iff_isSome_getElem?, Option.isSome_iff_exists]
  rw [collectAllTags_eq_flatMap n [], List.mem_flatMap]
  constructor
  · rintro ⟨⟨p, s⟩, hm, hx⟩
    obtain ⟨r, rfl, hc⟩ := (mem_setsIn h).mp hm
    refine ⟨p, ?_⟩
    rw [setAt, hc]
    exact (hmem s).mp hx
  · rintro ⟨q, hq⟩
    have hne : setAt n q ≠ .empty := fun he => by
      rw [he] at hq
      simp at hq
    exact ⟨(q, setAt n q), (mem_setsIn h).mpr ⟨q, rfl, cellAt_of_setAt hne⟩, (hmem _).mpr hq⟩

end VoidPalabra
