import VoidPalabra.Validate

/-!
# What the door accepts

`kindOf` says which kind of node a path of a document holds. A document is shaped
when every node that is there is of its path's kind, and `validate` accepts exactly
the shaped documents whose values are the ones their sets may hold.
-/

namespace VoidPalabra

/-- What a set at a path may hold. -/
inductive ValueRule where
  /-- Any bytes: a thing's `present`. -/
  | any
  /-- Canonical forms. -/
  | canonical
  /-- Canonical forms of maps: a glyph's descriptor. -/
  | declaration
  deriving DecidableEq

/-- What stands at a path of a document. -/
inductive Kind where
  /-- A map. -/
  | map
  /-- An OR-set. -/
  | set (rule : ValueRule)
  /-- The number that marks the document's shape. -/
  | marker
  deriving DecidableEq

/-- The kinds at a set: the set itself, and nothing below it. -/
def setKind (rule : ValueRule) (p : Path) : Option Kind :=
  if p = [] then some (.set rule) else none

/-- The kinds below a `fields` map. -/
def fieldsKind (allowed : CString → Bool) (rule : ValueRule) : Path → Option Kind
  | [] => some .map
  | f :: p => if allowed f then setKind rule p else none

/-- The kinds below a map of named things. -/
def namedKind (below : Path → Option Kind) : Path → Option Kind
  | [] => some .map
  | k :: p => if k.isEmpty then none else below p

/-- The kinds below a rune. -/
def runeKind : Path → Option Kind
  | [] => some .map
  | x :: p =>
    if x = Key.present then setKind .any p
    else if x = Key.fields then fieldsKind runeFieldAllowed .canonical p
    else if x = Key.tags then setKind .canonical p
    else none

/-- The kinds below a mantle. -/
def mantleKind : Path → Option Kind
  | [] => some .map
  | x :: p =>
    if x = Key.present then setKind .any p
    else if x = Key.fields then fieldsKind mantleFieldAllowed .canonical p
    else if x = Key.runes then namedKind runeKind p
    else if x = Key.edges then setKind .canonical p
    else none

/-- The kinds below a glyph. -/
def glyphKind : Path → Option Kind
  | [] => some .map
  | x :: p =>
    if x = Key.present then setKind .any p
    else if x = Key.fields then fieldsKind isGlyphField .declaration p
    else none

/-- The kind of node a path of a document holds. -/
def kindOf : Path → Option Kind
  | [] => some .map
  | x :: p =>
    if x = Key.palabra then (if p = [] then some .marker else none)
    else if x = Key.mantles then namedKind mantleKind p
    else if x = Key.glyphs then namedKind glyphKind p
    else none

/-- The values a rule accepts. -/
def ValueRule.Accepts (rule : ValueRule) (s : OrSet) : Prop :=
  match rule with
  | .any => True
  | .canonical => ∀ (t : Tag) (v : Bytes), s.adds[t]? = some v → isCanonical v = true
  | .declaration => ∀ (t : Tag) (v : Bytes), s.adds[t]? = some v →
      isCanonical v = true ∧ v.head? = some 0x08

/-- Exactly `{"a": {tag: lowercase hex}, "r": [tag, ...]}`, with nothing twice. -/
structure SpelledOrset (n : Json) : Prop where
  /-- The members are the two of an OR-set, and each entry is spelled right. -/
  wellFormed : orsetJsonWellFormed n = true
  /-- Neither member is there twice. -/
  nodup : (n.members.map Prod.fst).Nodup
  /-- No tag is added twice. -/
  adds_nodup : ∀ a, n.get Key.a = some a → (a.members.map Prod.fst).Nodup

/-- A node is spelled as its kind asks. -/
def NodeShape (k : Kind) (n : Json) : Prop :=
  match k with
  | .map => nodeRank n = 3 ∧ (n.members.map Prod.fst).Nodup
  | .set _ => SpelledOrset n
  | .marker => n = .num Double.one

/-- A node is spelled as its kind asks and holds values that its kind allows. -/
def NodeValid (k : Kind) (n : Json) : Prop :=
  NodeShape k n ∧ ∀ rule, k = .set rule → rule.Accepts (orsetFromJson (some n))

/-- Every node below `n` is at a path with a kind, and is as that kind asks. -/
def Everywhere (K : Path → Option Kind) (P : Kind → Json → Prop) (n : Json) : Prop :=
  ∀ p m, nodeAt n p = some m → ∃ k, K p = some k ∧ P k m

/-! ### One check after another -/

theorem bind_eq_ok_unit {ε : Type} {x y : Except ε Unit} :
    (x >>= fun _ => y) = .ok () ↔ x = .ok () ∧ y = .ok () := by
  cases x <;> simp [bind, Except.bind]

theorem fail_ne_ok (path : Bytes) (reason : String) : Check.fail path reason ≠ .ok () := by
  simp [Check.fail]

theorem demand_eq_ok {holds : Bool} {path : Bytes} {reason : String} :
    Check.demand holds path reason = .ok () ↔ holds = true := by
  cases holds <;> simp [Check.demand, Check.fail, pure, Except.pure]

theorem onlyIf_eq_ok {c : Bool} {check : Except Bytes Unit} :
    Check.onlyIf c check = .ok () ↔ (c = true → check = .ok ()) := by
  cases c <;> simp [Check.onlyIf, pure, Except.pure]

/-- A loop of checks succeeds when each of them does. -/
theorem forM_eq_ok {ε α : Type} {xs : List α} {f : α → Except ε Unit} :
    xs.forM f = .ok () ↔ ∀ x ∈ xs, f x = .ok () := by
  induction xs with
  | nil => simp [List.forM, pure, Except.pure]
  | cons x xs ih => rw [List.forM, bind_eq_ok_unit, ih, List.forall_mem_cons]

theorem present_eq_ok {n : Json} {k : CString} {check : Json → Except Bytes Unit} :
    Check.present n k check = .ok () ↔ ∀ v, n.get k = some v → check v = .ok () := by
  unfold Check.present
  cases n.get k <;> simp [pure, Except.pure]

/-- The duplicate check succeeds on names that are distinct and not seen before. -/
theorem noDuplicatesLoop_eq_ok {path : Bytes} {seen : NameSet} {ms : List (CString × Json)} :
    noDuplicatesLoop path seen ms = .ok () ↔
      (ms.map Prod.fst).Nodup ∧ ∀ k ∈ ms.map Prod.fst, k ∉ seen := by
  induction ms generalizing seen with
  | nil => simp [noDuplicatesLoop]
  | cons m ms ih =>
    obtain ⟨k, v⟩ := m
    rw [noDuplicatesLoop, List.map_cons, List.nodup_cons, List.forall_mem_cons]
    by_cases hs : k ∈ seen
    · rw [if_pos (Std.ExtTreeSet.contains_iff_mem.mpr hs)]
      simp [fail_ne_ok, hs]
    · rw [if_neg (by rwa [Std.ExtTreeSet.contains_iff_mem]), ih]
      constructor
      · rintro ⟨hn, hseen⟩
        refine ⟨⟨fun hk => hseen k hk Std.ExtTreeSet.mem_insert_self, hn⟩, hs, fun l hl hls => ?_⟩
        exact hseen l hl (Std.ExtTreeSet.mem_insert.mpr (.inr hls))
      · rintro ⟨⟨hk, hn⟩, -, hseen⟩
        refine ⟨hn, fun l hl hls => ?_⟩
        rcases Std.ExtTreeSet.mem_insert.mp hls with he | hls
        · exact hk (Std.LawfulEqCmp.eq_of_compare he ▸ hl)
        · exact hseen l hl hls

theorem noDuplicates_eq_ok {n : Json} {path : Bytes} :
    noDuplicates n path = .ok () ↔ (n.members.map Prod.fst).Nodup := by
  rw [noDuplicates, noDuplicatesLoop_eq_ok]
  simp

/-- An OR-set spelled exactly is an object with an object `a` and an array `r`. -/
theorem isOrset_of_wellFormed {n : Json} (h : orsetJsonWellFormed n = true) :
    isOrset n = true := by
  cases n with
  | obj ms =>
    rw [orsetJsonWellFormed] at h
    rw [isOrset, Json.get_obj, Json.get_obj]
    split at h
    · rename_i ha hr
      rw [ha, hr]
      rfl
    · cases h
  | _ => cases h

/-- The check of an OR-set: its spelling, and its values where they are checked. -/
theorem checkOrset_eq_ok {n : Json} {path : Bytes} {rule : Values} :
    checkOrset n path rule = .ok () ↔ SpelledOrset n ∧
      (rule = .canonical → ValueRule.Accepts .canonical (orsetFromJson (some n))) := by
  unfold checkOrset
  simp only [bind_eq_ok_unit, onlyIf_eq_ok, present_eq_ok, demand_eq_ok, noDuplicates_eq_ok,
    forM_eq_ok, beq_iff_eq, ValueRule.Accepts]
  have hval : (∀ kv ∈ (orsetFromJson (some n)).entries, isCanonical kv.2 = true) ↔
      ∀ (t : Tag) (v : Bytes), (orsetFromJson (some n)).adds[t]? = some v →
        isCanonical v = true := by
    constructor
    · intro h t v hv
      exact h (t, v) (OrSet.mem_entries.mpr hv)
    · rintro h ⟨t, v⟩ hm
      exact h t v (OrSet.mem_entries.mp hm)
  rw [hval]
  constructor
  · rintro ⟨hn, ha, hw, hv⟩
    have ho := isObject_of_isOrset (isOrset_of_wellFormed hw)
    refine ⟨⟨hw, hn ho, fun a hga => ?_⟩, hv⟩
    by_cases hao : a.isObject = true
    · exact ha a hga hao
    · cases a with
      | obj ms => exact absurd rfl hao
      | _ => exact List.nodup_nil
  · rintro ⟨⟨hw, hn, ha⟩, hv⟩
    exact ⟨fun _ => hn, fun a hga _ => ha a hga, hw, hv⟩

theorem checkMembers_eq_ok {n : Json} {path : Bytes} {allowed : CString → Bool} :
    checkMembers n path allowed = .ok () ↔
      n.isObject = true ∧ (n.members.map Prod.fst).Nodup ∧ ∀ m ∈ n.members, allowed m.1 = true := by
  unfold checkMembers
  simp only [bind_eq_ok_unit, demand_eq_ok, noDuplicates_eq_ok, forM_eq_ok]

theorem checkNamed_eq_ok {n : Json} {path : Bytes}
    {check : CString → Json → Bytes → Except Bytes Unit} :
    checkNamed n path check = .ok () ↔ n.isObject = true ∧ (n.members.map Prod.fst).Nodup ∧
      ∀ m ∈ n.members, check m.1 m.2 (path ++ lit "." ++ m.1.bytes) = .ok () := by
  unfold checkNamed
  simp only [bind_eq_ok_unit, demand_eq_ok, noDuplicates_eq_ok, forM_eq_ok]

/-! ### Trees of kinds -/

/-- No kind of node is an array. -/
theorem NodeShape.notArray {k : Kind} {n : Json} (h : NodeShape k n) : n.isArray = false := by
  cases k with
  | map =>
    obtain ⟨ms, rfl⟩ := exists_members_of_rank h.1
    rfl
  | set rule =>
    have ho := isObject_of_isOrset (isOrset_of_wellFormed (SpelledOrset.wellFormed h))
    cases n with
    | obj ms => rfl
    | _ => cases ho
  | marker =>
    rw [show n = .num Double.one from h]
    rfl

/-- An object none of whose members is an array is a map. -/
theorem nodeRank_of_members {ms : List (CString × Json)}
    (h : ∀ m ∈ ms, m.2.isArray = false) : nodeRank (.obj ms) = 3 := by
  refine nodeRank_eq_three.mpr ⟨rfl, ?_⟩
  rw [isOrset, Json.get_obj, Json.get_obj]
  cases hr : Json.lookup Key.r ms with
  | none => simp
  | some r => simp [h _ (Json.mem_of_lookup hr)]

/-- A tree of kinds at a single node that is no map. -/
theorem everywhere_of_rank_ne {K : Path → Option Kind} {P : Kind → Json → Prop} {n : Json}
    (h : nodeRank n ≠ 3) : Everywhere K P n ↔ ∃ k, K [] = some k ∧ P k n := by
  constructor
  · intro he
    exact he [] n rfl
  · intro hk p m hm
    cases p with
    | nil =>
      cases hm
      exact hk
    | cons x p =>
      rw [nodeAt_cons, if_neg h] at hm
      cases hm

/-- A tree of kinds at a map: the map itself, and each of its members. -/
theorem everywhere_of_rank {K : Path → Option Kind} {P : Kind → Json → Prop} {n : Json}
    (h : nodeRank n = 3) : Everywhere K P n ↔
      (∃ k, K [] = some k ∧ P k n) ∧
        ∀ x v, n.get x = some v → Everywhere (fun p => K (x :: p)) P v := by
  constructor
  · intro he
    refine ⟨he [] n rfl, fun x v hv p m hm => he (x :: p) m ?_⟩
    rw [nodeAt_cons, if_pos h, hv]
    exact hm
  · rintro ⟨hk, hv⟩ p m hm
    cases p with
    | nil =>
      cases hm
      exact hk
    | cons x p =>
      rw [nodeAt_cons, if_pos h] at hm
      obtain ⟨v, hx, hm⟩ := Option.bind_eq_some_iff.mp hm
      exact hv x v hx p m hm

/-- Everywhere below a map of valid nodes. -/
theorem everywhere_map {K : Path → Option Kind} {n : Json} (hK : K [] = some .map) :
    Everywhere K NodeValid n ↔ n.isObject = true ∧ (n.members.map Prod.fst).Nodup ∧
      ∀ m ∈ n.members, Everywhere (fun p => K (m.1 :: p)) NodeValid m.2 := by
  constructor
  · intro he
    obtain ⟨k, hk, hn⟩ := he [] n rfl
    rw [hK] at hk
    cases hk
    obtain ⟨hr, hd⟩ := hn.1
    refine ⟨(nodeRank_eq_three.mp hr).1, hd, fun m hm => ?_⟩
    obtain ⟨ms, rfl⟩ := exists_members_of_rank hr
    exact ((everywhere_of_rank hr).mp he).2 m.1 m.2 (Json.lookup_of_mem hd hm)
  · rintro ⟨ho, hd, hm⟩
    cases n with
    | obj ms =>
      have hr : nodeRank (.obj ms) = 3 := by
        refine nodeRank_of_members fun m hmem => ?_
        obtain ⟨k, -, hv⟩ := hm m hmem [] m.2 rfl
        exact hv.1.notArray
      refine (everywhere_of_rank hr).mpr ⟨⟨.map, hK, ⟨hr, hd⟩, by simp⟩, fun x v hv => ?_⟩
      exact hm (x, v) (Json.mem_of_lookup hv)
    | _ => cases ho

/-- A set is a single node. -/
theorem everywhere_set {K : Path → Option Kind} {n : Json} {rule : ValueRule}
    (hK : K [] = some (.set rule)) :
    Everywhere K NodeValid n ↔ SpelledOrset n ∧ rule.Accepts (orsetFromJson (some n)) := by
  constructor
  · intro he
    obtain ⟨k, hk, hn⟩ := he [] n rfl
    rw [hK] at hk
    cases hk
    exact ⟨hn.1, hn.2 rule rfl⟩
  · rintro ⟨hs, ha⟩
    have hr : nodeRank n = 2 := nodeRank_eq_two.mpr (isOrset_of_wellFormed hs.wellFormed)
    refine (everywhere_of_rank_ne (by omega)).mpr ⟨_, hK, hs, ?_⟩
    rintro _ ⟨⟩
    exact ha

/-- Nothing is where a path has no kind. -/
theorem not_everywhere {K : Path → Option Kind} {n : Json} (hK : K [] = none) :
    ¬Everywhere K NodeValid n := by
  intro he
  obtain ⟨k, hk, -⟩ := he [] n rfl
  rw [hK] at hk
  cases hk

/-- Members that are named once are what a lookup finds. -/
theorem forall_members {n : Json} (hd : (n.members.map Prod.fst).Nodup)
    {Q : CString → Json → Prop} :
    (∀ m ∈ n.members, Q m.1 m.2) ↔ ∀ k v, n.get k = some v → Q k v := by
  constructor
  · intro h k v hv
    rw [Json.get_eq_lookup_members] at hv
    exact h (k, v) (Json.mem_of_lookup hv)
  · rintro h ⟨k, v⟩ hm
    exact h k v (by rw [Json.get_eq_lookup_members]; exact Json.lookup_of_mem hd hm)

/-- A map, as a check of its members and of what each of them holds. -/
theorem everywhere_map_get {K : Path → Option Kind} {n : Json} (hK : K [] = some .map) :
    Everywhere K NodeValid n ↔ n.isObject = true ∧ (n.members.map Prod.fst).Nodup ∧
      ∀ k v, n.get k = some v → Everywhere (fun p => K (k :: p)) NodeValid v := by
  rw [everywhere_map hK]
  refine and_congr_right fun _ => and_congr_right fun hd => ?_
  exact forall_members (Q := fun k v => Everywhere (fun p => K (k :: p)) NodeValid v) hd

theorem fieldsOf_eq_ok {allowed : CString → Bool} {f : Json} {path : Bytes} :
    fieldsOf allowed f path = .ok () ↔ Everywhere (fieldsKind allowed .canonical) NodeValid f := by
  unfold fieldsOf
  rw [bind_eq_ok_unit, checkMembers_eq_ok, forM_eq_ok, everywhere_map rfl]
  simp only [checkOrset_eq_ok, forall_const]
  constructor
  · rintro ⟨⟨ho, hd, hal⟩, hs⟩
    refine ⟨ho, hd, fun m hm => (everywhere_set ?_).mpr (hs m hm)⟩
    exact if_pos (hal m hm)
  · rintro ⟨ho, hd, hm⟩
    have hal : ∀ m ∈ f.members, allowed m.1 = true := by
      intro m hmem
      by_contra hna
      exact not_everywhere (K := fun p => fieldsKind allowed .canonical (m.1 :: p)) (if_neg hna)
        (hm m hmem)
    refine ⟨⟨ho, hd, hal⟩, fun m hmem => ?_⟩
    exact (everywhere_set (if_pos (hal m hmem))).mp (hm m hmem)

/-- A `present` set, which may hold anything. -/
theorem checkOrset_any_iff {K : Path → Option Kind} {n : Json} {path : Bytes}
    (hK : K [] = some (.set .any)) :
    checkOrset n path .any = .ok () ↔ Everywhere K NodeValid n := by
  rw [checkOrset_eq_ok, everywhere_set hK]
  simp [ValueRule.Accepts]

/-- A set of canonical values. -/
theorem checkOrset_canonical_iff {K : Path → Option Kind} {n : Json} {path : Bytes}
    (hK : K [] = some (.set .canonical)) :
    checkOrset n path .canonical = .ok () ↔ Everywhere K NodeValid n := by
  rw [checkOrset_eq_ok, everywhere_set hK]
  simp

theorem checkDescriptor_iff {K : Path → Option Kind} {d : Json} {path : Bytes}
    (hK : K [] = some (.set .declaration)) :
    checkDescriptor d path = .ok () ↔ Everywhere K NodeValid d := by
  unfold checkDescriptor
  rw [bind_eq_ok_unit, checkOrset_eq_ok, forM_eq_ok, everywhere_set hK, and_assoc]
  refine and_congr_right fun _ => ?_
  simp only [demand_eq_ok, beq_iff_eq, forall_const, ValueRule.Accepts]
  constructor
  · rintro ⟨hc, hm⟩ t v hv
    exact ⟨hc t v hv, hm (t, v) (OrSet.mem_entries.mpr hv)⟩
  · intro h
    exact ⟨fun t v hv => (h t v hv).1, fun kv hm => (h kv.1 kv.2 (OrSet.mem_entries.mp hm)).2⟩

theorem checkName_eq_ok {k : CString} {path : Bytes} :
    checkName k path = .ok () ↔ k.isEmpty = false := by
  rw [checkName, demand_eq_ok]
  simp

/-- A map whose names are limited: its members, and what each of them holds. -/
theorem everywhere_record {K : Path → Option Kind} {n : Json} (allowed : CString → Bool)
    (hK : K [] = some .map) (hno : ∀ k, allowed k = false → K [k] = none) :
    Everywhere K NodeValid n ↔
      (n.isObject = true ∧ (n.members.map Prod.fst).Nodup ∧ ∀ m ∈ n.members, allowed m.1 = true) ∧
        ∀ k, allowed k = true → ∀ v, n.get k = some v →
          Everywhere (fun p => K (k :: p)) NodeValid v := by
  rw [everywhere_map_get hK]
  constructor
  · rintro ⟨ho, hd, he⟩
    refine ⟨⟨ho, hd, ?_⟩, fun k _ v hv => he k v hv⟩
    refine (forall_members (Q := fun k _ => allowed k = true) hd).mpr fun k v hv => ?_
    by_contra hna
    exact not_everywhere (hno k (by simpa using hna)) (he k v hv)
  · rintro ⟨⟨ho, hd, hal⟩, hc⟩
    have hal' := (forall_members (Q := fun k _ => allowed k = true) hd).mp hal
    exact ⟨ho, hd, fun k v hv => hc k (hal' k v hv) v hv⟩

/-- A map of named things. -/
theorem checkNamed_iff {below : Path → Option Kind} {n : Json} {path : Bytes}
    {check : CString → Json → Bytes → Except Bytes Unit}
    (hc : ∀ k v path, check k v path = .ok () ↔ k.isEmpty = false ∧ Everywhere below NodeValid v) :
    checkNamed n path check = .ok () ↔ Everywhere (namedKind below) NodeValid n := by
  have hnode : ∀ k v, (k.isEmpty = false ∧ Everywhere below NodeValid v) ↔
      Everywhere (fun p => namedKind below (k :: p)) NodeValid v := by
    intro k v
    cases hk : k.isEmpty with
    | true =>
      simp [not_everywhere (K := fun p => namedKind below (k :: p)) (n := v)
        (by rw [namedKind, hk]; rfl)]
    | false => simp [namedKind, hk]
  rw [checkNamed_eq_ok, everywhere_map rfl]
  simp only [hc, hnode]

/-- A rune is accepted when it is named and every node below it is of its kind. -/
theorem checkRune_iff {name : CString} {r : Json} {path : Bytes} :
    checkRune name r path = .ok () ↔ name.isEmpty = false ∧ Everywhere runeKind NodeValid r := by
  have hfields : (fun p => runeKind (Key.fields :: p)) = fieldsKind runeFieldAllowed .canonical :=
    rfl
  unfold checkRune
  simp only [bind_eq_ok_unit, checkName_eq_ok, checkMembers_eq_ok, present_eq_ok]
  rw [everywhere_record isRuneMember rfl]
  · simp only [isRuneMember, Bool.or_eq_true, beq_iff_eq, or_imp, forall_and, forall_eq, hfields,
      fieldsOfRune, fieldsOf_eq_ok, and_assoc,
      checkOrset_any_iff (K := fun p => runeKind (Key.present :: p)) rfl,
      checkOrset_canonical_iff (K := fun p => runeKind (Key.tags :: p)) rfl]
  · intro k hk
    simp only [isRuneMember, Bool.or_eq_false_iff, beq_eq_false_iff_ne] at hk
    simp [runeKind, hk]

/-- A mantle is accepted when it is named and every node below it is of its kind. -/
theorem checkMantle_iff {name : CString} {m : Json} {path : Bytes} :
    checkMantle name m path = .ok () ↔
      name.isEmpty = false ∧ Everywhere mantleKind NodeValid m := by
  have hfields : (fun p => mantleKind (Key.fields :: p)) =
      fieldsKind mantleFieldAllowed .canonical := rfl
  have hrunes : (fun p => mantleKind (Key.runes :: p)) = namedKind runeKind := rfl
  have hcheck : ∀ n path, checkNamed n path checkRune = .ok () ↔
      Everywhere (namedKind runeKind) NodeValid n := fun n path =>
    checkNamed_iff fun _ _ _ => checkRune_iff
  unfold checkMantle
  simp only [bind_eq_ok_unit, checkName_eq_ok, checkMembers_eq_ok, present_eq_ok]
  rw [everywhere_record isMantleMember rfl]
  · simp only [isMantleMember, Bool.or_eq_true, beq_iff_eq, or_imp, forall_and, forall_eq, hfields,
      hrunes, hcheck, fieldsOfMantle, fieldsOf_eq_ok, and_assoc,
      checkOrset_any_iff (K := fun p => mantleKind (Key.present :: p)) rfl,
      checkOrset_canonical_iff (K := fun p => mantleKind (Key.edges :: p)) rfl]
    refine and_congr_right fun _ => and_congr_right fun _ => and_congr_right fun _ =>
      and_congr_right fun _ => and_congr_right fun _ => and_congr_right fun _ => and_comm
  · intro k hk
    simp only [isMantleMember, Bool.or_eq_false_iff, beq_eq_false_iff_ne] at hk
    simp [mantleKind, hk]

/-- A glyph is accepted when it is named and every node below it is of its kind. -/
theorem checkGlyph_iff {name : CString} {g : Json} {path : Bytes} :
    checkGlyph name g path = .ok () ↔ name.isEmpty = false ∧ Everywhere glyphKind NodeValid g := by
  have hfields : (fun p => glyphKind (Key.fields :: p)) = fieldsKind isGlyphField .declaration :=
    rfl
  have hcheck : ∀ f path path',
      (checkMembers f path isGlyphField = .ok () ∧
        Check.present f Key.descriptor (fun d => checkDescriptor d path') = .ok ()) ↔
      Everywhere (fieldsKind isGlyphField .declaration) NodeValid f := by
    intro f path path'
    rw [everywhere_record isGlyphField rfl, checkMembers_eq_ok, present_eq_ok]
    · simp only [isGlyphField, beq_iff_eq, forall_eq, checkDescriptor_iff
        (K := fun p => fieldsKind isGlyphField .declaration (Key.descriptor :: p)) rfl]
    · intro k hk
      simp [fieldsKind, hk]
  unfold checkGlyph
  simp only [bind_eq_ok_unit, checkName_eq_ok, checkMembers_eq_ok, present_eq_ok (n := g)]
  rw [everywhere_record isGlyphMember rfl]
  · simp only [isGlyphMember, Bool.or_eq_true, beq_iff_eq, or_imp, forall_and, forall_eq, hfields,
      ← hcheck _ (path ++ lit ".fields") (path ++ lit ".fields.descriptor"), checkMembers_eq_ok,
      and_assoc, checkOrset_any_iff (K := fun p => glyphKind (Key.present :: p)) rfl]
  · intro k hk
    simp only [isGlyphMember, Bool.or_eq_false_iff, beq_eq_false_iff_ne] at hk
    simp [glyphKind, hk]

/-! ### Documents -/

/-- Every node below the root is spelled as its path's kind asks, and the marker of
the document's shape is there. -/
structure Shaped (root : Json) : Prop where
  /-- Every node is of its path's kind. -/
  kinds : Everywhere kindOf NodeShape root
  /-- The marker. -/
  marker : root.get Key.palabra = some (.num Double.one)

/-- Every set holds values that its path allows. -/
def ValuesAccepted (root : Json) : Prop :=
  ∀ p rule n, kindOf p = some (.set rule) → nodeAt root p = some n →
    rule.Accepts (orsetFromJson (some n))

/-- Only the double `1.0` is equal to it. -/
theorem Double.eq_one_iff {d : Double} : d.eq Double.one = true ↔ d = Double.one := by
  have hone : Double.one.bits.toNat = 1023 * 2 ^ 52 := by decide +kernel
  have hkey : Double.one.key = 1023 * 2 ^ 52 := by decide +kernel
  constructor
  · intro h
    simp only [Double.eq, Bool.and_eq_true, decide_eq_true_eq, hkey] at h
    obtain ⟨-, hk⟩ := h
    have hlt := d.bits.toNat_lt
    have hbits : d.bits.toNat = Double.one.bits.toNat := by
      rw [hone]
      simp only [Double.key, Double.negative, decide_eq_true_eq] at hk
      split at hk <;> omega
    cases d
    exact congrArg Double.mk (UInt64.toNat_inj.mp hbits)
  · rintro rfl
    decide +kernel

theorem readsShapeOne_iff {root : Json} :
    readsShapeOne root = true ↔ root.get Key.palabra = some (.num Double.one) := by
  unfold readsShapeOne
  split
  · rename_i d hd
    rw [hd, Double.eq_one_iff]
    simp
  · rename_i h
    simp only [Bool.false_eq_true, false_iff]
    exact h _

/-- The check accepts exactly the shaped documents whose values are accepted. -/
theorem validate_iff {root : Json} :
    validate root = .ok () ↔ Shaped root ∧ ValuesAccepted root := by
  have hmantles : (fun p => kindOf (Key.mantles :: p)) = namedKind mantleKind := rfl
  have hglyphs : (fun p => kindOf (Key.glyphs :: p)) = namedKind glyphKind := rfl
  have hvalid : (Shaped root ∧ ValuesAccepted root) ↔
      Everywhere kindOf NodeValid root ∧ root.get Key.palabra = some (.num Double.one) := by
    constructor
    · rintro ⟨⟨hs, hm⟩, hv⟩
      refine ⟨fun p n hn => ?_, hm⟩
      obtain ⟨k, hk, hn'⟩ := hs p n hn
      exact ⟨k, hk, hn', fun rule hr => hv p rule n (hr ▸ hk) hn⟩
    · rintro ⟨he, hm⟩
      refine ⟨⟨fun p n hn => ?_, hm⟩, fun p rule n hk hn => ?_⟩
      · obtain ⟨k, hk, hv⟩ := he p n hn
        exact ⟨k, hk, hv.1⟩
      · obtain ⟨k, hk', hv⟩ := he p n hn
        rw [hk] at hk'
        cases hk'
        exact hv.2 rule rfl
  rw [hvalid]
  unfold validate
  simp only [bind_eq_ok_unit, demand_eq_ok, checkMembers_eq_ok, present_eq_ok, readsShapeOne_iff,
    checkNamed_iff (fun _ _ _ => checkMantle_iff), checkNamed_iff (fun _ _ _ => checkGlyph_iff)]
  rw [everywhere_record isRootMember rfl]
  · simp only [isRootMember, Bool.or_eq_true, beq_iff_eq, or_imp, forall_and, forall_eq, hmantles,
      hglyphs]
    constructor
    · rintro ⟨-, hm, hp, hms, hgs⟩
      refine ⟨⟨hm, ⟨fun v hv => ?_, hms⟩, hgs⟩, hp⟩
      rw [hp] at hv
      cases hv
      refine (everywhere_of_rank_ne (by decide)).mpr ⟨.marker, rfl, rfl, by simp⟩
    · rintro ⟨⟨hm, ⟨-, hms⟩, hgs⟩, hp⟩
      exact ⟨hm.1, hm, hp, hms, hgs⟩
  · intro k hk
    simp only [isRootMember, Bool.or_eq_false_iff, beq_eq_false_iff_ne] at hk
    simp [kindOf, hk]

end VoidPalabra
