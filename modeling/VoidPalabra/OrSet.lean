import VoidPalabra.Encode

/-!
# The one primitive

An OR-set is a map from unique tags to values and a set of retired tags. `join` is
union on both members. Its JSON spelling keeps values as lowercase hexadecimal,
and reading skips every entry that is spelled in any other way.
-/

namespace VoidPalabra

/-- A tag names one add. -/
abbrev Tag := CString

/-- `OrSet`: what was added under which tag, and which tags are retired. -/
@[ext] structure OrSet where
  /-- Values by tag. -/
  adds : Dict Bytes
  /-- Retired tags; a retired tag may have no add here. -/
  removes : NameSet
  deriving DecidableEq

namespace OrSet

/-- The empty set. -/
def empty : OrSet := ⟨∅, ∅⟩

/-- `OrSet::add`. -/
def add (s : OrSet) (tag : Tag) (value : Bytes) : OrSet := { s with adds := s.adds.insert tag value }

/-- The adds as a list of pairs in tag order. -/
def entries (s : OrSet) : List (Tag × Bytes) := s.adds.toList

/-- `OrSet::remove_value`. -/
def removeValue (s : OrSet) (value : Bytes) : OrSet :=
  ⟨s.adds, s.removes.insertMany ((s.entries.filter fun kv => kv.2 == value).map Prod.fst)⟩

/-- `OrSet::remove_all`. -/
def removeAll (s : OrSet) : OrSet :=
  ⟨s.adds, s.removes.insertMany (s.entries.map Prod.fst)⟩

/-- The adds that are not retired. -/
def liveEntries (s : OrSet) : List (Tag × Bytes) :=
  s.entries.filter fun kv => !s.removes.contains kv.1

/-- `OrSet::values`: sorted and without repetition. -/
def values (s : OrSet) : List Bytes := sortUnique (s.liveEntries.map Prod.snd)

/-- `OrSet::empty`. -/
def isEmpty (s : OrSet) : Bool := s.values.isEmpty

/-- `join`: an add of the second set replaces one of the first under its tag. -/
def join (a b : OrSet) : OrSet := ⟨a.adds ∪ b.adds, a.removes ∪ b.removes⟩

/-- `write`: retire what is there and add the value. -/
def write (r : OrSet) (tag : Tag) (value : Bytes) : OrSet := r.removeAll.add tag value

/-- A tag that is added and not retired. -/
def IsLive (s : OrSet) (tag : Tag) (value : Bytes) : Prop :=
  s.adds[tag]? = some value ∧ tag ∉ s.removes

/-- No tag is the empty string, which no JSON spelling keeps. -/
structure Named (s : OrSet) : Prop where
  /-- Added tags. -/
  adds : ∀ (t : Tag) (v : Bytes), s.adds[t]? = some v → t.isEmpty = false
  /-- Retired tags. -/
  removes : ∀ t ∈ s.removes, t.isEmpty = false

/-- Two sets that have a tag in common have one value under it. -/
def Agree (a b : OrSet) : Prop :=
  ∀ (t : Tag) (v w : Bytes), a.adds[t]? = some v → b.adds[t]? = some w → v = w

/-! ### What each operation does, tag by tag -/

theorem mem_entries {s : OrSet} {t : Tag} {v : Bytes} :
    (t, v) ∈ s.entries ↔ s.adds[t]? = some v :=
  Std.ExtTreeMap.mem_toList_iff_getElem?_eq_some

@[simp] theorem empty_adds (t : Tag) : empty.adds[t]? = none := rfl

@[simp] theorem not_mem_empty_removes (t : Tag) : t ∉ empty.removes := by
  simp [empty]

theorem mem_liveEntries {s : OrSet} {t : Tag} {v : Bytes} :
    (t, v) ∈ s.liveEntries ↔ s.IsLive t v := by
  have hc : (!s.removes.contains t) = true ↔ t ∉ s.removes := by
    rw [Bool.not_eq_true', ← Bool.not_eq_true, Std.ExtTreeSet.contains_iff_mem]
  rw [liveEntries, List.mem_filter, mem_entries, hc, IsLive]

/-- A value is shown when some tag that names it is live. -/
theorem mem_values {s : OrSet} {v : Bytes} : v ∈ s.values ↔ ∃ t, s.IsLive t v := by
  unfold values
  rw [mem_sortUnique, List.mem_map]
  constructor
  · rintro ⟨⟨t, w⟩, h, rfl⟩
    exact ⟨t, mem_liveEntries.mp h⟩
  · rintro ⟨t, h⟩
    exact ⟨(t, v), mem_liveEntries.mpr h, rfl⟩

/-- A set shows nothing exactly when no tag is live. -/
theorem values_eq_nil_iff {s : OrSet} : s.values = [] ↔ ∀ t v, ¬s.IsLive t v := by
  rw [List.eq_nil_iff_forall_not_mem]
  constructor
  · intro h t v hl
    exact h v (mem_values.mpr ⟨t, hl⟩)
  · intro h v hv
    obtain ⟨t, hl⟩ := mem_values.mp hv
    exact h t v hl

theorem isEmpty_iff {s : OrSet} : s.isEmpty = true ↔ ∀ t v, ¬s.IsLive t v := by
  rw [isEmpty, List.isEmpty_iff, values_eq_nil_iff]

@[simp] theorem values_empty : empty.values = [] := by
  rw [values_eq_nil_iff]
  simp [IsLive]

@[simp] theorem add_adds (s : OrSet) (t u : Tag) (v : Bytes) :
    (s.add t v).adds[u]? = if t = u then some v else s.adds[u]? := by
  simp [add, Std.ExtTreeMap.getElem?_insert]

@[simp] theorem add_removes (s : OrSet) (t : Tag) (v : Bytes) :
    (s.add t v).removes = s.removes := rfl

@[simp] theorem removeAll_adds (s : OrSet) : s.removeAll.adds = s.adds := rfl

/-- Everything that was added is retired. -/
theorem mem_removeAll {s : OrSet} {t : Tag} :
    t ∈ s.removeAll.removes ↔ t ∈ s.removes ∨ ∃ v, s.adds[t]? = some v := by
  simp only [removeAll, Std.ExtTreeSet.mem_insertMany_list, List.contains_iff_mem, List.mem_map]
  refine or_congr Iff.rfl ?_
  constructor
  · rintro ⟨⟨u, v⟩, h, rfl⟩
    exact ⟨v, mem_entries.mp h⟩
  · rintro ⟨v, h⟩
    exact ⟨(t, v), mem_entries.mpr h, rfl⟩

@[simp] theorem removeValue_adds (s : OrSet) (v : Bytes) : (s.removeValue v).adds = s.adds := rfl

/-- Every tag that names the value is retired. -/
theorem mem_removeValue {s : OrSet} {t : Tag} {v : Bytes} :
    t ∈ (s.removeValue v).removes ↔ t ∈ s.removes ∨ s.adds[t]? = some v := by
  simp only [removeValue, Std.ExtTreeSet.mem_insertMany_list, List.contains_iff_mem, List.mem_map,
    List.mem_filter, beq_iff_eq]
  refine or_congr Iff.rfl ?_
  constructor
  · rintro ⟨⟨u, w⟩, ⟨h, rfl⟩, rfl⟩
    exact mem_entries.mp h
  · intro h
    exact ⟨(t, v), ⟨mem_entries.mpr h, rfl⟩, rfl⟩

theorem join_adds (a b : OrSet) (t : Tag) :
    (a.join b).adds[t]? = b.adds[t]?.or a.adds[t]? :=
  Std.ExtTreeMap.getElem?_union

@[simp] theorem mem_join_removes {a b : OrSet} {t : Tag} :
    t ∈ (a.join b).removes ↔ t ∈ a.removes ∨ t ∈ b.removes :=
  Std.ExtTreeSet.mem_union_iff

/-- Sets with the same adds and the same retired tags are equal. -/
theorem ext_tags {a b : OrSet} (ha : ∀ t : Tag, a.adds[t]? = b.adds[t]?)
    (hr : ∀ t, t ∈ a.removes ↔ t ∈ b.removes) : a = b :=
  OrSet.ext (Std.ExtTreeMap.ext_getElem? ha) (Std.ExtTreeSet.ext_mem hr)

/-! ### The join -/

theorem join_self (a : OrSet) : a.join a = a := by
  refine ext_tags (fun t => ?_) fun t => ?_
  · rw [join_adds]
    cases a.adds[t]? <;> rfl
  · simp

theorem join_assoc (a b c : OrSet) : (a.join b).join c = a.join (b.join c) := by
  refine ext_tags (fun t => ?_) fun t => ?_
  · simp only [join_adds]
    cases c.adds[t]? <;> rfl
  · simp [or_assoc]

/-- The join of two sets does not depend on their order exactly when they give no
tag two values. -/
theorem join_comm_iff {a b : OrSet} : a.join b = b.join a ↔ Agree a b := by
  constructor
  · intro h t v w hv hw
    have ht := join_adds a b t
    rw [h, join_adds, hv, hw] at ht
    exact Option.some.inj ht
  · intro h
    refine ext_tags (fun t => ?_) fun t => ?_
    · rw [join_adds, join_adds]
      cases ha : a.adds[t]? with
      | none => cases b.adds[t]? <;> rfl
      | some v =>
        cases hb : b.adds[t]? with
        | none => rfl
        | some w =>
          rw [h t v w ha hb]
    · rw [mem_join_removes, mem_join_removes]
      exact or_comm

theorem join_empty (a : OrSet) : a.join empty = a := by
  refine ext_tags (fun t => ?_) fun t => ?_
  · rw [join_adds, empty_adds, Option.none_or]
  · simp

theorem empty_join (a : OrSet) : empty.join a = a := by
  refine ext_tags (fun t => ?_) fun t => ?_
  · rw [join_adds, empty_adds, Option.or_none]
  · simp

theorem named_empty : Named empty where
  adds := by simp
  removes := by simp

theorem named_add {s : OrSet} {t : Tag} {v : Bytes} (h : s.Named) (ht : t.isEmpty = false) :
    (s.add t v).Named where
  adds := by
    intro u w hu
    rw [add_adds] at hu
    split at hu
    · rename_i he
      exact he ▸ ht
    · exact h.adds u w hu
  removes := h.removes

theorem Named.join {a b : OrSet} (ha : Named a) (hb : Named b) : Named (a.join b) where
  adds := by
    intro t v h
    rw [join_adds] at h
    rcases Option.or_eq_some_iff.mp h with h | ⟨-, h⟩
    · exact hb.adds t v h
    · exact ha.adds t v h
  removes := by
    intro t h
    rcases mem_join_removes.mp h with h | h
    · exact ha.removes t h
    · exact hb.removes t h

end OrSet

/-! ### Hexadecimal -/

/-- A digit of `"0123456789abcdef"`. -/
def hexDigit (n : ℕ) : UInt8 := if n < 10 then (0x30 + n).toUInt8 else (0x57 + n).toUInt8

/-- Two digits for each byte. -/
def hexBytes (raw : Bytes) : Bytes :=
  raw.flatMap fun c => [hexDigit (c.toNat / 16), hexDigit (c.toNat % 16)]

/-- The `nib` of `unhex_strict`: lowercase digits only. -/
def nib (c : UInt8) : Option ℕ :=
  if 0x30 ≤ c ∧ c ≤ 0x39 then some (c.toNat - 0x30)
  else if 0x61 ≤ c ∧ c ≤ 0x66 then some (c.toNat - 0x61 + 10)
  else none

/-- `unhex_strict`: an even number of lowercase digits, and nothing else. -/
def unhexStrict : Bytes → Option Bytes
  | [] => some []
  | [_] => none
  | hi :: lo :: rest => do
    let hi ← nib hi
    let lo ← nib lo
    let raw ← unhexStrict rest
    pure ((hi * 16 + lo).toUInt8 :: raw)

theorem hexDigit_ne_zero {n : ℕ} (h : n < 16) : hexDigit n ≠ 0 := by
  interval_cases n <;> decide

theorem length_hexBytes (raw : Bytes) : (hexBytes raw).length = 2 * raw.length := by
  simp [hexBytes, Nat.mul_comm]

/-- Digits are no NUL. -/
theorem noNul_hexBytes (raw : Bytes) : (0 : UInt8) ∉ hexBytes raw := by
  intro h
  obtain ⟨c, -, hc⟩ := List.mem_flatMap.mp h
  have hlt := c.toNat_lt
  simp only [List.mem_cons, List.not_mem_nil, or_false] at hc
  rcases hc with hc | hc
  · exact hexDigit_ne_zero (by omega) hc.symm
  · exact hexDigit_ne_zero (by omega) hc.symm

theorem nib_hexDigit {n : ℕ} (h : n < 16) : nib (hexDigit n) = some n := by
  interval_cases n <;> decide

theorem hexDigit_nib {c : UInt8} {n : ℕ} (h : nib c = some n) : n < 16 ∧ hexDigit n = c := by
  revert n
  have hall : ∀ c : UInt8, (nib c).all (fun n => decide (n < 16) && hexDigit n == c) = true := by
    intro c
    have : ∀ i : Fin 256, (nib (UInt8.ofNat i)).all
        (fun n => decide (n < 16) && hexDigit n == UInt8.ofNat i) = true := by decide +kernel
    have hc := this ⟨c.toNat, c.toNat_lt⟩
    simpa using hc
  intro n h
  have hc := hall c
  rw [h] at hc
  simpa using hc

/-- What is written is read back. -/
theorem unhexStrict_hexBytes (raw : Bytes) : unhexStrict (hexBytes raw) = some raw := by
  induction raw with
  | nil => rfl
  | cons c raw ih =>
    have hc := c.toNat_lt
    rw [hexBytes, List.flatMap_cons, ← hexBytes]
    simp only [List.cons_append, List.nil_append, unhexStrict,
      nib_hexDigit (by omega : c.toNat / 16 < 16), nib_hexDigit (by omega : c.toNat % 16 < 16),
      Option.bind_eq_bind, Option.bind_some, ih]
    have he : c.toNat / 16 * 16 + c.toNat % 16 = c.toNat := by omega
    rw [he]
    simp

/-- Only what would be written is read. -/
theorem hexBytes_unhexStrict {s raw : Bytes} (h : unhexStrict s = some raw) : hexBytes raw = s := by
  induction s using unhexStrict.induct generalizing raw with
  | case1 =>
    cases h
    rfl
  | case2 => cases h
  | case3 hi lo rest ih =>
    simp only [unhexStrict, Option.bind_eq_bind, Option.bind_eq_some_iff] at h
    obtain ⟨a, ha, b, hb, r, hr, h⟩ := h
    cases h
    obtain ⟨ha16, rfl⟩ := hexDigit_nib ha
    obtain ⟨hb16, rfl⟩ := hexDigit_nib hb
    have hn : (a * 16 + b).toUInt8.toNat = a * 16 + b := by
      simp only [Nat.toUInt8, UInt8.toNat_ofNat']
      omega
    rw [hexBytes, List.flatMap_cons, ← hexBytes, ih hr, hn]
    have h1 : (a * 16 + b) / 16 = a := by omega
    have h2 : (a * 16 + b) % 16 = b := by omega
    rw [h1, h2]
    rfl

/-- `hexify`. -/
def hexify (raw : Bytes) : CString :=
  ⟨hexBytes raw, by
    intro h
    obtain ⟨c, -, hc⟩ := List.mem_flatMap.mp h
    have := c.toNat_lt
    simp only [List.mem_cons, List.not_mem_nil, or_false] at hc
    rcases hc with hc | hc
    · exact hexDigit_ne_zero (by omega) hc.symm
    · exact hexDigit_ne_zero (by omega) hc.symm⟩

@[simp] theorem unhexStrict_hexify (raw : Bytes) : unhexStrict (hexify raw).bytes = some raw :=
  unhexStrict_hexBytes raw

/-! ### The JSON spelling -/

/-- `orset_to_json`. -/
def orsetToJson (s : OrSet) : Json :=
  .obj [(Key.a, .obj (s.entries.map fun kv => (kv.1, .str (hexify kv.2)))),
    (Key.r, .arr (s.removes.toList.map .str))]

/-- The add that a member of `a` spells, if it spells one. -/
def addOf (m : CString × Json) : Option (Tag × Bytes) :=
  if m.1.isEmpty then none
  else do
    let hex ← m.2.string?
    let raw ← unhexStrict hex.bytes
    pure (m.1, raw)

/-- The tag that an item of `r` spells, if it spells one. -/
def removeOf (v : Json) : Option Tag := do
  let t ← v.string?
  if t.isEmpty then none else pure t

/-- The members of `a`, a later one under a name replacing an earlier one. -/
def readAdds (members : List (CString × Json)) : Dict Bytes :=
  Std.ExtTreeMap.ofList (members.filterMap addOf) compare

/-- The items of `r`. -/
def readRemoves (items : List Json) : NameSet :=
  Std.ExtTreeSet.ofList (items.filterMap removeOf) compare

/-- `orset_from_json`: what is malformed is skipped, and a missing node is empty. -/
def orsetFromJson (o : Option Json) : OrSet :=
  ⟨match get o Key.a with
    | some (.obj members) => readAdds members
    | _ => ∅,
   match get o Key.r with
    | some (.arr items) => readRemoves items
    | _ => ∅⟩

/-- `is_orset`: an object with an object `a` and an array `r`. -/
def isOrset (n : Json) : Bool :=
  n.isObject && (n.get Key.a).any Json.isObject && (n.get Key.r).any Json.isArray

/-- `orset_json_well_formed`. -/
def orsetJsonWellFormed (o : Json) : Bool :=
  match o with
  | .obj members =>
    match Json.lookup Key.a members, Json.lookup Key.r members with
    | some (.obj adds), some (.arr removes) =>
      members.length == 2 && adds.all (fun m => (addOf m).isSome) &&
        removes.all (fun v => (removeOf v).isSome)
    | _, _ => false
  | _ => false

theorem addOf_eq_some {m : CString × Json} {t : Tag} {v : Bytes} :
    addOf m = some (t, v) ↔ m = (t, .str (hexify v)) ∧ t.isEmpty = false := by
  obtain ⟨k, j⟩ := m
  unfold addOf
  cases hk : k.isEmpty with
  | true =>
    simp only [if_true, reduceCtorEq, false_iff, not_and]
    rintro ⟨rfl, -⟩
    simp [hk]
  | false =>
    simp only [Bool.false_eq_true, if_false, Option.bind_eq_bind, Option.bind_eq_some_iff]
    constructor
    · rintro ⟨hex, hs, raw, hr, h⟩
      cases h
      cases j <;> cases hs
      exact ⟨congrArg _ (congrArg _ (CString.ext (hexBytes_unhexStrict hr).symm)), hk⟩
    · rintro ⟨h, -⟩
      cases h
      exact ⟨_, rfl, _, unhexStrict_hexify v, rfl⟩

theorem removeOf_eq_some {j : Json} {t : Tag} :
    removeOf j = some t ↔ j = .str t ∧ t.isEmpty = false := by
  unfold removeOf
  cases j with
  | str u =>
    simp only [Json.string?, Option.bind_eq_bind, Option.bind_some, Json.str.injEq]
    split
    · rename_i hu
      simp only [reduceCtorEq, false_iff, not_and]
      rintro rfl
      simp [hu]
    · rename_i hu
      simp only [pure, Option.some.injEq, iff_self_and]
      rintro rfl
      simpa using hu
  | _ => simp [Json.string?]

/-- The adds that reading keeps are spelled somewhere among the members. -/
theorem mem_of_readAdds {ms : List (CString × Json)} {t : Tag} {v : Bytes}
    (h : (readAdds ms)[t]? = some v) : (t, Json.str (hexify v)) ∈ ms ∧ t.isEmpty = false := by
  obtain ⟨m, hm, ha⟩ := List.mem_filterMap.mp (mem_of_getElem?_ofList h)
  obtain ⟨rfl, ht⟩ := addOf_eq_some.mp ha
  exact ⟨hm, ht⟩

theorem filterMap_addOf_nodup {ms : List (CString × Json)} (hd : (ms.map Prod.fst).Nodup) :
    ((ms.filterMap addOf).map Prod.fst).Nodup := by
  refine List.Pairwise.map Prod.fst (fun a b h => h) ?_
  refine List.Pairwise.filterMap addOf ?_ (List.pairwise_map.mp hd)
  rintro a b hab ⟨t, v⟩ ht ⟨u, w⟩ hu he
  obtain ⟨rfl, -⟩ := addOf_eq_some.mp ht
  obtain ⟨rfl, -⟩ := addOf_eq_some.mp hu
  exact hab he

/-- Of members that are named once, reading keeps exactly the well spelled ones. -/
theorem readAdds_getElem? {ms : List (CString × Json)} (hd : (ms.map Prod.fst).Nodup) {t : Tag}
    {v : Bytes} :
    (readAdds ms)[t]? = some v ↔ (t, Json.str (hexify v)) ∈ ms ∧ t.isEmpty = false := by
  refine ⟨mem_of_readAdds, fun ⟨hm, ht⟩ => ?_⟩
  refine (getElem?_ofList (filterMap_addOf_nodup hd)).mpr ?_
  exact List.mem_filterMap.mpr ⟨_, hm, addOf_eq_some.mpr ⟨rfl, ht⟩⟩

theorem mem_readRemoves {items : List Json} {t : Tag} :
    t ∈ readRemoves items ↔ Json.str t ∈ items ∧ t.isEmpty = false := by
  rw [readRemoves, Std.ExtTreeSet.mem_ofList, List.contains_iff_mem, List.mem_filterMap]
  constructor
  · rintro ⟨j, hj, hr⟩
    obtain ⟨rfl, ht⟩ := removeOf_eq_some.mp hr
    exact ⟨hj, ht⟩
  · rintro ⟨hj, ht⟩
    exact ⟨_, hj, removeOf_eq_some.mpr ⟨rfl, ht⟩⟩

/-- What is read has no empty tag. -/
theorem named_orsetFromJson (o : Option Json) : (orsetFromJson o).Named where
  adds := by
    intro t v h
    unfold orsetFromJson at h
    dsimp only at h
    split at h
    · exact (mem_of_readAdds h).2
    · simp at h
  removes := by
    intro t h
    unfold orsetFromJson at h
    dsimp only at h
    split at h
    · exact (mem_readRemoves.mp h).2
    · simp at h

@[simp] theorem orsetFromJson_none : orsetFromJson none = OrSet.empty := rfl

/-- A set is read back from its JSON spelling. -/
theorem orsetFromJson_orsetToJson {s : OrSet} (h : s.Named) :
    orsetFromJson (some (orsetToJson s)) = s := by
  refine OrSet.ext_tags (fun t => ?_) fun t => ?_
  · have hkeys : ((s.entries.map fun kv => (kv.1, Json.str (hexify kv.2))).map Prod.fst).Nodup := by
      rw [List.map_map]
      exact dict_keys_nodup s.adds
    change (readAdds (s.entries.map fun kv => (kv.1, Json.str (hexify kv.2))))[t]? = _
    refine Option.ext fun v => ?_
    rw [readAdds_getElem? hkeys, List.mem_map]
    constructor
    · rintro ⟨⟨⟨u, w⟩, hm, he⟩, -⟩
      obtain ⟨rfl, hs⟩ := Prod.mk.inj he
      have hw := congrArg unhexStrict (congrArg CString.bytes (Json.str.inj hs))
      rw [unhexStrict_hexify, unhexStrict_hexify] at hw
      cases hw
      exact OrSet.mem_entries.mp hm
    · intro hv
      exact ⟨⟨(t, v), OrSet.mem_entries.mpr hv, rfl⟩, h.adds t v hv⟩
  · change t ∈ readRemoves (s.removes.toList.map .str) ↔ _
    rw [mem_readRemoves, List.mem_map]
    constructor
    · rintro ⟨⟨u, hu, he⟩, -⟩
      cases he
      exact Std.ExtTreeSet.mem_toList.mp hu
    · intro ht
      exact ⟨⟨t, Std.ExtTreeSet.mem_toList.mpr ht, rfl⟩, h.removes t ht⟩

@[simp] theorem isOrset_orsetToJson (s : OrSet) : isOrset (orsetToJson s) = true := rfl

end VoidPalabra
