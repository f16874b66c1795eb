import VoidPalabra.Restored

/-!
# The Lamport clock

A merge moves the counter to the largest one that the other document carries, up to a ceiling, and the
next tag is minted past it. The ceiling bounds the tags that are read and not the counter: from the
ceiling on the next tag lies beyond it, and no other replica follows.
-/

namespace VoidPalabra

/-! ### Stamps of minted tags -/

theorem splitLast_append {c : UInt8} {a b : Bytes} (h : c ∉ b) : splitLast c (a ++ c :: b) = some (a, b) := by
  have htail : (a ++ c :: b).reverse.takeWhile (· ≠ c) = b.reverse := by
    rw [List.reverse_append, List.reverse_cons, List.append_assoc, List.takeWhile_append_of_pos]
    · simp
    · intro x hx
      have hne : x ≠ c := fun hxc => h (hxc ▸ List.mem_reverse.mp hx)
      simpa using hne
  rw [splitLast, htail]
  simp only [List.length_reverse, List.length_append, List.length_cons, List.reverse_reverse]
  rw [if_neg (by omega)]
  have hlen : a.length + (b.length + 1) - b.length - 1 = a.length := by omega
  rw [hlen, List.take_left]

theorem stampOf_mintTag (id : CString) (n : ℕ) :
    stampOf (mintTag id n).bytes = ⟨(readDecimal 0 (decimal n)).getD 0, id.bytes, (mintTag id n).bytes⟩ := by
  have hcut : (0x5F : UInt8) ∉ decimal n := fun h => absurd (digit_of_mem_decimal h).2 (by decide)
  have hsplit : splitLast 0x5F (mintTag id n).bytes = some (id.bytes, decimal n) := splitLast_append hcut
  rw [stampOf, hsplit]

/-- A counter that fits its type is read back. -/
theorem stampOf_mintTag_n {id : CString} {n : ℕ} (h : n ≤ digitGuard * 10 + 9) :
    (stampOf (mintTag id n).bytes).n = n := by
  rw [stampOf_mintTag, readDecimal_decimal h, Option.getD_some]

/-- A counter that does not fit is read as zero. -/
theorem stampOf_mintTag_n_le (id : CString) (n : ℕ) :
    (stampOf (mintTag id n).bytes).n = n ∨ (stampOf (mintTag id n).bytes).n = 0 := by
  rw [stampOf_mintTag]
  cases h : readDecimal 0 (decimal n) with
  | none => exact .inr rfl
  | some m => exact .inl (readDecimal_decimal_eq h)

theorem Stamp.lt_of_n {a b : Stamp} (h : a.n < b.n) : a.lt b = true := by
  rw [Stamp.lt, if_pos (Nat.ne_of_lt h), decide_eq_true h]

/-! ### The largest counter -/

/-- The loop of `highest_counter`. -/
theorem foldl_highest (ts : List Tag) (best : ℕ) (m : ℕ) :
    ts.foldl (fun best t =>
      if (stampOf t.bytes).n ≤ kLamportCeiling ∧ best < (stampOf t.bytes).n then (stampOf t.bytes).n
      else best) best ≤ m ↔
        best ≤ m ∧ ∀ t ∈ ts, (stampOf t.bytes).n ≤ kLamportCeiling → (stampOf t.bytes).n ≤ m := by
  induction ts generalizing best with
  | nil => simp
  | cons t ts ih =>
    rw [List.foldl_cons, ih, List.forall_mem_cons]
    split
    · constructor
      · rintro ⟨h, hts⟩
        exact ⟨by omega, fun _ => h, hts⟩
      · rintro ⟨-, h, hts⟩
        exact ⟨h (by omega), hts⟩
    · constructor
      · rintro ⟨h, hts⟩
        exact ⟨h, fun _ => by omega, hts⟩
      · rintro ⟨h, -, hts⟩
        exact ⟨h, hts⟩

theorem highestCounter_le_iff {n : Json} {m : ℕ} : highestCounter n ≤ m ↔
    ∀ t ∈ collectAllTags n, (stampOf t.bytes).n ≤ kLamportCeiling → (stampOf t.bytes).n ≤ m := by
  rw [highestCounter, foldl_highest]
  simp only [Nat.zero_le, true_and, Std.ExtTreeSet.mem_toList, mem_allTags]

/-- A tag up to the ceiling is followed. -/
theorem le_highestCounter {n : Json} {t : Tag} (ht : t ∈ collectAllTags n)
    (h : (stampOf t.bytes).n ≤ kLamportCeiling) : (stampOf t.bytes).n ≤ highestCounter n :=
  highestCounter_le_iff.mp le_rfl t ht h

theorem highestCounter_le_ceiling (n : Json) : highestCounter n ≤ kLamportCeiling :=
  highestCounter_le_iff.mpr fun _ _ h => h

/-! ### A document with one tag -/

/-- Where its tag is. -/
def taggedPath : Path := [Key.mantles, .ofLit "m", Key.present]

/-- A document with a mantle that is present under one tag. -/
def tagged (t : Tag) : Json := putAt taggedPath (orsetToJson (OrSet.empty.add t (lit "1"))) emptyRoot

theorem isSetPath_taggedPath : IsSetPath taggedPath := ⟨.any, by decide⟩

section

variable {t : Tag} (ht : t.isEmpty = false)

include ht

theorem named_single : (OrSet.empty.add t (lit "1")).Named where
  adds := by
    intro u v hu
    rw [OrSet.add_adds] at hu
    split at hu
    · rename_i he
      rw [← he]
      exact ht
    · simp at hu
  removes := fun u hu => by simp [OrSet.add, OrSet.empty] at hu

theorem shaped_tagged : Shaped (tagged t) :=
  shaped_emptyRoot.putAt isSetPath_taggedPath (named_single ht)

theorem setAt_tagged (p : Path) :
    setAt (tagged t) p = if p = taggedPath then OrSet.empty.add t (lit "1") else .empty := by
  rw [tagged, setAt_putAt shaped_emptyRoot isSetPath_taggedPath (named_single ht), setAt_emptyRoot]

theorem validate_tagged : validate (tagged t) = .ok () := by
  refine validate_iff.mpr ⟨shaped_tagged ht, (valuesAccepted_iff (shaped_tagged ht)).mpr fun p u v hu => ?_⟩
  rw [setAt_tagged ht] at hu
  split at hu
  · rename_i he
    rw [he]
    exact acceptedAt_present [Key.mantles, .ofLit "m"] v
  · simp at hu

theorem mem_collectAllTags_tagged {u : Tag} : u ∈ collectAllTags (tagged t) ↔ u = t := by
  rw [mem_collectAllTags_iff (shaped_tagged ht).namedOnce]
  constructor
  · rintro ⟨q, hq⟩
    rw [setAt_tagged ht] at hq
    split at hq
    · rcases hq with ⟨v, hv⟩ | hq
      · rw [OrSet.add_adds] at hv
        split at hv
        · rename_i he
          exact he.symm
        · simp at hv
      · simp [OrSet.add, OrSet.empty] at hq
    · simp [OrSet.empty] at hq
  · rintro rfl
    refine ⟨taggedPath, .inl ⟨lit "1", ?_⟩⟩
    rw [setAt_tagged ht, if_pos rfl, OrSet.add_adds, if_pos rfl]

end

/-! ### Tags under another identity -/

theorem eq_of_cut {a b x y : Bytes} (ha : (0x5F : UInt8) ∉ a) (hb : (0x5F : UInt8) ∉ b)
    (h : a ++ 0x5F :: x = b ++ 0x5F :: y) : a = b := by
  have hcut : ∀ {l m : Bytes}, (0x5F : UInt8) ∉ l → (l ++ 0x5F :: m).takeWhile (· ≠ 0x5F) = l := by
    intro l m hl
    rw [List.takeWhile_append_of_pos]
    · simp
    · intro c hc
      have hne : c ≠ 0x5F := fun he => hl (he ▸ hc)
      simpa using hne
  rw [← hcut (m := x) ha, h, hcut hb]

/-- A tag that is read as a replica's own starts with its identity. -/
theorem eq_append_of_ownCounter {tag id : Bytes} (h : (ownCounter tag id).isSome = true) :
    ∃ rest, tag = id ++ 0x5F :: rest := by
  unfold ownCounter at h
  split at h
  · cases h
  · rename_i hne
    simp only [not_or, Bool.not_eq_true', Bool.not_eq_false, not_not] at hne
    obtain ⟨-, hpre, hat⟩ := hne
    obtain ⟨rest, rfl⟩ := List.isPrefixOf_iff_prefix.mp hpre
    rw [List.getElem?_append_right le_rfl, Nat.sub_self] at hat
    cases rest with
    | nil => cases hat
    | cons c rest =>
      cases hat
      exact ⟨rest, rfl⟩

theorem not_mem_of_validId {id : CString} (h : validId id = .ok ()) : (0x5F : UInt8) ∉ id.bytes :=
  fun hc => idChar_ne_underscore ((validId_iff.mp h).2 _ hc) rfl

/-- A tag of one replica is no tag of another. -/
theorem id_eq_of_ownCounter {id id' : CString} {n : ℕ} (hid : validId id = .ok ())
    (hid' : validId id' = .ok ()) (h : (ownCounter (mintTag id n).bytes id'.bytes).isSome = true) :
    id = id' := by
  obtain ⟨rest, he⟩ := eq_append_of_ownCounter h
  exact CString.ext (eq_of_cut (not_mem_of_validId hid) (not_mem_of_validId hid') he)

/-- A new replica merges the tag of another one. -/
theorem merge_tagged {id id' : CString} {n : ℕ} (hid : validId id = .ok ()) (hid' : validId id' = .ok ())
    (hne : id' ≠ id) : ((newReplica id').merge (tagged (mintTag id n))).1 = .ok := by
  have hval := validate_tagged (isEmpty_mintTag id n)
  have hnone : ¬ ∃ why, (newReplica id').merge (tagged (mintTag id n)) =
      (.identityCollision why, newReplica id') := by
    rw [merge_identityCollision_iff hval]
    rintro ⟨t, ht, hown, -⟩
    rw [(mem_collectAllTags_tagged (isEmpty_mintTag id n)).mp ht] at hown
    exact hne (id_eq_of_ownCounter hid hid' hown).symm
  revert hnone
  unfold Replica.merge
  rw [hval]
  dsimp only
  split
  · rename_i why _
    exact fun hnone => absurd ⟨why, rfl⟩ hnone
  · exact fun _ => rfl

/-! ### Who follows a tag -/

/-- Another replica that merges a document with this tag mints past it from then on, and so outranks it. -/
def Followed (id : CString) (n : ℕ) : Prop :=
  ∀ (q : Replica) (d : Json), validId q.id = .ok () → q.id ≠ id → (q.merge d).1 = .ok →
    mintTag id n ∈ collectAllTags d → n ≤ (q.merge d).2.issued ∧
      ∀ m, (q.merge d).2.issued < m → m ≤ digitGuard * 10 + 9 →
        (stampOf (mintTag id n).bytes).lt (stampOf (mintTag q.id m).bytes) = true

/-- **A tag is followed exactly up to the ceiling.** -/
theorem followed_iff {id : CString} (hid : validId id = .ok ()) (n : ℕ) :
    Followed id n ↔ n ≤ kLamportCeiling := by
  constructor
  · intro h
    by_contra hn
    obtain ⟨other, hother, hne⟩ : ∃ other, validId other = .ok () ∧ other ≠ id := by
      by_cases ha : idA = id
      · exact ⟨idB, by decide, fun hb => absurd (ha.trans hb.symm) (by decide)⟩
      · exact ⟨idA, by decide, ha⟩
    have hok := @merge_tagged id other n hid hother hne
    have hmem := (@mem_collectAllTags_tagged _ (isEmpty_mintTag id n) _).mpr rfl
    obtain ⟨hle, -⟩ := h (newReplica other) _ hother hne hok hmem
    have hzero : highestCounter (tagged (mintTag id n)) ≤ 0 := by
      refine highestCounter_le_iff.mpr fun t ht hceil => ?_
      rw [(mem_collectAllTags_tagged (isEmpty_mintTag id n)).mp ht] at hceil ⊢
      rcases stampOf_mintTag_n_le id n with he | he <;> omega
    obtain ⟨-, he⟩ := Replica.merge_ok hok
    rw [he] at hle
    have hissued : (newReplica other).issued = 0 := rfl
    dsimp only at hle
    omega
  · intro hn q d hq hne hok hmem
    have hfits : kLamportCeiling ≤ digitGuard * 10 + 9 := by decide
    have hstamp : (stampOf (mintTag id n).bytes).n = n := stampOf_mintTag_n (hn.trans hfits)
    have hle := le_highestCounter hmem (hstamp.symm ▸ hn)
    obtain ⟨-, he⟩ := Replica.merge_ok hok
    have hissued : (q.merge d).2.issued = max q.issued (highestCounter d) := by rw [he]
    rw [hissued]
    refine ⟨by omega, fun m hm hmfits => Stamp.lt_of_n ?_⟩
    rw [hstamp, stampOf_mintTag_n hmfits]
    omega

/-! ### The run of a replica -/

/-- What a replica does. -/
inductive Doing where
  /-- It merges a document, whoever sent it. -/
  | merge (d : Json)
  /-- It observes a state. -/
  | observe (state : Option Json)
  /-- It settles a conflict. -/
  | resolve (c : Conflict) (side : ℕ)

namespace Replica

/-- The replica then, whether it succeeded or not. -/
def does (r : Replica) : Doing → Replica
  | .merge d => (r.merge d).2
  | .observe state => (r.observe state).2
  | .resolve c side => (r.resolve c side).2

/-- The replica after all of it. -/
def doesAll (r : Replica) (xs : List Doing) : Replica := xs.foldl does r

/-- How many tags are minted; a merge mints none. -/
def spends (r : Replica) : Doing → ℕ
  | .merge _ => 0
  | x => (r.does x).issued - r.issued

/-- The counters of the tags that are minted. -/
def mints (r : Replica) (x : Doing) : Set ℕ := Set.Ioc r.issued (r.issued + r.spends x)

theorem resolve_id (r : Replica) (c : Conflict) (side : ℕ) : (r.resolve c side).2.id = r.id := by
  unfold resolve
  split
  · rfl
  · dsimp only
    split
    · rfl
    · rfl
    · split <;> rfl

theorem does_id (r : Replica) (x : Doing) : (r.does x).id = r.id := by
  cases x with
  | merge d => exact r.merge_id d
  | observe state => exact r.observe_id state
  | resolve c side => exact r.resolve_id c side

theorem doesAll_id (r : Replica) (xs : List Doing) : (r.doesAll xs).id = r.id := by
  induction xs generalizing r with
  | nil => rfl
  | cons x xs ih => exact (ih (r.does x)).trans (r.does_id x)

/-- No document moves the counter past the ceiling. -/
theorem issued_merge_le (r : Replica) (d : Json) : (r.merge d).2.issued ≤ max r.issued kLamportCeiling := by
  unfold merge
  split
  · exact le_max_left _ _
  · split
    · exact le_max_left _ _
    · exact max_le_max_left _ (highestCounter_le_ceiling d)

theorem issued_merges_le (r : Replica) (ds : List Json) :
    (r.doesAll (ds.map .merge)).issued ≤ max r.issued kLamportCeiling := by
  induction ds generalizing r with
  | nil => exact le_max_left _ _
  | cons d ds ih =>
    refine (ih (r.does (.merge d))).trans (max_le ?_ (le_max_right _ _))
    exact r.issued_merge_le d

end Replica

/-- What an edit adds it adds under the tags that it mints. -/
theorem minted_of_stores {a : Author} {V : Path → Bytes → Prop} {e e' : Editor} (hw : Shaped e.work)
    (hs : Relation.ReflTransGen (Stored a V) e e') :
    e.issued ≤ e'.issued ∧ ∀ act ∈ e'.log, act ∈ e.log ∨ ∀ t v, act.Adds t v →
      ∃ n ∈ Set.Ioc e.issued e'.issued, t = mintTag a.id n := by
  induction hs with
  | refl => exact ⟨le_rfl, fun act hact => .inl hact⟩
  | @tail b c hb hs ih =>
    obtain ⟨hle, hlog⟩ := ih
    have hwb := shaped_of_stored hb hw
    have hbc := (hs.work hwb).2.1
    refine ⟨hle.trans hbc, fun act hact => ?_⟩
    rcases hs.log hwb act hact with hold | ⟨-, -, hnew⟩
    · refine (hlog act hold).imp_right fun h t v hadd => ?_
      obtain ⟨n, hn, ht⟩ := h t v hadd
      exact ⟨n, ⟨hn.1, hn.2.trans hbc⟩, ht⟩
    · refine .inr fun t v hadd => ?_
      obtain ⟨n, hlt, hn, ht⟩ := hnew t v hadd
      exact ⟨n, ⟨by omega, hn⟩, ht⟩

/-- An observation is a sequence of stores. -/
theorem stores_observed {r : Replica} (hr : Shaped r.doc) (state : Option Json) :
    Relation.ReflTransGen (Stored r.author fun _ _ => True) r.editor
      (observeInto r.author state r.editor).2 := by
  cases state with
  | none => exact .refl
  | some state =>
    exact @steps_observeInto r.author (fun _ _ => True) (fun _ _ => trivial) state
      (fun _ _ _ _ _ _ _ _ _ => trivial) (fun _ _ _ _ _ _ => trivial) r.editor hr

/-- What an observation adds. -/
theorem observed_mints {r : Replica} (hr : Shaped r.doc) (state : Option Json) :
    ∀ act ∈ r.observed state, ∀ t v, act.Adds t v →
      ∃ n ∈ r.mints (.observe state), t = mintTag r.id n := by
  obtain ⟨hle, hlog⟩ := minted_of_stores (e := r.editor) hr (stores_observed hr state)
  have hissued : (r.observe state).2.issued = (observeInto r.author state r.editor).2.issued := by
    unfold Replica.observe
    split
    · rename_i heq
      rw [heq]
    · rename_i heq
      rw [heq]
  intro act hact t v hadd
  rcases hlog act hact with hold | hnew
  · cases hold
  · obtain ⟨n, ⟨hlt, hn⟩, ht⟩ := hnew t v hadd
    refine ⟨n, ⟨hlt, ?_⟩, ht⟩
    have hstart : r.editor.issued = r.issued := rfl
    change n ≤ r.issued + ((r.observe state).2.issued - r.issued)
    rw [hissued]
    omega

/-- **What a replica mints is followed exactly when** there is room for it below the ceiling: whatever
documents it merged, whoever sent them, each of its edits that mints starts from a counter that stays
within the ceiling. -/
theorem minted_followed_iff {r : Replica} (hid : validId r.id = .ok ()) (xs : List Doing) :
    (∀ before x after, xs = before ++ x :: after → ∀ n ∈ (r.doesAll before).mints x, Followed r.id n) ↔
      ∀ before x after, xs = before ++ x :: after → (r.doesAll before).spends x = 0 ∨
        (r.doesAll before).issued + (r.doesAll before).spends x ≤ kLamportCeiling := by
  refine forall_congr' fun before => forall_congr' fun x => forall_congr' fun after => imp_congr_right fun _ => ?_
  constructor
  · intro h
    by_cases hzero : (r.doesAll before).spends x = 0
    · exact .inl hzero
    · exact .inr ((followed_iff hid _).mp (h _ ⟨by omega, le_rfl⟩))
  · rintro h n ⟨hlt, hle⟩
    refine (followed_iff hid n).mpr ?_
    rcases h with h | h <;> omega

/-- A new replica merges a tag below the ceiling, and what it mints then is followed. -/
theorem minted_followed_below : ((newReplica idA).merge (tagged (mintTag idB 7))).1 = .ok ∧
    ∀ n ∈ ((newReplica idA).does (.merge (tagged (mintTag idB 7)))).mints (.observe (some oneMantleState)),
      Followed idA n := by
  refine ⟨merge_tagged (by decide) (by decide) (by decide), ?_⟩
  refine (minted_followed_iff (r := newReplica idA) (by decide)
    [.merge (tagged (mintTag idB 7)), .observe (some oneMantleState)]).mpr ?_ [.merge (tagged (mintTag idB 7))]
      (.observe (some oneMantleState)) [] rfl
  intro before x after h
  match before with
  | [] =>
    cases h
    exact .inl rfl
  | [_] =>
    cases h
    exact .inr (by decide +kernel)
  | _ :: _ :: before =>
    have hlen := congrArg List.length h
    simp at hlen

/-- A tag that carries the ceiling moves the counter to it, and the next tag is not followed. -/
theorem ceiling_passed : ∃ d, validate d = .ok () ∧ ((newReplica idA).merge d).1 = .ok ∧
    ∃ n ∈ ((newReplica idA).does (.merge d)).mints (.observe (some oneMantleState)), ¬ Followed idA n := by
  refine ⟨tagged (mintTag idB kLamportCeiling), validate_tagged (isEmpty_mintTag _ _),
    merge_tagged (by decide) (by decide) (by decide), kLamportCeiling + 1, ⟨?_, ?_⟩, ?_⟩
  · have hissued : ((newReplica idA).does (.merge (tagged (mintTag idB kLamportCeiling)))).issued =
        kLamportCeiling := by decide +kernel
    omega
  · decide +kernel
  · rw [followed_iff (by decide)]
    omega

end VoidPalabra
