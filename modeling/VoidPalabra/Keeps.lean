import VoidPalabra.Trace

/-!
# Every edit keeps the invariant

Each operation of the editor either leaves it alone or makes one sound store, and so
does every traversal built from them, whatever state is observed and wherever it
throws.
-/

namespace VoidPalabra

/-! ### The live tags beneath a node -/

/-- A path and a path below it. -/
theorem setAt_append {root n : Json} {p : Path} (h : nodeAt root p = some n) (q : Path) :
    setAt root (p ++ q) = setAt n q := by
  rw [setAt, setAt, cellAt, cellAt, nodeAt_append, h, Option.bind_some]

theorem setAt_cons {ms : List (CString × Json)} (h : nodeRank (.obj ms) = 3) (k : CString)
    (q : Path) : setAt (.obj ms) (k :: q) = match Json.lookup k ms with
      | some v => setAt v q
      | none => .empty := by
  rw [setAt, cellAt_cons h, Json.get_obj]
  cases Json.lookup k ms <;> rfl

theorem setAt_orset {n : Json} (h : nodeRank n = 2) (q : Path) :
    setAt n q = if q = [] then orsetFromJson (some n) else .empty := by
  cases q with
  | nil => rw [setAt, cellAt_nil, cellOf_orset h, if_pos rfl]
  | cons k q =>
    rw [setAt, cellAt_cons_none (by omega)]
    rfl

theorem setAt_leaf {n : Json} (h : nodeRank n = 1) (q : Path) : setAt n q = .empty := by
  cases q with
  | nil => rw [setAt, cellAt_nil, cellOf_leaf h]
  | cons k q => rw [setAt, cellAt_cons_none (by omega)]

theorem mem_collectLiveTagsBelow {ms : List (CString × Json)} {skip : Bool} {t : Tag} :
    t ∈ collectLiveTagsBelow ms skip ↔
      ∃ m ∈ ms, (skip = true → m.1 ≠ Key.present) ∧ t ∈ collectLiveTags m.2 false := by
  induction ms with
  | nil => simp [collectLiveTagsBelow]
  | cons m ms ih =>
    obtain ⟨k, v⟩ := m
    rw [collectLiveTagsBelow, List.mem_append, ih, List.exists_mem_cons_iff]
    refine or_congr ?_ Iff.rfl
    cases skip with
    | false => simp
    | true =>
      by_cases hk : k = Key.present
      · simp [hk]
      · simp [hk]

theorem mem_collectLiveTags_leaf {n : Json} {skip : Bool} {t : Tag} (h : n.isObject = false) :
    t ∈ collectLiveTags n skip ↔
      ∃ q v, (setAt n q).IsLive t v ∧ (skip = true → q.head? ≠ some Key.present) := by
  have hnil : collectLiveTags n skip = [] := by
    cases n with
    | obj ms => cases h
    | _ => rfl
  simp only [hnil, setAt_leaf (nodeRank_eq_one.mpr h)]
  simp [OrSet.IsLive]

/-- A tag is collected when it is live in some set beneath the node, other than the
node's own `present` where that is left out. -/
theorem mem_collectLiveTags {n : Json} {skip : Bool} {t : Tag} (h : NamedOnce n) :
    t ∈ collectLiveTags n skip ↔
      ∃ q v, (setAt n q).IsLive t v ∧ (skip = true → q.head? ≠ some Key.present) := by
  induction n using Json.induct generalizing skip with
  | obj ms ih =>
    rcases nodeRank_cases (.obj ms) with hr | hr | hr
    · cases nodeRank_eq_one.mp hr
    · rw [collectLiveTags, if_pos (nodeRank_eq_two.mp hr), List.mem_map]
      simp only [setAt_orset hr]
      constructor
      · rintro ⟨⟨u, v⟩, hm, rfl⟩
        exact ⟨[], v, OrSet.mem_liveEntries.mp hm, by simp⟩
      · rintro ⟨q, v, hl, -⟩
        split at hl
        · exact ⟨(t, v), OrSet.mem_liveEntries.mpr hl, rfl⟩
        · simp [OrSet.IsLive] at hl
    · have hno : isOrset (.obj ms) = false := (nodeRank_eq_three.mp hr).2
      obtain ⟨hd, hms⟩ := (namedOnce_map hr).mp h
      rw [collectLiveTags, if_neg (by simp [hno]), mem_collectLiveTagsBelow]
      constructor
      · rintro ⟨⟨k, v⟩, hm, hskip, ht⟩
        have hl := Json.lookup_of_mem hd hm
        obtain ⟨q, w, hw, -⟩ := (ih (k, v) hm (hms k v hl)).mp ht
        refine ⟨k :: q, w, ?_, fun hs => by simpa using hskip hs⟩
        rwa [setAt_cons hr, hl]
      · rintro ⟨q, w, hl, hskip⟩
        cases q with
        | nil =>
          rw [setAt, cellAt_nil, cellOf_map hr] at hl
          simp [OrSet.IsLive] at hl
        | cons k q =>
          rw [setAt_cons hr] at hl
          cases hk : Json.lookup k ms with
          | none =>
            rw [hk] at hl
            simp [OrSet.IsLive] at hl
          | some v =>
            rw [hk] at hl
            have hm := Json.mem_of_lookup hk
            refine ⟨(k, v), hm, fun hs => by simpa using hskip hs, ?_⟩
            exact (ih (k, v) hm (hms k v hk)).mpr ⟨q, w, hl, by simp⟩
  | null => exact mem_collectLiveTags_leaf rfl
  | bool b => exact mem_collectLiveTags_leaf rfl
  | num d => exact mem_collectLiveTags_leaf rfl
  | str s => exact mem_collectLiveTags_leaf rfl
  | arr xs _ => exact mem_collectLiveTags_leaf rfl

/-! ### The operations on sets that an edit uses -/

namespace OrSet

theorem named_removeAll {s : OrSet} (h : s.Named) : s.removeAll.Named where
  adds := h.adds
  removes := by
    intro t ht
    rcases mem_removeAll.mp ht with ht | ⟨v, hv⟩
    · exact h.removes t ht
    · exact h.adds t v hv

theorem mem_write_removes {s : OrSet} {t u : Tag} {v : Bytes} :
    u ∈ (s.write t v).removes ↔ u ∈ s.removes ∨ ∃ w, s.adds[u]? = some w := mem_removeAll

theorem write_adds (s : OrSet) (t u : Tag) (v : Bytes) :
    (s.write t v).adds[u]? = if t = u then some v else s.adds[u]? := add_adds _ _ _ _

/-- What `sync_set` drops: every tag of a shown value that is not wanted. -/
theorem dropUnwanted_spec (want shown : List Bytes) (s : OrSet) :
    (dropUnwanted want shown s).adds = s.adds ∧
      ∀ t, t ∈ (dropUnwanted want shown s).removes ↔
        t ∈ s.removes ∨ ∃ v ∈ shown, v ∉ want ∧ s.adds[t]? = some v := by
  induction shown generalizing s with
  | nil => exact ⟨rfl, fun t => by simp [dropUnwanted]⟩
  | cons v shown ih =>
    have hstep : dropUnwanted want (v :: shown) s =
        dropUnwanted want shown (if want.contains v then s else s.removeValue v) := rfl
    by_cases hv : v ∈ want
    · obtain ⟨h1, h2⟩ := ih s
      rw [hstep, if_pos (List.contains_iff_mem.mpr hv)]
      refine ⟨h1, fun t => ?_⟩
      rw [h2, List.exists_mem_cons_iff]
      simp [hv]
    · obtain ⟨h1, h2⟩ := ih (s.removeValue v)
      rw [hstep, if_neg (by simpa using hv)]
      refine ⟨h1, fun t => ?_⟩
      rw [h2, mem_removeValue, removeValue_adds, List.exists_mem_cons_iff, or_assoc]
      simp [hv]

end OrSet

theorem isEmpty_mintTag (id : CString) (n : ℕ) : (mintTag id n).isEmpty = false := by
  simp [mintTag, CString.isEmpty]

/-- The loop of `sync_set` over the wanted values adds, under newly minted tags, those
that are not shown. -/
theorem addWanted_spec (a : Author) (shown : List Bytes) (want : List Bytes) :
    ∀ (s : OrSet) (e : Editor), ∃ s' j,
      addWanted a shown want s e = (.ok s', { e with issued := j }) ∧ e.issued ≤ j ∧
      s'.removes = s.removes ∧
      (∀ t : Tag, (∀ n, e.issued < n → t ≠ mintTag a.id n) → s'.adds[t]? = s.adds[t]?) ∧
      (∀ (t : Tag) (v : Bytes), s'.adds[t]? = some v → s.adds[t]? = some v ∨
        ∃ n, e.issued < n ∧ n ≤ j ∧ t = mintTag a.id n ∧ v ∈ want ∧ v ∉ shown) ∧
      (∀ v ∈ want, v ∉ shown → ∃ n, e.issued < n ∧ s'.adds[mintTag a.id n]? = some v) := by
  induction want with
  | nil =>
    intro s e
    exact ⟨s, e.issued, rfl, le_rfl, rfl, fun _ _ => rfl, fun _ _ h => .inl h, by simp⟩
  | cons v want ih =>
    intro s e
    by_cases hv : v ∈ shown
    · obtain ⟨s', j, he, hj, hr, hkeep, hnew, hall⟩ := ih s e
      refine ⟨s', j, ?_, hj, hr, hkeep, fun t w hw => ?_, fun w hw hn => ?_⟩
      · rw [addWanted, if_pos (List.contains_iff_mem.mpr hv), he]
      · refine (hnew t w hw).imp_right fun ⟨n, h1, h2, h3, h4, h5⟩ => ?_
        exact ⟨n, h1, h2, h3, List.mem_cons_of_mem _ h4, h5⟩
      · rcases List.mem_cons.mp hw with rfl | hw
        · exact absurd hv hn
        · exact hall w hw hn
    · obtain ⟨s', j, he, hj, hr, hkeep, hnew, hall⟩ :=
        ih (s.add (mintTag a.id (e.issued + 1)) v) { e with issued := e.issued + 1 }
      replace hj : e.issued + 1 ≤ j := hj
      replace hnew : ∀ (t : Tag) (w : Bytes), s'.adds[t]? = some w →
          (s.add (mintTag a.id (e.issued + 1)) v).adds[t]? = some w ∨
          ∃ n, e.issued + 1 < n ∧ n ≤ j ∧ t = mintTag a.id n ∧ w ∈ want ∧ w ∉ shown := hnew
      replace hkeep : ∀ t : Tag, (∀ n, e.issued + 1 < n → t ≠ mintTag a.id n) →
          s'.adds[t]? = (s.add (mintTag a.id (e.issued + 1)) v).adds[t]? := hkeep
      refine ⟨s', j, ?_, by omega, hr, fun t ht => ?_, fun t w hw => ?_, fun w hw hn => ?_⟩
      · rw [addWanted, if_neg (by simpa using hv)]
        exact he
      · rw [hkeep t fun n hn => ht n (by omega), OrSet.add_adds,
          if_neg fun h => ht (e.issued + 1) (by omega) h.symm]
      · rcases hnew t w hw with hw | ⟨n, h1, h2, h3, h4, h5⟩
        · rw [OrSet.add_adds] at hw
          split at hw
          · rename_i ht
            cases hw
            exact .inr ⟨e.issued + 1, by omega, hj, ht.symm, List.mem_cons_self, hv⟩
          · exact .inl hw
        · exact .inr ⟨n, by omega, h2, h3, List.mem_cons_of_mem _ h4, h5⟩
      · rcases List.mem_cons.mp hw with rfl | hw
        · refine ⟨e.issued + 1, by omega, ?_⟩
          rw [hkeep _ fun n hn heq => by have := mintTag_injective heq; omega, OrSet.add_adds,
            if_pos rfl]
        · obtain ⟨n, h1, h2⟩ := hall w hw hn
          exact ⟨n, by replace h1 : e.issued + 1 < n := h1; omega, h2⟩

/-! ### Keeping the invariant -/

/-- Whatever a step of an edit does, the invariant holds after it. -/
def Keeps (a : Author) (d₀ : Json) (i₀ : ℕ) {α : Type} (m : EditM α) : Prop :=
  ∀ e, Inv a d₀ i₀ e → Inv a d₀ i₀ (m e).2

section

variable {a : Author} {d₀ : Json} {i₀ : ℕ}

theorem keeps_pure {α : Type} (x : α) : Keeps a d₀ i₀ (pure x : EditM α) := fun _ h => h

theorem keeps_lift {α : Type} (x : Except CanonicalError α) : Keeps a d₀ i₀ (EditM.lift x) :=
  fun _ h => h

theorem keeps_refuse {α : Type} (what : Bytes) : Keeps a d₀ i₀ (EditM.refuse what : EditM α) :=
  fun _ h => h

theorem keeps_current : Keeps a d₀ i₀ EditM.current := fun _ h => h

/-- One step after another. -/
theorem Keeps.bind {α β : Type} {x : EditM α} {f : α → EditM β} (hx : Keeps a d₀ i₀ x)
    (hf : ∀ y, Keeps a d₀ i₀ (f y)) : Keeps a d₀ i₀ (x >>= f) := by
  intro e h
  have h' := hx e h
  rw [EditM.bind_apply]
  cases hxe : x e with
  | mk r e' =>
    rw [hxe] at h'
    cases r with
    | ok y => exact hf y e' h'
    | error c => exact h'

/-- A loop of steps. -/
theorem keeps_each {α : Type} {f : α → EditM Unit} {xs : List α}
    (h : ∀ x ∈ xs, Keeps a d₀ i₀ (f x)) : Keeps a d₀ i₀ (EditM.each f xs) := by
  induction xs with
  | nil => exact keeps_pure ()
  | cons x xs ih =>
    refine (h x List.mem_cons_self).bind fun _ => ?_
    exact ih fun y hy => h y (List.mem_cons_of_mem _ hy)

/-- What is loaded is the set at the path. -/
theorem Inv.load {e : Editor} (h : Inv a d₀ i₀ e) {p : Path} (hp : IsSetPath p) :
    e.load p = setAt e.work p := orsetFromJson_atPath h.work hp

/-- A register is overwritten under a newly minted tag. -/
theorem Inv.overwrite {e : Editor} (h : Inv a d₀ i₀ e) {p : Path} (hp : IsSetPath p)
    (hlast : p.getLast? ≠ some Key.present) (v : Bytes) :
    Inv a d₀ i₀ (({ e with issued := e.issued + 1 } : Editor).store p (e.load p)
      ((e.load p).write (mintTag a.id (e.issued + 1)) v) .overwrite) := by
  rw [h.load hp]
  have hfresh := h.fresh_tag p (Nat.lt_succ_self e.issued)
  refine h.store (Nat.le_succ _) hp ?_ ?_ ?_ ?_ ?_ ?_ ?_ ?_
  · exact OrSet.named_add (OrSet.named_removeAll (named_setAt _ _)) (isEmpty_mintTag _ _)
  · constructor
    · intro t w hw
      rw [OrSet.write_adds, if_neg, hw]
      rintro rfl
      rw [hfresh] at hw
      cases hw
    · exact fun t ht => OrSet.mem_write_removes.mpr (.inl ht)
  · intro t w hnone hw
    rw [OrSet.write_adds] at hw
    split at hw
    · rename_i ht
      exact ⟨e.issued + 1, Nat.lt_succ_self _, le_rfl, ht.symm⟩
    · rw [hnone] at hw
      cases hw
  · exact fun t w hw _ => OrSet.mem_write_removes.mpr (.inr ⟨w, hw⟩)
  · intro t ht hnot
    rcases OrSet.mem_write_removes.mp ht with ht | ⟨w, hw⟩
    · exact absurd ht hnot
    · exact .inl ⟨w, ⟨hw, hnot⟩, trivial⟩
  · exact fun h => nomatch h
  · rintro base rfl
    exact absurd List.getLast?_concat hlast
  · exact fun h => nomatch h

theorem keeps_syncRegister {p : Path} (hp : IsSetPath p) (hlast : p.getLast? ≠ some Key.present)
    (field : CString) (value : Option Bytes) :
    Keeps a d₀ i₀ (syncRegister a p field value) := by
  intro e h
  have hload := h.load hp
  cases value with
  | some v =>
    rw [syncRegister_some]
    dsimp only
    split
    · exact h
    · exact h.overwrite hp hlast v
  | none =>
    rw [syncRegister_none]
    dsimp only
    split
    · exact h
    · rw [hload]
      refine h.store (j := e.issued) le_rfl hp (OrSet.named_removeAll (named_setAt _ _)) ?_ ?_ ?_ ?_ ?_
        ?_ fun _ => rfl
      · exact ⟨fun t w hw => hw, fun t ht => OrSet.mem_removeAll.mpr (.inl ht)⟩
      · intro t w hnone hw
        rw [OrSet.removeAll_adds, hnone] at hw
        cases hw
      · exact fun t w hw _ => OrSet.mem_removeAll.mpr (.inr ⟨w, hw⟩)
      · intro t ht hnot
        rcases OrSet.mem_removeAll.mp ht with ht | ⟨w, hw⟩
        · exact absurd ht hnot
        · exact .inl ⟨w, ⟨hw, hnot⟩, trivial⟩
      · rintro - base rfl
        exact absurd List.getLast?_concat hlast
      · rintro base rfl
        exact absurd List.getLast?_concat hlast

theorem keeps_syncSet {p : Path} (hp : IsSetPath p) (hlast : p.getLast? ≠ some Key.present)
    (want : List Bytes) :
    Keeps a d₀ i₀ (syncSet a p want) := by
  intro e h
  have hload := h.load hp
  obtain ⟨s', j, he, hj, hr, hkeep, hnew, -⟩ :=
    addWanted_spec a (e.load p).values want (e.load p) e
  rw [syncSet_apply he]
  rw [hload] at hr hkeep hnew ⊢
  obtain ⟨hda, hdr⟩ := OrSet.dropUnwanted_spec want (setAt e.work p).values s'
  have hold : ∀ (t : Tag) (v : Bytes), (setAt e.work p).adds[t]? = some v → s'.adds[t]? = some v := by
    intro t v hv
    rw [hkeep t, hv]
    rintro n hn rfl
    rw [h.fresh_tag p hn] at hv
    cases hv
  refine h.store hj hp ⟨?_, ?_⟩ ⟨?_, ?_⟩ ?_ ?_ ?_ (fun h => nomatch h) ?_ (fun h => nomatch h)
  · intro t v hv
    rw [hda] at hv
    rcases hnew t v hv with hv | ⟨n, -, -, rfl, -⟩
    · exact (named_setAt e.work p).adds t v hv
    · exact isEmpty_mintTag _ _
  · intro t ht
    rcases (hdr t).mp ht with ht | ⟨v, -, -, hv⟩
    · rw [hr] at ht
      exact (named_setAt e.work p).removes t ht
    · rcases hnew t v hv with hv | ⟨n, -, -, rfl, -⟩
      · exact (named_setAt e.work p).adds t v hv
      · exact isEmpty_mintTag _ _
  · intro t v hv
    rw [hda]
    exact hold t v hv
  · intro t ht
    exact (hdr t).mpr (.inl (by rwa [hr]))
  · intro t v hnone hv
    rw [hda] at hv
    rcases hnew t v hv with hv | ⟨n, h1, h2, h3, -⟩
    · rw [hnone] at hv
      cases hv
    · exact ⟨n, h1, h2, h3⟩
  · intro t v hv hends
    have hm : v ∈ (setAt e.work p).values.filter fun v => !want.contains v := hends
    simp only [List.mem_filter, Bool.not_eq_true', List.contains_eq_mem, decide_eq_false_iff_not] at hm
    exact (hdr t).mpr (.inr ⟨v, hm.1, hm.2, hold t v hv⟩)
  · intro t ht hnot
    rcases (hdr t).mp ht with ht | ⟨v, hv, hw, ha⟩
    · rw [hr] at ht
      exact absurd ht hnot
    · rcases hnew t v ha with ha | ⟨n, -, -, -, hmem, -⟩
      · refine .inl ⟨v, ⟨ha, hnot⟩, ?_⟩
        change v ∈ List.filter _ _
        simp [hv, hw]
      · exact absurd hmem hw
  · rintro base rfl
    exact absurd List.getLast?_concat hlast

theorem keeps_makePresent {p : Path} (hp : IsSetPath (p ++ [Key.present])) (value : Bytes) :
    Keeps a d₀ i₀ (makePresent a p value) := by
  intro e h
  have hload := h.load hp
  rw [makePresent_apply]
  dsimp only
  split
  · rw [hload]
    have hfresh := h.fresh_tag (p ++ [Key.present]) (Nat.lt_succ_self e.issued)
    refine h.store (Nat.le_succ _) hp ?_ ?_ ?_ ?_ ?_ (fun h => nomatch h) (fun _ _ => .inl rfl)
      (fun h => nomatch h)
    · exact OrSet.named_add (named_setAt _ _) (isEmpty_mintTag _ _)
    · constructor
      · intro t w hw
        rw [OrSet.add_adds, if_neg, hw]
        rintro rfl
        rw [hfresh] at hw
        cases hw
      · exact fun t ht => ht
    · intro t w hnone hw
      rw [OrSet.add_adds] at hw
      split at hw
      · rename_i ht
        exact ⟨e.issued + 1, Nat.lt_succ_self _, le_rfl, ht.symm⟩
      · rw [hnone] at hw
        cases hw
    · exact fun t w _ hends => hends.elim
    · exact fun t ht hnot => absurd ht hnot
  · exact h

/-- The node of a thing, and the sets beneath it. -/
theorem Inv.node {e : Editor} (h : Inv a d₀ i₀ e) {p : Path} {x : CString}
    (hp : IsSetPath (p ++ [x])) : e.node p = nodeAt e.work p :=
  atPath_eq_nodeAt (fun _ r hr hq => hp.prefix_map (r := r ++ [x]) (by simp)
    (by rw [← List.append_assoc, hq])) h.work.kinds

theorem namedOnce_nodeAt {root n : Json} {p : Path} (h : NamedOnce root)
    (hn : nodeAt root p = some n) : NamedOnce n := by
  intro q m hm hr
  exact h (p ++ q) m (by rw [nodeAt_append, hn]; exact hm) hr

/-- No set lies beneath another. -/
theorem IsSetPath.append_eq_nil {p q : Path} (hp : IsSetPath p) (hq : IsSetPath (p ++ q)) : q = [] := by
  by_contra hne
  obtain ⟨rule, hk⟩ := hp
  have hm := hq.prefix_map hne rfl
  rw [hk] at hm
  cases hm

/-- What is live beneath a thing and not in its presence is not beneath its presence. -/
theorem Shaped.head_ne_present {root : Json} (h : Shaped root) {p q : Path}
    (hp : IsSetPath (p ++ [Key.present])) {t : Tag} {v : Bytes} (hl : (setAt root (p ++ q)).IsLive t v)
    (hne : p ++ q ≠ p ++ [Key.present]) : q.head? ≠ some Key.present := by
  intro hhead
  obtain ⟨q', rfl⟩ : ∃ q', q = Key.present :: q' := by
    cases q with
    | nil => cases hhead
    | cons x q' => exact ⟨q', by rw [Option.some.inj hhead]⟩
  have hset : IsSetPath (p ++ [Key.present] ++ q') := by
    rw [List.append_assoc, List.singleton_append]
    by_contra hnot
    rw [setAt_of_kind h hnot] at hl
    simp [OrSet.IsLive] at hl
  rw [hp.append_eq_nil hset] at hne
  exact hne rfl

/-- What a removal collects are the live tags of the sets beneath the thing, its presence
apart. -/
theorem mem_collectLiveTags_thing {root n : Json} (h : Shaped root) {p : Path}
    (hp : IsSetPath (p ++ [Key.present])) (hn : nodeAt root p = some n) {t : Tag} :
    t ∈ collectLiveTags n true ↔ ∃ q v, p <+: q ∧ q ≠ p ++ [Key.present] ∧ (setAt root q).IsLive t v := by
  rw [mem_collectLiveTags (namedOnce_nodeAt h.namedOnce hn)]
  constructor
  · rintro ⟨q, v, hl, hq⟩
    refine ⟨p ++ q, v, List.prefix_append p q, fun he => ?_, by rwa [setAt_append hn]⟩
    rw [List.append_cancel_left he] at hq
    exact hq rfl rfl
  · rintro ⟨-, v, ⟨q, rfl⟩, hne, hl⟩
    exact ⟨q, v, by rwa [setAt_append hn] at hl, fun _ => h.head_ne_present hp hl hne⟩

theorem keeps_removeThing {p : Path} (hp : IsSetPath (p ++ [Key.present])) (evenIfDead : Bool) :
    Keeps a d₀ i₀ (removeThing p evenIfDead) := by
  intro e h
  have hload := h.load hp
  have hnode := h.node hp
  rw [removeThing_apply]
  cases hn : e.node p with
  | none => exact h
  | some n =>
    dsimp only
    split
    · exact h
    · rw [hload]
      rw [hnode] at hn
      have hseen := fun t => mem_collectLiveTags_thing h.work hp hn (t := t)
      have hmem : ∀ t, t ∈ (setAt e.work (p ++ [Key.present])).removeAll.removes.insertMany
            (collectLiveTags n true) ↔
          t ∈ (setAt e.work (p ++ [Key.present])).removeAll.removes ∨ t ∈ collectLiveTags n true := by
        intro t
        rw [Std.ExtTreeSet.mem_insertMany_list, List.contains_iff_mem]
      refine h.store (j := e.issued) le_rfl hp ⟨?_, ?_⟩ ⟨?_, ?_⟩ ?_ ?_ ?_ ?_ (fun _ _ => .inr rfl)
        fun _ => rfl
      · exact (named_setAt _ _).adds
      · intro t ht
        rcases (hmem t).mp ht with ht | ht
        · exact (OrSet.named_removeAll (named_setAt _ _)).removes t ht
        · obtain ⟨q, v, -, -, hl⟩ := (hseen t).mp ht
          exact (named_setAt e.work q).adds t v hl.1
      · exact fun t v hv => hv
      · exact fun t ht => (hmem t).mpr (.inl (OrSet.mem_removeAll.mpr (.inl ht)))
      · intro t v hnone hv
        rw [OrSet.removeAll_adds, hnone] at hv
        cases hv
      · exact fun t v hv _ => (hmem t).mpr (.inl (OrSet.mem_removeAll.mpr (.inr ⟨v, hv⟩)))
      · intro t ht hnot
        rcases (hmem t).mp ht with ht | ht
        · rcases OrSet.mem_removeAll.mp ht with ht | ⟨v, hv⟩
          · exact absurd ht hnot
          · exact .inl ⟨v, ⟨hv, hnot⟩, trivial⟩
        · obtain ⟨q, v, hpre, hne, hl⟩ := (hseen t).mp ht
          exact .inr ⟨rfl, p, q, v, rfl, hpre, hne, hl⟩
      · intro _ base hbase q t v hpre hne hl
        obtain rfl := (List.append_inj_left' hbase rfl)
        exact (hmem t).mpr (.inr ((hseen t).mpr ⟨q, v, hpre, hne, hl⟩))

end

end VoidPalabra
