import VoidPalabra.Converge

/-!
# What is live, and who ended what

The edits that a document of a run contains are the stores of its changes. A write is
live in the document as long as it contains no edit that was meant to end it and was made
where it was live. A delta names only what it newly retires, so a document that holds an
edit without what that edit was built on may still show a write that the editor had seen
ended; in a document that contains, with every change, what the change was built on, a
write is live as long as nobody who had it ended it.
-/

namespace VoidPalabra

namespace World

variable {w : World}

/-- The edits of some changes. -/
def edits (w : World) (known : Set ℕ) : Set Act :=
  {act | ∃ n ∈ known, ∃ c, w.changes[n]? = some c ∧ act ∈ c.acts}

/-- Some edit among some changes made a write. -/
def Wrote (w : World) (known : Set ℕ) (q : Path) (t : Tag) (v : Bytes) : Prop :=
  ∃ act ∈ w.edits known, act.place = q ∧ act.Adds t v

/-- With every change come the changes that it was built on. -/
def CausallyClosed (w : World) (known : Set ℕ) : Prop :=
  ∀ n ∈ known, ∀ c, w.changes[n]? = some c → c.known ⊆ known

/-- An edit of a run is sound in the document that its change left. -/
theorem Sound.edit (hw : w.Sound) {known : Set ℕ} {act : Act} (h : act ∈ w.edits known) :
    ∃ n ∈ known, ∃ c, w.changes[n]? = some c ∧ act ∈ c.acts ∧ c.Sound w ∧ act.Sound c.result := by
  obtain ⟨n, hn, c, hc, hact⟩ := h
  have hs := hw.changes c (List.mem_of_getElem? hc)
  exact ⟨n, hn, c, hc, hact, hs, hs.acts act hact⟩

/-- What the document an edit was made in says, the changes say. -/
theorem Sound.tells_doc (hw : w.Sound) {known : Set ℕ} {act : Act} (h : act ∈ w.edits known) :
    w.Tells act.doc := by
  obtain ⟨n, -, c, hc, hact, hs, ha⟩ := hw.edit h
  refine ⟨ha.doc, ha.doc_facts.trans ?_⟩
  rw [hs.result_facts]
  exact Set.union_subset hs.start.2 fun f hf => .inr ⟨c, List.mem_of_getElem? hc, hf⟩

/-- An edit newly retires a tag where it means to end the tag's live write, or where a
removal saw the tag live beneath. -/
theorem edit_retires_iff (hw : w.Sound) {known : Set ℕ} {act : Act} (h : act ∈ w.edits known)
    {t : Tag} {v : Bytes} (hadd : .add act.place t v ∈ w.said) :
    act.Retires t ↔ act.Ends v ∧ act.before.adds[t]? = some v ∧ t ∉ act.before.removes := by
  obtain ⟨-, -, c, -, -, -, ha⟩ := hw.edit h
  constructor
  · intro hr
    rcases ha.retires t hr with ⟨v', hl, hends⟩ | ⟨-, -, q, v', -, -, hne, hl⟩
    · have hf : Fact.add act.place t v' ∈ facts act.doc := by
        have hl' := hl.1
        rwa [ha.saw] at hl'
      obtain ⟨-, rfl⟩ := hw.unique _ _ _ _ _ hadd ((hw.tells_doc h).add hf)
      exact ⟨hends, hl⟩
    · have hf : Fact.add q t v' ∈ facts act.doc := hl.1
      exact absurd (hw.unique _ _ _ _ _ hadd ((hw.tells_doc h).add hf)).1.symm hne
  · rintro ⟨hends, hv, hr⟩
    exact ⟨hr, ha.ends t v hv hends⟩

/-- The edits of a run as events: what they write, what they mean to end, and what their
makers held. -/
def history (hw : w.Sound) : Replication.History {act // act ∈ w.edits Set.univ}
    {x : Path × Tag × Bytes // .add x.1 x.2.1 x.2.2 ∈ w.said} where
  made e := {x | e.1.place = x.1.1 ∧ e.1.Adds x.1.2.1 x.1.2.2}
  ended e := {x | e.1.place = x.1.1 ∧ e.1.Ends x.1.2.2}
  seen e := {x | e.1.place = x.1.1 ∧ e.1.before.adds[x.1.2.1]? = some x.1.2.2}
  gone e := {x | e.1.place = x.1.1 ∧ x.1.2.1 ∈ e.1.before.removes}
  retired e := {x | e.1.place = x.1.1 ∧ e.1.Retires x.1.2.1}
  retired_iff := by
    rintro ⟨act, hact⟩ ⟨⟨q, t, v⟩, hadd⟩
    simp only [Set.mem_ofPred_eq]
    constructor
    · rintro ⟨rfl, hr⟩
      obtain ⟨h1, h2, h3⟩ := (edit_retires_iff hw hact hadd).mp hr
      exact ⟨⟨rfl, h1⟩, ⟨rfl, h2⟩, fun h => h3 h.2⟩
    · rintro ⟨⟨rfl, h1⟩, ⟨-, h2⟩, h3⟩
      exact ⟨rfl, (edit_retires_iff hw hact hadd).mpr ⟨h1, h2, fun h => h3 ⟨rfl, h⟩⟩⟩

end World

/-! ### What a document contains -/

/-- A document of a run says what its changes say. -/
theorem Reachable.holds_facts {w : World} (h : Reachable w) {d : Json} {k : Set ℕ}
    (hd : w.Holds d k) : facts emptyRoot ∪ facts d = facts emptyRoot ∪ w.view.said k := by
  cases hd with
  | @peer id p there =>
    refine (h.tracked.parties id ⟨facts p.replica.doc, p.known⟩ ?_).2.state
    simp only [World.view, there, Option.map_some]
  | @parcel m posted => exact (h.tracked.mail ⟨facts m.doc, m.known⟩ ⟨m, posted, rfl⟩).state

/-- So does the document a change was made in, by the changes before it. -/
theorem Reachable.start_facts {w : World} (h : Reachable w) {n : ℕ} {c : Change}
    (hc : w.changes[n]? = some c) :
    facts emptyRoot ∪ facts c.start = facts emptyRoot ∪ w.view.said c.known := by
  refine (h.tracked.changes n ⟨facts c.delta, ⟨facts c.start, c.known⟩⟩ ?_).2.1.state
  simp only [World.view, List.getElem?_map, hc, Option.map_some]

theorem World.mem_view_said {w : World} (hw : w.Sound) {k : Set ℕ} {f : Fact} :
    f ∈ facts emptyRoot ∪ w.view.said k ↔
      f ∈ facts emptyRoot ∨ ∃ n ∈ k, ∃ c, w.changes[n]? = some c ∧ f ∈ VoidPalabra.said c.acts := by
  simp only [Set.mem_union, Replication.System.said, World.view, List.getElem?_map,
    Option.map_eq_some_iff, Set.mem_ofPred_eq]
  constructor
  · rintro (hf | ⟨n, hn, -, ⟨c, hc, rfl⟩, hf⟩)
    · exact .inl hf
    · have hs := hw.changes c (List.mem_of_getElem? hc)
      change f ∈ facts c.delta at hf
      rw [hs.delta_facts] at hf
      exact hf.imp (fun hf => facts_emptyDelta_subset hf) fun hf => ⟨n, hn, c, hc, hf⟩
  · rintro (hf | ⟨n, hn, c, hc, hf⟩)
    · exact .inl hf
    · have hs := hw.changes c (List.mem_of_getElem? hc)
      refine .inr ⟨n, hn, _, ⟨c, hc, rfl⟩, ?_⟩
      change f ∈ facts c.delta
      rw [hs.delta_facts]
      exact .inr hf

/-- Facts that say what the changes say hold the adds and the retirements of their edits. -/
theorem World.mem_of_facts {w : World} (hw : w.Sound) {d : Json} {k : Set ℕ}
    (h : facts emptyRoot ∪ facts d = facts emptyRoot ∪ w.view.said k) {q : Path} :
    (∀ (t : Tag) (v : Bytes), (setAt d q).adds[t]? = some v ↔ w.Wrote k q t v) ∧
      ∀ t, t ∈ (setAt d q).removes ↔ ∃ act ∈ w.edits k, act.place = q ∧ act.Retires t := by
  have hmem := fun f => (Set.ext_iff.mp h f).trans (mem_view_said hw)
  constructor
  · intro t v
    have hf := hmem (.add q t v)
    simp only [Set.mem_union, add_mem_facts, setAt_emptyRoot, OrSet.empty_adds, reduceCtorEq,
      false_or] at hf
    rw [hf]
    constructor
    · rintro ⟨n, hn, c, hc, hs⟩
      obtain ⟨act, hact, hq, ha⟩ := add_mem_said.mp hs
      exact ⟨act, ⟨n, hn, c, hc, hact⟩, hq, ha⟩
    · rintro ⟨act, ⟨n, hn, c, hc, hact⟩, hq, ha⟩
      exact ⟨n, hn, c, hc, add_mem_said.mpr ⟨act, hact, hq, ha⟩⟩
  · intro t
    have hf := hmem (.retire q t)
    simp only [Set.mem_union, retire_mem_facts, setAt_emptyRoot, OrSet.not_mem_empty_removes,
      false_or] at hf
    rw [hf]
    constructor
    · rintro ⟨n, hn, c, hc, act, hact, hq, ha⟩
      exact ⟨act, ⟨n, hn, c, hc, hact⟩, hq.symm, ha⟩
    · rintro ⟨act, ⟨n, hn, c, hc, hact⟩, hq, ha⟩
      exact ⟨n, hn, c, hc, act, hact, hq.symm, ha⟩

/-! ### Live writes -/

/-- What a document that is held contains. -/
theorem Reachable.mem_set {w : World} (h : Reachable w) {d : Json} {k : Set ℕ} (hd : w.Holds d k)
    (q : Path) : (∀ (t : Tag) (v : Bytes), (setAt d q).adds[t]? = some v ↔ w.Wrote k q t v) ∧
      ∀ t, t ∈ (setAt d q).removes ↔ ∃ act ∈ w.edits k, act.place = q ∧ act.Retires t :=
  World.mem_of_facts h.sound (h.holds_facts hd)

theorem World.edits_mono {w : World} {k l : Set ℕ} (h : k ⊆ l) : w.edits k ⊆ w.edits l :=
  fun _ ⟨n, hn, c, hc, hact⟩ => ⟨n, h hn, c, hc, hact⟩

theorem World.Wrote.said {w : World} {k : Set ℕ} {q : Path} {t : Tag} {v : Bytes}
    (h : w.Wrote k q t v) : .add q t v ∈ w.said := by
  obtain ⟨act, ⟨n, -, c, hc, hact⟩, hq, ha⟩ := h
  exact ⟨c, List.mem_of_getElem? hc, add_mem_said.mpr ⟨act, hact, hq, ha⟩⟩

/-- The events of some changes. -/
def World.events (w : World) (k : Set ℕ) : Set {act // act ∈ w.edits Set.univ} := {e | e.1 ∈ w.edits k}

theorem World.contains_iff {w : World} (hw : w.Sound) {k : Set ℕ} {q : Path} {t : Tag} {v : Bytes}
    (hadd : .add q t v ∈ w.said) :
    (World.history hw).Contains (w.events k) ⟨(q, t, v), hadd⟩ ↔ w.Wrote k q t v := by
  constructor
  · rintro ⟨⟨act, _⟩, hact, hq, ha⟩
    exact ⟨act, hact, hq, ha⟩
  · rintro ⟨act, hact, hq, ha⟩
    exact ⟨⟨act, World.edits_mono (Set.subset_univ k) hact⟩, hact, hq, ha⟩

/-- A write that some changes made is live in a document with those changes when it is
live among their events. -/
theorem Reachable.isLive_iff {w : World} (h : Reachable w) {d : Json} {k : Set ℕ} (hd : w.Holds d k)
    {q : Path} {t : Tag} {v : Bytes} (hadd : .add q t v ∈ w.said) :
    (setAt d q).IsLive t v ↔ (World.history h.sound).Live (w.events k) ⟨(q, t, v), hadd⟩ := by
  obtain ⟨hadds, hrem⟩ := h.mem_set hd q
  unfold OrSet.IsLive Replication.History.Live
  rw [hadds, World.contains_iff h.sound hadd, hrem]
  refine and_congr_right fun _ => ?_
  constructor
  · rintro hn ⟨act, hall⟩ hact ⟨hq, hr⟩
    exact hn ⟨act, hact, hq, hr⟩
  · rintro hn ⟨act, hact, hq, hr⟩
    exact hn ⟨act, World.edits_mono (Set.subset_univ k) hact⟩ hact ⟨hq, hr⟩

/-- What was retired in the document an edit was made in was retired by the changes it was
built on, or by its own change. -/
theorem Reachable.retired_of_closed {w : World} (h : Reachable w) {k : Set ℕ} (hk : w.CausallyClosed k)
    {act : Act} (hact : act ∈ w.edits k) {q : Path} {t : Tag} (hr : t ∈ (setAt act.doc q).removes) :
    ∃ act' ∈ w.edits k, act'.place = q ∧ act'.Retires t := by
  obtain ⟨n, hn, c, hc, -, hs, ha⟩ := h.sound.edit hact
  have hf : Fact.retire q t ∈ facts c.result := ha.doc_facts hr
  rw [hs.result_facts] at hf
  rcases hf with hf | ⟨act', hact', hq', hr'⟩
  · obtain ⟨act', hact', hq', hr'⟩ := ((World.mem_of_facts h.sound (h.start_facts hc)).2 t).mp hf
    exact ⟨act', World.edits_mono (hk n hn c hc) hact', hq', hr'⟩
  · exact ⟨act', ⟨n, hn, c, hc, hact'⟩, hq'.symm, hr'⟩

/-- The events of a document that contains what its changes were built on come with the
retirements that their makers held. -/
theorem Reachable.closed {w : World} (h : Reachable w) {k : Set ℕ} (hk : w.CausallyClosed k) :
    (World.history h.sound).Closed (w.events k) := by
  rintro ⟨act, hall⟩ hact ⟨⟨q, t, v⟩, hadd⟩ ⟨hq, hr⟩
  replace hact : act ∈ w.edits k := hact
  replace hr : t ∈ act.before.removes := hr
  replace hq : act.place = q := hq
  obtain ⟨n, -, c, -, -, -, ha⟩ := h.sound.edit hact
  rw [ha.saw, hq] at hr
  obtain ⟨act', hact', hq', hr'⟩ := h.retired_of_closed hk hact hr
  exact ⟨⟨act', World.edits_mono (Set.subset_univ k) hact'⟩, hact', hq', hr'⟩

/-- Causal semantics of every register and set. A write is live in a document of a run
exactly when the document contains it and no edit that was meant to end it at its place
and was made where it was live. In a document that contains, with every change, what the
change was built on, it is live exactly when the document contains it and no edit meant
to end it that was made where it was known. A value is shown when one of its writes is
live, so after a removal a thing is shown only by a making that the removal did not see. -/
theorem live_iff_not_ended {w : World} (h : Reachable w) {d : Json} {k : Set ℕ} (hd : w.Holds d k)
    (q : Path) :
    (∀ t v, (setAt d q).IsLive t v ↔ w.Wrote k q t v ∧
      ¬∃ act ∈ w.edits k, act.place = q ∧ act.Ends v ∧ (setAt act.doc q).IsLive t v) ∧
    (w.CausallyClosed k → ∀ t v, (setAt d q).IsLive t v ↔ w.Wrote k q t v ∧
      ¬∃ act ∈ w.edits k, act.place = q ∧ act.Ends v ∧ (setAt act.doc q).adds[t]? = some v) ∧
    ∀ v, v ∈ (setAt d q).values ↔ ∃ t, w.Wrote k q t v ∧
      ∀ act ∈ w.edits k, act.place = q → act.Ends v → ¬(setAt act.doc q).IsLive t v := by
  have hw := h.sound
  have hsaw : ∀ act ∈ w.edits k, act.place = q → act.before = setAt act.doc q := by
    rintro act hact rfl
    obtain ⟨-, -, c, -, -, -, ha⟩ := hw.edit hact
    exact ha.saw
  have hlive : ∀ t v, (setAt d q).IsLive t v ↔ w.Wrote k q t v ∧
      ¬∃ act ∈ w.edits k, act.place = q ∧ act.Ends v ∧ (setAt act.doc q).IsLive t v := by
    intro t v
    by_cases hadd : Fact.add q t v ∈ w.said
    · rw [h.isLive_iff hd hadd, Replication.History.live_iff, World.contains_iff hw hadd]
      refine and_congr_right fun _ => not_congr ?_
      constructor
      · rintro ⟨⟨act, _⟩, hact, ⟨hq, hends⟩, ⟨-, hv⟩, hg⟩
        refine ⟨act, hact, hq, hends, ?_⟩
        rw [← hsaw act hact hq]
        exact ⟨hv, fun hr => hg ⟨hq, hr⟩⟩
      · rintro ⟨act, hact, hq, hends, hl⟩
        rw [← hsaw act hact hq] at hl
        exact ⟨⟨act, World.edits_mono (Set.subset_univ k) hact⟩, hact, ⟨hq, hends⟩, ⟨hq, hl.1⟩,
          fun hg => hl.2 hg.2⟩
    · constructor
      · intro hl
        exact absurd (((h.mem_set hd q).1 t v).mp hl.1).said hadd
      · rintro ⟨hwrote, -⟩
        exact absurd hwrote.said hadd
  refine ⟨hlive, ?_, ?_⟩
  · intro hk t v
    by_cases hadd : Fact.add q t v ∈ w.said
    · rw [h.isLive_iff hd hadd, Replication.History.live_iff_of_closed _ (h.closed hk),
        World.contains_iff hw hadd]
      refine and_congr_right fun _ => not_congr ?_
      constructor
      · rintro ⟨⟨act, _⟩, hact, ⟨hq, hends⟩, ⟨-, hv⟩⟩
        refine ⟨act, hact, hq, hends, ?_⟩
        rwa [← hsaw act hact hq]
      · rintro ⟨act, hact, hq, hends, hv⟩
        rw [← hsaw act hact hq] at hv
        exact ⟨⟨act, World.edits_mono (Set.subset_univ k) hact⟩, hact, ⟨hq, hends⟩, ⟨hq, hv⟩⟩
    · constructor
      · intro hl
        exact absurd (((h.mem_set hd q).1 t v).mp hl.1).said hadd
      · rintro ⟨hwrote, -⟩
        exact absurd hwrote.said hadd
  · intro v
    rw [OrSet.mem_values]
    refine exists_congr fun t => (hlive t v).trans (and_congr_right fun _ => ?_)
    push Not
    rfl

/-- The other replica's copy of the mantle shows it. -/
theorem live_iff_not_ended_pairWorld :
    (setAt ((newReplica idB).merge (observedDelta (newReplica idA) oneMantleState)).2.doc
        [Key.mantles, .ofLit "m", Key.present]).IsLive (mintTag idA 1) (lit "1") ↔
      pairWorld.Wrote (∅ ∪ {0}) [Key.mantles, .ofLit "m", Key.present] (mintTag idA 1) (lit "1") ∧
        ¬∃ act ∈ pairWorld.edits (∅ ∪ {0}), act.place = [Key.mantles, .ofLit "m", Key.present] ∧
          act.Ends (lit "1") ∧ (setAt act.doc [Key.mantles, .ofLit "m", Key.present]).IsLive
            (mintTag idA 1) (lit "1") :=
  (live_iff_not_ended reachable_pairWorld (.peer pairWorld_idB)
    [Key.mantles, .ofLit "m", Key.present]).1 _ _

/-! ### A delta that was lost -/

section

-- What a replica does is evaluated by the kernel only.
attribute [local irreducible] Replica.observe Replica.merge observedDelta

/-- A mantle with a number for its domain. -/
def domainState (n : ℕ) : Json :=
  .obj [(Key.mantles, .arr [.obj [(Key.name, .str (.ofLit "m")), (Key.domain, .num (Double.ofInt n))]])]

/-- A replica that observed one domain after another. -/
def writer : ℕ → Replica
  | 0 => newReplica idA
  | n + 1 => ((writer n).observe (some (domainState n))).2

/-- The delta of each of these. -/
def writerParcel (n : ℕ) : Parcel := ⟨observedDelta (writer n) (domainState n), {n}⟩

/-- What the writer knows. -/
def writerKnown : ℕ → Set ℕ
  | 0 => ∅
  | n + 1 => insert n (writerKnown n)

/-- The writer wrote some domains, and nobody merged anything. -/
def writerWorld : ℕ → World
  | 0 => twoNew
  | n + 1 => (writerWorld n).observing ⟨writer n, writerKnown n⟩ (domainState n)

theorem writer_id (n : ℕ) : (writer n).id = idA := by
  induction n with
  | zero => rfl
  | succ n ih => rw [writer, Replica.observe_id, ih]

theorem writerWorld_changes (n : ℕ) : (writerWorld n).changes.length = n := by
  induction n with
  | zero => rfl
  | succ n ih => simp [writerWorld, World.observing, World.commit, ih]

theorem writerWorld_idA (n : ℕ) : (writerWorld n).peers (writer n).id = some ⟨writer n, writerKnown n⟩ := by
  cases n with
  | zero => rfl
  | succ n =>
    have h := World.observing_self (writerWorld n) ⟨writer n, writerKnown n⟩ (domainState n)
    rwa [writerWorld_changes] at h

theorem writerWorld_idB (n : ℕ) : (writerWorld n).peers idB = some ⟨newReplica idB, ∅⟩ := by
  induction n with
  | zero => rfl
  | succ n ih =>
    have hne : idB ≠ (writer n).id := by
      rw [writer_id]
      decide
    rw [writerWorld, World.observing_ne _ _ _ hne, ih]

theorem writerWorld_mail {m n : ℕ} (h : m < n) : writerParcel m ∈ (writerWorld n).mail := by
  induction n with
  | zero => exact absurd h (Nat.not_lt_zero m)
  | succ n ih =>
    have hmail : (writerWorld (n + 1)).mail = writerParcel n :: (writerWorld n).mail := by
      simp only [writerWorld, World.observing, World.commit, writerWorld_changes, writerParcel]
    rw [hmail]
    rcases Nat.lt_succ_iff_lt_or_eq.mp h with h | rfl
    · exact List.mem_cons_of_mem _ (ih h)
    · exact List.mem_cons_self

/-- The edits of the last domain that was written. -/
theorem writerWorld_edits {n : ℕ} {act : Act} (h : act ∈ (writer n).observed (some (domainState n))) :
    act ∈ (writerWorld (n + 1)).edits {n} := by
  let c : Change := ⟨(writer n).id, (writer n).issued, (writer n).doc, (writer (n + 1)).doc,
    observedDelta (writer n) (domainState n), (writer n).observed (some (domainState n)), writerKnown n⟩
  have hlast : ((writerWorld n).changes ++ [c])[(writerWorld n).changes.length]? = some c :=
    List.getElem?_concat_length
  rw [writerWorld_changes] at hlast
  exact ⟨n, rfl, c, hlast, h⟩

theorem Reachable.writerWorld_succ {n : ℕ} (h : Reachable (writerWorld n))
    (ok : ((writer n).observe (some (domainState n))).1.toOption.isSome = true) :
    Reachable (writerWorld (n + 1)) := h.observing (writerWorld_idA n) ok

/-- Three domains can be written. -/
theorem reachable_writerWorld : Reachable (writerWorld 3) :=
  ((reachable_twoNew.writerWorld_succ (n := 0) (by decide +kernel)).writerWorld_succ
    (by decide +kernel)).writerWorld_succ (by decide +kernel)

/-- A replica that merged the first delta. -/
def firstOnly : Replica := ((newReplica idB).merge (writerParcel 0).doc).2

/-- Three domains were written, and another replica merged the first and the last. -/
def lossyWorld : World :=
  ((writerWorld 3).merging ⟨newReplica idB, ∅⟩ (writerParcel 0)).merging ⟨firstOnly, ∅ ∪ {0}⟩
    (writerParcel 2)

theorem reachable_lossyWorld : Reachable lossyWorld := by
  have hB : (writerWorld 3).peers (newReplica idB).id = some ⟨newReplica idB, ∅⟩ := writerWorld_idB 3
  have h0 : writerParcel 0 ∈ (writerWorld 3).mail := writerWorld_mail (by decide)
  have h2 : writerParcel 2 ∈ (writerWorld 3).mail := writerWorld_mail (by decide)
  have hfirst := World.merging_self (writerWorld 3) ⟨newReplica idB, ∅⟩ (writerParcel 0)
  exact (reachable_writerWorld.merging hB h0 (by decide +kernel)).merging (p := ⟨firstOnly, ∅ ∪ {0}⟩)
    hfirst h2 (by decide +kernel)

theorem lossyWorld_idB : lossyWorld.peers idB =
    some ⟨(firstOnly.merge (writerParcel 2).doc).2, ∅ ∪ {0} ∪ {2}⟩ := by
  have hid : (firstOnly.merge (writerParcel 2).doc).2.id = idB := by
    rw [Replica.merge_id, firstOnly, Replica.merge_id]
    rfl
  have h := World.merging_self ((writerWorld 3).merging ⟨newReplica idB, ∅⟩ (writerParcel 0))
    ⟨firstOnly, ∅ ∪ {0}⟩ (writerParcel 2)
  rwa [hid] at h

/-- The place of the domain. -/
def domainPlace : Path := [Key.mantles, .ofLit "m", Key.fields, Key.domain]

/-- The first domain is still live where the last one was merged without the one between,
although whoever wrote the last one had it. -/
theorem live_though_overwritten : ∃ p, Reachable lossyWorld ∧ lossyWorld.peers idB = some p ∧
    (setAt p.replica.doc domainPlace).IsLive (mintTag idA 3) [3, 0] ∧
    ∃ act ∈ lossyWorld.edits p.known, act.place = domainPlace ∧ act.Ends [3, 0] ∧
      (setAt act.doc domainPlace).adds[mintTag idA 3]? = some [3, 0] := by
  have hlive : (setAt (firstOnly.merge (writerParcel 2).doc).2.doc domainPlace).adds[mintTag idA 3]? =
        some [3, 0] ∧
      mintTag idA 3 ∉ (setAt (firstOnly.merge (writerParcel 2).doc).2.doc domainPlace).removes := by
    decide +kernel
  have hact : ∃ act ∈ (writer 2).observed (some (domainState 2)), act.place = domainPlace ∧
      act.intent = .overwrite ∧ (setAt act.doc domainPlace).adds[mintTag idA 3]? = some [3, 0] := by
    decide +kernel
  obtain ⟨act, hmem, hplace, hintent, hhad⟩ := hact
  have hedits : lossyWorld.edits {2} = (writerWorld 3).edits {2} := rfl
  have hedit : act ∈ lossyWorld.edits (∅ ∪ {0} ∪ {2}) :=
    World.edits_mono Set.subset_union_right (hedits ▸ writerWorld_edits hmem)
  refine ⟨_, reachable_lossyWorld, lossyWorld_idB, hlive, act, hedit, hplace, ?_, hhad⟩
  rw [Act.Ends, hintent]
  trivial

end

end VoidPalabra
