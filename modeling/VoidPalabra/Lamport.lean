import VoidPalabra.Clock
import VoidPalabra.Causality
import VoidPalabra.ReadsAgree

/-!
# What a run owes to the clock

As long as fewer tags are minted than the ceiling, no counter is behind a tag of its replica's
document. A write is then stamped past everything that was in the document it was made in, and the
value with the greatest stamp is one that no other live write was made after.
-/

namespace VoidPalabra

/-! ### The stamps of a document -/

/-- No tag of the document carries more than this. -/
def UpTo (d : Json) (n : ℕ) : Prop := ∀ t ∈ collectAllTags d, (stampOf t.bytes).n ≤ n

theorem upTo_iff {d : Json} (h : Shaped d) {n : ℕ} : UpTo d n ↔
    ∀ q, (∀ (t : Tag) (v : Bytes), (setAt d q).adds[t]? = some v → (stampOf t.bytes).n ≤ n) ∧
      ∀ t ∈ (setAt d q).removes, (stampOf t.bytes).n ≤ n := by
  constructor
  · exact fun hd q => ⟨fun t v ht => hd t ((mem_collectAllTags_iff h.namedOnce).mpr ⟨q, .inl ⟨v, ht⟩⟩),
      fun t ht => hd t ((mem_collectAllTags_iff h.namedOnce).mpr ⟨q, .inr ht⟩)⟩
  · intro hd t ht
    obtain ⟨q, ⟨v, hv⟩ | ht⟩ := (mem_collectAllTags_iff h.namedOnce).mp ht
    · exact (hd q).1 t v hv
    · exact (hd q).2 t ht

theorem UpTo.mono {d : Json} {m n : ℕ} (h : UpTo d m) (hmn : m ≤ n) : UpTo d n :=
  fun t ht => (h t ht).trans hmn

theorem stampOf_mintTag_le (id : CString) (n : ℕ) : (stampOf (mintTag id n).bytes).n ≤ n := by
  rcases stampOf_mintTag_n_le id n with h | h <;> omega

/-- The join of two documents has their tags. -/
theorem UpTo.join {a b : Json} (ha : Shaped a) (hb : Shaped b) {n : ℕ} (h : UpTo a n) (h' : UpTo b n) :
    UpTo (joinNode a b) n := by
  rw [upTo_iff ha] at h
  rw [upTo_iff hb] at h'
  refine (upTo_iff (ha.join hb)).mpr fun q => ?_
  rw [setAt_joinNode ha hb]
  constructor
  · intro t v hv
    rw [OrSet.join_adds] at hv
    cases hbt : (setAt b q).adds[t]? with
    | some w => exact (h' q).1 t w hbt
    | none =>
      rw [hbt] at hv
      exact (h q).1 t v hv
  · intro t ht
    exact (OrSet.mem_join_removes.mp ht).elim ((h q).2 t) ((h' q).2 t)

/-- A counter that is not past the ceiling is followed. -/
theorem upTo_highestCounter {d : Json} {n : ℕ} (h : UpTo d n) (hn : n ≤ kLamportCeiling) :
    UpTo d (highestCounter d) ∧ highestCounter d ≤ n :=
  ⟨fun t ht => le_highestCounter ht ((h t ht).trans hn), highestCounter_le_iff.mpr fun t ht _ => h t ht⟩

/-- A store adds under tags past everything that is in the document. -/
theorem upTo_of_stores {a : Author} {V : Path → Bytes → Prop} {e e' : Editor} (hw : Shaped e.work)
    (hs : Relation.ReflTransGen (Stored a V) e e') (he : UpTo e.work e.issued)
    (hfits : e'.issued ≤ kLamportCeiling) :
    UpTo e'.work e'.issued ∧ ∀ act ∈ e'.log, act ∈ e.log ∨ ∀ t v, act.Adds t v →
      ∀ u ∈ collectAllTags act.doc, (stampOf u.bytes).n < (stampOf t.bytes).n := by
  induction hs with
  | refl => exact ⟨he, fun act hact => .inl hact⟩
  | @tail b c hb hs ih =>
    have hwb := shaped_of_stored hb hw
    obtain ⟨hwc, hbc, hadds, hremoves⟩ := hs.work hwb
    obtain ⟨hin, hlog⟩ := ih (hbc.trans hfits)
    have hinb := (upTo_iff hwb).mp hin
    constructor
    · refine (upTo_iff hwc).mpr fun q => ⟨fun t v ht => ?_, fun t ht => ?_⟩
      · rcases hadds q t v ht with hold | ⟨-, n, -, hn, rfl⟩
        · exact ((hinb q).1 t v hold).trans hbc
        · exact (stampOf_mintTag_le _ _).trans hn
      · rcases hremoves q t ht with hold | ⟨q', v, hv⟩
        · exact ((hinb q).2 t hold).trans hbc
        · exact ((hinb q').1 t v hv).trans hbc
    · intro act hact
      rcases hs.log hwb act hact with hold | ⟨hdoc, -, hnew⟩
      · exact hlog act hold
      · refine .inr fun t v hadd u hu => ?_
        obtain ⟨n, hlt, hn, rfl⟩ := hnew t v hadd
        rw [hdoc] at hu
        have hceil : kLamportCeiling ≤ digitGuard * 10 + 9 := by decide
        rw [stampOf_mintTag_n (by omega)]
        exact Nat.lt_of_le_of_lt (hin u hu) hlt

/-! ### Runs with restarts -/

/-- A step of a run in which a replica is also written and read again. -/
inductive Resumes : World → World → Prop
  /-- A step. -/
  | step {w w' : World} (h : Step w w') : Resumes w w'
  /-- A restart. -/
  | restore {w : World} {id : CString} {p : Peer} {r : Replica} (there : w.peers id = some p)
    (read : Replica.fromBytes p.replica.toBytes = .ok r) : Resumes w (w.put ⟨r, p.known⟩)

/-- A world of such a run. -/
def Resumable (w : World) : Prop := Relation.ReflTransGen Resumes .init w

namespace World

variable {w w' : World}

/-- No counter and no tag of a run is behind the clock. -/
structure Clocked (w : World) : Prop where
  /-- The tags that were minted. -/
  said : ∀ q (t : Tag) v, .add q t v ∈ w.said → (stampOf t.bytes).n ≤ w.minted
  /-- The counters. -/
  issued : ∀ id p, w.peers id = some p → p.replica.issued ≤ w.minted
  /-- The documents of the replicas. -/
  docs : ∀ id p, w.peers id = some p → UpTo p.replica.doc p.replica.issued
  /-- A write is past everything in the document that the change started with, and in the one that it was
  made in. -/
  writes : ∀ c ∈ w.changes, ∀ act ∈ c.acts, ∀ t v, act.Adds t v →
    ∀ u, u ∈ collectAllTags c.start ∨ u ∈ collectAllTags act.doc → (stampOf u.bytes).n < (stampOf t.bytes).n

/-- What is retired was added. -/
theorem Sound.added_of_retired (hw : w.Sound) {q : Path} {t : Tag} (h : .retire q t ∈ w.said) :
    ∃ q' v, .add q' t v ∈ w.said := by
  obtain ⟨c, hc, act, hact, hf⟩ := h
  obtain ⟨n, hn⟩ := List.mem_iff_getElem?.mp hc
  have hedit : act ∈ w.edits Set.univ := ⟨n, trivial, c, hn, hact⟩
  have htells := hw.tells_doc hedit
  have hs := (hw.changes c hc).acts act hact
  have hr : act.Retires t := hf.2
  rcases hs.retires t hr with ⟨v, hl, -⟩ | ⟨-, -, q', v, -, -, -, hl⟩
  · have hadd : (setAt act.doc act.place).adds[t]? = some v := hs.saw ▸ hl.1
    exact ⟨act.place, v, htells.add hadd⟩
  · exact ⟨q', v, htells.add hl.1⟩

/-- What a document of the run holds is not past the clock. -/
theorem Clocked.upTo (h : w.Clocked) (hw : w.Sound) {d : Json} (hd : w.Tells d) : UpTo d w.minted := by
  refine (upTo_iff hd.1).mpr fun q => ⟨fun t v ht => h.said q t v (hd.add ht), fun t ht => ?_⟩
  obtain ⟨q', v, hadd⟩ := hw.added_of_retired (hd.retire ht)
  exact h.said q' t v hadd

theorem clocked_init : World.init.Clocked where
  said := by
    rintro q t v ⟨c, hc, -⟩
    cases hc
  issued := fun id p h => by cases h
  docs := fun id p h => by cases h
  writes := fun c hc => by cases hc

/-- One peer is changed. -/
theorem forall_update {P : Peer → Prop} {f : CString → Option Peer} (hf : ∀ id p, f id = some p → P p)
    {id : CString} {p : Peer} (hp : P p) :
    ∀ id' p', Function.update f id (some p) id' = some p' → P p' := by
  intro id' p' h
  by_cases he : id' = id
  · rw [he, Function.update_self] at h
    cases h
    exact hp
  · rw [Function.update_of_ne he] at h
    exact hf id' p' h

/-- A replica is put. -/
theorem Clocked.put (h : w.Clocked) {p : Peer} {n : ℕ} (hp : p.replica.issued ≤ w.minted + n)
    (hd : UpTo p.replica.doc p.replica.issued) : ((w.put p).spend n).Clocked where
  said := fun q t v hf => (h.said q t v hf).trans (Nat.le_add_right _ _)
  issued := forall_update (P := fun p => p.replica.issued ≤ w.minted + n)
    (fun id p' hp' => (h.issued id p' hp').trans (Nat.le_add_right _ _)) hp
  docs := forall_update (P := fun p => UpTo p.replica.doc p.replica.issued) h.docs hd
  writes := h.writes

/-- A replica edits its document. -/
theorem Clocked.commit (h : w.Clocked) (hw : w.Sound) {id : CString} {p : Peer}
    (there : w.peers id = some p) {V : Path → Bytes → Prop} {e : Editor}
    (hs : Relation.ReflTransGen (Stored p.replica.author V) p.replica.editor e) {r : Replica}
    (hdoc : r.doc = e.work) (hissued : r.issued = e.issued) {delta : Json}
    (hfew : (w.commit p r delta e.log).minted ≤ kLamportCeiling) : (w.commit p r delta e.log).Clocked := by
  have hshape : Shaped p.replica.editor.work := (hw.peers id p there).tells.1
  have hstart : p.replica.issued ≤ w.minted := h.issued id p there
  obtain ⟨hle, hminted⟩ := minted_of_stores (e := p.replica.editor) hshape hs
  change p.replica.issued ≤ e.issued at hle
  have hmint : (w.commit p r delta e.log).minted = w.minted + (e.issued - p.replica.issued) := by
    rw [← hissued]
    rfl
  have hend : e.issued ≤ (w.commit p r delta e.log).minted := by omega
  obtain ⟨hin, hnew⟩ := upTo_of_stores (e := p.replica.editor) hshape hs (h.docs id p there) (hend.trans hfew)
  refine ⟨fun q t v hf => ?_, ?_, ?_, fun c hc => ?_⟩
  · rw [said_commit] at hf
    rcases hf with hf | hf
    · exact (h.said q t v hf).trans (by omega)
    · obtain ⟨act, hact, -, hadd⟩ := add_mem_said.mp hf
      rcases hminted act hact with hold | hnew
      · cases hold
      · obtain ⟨n, hn, rfl⟩ := hnew t v hadd
        exact (stampOf_mintTag_le _ _).trans (hn.2.trans hend)
  · refine forall_update (P := fun p' => p'.replica.issued ≤ (w.commit p r delta e.log).minted)
      (fun id' p' hp' => (h.issued id' p' hp').trans (by omega)) ?_
    rw [← hissued] at hend
    exact hend
  · refine forall_update (P := fun p' => UpTo p'.replica.doc p'.replica.issued) h.docs ?_
    change UpTo r.doc r.issued
    rw [hdoc, hissued]
    exact hin
  · rcases List.mem_append.mp hc with hc | hc
    · exact h.writes c hc
    · rw [List.mem_singleton.mp hc]
      rintro act hact t v hadd u (hu | hu)
      · rcases hminted act hact with hold | hmint
        · cases hold
        · obtain ⟨n, ⟨hlt, hn⟩, rfl⟩ := hmint t v hadd
          have hceil : kLamportCeiling ≤ digitGuard * 10 + 9 := by decide
          rw [stampOf_mintTag_n (by omega)]
          exact Nat.lt_of_le_of_lt (h.docs id p there u hu) hlt
      · rcases hnew act hact with hold | hnew
        · cases hold
        · exact hnew t v hadd u hu

/-- **The clock over a step.** -/
theorem Clocked.step (h : w.Clocked) (hw : w.Sound) (hs : Step w w') (hfew : w'.minted ≤ kLamportCeiling) :
    w'.Clocked := by
  cases hs with
  | create free made =>
    obtain ⟨-, rfl⟩ := Replica.create_eq_ok.mp made
    refine h.put (n := 0) (Nat.zero_le _) ((upTo_iff shaped_emptyRoot).mpr fun q => ?_)
    rw [setAt_emptyRoot]
    simp [OrSet.empty]
  | @fork id newId p r there free made =>
    obtain ⟨-, -, rfl⟩ := Replica.fork_eq_ok.mp made
    have hissued := h.issued id p there
    obtain ⟨hin, hle⟩ := upTo_highestCounter (h.docs id p there) (hissued.trans hfew)
    exact h.put (n := 0) (hle.trans hissued) hin
  | @setPolicy id p there policy => exact h.put (n := 0) (h.issued id p there) (h.docs id p there)
  | @observe id p state o there ok =>
    obtain ⟨-, -, -, -, hdoc, hissued⟩ := Replica.observe_ok ok
    exact h.commit hw there (stores_observed (hw.peers id p there).tells.1 state) hdoc hissued hfew
  | @refuse id p state c there failed =>
    have hle := p.replica.observe_issued state
    have hissued := h.issued id p there
    obtain ⟨-, he⟩ := Replica.observe_error failed
    refine h.put ?_ ?_
    · change (p.replica.observe state).2.issued ≤ _
      omega
    · rw [he] at hle ⊢
      exact (h.docs id p there).mono hle
  | @resolve id p c side d delta known policy there held reported ok =>
    obtain ⟨-, -, -, -, -, hdoc, hissued⟩ := Replica.resolve_ok ok
    have hplaced := (hw.holds held).1.placed reported
    have hs := @steps_settle p.replica.author (fun _ _ => True) (fun _ _ => trivial) c hplaced
      (c.sides.getD side []) (fun _ => trivial) p.replica.editor (hw.peers id p there).tells.1
    exact h.commit hw there hs hdoc hissued hfew
  | @merge id p m there posted ok =>
    obtain ⟨-, hr⟩ := Replica.merge_ok ok
    have hm := hw.mail m posted
    obtain ⟨hin, hle⟩ := upTo_highestCounter (h.upTo hw hm) hfew
    refine h.put (n := 0) ?_ ?_
    · rw [hr]
      exact max_le (h.issued id p there) hle
    · rw [hr]
      exact .join (hw.peers id p there).tells.1 hm.1 ((h.docs id p there).mono (le_max_left _ _))
        (hin.mono (le_max_right _ _))
  | publish there => exact ⟨h.said, h.issued, h.docs, h.writes⟩

theorem Clocked.restore (h : w.Clocked) (hw : w.Sound) (hfew : w.minted ≤ kLamportCeiling) {id : CString}
    {p : Peer} {r : Replica} (there : w.peers id = some p)
    (read : Replica.fromBytes p.replica.toBytes = .ok r) :
    (w.put ⟨r, p.known⟩).Sound ∧ (w.put ⟨r, p.known⟩).Clocked := by
  have hissued := h.issued id p there
  have hceil : kLamportCeiling < 10 ^ 15 ∧ kLamportCeiling < 2 ^ 53 := by decide
  obtain ⟨h1, h2, h3, h4, h5, h6⟩ := hw.peers _ _ there
  obtain ⟨-, -, -, rfl⟩ := (Replica.fromBytes_toBytes h3.1 (readsBack_ofInt (by omega)) (by omega)).mp read
  have hdocs := h.docs id p there
  subst h1
  exact ⟨hw.put ⟨rfl, h2, h3, h4, h5, h6⟩, h.put (n := 0) hissued hdocs⟩

theorem minted_le (h : Resumes w w') : w.minted ≤ w'.minted := by
  cases h with
  | step h =>
    cases h with
    | observe => exact Nat.le_add_right _ _
    | refuse => exact Nat.le_add_right _ _
    | resolve => exact Nat.le_add_right _ _
    | _ => exact le_rfl
  | restore => exact le_rfl

end World

/-- **The clock over a run.** -/
theorem Resumable.clocked {w : World} (h : Resumable w) (hfew : w.minted ≤ kLamportCeiling) :
    w.Sound ∧ w.Clocked := by
  induction h with
  | refl => exact ⟨World.sound_init, World.clocked_init⟩
  | tail _ hs ih =>
    obtain ⟨hw, hc⟩ := ih ((World.minted_le hs).trans hfew)
    cases hs with
    | step hs => exact ⟨hs.sound hw, hc.step hw hs hfew⟩
    | restore there read => exact hc.restore hw hfew there read

/-! ### The latest value -/

/-- One write was made in a document that had the tag of the other one. -/
def World.Upon (w : World) (u t : Tag) : Prop :=
  ∃ c ∈ w.changes, ∃ act ∈ c.acts, (∃ v, act.Adds u v) ∧
    (t ∈ collectAllTags c.start ∨ t ∈ collectAllTags act.doc)

/-- One write was made after the other one. It speaks of documents only, and not of counters. -/
def World.After (w : World) : Tag → Tag → Prop := Relation.TransGen w.Upon

theorem World.Clocked.lt_of_after {w : World} (h : w.Clocked) {u t : Tag} (hu : w.After u t) :
    (stampOf t.bytes).n < (stampOf u.bytes).n := by
  have hstep : ∀ {u t : Tag}, w.Upon u t → (stampOf t.bytes).n < (stampOf u.bytes).n := by
    rintro u t ⟨c, hc, act, hact, ⟨v, hadd⟩, ht⟩
    exact h.writes c hc act hact u v hadd t ht
  induction hu with
  | single h => exact hstep h
  | tail _ h ih => exact (hstep h).trans ih

/-- The loop of `Latest` ends with a live add of the largest counter. -/
theorem foldl_latestStep_max (es : List (Tag × Bytes)) (e : Tag × Bytes) :
    ∃ m ∈ e :: es, es.foldl latestStep (some (stampOf e.1.bytes, e.2)) = some (stampOf m.1.bytes, m.2) ∧
      ∀ x ∈ e :: es, (stampOf x.1.bytes).n ≤ (stampOf m.1.bytes).n := by
  induction es generalizing e with
  | nil => exact ⟨e, List.mem_cons_self, rfl, fun x hx => by rw [List.mem_singleton.mp hx]⟩
  | cons f es ih =>
    rw [List.foldl_cons, latestStep]
    have hle : ∀ a b : Stamp, a.lt b = true → a.n ≤ b.n := by
      intro a b hab
      by_contra hn
      rw [Stamp.lt, if_pos (by omega), decide_eq_true_eq] at hab
      omega
    have hge : ∀ a b : Stamp, a.lt b = false → b.n ≤ a.n := by
      intro a b hab
      by_contra hn
      rw [Stamp.lt_of_n (by omega)] at hab
      cases hab
    split
    · rename_i hnew
      obtain ⟨m, hm, hfold, hmax⟩ := ih f
      refine ⟨m, List.mem_cons_of_mem _ hm, hfold, List.forall_mem_cons.mpr ⟨?_, hmax⟩⟩
      refine le_trans ?_ (hmax f List.mem_cons_self)
      rcases (Bool.or_eq_true _ _).mp hnew with hlt | htie
      · exact hle _ _ hlt
      · exact hge _ _ (by simpa using (Bool.and_eq_true_iff.mp htie).1)
    · rename_i hold
      obtain ⟨m, hm, hfold, hmax⟩ := ih e
      have hfe : (stampOf f.1.bytes).n ≤ (stampOf e.1.bytes).n := by
        refine hge _ _ ?_
        by_contra hne
        exact hold (by rw [Bool.not_eq_false _ |>.mp hne, Bool.true_or])
      have hrest : ∀ x ∈ es, (stampOf x.1.bytes).n ≤ (stampOf m.1.bytes).n :=
        fun x hx => hmax x (List.mem_cons_of_mem _ hx)
      have he := hmax e List.mem_cons_self
      refine ⟨m, ?_, hfold, List.forall_mem_cons.mpr ⟨he, List.forall_mem_cons.mpr ⟨hfe.trans he, hrest⟩⟩⟩
      rcases List.mem_cons.mp hm with rfl | hm
      · exact List.mem_cons_self
      · exact List.mem_cons_of_mem _ (List.mem_cons_of_mem _ hm)

/-- The live add of the largest counter. -/
theorem OrSet.exists_latest {s : OrSet} (h : s.liveEntries ≠ []) :
    ∃ t v stamp, s.IsLive t v ∧ s.liveEntries.foldl latestStep none = some (stamp, v) ∧
      ∀ u x, s.IsLive u x → (stampOf u.bytes).n ≤ (stampOf t.bytes).n := by
  cases hes : s.liveEntries with
  | nil => exact absurd hes h
  | cons e es =>
    obtain ⟨m, hm, hfold, hmax⟩ := foldl_latestStep_max es e
    refine ⟨m.1, m.2, stampOf m.1.bytes, mem_liveEntries.mp (hes ▸ hm), ?_, fun u x hu => ?_⟩
    · rw [List.foldl_cons]
      exact hfold
    · exact hmax (u, x) (hes ▸ mem_liveEntries.mpr hu)

/-- What `Latest` shows is the value of a live add of the largest counter, and nothing else. -/
theorem OrSet.resolve_latest {s : OrSet} {shown : Bytes} (h : shown ∈ (s.resolve .latest).values) :
    (s.resolve .latest).values = [shown] ∧
      ∃ t, s.IsLive t shown ∧ ∀ u x, s.IsLive u x → (stampOf u.bytes).n ≤ (stampOf t.bytes).n := by
  obtain ⟨t₀, ht₀⟩ := mem_values.mp (mem_values_of_resolve h)
  obtain ⟨t, v, stamp, hlive, hfold, hmax⟩ := exists_latest (List.ne_nil_of_mem (mem_liveEntries.mpr ht₀))
  unfold resolve at h ⊢
  split at h
  · -- A register with one value shows it, under whichever tags it is held.
    rename_i hone
    rw [if_pos hone]
    have hlen : s.values.length ≤ 1 := by
      simpa [live] using hone
    have hv : v ∈ s.values := mem_values.mpr ⟨t, hlive⟩
    change shown ∈ s.values at h
    change s.values = [shown] ∧ _
    obtain ⟨x, hx⟩ := List.length_eq_one_iff.mp (le_antisymm hlen (List.length_pos_of_mem h))
    rw [hx, List.mem_singleton] at h hv
    subst h hv
    exact ⟨hx, t, hlive, hmax⟩
  · rename_i hmany
    rw [if_neg hmany]
    simp only [hfold, List.mem_singleton] at h ⊢
    subst h
    exact ⟨rfl, t, hlive, hmax⟩

theorem Reachable.resumable {w : World} (h : Reachable w) : Resumable w := by
  induction h with
  | refl => exact .refl
  | tail _ hs ih => exact ih.tail (.step hs)

end VoidPalabra
