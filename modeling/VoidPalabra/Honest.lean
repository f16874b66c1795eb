import VoidPalabra.Lamport
import VoidPalabra.Projected

/-!
# Honest replicas take what they are sent

Replicas that observe what can be encoded exchange deltas, documents and projections of documents, in
any order, and are written and read again. Everything that was handed over is accepted by every one of
them, also when it is its own edits that come back.
-/

namespace VoidPalabra

/-! ### Runs with projections and restarts -/

/-- A step of a run in which projections are handed over as well and replicas are written and read again.
What is observed can be encoded. -/
inductive Deals : World → World → Prop
  /-- A step that says nothing new: a replica is created, forked or given a policy, refuses a state, merges
  or hands over its document. -/
  | quiet {w w' : World} (h : Step w w') (same : w'.changes = w.changes) : Deals w w'
  /-- A state is observed. -/
  | observe {w : World} {id : CString} {p : Peer} {state : Json} {o : Observed}
    (there : w.peers id = some p) (fits : RecordsDecodable state)
    (ok : (p.replica.observe (some state)).1 = .ok o) :
    Deals w (w.commit p (p.replica.observe (some state)).2 o.delta (p.replica.observed (some state)))
  /-- A conflict that some document of the run reports is settled. -/
  | resolve {w : World} {id : CString} {p : Peer} {c : Conflict} {side : ℕ} {d delta : Json}
    {known : Set ℕ} {policy : JoinPolicy} (there : w.peers id = some p) (held : w.Holds d known)
    (reported : c ∈ conflicts d policy) (ok : (p.replica.resolve c side).1 = .ok (some delta)) :
    Deals w (w.commit p (p.replica.resolve c side).2 delta (p.replica.settled c side))
  /-- The projection of a document is handed over. -/
  | share {w : World} {d : Json} {known : Set ℕ} (held : w.Holds d known) (share : ExportSet)
    (policy : JoinPolicy) : Deals w { w with mail := ⟨exportable d share policy, ∅⟩ :: w.mail }
  /-- A replica is read from the bytes that it was written to. -/
  | restore {w : World} {id : CString} {p : Peer} {r : Replica} (there : w.peers id = some p)
    (few : p.replica.issued < 10 ^ 15) (read : Replica.fromBytes p.replica.toBytes = .ok r) :
    Deals w (w.put ⟨r, p.known⟩)

/-! ### What every document of such a run is -/

/-- A document that is accepted, and whose sets hold only what was said. -/
structure Vouched (said : Set Fact) (d : Json) : Prop where
  /-- It is accepted. -/
  valid : validate d = .ok ()
  /-- What was added. -/
  adds : ∀ q (t : Tag) (v : Bytes), (setAt d q).adds[t]? = some v → .add q t v ∈ said
  /-- What was retired. -/
  removes : ∀ q, ∀ t ∈ (setAt d q).removes, .retire q t ∈ said

/-- A replica has everything that was ever added under its own identity. -/
structure Peer.Honest (said : Set Fact) (id : CString) (p : Peer) : Prop where
  /-- It is filed under its identity. -/
  filed : p.replica.id = id
  /-- The identity is a proper one. -/
  proper : validId id = .ok ()
  /-- Its document. -/
  vouched : Vouched said p.replica.doc
  /-- It says what a new replica's document says. -/
  base : facts emptyRoot ⊆ facts p.replica.doc
  /-- It has its own adds, and its counter is not behind them. -/
  own : ∀ q n v, .add q (mintTag id n) v ∈ said →
    (setAt p.replica.doc q).adds[mintTag id n]? = some v ∧ n ≤ p.replica.issued

/-- What is so in every state of a run. -/
structure World.Honest (w : World) : Prop where
  /-- The replicas. -/
  peers : ∀ id p, w.peers id = some p → p.Honest w.said id
  /-- What was handed over. -/
  mail : ∀ m ∈ w.mail, Vouched w.said m.doc
  /-- Every tag was minted by a replica of the run. -/
  minted : ∀ q t v, .add q t v ∈ w.said → ∃ id p n, w.peers id = some p ∧ t = mintTag id n
  /-- What was retired was added. -/
  retired : ∀ q t, .retire q t ∈ w.said → ∃ q' v, .add q' t v ∈ w.said
  /-- A tag names one value in one set. -/
  unique : ∀ p q t v u, .add p t v ∈ w.said → .add q t u ∈ w.said → p = q ∧ v = u

section

variable {said : Set Fact}

theorem Vouched.mono {said' : Set Fact} {d : Json} (h : Vouched said d) (hs : said ⊆ said') :
    Vouched said' d :=
  ⟨h.valid, fun q t v hv => hs (h.adds q t v hv), fun q t ht => hs (h.removes q t ht)⟩

theorem Vouched.shaped {d : Json} (h : Vouched said d) : Shaped d := (validate_iff.mp h.valid).1

theorem Vouched.accepted {d : Json} (h : Vouched said d) {q : Path} {t : Tag} {v : Bytes}
    (hv : (setAt d q).adds[t]? = some v) : AcceptedAt q v :=
  (valuesAccepted_iff h.shaped).mp (validate_iff.mp h.valid).2 q t v hv

theorem vouched_of_accepted {d : Json} (hs : Shaped d)
    (hv : ∀ q (t : Tag) (v : Bytes), (setAt d q).adds[t]? = some v → AcceptedAt q v)
    (hadds : ∀ q (t : Tag) (v : Bytes), (setAt d q).adds[t]? = some v → .add q t v ∈ said)
    (hremoves : ∀ q, ∀ t ∈ (setAt d q).removes, .retire q t ∈ said) : Vouched said d :=
  ⟨validate_iff.mpr ⟨hs, (valuesAccepted_iff hs).mpr hv⟩, hadds, hremoves⟩

/-- A part of a document is vouched for by what the document is. -/
theorem Vouched.exportable {d : Json} (h : Vouched said d) (share : ExportSet) (policy : JoinPolicy) :
    Vouched said (exportable d share policy) :=
  ⟨validate_exportable h.valid share policy,
    fun q t v hv => h.adds q t v ((setAt_exportable h.valid share policy q).adds t v hv),
    fun q t ht => h.removes q t ((setAt_exportable h.valid share policy q).removes t ht)⟩

theorem Vouched.join {a b : Json} (ha : Vouched said a) (hb : Vouched said b) :
    Vouched said (joinNode a b) := by
  have hadds : ∀ q (t : Tag) (v : Bytes), (setAt (joinNode a b) q).adds[t]? = some v →
      (setAt b q).adds[t]? = some v ∨ (setAt a q).adds[t]? = some v := by
    intro q t v hv
    rw [setAt_joinNode ha.shaped hb.shaped, OrSet.join_adds] at hv
    cases hbt : (setAt b q).adds[t]? with
    | some u =>
      rw [hbt] at hv
      exact .inl hv
    | none =>
      rw [hbt] at hv
      exact .inr hv
  refine vouched_of_accepted (ha.shaped.join hb.shaped) (fun q t v hv => ?_) (fun q t v hv => ?_)
    fun q t ht => ?_
  · exact (hadds q t v hv).elim hb.accepted ha.accepted
  · exact (hadds q t v hv).elim (hb.adds q t v) (ha.adds q t v)
  · rw [setAt_joinNode ha.shaped hb.shaped] at ht
    exact (OrSet.mem_join_removes.mp ht).elim (ha.removes q t) (hb.removes q t)

theorem vouched_emptyRoot : Vouched said emptyRoot := by
  refine vouched_of_accepted shaped_emptyRoot (fun q t v hv => ?_) (fun q t v hv => ?_) fun q t ht => ?_
  · rw [setAt_emptyRoot] at hv
    simp at hv
  · rw [setAt_emptyRoot] at hv
    simp at hv
  · rw [setAt_emptyRoot] at ht
    simp at ht

end

/-! ### What is accepted -/

namespace World

variable {w : World}

/-- Nobody is asked to take what it did not say under its own identity. -/
theorem Honest.not_caught (hw : w.Honest) {id : CString} {p : Peer} (there : w.peers id = some p) {d : Json}
    (hd : Vouched w.said d) : ¬Caught p.replica d := by
  have hp := hw.peers id p there
  rintro ⟨t, ht, hown, hcase⟩
  -- The tag was added somewhere, by the replica that it names: this one.
  obtain ⟨q, v, hsaid⟩ : ∃ q v, .add q t v ∈ w.said := by
    obtain ⟨q, ⟨v, hv⟩ | hr⟩ := (mem_collectAllTags_iff hd.shaped.namedOnce).mp ht
    · exact ⟨q, v, hd.adds q t v hv⟩
    · exact hw.retired q t (hd.removes q t hr)
  obtain ⟨id', p', n, there', rfl⟩ := hw.minted q t v hsaid
  have hid : id' = id := by
    rw [hp.filed] at hown
    exact id_eq_of_ownCounter (hw.peers id' p' there').proper hp.proper hown
  subst hid
  have hmine := (hp.own q n v hsaid).1
  have hnamed := hp.vouched.shaped.namedOnce
  rcases hcase with hunknown | ⟨x, hx, hother⟩
  · exact hunknown ((mem_collectAllTags_iff hnamed).mpr ⟨q, .inl ⟨v, hmine⟩⟩)
  · -- Its last add under the tag is the only one, and so is the replica's.
    have hlast : ∀ {e : Json} {y : Path × Bytes}, Vouched w.said e → lastAdd e (mintTag id' n) = some y →
        .add y.1 (mintTag id' n) y.2 ∈ w.said := by
      intro e y he hy
      obtain ⟨z, hz, rfl⟩ := Option.map_eq_some_iff.mp hy
      have hmem := List.mem_filter.mp (List.mem_of_getLast? hz)
      obtain ⟨t', q', v'⟩ := z
      have htag : t' = mintTag id' n := by simpa using hmem.2
      rw [htag] at hmem
      exact he.adds q' _ v' ((mem_addsIn he.shaped.namedOnce).mp hmem.1)
    obtain ⟨y, hy⟩ : ∃ y, lastAdd p.replica.doc (mintTag id' n) = some y := by
      have hadd := (mem_addsIn hnamed).mpr hmine
      have hne : (addsIn p.replica.doc []).filter (fun x => x.1 = mintTag id' n) ≠ [] :=
        List.ne_nil_of_mem (List.mem_filter.mpr ⟨hadd, by simp⟩)
      exact ⟨_, by rw [lastAdd, List.getLast?_eq_some_getLast hne]; rfl⟩
    have hone := hw.unique y.1 x.1 _ y.2 x.2 (hlast hp.vouched hy) (hlast hd hx)
    exact hother y hy ⟨by rw [hone.1], hone.2⟩

/-- Whatever is vouched for is merged. -/
theorem Honest.merges (hw : w.Honest) {id : CString} {p : Peer} (there : w.peers id = some p) {d : Json}
    (hd : Vouched w.said d) : (p.replica.merge d).1 = .ok := by
  have hnone : ¬∃ why, p.replica.merge d = (.identityCollision why, p.replica) := by
    rw [merge_identityCollision_iff hd.valid]
    exact hw.not_caught there hd
  revert hnone
  unfold Replica.merge
  rw [hd.valid]
  dsimp only
  split
  · rename_i why _
    exact fun hnone => absurd ⟨why, rfl⟩ hnone
  · exact fun _ => rfl

theorem Honest.holds (hw : w.Honest) {d : Json} {k : Set ℕ} (h : w.Holds d k) : Vouched w.said d := by
  cases h with
  | peer there => exact (hw.peers _ _ there).vouched
  | parcel posted => exact hw.mail _ posted

/-- A replica starts an edit in a sound editor. -/
theorem Honest.editor (hw : w.Honest) {id : CString} {p : Peer} (there : w.peers id = some p) :
    Inv p.replica.author p.replica.doc p.replica.issued p.replica.editor := by
  have hp := hw.peers id p there
  have hid : p.replica.author.id = id := hp.filed
  constructor
  · exact hp.vouched.shaped
  · exact (validate_iff.mp (show validate emptyDelta = .ok () by decide +kernel)).1
  · exact le_rfl
  · intro q n v hf
    exact (hp.own q n v (hid ▸ hp.vouched.adds q _ v hf)).2
  · exact facts_emptyDelta_subset.trans hp.base
  · simp [Replica.editor, said_nil]
  · simp [Replica.editor, said_nil, emptyDelta]
  all_goals simp [Replica.editor]

/-! ### What a step keeps -/

theorem honest_init : World.init.Honest where
  peers := fun id p h => by cases h
  mail := fun m h => by cases h
  minted := by
    rintro q t v ⟨c, hc, -⟩
    cases hc
  retired := by
    rintro q t ⟨c, hc, -⟩
    cases hc
  unique := by
    rintro p q t v u ⟨c, hc, -⟩
    cases hc

theorem Honest.put (hw : w.Honest) {p : Peer} (hp : p.Honest w.said p.replica.id) : (w.put p).Honest where
  peers := fun id q hq => by
    change Function.update w.peers p.replica.id (some p) id = some q at hq
    by_cases he : id = p.replica.id
    · rw [he, Function.update_self] at hq
      cases hq
      exact he ▸ hp
    · rw [Function.update_of_ne he] at hq
      exact hw.peers id q hq
  mail := hw.mail
  minted := fun q t v h => by
    obtain ⟨id, p', n, there, ht⟩ := hw.minted q t v h
    by_cases he : id = p.replica.id
    · exact ⟨id, p, n, by rw [he]; exact Function.update_self _ _ _, ht⟩
    · exact ⟨id, p', n, by rw [← there]; exact Function.update_of_ne he _ _, ht⟩
  retired := hw.retired
  unique := hw.unique

/-- Nothing was added under an identity that is not in use. -/
theorem Honest.not_said_of_free (hw : w.Honest) {id : CString} (free : w.peers id = none)
    (hid : validId id = .ok ()) {q : Path} {n : ℕ} {v : Bytes} : .add q (mintTag id n) v ∉ w.said := by
  intro h
  obtain ⟨id', p, m, there, ht⟩ := hw.minted q _ v h
  have he := (mintTag_eq hid (hw.peers id' p there).proper ht).1
  rw [← he, free] at there
  cases there

/-- A replica edits its document. -/
theorem Honest.commit (hw : w.Honest) {id : CString} {p : Peer} (there : w.peers id = some p)
    {e : Editor} (he : Inv p.replica.author p.replica.doc p.replica.issued e)
    (hvalues : ∀ act ∈ e.log, ∀ t v, act.Adds t v → AcceptedAt act.place v) {r : Replica}
    (hid : r.id = p.replica.id) (hdoc : r.doc = e.work) (hissued : r.issued = e.issued) :
    (w.commit p r e.delta e.log).Honest := by
  have hp := hw.peers id p there
  have hfiled := hp.filed
  have hsaid := said_commit w p r e.delta e.log
  have hold : w.said ⊆ (w.commit p r e.delta e.log).said := hsaid ▸ Set.subset_union_left
  have hnew : VoidPalabra.said e.log ⊆ (w.commit p r e.delta e.log).said :=
    hsaid ▸ Set.subset_union_right
  have hminted : ∀ q t v, .add q t v ∈ VoidPalabra.said e.log →
      AcceptedAt q v ∧ ∃ m, p.replica.issued < m ∧ m ≤ e.issued ∧ t = mintTag id m := by
    intro q t v hf
    obtain ⟨act, hact, rfl, ha⟩ := add_mem_said.mp hf
    obtain ⟨m, h1, h2, h3⟩ := he.minted act hact t v ha
    exact ⟨hvalues act hact t v ha, m, h1, h2, h3.trans (by rw [← hfiled]; rfl)⟩
  have hfresh : ∀ p' q t v u, .add p' t v ∈ w.said → .add q t u ∈ VoidPalabra.said e.log → False := by
    intro p' q t v u hv hu
    obtain ⟨-, m, h1, -, rfl⟩ := hminted q t u hu
    have := (hp.own p' m v hv).2
    omega
  have hdelta : ∀ f ∈ facts emptyDelta, ∃ q, f = .node q := by
    intro f hf
    obtain ⟨q, rfl, -⟩ := mem_facts_emptyRoot.mp (facts_emptyDelta_subset hf)
    exact ⟨q, rfl⟩
  have hvouched : ∀ (d : Json) (base : Set Fact), Shaped d → facts d = base ∪ VoidPalabra.said e.log →
      (∀ f ∈ base, (∃ q, f = .node q) ∨ f ∈ facts p.replica.doc) →
      Vouched (w.commit p r e.delta e.log).said d := by
    intro d base hs hd hbase
    have hcase : ∀ f ∈ facts d, (∃ q, f = .node q) ∨ f ∈ facts p.replica.doc ∨ f ∈ VoidPalabra.said e.log := by
      intro f hf
      rw [hd] at hf
      rcases hf with hf | hf
      · exact (hbase f hf).imp_right .inl
      · exact .inr (.inr hf)
    refine vouched_of_accepted hs (fun q t v hv => ?_) (fun q t v hv => ?_) fun q t ht => ?_
    · rcases hcase (.add q t v) hv with ⟨q', hq⟩ | hin | hin
      · cases hq
      · exact hp.vouched.accepted hin
      · exact (hminted q t v hin).1
    · rcases hcase (.add q t v) hv with ⟨q', hq⟩ | hin | hin
      · cases hq
      · exact hold (hp.vouched.adds q t v hin)
      · exact hnew hin
    · rcases hcase (.retire q t) ht with ⟨q', hq⟩ | hin | hin
      · cases hq
      · exact hold (hp.vouched.removes q t hin)
      · exact hnew hin
  have hwork := hvouched e.work _ he.work he.work_facts fun f hf => .inr hf
  constructor
  · intro id' q hq
    change Function.update w.peers p.replica.id _ id' = some q at hq
    rw [Function.update_apply] at hq
    split at hq
    · rename_i heq
      cases hq
      rw [heq, hfiled]
      refine ⟨hid.trans hfiled, hp.proper, hdoc ▸ hwork, ?_, ?_⟩
      · rw [hdoc, he.work_facts]
        exact hp.base.trans Set.subset_union_left
      · intro q n v hf
        rw [hsaid] at hf
        change (setAt r.doc q).adds[mintTag id n]? = some v ∧ n ≤ r.issued
        rw [hdoc, hissued]
        have hin : .add q (mintTag id n) v ∈ facts e.work := by
          rw [he.work_facts]
          exact hf.imp (fun hf => (hp.own q n v hf).1) fun hf => hf
        refine ⟨hin, ?_⟩
        rcases hf with hf | hf
        · exact (hp.own q n v hf).2.trans he.issued
        · obtain ⟨-, m, -, h2, h3⟩ := hminted q _ v hf
          have := mintTag_injective h3
          omega
    · rename_i hne
      have hq' := hw.peers id' q hq
      refine ⟨hq'.filed, hq'.proper, hq'.vouched.mono hold, hq'.base, fun q' n v hf => ?_⟩
      rw [hsaid] at hf
      rcases hf with hf | hf
      · exact hq'.own q' n v hf
      · obtain ⟨-, m, -, -, h3⟩ := hminted q' _ v hf
        exact absurd ((mintTag_eq hq'.proper hp.proper h3).1.trans hfiled.symm) hne
  · intro m hm
    rcases List.mem_cons.mp hm with rfl | hm
    · exact hvouched e.delta _ he.delta he.delta_facts fun f hf => .inl (hdelta f hf)
    · exact (hw.mail m hm).mono hold
  · intro q t v hf
    rw [hsaid] at hf
    rcases hf with hf | hf
    · obtain ⟨id', p', n, there', ht⟩ := hw.minted q t v hf
      by_cases heq : id' = p.replica.id
      · exact ⟨id', _, n, by rw [heq]; exact Function.update_self _ _ _, ht⟩
      · exact ⟨id', p', n, by rw [← there']; exact Function.update_of_ne heq _ _, ht⟩
    · obtain ⟨-, m, -, -, ht⟩ := hminted q t v hf
      exact ⟨id, _, m, by rw [← hfiled]; exact Function.update_self _ _ _, ht⟩
  · intro q t hf
    have hlive : ∀ {q' : Path} {v : Bytes}, .add q' t v ∈ facts e.work →
        ∃ q' v, .add q' t v ∈ (w.commit p r e.delta e.log).said := by
      intro q' v hin
      exact ⟨q', v, hwork.adds q' t v hin⟩
    rw [hsaid] at hf
    rcases hf with hf | hf
    · obtain ⟨q', v, hadd⟩ := hw.retired q t hf
      exact ⟨q', v, hold hadd⟩
    · obtain ⟨act, hact, hchange⟩ := hf
      have hs := he.sound act hact
      have hr : act.Retires t := hchange.2
      rcases hs.retires t hr with ⟨v, hl, -⟩ | ⟨-, -, q', v, -, -, -, hl⟩
      · exact hlive (hs.saw_adds hl.1)
      · exact hlive (hs.doc_facts (show .add q' t v ∈ facts act.doc from hl.1))
  · intro q q' t v u hv hu
    rw [hsaid] at hv hu
    rcases hv with hv | hv <;> rcases hu with hu | hu
    · exact hw.unique q q' t v u hv hu
    · exact (hfresh q q' t v u hv hu).elim
    · exact (hfresh q' q t u v hu hv).elim
    · obtain ⟨act, hact, rfl, ha⟩ := add_mem_said.mp hv
      obtain ⟨act', hact', rfl, ha'⟩ := add_mem_said.mp hu
      exact he.unique act hact act' hact' t v u ha ha'

end World

/-- What an edit adds is what it may add. -/
theorem accepted_of_stores {a : Author} {V : Path → Bytes → Prop} {e e' : Editor} (hw : Shaped e.work)
    (hs : Relation.ReflTransGen (Stored a V) e e') :
    ∀ act ∈ e'.log, act ∈ e.log ∨ ∀ t v, act.Adds t v → V act.place v := by
  induction hs with
  | refl => exact fun act hact => .inl hact
  | @tail b c hb hs ih =>
    have hwb := shaped_of_stored hb hw
    obtain @⟨p, after, intent, j, counter, place, adds, removes⟩ := hs
    rw [Editor.load_eq hwb place] at adds ⊢
    intro act hact
    unfold Editor.store at hact
    split at hact
    · exact ih act hact
    · rcases List.mem_append.mp hact with hact | hact
      · exact ih act hact
      · rw [List.mem_singleton] at hact
        subst hact
        refine .inr fun t v ⟨hnone, hv⟩ => ?_
        rcases adds t v hv with hv | ⟨hV, -⟩
        · exact absurd (hnone.symm.trans hv) (by simp)
        · exact hV

/-- **What is so of every document of a run is kept by a step.** -/
theorem Deals.honest {w w' : World} (h : Deals w w') (hw : w.Honest) : w'.Honest := by
  cases h with
  | quiet h same =>
    cases h with
    | create free made =>
      obtain ⟨hv, rfl⟩ := Replica.create_eq_ok.mp made
      exact hw.put ⟨rfl, hv, vouched_emptyRoot, subset_rfl, fun q n v hf =>
        absurd hf (hw.not_said_of_free free hv)⟩
    | fork there free made =>
      obtain ⟨hv, -, rfl⟩ := Replica.fork_eq_ok.mp made
      have hp := hw.peers _ _ there
      exact hw.put ⟨rfl, hv, hp.vouched, hp.base, fun q n v hf =>
        absurd hf (hw.not_said_of_free free hv)⟩
    | @setPolicy id p there policy =>
      obtain ⟨rfl, h2, h3, h4, h5⟩ := hw.peers _ _ there
      exact hw.put ⟨rfl, h2, h3, h4, h5⟩
    | observe => exact absurd same (by simp [World.commit])
    | @refuse id p state c there failed =>
      obtain ⟨-, hr⟩ := Replica.observe_error failed
      have hle := p.replica.observe_issued state
      obtain ⟨rfl, h2, h3, h4, h5⟩ := hw.peers _ _ there
      have hput : (w.put ⟨(p.replica.observe state).2, p.known⟩).Honest := by
        rw [hr] at hle ⊢
        exact hw.put ⟨rfl, h2, h3, h4, fun q n v hf => ⟨(h5 q n v hf).1, (h5 q n v hf).2.trans hle⟩⟩
      exact ⟨hput.peers, hput.mail, hput.minted, hput.retired, hput.unique⟩
    | resolve => exact absurd same (by simp [World.commit])
    | @merge id p m there posted ok =>
      obtain ⟨-, hr⟩ := Replica.merge_ok ok
      rw [hr]
      obtain ⟨rfl, h2, h3, h4, h5⟩ := hw.peers _ _ there
      have hm := hw.mail m posted
      refine hw.put ⟨rfl, h2, h3.join hm, fun f hf => ?_, fun q n v hf => ?_⟩
      · obtain ⟨q, rfl, -⟩ := mem_facts_emptyRoot.mp hf
        exact (hasNode_joinNode h3.shaped hm.shaped q).mpr (.inl (h4 hf))
      · refine ⟨?_, (h5 q n v hf).2.trans (le_max_left _ _)⟩
        rw [setAt_joinNode h3.shaped hm.shaped, OrSet.join_adds, (h5 q n v hf).1]
        cases hb : (setAt m.doc q).adds[mintTag p.replica.id n]? with
        | none => rfl
        | some u =>
          rw [(hw.unique q q _ u v (hm.adds q _ u hb) hf).2]
          rfl
    | publish there =>
      refine ⟨hw.peers, fun m hm => ?_, hw.minted, hw.retired, hw.unique⟩
      rcases List.mem_cons.mp hm with rfl | hm
      · exact (hw.peers _ _ there).vouched
      · exact hw.mail m hm
  | @observe id p state o there fits ok =>
    obtain ⟨-, hd, hid, -, hdoc, hissued⟩ := Replica.observe_ok ok
    rw [hd]
    refine hw.commit there (keeps_observeInto _ _ (hw.editor there)) (fun act hact => ?_) hid hdoc hissued
    have hstores := steps_observed (a := p.replica.author) fits p.replica.editor
      (hw.peers _ _ there).vouched.shaped
    exact (accepted_of_stores (hw.peers _ _ there).vouched.shaped hstores act hact).resolve_left
      (List.not_mem_nil)
  | @resolve id p c side d delta known policy there held reported ok =>
    obtain ⟨hside, -, hd, hid, -, hdoc, hissued⟩ := Replica.resolve_ok ok
    rw [hd]
    have hv := hw.holds held
    refine hw.commit there (keeps_settle (hv.shaped.placed reported) _ _ (hw.editor there)) (fun act hact => ?_)
      hid hdoc hissued
    have hstores := steps_settled (a := p.replica.author) hv.valid reported (List.mem_of_getElem? hside)
      p.replica.editor (hw.peers _ _ there).vouched.shaped
    exact (accepted_of_stores (hw.peers _ _ there).vouched.shaped hstores act hact).resolve_left
      (List.not_mem_nil)
  | share held share policy =>
    refine ⟨hw.peers, fun m hm => ?_, hw.minted, hw.retired, hw.unique⟩
    rcases List.mem_cons.mp hm with rfl | hm
    · exact (hw.holds held).exportable share policy
    · exact hw.mail m hm
  | @restore id p r there few read =>
    have hceil : kLamportCeiling < 10 ^ 15 ∧ kLamportCeiling < 2 ^ 53 := by decide
    obtain ⟨rfl, h2, h3, h4, h5⟩ := hw.peers _ _ there
    obtain ⟨-, -, -, rfl⟩ :=
      (Replica.fromBytes_toBytes h3.shaped (readsBack_ofInt (by omega)) (by omega)).mp read
    exact hw.put ⟨rfl, h2, h3, h4, h5⟩

/-- **Everything is vouched for in every run.** -/
theorem honest_of_deals {w : World} (h : Relation.ReflTransGen Deals .init w) : w.Honest := by
  induction h with
  | refl => exact World.honest_init
  | tail _ hs ih => exact hs.honest ih

/-- A new replica observes a mantle. -/
theorem deals_oneMantle : Relation.ReflTransGen Deals .init
    ((World.init.put ⟨newReplica idA, ∅⟩).commit ⟨newReplica idA, ∅⟩
      ((newReplica idA).observe (some oneMantleState)).2 (observedDelta (newReplica idA) oneMantleState)
      ((newReplica idA).observed (some oneMantleState))) := by
  have hfit : RecordsDecodable oneMantleState := by
    have hrec : recordedState oneMantleState = [.null, .null, .null] := rfl
    have hnull : Decodable .null := ⟨⟨_, rfl⟩, Nat.zero_le _, trivial⟩
    rw [RecordsDecodable, hrec]
    simpa using hnull
  have hA : Deals .init (World.init.put ⟨newReplica idA, ∅⟩) :=
    .quiet (@Step.create _ idA _ rfl rfl) rfl
  have hok : ((newReplica idA).observe (some oneMantleState)).1.toOption.isSome = true := by decide +kernel
  obtain ⟨o, ho⟩ := Option.isSome_iff_exists.mp hok
  have ho := toOption_eq_some.mp ho
  have hrun := (Relation.ReflTransGen.single hA).tail
    (@Deals.observe _ idA ⟨newReplica idA, ∅⟩ _ _ rfl hfit ho)
  rwa [show o.delta = observedDelta (newReplica idA) oneMantleState by simp only [observedDelta, ho]] at hrun

end VoidPalabra
