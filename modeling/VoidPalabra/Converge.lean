import VoidPalabra.Run
import VoidPalabra.Replication
import VoidPalabra.SameRules

/-!
# Replicas that know the same changes agree

A run of replicas is a run of parties that hold sets of facts: a document is what it
says, a join is a union, and an edit is what its delta says. So a document says what
the changes say that it contains, in whatever order they came, and two documents that
contain the same changes are read alike.
-/

namespace VoidPalabra

namespace World

/-- What a run looks like from where only facts are seen. -/
def view (w : World) : Replication.System CString Fact where
  changes := w.changes.map fun c => ⟨facts c.delta, ⟨facts c.start, c.known⟩⟩
  parties := fun id => (w.peers id).map fun p => ⟨facts p.replica.doc, p.known⟩
  mail := {h | ∃ m ∈ w.mail, h = ⟨facts m.doc, m.known⟩}

/-- The deltas of some changes. -/
def deltas (w : World) (known : Set ℕ) : Set Json :=
  {d | ∃ n ∈ known, ∃ c, w.changes[n]? = some c ∧ d = c.delta}

variable {w : World}

theorem view_put (w : World) (p : Peer) :
    (w.put p).view = w.view.put p.replica.id ⟨facts p.replica.doc, p.known⟩ := by
  simp only [view, put, Replication.System.put, Replication.System.mk.injEq, true_and, and_true]
  funext id
  rw [Function.update_apply, Function.update_apply]
  split <;> rfl

/-- Nothing changes where a replica becomes one with the same document. -/
theorem view_put_same {id : CString} {p : Peer} {r : Replica} (there : w.peers id = some p)
    (hid : r.id = id) (hdoc : r.doc = p.replica.doc) : (w.put ⟨r, p.known⟩).view = w.view := by
  rw [view_put]
  simp only [Replication.System.put, hid, hdoc]
  rw [Function.update_eq_self_iff.mpr]
  simp only [view, there, Option.map_some]

theorem view_spend (w : World) (n : ℕ) : (w.spend n).view = w.view := rfl

theorem view_publish (w : World) (p : Peer) :
    (w.publish p).view = w.view.publish ⟨facts p.replica.doc, p.known⟩ := by
  simp only [view, publish, Replication.System.publish, Replication.System.mk.injEq, true_and]
  ext h
  simp

/-- A change of a replica is a change of facts. -/
theorem view_commit {id : CString} {p : Peer} (hid : p.replica.id = id) {e : Editor}
    (he : Inv p.replica.author p.replica.doc p.replica.issued e) {r : Replica} (hdoc : r.doc = e.work) :
    (w.commit p r e.delta e.log).view =
      w.view.commit id ⟨facts p.replica.doc, p.known⟩ (facts e.delta) := by
  have hwork : facts e.work = facts p.replica.doc ∪ facts e.delta := by
    rw [he.work_facts, he.delta_facts, ← Set.union_assoc, Set.union_eq_left.mpr he.start]
  simp only [view, commit, Replication.System.commit, Replication.System.mk.injEq, List.map_append,
    List.map_cons, List.map_nil, true_and]
  refine ⟨?_, ?_⟩
  · funext id'
    rw [hid, Function.update_apply, Function.update_apply]
    split
    · simp only [Option.map_some, Replication.Holding.extend, hdoc, hwork, List.length_map]
    · rfl
  · ext h
    simp

end World

/-- A step of replicas is a step of parties, or one that changes no document. -/
theorem Step.refines {w w' : World} (h : Step w w') (hw : w.Sound) :
    w'.view = w.view ∨ Replication.Step (facts emptyRoot) w.view w'.view := by
  have hview : ∀ {id p}, w.peers id = some p →
      w.view.parties id = some ⟨facts p.replica.doc, p.known⟩ := by
    intro id p there
    simp only [World.view, there, Option.map_some]
  have hfree : ∀ {id}, w.peers id = none → w.view.parties id = none := by
    intro id free
    simp only [World.view, free, Option.map_none]
  cases h with
  | create free made =>
    obtain ⟨-, rfl⟩ := Replica.create_eq_ok.mp made
    rw [World.view_put]
    exact .inr (.start (hfree free))
  | @fork id newId p r there free made =>
    obtain ⟨-, -, rfl⟩ := Replica.fork_eq_ok.mp made
    rw [World.view_put]
    have hthere : w.view.parties id = some ⟨facts p.replica.doc, p.known⟩ := hview there
    exact .inr (.fork hthere (hfree free))
  | setPolicy there policy => exact .inl (World.view_put_same there (hw.peers _ _ there).filed rfl)
  | @observe id p state o there ok =>
    obtain ⟨-, hd, -, -, hdoc, -⟩ := Replica.observe_ok ok
    have he := keeps_observeInto state _ (hw.editor there)
    rw [hd, Replica.observed, World.view_commit (hw.peers _ _ there).filed he hdoc]
    exact .inr (.commit _ (hview there))
  | refuse there failed =>
    obtain ⟨-, hr⟩ := Replica.observe_error failed
    rw [World.view_spend, hr]
    exact .inl (World.view_put_same there (hw.peers _ _ there).filed rfl)
  | @resolve id p c side d delta known policy there held reported ok =>
    obtain ⟨-, -, hd, -, -, hdoc, -⟩ := Replica.resolve_ok ok
    have he := keeps_settle ((hw.holds held).1.placed reported) (c.sides.getD side []) _ (hw.editor there)
    rw [hd, Replica.settled, World.view_commit (hw.peers _ _ there).filed he hdoc]
    exact .inr (.commit _ (hview there))
  | @merge id p m there posted ok =>
    obtain ⟨-, hr⟩ := Replica.merge_ok ok
    have hp := hw.peers _ _ there
    rw [World.view_put, hr, hp.filed, hw.facts_joinNode hp.tells (hw.mail m posted)]
    exact .inr (.deliver (hview there) ⟨m, posted, rfl⟩)
  | publish there =>
    rw [World.view_publish]
    exact .inr (.publish (hview there))

/-- What is held in a run is tracked. -/
theorem Reachable.tracked {w : World} (h : Reachable w) :
    Replication.Sound (facts emptyRoot) w.view := by
  induction h with
  | refl =>
    have he : World.init.view = Replication.System.init := by
      simp [World.view, World.init, Replication.System.init]
    rw [he]
    exact Replication.sound_init
  | tail hrun hstep ih =>
    rcases hstep.refines (Reachable.sound hrun) with he | hs
    · rwa [he]
    · exact hs.sound ih

/-- The same deltas are the same sets of facts. -/
theorem World.view_deltas {w : World} {k l : Set ℕ} (h : w.deltas k = w.deltas l) :
    w.view.deltas k = w.view.deltas l := by
  have hd : ∀ k, w.view.deltas k = (fun d => facts d) '' w.deltas k := by
    intro k
    ext s
    simp only [Replication.System.deltas, World.view, List.getElem?_map, Option.map_eq_some_iff,
      Set.mem_ofPred_eq, Set.mem_image, World.deltas]
    constructor
    · rintro ⟨n, hn, -, ⟨c, hc, rfl⟩, rfl⟩
      exact ⟨c.delta, ⟨n, hn, c, hc, rfl⟩, rfl⟩
    · rintro ⟨-, ⟨n, hn, c, hc, rfl⟩, rfl⟩
      exact ⟨n, hn, _, ⟨c, hc, rfl⟩, rfl⟩
  rw [hd, hd, h]

/-- Replicas that know the same changes have the same document. -/
theorem Reachable.sameDoc {w : World} (h : Reachable w) {id jd : CString} {p q : Peer}
    (hp : w.peers id = some p) (hq : w.peers jd = some q)
    (hk : w.deltas p.known = w.deltas q.known) : SameDoc p.replica.doc q.replica.doc := by
  have hs := h.sound
  refine sameDoc_of_facts (hs.peers id p hp).tells.1 (hs.peers jd q hq).tells.1 ?_
  refine h.tracked.agree (i := id) (j := jd) (h := ⟨facts p.replica.doc, p.known⟩)
    (m := ⟨facts q.replica.doc, q.known⟩) ?_ ?_
    (World.view_deltas hk)
  · simp only [World.view, hp, Option.map_some]
  · simp only [World.view, hq, Option.map_some]

/-- Strong eventual consistency: replicas that know the same deltas have documents with
one canonical form, which are read alike; a tag names one value in one set, and a path
has one kind of node, in everything that is held anywhere in the run. -/
theorem converge {w : World} (h : Reachable w) :
    (∀ id jd p q, w.peers id = some p → w.peers jd = some q → w.deltas p.known = w.deltas q.known →
      canonBytes p.replica.doc = canonBytes q.replica.doc ∧ ∀ policy,
        norm (flatten p.replica.doc policy) = norm (flatten q.replica.doc policy) ∧
        conflicts p.replica.doc policy = conflicts q.replica.doc policy ∧
        anomalies p.replica.doc policy = anomalies q.replica.doc policy) ∧
    ∀ d e k l, w.Holds d k → w.Holds e l →
      (∀ p q t v u, .add p t v ∈ facts d → .add q t u ∈ facts e → p = q ∧ v = u) ∧
      ∀ p n m, nodeAt d p = some n → nodeAt e p = some m →
        ∃ kind, kindOf p = some kind ∧ NodeShape kind n ∧ NodeShape kind m := by
  have hw := h.sound
  constructor
  · intro id jd p q hp hq hk
    have hsame := h.sameDoc hp hq hk
    exact ⟨hsame.canonBytes_eq, fun policy =>
      ⟨hsame.norm_flatten policy, hsame.conflicts_eq policy, hsame.anomalies_eq policy⟩⟩
  · intro d e k l hd he
    have hdt := hw.holds hd
    have het := hw.holds he
    constructor
    · intro p q t v u hv hu
      exact hw.unique p q t v u (hdt.add hv) (het.add hu)
    · intro p n m hn hm
      obtain ⟨kind, hkind, hnode⟩ := hdt.1.kinds p n hn
      obtain ⟨kind', hkind', hnode'⟩ := het.1.kinds p m hm
      cases hkind.symm.trans hkind'
      exact ⟨kind, hkind, hnode, hnode'⟩

/-- A replica that observed a mantle and one that merged the delta. -/
theorem converge_pairWorld :
    canonBytes ((newReplica idA).observe (some oneMantleState)).2.doc =
      canonBytes ((newReplica idB).merge (observedDelta (newReplica idA) oneMantleState)).2.doc :=
  ((converge reachable_pairWorld).1 idA idB _ _ pairWorld_idA pairWorld_idB (by simp)).1

/-! ### Deltas -/

/-- A delta says nothing but the changes. -/
theorem World.Sound.tells_delta {w : World} (hw : w.Sound) {c : Change} (hc : c ∈ w.changes) :
    w.Tells c.delta := by
  have h := hw.changes c hc
  refine ⟨h.delta, ?_⟩
  rw [h.delta_facts]
  exact Set.union_subset_union facts_emptyDelta_subset fun f hf => ⟨c, hc, hf⟩

/-- The delta law: a change is its delta joined to the document it was made in, and any
other document of the run that is joined with the delta holds the adds and the
retirements of both and no others. -/
theorem delta_law {w : World} (h : Reachable w) {c : Change} (hc : c ∈ w.changes) :
    canonBytes (joinNode c.start c.delta) = canonBytes c.result ∧
      ∀ d k, w.Holds d k → ∀ p,
        (∀ (t : Tag) (v : Bytes), (setAt (joinNode d c.delta) p).adds[t]? = some v ↔
          (setAt d p).adds[t]? = some v ∨ (setAt c.delta p).adds[t]? = some v) ∧
        ∀ t, t ∈ (setAt (joinNode d c.delta) p).removes ↔
          t ∈ (setAt d p).removes ∨ t ∈ (setAt c.delta p).removes := by
  have hw := h.sound
  have hs := hw.changes c hc
  have hdelta := hw.tells_delta hc
  constructor
  · refine canonBytes_of_facts (hs.start.1.join hs.delta) hs.result ?_
    rw [hw.facts_joinNode hs.start hdelta, hs.result_facts, hs.delta_facts, ← Set.union_assoc,
      Set.union_eq_left.mpr (facts_emptyDelta_subset.trans hs.base)]
  · intro d k hd p
    have hj := hw.facts_joinNode (hw.holds hd) hdelta
    constructor
    · intro t v
      have he := Set.ext_iff.mp hj (.add p t v)
      rwa [Set.mem_union, add_mem_facts, add_mem_facts, add_mem_facts] at he
    · intro t
      have he := Set.ext_iff.mp hj (.retire p t)
      rwa [Set.mem_union, retire_mem_facts, retire_mem_facts, retire_mem_facts] at he

/-- The change of `pairWorld`. -/
def pairChange : Change where
  author := idA
  issued := 0
  start := emptyRoot
  result := ((newReplica idA).observe (some oneMantleState)).2.doc
  delta := observedDelta (newReplica idA) oneMantleState
  acts := (newReplica idA).observed (some oneMantleState)
  known := ∅

/-- The delta of the mantle that was observed makes the document that was left. -/
theorem delta_law_pairWorld :
    canonBytes (joinNode emptyRoot (observedDelta (newReplica idA) oneMantleState)) =
      canonBytes ((newReplica idA).observe (some oneMantleState)).2.doc :=
  (delta_law reachable_pairWorld (c := pairChange) (by simp [pairWorld, pairChange, twoNew,
    World.merging, World.observing, World.put, World.commit, World.init, newReplica])).1

end VoidPalabra
