import VoidPalabra.Reported
import Mathlib.Logic.Function.Basic
import Mathlib.Logic.Relation

/-!
# Runs of honest replicas

Everyone there is, every change that was made, and everything that was ever handed
over. A step is one operation of one replica; what is merged was handed over earlier,
and may be merged in any order, any number of times, with any delay.
-/

namespace VoidPalabra

/-- A change: who made it, the documents before and after it, its delta, and its
stores. -/
structure Change where
  /-- The identity of the replica that made it. -/
  author : CString
  /-- The counter of that replica before it. -/
  issued : ℕ
  /-- The document it was made in. -/
  start : Json
  /-- The document it left. -/
  result : Json
  /-- The delta that was returned. -/
  delta : Json
  /-- The stores. -/
  acts : List Act
  /-- The changes that the document it was made in contained. -/
  known : Set ℕ

/-- A replica, and the changes that its document contains. -/
structure Peer where
  /-- The replica. -/
  replica : Replica
  /-- The changes. -/
  known : Set ℕ

/-- A document that was handed over, and the changes that it contains. -/
structure Parcel where
  /-- The document. -/
  doc : Json
  /-- The changes. -/
  known : Set ℕ

/-- A state of a run. -/
structure World where
  /-- The changes in the order in which they were made. -/
  changes : List Change
  /-- The replicas, by identity. -/
  peers : CString → Option Peer
  /-- What was handed over. -/
  mail : List Parcel
  /-- How many tags were minted, those of failed observations among them. -/
  minted : ℕ

namespace World

/-- Nothing has happened. -/
def init : World := ⟨[], fun _ => none, [], 0⟩

/-- One replica becomes another. -/
def put (w : World) (p : Peer) : World :=
  { w with peers := Function.update w.peers p.replica.id (some p) }

/-- Some tags were minted. -/
def spend (w : World) (n : ℕ) : World := { w with minted := w.minted + n }

/-- A replica was changed, and hands over the delta. -/
def commit (w : World) (p : Peer) (r : Replica) (delta : Json) (acts : List Act) : World where
  changes := w.changes ++ [⟨p.replica.id, p.replica.issued, p.replica.doc, r.doc, delta, acts, p.known⟩]
  peers := Function.update w.peers p.replica.id (some ⟨r, insert w.changes.length p.known⟩)
  mail := ⟨delta, {w.changes.length}⟩ :: w.mail
  minted := w.minted + (r.issued - p.replica.issued)

/-- A replica hands over its document. -/
def publish (w : World) (p : Peer) : World := { w with mail := ⟨p.replica.doc, p.known⟩ :: w.mail }

/-- A document of the run: a replica's, or one that was handed over. -/
inductive Holds (w : World) : Json → Set ℕ → Prop
  /-- A replica's. -/
  | peer {id : CString} {p : Peer} (there : w.peers id = some p) : w.Holds p.replica.doc p.known
  /-- One that was handed over. -/
  | parcel {m : Parcel} (posted : m ∈ w.mail) : w.Holds m.doc m.known

/-- What all changes say. -/
def said (w : World) : Set Fact := {f | ∃ c ∈ w.changes, f ∈ VoidPalabra.said c.acts}

end World

namespace Replica

/-- The stores of an observation. -/
def observed (r : Replica) (state : Option Json) : List Act := (observeInto r.author state r.editor).2.log

/-- The stores of a settlement. -/
def settled (r : Replica) (c : Conflict) (side : ℕ) : List Act :=
  (settle r.author c (c.sides.getD side []) r.editor).2.log

end Replica

/-- One operation of one replica. -/
inductive Step : World → World → Prop
  /-- A replica is created under an identity that is not in use. -/
  | create {w : World} {id : CString} {r : Replica} (free : w.peers id = none)
    (made : Replica.create id = .ok r) : Step w (w.put ⟨r, ∅⟩)
  /-- A replica is forked to an identity that is not in use. -/
  | fork {w : World} {id newId : CString} {p : Peer} {r : Replica} (there : w.peers id = some p)
    (free : w.peers newId = none) (made : p.replica.fork newId = .ok r) : Step w (w.put ⟨r, p.known⟩)
  /-- A replica is given another policy. -/
  | setPolicy {w : World} {id : CString} {p : Peer} (there : w.peers id = some p) (policy : JoinPolicy) :
    Step w (w.put ⟨p.replica.setPolicy policy, p.known⟩)
  /-- A state is observed. -/
  | observe {w : World} {id : CString} {p : Peer} {state : Option Json} {o : Observed}
    (there : w.peers id = some p) (ok : (p.replica.observe state).1 = .ok o) :
    Step w (w.commit p (p.replica.observe state).2 o.delta (p.replica.observed state))
  /-- A state is refused. -/
  | refuse {w : World} {id : CString} {p : Peer} {state : Option Json} {c : CanonicalError}
    (there : w.peers id = some p) (failed : (p.replica.observe state).1 = .error c) :
    Step w ((w.put ⟨(p.replica.observe state).2, p.known⟩).spend
      ((p.replica.observe state).2.issued - p.replica.issued))
  /-- A conflict that some document of the run reports is settled. -/
  | resolve {w : World} {id : CString} {p : Peer} {c : Conflict} {side : ℕ} {d delta : Json}
    {known : Set ℕ} {policy : JoinPolicy} (there : w.peers id = some p) (held : w.Holds d known)
    (reported : c ∈ conflicts d policy) (ok : (p.replica.resolve c side).1 = .ok (some delta)) :
    Step w (w.commit p (p.replica.resolve c side).2 delta (p.replica.settled c side))
  /-- Something that was handed over is merged. -/
  | merge {w : World} {id : CString} {p : Peer} {m : Parcel} (there : w.peers id = some p)
    (posted : m ∈ w.mail) (ok : (p.replica.merge m.doc).1 = .ok) :
    Step w (w.put ⟨(p.replica.merge m.doc).2, p.known ∪ m.known⟩)
  /-- A replica hands over its document. -/
  | publish {w : World} {id : CString} {p : Peer} (there : w.peers id = some p) : Step w (w.publish p)

/-- What a run reaches. -/
def Reachable (w : World) : Prop := Relation.ReflTransGen Step .init w

/-! ### What each operation leaves -/

namespace Replica

variable {r r' : Replica}

theorem create_eq_ok {id : CString} : Replica.create id = .ok r ↔
    validId id = .ok () ∧ r = { id := id, issued := 0, doc := emptyRoot } := by
  unfold Replica.create
  cases validId id with
  | ok u => exact ⟨fun h => ⟨rfl, (Except.ok.inj h).symm⟩, fun h => by rw [h.2]; rfl⟩
  | error e => exact ⟨fun h => (nomatch h), fun h => (nomatch h.1)⟩

theorem fork_eq_ok {newId : CString} : r.fork newId = .ok r' ↔ validId newId = .ok () ∧ newId ≠ r.id ∧
    r' = { id := newId, issued := highestCounter r.doc, doc := r.doc, policy := r.policy } := by
  unfold Replica.fork
  cases validId newId with
  | error e => exact ⟨fun h => (nomatch h), fun h => (nomatch h.1)⟩
  | ok u =>
    change (if newId = r.id then _ else _) = _ ↔ _
    by_cases hid : newId = r.id
    · rw [if_pos hid]
      exact ⟨fun h => (nomatch h), fun h => absurd hid h.2.1⟩
    · rw [if_neg hid]
      exact ⟨fun h => ⟨rfl, hid, (Except.ok.inj h).symm⟩, fun h => by rw [h.2.2]; rfl⟩

/-- A state that was observed leaves what the editor left. -/
theorem observe_ok {state : Option Json} {o : Observed} (h : (r.observe state).1 = .ok o) :
    (observeInto r.author state r.editor).1 = .ok () ∧
      o.delta = (observeInto r.author state r.editor).2.delta ∧
      (r.observe state).2.id = r.id ∧ (r.observe state).2.policy = r.policy ∧
      (r.observe state).2.doc = (observeInto r.author state r.editor).2.work ∧
      (r.observe state).2.issued = (observeInto r.author state r.editor).2.issued := by
  unfold Replica.observe at h ⊢
  generalize observeInto r.author state r.editor = x at h ⊢
  obtain ⟨_ | _, e⟩ := x
  · cases h
  · cases h
    exact ⟨rfl, rfl, rfl, rfl, rfl, rfl⟩

/-- A state that was refused leaves the counter only. -/
theorem observe_error {state : Option Json} {c : CanonicalError} (h : (r.observe state).1 = .error c) :
    (observeInto r.author state r.editor).1 = .error c ∧
      (r.observe state).2 = { r with issued := (observeInto r.author state r.editor).2.issued } := by
  unfold Replica.observe at h ⊢
  generalize observeInto r.author state r.editor = x at h ⊢
  obtain ⟨_ | _, e⟩ := x
  · cases h
    exact ⟨rfl, rfl⟩
  · cases h

/-- A conflict that was settled leaves what the editor left. -/
theorem resolve_ok {c : Conflict} {side : ℕ} {delta : Json} (h : (r.resolve c side).1 = .ok (some delta)) :
    c.sides[side]? = some (c.sides.getD side []) ∧
      (settle r.author c (c.sides.getD side []) r.editor).1 = .ok true ∧
      delta = (settle r.author c (c.sides.getD side []) r.editor).2.delta ∧
      (r.resolve c side).2.id = r.id ∧ (r.resolve c side).2.policy = r.policy ∧
      (r.resolve c side).2.doc = (settle r.author c (c.sides.getD side []) r.editor).2.work ∧
      (r.resolve c side).2.issued = (settle r.author c (c.sides.getD side []) r.editor).2.issued := by
  unfold Replica.resolve at h ⊢
  rw [List.getD_eq_getElem?_getD]
  cases hs : c.sides[side]? with
  | none =>
    rw [hs] at h
    cases h
  | some chosen =>
    rw [hs] at h
    dsimp only at h ⊢
    split at h
    · cases h
    · cases h
    · rw [Option.getD_some]
      generalize settle r.author c chosen r.editor = x at h ⊢
      obtain ⟨_ | _ | _, e⟩ := x
      · cases h
      · cases h
      · cases h
        exact ⟨rfl, rfl, rfl, rfl, rfl, rfl, rfl⟩

/-- What was merged was a document, and was joined. -/
theorem merge_ok {d : Json} (h : (r.merge d).1 = .ok) :
    validate d = .ok () ∧ (r.merge d).2 = { r with
      doc := joinNode r.doc d
      issued := max r.issued (highestCounter d)
      revision := r.revision + 1 } := by
  unfold Replica.merge at h ⊢
  cases hv : validate d with
  | error why =>
    rw [hv] at h
    cases h
  | ok u =>
    rw [hv] at h
    dsimp only at h ⊢
    split at h
    · cases h
    · exact ⟨rfl, rfl⟩

end Replica

/-! ### Tags of different replicas -/

theorem idChar_ne_underscore {c : UInt8} (h : idChar c = true) : c ≠ 0x5F := by
  rintro rfl
  exact absurd h (by decide)

theorem validId_iff {id : CString} :
    validId id = .ok () ↔ (16 ≤ id.bytes.length ∧ id.bytes.length ≤ 128) ∧ ∀ c ∈ id.bytes, idChar c = true := by
  unfold validId
  split
  · rename_i h
    simp only [reduceCtorEq, false_iff]
    rintro ⟨⟨h1, h2⟩, -⟩
    omega
  · rename_i h
    rw [not_or, not_lt, not_lt] at h
    split
    · rename_i hc
      simp only [reduceCtorEq, false_iff]
      rintro ⟨-, hall⟩
      rw [List.all_eq_true.mpr hall] at hc
      cases hc
    · rename_i hc
      simp only [Bool.not_eq_true', Bool.not_eq_false] at hc
      exact iff_of_true rfl ⟨h, List.all_eq_true.mp hc⟩

/-- A tag tells which replica minted it, and when. -/
theorem mintTag_eq {id id' : CString} {m n : ℕ} (hv : validId id = .ok ()) (hv' : validId id' = .ok ())
    (h : mintTag id m = mintTag id' n) : id = id' ∧ m = n := by
  have hcut : ∀ (a b : Bytes) (x y : Bytes), (∀ c ∈ a, c ≠ 0x5F) → (∀ c ∈ b, c ≠ 0x5F) →
      a ++ 0x5F :: x = b ++ 0x5F :: y → a = b := by
    intro a
    induction a with
    | nil =>
      intro b x y _ hb he
      cases b with
      | nil => rfl
      | cons c b => exact absurd (List.cons.inj he).1.symm (hb c List.mem_cons_self)
    | cons c a ih =>
      intro b x y ha hb he
      cases b with
      | nil => exact absurd (List.cons.inj he).1 (ha c List.mem_cons_self)
      | cons d b =>
        obtain ⟨hc, ht⟩ := List.cons.inj he
        rw [hc, ih b x y (fun e he => ha e (List.mem_cons_of_mem _ he))
          (fun e he => hb e (List.mem_cons_of_mem _ he)) ht]
  have hid : id = id' := CString.ext (hcut _ _ _ _
    (fun c hc => idChar_ne_underscore ((validId_iff.mp hv).2 c hc))
    (fun c hc => idChar_ne_underscore ((validId_iff.mp hv').2 c hc)) (congrArg CString.bytes h))
  subst hid
  exact ⟨rfl, mintTag_injective h⟩

/-! ### Where an edit starts -/

theorem shaped_emptyRoot : Shaped emptyRoot := (validate_iff.mp (by decide +kernel)).1

theorem setAt_emptyMap (p : Path) : setAt (.obj []) p = .empty := by
  cases p with
  | nil => rfl
  | cons k p => rw [setAt_cons (by decide), Json.lookup_nil]

/-- A new replica's document has no set. -/
theorem setAt_emptyRoot (p : Path) : setAt emptyRoot p = .empty := by
  cases p with
  | nil => rfl
  | cons k p =>
    have hr : nodeRank emptyRoot = 3 := by decide
    rw [emptyRoot, setAt_cons hr, Json.lookup_cons, Json.lookup_cons]
    by_cases h1 : Key.palabra = k
    · rw [if_pos h1]
      exact setAt_leaf rfl p
    · rw [if_neg h1]
      by_cases h2 : Key.mantles = k
      · rw [if_pos h2]
        exact setAt_emptyMap p
      · rw [if_neg h2]
        rfl

/-- A new replica's document adds nothing and retires nothing. -/
theorem mem_facts_emptyRoot {f : Fact} : f ∈ facts emptyRoot ↔ ∃ p, f = .node p ∧ HasNode emptyRoot p := by
  cases f with
  | node p => simp
  | add p t v => simp [setAt_emptyRoot]
  | retire p t => simp [setAt_emptyRoot]

theorem setAt_emptyDelta (p : Path) : setAt emptyDelta p = .empty := by
  cases p with
  | nil => rfl
  | cons k p =>
    have hr : nodeRank emptyDelta = 3 := by decide
    rw [emptyDelta, setAt_cons hr, Json.lookup_cons]
    by_cases h : Key.palabra = k
    · rw [if_pos h]
      exact setAt_leaf rfl p
    · rw [if_neg h]
      rfl

/-- What a fresh delta says, a new replica's document says. -/
theorem facts_emptyDelta_subset : facts emptyDelta ⊆ facts emptyRoot := by
  intro f hf
  cases f with
  | node p =>
    cases p with
    | nil => rfl
    | cons k p =>
      have hd : nodeRank emptyDelta = 3 := by decide
      have hr : nodeRank emptyRoot = 3 := by decide
      rw [node_mem_facts, HasNode, nodeAt_cons, if_pos hd, emptyDelta, Json.get_obj,
        Json.lookup_cons] at hf
      rw [node_mem_facts, HasNode, nodeAt_cons, if_pos hr, emptyRoot, Json.get_obj, Json.lookup_cons]
      split at hf
      · rename_i hk
        rwa [if_pos hk]
      · cases hf
  | add p t v => simp [setAt_emptyDelta] at hf
  | retire p t => simp [setAt_emptyDelta] at hf

/-! ### What holds in every run -/

/-- A document of a run says nothing but what a new replica's says and the changes. -/
def World.Tells (w : World) (d : Json) : Prop := Shaped d ∧ facts d ⊆ facts emptyRoot ∪ w.said

/-- What is so of every replica. -/
structure Peer.Sound (w : World) (id : CString) (p : Peer) : Prop where
  /-- It is filed under its identity. -/
  filed : p.replica.id = id
  /-- The identity is a proper one. -/
  valid : validId id = .ok ()
  /-- Its document says nothing but the changes. -/
  tells : w.Tells p.replica.doc
  /-- It says what a new replica's document says. -/
  base : facts emptyRoot ⊆ facts p.replica.doc
  /-- It says what the replica's own changes say. -/
  own : ∀ c ∈ w.changes, c.author = id → VoidPalabra.said c.acts ⊆ facts p.replica.doc
  /-- The counter is not behind the tags that were minted under the identity. -/
  counter : ∀ q n v, .add q (mintTag id n) v ∈ w.said → 0 < n ∧ n ≤ p.replica.issued

/-- What is so of every change. -/
structure Change.Sound (w : World) (c : Change) : Prop where
  /-- Its author is a replica of the run. -/
  author : (w.peers c.author).isSome = true
  /-- The document before it. -/
  start : w.Tells c.start
  /-- That document says what a new replica's says. -/
  base : facts emptyRoot ⊆ facts c.start
  /-- The document after it. -/
  result : Shaped c.result
  /-- It says what the document before said, and the stores. -/
  result_facts : facts c.result = facts c.start ∪ VoidPalabra.said c.acts
  /-- The delta is a document. -/
  delta : Shaped c.delta
  /-- It says the stores. -/
  delta_facts : facts c.delta = facts emptyDelta ∪ VoidPalabra.said c.acts
  /-- Every store is sound. -/
  acts : ∀ act ∈ c.acts, act.Sound c.result
  /-- New tags were minted in it. -/
  minted : ∀ act ∈ c.acts, ∀ t v, act.Adds t v → ∃ n, c.issued < n ∧ t = mintTag c.author n

namespace World

/-- What is so in every state of a run. -/
structure Sound (w : World) : Prop where
  /-- Every replica is sound. -/
  peers : ∀ id p, w.peers id = some p → p.Sound w id
  /-- What was handed over says nothing but the changes. -/
  mail : ∀ m ∈ w.mail, w.Tells m.doc
  /-- Every change is sound. -/
  changes : ∀ c ∈ w.changes, c.Sound w
  /-- A tag names one value in one set over the whole run. -/
  unique : ∀ p q t v u, .add p t v ∈ w.said → .add q t u ∈ w.said → p = q ∧ v = u

variable {w : World}

theorem mem_said {f : Fact} : f ∈ w.said ↔ ∃ c ∈ w.changes, f ∈ VoidPalabra.said c.acts := Iff.rfl

/-- Only adds of changes are in a document. -/
theorem Tells.add {d : Json} (h : w.Tells d) {p : Path} {t : Tag} {v : Bytes}
    (hf : .add p t v ∈ facts d) : .add p t v ∈ w.said := by
  rcases h.2 hf with hf | hf
  · obtain ⟨q, he, -⟩ := mem_facts_emptyRoot.mp hf
    cases he
  · exact hf

theorem Tells.retire {d : Json} (h : w.Tells d) {p : Path} {t : Tag}
    (hf : .retire p t ∈ facts d) : .retire p t ∈ w.said := by
  rcases h.2 hf with hf | hf
  · obtain ⟨q, he, -⟩ := mem_facts_emptyRoot.mp hf
    cases he
  · exact hf

/-- No two documents of a run give a tag two values. -/
theorem Sound.tagsAgree (hw : w.Sound) {a b : Json} (ha : w.Tells a) (hb : w.Tells b) :
    TagsAgree a b := by
  intro p t v u hv hu
  exact (hw.unique p p t v u (ha.add hv) (hb.add hu)).2

/-- Documents of a run put together say what both say. -/
theorem Sound.facts_joinNode (hw : w.Sound) {a b : Json} (ha : w.Tells a) (hb : w.Tells b) :
    facts (joinNode a b) = facts a ∪ facts b :=
  VoidPalabra.facts_joinNode ha.1 hb.1 (hw.tagsAgree ha hb)

theorem Sound.tells_join (hw : w.Sound) {a b : Json} (ha : w.Tells a) (hb : w.Tells b) :
    w.Tells (joinNode a b) :=
  ⟨ha.1.join hb.1, by
    rw [hw.facts_joinNode ha hb]
    exact Set.union_subset ha.2 hb.2⟩

/-- What is held in a run says nothing but the changes. -/
theorem Sound.holds (hw : w.Sound) {d : Json} {k : Set ℕ} (h : w.Holds d k) : w.Tells d := by
  cases h with
  | peer there => exact (hw.peers _ _ there).tells
  | parcel posted => exact hw.mail _ posted

/-- A replica starts an edit in a sound editor. -/
theorem Sound.editor (hw : w.Sound) {id : CString} {p : Peer} (there : w.peers id = some p) :
    Inv p.replica.author p.replica.doc p.replica.issued p.replica.editor := by
  have hp := hw.peers id p there
  have hid : p.replica.author.id = id := hp.filed
  constructor
  · exact hp.tells.1
  · exact (validate_iff.mp (show validate emptyDelta = .ok () by decide +kernel)).1
  · exact le_rfl
  · intro q n v hf
    exact (hp.counter q n v (hid ▸ hp.tells.add hf)).2
  · exact facts_emptyDelta_subset.trans hp.base
  · simp [Replica.editor, said_nil]
  · simp [Replica.editor, said_nil, emptyDelta]
  all_goals simp [Replica.editor]

/-! ### What one step keeps -/

theorem Tells.mono {w' : World} {d : Json} (h : w.Tells d) (hs : w.said ⊆ w'.said) : w'.Tells d :=
  ⟨h.1, h.2.trans (Set.union_subset_union_right _ hs)⟩

/-- One replica becomes another sound one. -/
theorem Sound.put (hw : w.Sound) {p : Peer} (hp : p.Sound w p.replica.id) : (w.put p).Sound where
  peers := fun id q hq => by
    change Function.update w.peers p.replica.id (some p) id = some q at hq
    rw [Function.update_apply] at hq
    split at hq
    · rename_i he
      cases hq
      exact he ▸ ⟨hp.filed, hp.valid, hp.tells, hp.base, hp.own, hp.counter⟩
    · obtain ⟨h1, h2, h3, h4, h5, h6⟩ := hw.peers id q hq
      exact ⟨h1, h2, h3, h4, h5, h6⟩
  mail := hw.mail
  changes := fun c hc => by
    have h := hw.changes c hc
    refine ⟨?_, h.start, h.base, h.result, h.result_facts, h.delta, h.delta_facts, h.acts, h.minted⟩
    change (Function.update w.peers p.replica.id (some p) c.author).isSome = true
    rw [Function.update_apply]
    split
    · rfl
    · exact h.author
  unique := hw.unique

theorem Sound.spend (hw : w.Sound) (n : ℕ) : (w.spend n).Sound where
  peers := fun id q hq => by
    obtain ⟨h1, h2, h3, h4, h5, h6⟩ := hw.peers id q hq
    exact ⟨h1, h2, h3, h4, h5, h6⟩
  mail := hw.mail
  changes := fun c hc => by
    obtain ⟨h1, h2, h3, h4, h5, h6, h7, h8, h9⟩ := hw.changes c hc
    exact ⟨h1, h2, h3, h4, h5, h6, h7, h8, h9⟩
  unique := hw.unique

/-- Something that tells nothing new is handed over. -/
theorem Sound.post (hw : w.Sound) {m : Parcel} (hm : w.Tells m.doc) :
    World.Sound { w with mail := m :: w.mail } where
  peers := fun id q hq => by
    obtain ⟨h1, h2, h3, h4, h5, h6⟩ := hw.peers id q hq
    exact ⟨h1, h2, h3, h4, h5, h6⟩
  mail := fun m' hm' => (List.mem_cons.mp hm').elim (fun he => he ▸ hm) (hw.mail m')
  changes := fun c hc => by
    obtain ⟨h1, h2, h3, h4, h5, h6, h7, h8, h9⟩ := hw.changes c hc
    exact ⟨h1, h2, h3, h4, h5, h6, h7, h8, h9⟩
  unique := hw.unique

theorem add_mem_said {log : List Act} {q : Path} {t : Tag} {v : Bytes} :
    .add q t v ∈ VoidPalabra.said log ↔ ∃ act ∈ log, act.place = q ∧ act.Adds t v :=
  ⟨fun ⟨act, hact, he, h⟩ => ⟨act, hact, he.symm, h⟩, fun ⟨act, hact, he, h⟩ => ⟨act, hact, he.symm, h⟩⟩

theorem said_commit (w : World) (p : Peer) (r : Replica) (delta : Json) (acts : List Act) :
    (w.commit p r delta acts).said = w.said ∪ VoidPalabra.said acts := by
  ext f
  simp [said, commit, or_and_right, exists_or]

/-- A replica is left as a sound editor left it. -/
theorem Sound.commit (hw : w.Sound) {id : CString} {p : Peer} (there : w.peers id = some p)
    {e : Editor} (he : Inv p.replica.author p.replica.doc p.replica.issued e) {r : Replica}
    (hid : r.id = p.replica.id) (hdoc : r.doc = e.work) (hissued : r.issued = e.issued) :
    (w.commit p r e.delta e.log).Sound := by
  have hp := hw.peers id p there
  have hfiled := hp.filed
  have hsaid := said_commit w p r e.delta e.log
  have hold : w.said ⊆ (w.commit p r e.delta e.log).said := hsaid ▸ Set.subset_union_left
  have hnew : VoidPalabra.said e.log ⊆ (w.commit p r e.delta e.log).said :=
    hsaid ▸ Set.subset_union_right
  have hminted : ∀ q t v, .add q t v ∈ VoidPalabra.said e.log →
      ∃ m, p.replica.issued < m ∧ m ≤ e.issued ∧ t = mintTag id m := by
    intro q t v hf
    obtain ⟨act, hact, -, ha⟩ := add_mem_said.mp hf
    obtain ⟨m, h1, h2, h3⟩ := he.minted act hact t v ha
    exact ⟨m, h1, h2, h3.trans (by rw [← hfiled]; rfl)⟩
  have hfresh : ∀ p' q t v u, .add p' t v ∈ w.said → .add q t u ∈ VoidPalabra.said e.log → False := by
    intro p' q t v u hv hu
    obtain ⟨m, h1, -, rfl⟩ := hminted q t u hu
    have := (hp.counter p' m v hv).2
    omega
  have hwork : (w.commit p r e.delta e.log).Tells e.work := by
    refine ⟨he.work, ?_⟩
    rw [he.work_facts]
    exact Set.union_subset (hp.tells.mono hold).2 (hnew.trans Set.subset_union_right)
  constructor
  · intro id' q hq
    change Function.update w.peers p.replica.id _ id' = some q at hq
    rw [Function.update_apply] at hq
    split at hq
    · rename_i heq
      cases hq
      rw [heq, hfiled]
      refine ⟨hid.trans hfiled, hp.valid, hdoc ▸ hwork, ?_, ?_, ?_⟩
      · rw [hdoc, he.work_facts]
        exact hp.base.trans Set.subset_union_left
      · intro c hc ha
        rw [hdoc, he.work_facts]
        rcases List.mem_append.mp hc with hc | hc
        · exact (hp.own c hc ha).trans Set.subset_union_left
        · rw [List.mem_singleton] at hc
          subst hc
          exact Set.subset_union_right
      · intro q n v hf
        rw [hsaid] at hf
        rw [hissued]
        rcases hf with hf | hf
        · have := hp.counter q n v hf
          have := he.issued
          omega
        · obtain ⟨m, h1, h2, h3⟩ := hminted q _ v hf
          have := mintTag_injective h3
          omega
    · rename_i hne
      have hq' := hw.peers id' q hq
      refine ⟨hq'.filed, hq'.valid, hq'.tells.mono hold, hq'.base, ?_, ?_⟩
      · intro c hc ha
        rcases List.mem_append.mp hc with hc | hc
        · exact hq'.own c hc ha
        · rw [List.mem_singleton] at hc
          subst hc
          exact absurd ha.symm hne
      · intro q' n v hf
        rw [hsaid] at hf
        rcases hf with hf | hf
        · exact hq'.counter q' n v hf
        · obtain ⟨m, h1, h2, h3⟩ := hminted q' _ v hf
          exact absurd ((mintTag_eq hq'.valid hp.valid h3).1.trans hfiled.symm) hne
  · intro m hm
    rcases List.mem_cons.mp hm with rfl | hm
    · refine ⟨he.delta, ?_⟩
      rw [he.delta_facts]
      exact Set.union_subset_union facts_emptyDelta_subset hnew
    · exact (hw.mail m hm).mono hold
  · intro c hc
    have hsome : ∀ id', (w.peers id').isSome = true →
        ((w.commit p r e.delta e.log).peers id').isSome = true := by
      intro id' h
      change (Function.update w.peers p.replica.id _ id').isSome = true
      rw [Function.update_apply]
      split
      · rfl
      · exact h
    rcases List.mem_append.mp hc with hc | hc
    · have h := hw.changes c hc
      exact ⟨hsome _ h.author, h.start.mono hold, h.base, h.result, h.result_facts, h.delta,
        h.delta_facts, h.acts, h.minted⟩
    · rw [List.mem_singleton] at hc
      subst hc
      refine ⟨hsome _ (by rw [hfiled, there]; rfl), hp.tells.mono hold, hp.base, hdoc ▸ he.work,
        hdoc ▸ he.work_facts, he.delta, he.delta_facts, hdoc ▸ he.sound, ?_⟩
      intro act hact t v ha
      obtain ⟨n, h1, -, h2⟩ := he.minted act hact t v ha
      exact ⟨n, h1, h2⟩
  · intro q q' t v u hv hu
    rw [hsaid] at hv hu
    rcases hv with hv | hv <;> rcases hu with hu | hu
    · exact hw.unique q q' t v u hv hu
    · exact (hfresh q q' t v u hv hu).elim
    · exact (hfresh q' q t u v hu hv).elim
    · obtain ⟨act, hact, rfl, ha⟩ := add_mem_said.mp hv
      obtain ⟨act', hact', rfl, ha'⟩ := add_mem_said.mp hu
      exact he.unique act hact act' hact' t v u ha ha'

/-- Nothing was said under an identity that is not in use. -/
theorem Sound.not_said_of_free (hw : w.Sound) {id : CString} (free : w.peers id = none)
    (valid : validId id = .ok ()) {q : Path} {n : ℕ} {v : Bytes} : .add q (mintTag id n) v ∉ w.said := by
  rintro ⟨c, hc, hf⟩
  obtain ⟨act, hact, -, ha⟩ := add_mem_said.mp hf
  have hs := hw.changes c hc
  obtain ⟨m, -, hm⟩ := hs.minted act hact _ _ ha
  obtain ⟨p, hp⟩ := Option.isSome_iff_exists.mp hs.author
  have he := (mintTag_eq valid (hw.peers _ _ hp).valid hm).1
  rw [he, hp] at free
  cases free

/-- No change was made under an identity that is not in use. -/
theorem Sound.author_ne (hw : w.Sound) {id : CString} (free : w.peers id = none) :
    ∀ c ∈ w.changes, c.author ≠ id := by
  rintro c hc rfl
  have := (hw.changes c hc).author
  rw [free] at this
  cases this

theorem sound_init : World.init.Sound where
  peers := fun id p h => by cases h
  mail := fun m h => by cases h
  changes := fun c h => by cases h
  unique := fun p q t v u h => by
    obtain ⟨c, hc, -⟩ := h
    cases hc

end World

/-- One step keeps everything sound. -/
theorem Step.sound {w w' : World} (h : Step w w') (hw : w.Sound) : w'.Sound := by
  cases h with
  | create free made =>
    obtain ⟨hv, rfl⟩ := Replica.create_eq_ok.mp made
    refine hw.put ⟨rfl, hv, ⟨shaped_emptyRoot, Set.subset_union_left⟩, subset_rfl, ?_, ?_⟩
    · exact fun c hc ha => absurd ha (hw.author_ne free c hc)
    · exact fun q n v hf => absurd hf (hw.not_said_of_free free hv)
  | fork there free made =>
    obtain ⟨hv, -, rfl⟩ := Replica.fork_eq_ok.mp made
    have hp := hw.peers _ _ there
    refine hw.put ⟨rfl, hv, hp.tells, hp.base, ?_, ?_⟩
    · exact fun c hc ha => absurd ha (hw.author_ne free c hc)
    · exact fun q n v hf => absurd hf (hw.not_said_of_free free hv)
  | @setPolicy id p there policy =>
    obtain ⟨h1, h2, h3, h4, h5, h6⟩ := hw.peers _ _ there
    subst h1
    exact hw.put ⟨rfl, h2, h3, h4, h5, h6⟩
  | observe there ok =>
    obtain ⟨-, hd, hid, -, hdoc, hissued⟩ := Replica.observe_ok ok
    rw [hd]
    exact hw.commit there (keeps_observeInto _ _ (hw.editor there)) hid hdoc hissued
  | @refuse id p state c there failed =>
    obtain ⟨-, hr⟩ := Replica.observe_error failed
    have hinv := (keeps_observeInto state _ (hw.editor there)).issued
    rw [hr]
    obtain ⟨h1, h2, h3, h4, h5, h6⟩ := hw.peers _ _ there
    subst h1
    refine World.Sound.spend ?_ _
    refine hw.put ⟨rfl, h2, h3, h4, h5, fun q n v hf => ?_⟩
    have := h6 q n v hf
    exact ⟨this.1, this.2.trans hinv⟩
  | resolve there held reported ok =>
    obtain ⟨-, -, hd, hid, -, hdoc, hissued⟩ := Replica.resolve_ok ok
    rw [hd]
    have hc := (hw.holds held).1.placed reported
    exact hw.commit there (keeps_settle hc _ _ (hw.editor there)) hid hdoc hissued
  | @merge id p m there posted ok =>
    obtain ⟨-, hr⟩ := Replica.merge_ok ok
    rw [hr]
    obtain ⟨h1, h2, h3, h4, h5, h6⟩ := hw.peers _ _ there
    subst h1
    have hm := hw.mail m posted
    have hj := hw.facts_joinNode h3 hm
    refine hw.put ⟨rfl, h2, hw.tells_join h3 hm, ?_, ?_, ?_⟩
    · rw [hj]
      exact h4.trans Set.subset_union_left
    · intro c hc ha
      rw [hj]
      exact (h5 c hc ha).trans Set.subset_union_left
    · intro q n v hf
      have := h6 q n v hf
      exact ⟨this.1, this.2.trans (le_max_left _ _)⟩
  | publish there => exact hw.post (hw.peers _ _ there).tells

/-- Everything is sound in every run. -/
theorem Reachable.sound {w : World} (h : Reachable w) : w.Sound := by
  induction h with
  | refl => exact World.sound_init
  | tail _ hstep ih => exact hstep.sound ih


/-! ### A short run -/

/-- What was recorded when a state was observed. -/
def observedDelta (r : Replica) (state : Json) : Json :=
  match (r.observe (some state)).1 with
  | .ok o => o.delta
  | .error _ => .null

/-- A new replica. -/
def newReplica (id : CString) : Replica := { id := id, issued := 0, doc := emptyRoot }

/-- One identity. -/
def idA : CString := .ofLit "aaaaaaaaaaaaaaaa"

/-- Another identity. -/
def idB : CString := .ofLit "bbbbbbbbbbbbbbbb"

/-- A state with one mantle that has a name and nothing else. -/
def oneMantleState : Json := .obj [(Key.mantles, .arr [.obj [(Key.name, .str (.ofLit "m"))]])]

/-- A replica observes a state. -/
def World.observing (w : World) (p : Peer) (state : Json) : World :=
  w.commit p (p.replica.observe (some state)).2 (observedDelta p.replica state)
    (p.replica.observed (some state))

/-- A replica merges something that was handed over. -/
def World.merging (w : World) (p : Peer) (m : Parcel) : World :=
  w.put ⟨(p.replica.merge m.doc).2, p.known ∪ m.known⟩

/-- Two new replicas. -/
def twoNew : World := (World.init.put ⟨newReplica idA, ∅⟩).put ⟨newReplica idB, ∅⟩

/-- Two replicas, one of which observed a mantle that the other merged. -/
def pairWorld : World :=
  (twoNew.observing ⟨newReplica idA, ∅⟩ oneMantleState).merging ⟨newReplica idB, ∅⟩
    ⟨observedDelta (newReplica idA) oneMantleState, {0}⟩

/-- An observation that does not fail is a step. -/
theorem Reachable.observing {w : World} (h : Reachable w) {p : Peer} {state : Json}
    (there : w.peers p.replica.id = some p)
    (ok : (p.replica.observe (some state)).1.toOption.isSome = true) : Reachable (w.observing p state) := by
  refine h.tail ?_
  cases ho : (p.replica.observe (some state)).1 with
  | error c =>
    rw [ho] at ok
    cases ok
  | ok o =>
    have hstep := Step.observe there ho
    rwa [show o.delta = observedDelta p.replica state by simp only [observedDelta, ho]] at hstep

/-- A merge that is not refused is a step. -/
theorem Reachable.merging {w : World} (h : Reachable w) {p : Peer} {m : Parcel}
    (there : w.peers p.replica.id = some p) (posted : m ∈ w.mail)
    (ok : (p.replica.merge m.doc).1 = .ok) : Reachable (w.merging p m) :=
  h.tail (.merge there posted ok)

theorem Replica.observe_id (r : Replica) (state : Option Json) : (r.observe state).2.id = r.id := by
  unfold Replica.observe
  rcases observeInto r.author state r.editor with ⟨_ | _, e⟩ <;> rfl

theorem Replica.merge_id (r : Replica) (d : Json) : (r.merge d).2.id = r.id := by
  unfold Replica.merge
  split
  · rfl
  · split <;> rfl

/-- A replica that observed is found under its identity. -/
theorem World.observing_self (w : World) (p : Peer) (state : Json) :
    (w.observing p state).peers (p.replica.observe (some state)).2.id =
      some ⟨(p.replica.observe (some state)).2, insert w.changes.length p.known⟩ := by
  rw [Replica.observe_id]
  exact Function.update_self ..

/-- So are all the others. -/
theorem World.observing_ne (w : World) (p : Peer) (state : Json) {id : CString}
    (h : id ≠ p.replica.id) : (w.observing p state).peers id = w.peers id := Function.update_of_ne h ..

theorem World.merging_self (w : World) (p : Peer) (m : Parcel) :
    (w.merging p m).peers (p.replica.merge m.doc).2.id =
      some ⟨(p.replica.merge m.doc).2, p.known ∪ m.known⟩ := Function.update_self ..

theorem reachable_twoNew : Reachable twoNew := by
  have hA : Step .init (World.init.put ⟨newReplica idA, ∅⟩) := @Step.create _ idA _ rfl rfl
  exact (Relation.ReflTransGen.single hA).tail (@Step.create _ idB _ rfl rfl)

theorem reachable_pairWorld : Reachable pairWorld :=
  (reachable_twoNew.observing rfl (by decide +kernel)).merging rfl List.mem_cons_self (by decide +kernel)

theorem pairWorld_idA : pairWorld.peers idA =
    some ⟨((newReplica idA).observe (some oneMantleState)).2, insert 0 ∅⟩ := rfl

theorem pairWorld_idB : pairWorld.peers idB =
    some ⟨((newReplica idB).merge (observedDelta (newReplica idA) oneMantleState)).2, ∅ ∪ {0}⟩ := rfl

end VoidPalabra
