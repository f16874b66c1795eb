import VoidPalabra.Presence

/-!
# States that the peer refuses

A session remembers the digest of its own state, the one that the peer acknowledged and the
one that the peer refused. Most parts of a call leave all three alone; a state is said only
when it is neither the acknowledged nor the refused one. The answers come late, repeated and
in any order.
-/

namespace VoidPalabra.Sync

/-- What a session remembers of the peer's answers. -/
structure Answers where
  /-- The digest of the state that is shared. -/
  exportDigest : Bytes
  /-- The digest that the peer acknowledged. -/
  acked : Bytes
  /-- The digest that the peer refused. -/
  refused : Bytes

/-- The answers of a session. -/
def Session.answers (s : Session) : Answers where
  exportDigest := s.exportDigest
  acked := s.acked
  refused := s.refused

variable {h : Host} {r : Replica} {id : CString} {now : ℤ} {s : Session}

/-! ### What leaves the answers alone -/

theorem answers_noteSaid (x : Said) : (noteSaid now x).session.answers = x.session.answers := by
  unfold noteSaid
  split_ifs <;> rfl

theorem Outcome.answers_noteSaid (o : Outcome) : (o.noteSaid now).session.answers = o.session.answers := by
  unfold Outcome.noteSaid
  split
  · split_ifs <;> rfl
  · rfl

theorem answers_finish (why : Bytes) (bye : Bool) : (finish h id why bye s).session.answers = s.answers := by
  unfold finish
  split_ifs <;> rfl

theorem answers_ask : (ask h id now s).session.answers = s.answers := by
  unfold ask
  split_ifs <;> rfl

theorem answers_refreshWants : (refreshWants h r now s).session.answers = s.answers := by
  unfold refreshWants
  split_ifs
  · rfl
  · exact answers_ask

theorem answers_tickConnecting : (tickConnecting h id now s).session.answers = s.answers := by
  unfold tickConnecting
  split_ifs
  · exact answers_finish _ _
  · rfl
  · rfl

theorem answers_tickWants : (tickWants h id now s).session.answers = s.answers := by
  unfold tickWants
  exact answers_ask (s := { s with wants := s.wants.map fun _ w => w.tick s.timing now })

theorem answers_tickPresence : (tickPresence now s).session.answers = s.answers := by
  unfold tickPresence
  split_ifs <;> rfl

theorem answers_tickKeepalive : (tickKeepalive h id now s).session.answers = s.answers := by
  unfold tickKeepalive
  split_ifs <;> rfl

theorem answers_onContent (m : Message) : (onContent m s).session.answers = s.answers := by
  unfold onContent
  split
  · rfl
  · split_ifs <;> rfl

theorem answers_onAbsent {as : List Bytes} : ∀ {s : Session}, (onAbsent as s).session.answers = s.answers := by
  induction as with
  | nil => exact fun {_} => rfl
  | cons a as ih =>
    intro s
    have hone : (onAbsentOne a s).session.answers = s.answers := by
      unfold onAbsentOne
      split
      · rfl
      · split_ifs <;> rfl
    rw [onAbsent]
    exact ih.trans hone

theorem answers_onPresence (m : Message) : (onPresence m now s).session.answers = s.answers := by
  unfold onPresence
  split_ifs <;> rfl

theorem answers_publishPresence (payload : Bytes) :
    (publishPresence h id payload now s).session.answers = s.answers := by
  unfold publishPresence
  split_ifs <;> rfl

theorem answers_fetch (address : Bytes) : (fetch h id address now s).session.answers = s.answers := by
  unfold fetch
  split
  · rfl
  · rename_i w _
    rw [answers_noteSaid]
    exact answers_ask (s := { s with wants := s.wants.insert address w.release })

theorem answers_setFetch (policy : FetchPolicy) : (setFetch h id policy now s).session.answers = s.answers := by
  unfold setFetch
  rw [answers_noteSaid]
  exact answers_ask (s := { s with fetch := policy, wants := s.wants.map fun _ w => w.follow policy })

/-- A hello of the session that the peer is in leaves the answers. -/
theorem answers_answerHello {m : Message} (hm : m.session = s.peerSession) :
    (answerHello h id m now s).session.answers = s.answers := by
  have hgreet : (greet m now s).session.answers = s.answers := by
    unfold greet
    dsimp only
    rw [if_pos hm]
    split_ifs <;> rfl
  have hwelcome : (welcome m now s).session.answers = s.answers := by
    unfold welcome
    dsimp only
    split_ifs <;> exact hgreet
  unfold answerHello
  split_ifs <;> exact hwelcome

theorem refreshExport_acked (r : Replica) : (refreshExport h r s).2.acked = s.acked := by
  unfold refreshExport
  split_ifs
  · rfl
  · dsimp only
    split <;> rfl

theorem refreshExport_refused (r : Replica) : (refreshExport h r s).2.refused = s.refused := by
  unfold refreshExport
  split_ifs
  · rfl
  · dsimp only
    split <;> rfl

/-! ### What a part of a call does to the answers -/

/-- Nothing is refused anew, nothing but the own state counts as acknowledged, and a state that
is said is the own one and neither acknowledged nor refused. -/
structure Careful (s : Session) (x : Said) : Prop where
  /-- What is acknowledged stays or is the own state. -/
  acked : x.session.acked = s.acked ∨ x.session.acked = x.session.exportDigest
  /-- What is refused stays. -/
  refused : x.session.refused = s.refused
  /-- The states that are said. -/
  docs : ∀ m, .frame m ∈ x.out → m.kind = .doc →
    m.digest = x.session.exportDigest ∧ m.digest ≠ s.acked ∧ m.digest ≠ s.refused

/-- A part of a call that says no state. -/
theorem Careful.quiet {x : Said} {kinds : List Kind} {types : List EventType}
    (hp : Part id kinds types s x) (hk : .doc ∉ kinds) (ha : x.session.acked = s.acked)
    (hr : x.session.refused = s.refused) : Careful s x where
  acked := Or.inl ha
  refused := hr
  docs := fun m hm hd => absurd (hd ▸ (hp.frames m hm).1) hk

/-- Nothing is said about states any more. -/
theorem Careful.andThen {x : Said} {f : Session → Said} {kinds : List Kind} {types : List EventType}
    (hx : Careful s x) (hp : Part id kinds types x.session (f x.session)) (hk : .doc ∉ kinds)
    (ha : (f x.session).session.answers = x.session.answers) : Careful s (x.andThen f) := by
  have hexport : (f x.session).session.exportDigest = x.session.exportDigest :=
    congrArg Answers.exportDigest ha
  have hacked : (f x.session).session.acked = x.session.acked := congrArg Answers.acked ha
  have hrefused : (f x.session).session.refused = x.session.refused := congrArg Answers.refused ha
  constructor
  · change (f x.session).session.acked = _ ∨ (f x.session).session.acked = (f x.session).session.exportDigest
    rw [hacked, hexport]
    exact hx.acked
  · exact hrefused.trans hx.refused
  · intro m hm hd
    change m.digest = (f x.session).session.exportDigest ∧ _
    rw [hexport]
    rcases List.mem_append.mp hm with hm | hm
    · exact hx.docs m hm hd
    · exact absurd (hd ▸ (hp.frames m hm).1) hk

/-- Nothing was said about states before. -/
theorem Careful.before {x : Said} {f : Session → Said} {kinds : List Kind} {types : List EventType}
    (hp : Part id kinds types s x) (hk : .doc ∉ kinds) (ha : x.session.acked = s.acked)
    (hr : x.session.refused = s.refused) (hf : Careful x.session (f x.session)) :
    Careful s (x.andThen f) := by
  refine ⟨ha ▸ hf.acked, hr ▸ hf.refused, ?_⟩
  intro m hm hd
  rcases List.mem_append.mp hm with hm | hm
  · exact absurd (hd ▸ (hp.frames m hm).1) hk
  · rw [← ha, ← hr]
    exact hf.docs m hm hd

theorem Careful.after {x : Said} {o : Outcome} {kinds : List Kind} {types : List EventType}
    (hp : Part id kinds types s x) (hk : .doc ∉ kinds) (ha : x.session.acked = s.acked)
    (hr : x.session.refused = s.refused) (ho : Careful x.session o.said) :
    Careful s (o.after x.out).said := by
  have hboth : Careful s (x.andThen fun _ => o.said) := Careful.before hp hk ha hr ho
  unfold Outcome.after Outcome.said
  cases hres : o.result with
  | ok out =>
    unfold Said.andThen Outcome.said at hboth
    rw [hres] at hboth
    exact hboth
  | error e => exact ⟨hboth.acked, hboth.refused, fun m hm => (nomatch hm)⟩

/-- The rest of the session does not matter. -/
theorem Careful.session {x : Said} {s' : Session} (hx : Careful s x)
    (ha : s'.answers = x.session.answers) : Careful s ⟨s', x.out⟩ := by
  have hexport : s'.exportDigest = x.session.exportDigest := congrArg Answers.exportDigest ha
  refine ⟨?_, (congrArg Answers.refused ha).trans hx.refused, ?_⟩
  · change s'.acked = _ ∨ s'.acked = s'.exportDigest
    rw [hexport, show s'.acked = x.session.acked from congrArg Answers.acked ha]
    exact hx.acked
  · intro m hm hd
    change m.digest = s'.exportDigest ∧ _
    rw [hexport]
    exact hx.docs m hm hd

/-- A part of a call that starts with the same answers. -/
theorem Careful.of_answers {s' : Session} {x : Said} (hx : Careful s' x) (ha : s'.acked = s.acked)
    (hr : s'.refused = s.refused) : Careful s x :=
  ⟨ha ▸ hx.acked, hr ▸ hx.refused, fun m hm hd => ha ▸ hr ▸ hx.docs m hm hd⟩

/-! ### Time -/

theorem careful_sayDoc : Careful s (sayDoc h id now s) := by
  unfold sayDoc
  split_ifs with hc
  · refine ⟨Or.inl rfl, rfl, ?_⟩
    intro m hm _
    obtain rfl : m = stamp h id s { kind := .doc, digest := s.exportDigest, payload := s.exportJson } := by
      simpa [send] using hm
    have hd : (stamp h id s { kind := .doc, digest := s.exportDigest, payload := s.exportJson }).digest =
        s.exportDigest := by
      unfold stamp
      cases h.sign <;> rfl
    rw [hd]
    exact ⟨rfl, hc.1, hc.2.1⟩
  · exact ⟨Or.inl rfl, rfl, fun m hm => by cases hm⟩

theorem careful_tickDoc : Careful s (tickDoc h id now s) := by
  unfold tickDoc
  split_ifs
  · exact ⟨Or.inl rfl, rfl, fun m hm => (nomatch hm)⟩
  · by_cases he : (!s.exportDigest.isEmpty && s.exportDigest = s.lastMerged) = true
    · -- The own state counts as acknowledged, and is not said.
      have hechoed : echoed s = { s with acked := s.exportDigest } := if_pos he
      have hsilent : sayDoc h id now (echoed s) = ⟨echoed s, []⟩ := by
        unfold sayDoc
        rw [if_neg]
        rw [hechoed]
        exact fun hb => hb.1 rfl
      rw [hsilent, hechoed]
      exact ⟨Or.inr rfl, rfl, fun m hm => (nomatch hm)⟩
    · have hechoed : echoed s = s := if_neg he
      rw [hechoed]
      exact careful_sayDoc

theorem tickRefresh_acked : (tickRefresh h r now s).session.acked = s.acked := by
  have ha := refreshExport_acked (h := h) (s := s) r
  unfold tickRefresh
  split_ifs
  · rfl
  · split
    · rename_i he
      rw [he] at ha
      exact ha
    · rename_i he
      rw [he] at ha
      split_ifs
      · exact (congrArg Answers.acked answers_refreshWants).trans ha
      · exact ha

theorem tickRefresh_refused : (tickRefresh h r now s).session.refused = s.refused := by
  have ha := refreshExport_refused (h := h) (s := s) r
  unfold tickRefresh
  split_ifs
  · rfl
  · split
    · rename_i he
      rw [he] at ha
      exact ha
    · rename_i he
      rw [he] at ha
      split_ifs
      · exact (congrArg Answers.refused answers_refreshWants).trans ha
      · exact ha

theorem careful_tickRest {x : Said} {types : List EventType} (hx : Part id [.want] types s x)
    (ha : x.session.acked = s.acked) (hr : x.session.refused = s.refused) :
    Careful s (tickRest h id now x) := by
  have hdoc : Careful s (x.andThen (tickDoc h id now)) :=
    Careful.before hx (by decide) ha hr careful_tickDoc
  have hwants := hdoc.andThen (part_tickWants h id now _) (by decide) answers_tickWants
  have hpresence := hwants.andThen (part_tickPresence id now _) (by decide) answers_tickPresence
  have hnote : Careful s (noteSaid now (((x.andThen (tickDoc h id now)).andThen (tickWants h id now)).andThen
      (tickPresence now))) := by
    unfold noteSaid
    split_ifs
    · exact hpresence.session rfl
    · exact hpresence
  exact hnote.andThen (part_tickKeepalive h id now _) (by decide) answers_tickKeepalive

theorem careful_tick : Careful s (tick h r now s).said := by
  unfold tick
  split
  · exact ⟨Or.inl rfl, rfl, fun m hm => (nomatch hm)⟩
  · have ha := @answers_tickConnecting h r.id now s
    exact Careful.quiet (part_tickConnecting h r.id now s) (by decide) (congrArg Answers.acked ha)
      (congrArg Answers.refused ha)
  · have hp := part_tickRefresh h now s r
    have ha := @tickRefresh_acked h r now s
    have hr := @tickRefresh_refused h r now s
    split_ifs
    · have hf := @answers_finish h r.id s (lit "the peer went silent") false
      exact Careful.quiet (part_finish h r.id s _ false) (by decide) (congrArg Answers.acked hf)
        (congrArg Answers.refused hf)
    · split
      · rename_i he
        rw [he] at hp ha hr
        exact Careful.quiet hp (by decide) ha hr
      · rename_i he
        rw [he] at hp ha hr
        exact careful_tickRest hp ha hr

/-! ### Frames -/

theorem onDoc_answers (m : Message) : (onDoc h r m now s).session.answers = s.answers := by
  unfold onDoc
  split_ifs
  · rfl
  split
  · rfl
  · exact answers_refreshWants
  · rename_i why collision r' _
    change (onRefused h r'.id m why collision s).session.answers = s.answers
    unfold onRefused
    dsimp only
    split_ifs
    · exact answers_finish _ _
    · rfl

theorem onWant_remembers {as : List Bytes} : ∀ {absent : List Bytes} {s : Session},
    (onWant h r as absent s).session.acked = s.acked ∧
      (onWant h r as absent s).session.refused = s.refused := by
  induction as with
  | nil =>
    intro absent s
    rw [onWant]
    split_ifs <;> exact ⟨rfl, rfl⟩
  | cons a as ih =>
    intro absent s
    rw [onWant]
    have ha := refreshExport_acked (h := h) (s := s) r
    have hr := refreshExport_refused (h := h) (s := s) r
    split
    · rename_i he
      rw [he] at ha hr
      exact ⟨ha, hr⟩
    · rename_i s' he
      rw [he] at ha hr
      split
      · exact ⟨ih.1.trans ha, ih.2.trans hr⟩
      · exact ⟨ih.1.trans ha, ih.2.trans hr⟩

theorem careful_onAck (m : Message) : Careful s (onAck h r m s).said := by
  have hp := part_onAck h s r m
  have ha := refreshExport_acked (h := h) (s := s) r
  have hr := refreshExport_refused (h := h) (s := s) r
  refine ⟨?_, ?_, fun m' hm _ => absurd (hp.frames m' hm).1 (by simp)⟩
  · change (onAck h r m s).session.acked = _ ∨ (onAck h r m s).session.acked = (onAck h r m s).session.exportDigest
    unfold onAck
    split
    · rename_i he
      rw [he] at ha
      exact Or.inl ha
    · rename_i he
      rw [he] at ha
      split_ifs with hd
      · exact Or.inr hd
      · exact Or.inl ha
  · change (onAck h r m s).session.refused = _
    unfold onAck
    split
    · rename_i he
      rw [he] at hr
      exact hr
    · rename_i he
      rw [he] at hr
      split_ifs <;> exact hr

/-- Any frame but a hello and a refusal. -/
theorem careful_onOther {m : Message} (hk : m.kind ≠ .refuse) : Careful s (onOther h r m now s).said := by
  by_cases hp : m.kind = .presence
  · have ha := @answers_onPresence now s m
    have hout : onOther h r m now s = (onPresence m now s).done r := by rw [onOther, hp]
    rw [hout]
    refine ⟨Or.inl (congrArg Answers.acked ha), congrArg Answers.refused ha, ?_⟩
    intro m' hm
    change Output.frame m' ∈ (onPresence m now s).out at hm
    unfold onPresence at hm
    split_ifs at hm
    · cases hm
    · simp [tell] at hm
  have hpart := @part_onOther h r now s m hp
  have hquiet : (onOther h r m now s).session.acked = s.acked →
      (onOther h r m now s).session.refused = s.refused → Careful s (onOther h r m now s).said :=
    fun ha hr => Careful.quiet hpart (by decide) ha hr
  have hsame : (onOther h r m now s).session.answers = s.answers → Careful s (onOther h r m now s).said :=
    fun ha => hquiet (congrArg Answers.acked ha) (congrArg Answers.refused ha)
  cases hm : m.kind with
  | hello => exact hsame (by rw [onOther, hm])
  | doc => exact hsame (by rw [onOther, hm]; exact onDoc_answers m)
  | ack =>
    have hack : onOther h r m now s = onAck h r m s := by rw [onOther, hm]
    rw [hack]
    exact careful_onAck m
  | refuse => exact absurd hm hk
  | want =>
    have hw := @onWant_remembers h r m.addresses [] s
    exact hquiet (by rw [onOther, hm]; exact hw.1) (by rw [onOther, hm]; exact hw.2)
  | content => exact hsame (by rw [onOther, hm]; exact answers_onContent m)
  | absent => exact hsame (by rw [onOther, hm]; exact answers_onAbsent)
  | presence => exact absurd hm hp
  | bye => exact hsame (by rw [onOther, hm]; exact answers_finish _ _)

/-- A hello of the session that the peer is in, or one that is not taken. -/
theorem careful_onHello {m : Message} (hm : Taken r.id m s → m.session = s.peerSession) :
    Careful s (onHello h r m now s).said := by
  by_cases ht : Taken r.id m s
  · have ha := @answers_answerHello h r.id now s m (hm ht)
    have hp := @part_answerHello h now s r.id m ht
      { s with peer := m.sender, peerSession := m.session,
               state := if opening m s then .opened else s.state } rfl rfl
    have hpeer : ¬(!s.peer.isEmpty && decide (m.sender ≠ s.peer)) = true := by
      rcases ht.peer with hp | hp <;> simp [hp]
    unfold onHello
    rw [if_neg ht.other, if_neg hpeer]
    dsimp only
    split_ifs
    · have hafter := Careful.after (o := tick h r now (answerHello h r.id m now s).session) hp (by decide)
        (congrArg Answers.acked ha) (congrArg Answers.refused ha) careful_tick
      exact hafter.of_answers rfl rfl
    · have hquiet := Careful.quiet hp (by decide) (congrArg Answers.acked ha) (congrArg Answers.refused ha)
      exact hquiet.of_answers rfl rfl
  · have hsame : (onHello h r m now s).session.answers = s.answers := by
      rcases @onHello_refused h r now s m ht with he | he
      · rw [he]
        exact answers_finish _ _
      · rw [he]
        rfl
    exact Careful.quiet (part_onHello_refused ht) (by decide) (congrArg Answers.acked hsame)
      (congrArg Answers.refused hsame)

/-! ### Calls -/

/-- A message of a kind that a call heard from the peer. -/
def Entry.hears (k : Kind) (e : Entry) : Option Message :=
  match e.heard with
  | some m => if m.kind = k ∧ FromPeer m e.before then some m else none
  | none => none

theorem Entry.hears_eq_some {k : Kind} {e : Entry} {m : Message} :
    e.hears k = some m ↔ e.heard = some m ∧ m.kind = k ∧ FromPeer m e.before := by
  unfold Entry.hears
  cases he : e.heard with
  | none => simp
  | some n =>
    dsimp only
    split_ifs with hn
    · constructor
      · rintro h
        cases h
        exact ⟨rfl, hn⟩
      · rintro ⟨h, -⟩
        exact h
    · constructor
      · intro h
        cases h
      · rintro ⟨h, hm⟩
        cases h
        exact absurd hm hn

/-- What a call does that hears anything but a hello of the peer. -/
theorem Entry.outcome_hears {k : Kind} {e : Entry} {m : Message} (hm : e.hears k = some m)
    (hk : k ≠ .hello) :
    e.outcome = (onOther e.host e.replica m e.now { e.before with lastHeard := e.now }).noteSaid e.now := by
  obtain ⟨hheard, rfl, hp⟩ := Entry.hears_eq_some.mp hm
  obtain ⟨c, h, now, r, s⟩ := e
  cases c with
  | receive frame =>
    rcases @receive_cases h r now s frame with ⟨hnone, -⟩ | ⟨m', hm', -, hrec⟩
    · rw [show accepted h frame s = some m from hheard] at hnone
      cases hnone
    · obtain rfl : m' = m := Option.some.inj (hm'.symm.trans hheard)
      change receive h r frame now s = _
      rw [hrec, onMessage_other hk hp]
  | start => cases hheard
  | tick => cases hheard
  | publishPresence payload => cases hheard
  | fetch address => cases hheard
  | setFetch policy => cases hheard
  | close reason => cases hheard

/-- What a refusal does. -/
theorem Entry.outcome_refuse {e : Entry} {m : Message} (hm : e.hears .refuse = some m) :
    e.after.answers = { e.before.answers with refused := m.digest } ∧ ∀ m', .frame m' ∉ e.out := by
  have hout := e.outcome_hears hm (by decide)
  rw [onOther, (Entry.hears_eq_some.mp hm).2.1] at hout
  unfold Entry.after Entry.out
  rw [hout]
  refine ⟨Outcome.answers_noteSaid _, ?_⟩
  intro m' hm'
  rw [Outcome.noteSaid_out] at hm'
  simp [onRefuse, tell, Said.done, Outcome.said] at hm'

/-- A call that hears no refusal, while the peer stays in its session. -/
theorem Entry.careful {e : Entry} (hn : e.hears .refuse = none)
    (hs : e.after.peerSession = e.before.peerSession) : Careful e.before ⟨e.after, e.out⟩ := by
  have hquiet : ∀ {kinds : List Kind} {types : List EventType}, .doc ∉ kinds →
      Part e.replica.id kinds types e.before ⟨e.after, e.out⟩ → e.after.answers = e.before.answers →
      Careful e.before ⟨e.after, e.out⟩ := fun hk hp ha =>
    Careful.quiet hp hk (congrArg Answers.acked ha) (congrArg Answers.refused ha)
  obtain ⟨c, h, now, r, s⟩ := e
  cases c with
  | start =>
    refine ⟨Or.inl rfl, rfl, ?_⟩
    intro m hm hd
    obtain ⟨s', hs'⟩ : ∃ s' : Session, m = stamp h r.id s' { kind := .hello } :=
      ⟨_, by simpa [Entry.out, Entry.outcome, Call.run, start, send, Said.done, Outcome.said] using hm⟩
    rw [hs', stamp_kind] at hd
    cases hd
  | tick => exact careful_tick
  | publishPresence payload =>
    exact hquiet (by decide) (part_publishPresence payload) (answers_publishPresence payload)
  | fetch address => exact hquiet (by decide) (part_fetch address) (answers_fetch address)
  | setFetch policy => exact hquiet (by decide) (part_setFetch policy) (answers_setFetch policy)
  | close reason => exact hquiet (by decide) (part_finish h r.id s reason true) (answers_finish reason true)
  | receive frame =>
    rcases @receive_cases h r now s frame with
      ⟨-, hsame, -, hp⟩ | ⟨m, hm, -, hrec⟩
    · exact hquiet (by decide) hp (congrArg Session.answers hsame)
    have hmessage : Careful s (onMessage h r m now s).said := by
      by_cases hk : m.kind = .hello
      · rw [onMessage_hello hk]
        refine careful_onHello fun ht => ?_
        have hlink := (Entry.outcome_hello (e := ⟨.receive frame, h, now, r, s⟩) hm hk ht).1
        exact (congrArg Link.peerSession hlink).symm.trans hs
      · by_cases hp : FromPeer m s
        · have href : m.kind ≠ .refuse := by
            intro hb
            have hhears : Entry.hears .refuse ⟨.receive frame, h, now, r, s⟩ = some m :=
              Entry.hears_eq_some.mpr ⟨hm, hb, hp⟩
            rw [hhears] at hn
            cases hn
          rw [onMessage_other hk hp]
          exact (careful_onOther href).of_answers rfl rfl
        · rw [onMessage_ignored hk hp]
          exact ⟨Or.inl rfl, rfl, fun m hm => by cases hm⟩
    have hnote := hmessage.session (@Outcome.answers_noteSaid now (onMessage h r m now s))
    change Careful s ⟨(receive h r frame now s).session, (receive h r frame now s).said.out⟩
    rw [hrec, Outcome.noteSaid_out]
    exact hnote

/-! ### Runs -/

/-- Once the peer refused a digest, no state with that digest is said to it while the peer stays in
its session and the own state keeps its digest. -/
def NotResent (es : List Entry) : Prop :=
  ∀ pre e mid f post m, es = pre ++ e :: (mid ++ f :: post) → e.hears .refuse = some m →
    (∀ x ∈ mid ++ [f], x.after.peerSession = x.before.peerSession) →
    (∀ x ∈ mid ++ [f], x.after.exportDigest = e.after.exportDigest) →
    ∀ d, .frame d ∈ f.out → d.kind = .doc → d.digest ≠ m.digest

/-- No refusal of another state comes while the own state stands refused and is not acknowledged. -/
def Entry.timely (e : Entry) : Prop :=
  ∀ m, e.hears .refuse = some m → e.before.refused = e.before.exportDigest →
    e.before.acked ≠ e.before.exportDigest → m.digest = e.before.exportDigest

/-- The own state is refused or acknowledged. -/
def Settled (d : Bytes) (s : Session) : Prop := s.exportDigest = d ∧ (s.refused = d ∨ s.acked = d)

/-- A call leaves a settled state settled, and does not say it. -/
theorem Settled.step {e : Entry} {d : Bytes} (hb : Settled d e.before) (ht : e.timely)
    (hs : e.after.peerSession = e.before.peerSession) (hd : e.after.exportDigest = d) :
    Settled d e.after ∧ ∀ m, .frame m ∈ e.out → m.kind = .doc → m.digest ≠ d := by
  cases hm : e.hears .refuse with
  | some m =>
    obtain ⟨hafter, hout⟩ := Entry.outcome_refuse hm
    have hacked : e.after.acked = e.before.acked := congrArg Answers.acked hafter
    have hrefused : e.after.refused = m.digest := congrArg Answers.refused hafter
    refine ⟨⟨hd, ?_⟩, fun m' hm' => absurd hm' (hout m')⟩
    by_cases ha : e.before.acked = d
    · exact Or.inr (hacked.trans ha)
    · have href := hb.2.resolve_right ha
      have := ht m hm (href.trans hb.1.symm) (fun he => ha (he.trans hb.1))
      exact Or.inl (hrefused.trans (this.trans hb.1))
  | none =>
    have hc := Entry.careful hm hs
    constructor
    · refine ⟨hd, ?_⟩
      rcases hb.2 with hr | ha
      · exact Or.inl (hc.refused.trans hr)
      · rcases hc.acked with hsame | hown
        · exact Or.inr (hsame.trans ha)
        · exact Or.inr (hown.trans hd)
    · intro m hm hk hdig
      obtain ⟨-, hacked, hrefused⟩ := hc.docs m hm hk
      rcases hb.2 with hr | ha
      · exact hrefused (hdig.trans hr.symm)
      · exact hacked (hdig.trans ha.symm)

/-- A settled state stays settled as long as the peer stays in its session and the state keeps its
digest. -/
theorem Run.settled {s₀ s : Session} {pre mid : List Entry} {e : Entry} {d : Bytes}
    (hr : Run s₀ (pre ++ e :: mid) s) (he : Settled d e.after) (ht : ∀ x ∈ mid, x.timely)
    (hs : ∀ x ∈ mid, x.after.peerSession = x.before.peerSession)
    (hd : ∀ x ∈ mid, x.after.exportDigest = d) : Settled d s := by
  induction mid using List.reverseRecOn generalizing s with
  | nil =>
    obtain ⟨-, rfl⟩ := hr.last
    exact he
  | append_singleton mid x ih =>
    have hr' : Run s₀ ((pre ++ e :: mid) ++ [x]) s := by simpa using hr
    obtain ⟨hbefore, rfl⟩ := hr'.last
    have hb := ih hbefore (fun y hy => ht y (List.mem_append_left _ hy))
      (fun y hy => hs y (List.mem_append_left _ hy)) (fun y hy => hd y (List.mem_append_left _ hy))
    exact (hb.step (ht x (by simp)) (hs x (by simp)) (hd x (by simp))).1

theorem notResent_of_timely {s₀ s : Session} {es : List Entry} (hr : Run s₀ es s) (ht : ∀ e ∈ es, e.timely) :
    NotResent es := by
  intro pre e mid f post m hes hm hs hd d hframe hk hdig
  rw [hes] at hr ht
  have hmid : Run s₀ (pre ++ e :: mid) f.before := by
    have : Run s₀ ((pre ++ e :: mid) ++ f :: post) s := by simpa using hr
    exact this.before
  obtain ⟨hafter, -⟩ := Entry.outcome_refuse hm
  by_cases hown : e.after.exportDigest = m.digest
  · have he : Settled m.digest e.after := ⟨hown, Or.inl (congrArg Answers.refused hafter)⟩
    have hbefore := hmid.settled he (fun x hx => ht x (by simp [hx])) (fun x hx => hs x (by simp [hx]))
      (fun x hx => (hd x (by simp [hx])).trans hown)
    exact (hbefore.step (ht f (by simp)) (hs f (by simp)) ((hd f (by simp)).trans hown)).2 d hframe hk hdig
  · cases hf : f.hears .refuse with
    | some m' => exact (Entry.outcome_refuse hf).2 d hframe
    | none =>
      have hdoc := (Entry.careful hf (hs f (by simp))).docs d hframe hk
      exact hown ((hd f (by simp)).symm.trans (hdoc.1.symm.trans hdig))

/-! ### A refusal that comes late -/

/-- The replica of a device after an edit. -/
def deviceEdited : Replica :=
  (deviceA.observe (some (.obj [(Key.mantles, .arr [.obj [(Key.name, .str (.ofLit "m"))]])]))).2

/-- The digest of a replica's state when everything is shared. -/
def sharedDigest (r : Replica) : Bytes := (refreshExport {} r {}).2.exportDigest

/-- A refusal of the peer. -/
def peerRefuses (digest : Bytes) : Message :=
  { peerSays .refuse "bbbbbbbbbbbbbbbb@1" 0 with digest := digest }

/-- The peer says hello, and is told the state before an edit and the one after it. -/
def editedCalls : List (Call × ℤ × Replica) :=
  [(.receive (encodeFrame (peerSays .hello "bbbbbbbbbbbbbbbb@1" 0)), 0, deviceA), (.tick, 1, deviceEdited)]

/-- The peer refuses the state after the edit. -/
def refusedCalls : List (Call × ℤ × Replica) :=
  editedCalls ++ [(.receive (encodeFrame (peerRefuses (sharedDigest deviceEdited))), 2, deviceEdited)]

/-- Its refusal of the state before the edit comes later. -/
def lateCalls : List (Call × ℤ × Replica) :=
  refusedCalls ++
    [(.receive (encodeFrame (peerRefuses (sharedDigest deviceA))), 3, deviceEdited), (.tick, 3000, deviceEdited)]

theorem notResent_of_timely_refused : NotResent (trace {} {} refusedCalls) := by
  obtain ⟨s, hr⟩ := @Run.trace {} {} refusedCalls [] {} .nil
  refine notResent_of_timely hr ?_
  intro e he m hm hrefused _
  have hnone : ∀ x ∈ trace {} {} refusedCalls, x.hears .refuse = none ∨
      x.before.refused ≠ x.before.exportDigest := by decide +kernel
  rcases hnone e he with hx | hx
  · rw [hx] at hm
    cases hm
  · exact absurd hrefused hx

/-- A call of the run in which the refusal comes late. -/
def lateEntry (n : ℕ) : Entry := (trace {} {} lateCalls).getD n ⟨.tick, {}, 0, deviceA, {}⟩

/-- When the refusal of an older state comes late, the refused state is said again. -/
theorem late_refusal_resends : ∃ (es : List Entry) (s : Session), Run {} es s ∧ Fresh {} ∧ ¬NotResent es := by
  obtain ⟨s, hr⟩ := @Run.trace {} {} lateCalls [] {} .nil
  refine ⟨trace {} {} lateCalls, s, hr, rfl, fun hn => ?_⟩
  have hentries : trace {} {} lateCalls =
      [lateEntry 0, lateEntry 1] ++ lateEntry 2 :: ([lateEntry 3] ++ lateEntry 4 :: []) := rfl
  have hfacts : (lateEntry 2).hears .refuse = some (peerRefuses (sharedDigest deviceEdited)) ∧
      (∀ x ∈ [lateEntry 3] ++ [lateEntry 4], x.after.peerSession = x.before.peerSession) ∧
      (∀ x ∈ [lateEntry 3] ++ [lateEntry 4], x.after.exportDigest = (lateEntry 2).after.exportDigest) ∧
      ∃ o ∈ (lateEntry 4).out,
        (o.message?.map fun d => (d.kind, d.digest)) = some (.doc, sharedDigest deviceEdited) := by
    decide +kernel
  obtain ⟨hrefused, hsession, hdigest, o, ho, hd⟩ := hfacts
  cases o with
  | frame d =>
    have hd : (d.kind, d.digest) = (.doc, sharedDigest deviceEdited) := Option.some.inj hd
    exact hn _ _ _ _ _ _ hentries hrefused hsession hdigest d ho (congrArg Prod.fst hd) (congrArg Prod.snd hd)
  | event e => cases hd

end VoidPalabra.Sync
