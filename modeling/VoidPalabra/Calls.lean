import VoidPalabra.Parts

/-!
# A run of a session

A run is a sequence of calls on one session, at any times, with any answers of the host and
with any replica: between two calls the replica may have become another one. What a call may
do is said by the message it heard.
-/

namespace VoidPalabra.Sync

variable {h : Host} {r : Replica} {now : ℤ} {s : Session}

/-! ### Frames that are heard -/

/-- The message that a session takes out of a frame. -/
def accepted (h : Host) (frame : Bytes) (s : Session) : Option Message :=
  if s.state = .closed then none
  else
    match decodeFrame frame s.limits with
    | .error _ => none
    | .ok m => if h.rejects m then none else some m

theorem Outcome.noteSaid_replica (o : Outcome) : (o.noteSaid now).replica = o.replica := by
  unfold Outcome.noteSaid
  split
  · split_ifs <;> rfl
  · rfl

theorem Outcome.noteSaid_link (o : Outcome) : (o.noteSaid now).session.link = o.session.link := by
  unfold Outcome.noteSaid
  split
  · split_ifs <;> rfl
  · rfl

theorem Outcome.noteSaid_state (o : Outcome) : (o.noteSaid now).session.state = o.session.state := by
  unfold Outcome.noteSaid
  split
  · split_ifs <;> rfl
  · rfl

theorem Outcome.noteSaid_wants (o : Outcome) : (o.noteSaid now).session.wants = o.session.wants := by
  unfold Outcome.noteSaid
  split
  · split_ifs <;> rfl
  · rfl

theorem Outcome.noteSaid_result (o : Outcome) : (o.noteSaid now).result = o.result := by
  unfold Outcome.noteSaid
  split
  · split_ifs <;> rfl
  · rfl

theorem Outcome.noteSaid_out (o : Outcome) : (o.noteSaid now).said.out = o.said.out := by
  unfold Outcome.said
  rw [o.noteSaid_result]

theorem Part.noteSaid_said {id : CString} {kinds : List Kind} {types : List EventType} {o : Outcome}
    (hp : Part id kinds types s o.said) : Part id kinds types s (o.noteSaid now).said := by
  have hx := @Part.session _ _ _ _ _ (o.noteSaid now).session hp o.noteSaid_link o.noteSaid_state
  rwa [← @Outcome.noteSaid_out now o] at hx

/-- A frame is refused, or what is done is what its message asks for. -/
theorem receive_cases (frame : Bytes) :
    (accepted h frame s = none ∧ (receive h r frame now s).session = s ∧
      (receive h r frame now s).replica = r ∧
      Part r.id [] [.messageRefused] s (receive h r frame now s).said) ∨
    ∃ m, accepted h frame s = some m ∧ s.state ≠ .closed ∧
      receive h r frame now s = (onMessage h r m now s).noteSaid now := by
  unfold accepted receive
  split_ifs with hc
  · exact Or.inl ⟨rfl, rfl, rfl, Part.silent rfl rfl rfl⟩
  cases hd : decodeFrame frame s.limits with
  | error why =>
    exact Or.inl ⟨rfl, rfl, rfl, part_tell r.id s { type := .messageRefused, peer := s.peer, detail := why }⟩
  | ok m =>
    dsimp only
    split_ifs with hr
    · exact Or.inl ⟨rfl, rfl, rfl, part_tell r.id s
        { type := .messageRefused, peer := s.peer, detail := lit "signature did not verify" }⟩
    · exact Or.inr ⟨m, rfl, hc, rfl⟩

/-! ### Hello -/

/-- What becomes of a link when a hello is taken. -/
def Link.greeted (l : Link) (m : Message) : Link :=
  { l with peer := m.sender, peerSession := m.session }

/-- A hello that is taken: of another replica, and of the peer if there is one. -/
structure Taken (id : CString) (m : Message) (s : Session) : Prop where
  /-- It is not the replica's own. -/
  other : m.sender ≠ id.bytes
  /-- It is the peer's. -/
  peer : s.peer.isEmpty = true ∨ m.sender = s.peer

theorem greet_link {m : Message} {id : CString} (ht : Taken id m s) :
    (greet m now s).session.link = s.link.greeted m := by
  unfold greet Link.greeted
  dsimp only
  by_cases hp : s.peer.isEmpty = true
  · rw [if_pos hp]
    by_cases he : m.session = s.peerSession
    · rw [if_pos he, he]
      rfl
    · rw [if_neg he]
      rfl
  · rw [if_neg hp, ht.peer.resolve_left hp]
    by_cases he : m.session = s.peerSession
    · rw [if_pos he, he]
      rfl
    · rw [if_neg he]
      rfl

theorem greet_state (m : Message) : (greet m now s).session.state = s.state := by
  unfold greet
  dsimp only
  split_ifs <;> rfl

theorem greet_wants (m : Message) : (greet m now s).session.wants = s.wants := by
  unfold greet
  dsimp only
  split_ifs <;> rfl

theorem greet_out (m : Message) : ∀ o ∈ (greet m now s).out,
    o = .event { type := .peerIdentified, peer := m.sender } := by
  unfold greet
  dsimp only
  split_ifs
  all_goals simp [tell]

theorem welcome_out (m : Message) : (welcome m now s).out = (greet m now s).out := by
  unfold welcome
  dsimp only
  split_ifs <;> rfl

theorem welcome_link (m : Message) :
    (welcome m now s).session.link = (greet m now s).session.link := by
  unfold welcome
  dsimp only
  split_ifs <;> rfl

theorem welcome_state (m : Message) :
    (welcome m now s).session.state = if opening m s then .opened else s.state := by
  unfold welcome
  dsimp only
  split_ifs
  · rfl
  · exact greet_state m

theorem welcome_wants (m : Message) : (welcome m now s).session.wants = s.wants := by
  unfold welcome
  dsimp only
  split_ifs <;> exact greet_wants m

/-- What is answered to a hello that is taken. -/
theorem part_answerHello {id : CString} {m : Message} (ht : Taken id m s) {s' : Session}
    (hl : s'.link = s.link.greeted m) (hs : s'.state = if opening m s then .opened else s.state) :
    Part id [.hello] [.peerIdentified] s' (answerHello h id m now s) := by
  have hwelcome : Part id [] [.peerIdentified] s' (welcome m now s) := by
    constructor
    · rw [welcome_link, greet_link ht, hl]
    · exact Or.inl (by rw [welcome_state, hs])
    · intro m' hm
      rw [welcome_out] at hm
      cases greet_out m _ hm
    · intro e he
      rw [welcome_out] at he
      cases greet_out m _ he
      exact List.mem_singleton_self _
  unfold answerHello
  split_ifs
  · have hsend := hwelcome.andThen (part_send h id _ (m := { kind := .hello }) (fun hk => absurd rfl hk))
    exact hsend.mono (by simp) (by simp)
  · exact hwelcome.mono (by simp) (by simp)

theorem answerHello_wants (id : CString) (m : Message) :
    (answerHello h id m now s).session.wants = s.wants := by
  unfold answerHello
  split_ifs <;> exact welcome_wants m

/-- What is said and done about a hello that is taken. -/
theorem part_onHello {m : Message} (ht : Taken r.id m s) {s' : Session}
    (hl : s'.link = s.link.greeted m) (hs : s'.state = if opening m s then .opened else s.state) :
    Part r.id [.bye, .hello, .doc, .want]
      [.peerIdentified, .closed, .contentUnavailable, .presenceExpired] s' (onHello h r m now s).said := by
  have hanswer := @part_answerHello h now s _ m ht s' hl hs
  have hpeer : ¬(!s.peer.isEmpty && decide (m.sender ≠ s.peer)) = true := by
    rcases ht.peer with hp | hp <;> simp [hp]
  unfold onHello
  rw [if_neg ht.other, if_neg hpeer]
  dsimp only
  split_ifs
  · exact (hanswer.after (part_tick h now _ r)).mono (by simp) (by simp)
  · exact hanswer.mono (by simp) (by simp)

theorem answerHello_heard (id : CString) (m : Message) :
    (answerHello h id m now s).session.lastHeard = now := by
  have hgreet : (greet m now s).session.lastHeard = now := by
    unfold greet
    dsimp only
    split_ifs <;> rfl
  have hwelcome : (welcome m now s).session.lastHeard = now := by
    unfold welcome
    dsimp only
    split_ifs <;> exact hgreet
  unfold answerHello
  split_ifs <;> exact hwelcome

/-- A hello that opens the session leaves it open, unless the peer may not be silent at all. -/
theorem onHello_opened {m : Message} (ht : Taken r.id m s) (ho : opening m s = true)
    (hsilence : 0 < s.timing.silenceTimeout) : (onHello h r m now s).session.state = .opened := by
  have hanswer := @part_answerHello h now s _ m ht
    { s with peer := m.sender, peerSession := m.session,
             state := if opening m s then .opened else s.state } rfl rfl
  have hstate : (answerHello h r.id m now s).session.state = .opened := by
    rw [hanswer.state_eq (by simp)]
    exact if_pos ho
  have htiming : (answerHello h r.id m now s).session.timing = s.timing := congrArg Link.timing hanswer.link
  have hpeer : ¬(!s.peer.isEmpty && decide (m.sender ≠ s.peer)) = true := by
    rcases ht.peer with hp | hp <;> simp [hp]
  unfold onHello
  rw [if_neg ht.other, if_neg hpeer]
  dsimp only
  rw [if_pos ho]
  refine tick_opened h now _ r hstate ?_
  rw [htiming, answerHello_heard]
  omega

theorem onHello_replica (m : Message) : (onHello h r m now s).replica = r := by
  unfold onHello
  split_ifs
  · rfl
  · rfl
  · exact tick_replica h now _ r
  · rfl

/-- A hello that is not taken ends the session or is reported. -/
theorem onHello_refused {m : Message} (ht : ¬Taken r.id m s) :
    onHello h r m now s = (finish h r.id
        (lit "the peer is using this replica's id; one of the two must fork") true s).done r ∨
      onHello h r m now s = (tell { type := .messageRefused, peer := s.peer,
                                    detail := lit "a different replica on this session" } s).done r := by
  unfold onHello
  by_cases hid : m.sender = r.id.bytes
  · rw [if_pos hid]
    exact Or.inl rfl
  · have hpeer : (!s.peer.isEmpty && decide (m.sender ≠ s.peer)) = true := by
      by_contra hb
      apply ht
      refine ⟨hid, ?_⟩
      cases hp : s.peer.isEmpty with
      | true => exact Or.inl rfl
      | false =>
        right
        by_contra hne
        exact hb (by simp [hp, hne])
    rw [if_neg hid, if_pos hpeer]
    exact Or.inr rfl

theorem part_onHello_refused {m : Message} (ht : ¬Taken r.id m s) :
    Part r.id [.bye] [.closed, .messageRefused] s (onHello h r m now s).said := by
  rcases @onHello_refused h r now s m ht with he | he
  · rw [he]
    exact (part_finish h r.id s _ true).mono (by simp) (by simp)
  · rw [he]
    have htell := part_tell r.id s { type := .messageRefused, peer := s.peer,
                                     detail := lit "a different replica on this session" }
    exact htell.mono (by simp) (by simp)

/-! ### Other messages -/

/-- Everything but a hello is heard from the peer only. -/
def FromPeer (m : Message) (s : Session) : Prop := s.peer.isEmpty = false ∧ m.sender = s.peer

instance (m : Message) (s : Session) : Decidable (FromPeer m s) := instDecidableAnd

theorem onMessage_hello {m : Message} (hk : m.kind = .hello) :
    onMessage h r m now s = onHello h r m now s := by
  rw [onMessage, if_pos hk]

theorem onMessage_other {m : Message} (hk : m.kind ≠ .hello) (hp : FromPeer m s) :
    onMessage h r m now s = onOther h r m now { s with lastHeard := now } := by
  rw [onMessage, if_neg hk, if_neg]
  simp [hp.1, hp.2]

theorem onMessage_ignored {m : Message} (hk : m.kind ≠ .hello) (hp : ¬FromPeer m s) :
    onMessage h r m now s = ⟨.ok [], s, r⟩ := by
  rw [onMessage, if_neg hk, if_pos]
  by_contra hb
  apply hp
  simp only [Bool.or_eq_true, decide_eq_true_eq, not_or, Bool.not_eq_true, not_not] at hb
  exact hb

/-- What is said and done about a message that is neither a hello nor a presence. -/
theorem part_onOther {m : Message} (hk : m.kind ≠ .presence) :
    Part r.id [.ack, .want, .refuse, .bye, .content, .absent]
      [.merged, .mergeRefused, .closed, .peerRefusedState, .messageRefused, .contentRefused,
        .contentArrived, .contentUnavailable] s (onOther h r m now s).said := by
  unfold onOther
  split
  · exact Part.silent rfl rfl rfl
  · exact (part_onDoc h now s r m).mono (by simp) (by simp)
  · exact (part_onAck h s r m).mono (by simp) (by simp)
  · have htell : Part r.id [] [.peerRefusedState] s (onRefuse m s) :=
      (part_tell r.id _ { type := .peerRefusedState, peer := s.peer, detail := m.reason }).of_link rfl rfl
    exact htell.mono (by simp) (by simp)
  · exact (part_onWant h r).mono (by simp) (by simp)
  · exact (part_onContent r.id s m).mono (by simp) (by simp)
  · exact (part_onAbsent r.id).mono (by simp) (by simp)
  · rename_i hp
    exact absurd hp hk
  · exact (part_finish h r.id s _ false).mono (by simp) (by simp)

/-! ### Runs -/

/-- One call of a run: what was called, and what stood before it. -/
structure Entry where
  /-- The call. -/
  call : Call
  /-- The host's answers. -/
  host : Host
  /-- The time. -/
  now : ℤ
  /-- The replica before it. -/
  replica : Replica
  /-- The session before it. -/
  before : Session

namespace Entry

/-- What the call does. -/
def outcome (e : Entry) : Outcome := e.call.run e.host e.now e.replica e.before

/-- The session after it. -/
def after (e : Entry) : Session := e.outcome.session

/-- What it says. -/
def out (e : Entry) : List Output := e.outcome.said.out

/-- The message it takes out of a frame. -/
def heard (e : Entry) : Option Message :=
  match e.call with
  | .receive frame => accepted e.host frame e.before
  | _ => none

end Entry

/-- A session that was just made. -/
def Fresh (s : Session) : Prop :=
  s = { references := s.references, fetch := s.fetch, timing := s.timing, limits := s.limits }

/-- The entries of a run, the first one first, and the session it leads to. -/
inductive Run (s₀ : Session) : List Entry → Session → Prop
  /-- Nothing was called. -/
  | nil : Run s₀ [] s₀
  /-- One more call. -/
  | call {es : List Entry} {e : Entry} (hr : Run s₀ es e.before) : Run s₀ (es ++ [e]) e.after

/-- What a run said. -/
def log (es : List Entry) : List Output := es.flatMap Entry.out

/-- A run that ends with a call. -/
theorem Run.last {s₀ s : Session} {es : List Entry} {e : Entry} (hr : Run s₀ (es ++ [e]) s) :
    Run s₀ es e.before ∧ s = e.after := by
  generalize hes : es ++ [e] = all at hr
  cases hr with
  | nil => simp at hes
  | call hr =>
    obtain ⟨rfl, he⟩ := List.append_inj' hes rfl
    cases he
    exact ⟨hr, rfl⟩

theorem Run.of_append {s₀ : Session} {es fs : List Entry} {s : Session} (hr : Run s₀ (es ++ fs) s) :
    ∃ s', Run s₀ es s' := by
  induction fs using List.reverseRecOn generalizing s with
  | nil => exact ⟨s, by simpa using hr⟩
  | append_singleton fs f ih =>
    rw [← List.append_assoc] at hr
    generalize hes : es ++ fs ++ [f] = all at hr
    cases hr with
    | nil => simp at hes
    | call hr =>
      obtain ⟨hes, -⟩ := List.append_inj' hes rfl
      exact ih (hes ▸ hr)

/-- A run leads to what stands before its next call. -/
theorem Run.before {s₀ : Session} {es fs : List Entry} {e : Entry} {s : Session}
    (hr : Run s₀ (es ++ e :: fs) s) : Run s₀ es e.before := by
  rw [← List.singleton_append, ← List.append_assoc] at hr
  obtain ⟨s', hr⟩ := hr.of_append
  exact hr.last.1

/-- Calls one after another, with one host. -/
def trace (h : Host) : Session → List (Call × ℤ × Replica) → List Entry
  | _, [] => []
  | s, (c, now, r) :: rest =>
    ⟨c, h, now, r, s⟩ :: trace h (Entry.after ⟨c, h, now, r, s⟩) rest

theorem Run.trace {s₀ : Session} {h : Host} {cs : List (Call × ℤ × Replica)} :
    ∀ {es : List Entry} {s : Session}, Run s₀ es s → ∃ s', Run s₀ (es ++ Sync.trace h s cs) s' := by
  induction cs with
  | nil =>
    intro es s hr
    exact ⟨s, by rwa [Sync.trace, List.append_nil]⟩
  | cons c cs ih =>
    intro es s hr
    obtain ⟨c, now, r⟩ := c
    obtain ⟨s', hs'⟩ := ih (Run.call (e := ⟨c, h, now, r, s⟩) hr)
    exact ⟨s', by simpa [Sync.trace] using hs'⟩

/-! ### What a call may do -/

/-- A presence of the peer that a call heard. -/
def Entry.presence (e : Entry) : Option Message :=
  match e.heard with
  | some m => if m.kind = .presence ∧ FromPeer m e.before then some m else none
  | none => none

theorem Entry.presence_eq_some {e : Entry} {m : Message} :
    e.presence = some m ↔ e.heard = some m ∧ m.kind = .presence ∧ FromPeer m e.before := by
  unfold Entry.presence
  cases he : e.heard with
  | none => simp
  | some n =>
    dsimp only
    split_ifs with hn
    · constructor
      · rintro h
        cases h
        exact ⟨rfl, hn⟩
      · rintro ⟨h, -⟩
        exact h
    · constructor
      · intro h
        cases h
      · rintro ⟨h, hm⟩
        cases h
        exact absurd hm hn

/-- The kinds of frames. -/
def everyKind : List Kind := allKinds

/-- The types of events that come up while nothing is heard of the peer's presence. -/
def plainTypes : List EventType :=
  [.merged, .mergeRefused, .peerRefusedState, .contentArrived, .contentRefused, .contentUnavailable,
    .presenceExpired, .messageRefused, .closed]

theorem part_publishPresence (payload : Bytes) :
    Part r.id [.presence] [.messageRefused] s (publishPresence h r.id payload now s) := by
  unfold publishPresence
  split_ifs
  · exact Part.silent rfl rfl rfl
  · have htell := part_tell r.id s { type := .messageRefused, peer := s.peer,
                                     detail := lit "presence larger than max_presence" }
    exact htell.mono (by simp) (by simp)
  · have hsend := part_send h r.id s
      (m := { kind := .presence, seq := s.presenceOut + 1, payload := payload })
      (fun _ hp => absurd rfl hp)
    refine Part.mono (Part.session hsend rfl rfl) (by simp) ?_
    simp

theorem part_fetch (address : Bytes) : Part r.id [.want] [] s (fetch h r.id address now s) := by
  unfold fetch
  split
  · exact Part.silent rfl rfl rfl
  · exact Part.of_link ((part_ask h r.id now _).noteSaid now) rfl rfl

theorem part_setFetch (policy : FetchPolicy) : Part r.id [.want] [] s (setFetch h r.id policy now s) := by
  unfold setFetch
  exact Part.of_link ((part_ask h r.id now _).noteSaid now) rfl rfl

/-- A call starts the session, takes a hello, hears a presence of the peer, or leaves the link
alone. -/
theorem Entry.part (e : Entry) :
    e.call = .start ∨ (∃ m, e.heard = some m ∧ m.kind = .hello ∧ Taken e.replica.id m e.before) ∨
      (∃ m, e.presence = some m) ∨ Part e.replica.id everyKind plainTypes e.before e.outcome.said := by
  have hkinds : ∀ ks : List Kind, ks ⊆ everyKind := fun ks k _ => by cases k <;> decide
  obtain ⟨c, h, now, r, s⟩ := e
  cases c with
  | start => exact Or.inl rfl
  | tick =>
    exact Or.inr (Or.inr (Or.inr ((part_tick h now s r).mono (hkinds _) (by decide))))
  | publishPresence payload =>
    exact Or.inr (Or.inr (Or.inr ((part_publishPresence payload).mono (hkinds _) (by decide))))
  | fetch address =>
    exact Or.inr (Or.inr (Or.inr ((part_fetch address).mono (hkinds _) (by decide))))
  | setFetch policy =>
    exact Or.inr (Or.inr (Or.inr ((part_setFetch policy).mono (hkinds _) (by decide))))
  | close reason =>
    exact Or.inr (Or.inr (Or.inr ((part_finish h r.id s reason true).mono (hkinds _) (by decide))))
  | receive frame =>
    rcases @receive_cases h r now s frame with
      ⟨-, -, -, hp⟩ | ⟨m, hm, -, hrec⟩
    · exact Or.inr (Or.inr (Or.inr (hp.mono (hkinds _) (by decide))))
    have hout : ∀ {ts}, Part r.id everyKind ts s (onMessage h r m now s).said →
        Part r.id everyKind ts s (Entry.outcome ⟨.receive frame, h, now, r, s⟩).said := by
      intro ts hp
      change Part r.id everyKind ts s (receive h r frame now s).said
      rw [hrec]
      exact hp.noteSaid_said
    by_cases hk : m.kind = .hello
    · by_cases ht : Taken r.id m s
      · exact Or.inr (Or.inl ⟨m, hm, hk, ht⟩)
      · refine Or.inr (Or.inr (Or.inr (hout ?_)))
        rw [onMessage_hello hk]
        exact (part_onHello_refused ht).mono (hkinds _) (by decide)
    · by_cases hp : FromPeer m s
      · by_cases hpres : m.kind = .presence
        · exact Or.inr (Or.inr (Or.inl ⟨m, Entry.presence_eq_some.mpr ⟨hm, hpres, hp⟩⟩))
        · refine Or.inr (Or.inr (Or.inr (hout ?_)))
          rw [onMessage_other hk hp]
          refine Part.mono (Part.of_link (part_onOther hpres) rfl rfl) (hkinds _) ?_
          decide
      · refine Or.inr (Or.inr (Or.inr (hout ?_)))
        rw [onMessage_ignored hk hp]
        exact Part.silent rfl rfl rfl

end VoidPalabra.Sync
