import VoidPalabra.Session

/-!
# What a session does with a frame

A frame is decoded, its slot is checked when the host asks for that, and then each kind has
its own handler. The calls that a host makes on a session are collected at the end.
-/

namespace VoidPalabra.Sync

/-! ### Hello -/

/-- What a hello of the peer changes before it is answered. -/
def greet (m : Message) (now : ℤ) (s : Session) : Said :=
  let x : Said :=
    if s.peer.isEmpty then
      tell { type := .peerIdentified, peer := m.sender } { s with lastHeard := now, peer := m.sender }
    else ⟨{ s with lastHeard := now }, []⟩
  if m.session = s.peerSession then x
  else
    ⟨{ x.session with
        peerSession := m.session
        acked := []
        refused := []
        sent := []
        docSentAt := -1
        lastMerged := [] },
      x.out⟩

/-- Whether a hello opens the session, for the first time or for a restarted peer. -/
def opening (m : Message) (s : Session) : Bool :=
  s.state = .connecting || m.session ≠ s.peerSession

/-- A hello that is taken, which may open the session. -/
def welcome (m : Message) (now : ℤ) (s : Session) : Said :=
  let x := greet m now s
  if opening m s then { x with session := { x.session with state := .opened } } else x

/-- A hello that is taken and answered: a peer that has not heard this device yet is answered
every time it asks. -/
def answerHello (h : Host) (id : CString) (m : Message) (now : ℤ) (s : Session) : Said :=
  if m.seq = 0 ∨ opening m s then (welcome m now s).andThen (send h id { kind := .hello })
  else welcome m now s

/-- `on_message` of a hello. -/
def onHello (h : Host) (r : Replica) (m : Message) (now : ℤ) (s : Session) : Outcome :=
  if m.sender = r.id.bytes then
    (finish h r.id (lit "the peer is using this replica's id; one of the two must fork") true s).done r
  else if !s.peer.isEmpty && m.sender ≠ s.peer then
    (tell { type := .messageRefused, peer := s.peer,
            detail := lit "a different replica on this session" } s).done r
  else
    let x := answerHello h r.id m now s
    if opening m s then (tick h r now x.session).after x.out else x.done r

/-! ### States -/

/-- What comes of a state of the peer. -/
inductive Verdict where
  /-- It was merged; its digest. -/
  | merged (digest : Bytes)
  /-- It was not merged, why, and whether the two devices share an identity. -/
  | refused (why : Bytes) (collision : Bool)

/-- The checks of a state, and its merge. -/
def judge (r : Replica) (m : Message) : Except CanonicalError (Verdict × Replica) :=
  match parseJson m.payload with
  | none => .ok (.refused (lit "the state is not JSON") false, r)
  | some incoming =>
    match validate incoming with
    | .error why => .ok (.refused (lit "the state failed validation: " ++ why) false, r)
    | .ok () =>
      match canonDoc incoming with
      | .error e => .error e
      | .ok bytes =>
        if hexBytes (sha256 bytes) ≠ m.digest then
          .ok (.refused (lit "the state does not match its digest") false, r)
        else
          match r.merge incoming with
          | (.ok, r') => .ok (.merged (hexBytes (sha256 bytes)), r')
          | (.invalid why, r') => .ok (.refused why false, r')
          | (.identityCollision why, r') => .ok (.refused why true, r')

/-- A state that was merged. -/
def onMerged (h : Host) (r : Replica) (m : Message) (digest : Bytes) (now : ℤ) (s : Session) : Said :=
  let s := { s with lastMerged := digest }
  ((send h r.id { kind := .ack, digest := m.digest } s).andThen
    (tell { type := .merged, peer := s.peer, conflicts := r.conflicts.length,
            anomalies := (anomalies r.doc r.policy).length })).andThen
    (refreshWants h r now)

/-- A state that was refused. -/
def onRefused (h : Host) (id : CString) (m : Message) (why : Bytes) (collision : Bool)
    (s : Session) : Said :=
  let x := (send h id { kind := .refuse, digest := m.digest, reason := why.take 1000 } s).andThen
    (tell { type := .mergeRefused, peer := s.peer, detail := why })
  if collision then x.andThen (finish h id (lit "identity collision: " ++ why) true) else x

/-- `on_message` of a state. -/
def onDoc (h : Host) (r : Replica) (m : Message) (now : ℤ) (s : Session) : Outcome :=
  if !m.digest.isEmpty && m.digest = s.lastMerged then
    (send h r.id { kind := .ack, digest := m.digest } s).done r
  else
    match judge r m with
    | .error e => ⟨.error e, s, r⟩
    | .ok (.merged digest, r') => (onMerged h r' m digest now s).done r'
    | .ok (.refused why collision, r') => (onRefused h r'.id m why collision s).done r'

/-- `on_message` of an acknowledgement. -/
def onAck (h : Host) (r : Replica) (m : Message) (s : Session) : Outcome :=
  match refreshExport h r s with
  | (.error e, s') => ⟨.error e, s', r⟩
  | (.ok (), s') => ⟨.ok [], if m.digest = s'.exportDigest then { s' with acked := m.digest } else s', r⟩

/-- `on_message` of a refusal. -/
def onRefuse (m : Message) (s : Session) : Said :=
  tell { type := .peerRefusedState, peer := s.peer, detail := m.reason } { s with refused := m.digest }

/-! ### Files -/

/-- The loop of `on_message` over the addresses of a want, with those that are not served. -/
def onWant (h : Host) (r : Replica) : List Bytes → List Bytes → Session → Outcome
  | [], absent, s =>
    (if absent.isEmpty then ⟨s, []⟩
      else send h r.id { kind := .absent, addresses := absent } s : Said).done r
  | a :: rest, absent, s =>
    match refreshExport h r s with
    | (.error e, s') => ⟨.error e, s', r⟩
    | (.ok (), s') =>
      match if s'.serveable.contains a then h.read.bind (· a) else none with
      | some bytes =>
        (onWant h r rest absent s').after
          (send h r.id { kind := .content, address := a, payload := bytes } s').out
      | none => onWant h r rest (absent ++ [a]) s'

/-- `on_message` of a file. -/
def onContent (m : Message) (s : Session) : Said :=
  match s.wants[m.address]? with
  | none =>
    tell { type := .messageRefused, peer := s.peer, detail := lit "a file nobody asked for",
           address := m.address } s
  | some w =>
    if w.state ≠ .requested then
      tell { type := .messageRefused, peer := s.peer, detail := lit "a file nobody asked for",
             address := m.address } s
    else if !contentMatches m.address m.payload then
      tell { type := .contentRefused, peer := s.peer, detail := lit "bytes did not match their address",
             address := m.address }
        { s with wants := s.wants.insert m.address { w with state := .wanted } }
    else
      tell { type := .contentArrived, peer := s.peer, address := m.address, bytes := m.payload }
        { s with wants := s.wants.erase m.address }

/-- One address that the peer does not serve. -/
def onAbsentOne (a : Bytes) (s : Session) : Said :=
  match s.wants[a]? with
  | none => ⟨s, []⟩
  | some w =>
    if w.state ≠ .requested then ⟨s, []⟩
    else
      tell { type := .contentUnavailable, peer := s.peer, detail := lit "the peer does not serve it",
             address := a }
        { s with wants := s.wants.insert a { w with state := .unavailable } }

/-- `on_message` of a list of files that the peer does not serve. -/
def onAbsent : List Bytes → Session → Said
  | [], s => ⟨s, []⟩
  | a :: rest, s => (onAbsentOne a s).andThen (onAbsent rest)

/-- `on_message` of a presence: a late or a repeated one is dropped. -/
def onPresence (m : Message) (now : ℤ) (s : Session) : Said :=
  if m.seq ≤ s.presenceIn then ⟨s, []⟩
  else
    tell { type := .presence, peer := s.peer, bytes := m.payload }
      { s with presenceIn := m.seq, presenceSeen := now, presenceLive := true }

/-- `on_message` of a farewell. -/
def onBye (h : Host) (id : CString) (m : Message) (s : Session) : Said :=
  finish h id (lit "the peer said goodbye" ++
    if m.reason.isEmpty then [] else lit ": " ++ m.reason) false s

/-! ### Any frame -/

/-- The handlers of everything but hello. -/
def onOther (h : Host) (r : Replica) (m : Message) (now : ℤ) (s : Session) : Outcome :=
  match m.kind with
  | .hello => ⟨.ok [], s, r⟩
  | .doc => onDoc h r m now s
  | .ack => onAck h r m s
  | .refuse => (onRefuse m s).done r
  | .want => onWant h r m.addresses [] s
  | .content => (onContent m s).done r
  | .absent => (onAbsent m.addresses s).done r
  | .presence => (onPresence m now s).done r
  | .bye => (onBye h r.id m s).done r

/-- `Session::on_message`: nothing but hello is heard from a peer that has not said who it
is. -/
def onMessage (h : Host) (r : Replica) (m : Message) (now : ℤ) (s : Session) : Outcome :=
  if m.kind = .hello then onHello h r m now s
  else if s.peer.isEmpty || m.sender ≠ s.peer then ⟨.ok [], s, r⟩
  else onOther h r m now { s with lastHeard := now }

/-- Whether the host rejects the slot of a frame. -/
def Host.rejects (h : Host) (m : Message) : Bool :=
  match h.verify with
  | some f => !f (authBlank m) m.auth
  | none => false

/-- A call that said something was heard. -/
def Outcome.noteSaid (now : ℤ) (o : Outcome) : Outcome :=
  match o.result with
  | .ok out => if speaks out then { o with session := { o.session with lastSaid := now } } else o
  | .error _ => o

/-- `Session::receive`. -/
def receive (h : Host) (r : Replica) (frame : Bytes) (now : ℤ) (s : Session) : Outcome :=
  if s.state = .closed then ⟨.ok [], s, r⟩
  else
    match decodeFrame frame s.limits with
    | .error why => (tell { type := .messageRefused, peer := s.peer, detail := why } s).done r
    | .ok m =>
      if h.rejects m then
        (tell { type := .messageRefused, peer := s.peer, detail := lit "signature did not verify" } s).done r
      else (onMessage h r m now s).noteSaid now

/-! ### What the host starts -/

/-- `Session::publish_presence`. -/
def publishPresence (h : Host) (id : CString) (payload : Bytes) (now : ℤ) (s : Session) : Said :=
  if s.state ≠ .opened then ⟨s, []⟩
  else if s.limits.maxPresence < payload.length then
    tell { type := .messageRefused, peer := s.peer, detail := lit "presence larger than max_presence" } s
  else
    ⟨{ s with presenceOut := s.presenceOut + 1, lastSaid := now },
      (send h id { kind := .presence, seq := s.presenceOut + 1, payload := payload } s).out⟩

/-- What becomes of a want that the host asks for. -/
def Want.release (w : Want) : Want :=
  if w.state = .deferred ∨ w.state = .unavailable then { w with state := .wanted, attempts := 0 } else w

/-- `Session::fetch`. -/
def fetch (h : Host) (id : CString) (address : Bytes) (now : ℤ) (s : Session) : Said :=
  match s.wants[address]? with
  | none => ⟨s, []⟩
  | some w => noteSaid now (ask h id now { s with wants := s.wants.insert address w.release })

/-- What becomes of a want when the policy changes. -/
def Want.follow (policy : FetchPolicy) (w : Want) : Want :=
  if policy = .automatic ∧ w.state = .deferred then { w with state := .wanted, attempts := 0 }
  else if policy = .cautious ∧ w.state = .wanted then { w with state := .deferred }
  else w

/-- `Session::set_fetch`. -/
def setFetch (h : Host) (id : CString) (policy : FetchPolicy) (now : ℤ) (s : Session) : Said :=
  noteSaid now (ask h id now
    { s with fetch := policy, wants := s.wants.map fun _ w => w.follow policy })

/-- `Session::close`. -/
def close (h : Host) (id : CString) (reason : Bytes) (s : Session) : Said := finish h id reason true s

/-- `Session::content_state`. -/
def contentState (h : Host) (address : Bytes) (s : Session) : ContentState :=
  match s.wants[address]? with
  | some w => w.state
  | none => if h.has address then .held else .unknown

/-- `Session::in_sync`. -/
def inSync (r : Replica) (s : Session) : Bool :=
  s.state = .opened && !s.exportDigest.isEmpty && s.acked = s.exportDigest &&
    s.seenRevision = r.revision

/-- A call on a session. -/
inductive Call where
  /-- `start`. -/
  | start
  /-- `receive`. -/
  | receive (frame : Bytes)
  /-- `tick`. -/
  | tick
  /-- `publish_presence`. -/
  | publishPresence (payload : Bytes)
  /-- `fetch`. -/
  | fetch (address : Bytes)
  /-- `set_fetch`. -/
  | setFetch (policy : FetchPolicy)
  /-- `close`. -/
  | close (reason : Bytes)

/-- What a call does, at a time and with the answers of a host. -/
def Call.run (c : Call) (h : Host) (now : ℤ) (r : Replica) (s : Session) : Outcome :=
  match c with
  | .start => (Sync.start h r now s).done r
  | .receive frame => Sync.receive h r frame now s
  | .tick => Sync.tick h r now s
  | .publishPresence payload => (Sync.publishPresence h r.id payload now s).done r
  | .fetch address => (Sync.fetch h r.id address now s).done r
  | .setFetch policy => (Sync.setFetch h r.id policy now s).done r
  | .close reason => (Sync.close h r.id reason s).done r

end VoidPalabra.Sync
