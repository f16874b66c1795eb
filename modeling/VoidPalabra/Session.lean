import VoidPalabra.Anomaly
import VoidPalabra.Export
import VoidPalabra.References
import VoidPalabra.Wire

/-!
# One session

The relationship between this device and one peer: a state machine that is handed frames
and the time, and hands back frames to send and events to show. What the host's functions
answer is given to each call, and what a call says is one list of frames and events in the
order in which they come up. A call may throw; then what it was about to say is lost and
what it changed stays changed.
-/

namespace VoidPalabra.Sync

/-! ### What the host supplies and what comes out -/

/-- `FetchPolicy`. -/
inductive FetchPolicy where
  /-- Ask for every missing file as soon as it is known. -/
  | automatic
  /-- Ask for nothing until the host says so. -/
  | cautious
  deriving DecidableEq

/-- The functions of `Host`, as they answer during one call. -/
structure Host where
  /-- What is shared. -/
  share : ExportSet := shareEverything
  /-- `have`: whether the host holds a file. -/
  holds : Option (Bytes → Bool) := none
  /-- Reads a file to serve it. -/
  read : Option (Bytes → Option Bytes) := none
  /-- The bytes that go into a frame's slot. -/
  sign : Option (Bytes → Bytes) := none
  /-- Whether a slot fits its frame. -/
  verify : Option (Bytes → Bytes → Bool) := none

/-- `host_.have && host_.have(address)`. -/
def Host.has (h : Host) (address : Bytes) : Bool :=
  match h.holds with
  | some f => f address
  | none => false

/-- `Timing`. -/
structure Timing where
  /-- A state not acknowledged, a hello not answered. -/
  resend : ℤ := 2000
  /-- Give up on a peer that never says hello. -/
  helloTimeout : ℤ := 20000
  /-- A peer heard from, then not at all. -/
  silenceTimeout : ℤ := 60000
  /-- A requested file that did not arrive. -/
  contentTimeout : ℤ := 15000
  /-- Requests before a file is reported unavailable. -/
  contentAttempts : ℤ := 4
  /-- A presence that is not refreshed expires. -/
  presenceTtl : ℤ := 30000
  /-- Say something at least this often. -/
  keepalive : ℤ := 20000
  /-- The least time between two sends of a changed state. -/
  coalesce : ℤ := 0

/-- `Event::Type`. -/
inductive EventType where
  /-- The peer said who it is. -/
  | peerIdentified
  /-- A state of the peer was merged. -/
  | merged
  /-- A state of the peer was not merged. -/
  | mergeRefused
  /-- The peer refused a state. -/
  | peerRefusedState
  /-- A file that was asked for is here. -/
  | contentArrived
  /-- Bytes that did not match their address. -/
  | contentRefused
  /-- The peer does not have a file or gave up on it. -/
  | contentUnavailable
  /-- The latest presence of the peer. -/
  | presence
  /-- The peer's presence went stale. -/
  | presenceExpired
  /-- A frame was not acted on. -/
  | messageRefused
  /-- The session ended. -/
  | closed
  deriving DecidableEq

/-- `Event`. -/
structure Event where
  /-- What happened. -/
  type : EventType := .closed
  /-- The peer's replica id. -/
  peer : Bytes := []
  /-- Why. -/
  detail : Bytes := []
  /-- Which file. -/
  address : Bytes := []
  /-- A file or a presence. -/
  bytes : Bytes := []
  /-- How many conflicts the replica has. -/
  conflicts : ℕ := 0
  /-- How many anomalies the replica has. -/
  anomalies : ℕ := 0
  deriving DecidableEq

/-- What a call says: a frame, as the message in it, or an event. -/
inductive Output where
  /-- A frame for the peer. -/
  | frame (m : Message)
  /-- An event for the host. -/
  | event (e : Event)
  deriving DecidableEq

/-- The message of a frame. -/
def Output.message? : Output → Option Message
  | .frame m => some m
  | .event _ => none

/-- The frames of `Step::send`. -/
def framesOf (out : List Output) : List Bytes := (out.filterMap Output.message?).map encodeFrame

/-- Whether `Step::send` is not empty. -/
def speaks (out : List Output) : Bool := out.any fun o => o.message?.isSome

/-- `ContentState`. -/
inductive ContentState where
  /-- Not named by anything this device can see. -/
  | unknown
  /-- Named, and the host has it. -/
  | held
  /-- Named and missing; the host has not said to fetch it. -/
  | deferred
  /-- Named and missing, to be asked for. -/
  | wanted
  /-- Asked for. -/
  | requested
  /-- Asked for, and not to be had from this peer. -/
  | unavailable
  deriving DecidableEq

/-- `Session::State`. -/
inductive State where
  /-- No hello was heard yet. -/
  | connecting
  /-- `open`: the peer said hello. -/
  | opened
  /-- Over. -/
  | closed
  deriving DecidableEq

/-- `Session::Want`. -/
structure Want where
  /-- Where the request stands. -/
  state : ContentState := .wanted
  /-- When it was last asked for. -/
  askedAt : ℤ := 0
  /-- How often it was asked for. -/
  attempts : ℕ := 0
  deriving DecidableEq

/-- `Session`, without the replica and the host's functions. -/
structure Session where
  /-- Which fields name files. -/
  references : ReferencePolicy := {}
  /-- Whether missing files are asked for. -/
  fetch : FetchPolicy := .automatic
  /-- The timers. -/
  timing : Timing := {}
  /-- The limits. -/
  limits : Limits := {}
  /-- Where the session stands. -/
  state : State := .connecting
  /-- The name of this session. -/
  nonce : Bytes := []
  /-- The peer's replica id, empty until its hello. -/
  peer : Bytes := []
  /-- The name of the peer's session. -/
  peerSession : Bytes := []
  /-- When the session started. -/
  started : ℤ := 0
  /-- When the peer was last heard. -/
  lastHeard : ℤ := 0
  /-- When something was last said. -/
  lastSaid : ℤ := 0
  /-- The revision that the export was computed at. -/
  seenRevision : ℕ := 2 ^ 64 - 1
  /-- The shareable state as text. -/
  exportJson : Bytes := []
  /-- The digest of the shareable state. -/
  exportDigest : Bytes := []
  /-- The files that may be served. -/
  serveable : ByteSet := ∅
  /-- The digest the peer acknowledged. -/
  acked : Bytes := []
  /-- The digest the peer refused. -/
  refused : Bytes := []
  /-- The digest most recently sent. -/
  sent : Bytes := []
  /-- When a state was last sent. -/
  docSentAt : ℤ := -1
  /-- The digest of the peer's state last merged. -/
  lastMerged : Bytes := []
  /-- The files that are named and missing. -/
  wants : Std.ExtTreeMap Bytes Want compare := ∅
  /-- The last number of a presence that was said. -/
  presenceOut : ℕ := 0
  /-- The last number of a presence that was shown. -/
  presenceIn : ℕ := 0
  /-- When a presence was last shown. -/
  presenceSeen : ℤ := -1
  /-- Whether a presence is shown. -/
  presenceLive : Bool := false

/-- What a part of a call leaves and says. -/
structure Said where
  /-- The session after it. -/
  session : Session
  /-- What it says. -/
  out : List Output

/-- One part of a call after another. -/
def Said.andThen (x : Said) (f : Session → Said) : Said :=
  ⟨(f x.session).session, x.out ++ (f x.session).out⟩

/-- What a call leaves; what it says is lost when it throws. -/
structure Outcome where
  /-- What it says. -/
  result : Except CanonicalError (List Output)
  /-- The session after it. -/
  session : Session
  /-- The replica after it. -/
  replica : Replica

/-- A call that does not throw and leaves the replica alone. -/
def Said.done (x : Said) (r : Replica) : Outcome := ⟨.ok x.out, x.session, r⟩

/-- What is said before the rest of a call. -/
def Outcome.after (out : List Output) (o : Outcome) : Outcome :=
  { o with result := o.result.map (out ++ ·) }

/-! ### Sending -/

/-- What `Session::send` makes of a message. -/
def stamp (h : Host) (id : CString) (s : Session) (m : Message) : Message :=
  let m := { m with
    sender := id.bytes
    session := s.nonce
    seq := if m.kind = .hello then (if s.peer.isEmpty then 0 else 1) else m.seq }
  match h.sign with
  | some f => { m with auth := f (authBlank m) }
  | none => m

/-- `Session::send`. -/
def send (h : Host) (id : CString) (m : Message) (s : Session) : Said :=
  ⟨s, [.frame (stamp h id s m)]⟩

/-- An event and nothing else. -/
def tell (e : Event) (s : Session) : Said := ⟨s, [.event e]⟩

/-- `Session::finish`. -/
def finish (h : Host) (id : CString) (why : Bytes) (sayBye : Bool) (s : Session) : Said :=
  if s.state = .closed then ⟨s, []⟩
  else
    ⟨{ s with state := .closed },
      (if sayBye then (send h id { kind := .bye, reason := why } s).out else []) ++
        [.event { type := .closed, peer := s.peer, detail := why }]⟩

/-! ### Derived state -/

/-- The files that the shareable state names. -/
def servedBy (exported : Json) (policy : JoinPolicy) (refs : ReferencePolicy) : ByteSet :=
  if refs.fields.isEmpty then ∅
  else Std.ExtTreeSet.ofList ((references (VoidPalabra.flatten exported policy) refs).map
    Reference.address) compare

/-- `Session::refresh_export`; when it throws, the text is the new one and the digest is not. -/
def refreshExport (h : Host) (r : Replica) (s : Session) : Except CanonicalError Unit × Session :=
  if s.seenRevision = r.revision then (.ok (), s)
  else
    let exported := exportable r.doc h.share r.policy
    let s := { s with seenRevision := r.revision, exportJson := printed exported }
    match canonDoc exported with
    | .error e => (.error e, s)
    | .ok bytes =>
      (.ok (), { s with
        exportDigest := hexBytes (sha256 bytes)
        serveable := servedBy exported r.policy s.references })

/-- The addresses that a replica names. -/
def namedBy (r : Replica) (refs : ReferencePolicy) : ByteSet :=
  Std.ExtTreeSet.ofList ((references r.flatten refs).map Reference.address) compare

/-- The frames of `ask`: a batch is said when the next address would not fit. -/
def askBatches (max : ℕ) : List Bytes → List Bytes → List (List Bytes)
  | batch, [] => if batch.isEmpty then [] else [batch]
  | batch, a :: rest =>
    if batch.length = max then batch :: askBatches max [a] rest
    else askBatches max (batch ++ [a]) rest

/-- The addresses that are to be asked for. -/
def Session.wanted (s : Session) : List Bytes :=
  (s.wants.toList.filter fun kv => kv.2.state = .wanted).map Prod.fst

/-- What becomes of a want that is asked for. -/
def Want.ask (now : ℤ) (w : Want) : Want :=
  if w.state = .wanted then { state := .requested, askedAt := now, attempts := w.attempts + 1 } else w

/-- `Session::ask`. -/
def ask (h : Host) (id : CString) (now : ℤ) (s : Session) : Said :=
  if s.state ≠ .opened then ⟨s, []⟩
  else
    ⟨{ s with wants := s.wants.map fun _ w => w.ask now },
      (askBatches s.limits.maxAddresses [] s.wanted).flatMap fun batch =>
        (send h id { kind := .want, addresses := batch } s).out⟩

/-- The second loop of `refresh_wants`. -/
def enterWant (h : Host) (fetch : FetchPolicy) (wants : Std.ExtTreeMap Bytes Want compare)
    (a : Bytes) : Std.ExtTreeMap Bytes Want compare :=
  if wants.contains a || h.has a then wants
  else wants.insert a { state := if fetch = .automatic then .wanted else .deferred }

/-- `Session::refresh_wants`. -/
def refreshWants (h : Host) (r : Replica) (now : ℤ) (s : Session) : Said :=
  if s.references.fields.isEmpty then ⟨s, []⟩
  else
    let named := namedBy r s.references
    let kept := s.wants.filter fun a _ => named.contains a && !h.has a
    ask h r.id now { s with wants := named.toList.foldl (enterWant h s.fetch) kept }

/-! ### Time -/

/-- `Session::start`. -/
def start (h : Host) (r : Replica) (now : ℤ) (s : Session) : Said :=
  let s := { s with
    nonce := r.id.bytes ++ 0x40 :: (if now < 0 then [0x2D] else []) ++ decimal now.natAbs
    started := now
    lastHeard := now
    state := .connecting }
  ⟨{ s with lastSaid := now }, (send h r.id { kind := .hello } s).out⟩

/-- `tick` before the peer's hello. -/
def tickConnecting (h : Host) (id : CString) (now : ℤ) (s : Session) : Said :=
  if s.timing.helloTimeout ≤ now - s.started then
    finish h id (lit "the peer never said hello") false s
  else if s.timing.resend ≤ now - s.lastSaid then
    ⟨{ s with lastSaid := now }, (send h id { kind := .hello } s).out⟩
  else ⟨s, []⟩

/-- Whether a changed state waits for the end of the coalescing window. -/
def settling (now : ℤ) (s : Session) : Bool :=
  0 < s.timing.coalesce && 0 ≤ s.docSentAt && now - s.docSentAt < s.timing.coalesce

/-- The part of `tick` that looks for changes of the replica. -/
def tickRefresh (h : Host) (r : Replica) (now : ℤ) (s : Session) : Outcome :=
  if settling now s then ⟨.ok [], s, r⟩
  else
    match refreshExport h r s with
    | (.error e, s') => ⟨.error e, s', r⟩
    | (.ok (), s') =>
      if s'.seenRevision ≠ s.seenRevision then (refreshWants h r now s').done r else ⟨.ok [], s', r⟩

/-- A state that the peer sent is one that the peer holds. -/
def echoed (s : Session) : Session :=
  if !s.exportDigest.isEmpty && s.exportDigest = s.lastMerged then { s with acked := s.exportDigest }
  else s

/-- The state, when it is new to the peer or was not answered in time. -/
def sayDoc (h : Host) (id : CString) (now : ℤ) (s : Session) : Said :=
  if s.exportDigest ≠ s.acked ∧ s.exportDigest ≠ s.refused ∧
      (s.exportDigest ≠ s.sent ∨ s.timing.resend ≤ now - s.docSentAt) then
    ⟨{ s with sent := s.exportDigest, docSentAt := now, lastSaid := now },
      (send h id { kind := .doc, digest := s.exportDigest, payload := s.exportJson } s).out⟩
  else ⟨s, []⟩

/-- The part of `tick` that says the state. -/
def tickDoc (h : Host) (id : CString) (now : ℤ) (s : Session) : Said :=
  if settling now s then ⟨s, []⟩ else sayDoc h id now (echoed s)

/-- Whether a request waited too long. -/
def Want.overdue (timing : Timing) (now : ℤ) (w : Want) : Bool :=
  w.state = .requested && !(now - w.askedAt < timing.contentTimeout)

/-- What becomes of a want when time passes. -/
def Want.tick (timing : Timing) (now : ℤ) (w : Want) : Want :=
  if w.overdue timing now then
    { w with state := if timing.contentAttempts ≤ w.attempts then .unavailable else .wanted }
  else w

/-- The requests that are given up. -/
def Session.givenUp (now : ℤ) (s : Session) : List Bytes :=
  (s.wants.toList.filter fun kv =>
    kv.2.overdue s.timing now && s.timing.contentAttempts ≤ kv.2.attempts).map Prod.fst

/-- The part of `tick` that looks after the requests. -/
def tickWants (h : Host) (id : CString) (now : ℤ) (s : Session) : Said :=
  (⟨{ s with wants := s.wants.map fun _ w => w.tick s.timing now },
    (s.givenUp now).map fun a =>
      .event { type := .contentUnavailable, peer := s.peer, detail := lit "no answer", address := a }⟩ :
    Said).andThen (ask h id now)

/-- The part of `tick` that lets a presence expire. -/
def tickPresence (now : ℤ) (s : Session) : Said :=
  if s.presenceLive && s.timing.presenceTtl ≤ now - s.presenceSeen then
    tell { type := .presenceExpired, peer := s.peer } { s with presenceLive := false }
  else ⟨s, []⟩

/-- What was said counts as having been heard from. -/
def noteSaid (now : ℤ) (x : Said) : Said :=
  if speaks x.out then { x with session := { x.session with lastSaid := now } } else x

/-- The end of `tick`. -/
def tickKeepalive (h : Host) (id : CString) (now : ℤ) (s : Session) : Said :=
  if s.timing.keepalive ≤ now - s.lastSaid then
    ⟨{ s with lastSaid := now }, (send h id { kind := .hello } s).out⟩
  else ⟨s, []⟩

/-- `tick` after changes of the replica were looked for. -/
def tickRest (h : Host) (id : CString) (now : ℤ) (x : Said) : Said :=
  (noteSaid now (((x.andThen (tickDoc h id now)).andThen (tickWants h id now)).andThen
    (tickPresence now))).andThen (tickKeepalive h id now)

/-- `Session::tick`. -/
def tick (h : Host) (r : Replica) (now : ℤ) (s : Session) : Outcome :=
  match s.state with
  | .closed => ⟨.ok [], s, r⟩
  | .connecting => (tickConnecting h r.id now s).done r
  | .opened =>
    if s.timing.silenceTimeout ≤ now - s.lastHeard then
      (finish h r.id (lit "the peer went silent") false s).done r
    else
      match tickRefresh h r now s with
      | ⟨.error e, s', r'⟩ => ⟨.error e, s', r'⟩
      | ⟨.ok out, s', r'⟩ => (tickRest h r.id now ⟨s', out⟩).done r'

end VoidPalabra.Sync
