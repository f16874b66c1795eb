import VoidPalabra.Persist

/-!
# One frame

`"VPS1"`, the length of the header, the header as JSON, and the payload as it is. Everything
about a frame is checked before any of it is believed.
-/

namespace VoidPalabra.Sync

/-- `Kind`. -/
inductive Kind where
  /-- Who I am, and which session this is. -/
  | hello
  /-- My shareable state, whole. -/
  | doc
  /-- I merged the state with this digest. -/
  | ack
  /-- I will not merge the state with this digest. -/
  | refuse
  /-- Send me these files. -/
  | want
  /-- One file. -/
  | content
  /-- I do not have these files, or will not serve them. -/
  | absent
  /-- About who is here. -/
  | presence
  /-- I am leaving this session. -/
  | bye
  deriving DecidableEq

/-- `kind_name`. -/
def kindName : Kind → CString
  | .hello => .ofLit "hello"
  | .doc => .ofLit "doc"
  | .ack => .ofLit "ack"
  | .refuse => .ofLit "refuse"
  | .want => .ofLit "want"
  | .content => .ofLit "content"
  | .absent => .ofLit "absent"
  | .presence => .ofLit "presence"
  | .bye => .ofLit "bye"

/-- The list that `kind_from` walks. -/
def allKinds : List Kind :=
  [.hello, .doc, .ack, .refuse, .want, .content, .absent, .presence, .bye]

/-- `kind_from`. -/
def kindFrom (s : Bytes) : Option Kind := allKinds.find? fun k => (kindName k).bytes == s

/-- `carries_payload`. -/
def carriesPayload (k : Kind) : Bool := k == .doc || k == .content || k == .presence

/-- `Message`; the sender is its `from`. -/
structure Message where
  /-- What it is. -/
  kind : Kind := .hello
  /-- The sender's replica id. -/
  sender : Bytes := []
  /-- The sender's nonce for this session. -/
  session : Bytes := []
  /-- On a hello, whether the sender has heard the receiver; else an order of its own. -/
  seq : ℕ := 0
  /-- Which state. -/
  digest : Bytes := []
  /-- Why. -/
  reason : Bytes := []
  /-- Which files. -/
  addresses : List Bytes := []
  /-- Which file. -/
  address : Bytes := []
  /-- A document, a file or a presence. -/
  payload : Bytes := []
  /-- The slot for a signature. -/
  auth : Bytes := []
  deriving DecidableEq

/-- `Limits`. -/
structure Limits where
  /-- Of any frame. -/
  maxFrame : ℕ := 64 * 1024 * 1024
  /-- Of a presence. -/
  maxPresence : ℕ := 16 * 1024
  /-- Of a want and of an absent. -/
  maxAddresses : ℕ := 256

namespace Key

def kind : CString := .ofLit "kind"
def sender : CString := .ofLit "from"
def session : CString := .ofLit "session"
def seq : CString := .ofLit "seq"
def digest : CString := .ofLit "digest"
def reason : CString := .ofLit "reason"
def addresses : CString := .ofLit "addresses"
def address : CString := .ofLit "address"
def auth : CString := .ofLit "auth"

end Key

/-- `kMagic`. -/
def kMagic : Bytes := lit "VPS1"

/-! ### Writing -/

/-- A member that is left out when it is empty. -/
def textMember (k : CString) (b : Bytes) : List (CString × Json) :=
  if b.isEmpty then [] else [(k, .str (.ofBytes b))]

/-- The header of a frame. -/
def header (m : Message) : Json :=
  .obj ([(Key.kind, .str (kindName m.kind)), (Key.sender, .str (.ofBytes m.sender)),
      (Key.session, .str (.ofBytes m.session)), (Key.seq, .num (.ofInt m.seq))] ++
    textMember Key.digest m.digest ++
    textMember Key.reason m.reason ++
    (if m.addresses.isEmpty then []
      else [(Key.addresses, .arr (m.addresses.map fun a => .str (.ofBytes a)))]) ++
    textMember Key.address m.address ++
    textMember Key.auth (hexBytes m.auth))

/-- Four bytes, the least significant first. -/
def littleEndian (n : ℕ) : Bytes := [0, 1, 2, 3].map fun i => (n / 256 ^ i).toUInt8

/-- `encode_frame`. -/
def encodeFrame (m : Message) : Bytes :=
  kMagic ++ littleEndian (printed (header m)).length ++ printed (header m) ++ m.payload

/-! ### Reading -/

/-- A number of four bytes, the least significant first. -/
def readU32 (b : Bytes) : ℕ := (b.take 4).foldr (fun c n => c.toNat + 256 * n) 0

/-- `text`: a member that is text and not too long. -/
def text (h : Json) (k : CString) (required : Bool) (maxLen : ℕ) : Option Bytes :=
  match h.get k with
  | none => if required then none else some []
  | some (.str s) => if maxLen < s.bytes.length then none else some s.bytes
  | some _ => none

/-- A field of a frame, or the reason for refusing the frame. -/
def orReason {α : Type} (x : Option α) (reason : String) : Except Bytes α :=
  match x with
  | some v => .ok v
  | none => .error (lit reason)

/-- The sequence number. -/
def seqOf (h : Json) : Option ℕ :=
  match h.get Key.seq with
  | some (.num d) => if d.lt (.ofInt 0) || kMaxCounter.lt d then none else some d.floor
  | _ => none

/-- One of the addresses. -/
def addressOf (v : Json) : Except Bytes Bytes :=
  match v with
  | .str s => if 256 < s.bytes.length then .error (lit "bad address in 'addresses'") else .ok s.bytes
  | _ => .error (lit "bad address in 'addresses'")

/-- The addresses. -/
def addressesOf (limits : Limits) (h : Json) : Except Bytes (List Bytes) :=
  match h.get Key.addresses with
  | none => .ok []
  | some (.arr items) =>
    if limits.maxAddresses < items.length then .error (lit "more addresses than max_addresses")
    else items.mapM addressOf
  | some _ => .error (lit "bad 'addresses'")

/-- What a kind of frame may carry. -/
def checkPayload (limits : Limits) (kind : Kind) (payload : Bytes) : Except Bytes Unit :=
  if !carriesPayload kind && !payload.isEmpty then .error (lit "a payload on a kind that carries none")
  else if kind = .presence ∧ limits.maxPresence < payload.length then
    .error (lit "presence larger than max_presence")
  else .ok ()

/-- The checks of a header. -/
def readHeader (limits : Limits) (h : Json) (payload : Bytes) : Except Bytes Message := do
  let kind ← orReason ((text h Key.kind true 16).bind kindFrom) "unknown kind"
  let sender ← orReason (text h Key.sender true 256) "bad 'from'"
  let session ← orReason (text h Key.session true 256) "bad 'session'"
  let seq ← orReason (seqOf h) "bad 'seq'"
  let digest ← orReason (text h Key.digest false 128) "bad 'digest'"
  let reason ← orReason (text h Key.reason false 1024) "bad 'reason'"
  let address ← orReason (text h Key.address false 256) "bad 'address'"
  let addresses ← addressesOf limits h
  let auth ← orReason ((text h Key.auth false 4096).bind unhexStrict) "bad 'auth'"
  checkPayload limits kind payload
  pure { kind := kind, sender := sender, session := session, seq := seq, digest := digest,
         reason := reason, addresses := addresses, address := address, payload := payload,
         auth := auth }

/-- `decode_frame`; the error is the text left in `why`. -/
def decodeFrame (frame : Bytes) (limits : Limits) : Except Bytes Message :=
  if limits.maxFrame < frame.length then .error (lit "frame larger than max_frame")
  else if frame.length < 8 ∨ frame.take 4 ≠ kMagic then
    .error (lit "not a Void Palabra sync frame")
  else
    let n := readU32 (frame.drop 4)
    if frame.length - 8 < n then .error (lit "header length beyond the frame")
    else
      match parseJson ((frame.drop 8).take n) with
      | some (.obj members) => readHeader limits (.obj members) (frame.drop (8 + n))
      | _ => .error (lit "header is not a JSON object")

/-- The bytes a signature is over, `with_auth_blank`. -/
def authBlank (m : Message) : Bytes := encodeFrame { m with auth := [] }

end VoidPalabra.Sync
