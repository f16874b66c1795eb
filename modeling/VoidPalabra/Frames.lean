import VoidPalabra.Extend
import VoidPalabra.Wire

/-!
# A frame read back

A message is read back from its frame as a C string would hold its fields, or not at all. A
header whose length does not fit into four bytes changes nothing about that: its beginning
is no object.
-/

namespace VoidPalabra.Sync

/-- A field as a C string holds it. -/
def cut (b : Bytes) : Bytes := (CString.ofBytes b).bytes

/-- A message as a frame holds it. -/
def Message.cut (m : Message) : Message :=
  { m with
    sender := Sync.cut m.sender
    session := Sync.cut m.session
    digest := Sync.cut m.digest
    reason := Sync.cut m.reason
    addresses := m.addresses.map Sync.cut
    address := Sync.cut m.address }

theorem cut_of_noNul {b : Bytes} (h : (0 : UInt8) ∉ b) : cut b = b := by
  rw [cut, CString.ofBytes]
  exact List.takeWhile_eq_self_iff.mpr fun c hc => by
    simpa using fun he : c = 0 => h (he ▸ hc)

theorem cut_bytes (s : CString) : cut s.bytes = s.bytes := cut_of_noNul s.noNul

/-- What a message of a kind must be to be read back with a payload. -/
structure Fits (limits : Limits) (m : Message) (payload : Bytes) : Prop where
  /-- The sender is not too long. -/
  sender : (cut m.sender).length ≤ 256
  /-- Nor is the session, -/
  session : (cut m.session).length ≤ 256
  /-- the digest, -/
  digest : (cut m.digest).length ≤ 128
  /-- the reason, -/
  reason : (cut m.reason).length ≤ 1024
  /-- the address -/
  address : (cut m.address).length ≤ 256
  /-- or the list of addresses, -/
  addresses : m.addresses.length ≤ limits.maxAddresses
  /-- or one of them, -/
  each : ∀ a ∈ m.addresses, (cut a).length ≤ 256
  /-- or the slot. -/
  auth : (hexBytes m.auth).length ≤ 4096
  /-- The payload is one that the kind may carry. -/
  payload : checkPayload limits m.kind payload = .ok ()

/-! ### The header -/

theorem lookup_textMember (k k' : CString) (b : Bytes) :
    Json.lookup k (textMember k' b) =
      if k' = k ∧ b.isEmpty = false then some (.str (.ofBytes b)) else none := by
  unfold textMember
  cases hb : b.isEmpty with
  | true => simp
  | false => simp [Json.lookup_cons]

theorem text_eq_some {h : Json} {k : CString} {required : Bool} {n : ℕ} {b v : Bytes}
    (hk : h.get k = if b.isEmpty = false then some (.str (.ofBytes b)) else none)
    (hr : required = false) : text h k required n = some v ↔ (cut b).length ≤ n ∧ v = cut b := by
  subst hr
  unfold text
  rw [hk]
  cases hb : b.isEmpty with
  | true =>
    rw [List.isEmpty_iff.mp hb]
    simp [cut, CString.ofBytes, eq_comm]
  | false =>
    simp only [if_true]
    change (if n < (cut b).length then none else some (cut b)) = some v ↔ _
    split_ifs with hn
    · simp [hn]
    · simp [not_lt.mp hn, eq_comm]

theorem text_required {h : Json} {k : CString} {n : ℕ} {s : CString} {v : Bytes}
    (hk : h.get k = some (.str s)) : text h k true n = some v ↔ s.bytes.length ≤ n ∧ v = s.bytes := by
  unfold text
  rw [hk]
  dsimp only
  split_ifs with hn
  · simp [hn]
  · simp [not_lt.mp hn, eq_comm]

section

variable (m : Message)

theorem get_header_kind : (header m).get Key.kind = some (.str (kindName m.kind)) := rfl

theorem get_header_sender : (header m).get Key.sender = some (.str (.ofBytes m.sender)) := rfl

theorem get_header_session : (header m).get Key.session = some (.str (.ofBytes m.session)) := rfl

theorem get_header_seq : (header m).get Key.seq = some (.num (.ofInt m.seq)) := rfl

/-- The list of addresses is the member that is no text. -/
def addressMember : List (CString × Json) :=
  if m.addresses.isEmpty then []
  else [(Key.addresses, .arr (m.addresses.map fun a => .str (.ofBytes a)))]

theorem lookup_addressMember (k : CString) :
    Json.lookup k (addressMember m) =
      if Key.addresses = k ∧ m.addresses.isEmpty = false then
        some (.arr (m.addresses.map fun a => .str (.ofBytes a)))
      else none := by
  unfold addressMember
  cases m.addresses.isEmpty with
  | true => simp
  | false => simp [Json.lookup_cons]

/-- A member that is not one of the first four is looked up among the others. -/
theorem get_header_of_ne {k : CString}
    (h : Key.kind ≠ k ∧ Key.sender ≠ k ∧ Key.session ≠ k ∧ Key.seq ≠ k) :
    (header m).get k =
      (((((Json.lookup k (textMember Key.digest m.digest)).or
        (Json.lookup k (textMember Key.reason m.reason))).or (Json.lookup k (addressMember m))).or
        (Json.lookup k (textMember Key.address m.address))).or
        (Json.lookup k (textMember Key.auth (hexBytes m.auth)))) := by
  change Json.lookup k (_ ++ addressMember m ++ _ ++ _) = _
  simp only [Json.lookup_append, Json.lookup_cons, Json.lookup_nil, if_neg h.1, if_neg h.2.1,
    if_neg h.2.2.1, if_neg h.2.2.2, Option.none_or]

theorem get_header_digest : (header m).get Key.digest =
    if m.digest.isEmpty = false then some (.str (.ofBytes m.digest)) else none := by
  rw [get_header_of_ne m (by decide)]
  simp only [lookup_textMember, lookup_addressMember]
  simp +decide [Option.or_none]

theorem get_header_reason : (header m).get Key.reason =
    if m.reason.isEmpty = false then some (.str (.ofBytes m.reason)) else none := by
  rw [get_header_of_ne m (by decide)]
  simp only [lookup_textMember, lookup_addressMember]
  simp +decide [Option.or_none]

theorem get_header_addresses : (header m).get Key.addresses =
    if m.addresses.isEmpty = false then some (.arr (m.addresses.map fun a => .str (.ofBytes a)))
    else none := by
  rw [get_header_of_ne m (by decide)]
  simp only [lookup_textMember, lookup_addressMember]
  simp +decide [Option.or_none]

theorem get_header_address : (header m).get Key.address =
    if m.address.isEmpty = false then some (.str (.ofBytes m.address)) else none := by
  rw [get_header_of_ne m (by decide)]
  simp only [lookup_textMember, lookup_addressMember]
  simp +decide [Option.or_none]

theorem get_header_auth : (header m).get Key.auth =
    if (hexBytes m.auth).isEmpty = false then some (.str (.ofBytes (hexBytes m.auth))) else none := by
  rw [get_header_of_ne m (by decide)]
  simp only [lookup_textMember, lookup_addressMember]
  simp +decide

end

theorem kindFrom_kindName (k : Kind) : kindFrom (kindName k).bytes = some k := by
  cases k <;> decide

theorem kindName_length (k : Kind) : (kindName k).bytes.length ≤ 16 := by
  cases k <;> decide

theorem orReason_eq_ok {α : Type} {x : Option α} {why : String} {v : α} :
    orReason x why = .ok v ↔ x = some v := by
  cases x with
  | none => simp [orReason]
  | some w => simp [orReason]

/-- The sequence number is read back when its text is. -/
theorem seqOf_header {m : Message} (hs : m.seq ≤ 2 ^ 53) : seqOf (header m) = some m.seq := by
  rcases hs.lt_or_eq with h | h
  swap
  · unfold seqOf
    rw [get_header_seq, h]
    decide +kernel
  have hcounter := Replica.counterOf_ofInt h
  unfold Replica.counterOf at hcounter
  dsimp only at hcounter
  split_ifs at hcounter with hbad
  simp only [Bool.or_eq_true, not_or, Bool.not_eq_true] at hbad
  unfold seqOf
  rw [get_header_seq]
  dsimp only
  rw [hbad.1.1, hbad.1.2]
  exact hcounter

theorem addressOf_eq_ok {b a : Bytes} :
    addressOf (.str (.ofBytes b)) = .ok a ↔ (cut b).length ≤ 256 ∧ a = cut b := by
  change (if 256 < (cut b).length then .error _ else .ok (cut b)) = Except.ok a ↔ _
  split_ifs with hn
  · simp [hn]
  · simp [not_lt.mp hn, eq_comm]

theorem mapM_addressOf {as : List Bytes} : ∀ {out : List Bytes},
    ((as.map fun a => Json.str (.ofBytes a)).mapM addressOf = .ok out ↔
      (∀ a ∈ as, (cut a).length ≤ 256) ∧ out = as.map cut) := by
  induction as with
  | nil =>
    intro out
    rw [List.map_nil, List.mapM_nil, pure_eq_ok]
    simp
  | cons a as ih =>
    intro out
    rw [List.map_cons, List.mapM_cons, bind_eq_ok]
    simp only [bind_eq_ok, pure_eq_ok, addressOf_eq_ok, ih, List.forall_mem_cons, List.map_cons]
    constructor
    · rintro ⟨x, ⟨hx, rfl⟩, xs, ⟨hxs, rfl⟩, rfl⟩
      exact ⟨⟨hx, hxs⟩, rfl⟩
    · rintro ⟨⟨hx, hxs⟩, rfl⟩
      exact ⟨_, ⟨hx, rfl⟩, _, ⟨hxs, rfl⟩, rfl⟩

theorem addressesOf_header {limits : Limits} {m : Message} {out : List Bytes} :
    addressesOf limits (header m) = .ok out ↔
      (m.addresses.length ≤ limits.maxAddresses ∧ ∀ a ∈ m.addresses, (cut a).length ≤ 256) ∧
        out = m.addresses.map cut := by
  unfold addressesOf
  rw [get_header_addresses]
  cases ha : m.addresses with
  | nil => simp [eq_comm]
  | cons a as =>
    simp only [List.isEmpty_cons, if_true]
    rw [← ha, List.length_map]
    split_ifs with hn
    · simp [hn]
    · rw [mapM_addressOf]
      simp [not_lt.mp hn]

theorem auth_header {m : Message} {auth : Bytes} :
    (text (header m) Key.auth false 4096).bind unhexStrict = some auth ↔
      (hexBytes m.auth).length ≤ 4096 ∧ auth = m.auth := by
  have hnul : cut (hexBytes m.auth) = hexBytes m.auth := cut_of_noNul (hexify m.auth).noNul
  constructor
  · intro h
    obtain ⟨v, hv, hauth⟩ := Option.bind_eq_some_iff.mp h
    obtain ⟨hlen, rfl⟩ := (text_eq_some (get_header_auth m) rfl).mp hv
    rw [hnul] at hlen hauth
    rw [unhexStrict_hexBytes] at hauth
    exact ⟨hlen, (Option.some.inj hauth).symm⟩
  · rintro ⟨hlen, rfl⟩
    refine Option.bind_eq_some_iff.mpr ⟨cut (hexBytes m.auth), ?_, ?_⟩
    · exact (text_eq_some (get_header_auth m) rfl).mpr ⟨by rwa [hnul], rfl⟩
    · rw [hnul, unhexStrict_hexBytes]

/-- A header is read as the message it was made of. -/
theorem readHeader_eq_ok {limits : Limits} {m m' : Message} {payload : Bytes} (hs : m.seq ≤ 2 ^ 53) :
    readHeader limits (header m) payload = .ok m' ↔
      Fits limits m payload ∧ m' = { m.cut with payload := payload } := by
  have hkind : (text (header m) Key.kind true 16).bind kindFrom = some m.kind := by
    rw [(text_required (get_header_kind m)).mpr ⟨kindName_length _, rfl⟩]
    exact kindFrom_kindName _
  unfold readHeader
  simp only [bind_eq_ok, orReason_eq_ok, pure_eq_ok, hkind, seqOf_header hs,
    text_required (get_header_sender m), text_required (get_header_session m),
    text_eq_some (get_header_digest m) rfl, text_eq_some (get_header_reason m) rfl,
    text_eq_some (get_header_address m) rfl, addressesOf_header, auth_header]
  constructor
  · rintro ⟨_, hk, _, ⟨hsender, rfl⟩, _, ⟨hsession, rfl⟩, _, hseq, _, ⟨hdigest, rfl⟩, _, ⟨hreason, rfl⟩,
      _, ⟨haddress, rfl⟩, _, ⟨⟨haddresses, heach⟩, rfl⟩, _, ⟨hauth, rfl⟩, _, hpayload, rfl⟩
    cases hk
    cases hseq
    exact ⟨⟨hsender, hsession, hdigest, hreason, haddress, haddresses, heach, hauth, hpayload⟩, rfl⟩
  · rintro ⟨hfits, rfl⟩
    exact ⟨_, rfl, _, ⟨hfits.sender, rfl⟩, _, ⟨hfits.session, rfl⟩, _, rfl, _, ⟨hfits.digest, rfl⟩,
      _, ⟨hfits.reason, rfl⟩, _, ⟨hfits.address, rfl⟩, _, ⟨⟨hfits.addresses, hfits.each⟩, rfl⟩,
      _, ⟨hfits.auth, rfl⟩, _, hfits.payload, rfl⟩

/-! ### The frame -/

theorem length_littleEndian (n : ℕ) : (littleEndian n).length = 4 := rfl

theorem readU32_littleEndian (n : ℕ) (rest : Bytes) : readU32 (littleEndian n ++ rest) = n % 2 ^ 32 := by
  unfold readU32
  rw [List.take_left' (length_littleEndian n)]
  simp only [littleEndian, List.map_cons, List.map_nil, List.foldr_cons, List.foldr_nil,
    Nat.toUInt8_eq, UInt8.toNat_ofNat']
  omega

/-- The text of a header is an object's. -/
theorem printed_header (m : Message) : ∃ text, printed (header m) = 0x7B :: text := ⟨_, rfl⟩

theorem printable_header {m : Message} (h : (Double.ofInt m.seq).ReadsBack) :
    Printable nestingLimit (header m) := by
  change Printable (998 + 1 + 1) (.obj _)
  rw [Printable]
  have htext : ∀ k b, ∀ x ∈ textMember k b, Printable (998 + 1) x.2 := by
    intro k b x hx
    unfold textMember at hx
    split_ifs at hx with hb
    · cases hx
    · obtain rfl := List.mem_singleton.mp hx
      trivial
  have haddress : ∀ x ∈ addressMember m, Printable (998 + 1) x.2 := by
    intro x hx
    unfold addressMember at hx
    split_ifs at hx with hb
    · cases hx
    · obtain rfl := List.mem_singleton.mp hx
      rw [Printable]
      intro v hv
      obtain ⟨a, -, rfl⟩ := List.mem_map.mp hv
      trivial
  intro x hx
  change x ∈ _ ++ _ ++ _ ++ addressMember m ++ _ ++ _ at hx
  simp only [List.mem_append] at hx
  rcases hx with ((((hx | hx) | hx) | hx) | hx) | hx
  · simp only [List.mem_cons, List.not_mem_nil, or_false] at hx
    rcases hx with rfl | rfl | rfl | rfl
    · trivial
    · trivial
    · trivial
    · exact h
  · exact htext _ _ x hx
  · exact htext _ _ x hx
  · exact haddress x hx
  · exact htext _ _ x hx
  · exact htext _ _ x hx

theorem length_kMagic : kMagic.length = 4 := rfl

/-- A frame is its magic and the rest of it. -/
theorem encodeFrame_eq (m : Message) : encodeFrame m =
    kMagic ++ (littleEndian (printed (header m)).length ++ (printed (header m) ++ m.payload)) := by
  rw [encodeFrame, List.append_assoc, List.append_assoc]

theorem drop_encodeFrame (m : Message) : (encodeFrame m).drop 4 =
    littleEndian (printed (header m)).length ++ (printed (header m) ++ m.payload) := by
  rw [encodeFrame_eq, List.drop_left' length_kMagic]

theorem body_encodeFrame (m : Message) : (encodeFrame m).drop 8 = printed (header m) ++ m.payload := by
  rw [show 8 = 4 + 4 from rfl, ← List.drop_drop, drop_encodeFrame, List.drop_left' (length_littleEndian _)]

theorem length_encodeFrame (m : Message) :
    (encodeFrame m).length = 8 + ((printed (header m)).length + m.payload.length) := by
  rw [encodeFrame_eq, List.length_append, List.length_append, List.length_append, length_littleEndian,
    length_kMagic]
  omega

/-- The header of a frame is read as it was written, or the frame is refused. -/
theorem decodeFrame_header {m m' : Message} {limits : Limits} (hs : (Double.ofInt m.seq).ReadsBack)
    (h : decodeFrame (encodeFrame m) limits = .ok m') :
    ∃ payload, readHeader limits (header m) payload = .ok m' := by
  obtain ⟨text, htext⟩ := printed_header m
  have hle : (printed (header m)).length % 2 ^ 32 ≤ (printed (header m)).length := Nat.mod_le _ _
  unfold decodeFrame at h
  split_ifs at h
  rw [drop_encodeFrame, readU32_littleEndian, body_encodeFrame] at h
  dsimp only at h
  rw [List.take_append_of_le_length hle] at h
  split_ifs at h
  split at h
  · rename_i members hparse
    refine ⟨(encodeFrame m).drop (8 + (printed (header m)).length % 2 ^ 32), ?_⟩
    -- What was taken is the beginning of the header's text, so it is read as the header.
    have hwhole : parseJson (printed (header m)) = some (.obj members) := by
      cases hn : (printed (header m)).length % 2 ^ 32 with
      | zero =>
        rw [hn, List.take_zero] at hparse
        cases hparse
      | succ n =>
        rw [hn, htext, List.take_succ_cons] at hparse
        have := parseJson_append hparse (text.drop n)
        rwa [List.take_append_drop, ← htext] at this
    rw [parseJson_printed (printable_header hs)] at hwhole
    rwa [← Option.some.inj hwhole] at h
  · cases h

/-- A number that a header keeps. -/
structure Spelled (n : ℕ) : Prop where
  /-- It is at most the largest one. -/
  bound : n ≤ 2 ^ 53
  /-- Its text is read as it. -/
  text : (Double.ofInt n).ReadsBack

theorem spelled_of_lt {n : ℕ} (h : n < 10 ^ 15) : Spelled n :=
  ⟨le_trans h.le (by norm_num), readsBack_ofInt h⟩

/-- A frame is read back as its message, with some payload, or it is refused. -/
theorem decodeFrame_encodeFrame {m m' : Message} {limits : Limits} (hs : m.seq < 10 ^ 15)
    (h : decodeFrame (encodeFrame m) limits = .ok m') :
    ∃ payload, Fits limits m payload ∧ m' = { m.cut with payload := payload } := by
  obtain ⟨payload, hp⟩ := decodeFrame_header (readsBack_ofInt hs) h
  exact ⟨payload, (readHeader_eq_ok (spelled_of_lt hs).bound).mp hp⟩

/-- A frame within the limits is read back with its payload. -/
theorem decodeFrame_of_fits {m : Message} {limits : Limits} (hs : Spelled m.seq)
    (hlen : (printed (header m)).length < 2 ^ 32) (hframe : (encodeFrame m).length ≤ limits.maxFrame)
    (hfits : Fits limits m m.payload) : decodeFrame (encodeFrame m) limits = .ok m.cut := by
  have hlength := length_encodeFrame m
  unfold decodeFrame
  rw [if_neg (by omega), if_neg]
  · rw [drop_encodeFrame, readU32_littleEndian, Nat.mod_eq_of_lt hlen, body_encodeFrame]
    dsimp only
    rw [if_neg (by omega), List.take_left' rfl,
      parseJson_printed (printable_header hs.text), ← List.drop_drop, body_encodeFrame,
      List.drop_left' rfl]
    exact (readHeader_eq_ok hs.bound).mpr ⟨hfits, rfl⟩
  · rintro (hshort | hmagic)
    · omega
    · apply hmagic
      rw [encodeFrame_eq, List.take_left' length_kMagic]

end VoidPalabra.Sync
