import VoidPalabra.Frames

/-!
# What a frame says

A frame is read back as the message it was made of, and what was read from any frame is read back again.
Two messages have one frame only when they are one, and what a signature is over is told by all of a message
but the slot.
-/

namespace VoidPalabra.Sync

/-- A message that a frame holds as it is: no text of it has a zero byte. -/
structure Message.Whole (m : Message) : Prop where
  /-- Not the sender, -/
  sender : (0 : UInt8) ∉ m.sender
  /-- the session, -/
  session : (0 : UInt8) ∉ m.session
  /-- the digest, -/
  digest : (0 : UInt8) ∉ m.digest
  /-- the reason, -/
  reason : (0 : UInt8) ∉ m.reason
  /-- the addresses -/
  addresses : ∀ a ∈ m.addresses, (0 : UInt8) ∉ a
  /-- or the address, -/
  address : (0 : UInt8) ∉ m.address
  /-- and the number is one whose text is read back. -/
  seq : m.seq < 10 ^ 15

theorem Message.Whole.cut_eq {m : Message} (h : m.Whole) : m.cut = m := by
  have haddresses : m.addresses.map Sync.cut = m.addresses := by
    conv_rhs => rw [← List.map_id m.addresses]
    exact List.map_congr_left fun a ha => cut_of_noNul (h.addresses a ha)
  rw [Message.cut, cut_of_noNul h.sender, cut_of_noNul h.session, cut_of_noNul h.digest, cut_of_noNul h.reason,
    cut_of_noNul h.address, haddresses]

/-! ### What an accepted frame holds -/

theorem noNul_of_text {h : Json} {k : CString} {required : Bool} {n : ℕ} {v : Bytes}
    (hv : text h k required n = some v) : (0 : UInt8) ∉ v ∧ v.length ≤ n := by
  unfold text at hv
  split at hv
  · split at hv
    · cases hv
    · cases hv
      exact ⟨List.not_mem_nil, Nat.zero_le _⟩
  · rename_i s _
    split at hv
    · cases hv
    · rename_i hlen
      cases hv
      exact ⟨s.noNul, Nat.not_lt.mp hlen⟩
  · cases hv

theorem noNul_of_addressOf {v : Json} {a : Bytes} (h : addressOf v = .ok a) :
    (0 : UInt8) ∉ a ∧ a.length ≤ 256 := by
  unfold addressOf at h
  split at h
  · rename_i s
    split at h
    · cases h
    · rename_i hlen
      cases h
      exact ⟨s.noNul, Nat.not_lt.mp hlen⟩
  · cases h

theorem noNul_of_mapM : ∀ {items : List Json} {as : List Bytes}, items.mapM addressOf = .ok as →
    as.length = items.length ∧ ∀ a ∈ as, (0 : UInt8) ∉ a ∧ a.length ≤ 256
  | [], as, h => by
    rw [List.mapM_nil, pure_eq_ok] at h
    cases h
    exact ⟨rfl, fun a ha => absurd ha List.not_mem_nil⟩
  | v :: items, as, h => by
    rw [List.mapM_cons, bind_eq_ok] at h
    obtain ⟨a, ha, h⟩ := h
    obtain ⟨rest, hrest, h⟩ := bind_eq_ok.mp h
    rw [pure_eq_ok] at h
    cases h
    obtain ⟨hlen, hall⟩ := noNul_of_mapM hrest
    refine ⟨by rw [List.length_cons, List.length_cons, hlen], fun b hb => ?_⟩
    rcases List.mem_cons.mp hb with rfl | hb
    · exact noNul_of_addressOf ha
    · exact hall b hb

theorem noNul_of_addressesOf {limits : Limits} {h : Json} {as : List Bytes}
    (ha : addressesOf limits h = .ok as) :
    as.length ≤ limits.maxAddresses ∧ ∀ a ∈ as, (0 : UInt8) ∉ a ∧ a.length ≤ 256 := by
  unfold addressesOf at ha
  split at ha
  · cases ha
    exact ⟨Nat.zero_le _, fun a ha => absurd ha List.not_mem_nil⟩
  · split at ha
    · cases ha
    · rename_i hlen
      obtain ⟨hlen', hall⟩ := noNul_of_mapM ha
      exact ⟨hlen' ▸ Nat.not_lt.mp hlen, hall⟩
  · cases ha

/-- What is read from a header is within the limits, and has no zero byte in a text. -/
theorem readHeader_within {limits : Limits} {h : Json} {payload : Bytes} {m : Message}
    (hm : readHeader limits h payload = .ok m) (hseq : m.seq < 10 ^ 15) :
    m.Whole ∧ Fits limits m m.payload := by
  unfold readHeader at hm
  simp only [bind_eq_ok, orReason_eq_ok, pure_eq_ok] at hm
  obtain ⟨kind, -, sender, hsender, session, hsession, seq, -, digest, hdigest, reason, hreason, address,
    haddress, addresses, haddresses, auth, hauth, _, hpayload, rfl⟩ := hm
  have hsender := noNul_of_text hsender
  have hsession := noNul_of_text hsession
  have hdigest := noNul_of_text hdigest
  have hreason := noNul_of_text hreason
  have haddress := noNul_of_text haddress
  obtain ⟨hcount, hall⟩ := noNul_of_addressesOf haddresses
  obtain ⟨spelled, htext, hunhex⟩ := Option.bind_eq_some_iff.mp hauth
  refine ⟨⟨hsender.1, hsession.1, hdigest.1, hreason.1, fun a ha => (hall a ha).1, haddress.1, hseq⟩, ?_⟩
  refine ⟨?_, ?_, ?_, ?_, ?_, hcount, fun a ha => ?_, ?_, hpayload⟩
  · rw [cut_of_noNul hsender.1]
    exact hsender.2
  · rw [cut_of_noNul hsession.1]
    exact hsession.2
  · rw [cut_of_noNul hdigest.1]
    exact hdigest.2
  · rw [cut_of_noNul hreason.1]
    exact hreason.2
  · rw [cut_of_noNul haddress.1]
    exact haddress.2
  · rw [cut_of_noNul (hall a ha).1]
    exact (hall a ha).2
  · rw [hexBytes_unhexStrict hunhex]
    exact (noNul_of_text htext).2

/-- An accepted frame has a header. -/
theorem readHeader_of_decodeFrame {frame : Bytes} {limits : Limits} {m : Message}
    (h : decodeFrame frame limits = .ok m) : ∃ j payload, readHeader limits j payload = .ok m := by
  unfold decodeFrame at h
  split_ifs at h
  dsimp only at h
  split_ifs at h
  split at h
  · exact ⟨_, _, h⟩
  · cases h

/-- A message is read from its frame as it is, or not at all. -/
theorem decodeFrame_eq_ok {limits : Limits} {m m' : Message} (hm : m.Whole)
    (hheader : (printed (header m)).length < 2 ^ 32) : decodeFrame (encodeFrame m) limits = .ok m' ↔
      ((encodeFrame m).length ≤ limits.maxFrame ∧ Fits limits m m.payload) ∧ m' = m := by
  have hlength := length_encodeFrame m
  have hread : m' = { m.cut with payload := m.payload } ↔ m' = m := by rw [hm.cut_eq]
  unfold decodeFrame
  by_cases hframe : (encodeFrame m).length ≤ limits.maxFrame
  · rw [if_neg (by omega), if_neg]
    · rw [drop_encodeFrame, readU32_littleEndian, Nat.mod_eq_of_lt hheader, body_encodeFrame]
      dsimp only
      rw [if_neg (by omega), List.take_left' rfl,
        parseJson_printed (printable_header (readsBack_ofInt hm.seq)), ← List.drop_drop, body_encodeFrame,
        List.drop_left' rfl]
      refine (readHeader_eq_ok (spelled_of_lt hm.seq).bound).trans ?_
      rw [hread, and_iff_right hframe]
    · rintro (hshort | hmagic)
      · omega
      · apply hmagic
        rw [encodeFrame_eq, List.take_left' length_kMagic]
  · rw [if_pos (by omega)]
    exact ⟨fun h => (by cases h), fun h => absurd h.1.1 hframe⟩

theorem kindName_injective {k k' : Kind} (h : kindName k = kindName k') : k = k' := by
  have hk := kindFrom_kindName k
  rw [h, kindFrom_kindName k'] at hk
  exact (Option.some.inj hk).symm

theorem ofBytes_inj {a b : Bytes} (ha : (0 : UInt8) ∉ a) (hb : (0 : UInt8) ∉ b)
    (h : CString.ofBytes a = CString.ofBytes b) : a = b := by
  have hc : cut a = cut b := congrArg CString.bytes h
  rwa [cut_of_noNul ha, cut_of_noNul hb] at hc

/-- A member that is left out when it is empty tells what it holds. -/
theorem textValue_inj {a b : Bytes} (ha : (0 : UInt8) ∉ a) (hb : (0 : UInt8) ∉ b)
    (h : (if a.isEmpty = false then some (Json.str (.ofBytes a)) else none) =
      if b.isEmpty = false then some (Json.str (.ofBytes b)) else none) : a = b := by
  cases hae : a.isEmpty with
  | true =>
    cases hbe : b.isEmpty with
    | true => rw [List.isEmpty_iff.mp hae, List.isEmpty_iff.mp hbe]
    | false =>
      rw [hae, hbe] at h
      cases h
  | false =>
    cases hbe : b.isEmpty with
    | true =>
      rw [hae, hbe] at h
      cases h
    | false =>
      rw [hae, hbe, if_pos rfl, if_pos rfl, Option.some.injEq, Json.str.injEq] at h
      exact ofBytes_inj ha hb h

theorem addresses_inj : ∀ {as bs : List Bytes}, (∀ a ∈ as, (0 : UInt8) ∉ a) → (∀ b ∈ bs, (0 : UInt8) ∉ b) →
    (as.map fun a => Json.str (.ofBytes a)) = (bs.map fun b => Json.str (.ofBytes b)) → as = bs
  | [], [], _, _, _ => rfl
  | a :: as, b :: bs, ha, hb, h => by
    rw [List.map_cons, List.map_cons, List.cons.injEq, Json.str.injEq] at h
    rw [ofBytes_inj (ha a List.mem_cons_self) (hb b List.mem_cons_self) h.1,
      addresses_inj (fun x hx => ha x (List.mem_cons_of_mem _ hx))
        (fun x hx => hb x (List.mem_cons_of_mem _ hx)) h.2]

theorem addressesValue_inj {as bs : List Bytes} (ha : ∀ a ∈ as, (0 : UInt8) ∉ a) (hb : ∀ b ∈ bs, (0 : UInt8) ∉ b)
    (h : (if as.isEmpty = false then some (Json.arr (as.map fun a => .str (.ofBytes a))) else none) =
      if bs.isEmpty = false then some (Json.arr (bs.map fun b => .str (.ofBytes b))) else none) : as = bs := by
  cases hae : as.isEmpty with
  | true =>
    cases hbe : bs.isEmpty with
    | true => rw [List.isEmpty_iff.mp hae, List.isEmpty_iff.mp hbe]
    | false =>
      rw [hae, hbe] at h
      cases h
  | false =>
    cases hbe : bs.isEmpty with
    | true =>
      rw [hae, hbe] at h
      cases h
    | false =>
      rw [hae, hbe, if_pos rfl, if_pos rfl, Option.some.injEq, Json.arr.injEq] at h
      exact addresses_inj ha hb h

theorem hexBytes_injective {a b : Bytes} (h : hexBytes a = hexBytes b) : a = b := by
  have ha := unhexStrict_hexBytes a
  rw [h, unhexStrict_hexBytes] at ha
  exact (Option.some.inj ha).symm

/-- A header tells every field but the payload. -/
theorem header_inj {m m' : Message} (hm : m.Whole) (hm' : m'.Whole) (h : header m = header m') :
    m' = { m with payload := m'.payload } := by
  have hget : ∀ k, (header m).get k = (header m').get k := fun k => by rw [h]
  have hkind := hget Key.kind
  have hsender := hget Key.sender
  have hsession := hget Key.session
  have hdigest := hget Key.digest
  have hreason := hget Key.reason
  have haddresses := hget Key.addresses
  have haddress := hget Key.address
  have hauth := hget Key.auth
  rw [get_header_kind, get_header_kind, Option.some.injEq, Json.str.injEq] at hkind
  rw [get_header_sender, get_header_sender, Option.some.injEq, Json.str.injEq] at hsender
  rw [get_header_session, get_header_session, Option.some.injEq, Json.str.injEq] at hsession
  rw [get_header_digest, get_header_digest] at hdigest
  rw [get_header_reason, get_header_reason] at hreason
  rw [get_header_addresses, get_header_addresses] at haddresses
  rw [get_header_address, get_header_address] at haddress
  rw [get_header_auth, get_header_auth] at hauth
  have hseq : m.seq = m'.seq := by
    have hs := seqOf_header (spelled_of_lt hm.seq).bound
    rw [h, seqOf_header (spelled_of_lt hm'.seq).bound] at hs
    exact (Option.some.inj hs).symm
  have hslot := textValue_inj (hexify m.auth).noNul (hexify m'.auth).noNul hauth
  obtain ⟨kind, sender, session, seq, digest, reason, addresses, address, payload, auth⟩ := m
  obtain ⟨kind', sender', session', seq', digest', reason', addresses', address', payload', auth'⟩ := m'
  simp only [Message.mk.injEq, true_and]
  exact ⟨(kindName_injective hkind).symm, (ofBytes_inj hm.sender hm'.sender hsender).symm,
    (ofBytes_inj hm.session hm'.session hsession).symm, hseq.symm,
    (textValue_inj hm.digest hm'.digest hdigest).symm, (textValue_inj hm.reason hm'.reason hreason).symm,
    (addressesValue_inj hm.addresses hm'.addresses haddresses).symm,
    (textValue_inj hm.address hm'.address haddress).symm, (hexBytes_injective hslot).symm⟩

/-- A frame tells its message. -/
theorem encodeFrame_inj {m m' : Message} (hm : m.Whole) (hm' : m'.Whole) (h : encodeFrame m = encodeFrame m') :
    m = m' := by
  have hbody : printed (header m) ++ m.payload = printed (header m') ++ m'.payload := by
    rw [← body_encodeFrame, ← body_encodeFrame, h]
  have hread : ∀ m : Message, m.Whole → parseJson (printed (header m) ++ m.payload) = some (header m) := by
    intro m hm
    have hparse := parseJson_printed (printable_header (readsBack_ofInt hm.seq))
    obtain ⟨text, htext⟩ := printed_header m
    rw [htext] at hparse ⊢
    exact parseJson_append hparse m.payload
  have hheader : header m = header m' := by
    have hr := hread m hm
    rw [hbody, hread m' hm'] at hr
    exact (Option.some.inj hr).symm
  have hpayload : m.payload = m'.payload := by
    rw [hheader] at hbody
    exact List.append_cancel_left hbody
  rw [header_inj hm hm' hheader, ← hpayload]

theorem Message.Whole.blank {m : Message} (h : m.Whole) : Message.Whole { m with auth := [] } :=
  ⟨h.sender, h.session, h.digest, h.reason, h.addresses, h.address, h.seq⟩

/-- The bytes to sign tell everything but the slot. -/
theorem authBlank_inj {m m' : Message} (hm : m.Whole) (hm' : m'.Whole) (h : authBlank m = authBlank m') :
    m' = { m with auth := m'.auth } := by
  have hblank : { m with auth := [] } = ({ m' with auth := [] } : Message) := encodeFrame_inj hm.blank hm'.blank h
  calc m' = { ({ m' with auth := [] } : Message) with auth := m'.auth } := rfl
    _ = { ({ m with auth := [] } : Message) with auth := m'.auth } := by rw [hblank]
    _ = { m with auth := m'.auth } := rfl

end VoidPalabra.Sync
