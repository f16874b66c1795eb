import VoidPalabra.Frames

/-!
# What a frame takes up

A header is as long as its fields at worst, six bytes for one, so limits that leave room for
the longest header only have to be compared with payloads.
-/

namespace VoidPalabra.Sync

/-! ### Printed lengths -/

theorem length_escapeByte_le (c : UInt8) : (escapeByte c).length ≤ 6 := by
  unfold escapeByte
  repeat' split
  all_goals simp [lit]

/-- A byte of text is at most six printed ones. -/
theorem length_printString_le {s : CString} {n : ℕ} (h : s.bytes.length ≤ n) :
    (printString s).length ≤ 6 * n + 2 := by
  have hescaped : ∀ b : Bytes, (b.flatMap escapeByte).length ≤ 6 * b.length := by
    intro b
    induction b with
    | nil => exact le_rfl
    | cons c b ih =>
      have := length_escapeByte_le c
      rw [List.flatMap_cons, List.length_append, List.length_cons]
      omega
  have := hescaped s.bytes
  rw [printString, List.length_append, List.length_cons, List.length_singleton]
  omega

/-- What a member takes up, its colon and a comma included. -/
def memberRoom (x : CString × Json) : ℕ := (printString x.1).length + (printValue x.2).length + 2

theorem length_printMembers_le (ms : List (CString × Json)) :
    (printMembers ms).length ≤ (ms.map memberRoom).sum := by
  induction ms with
  | nil => exact le_rfl
  | cons x rest ih =>
    have hcomma : (if rest.isEmpty then ([] : Bytes) else [0x2C]).length ≤ 1 := by
      split <;> simp
    rw [printMembers, List.length_append, List.length_append, List.length_append, List.length_cons,
      List.map_cons, List.sum_cons, memberRoom]
    omega

theorem length_printItems_le {items : List Json} {n : ℕ} (h : ∀ v ∈ items, (printValue v).length ≤ n) :
    (printItems items).length ≤ items.length * (n + 1) := by
  induction items with
  | nil => exact Nat.zero_le _
  | cons v rest ih =>
    have hcomma : (if rest.isEmpty then ([] : Bytes) else [0x2C]).length ≤ 1 := by
      split <;> simp
    have hv := h v List.mem_cons_self
    have hrest := ih fun w hw => h w (List.mem_cons_of_mem _ hw)
    rw [printItems, List.length_append, List.length_append, List.length_cons, Nat.add_mul]
    omega

/-! ### The longest header -/

theorem room_textMember {k : CString} {b : Bytes} {n : ℕ} (h : (cut b).length ≤ n) :
    ((textMember k b).map memberRoom).sum ≤ (printString k).length + 6 * n + 4 := by
  unfold textMember
  split_ifs
  · simp
  · have := length_printString_le (s := .ofBytes b) h
    simp only [List.map_cons, List.map_nil, List.sum_cons, List.sum_nil, memberRoom, printValue]
    omega

theorem room_addressMember {m : Message} (h : ∀ a ∈ m.addresses, (cut a).length ≤ 256) :
    ((addressMember m).map memberRoom).sum ≤ 16 + 1539 * m.addresses.length := by
  unfold addressMember
  split_ifs
  · simp
  · have hitems : (printItems (m.addresses.map fun a => .str (.ofBytes a))).length ≤
        (m.addresses.map fun a => Json.str (.ofBytes a)).length * (1538 + 1) := by
      refine length_printItems_le fun v hv => ?_
      obtain ⟨a, ha, rfl⟩ := List.mem_map.mp hv
      exact length_printString_le (s := .ofBytes a) (h a ha)
    rw [List.length_map] at hitems
    have hkey : (printString Key.addresses).length = 11 := by decide
    simp only [List.map_cons, List.map_nil, List.sum_cons, List.sum_nil, memberRoom, printValue,
      List.length_append, List.length_cons, List.length_nil, hkey]
    omega

/-- The most that the header of a message with so many addresses takes up. -/
def headerRoom (addresses : ℕ) : ℕ := 36500 + 1539 * addresses

/-- A header that fits takes up no more. -/
theorem length_header_le {limits : Limits} {m : Message} {payload : Bytes} (hs : Spelled m.seq)
    (hf : Fits limits m payload) : (printed (header m)).length ≤ headerRoom m.addresses.length := by
  have hmembers := length_printMembers_le ([(Key.kind, .str (kindName m.kind)),
    (Key.sender, .str (.ofBytes m.sender)), (Key.session, .str (.ofBytes m.session)),
    (Key.seq, .num (.ofInt m.seq))] ++ textMember Key.digest m.digest ++
    textMember Key.reason m.reason ++ addressMember m ++ textMember Key.address m.address ++
    textMember Key.auth (hexBytes m.auth))
  have hkind := length_printString_le (kindName_length m.kind)
  have hsender := length_printString_le (s := .ofBytes m.sender) hf.sender
  have hsession := length_printString_le (s := .ofBytes m.session) hf.session
  have hseq := hs.text.length
  have hdigest := room_textMember (k := Key.digest) hf.digest
  have hreason := room_textMember (k := Key.reason) hf.reason
  have haddress := room_textMember (k := Key.address) hf.address
  have hauth := room_textMember (k := Key.auth) (b := hexBytes m.auth) (n := 4096)
    (le_trans (List.Sublist.length_le (List.takeWhile_sublist _)) hf.auth)
  have haddresses := room_addressMember hf.each
  have hkeys : (printString Key.kind).length = 6 ∧ (printString Key.sender).length = 6 ∧
      (printString Key.session).length = 9 ∧ (printString Key.seq).length = 5 ∧
      (printString Key.digest).length = 8 ∧ (printString Key.reason).length = 8 ∧
      (printString Key.address).length = 9 ∧ (printString Key.auth).length = 6 := by decide
  obtain ⟨k1, k2, k3, k4, k5, k6, k7, k8⟩ := hkeys
  change (0x7B :: printMembers (_ ++ _ ++ _ ++ addressMember m ++ _ ++ _) ++ [0x7D]).length ≤ _
  rw [List.length_append, List.length_cons, List.length_singleton]
  simp only [List.map_append, List.sum_append, List.map_cons, List.map_nil, List.sum_cons,
    List.sum_nil, memberRoom, printValue] at hmembers
  unfold headerRoom
  omega

/-! ### Frames that are read as they were sent -/

/-- Text of at most so many bytes, without a NUL. -/
structure Short (n : ℕ) (b : Bytes) : Prop where
  /-- The length. -/
  length : b.length ≤ n
  /-- The bytes. -/
  noNul : (0 : UInt8) ∉ b

theorem short_nil (n : ℕ) : Short n [] := ⟨Nat.zero_le n, List.not_mem_nil⟩

theorem Short.cut {n : ℕ} {b : Bytes} (h : Short n b) : Sync.cut b = b := cut_of_noNul h.noNul

/-- A message whose fields a header keeps. -/
structure Sendable (limits : Limits) (m : Message) : Prop where
  /-- The sender. -/
  sender : Short 256 m.sender
  /-- The session. -/
  session : Short 256 m.session
  /-- The number. -/
  seq : Spelled m.seq
  /-- The digest. -/
  digest : Short 128 m.digest
  /-- The reason. -/
  reason : Short 1024 m.reason
  /-- The file. -/
  address : Short 256 m.address
  /-- The number of files. -/
  addresses : m.addresses.length ≤ limits.maxAddresses
  /-- The files. -/
  each : ∀ a ∈ m.addresses, Short 256 a
  /-- The slot, half as long as its text. -/
  auth : m.auth.length ≤ 2048
  /-- The payload. -/
  payload : checkPayload limits m.kind m.payload = .ok ()

namespace Sendable

variable {limits : Limits} {m : Message}

theorem cut (h : Sendable limits m) : m.cut = m := by
  have heach : m.addresses.map Sync.cut = m.addresses :=
    (List.map_congr_left fun a ha => (h.each a ha).cut).trans (List.map_id _)
  rw [Message.cut, h.sender.cut, h.session.cut, h.digest.cut, h.reason.cut, h.address.cut, heach]

theorem fits (h : Sendable limits m) : Fits limits m m.payload where
  sender := h.sender.cut.symm ▸ h.sender.length
  session := h.session.cut.symm ▸ h.session.length
  digest := h.digest.cut.symm ▸ h.digest.length
  reason := h.reason.cut.symm ▸ h.reason.length
  address := h.address.cut.symm ▸ h.address.length
  addresses := h.addresses
  each a ha := (h.each a ha).cut.symm ▸ (h.each a ha).length
  auth := by
    have := h.auth
    rw [length_hexBytes]
    omega
  payload := h.payload

end Sendable

end VoidPalabra.Sync
