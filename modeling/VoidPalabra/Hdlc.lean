import VoidPalabra.Bytes

/-!
# Packets on a byte stream

A packet carried over a byte stream stands between two flags, with every flag and every escape
byte of the packet escaped. The decoder takes bytes as they come, one at a time, and hands out
whole packets; what it remembers between two calls is the packet so far, whether it is inside a
frame, and whether the last byte was an escape.

That state is a function of the bytes since the last flag alone (`within`): a byte that is no flag
extends them (`byte_within`), a flag ends them (`byte_flag`). A decoder that has seen a flag
therefore keeps nothing of what came before it, which is what lets a stream that lost bytes go on.
-/

namespace VoidPalabra.Hdlc

/-- The byte on either side of a packet. -/
def FLAG : UInt8 := 0x7E

/-- The byte before an escaped one. -/
def ESC : UInt8 := 0x7D

/-- What an escaped byte is changed by. -/
def ESC_MASK : UInt8 := 0x20

/-- A byte of a packet as it is sent. -/
def escaped (c : UInt8) : Bytes := if c = FLAG ∨ c = ESC then [ESC, c ^^^ ESC_MASK] else [c]

/-- A packet as it is sent. -/
def frame (packet : Bytes) : Bytes := FLAG :: packet.flatMap escaped ++ [FLAG]

/-- What the decoder keeps between two calls. -/
structure Decoder where
  /-- The longest packet it hands out. -/
  max : ℕ := 2048
  /-- The packet so far (`cur_`). -/
  cur : Bytes := []
  /-- A flag was seen, and the frame after it is not too long (`in_`). -/
  inside : Bool := false
  /-- The last byte was an escape (`esc_`). -/
  esc : Bool := false
  deriving DecidableEq

namespace Decoder

/-- One byte, and the packet it ends. -/
def byte (d : Decoder) (c : UInt8) : Decoder × Option Bytes :=
  if c = FLAG then
    ({ d with cur := [], inside := true, esc := false },
      if d.inside ∧ d.cur ≠ [] then some d.cur else none)
  else if ¬d.inside then (d, none)
  else if ¬d.esc ∧ c = ESC then ({ d with esc := true }, none)
  else
    let c := if d.esc then c ^^^ ESC_MASK else c
    -- a flag was lost somewhere: drop until the next one
    if d.max ≤ d.cur.length then ({ d with cur := [], inside := false, esc := false }, none)
    else ({ d with cur := d.cur ++ [c], esc := false }, none)

/-- The bytes of one call, and the packets that end among them. -/
def feed (d : Decoder) : Bytes → Decoder × List Bytes
  | [] => (d, [])
  | c :: rest =>
    let next := d.byte c
    let later := next.1.feed rest
    (later.1, next.2.toList ++ later.2)

/-- Several calls, and the packets they return. -/
def feedAll (d : Decoder) : List Bytes → Decoder × List Bytes
  | [] => (d, [])
  | piece :: pieces =>
    let next := d.feed piece
    let later := next.1.feedAll pieces
    (later.1, next.2 ++ later.2)

@[simp] theorem feed_nil (d : Decoder) : d.feed [] = (d, []) := rfl

@[simp] theorem feed_cons (d : Decoder) (c : UInt8) (rest : Bytes) :
    d.feed (c :: rest) =
      (((d.byte c).1.feed rest).1, (d.byte c).2.toList ++ ((d.byte c).1.feed rest).2) := rfl

/-- The state carries over from one stretch of bytes to the next. -/
theorem feed_append (d : Decoder) (xs ys : Bytes) :
    d.feed (xs ++ ys) =
      (((d.feed xs).1.feed ys).1, (d.feed xs).2 ++ ((d.feed xs).1.feed ys).2) := by
  induction xs generalizing d with
  | nil => rfl
  | cons c xs ih => simp only [List.cons_append, feed_cons, ih, List.append_assoc]

/-- **However the bytes are cut into calls, they are read as one.** -/
theorem feedAll_eq (d : Decoder) (pieces : List Bytes) :
    d.feedAll pieces = d.feed pieces.flatten := by
  induction pieces generalizing d with
  | nil => rfl
  | cons piece pieces ih =>
    rw [List.flatten_cons, feed_append, feedAll, ih]

/-- The limit never changes. -/
@[simp] theorem byte_max (d : Decoder) (c : UInt8) : (d.byte c).1.max = d.max := by
  unfold byte
  split_ifs <;> rfl

@[simp] theorem feed_max (d : Decoder) (xs : Bytes) : (d.feed xs).1.max = d.max := by
  induction xs generalizing d with
  | nil => rfl
  | cons c xs ih => rw [feed_cons, ih, byte_max]

/-! ### The state as a function of the bytes since the last flag -/

/-- One more byte of a frame: the packet so far, and whether an escape is pending. -/
def unescape (s : Bytes × Bool) (c : UInt8) : Bytes × Bool :=
  if s.2 then (s.1 ++ [c ^^^ ESC_MASK], false)
  else if c = ESC then (s.1, true)
  else (s.1 ++ [c], false)

/-- What the bytes after a flag stand for. -/
def content (body : Bytes) : Bytes × Bool := body.foldl unescape ([], false)

/-- The decoder after a flag and the bytes of `body`. -/
def within (max : ℕ) (body : Bytes) : Decoder :=
  if (content body).1.length ≤ max then ⟨max, (content body).1, true, (content body).2⟩
  else ⟨max, [], false, false⟩

@[simp] theorem content_nil : content [] = ([], false) := rfl

@[simp] theorem content_concat (body : Bytes) (c : UInt8) :
    content (body ++ [c]) = unescape (content body) c := by
  rw [content, List.foldl_append]
  rfl

@[simp] theorem within_nil (max : ℕ) : within max [] = ⟨max, [], true, false⟩ := by
  simp [within]

/-- Whatever came before, a flag leaves the state of an empty frame. -/
theorem byte_flag (d : Decoder) : (d.byte FLAG).1 = within d.max [] := by
  rw [within_nil, byte, if_pos rfl]

/-- **A byte that is no flag takes the state of the bytes before it to the state of the bytes with
it.** -/
theorem byte_within (max : ℕ) (body : Bytes) {c : UInt8} (hc : c ≠ FLAG) :
    (within max body).byte c = (within max (body ++ [c]), none) := by
  unfold within byte
  rw [if_neg hc, content_concat, unescape]
  obtain ⟨cur, esc⟩ := content body
  dsimp only
  by_cases hlen : cur.length ≤ max
  · rw [if_pos hlen]
    cases esc with
    | false =>
      by_cases hesc : c = ESC
      · simp [hesc, hlen]
      · by_cases hfull : max ≤ cur.length
        · have : ¬cur.length + 1 ≤ max := by omega
          simp [hesc, hfull, this]
        · have : cur.length + 1 ≤ max := by omega
          simp [hesc, hfull, this]
    | true =>
      by_cases hfull : max ≤ cur.length
      · have : ¬cur.length + 1 ≤ max := by omega
        simp [hfull, this]
      · have : cur.length + 1 ≤ max := by omega
        simp [hfull, this]
  · have : ¬cur.length + 1 ≤ max := by omega
    rw [if_neg hlen]
    cases esc <;> by_cases hesc : c = ESC <;> simp [hlen, hesc, this]

/-- Bytes with no flag among them only extend the frame. -/
theorem feed_within (max : ℕ) (body more : Bytes) (h : FLAG ∉ more) :
    (within max body).feed more = (within max (body ++ more), []) := by
  induction more generalizing body with
  | nil => simp
  | cons c more ih =>
    rw [List.mem_cons, not_or] at h
    rw [feed_cons, byte_within max body (Ne.symm h.1), ih (body ++ [c]) h.2]
    simp

/-- The packet that a flag ends. -/
theorem byte_within_flag (max : ℕ) (body : Bytes) :
    ((within max body).byte FLAG).2 =
      if (content body).1 ≠ [] ∧ (content body).1.length ≤ max then some (content body).1
      else none := by
  unfold within byte
  rw [if_pos rfl]
  by_cases hlen : (content body).1.length ≤ max
  · simp [hlen]
  · simp [hlen]

/-- A frame read to its end: its content, where that is a packet, and nothing left of it. -/
theorem feed_body (d : Decoder) {body : Bytes} (h : FLAG ∉ body) :
    d.feed (FLAG :: body ++ [FLAG]) =
      (within d.max [], (d.byte FLAG).2.toList ++
        if (content body).1 ≠ [] ∧ (content body).1.length ≤ d.max then [(content body).1]
        else []) := by
  have hmax : (within d.max body).max = d.max := by
    unfold within
    split <;> rfl
  rw [List.cons_append, feed_cons, byte_flag, feed_append, feed_within d.max [] body h,
    List.nil_append, feed_cons, byte_flag, byte_within_flag, hmax]
  split_ifs <;> simp

/-! ### A packet that is framed comes back -/

theorem flag_notMem_escaped (packet : Bytes) : FLAG ∉ packet.flatMap escaped := by
  intro h
  obtain ⟨c, -, hc⟩ := List.mem_flatMap.mp h
  unfold escaped at hc
  split_ifs at hc with hspecial
  · rcases hspecial with rfl | rfl <;> revert hc <;> decide
  · rw [List.mem_singleton] at hc
    exact hspecial (.inl hc.symm)

theorem foldl_escaped (packet done : Bytes) :
    (packet.flatMap escaped).foldl unescape (done, false) = (done ++ packet, false) := by
  induction packet generalizing done with
  | nil => simp
  | cons c packet ih =>
    have hone : (escaped c).foldl unescape (done, false) = (done ++ [c], false) := by
      unfold escaped
      split_ifs with hspecial
      · rcases hspecial with rfl | rfl <;> simp [unescape, FLAG, ESC, ESC_MASK]
      · rw [not_or] at hspecial
        simp [unescape, hspecial.2]
    rw [List.flatMap_cons, List.foldl_append, hone, ih, List.append_assoc, List.singleton_append]

/-- The bytes of a framed packet stand for the packet. -/
@[simp] theorem content_escaped (packet : Bytes) :
    content (packet.flatMap escaped) = (packet, false) := by
  rw [content, foldl_escaped, List.nil_append]

/-- **A framed packet comes back**, after what the first flag ends. -/
theorem feed_frame (d : Decoder) {packet : Bytes} (hne : packet ≠ [])
    (hlen : packet.length ≤ d.max) :
    d.feed (frame packet) = (within d.max [], (d.byte FLAG).2.toList ++ [packet]) := by
  rw [frame, feed_body d (flag_notMem_escaped packet), content_escaped, if_pos ⟨hne, hlen⟩]

/-- After a whole frame, nothing is open: the flag of the next one ends no packet. -/
theorem feed_frames_within {max : ℕ} {packets : List Bytes}
    (h : ∀ p ∈ packets, p ≠ [] ∧ p.length ≤ max) :
    ((within max []).feed (packets.flatMap frame)).2 = packets := by
  induction packets with
  | nil => rfl
  | cons p packets ih =>
    obtain ⟨hne, hlen⟩ := h p (List.mem_cons_self ..)
    have hmax : (within max []).max = max := by rw [within_nil]
    rw [List.flatMap_cons, feed_append, feed_frame _ hne (hlen.trans hmax.ge), hmax,
      ih fun q hq => h q (List.mem_cons_of_mem _ hq), within_nil]
    rfl

/-! ### Any stream -/

/-- The packet so far is never longer than the limit. -/
def Bounded (d : Decoder) : Prop := d.cur.length ≤ d.max

theorem Bounded.byte {d : Decoder} (h : d.Bounded) (c : UInt8) :
    (d.byte c).1.Bounded ∧ ∀ p ∈ (d.byte c).2, p ≠ [] ∧ p.length ≤ d.max := by
  unfold Bounded at h ⊢
  unfold Decoder.byte
  dsimp only
  split_ifs with hflag hout hin hesc hpend hfull
  · exact ⟨Nat.zero_le _, fun p hp => by cases hp; exact ⟨hout.2, h⟩⟩
  · exact ⟨Nat.zero_le _, nofun⟩
  all_goals refine ⟨?_, nofun⟩
  all_goals first
    | exact h
    | exact Nat.zero_le _
    | simp only [List.length_append, List.length_singleton]
      omega

/-- **Whatever the bytes are, only packets come out.** -/
theorem Bounded.feed {d : Decoder} (h : d.Bounded) (xs : Bytes) :
    ∀ p ∈ (d.feed xs).2, p ≠ [] ∧ p.length ≤ d.max := by
  induction xs generalizing d with
  | nil => exact List.forall_mem_nil _
  | cons c xs ih =>
    intro p hp
    rw [feed_cons, List.mem_append, Option.mem_toList] at hp
    rcases hp with hp | hp
    · exact (h.byte c).2 p hp
    · have := ih (h.byte c).1 p hp
      rwa [byte_max] at this

end Decoder

open Decoder

/-- **Framing resynchronises and loses nothing.** Whatever bytes a decoder has read, framed packets
that follow come back in order, after at most the one that the first flag ends; what comes out of
any stream is a packet; and a frame that is too long leaves everything after it as it would be
without that frame. -/
theorem framing_resynchronises :
    (∀ (max : ℕ) (earlier pieces packets : List Bytes),
      (∀ p ∈ packets, p ≠ [] ∧ p.length ≤ max) → pieces.flatten = packets.flatMap frame →
        let d := (Decoder.feedAll { max } earlier).1
        let first := (d.feed (pieces.flatten.take 1)).2
        (d.feedAll pieces).2 = first ++ packets ∧ first.length ≤ 1) ∧
    (∀ (max : ℕ) (pieces : List Bytes), ∀ p ∈ (Decoder.feedAll { max } pieces).2,
      p ≠ [] ∧ p.length ≤ max) ∧
    ∀ (max : ℕ) (earlier : List Bytes) (body rest : Bytes), FLAG ∉ body →
      max < (content body).1.length →
        let d := (Decoder.feedAll { max } earlier).1
        d.feed (FLAG :: body ++ FLAG :: rest) = d.feed (FLAG :: rest) := by
  refine ⟨?_, ?_, ?_⟩
  · intro max earlier pieces packets h hpieces d first
    have hmax : d.max = max := by simp only [d, feedAll_eq, feed_max]
    have hfirst : first = (d.feed ((packets.flatMap frame).take 1)).2 := by
      simp only [first, hpieces]
    rw [feedAll_eq, hpieces, hfirst]
    cases packets with
    | nil => exact ⟨rfl, Nat.zero_le _⟩
    | cons p packets =>
      obtain ⟨hne, hlen⟩ := h p (List.mem_cons_self ..)
      have htake : ((p :: packets).flatMap frame).take 1 = [FLAG] := rfl
      rw [htake, List.flatMap_cons, feed_append, feed_frame d hne (hlen.trans hmax.ge), hmax,
        feed_frames_within fun q hq => h q (List.mem_cons_of_mem _ hq)]
      refine ⟨by simp, ?_⟩
      simp only [feed_cons, feed_nil, List.append_nil, Option.length_toList]
      split <;> simp
  · intro max pieces p hp
    rw [feedAll_eq] at hp
    have hstart : Decoder.Bounded { max } := Nat.zero_le _
    exact hstart.feed pieces.flatten p hp
  · intro max earlier body rest hbody hlong d
    have hmax : d.max = max := by simp only [d, feedAll_eq, feed_max]
    have hsplit : FLAG :: body ++ FLAG :: rest = (FLAG :: body ++ [FLAG]) ++ rest := by simp
    have hdrop : ¬((content body).1 ≠ [] ∧ (content body).1.length ≤ d.max) := by omega
    rw [hsplit, feed_append, feed_body d hbody, if_neg hdrop, feed_cons, byte_flag, List.append_nil]

/-- A packet of a flag and a letter, cut inside its escape, after an unfinished one. -/
theorem framing_resynchronises_cut :
    ((Decoder.feedAll { max := 4 } [[FLAG, 0x41]]).1.feedAll
      [[FLAG, ESC], [0x5E, 0x42, FLAG]]).2 = [[0x41]] ++ [[FLAG, 0x42]] :=
  (framing_resynchronises.1 4 [[FLAG, 0x41]] [[FLAG, ESC], [0x5E, 0x42, FLAG]] [[FLAG, 0x42]]
    (by decide) (by decide)).1

end VoidPalabra.Hdlc
