import VoidPalabra.Frames
import VoidPalabra.Piecewise

/-!
# Frames on a byte stream

Each frame is preceded by its length. A reader takes bytes in whatever pieces they come and
hands back whole frames; a bad length or a wrong magic breaks it for good.
-/

namespace VoidPalabra.Sync

open Piecewise

/-- `kPrefix`: the magic and the length of the header. -/
def kPrefix : ℕ := 8

/-- `stream_frame`. -/
def streamFrame (frame : Bytes) : Bytes := littleEndian frame.length ++ frame

/-- `StreamReader`. -/
structure StreamReader where
  /-- The limits. -/
  limits : Limits := {}
  /-- The bytes that came, those that were handed back among them. -/
  buf : Bytes := []
  /-- Where the next frame begins. -/
  at_ : ℕ := 0
  /-- Why the stream is broken, empty while it is not. -/
  why : Bytes := []

namespace StreamReader

/-- `broken`. -/
def broken (r : StreamReader) : Bool := !r.why.isEmpty

/-- `pending`. -/
def pending (r : StreamReader) : ℕ := r.buf.length - r.at_

/-- What `feed` does first: bytes that were handed back are dropped when they are half of all. -/
def compact (r : StreamReader) : StreamReader :=
  if 0 < r.at_ ∧ r.buf.length / 2 ≤ r.at_ then { r with buf := r.buf.drop r.at_, at_ := 0 } else r

/-- `feed`. -/
def feed (data : Bytes) (r : StreamReader) : StreamReader :=
  if r.broken ∨ data.isEmpty then r
  else { r.compact with buf := r.compact.buf ++ data }

/-- What `next` does when the frame is there; the sum of the length and of its own four bytes is
a 32-bit one. -/
def advance (len : ℕ) (r : StreamReader) : StreamReader :=
  if r.at_ + (4 + len) % 2 ^ 32 = r.buf.length then { r with buf := [], at_ := 0 }
  else { r with at_ := r.at_ + (4 + len) % 2 ^ 32 }

/-- `next`. -/
def next (r : StreamReader) : Option Bytes × StreamReader :=
  if r.broken then (none, r)
  else
    let have_ := r.buf.length - r.at_
    if have_ < 4 then (none, r)
    else
      let len := readU32 (r.buf.drop r.at_)
      if r.limits.maxFrame < len then (none, { r with why := lit "a frame longer than the limit" })
      else if len < kPrefix then (none, { r with why := lit "a frame shorter than its own prefix" })
      else
        let magic := min (have_ - 4) 4
        if (r.buf.drop (r.at_ + 4)).take magic ≠ kMagic.take magic then
          (none, { r with why := lit "not a Void Palabra frame" })
        else if have_ - 4 < len then (none, r)
        else (some ((r.buf.drop (r.at_ + 4)).take len), r.advance len)

end StreamReader

/-- `next` called until it returns false: the frames, and the reader after that. -/
inductive Drained : StreamReader → List Bytes → StreamReader → Prop
  /-- There is no whole frame. -/
  | stop {r : StreamReader} (h : r.next.1 = none) : Drained r [] r.next.2
  /-- There is one. -/
  | more {r r' : StreamReader} {frame : Bytes} {frames : List Bytes} (h : r.next.1 = some frame)
      (hr : Drained r.next.2 frames r') : Drained r (frame :: frames) r'

/-- A stream that comes in pieces, each of which is fed and drained. -/
inductive Fed : StreamReader → List Bytes → List Bytes → StreamReader → Prop
  /-- Nothing comes. -/
  | nil (r : StreamReader) : Fed r [] [] r
  /-- A piece comes, and then the others. -/
  | cons {r r' r'' : StreamReader} {piece : Bytes} {pieces frames frames' : List Bytes}
      (hd : Drained (r.feed piece) frames r') (hf : Fed r' pieces frames' r'') :
      Fed r (piece :: pieces) (frames ++ frames') r''

/-! ### What a reader does, as a parser -/

/-- Four bytes that are there say a length that no frame has, or what follows them is not the
beginning of a frame. -/
def BadFront (limits : Limits) (b : Bytes) : Prop :=
  4 ≤ b.length ∧ (limits.maxFrame < readU32 b ∨ readU32 b < kPrefix ∨
    (b.drop 4).take (min (b.length - 4) 4) ≠ kMagic.take (min (b.length - 4) 4))

instance (limits : Limits) (b : Bytes) : Decidable (BadFront limits b) := instDecidableAnd

/-- What is read off the front of a stream. -/
def frontStep (limits : Limits) (b : Bytes) : Front Bytes :=
  if BadFront limits b then .fail
  else if b.length < 4 ∨ b.length - 4 < readU32 b then .wait
  else .take ((b.drop 4).take (readU32 b)) (4 + readU32 b)

theorem readU32_append {b : Bytes} (h : 4 ≤ b.length) (c : Bytes) : readU32 (b ++ c) = readU32 b := by
  rw [readU32, readU32, List.take_append_of_le_length h]

/-- A front that is bad stays bad. -/
theorem BadFront.append {limits : Limits} {b : Bytes} (h : BadFront limits b) (c : Bytes) :
    BadFront limits (b ++ c) := by
  obtain ⟨hlen, hbad⟩ := h
  refine ⟨by rw [List.length_append]; omega, ?_⟩
  rw [readU32_append hlen]
  refine hbad.imp_right fun hbad => hbad.imp_right fun hne heq => hne ?_
  rw [List.length_append, List.drop_append_of_le_length hlen] at heq
  -- What was compared before is the beginning of what is compared now.
  have hmin : min (b.length - 4) 4 ≤ min (b.length + c.length - 4) 4 := by omega
  have htake := congrArg (List.take (min (b.length - 4) 4)) heq
  rwa [List.take_take, List.take_take, min_eq_left hmin,
    List.take_append_of_le_length (by rw [List.length_drop]; omega)] at htake

theorem readU32_lt (b : Bytes) : readU32 b < 2 ^ 32 := by
  have hfold : ∀ (b : Bytes), b.foldr (fun c n => c.toNat + 256 * n) 0 < 256 ^ b.length := by
    intro b
    induction b with
    | nil => decide
    | cons c b ih =>
      have := c.toNat_lt
      rw [List.foldr_cons, List.length_cons, pow_succ]
      omega
  have hle : 256 ^ (b.take 4).length ≤ 256 ^ 4 :=
    Nat.pow_le_pow_right (by decide) (by rw [List.length_take]; omega)
  exact lt_of_lt_of_le (hfold _) (le_trans hle (by norm_num))

theorem steady_frontStep (limits : Limits) : Steady (frontStep limits) where
  take_append := by
    intro b frame n h c
    unfold frontStep at h ⊢
    split_ifs at h with hbad hwait
    obtain ⟨hlen, hle⟩ := not_or.mp hwait
    rw [not_lt] at hlen hle
    cases h
    have hgood : ¬BadFront limits (b ++ c) := by
      rintro ⟨-, hb⟩
      refine hbad ⟨hlen, ?_⟩
      rw [readU32_append hlen] at hb
      rcases hb with hb | hb | hb
      · exact Or.inl hb
      · exact Or.inr (Or.inl hb)
      · -- A whole frame is long enough for its magic to have been compared.
        by_cases hshort : readU32 b < kPrefix
        · exact Or.inr (Or.inl hshort)
        · have h4 : min (b.length - 4) 4 = 4 := by
            rw [kPrefix] at hshort
            omega
          have h4' : min ((b ++ c).length - 4) 4 = 4 := by
            rw [List.length_append]
            omega
          rw [h4', List.drop_append_of_le_length hlen,
            List.take_append_of_le_length (by rw [List.length_drop]; omega)] at hb
          rw [h4]
          exact Or.inr (Or.inr hb)
    rw [if_neg hgood, readU32_append hlen, if_neg (by rw [List.length_append]; omega),
      List.drop_append_of_le_length hlen,
      List.take_append_of_le_length (by rw [List.length_drop]; omega)]
  fail_append := by
    intro b h c
    unfold frontStep at h ⊢
    split_ifs at h with hbad
    rw [if_pos (hbad.append c)]
  used := by
    intro b frame n h
    unfold frontStep at h
    split_ifs at h with hbad hwait
    cases h
    omega

/-! ### Frames that a stream carries -/

/-- A frame that a stream may carry. -/
structure Carried (limits : Limits) (frame : Bytes) : Prop where
  /-- It has the fixed prefix. -/
  long : kPrefix ≤ frame.length
  /-- It is within the limit. -/
  short : frame.length ≤ limits.maxFrame
  /-- It starts with the magic. -/
  magic : frame.take 4 = kMagic

theorem length_streamFrame (frame : Bytes) : (streamFrame frame).length = 4 + frame.length := by
  rw [streamFrame, List.length_append, length_littleEndian]

/-- The four bytes of a length are those of the number read from them. -/
theorem littleEndian_readU32 {b : Bytes} (h : 4 ≤ b.length) : littleEndian (readU32 b) = b.take 4 := by
  match b, h with
  | b0 :: b1 :: b2 :: b3 :: rest, _ =>
    have h0 := b0.toNat_lt
    have h1 := b1.toNat_lt
    have h2 := b2.toNat_lt
    have h3 := b3.toNat_lt
    simp only [readU32, List.take_succ_cons, List.take_zero, List.foldr_cons, List.foldr_nil,
      littleEndian, List.map_cons, List.map_nil, List.cons.injEq, and_true]
    refine ⟨?_, ?_, ?_, ?_⟩ <;> apply UInt8.toNat_inj.mp <;>
      simp only [Nat.toUInt8_eq, UInt8.toNat_ofNat'] <;> omega

section

variable {limits : Limits}

/-- A frame is taken off the front of a stream. -/
theorem frontStep_streamFrame {frame : Bytes} (h : Carried limits frame) (hlen : frame.length < 2 ^ 32)
    (rest : Bytes) : frontStep limits (streamFrame frame ++ rest) = .take frame (4 + frame.length) := by
  have hread : readU32 (streamFrame frame ++ rest) = frame.length := by
    rw [streamFrame, List.append_assoc, readU32_littleEndian, Nat.mod_eq_of_lt hlen]
  have hdrop : (streamFrame frame ++ rest).drop 4 = frame ++ rest := by
    rw [streamFrame, List.append_assoc, List.drop_left' (length_littleEndian _)]
  have hlong := h.long
  have hshort := h.short
  have hlength : (streamFrame frame ++ rest).length = 4 + frame.length + rest.length := by
    rw [List.length_append, length_streamFrame]
  rw [kPrefix] at hlong
  have hgood : ¬BadFront limits (streamFrame frame ++ rest) := by
    rintro ⟨-, hb⟩
    rw [hread, hdrop, kPrefix, show min ((streamFrame frame ++ rest).length - 4) 4 = 4 by omega,
      List.take_append_of_le_length (by omega), h.magic] at hb
    rcases hb with hb | hb | hb
    · omega
    · omega
    · exact hb rfl
  rw [frontStep, if_neg hgood, hread, hdrop, if_neg (by omega), List.take_left' rfl]

/-- What is taken off the front is a frame that was put there. -/
theorem frontStep_take {b frame : Bytes} {n : ℕ} (h : frontStep limits b = .take frame n) :
    Carried limits frame ∧ n = 4 + frame.length ∧ b = streamFrame frame ++ b.drop n := by
  unfold frontStep at h
  split_ifs at h with hbad hwait
  cases h
  obtain ⟨hlen, hle⟩ := not_or.mp hwait
  rw [not_lt] at hlen hle
  have hframe : ((b.drop 4).take (readU32 b)).length = readU32 b := by
    rw [List.length_take, List.length_drop]
    omega
  have hgood : ¬(limits.maxFrame < readU32 b ∨ readU32 b < kPrefix ∨
      (b.drop 4).take (min (b.length - 4) 4) ≠ kMagic.take (min (b.length - 4) 4)) :=
    fun hb => hbad ⟨hlen, hb⟩
  obtain ⟨hshort, hgood⟩ := not_or.mp hgood
  obtain ⟨hlong, hmagic⟩ := not_or.mp hgood
  rw [not_lt] at hshort hlong
  have hprefix := hlong
  rw [kPrefix] at hprefix
  rw [show min (b.length - 4) 4 = 4 by omega, not_not] at hmagic
  refine ⟨⟨by rwa [hframe], by rwa [hframe], ?_⟩, by rw [hframe], ?_⟩
  · rw [List.take_take, min_eq_left (by omega), hmagic]
    rfl
  · rw [streamFrame, hframe, littleEndian_readU32 hlen, ← List.drop_drop, List.append_assoc,
      List.take_append_drop, List.take_append_drop]

/-- A stream fails exactly when something bad follows some frames. -/
theorem parsed_none_iff (hl : limits.maxFrame < 2 ^ 32) {b : Bytes} {frames : List Bytes}
    {left : Option Bytes} (h : Parsed (frontStep limits) b frames left) :
    left = none ↔ ∃ (before : List Bytes) (rest : Bytes), (∀ f ∈ before, Carried limits f) ∧
      b = before.flatMap streamFrame ++ rest ∧ BadFront limits rest := by
  constructor
  · intro hn
    induction h with
    | wait => cases hn
    | @fail b hf =>
      refine ⟨[], b, by simp, rfl, ?_⟩
      unfold frontStep at hf
      split_ifs at hf with hbad
      exact hbad
    | @take b frame n frames left ht _ ih =>
      obtain ⟨before, rest, hbefore, heq, hbad⟩ := ih hn
      obtain ⟨hc, -, hb⟩ := frontStep_take ht
      refine ⟨frame :: before, rest, List.forall_mem_cons.mpr ⟨hc, hbefore⟩, ?_, hbad⟩
      rw [List.flatMap_cons, List.append_assoc, ← heq]
      exact hb
  · rintro ⟨before, rest, hbefore, rfl, hbad⟩
    have hparsed : Parsed (frontStep limits) (before.flatMap streamFrame ++ rest) before none := by
      clear h
      induction before with
      | nil => exact .fail (if_pos hbad)
      | cons frame before ih =>
        obtain ⟨hc, hrest⟩ := List.forall_mem_cons.mp hbefore
        rw [List.flatMap_cons, List.append_assoc]
        refine .take (frontStep_streamFrame hc (lt_of_le_of_lt hc.short hl) _) ?_
        rw [List.drop_left' (length_streamFrame frame)]
        exact ih hrest
    exact (h.unique hparsed).2

/-- A stream of frames is parsed to them. -/
theorem parsed_frames (hl : limits.maxFrame < 2 ^ 32) {frames : List Bytes}
    (h : ∀ f ∈ frames, Carried limits f) :
    Parsed (frontStep limits) (frames.flatMap streamFrame) frames (some []) := by
  induction frames with
  | nil => exact .wait rfl
  | cons frame frames ih =>
    obtain ⟨hc, hrest⟩ := List.forall_mem_cons.mp h
    rw [List.flatMap_cons]
    refine .take (frontStep_streamFrame hc (lt_of_le_of_lt hc.short hl) _) ?_
    rw [List.drop_left' (length_streamFrame frame)]
    exact ih hrest

end

end VoidPalabra.Sync
