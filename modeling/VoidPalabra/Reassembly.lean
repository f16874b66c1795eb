import VoidPalabra.Stream

/-!
# However a stream is cut

The reader's buffer, its offset and its compaction come to a plain parse of the bytes it was fed,
as long as no frame is so long that its length and the four bytes of it overflow.
-/

namespace VoidPalabra.Sync

open Piecewise

namespace StreamReader

/-- The bytes that were not handed back. -/
def rest (r : StreamReader) : Bytes := r.buf.drop r.at_

/-- A reader that holds bytes and can go on. -/
structure Holds (limits : Limits) (r : StreamReader) (b : Bytes) : Prop where
  /-- Its limits. -/
  limits : r.limits = limits
  /-- It is not broken. -/
  working : r.broken = false
  /-- Its offset is in its buffer. -/
  offset : r.at_ ≤ r.buf.length
  /-- The bytes. -/
  rest : r.rest = b

/-- The reader that a parse ends with. -/
def EndsWith (limits : Limits) (r : StreamReader) : Option Bytes → Prop
  | some b => r.Holds limits b
  | none => r.broken = true

variable {limits : Limits} {r : StreamReader} {b : Bytes}

theorem Holds.pending (h : r.Holds limits b) : r.pending = b.length := by
  rw [StreamReader.pending, ← h.rest, StreamReader.rest, List.length_drop]

/-! ### One call -/

theorem Holds.compact (h : r.Holds limits b) : r.compact.Holds limits b := by
  unfold StreamReader.compact
  split_ifs
  · exact ⟨h.limits, h.working, Nat.zero_le _, h.rest⟩
  · exact h

/-- What is fed is held behind what was held. -/
theorem Holds.feed (h : r.Holds limits b) (data : Bytes) : (r.feed data).Holds limits (b ++ data) := by
  unfold StreamReader.feed
  split_ifs with hc
  · rcases hc with hc | hc
    · rw [h.working] at hc
      cases hc
    · rwa [List.isEmpty_iff.mp hc, List.append_nil]
  · have hcompact := h.compact
    refine ⟨hcompact.limits, hcompact.working, ?_, ?_⟩
    · have := hcompact.offset
      dsimp only
      rw [List.length_append]
      omega
    · have hrest := hcompact.rest
      rw [StreamReader.rest] at hrest ⊢
      dsimp only
      rw [List.drop_append_of_le_length hcompact.offset, hrest]

/-- A reader that waits stays as it is. -/
theorem Holds.next_wait (h : r.Holds limits b) (hb : frontStep limits b = .wait) : r.next = (none, r) := by
  have hlen := h.pending
  have hdrop : r.buf.drop r.at_ = b := h.rest
  have hdrop4 : r.buf.drop (r.at_ + 4) = b.drop 4 := by rw [← List.drop_drop, hdrop]
  rw [StreamReader.pending] at hlen
  unfold frontStep at hb
  split_ifs at hb with hbad hwait
  unfold StreamReader.next
  rw [h.working, if_neg Bool.false_ne_true, h.limits, hlen, hdrop, hdrop4]
  dsimp only
  by_cases hshort : b.length < 4
  · rw [if_pos hshort]
  · have hgood : ¬(limits.maxFrame < readU32 b ∨ readU32 b < kPrefix ∨
        (b.drop 4).take (min (b.length - 4) 4) ≠ kMagic.take (min (b.length - 4) 4)) :=
      fun hb => hbad ⟨by omega, hb⟩
    obtain ⟨h1, hgood⟩ := not_or.mp hgood
    obtain ⟨h2, h3⟩ := not_or.mp hgood
    rw [if_neg hshort, if_neg h1, if_neg h2, if_neg h3, if_pos (hwait.resolve_left hshort)]

/-- A reader breaks on a bad front. -/
theorem Holds.next_fail (h : r.Holds limits b) (hb : frontStep limits b = .fail) :
    r.next.1 = none ∧ r.next.2.broken = true := by
  have hlen := h.pending
  have hdrop : r.buf.drop r.at_ = b := h.rest
  have hdrop4 : r.buf.drop (r.at_ + 4) = b.drop 4 := by rw [← List.drop_drop, hdrop]
  rw [StreamReader.pending] at hlen
  unfold frontStep at hb
  split_ifs at hb with hbad
  obtain ⟨hlong, hbad⟩ := hbad
  unfold StreamReader.next
  rw [h.working, if_neg Bool.false_ne_true, h.limits, hlen, hdrop, hdrop4]
  dsimp only
  rw [if_neg (by omega)]
  by_cases h1 : limits.maxFrame < readU32 b
  · rw [if_pos h1]
    exact ⟨rfl, by simp only [StreamReader.broken]; decide⟩
  by_cases h2 : readU32 b < kPrefix
  · rw [if_neg h1, if_pos h2]
    exact ⟨rfl, by simp only [StreamReader.broken]; decide⟩
  · rw [if_neg h1, if_neg h2, if_pos ((hbad.resolve_left h1).resolve_left h2)]
    exact ⟨rfl, by simp only [StreamReader.broken]; decide⟩

/-- A reader hands back the frame at its front. -/
theorem Holds.next_take (h : r.Holds limits b) (hl : limits.maxFrame < 2 ^ 32 - 4) {frame : Bytes}
    {n : ℕ} (hb : frontStep limits b = .take frame n) :
    r.next.1 = some frame ∧ r.next.2.Holds limits (b.drop n) := by
  have hlen := h.pending
  have hoffset := h.offset
  have hdrop : r.buf.drop r.at_ = b := h.rest
  have hdrop4 : r.buf.drop (r.at_ + 4) = b.drop 4 := by rw [← List.drop_drop, hdrop]
  rw [StreamReader.pending] at hlen
  unfold frontStep at hb
  split_ifs at hb with hbad hwait
  cases hb
  obtain ⟨hshort, hwhole⟩ := not_or.mp hwait
  have hgood : ¬(limits.maxFrame < readU32 b ∨ readU32 b < kPrefix ∨
      (b.drop 4).take (min (b.length - 4) 4) ≠ kMagic.take (min (b.length - 4) 4)) :=
    fun hb => hbad ⟨by omega, hb⟩
  obtain ⟨h1, hgood⟩ := not_or.mp hgood
  obtain ⟨h2, h3⟩ := not_or.mp hgood
  have hnext : r.next = (some ((b.drop 4).take (readU32 b)), r.advance (readU32 b)) := by
    unfold StreamReader.next
    rw [h.working, if_neg Bool.false_ne_true, h.limits, hlen, hdrop, hdrop4]
    dsimp only
    rw [if_neg hshort, if_neg h1, if_neg h2, if_neg h3, if_neg hwhole]
  rw [hnext]
  refine ⟨rfl, ?_⟩
  dsimp only
  rw [advance, Nat.mod_eq_of_lt (by omega)]
  split_ifs with hend
  · refine ⟨h.limits, h.working, le_rfl, ?_⟩
    -- The frame was all that was held.
    rw [StreamReader.rest, List.drop_nil, List.drop_eq_nil_of_le (by omega)]
  · refine ⟨h.limits, h.working, by dsimp only; omega, ?_⟩
    rw [StreamReader.rest, ← List.drop_drop, hdrop]

/-! ### A broken reader -/

theorem next_broken (h : r.broken = true) : r.next = (none, r) := by
  rw [StreamReader.next, if_pos h]

theorem feed_broken (h : r.broken = true) (data : Bytes) : r.feed data = r := by
  rw [StreamReader.feed, if_pos (Or.inl h)]

end StreamReader

theorem drained_broken {r : StreamReader} (h : r.broken = true) : Drained r [] r := by
  have hstop := Drained.stop (r := r) (by rw [StreamReader.next_broken h])
  rwa [StreamReader.next_broken h] at hstop

/-- A broken reader stays broken and hands nothing back. -/
theorem fed_broken {r : StreamReader} (h : r.broken = true) (pieces : List Bytes) : Fed r pieces [] r := by
  induction pieces with
  | nil => exact .nil r
  | cons piece pieces ih =>
    have hd : Drained (r.feed piece) [] r := by
      rw [StreamReader.feed_broken h]
      exact drained_broken h
    exact .cons hd ih

/-! ### Runs -/

theorem Drained.unique {r r' r'' : StreamReader} {frames frames' : List Bytes}
    (h : Drained r frames r') (h' : Drained r frames' r'') : frames = frames' ∧ r' = r'' := by
  induction h generalizing frames' r'' with
  | stop hn =>
    cases h' with
    | stop => exact ⟨rfl, rfl⟩
    | more hs => cases hn.symm.trans hs
  | more hs _ ih =>
    cases h' with
    | stop hn => cases hs.symm.trans hn
    | more hs' hr' =>
      cases hs.symm.trans hs'
      obtain ⟨rfl, rfl⟩ := ih hr'
      exact ⟨rfl, rfl⟩

/-- A stream ends in one way. -/
theorem Fed.unique {r r' r'' : StreamReader} {pieces frames frames' : List Bytes}
    (h : Fed r pieces frames r') (h' : Fed r pieces frames' r'') : frames = frames' ∧ r' = r'' := by
  induction h generalizing frames' r'' with
  | nil =>
    cases h'
    exact ⟨rfl, rfl⟩
  | cons hd _ ih =>
    cases h' with
    | cons hd' hf' =>
      obtain ⟨rfl, rfl⟩ := hd.unique hd'
      obtain ⟨rfl, rfl⟩ := ih hf'
      exact ⟨rfl, rfl⟩

section

variable {limits : Limits} {r : StreamReader} {b : Bytes} {frames : List Bytes} {left : Option Bytes}

/-- A reader that is drained parses what it holds. -/
theorem exists_drained (hl : limits.maxFrame < 2 ^ 32 - 4) (hp : Parsed (frontStep limits) b frames left)
    (h : r.Holds limits b) : ∃ r', Drained r frames r' ∧ r'.EndsWith limits left := by
  induction hp generalizing r with
  | wait hw =>
    have hn := h.next_wait hw
    refine ⟨r.next.2, .stop (by rw [hn]), ?_⟩
    rw [hn]
    exact h
  | fail hf =>
    obtain ⟨hnone, hbroken⟩ := h.next_fail hf
    exact ⟨r.next.2, .stop hnone, hbroken⟩
  | take ht _ ih =>
    obtain ⟨hsome, hholds⟩ := h.next_take hl ht
    obtain ⟨r', hd, hr'⟩ := ih hholds
    exact ⟨r', .more hsome hd, hr'⟩

/-- A reader that is fed piece by piece parses all of them. -/
theorem exists_fed (hl : limits.maxFrame < 2 ^ 32 - 4) (pieces : List Bytes)
    (hp : Parsed (frontStep limits) (b ++ pieces.flatten) frames left) (h : r.Holds limits b)
    (hw : frontStep limits b = .wait) : ∃ r', Fed r pieces frames r' ∧ r'.EndsWith limits left := by
  induction pieces generalizing r b frames with
  | nil =>
    rw [List.flatten_nil, List.append_nil] at hp
    obtain ⟨rfl, rfl⟩ := hp.unique (.wait hw)
    exact ⟨r, .nil r, h⟩
  | cons piece pieces ih =>
    have hs := steady_frontStep limits
    obtain ⟨first, left₁, hfirst⟩ := exists_parsed hs (b ++ piece)
    obtain ⟨r₁, hd, hr₁⟩ := exists_drained hl hfirst (h.feed piece)
    rw [List.flatten_cons, ← List.append_assoc] at hp
    cases left₁ with
    | none =>
      obtain ⟨rfl, rfl⟩ := hp.unique (hfirst.append_failed hs rfl pieces.flatten)
      have hf := Fed.cons hd (fed_broken hr₁ pieces)
      rw [List.append_nil] at hf
      exact ⟨r₁, hf, hr₁⟩
    | some rest =>
      obtain ⟨others, left₂, hothers⟩ := exists_parsed hs (rest ++ pieces.flatten)
      obtain ⟨rfl, rfl⟩ := hp.unique (hfirst.append hs rfl hothers)
      obtain ⟨r', hf, hr'⟩ := ih hothers hr₁ (hfirst.left_wait rfl)
      exact ⟨r', .cons hd hf, hr'⟩

end

/-- A reader of a new stream. -/
def newReader (limits : Limits) : StreamReader := { limits := limits }

theorem holds_newReader (limits : Limits) : (newReader limits).Holds limits [] :=
  ⟨rfl, rfl, le_rfl, rfl⟩

/-- What a reader should make of a stream. -/
structure Reassembles (limits : Limits) : Prop where
  /-- Every stream comes to an end, however it is cut. -/
  ends : ∀ pieces, ∃ frames r, Fed (newReader limits) pieces frames r
  /-- How it is cut makes no difference. -/
  independent : ∀ {pieces pieces' frames frames' : List Bytes} {r r' : StreamReader},
    pieces.flatten = pieces'.flatten → Fed (newReader limits) pieces frames r →
      Fed (newReader limits) pieces' frames' r' →
        frames = frames' ∧ r.broken = r'.broken ∧ (r.broken = false → r.pending = r'.pending)
  /-- Frames come back as they were put on the stream. -/
  whole : ∀ {pieces frames : List Bytes}, (∀ f ∈ frames, Carried limits f) →
    pieces.flatten = frames.flatMap streamFrame →
      ∃ r, Fed (newReader limits) pieces frames r ∧ r.broken = false ∧ r.pending = 0
  /-- A broken stream stays broken. -/
  stays : ∀ {pieces frames : List Bytes} {r : StreamReader}, Fed (newReader limits) pieces frames r →
    r.broken = true → ∀ pieces', Fed r pieces' [] r
  /-- A stream breaks when something bad follows some frames. -/
  broken_iff : ∀ {pieces frames : List Bytes} {r : StreamReader}, Fed (newReader limits) pieces frames r →
    (r.broken = true ↔ ∃ (before : List Bytes) (rest : Bytes), (∀ f ∈ before, Carried limits f) ∧
      pieces.flatten = before.flatMap streamFrame ++ rest ∧ BadFront limits rest)

section

variable {limits : Limits}

/-- A run of a reader is a parse of what it was fed. -/
theorem Fed.parsed (hl : limits.maxFrame < 2 ^ 32 - 4) {pieces frames : List Bytes} {r : StreamReader}
    (h : Fed (newReader limits) pieces frames r) :
    ∃ left, Parsed (frontStep limits) pieces.flatten frames left ∧ r.EndsWith limits left := by
  obtain ⟨frames', left, hp⟩ := exists_parsed (steady_frontStep limits) pieces.flatten
  obtain ⟨r', hf, hr'⟩ := exists_fed hl pieces (b := []) hp (holds_newReader limits) rfl
  obtain ⟨rfl, rfl⟩ := h.unique hf
  exact ⟨left, hp, hr'⟩

/-- A frame so long that its length and the four bytes of it overflow is handed back again and
again. -/
theorem not_reassembles (hl : 2 ^ 32 - 4 ≤ limits.maxFrame) : ¬Reassembles limits := by
  intro h
  obtain ⟨frame, hlen, hmagic⟩ : ∃ frame : Bytes, frame.length = 2 ^ 32 - 4 ∧ frame.take 4 = kMagic := by
    refine ⟨kMagic ++ List.replicate (2 ^ 32 - 8) 0, ?_, List.take_left' length_kMagic⟩
    rw [List.length_append, List.length_replicate, length_kMagic]
    omega
  have hc : Carried limits frame := ⟨by rw [hlen, kPrefix]; omega, by omega, hmagic⟩
  obtain ⟨r, hf, -⟩ := @Reassembles.whole _ h [streamFrame frame] [frame] (by simpa using hc)
    (by simp)
  have hlong := hc.long
  have hshort := hc.short
  have hread : readU32 (streamFrame frame) = frame.length := by
    have := readU32_littleEndian frame.length frame
    rwa [Nat.mod_eq_of_lt (by omega)] at this
  have hdrop : (streamFrame frame).drop 4 = frame := List.drop_left' (length_littleEndian _)
  have hlength := length_streamFrame frame
  have hfed : (newReader limits).feed (streamFrame frame) = ⟨limits, streamFrame frame, 0, []⟩ := by
    rw [StreamReader.feed, if_neg]
    · rfl
    · rintro (hb | hb)
      · cases hb
      · rw [List.isEmpty_iff.mp hb] at hlength
        simp only [List.length_nil] at hlength
        omega
  have hnext : StreamReader.next ⟨limits, streamFrame frame, 0, []⟩ =
      (some frame, ⟨limits, streamFrame frame, 0, []⟩) := by
    rw [StreamReader.next, if_neg (by simp [StreamReader.broken])]
    dsimp only
    rw [List.drop_zero, hread, Nat.zero_add, hdrop, hlength, if_neg (by omega), if_neg (by omega),
      if_neg (by omega), show min (4 + frame.length - 0 - 4) 4 = 4 by omega, hc.magic, if_neg, if_neg (by omega),
      List.take_length]
    · rw [StreamReader.advance, hlen, if_neg (by dsimp only; omega)]
      rfl
    · exact fun hne => hne rfl
  generalize hfs : [frame] = fs at hf
  cases hf with
  | @cons _ r' _ _ _ frames frames' hd hrest =>
    cases hrest
    rw [List.append_nil] at hfs
    subst hfs
    rw [hfed] at hd
    cases hd with
    | more _ hd =>
      rw [hnext] at hd
      generalize hnil : ([] : List Bytes) = fs at hd
      cases hd with
      | stop hn =>
        rw [hnext] at hn
        cases hn
      | more => cases hnil

/-- **Reassembly.** A reader makes of every stream what it should when no frame within its limit
has a length that overflows with its own four bytes; and only then. -/
theorem reassembles_iff (limits : Limits) : Reassembles limits ↔ limits.maxFrame < 2 ^ 32 - 4 := by
  constructor
  · intro h
    by_contra hl
    exact not_reassembles (not_lt.mp hl) h
  · intro hl
    refine ⟨fun pieces => ?_, fun hsame hf hf' => ?_, fun hcarried hpieces => ?_,
      fun _ hbroken pieces' => fed_broken hbroken pieces', fun hf => ?_⟩
    · obtain ⟨frames, left, hp⟩ := exists_parsed (steady_frontStep limits) pieces.flatten
      obtain ⟨r, hf, -⟩ := exists_fed hl pieces (b := []) hp (holds_newReader limits) rfl
      exact ⟨frames, r, hf⟩
    · obtain ⟨left, hp, hr⟩ := hf.parsed hl
      obtain ⟨left', hp', hr'⟩ := hf'.parsed hl
      rw [hsame] at hp
      obtain ⟨rfl, rfl⟩ := hp.unique hp'
      cases left with
      | none => exact ⟨rfl, hr.trans hr'.symm, fun hworks => absurd (hr.symm.trans hworks) (by decide)⟩
      | some b =>
        have hh : StreamReader.Holds limits _ b := hr
        have hh' : StreamReader.Holds limits _ b := hr'
        exact ⟨rfl, hh.working.trans hh'.working.symm, fun _ => hh.pending.trans hh'.pending.symm⟩
    · have hp := parsed_frames (by omega) hcarried
      rw [← hpieces] at hp
      obtain ⟨r, hf, hr⟩ := exists_fed hl _ (b := []) hp (holds_newReader limits) rfl
      have hh : StreamReader.Holds limits r [] := hr
      exact ⟨r, hf, hh.working, hh.pending⟩
    · obtain ⟨left, hp, hr⟩ := hf.parsed hl
      rw [← parsed_none_iff (by omega) hp]
      cases left with
      | none => exact ⟨fun _ => rfl, fun _ => hr⟩
      | some b =>
        have hh : StreamReader.Holds limits _ b := hr
        rw [hh.working]
        exact ⟨fun hb => (nomatch hb), fun hb => (nomatch hb)⟩

/-- Under a limit of 2^32 bytes one frame is handed back without end. -/
theorem long_frame_handed_back_again : ¬Reassembles { maxFrame := 2 ^ 32 } :=
  not_reassembles (by decide)

end

end VoidPalabra.Sync
