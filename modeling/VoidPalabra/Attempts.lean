import VoidPalabra.Fetching

/-!
# How often an address is asked for

Every request is counted, and time makes another one only while an attempt is left. A file with
other bytes makes another one without a look at the count, so requests are bounded as long as no
such file comes for the last of them.
-/

namespace VoidPalabra.Sync

/-- The requests that are left for an address. -/
def requestsLeft (max : ℤ) : Option Want → ℤ
  | none => max
  | some w => if w.state = .wanted ∨ w.state = .requested then max - w.attempts else 0

/-- A request that is to be made is one that is left. -/
def Sparing (max : ℤ) (w : Option Want) : Prop :=
  ∀ v, w = some v → (v.state = .wanted → v.attempts < max) ∧ (v.state = .requested → v.attempts ≤ max)

/-- An address that was given up. -/
def GivenUp (w : Option Want) : Prop := ∃ v, w = some v ∧ v.state = .unavailable

theorem requestsLeft_le {max : ℤ} (hmax : 1 ≤ max) (w : Option Want) : requestsLeft max w ≤ max := by
  cases w with
  | none => exact le_rfl
  | some v =>
    rw [requestsLeft]
    split_ifs <;> omega

theorem Sparing.left_nonneg {max : ℤ} {w : Option Want} (h : Sparing max w) (hmax : 1 ≤ max) :
    0 ≤ requestsLeft max w := by
  cases w with
  | none => exact le_trans zero_le_one hmax
  | some v =>
    rw [requestsLeft]
    split_ifs with hst
    · obtain ⟨hwanted, hrequested⟩ := h v rfl
      rcases hst with hst | hst
      · have := hwanted hst
        omega
      · have := hrequested hst
        omega
    · exact le_rfl

section
variable {timing : Timing} {policy : FetchPolicy} {w w' : Option Want} {m : Move} {ms : List Move}

/-- Other bytes come while an attempt is left. -/
def Early (timing : Timing) (w : Option Want) : Prop :=
  ∀ v, w = some v → v.state = .requested → v.attempts < timing.contentAttempts

/-- A move keeps the count below the limit. -/
theorem Moved.sparing (h : Moved timing policy w m w') (hmax : 1 ≤ timing.contentAttempts)
    (hw : Sparing timing.contentAttempts w) (hm : m = .mismatch → Early timing w) :
    Sparing timing.contentAttempts w' := by
  intro v hv
  cases h with
  | enter =>
    obtain rfl := Option.some.inj hv
    exact ⟨fun _ => by simp; omega, fun hst => by cases policy <;> simp at hst⟩
  | leave => cases hv
  | @ask u now hu =>
    obtain rfl := Option.some.inj hv
    have := (hw u rfl).1 hu
    exact ⟨nofun, fun _ => by push_cast; omega⟩
  | @retry u hu ha =>
    obtain rfl := Option.some.inj hv
    exact ⟨fun _ => not_le.mp ha, nofun⟩
  | giveUp =>
    obtain rfl := Option.some.inj hv
    exact ⟨nofun, nofun⟩
  | @mismatch u hu =>
    obtain rfl := Option.some.inj hv
    exact ⟨fun _ => hm rfl u rfl hu, nofun⟩
  | absent =>
    obtain rfl := Option.some.inj hv
    exact ⟨nofun, nofun⟩
  | arrive => cases hv

/-- A request takes one of those that are left, and no move adds to them. -/
theorem Moved.left (h : Moved timing policy w m w') (hmax : 1 ≤ timing.contentAttempts)
    (hw : Sparing timing.contentAttempts w) (hleave : m ≠ .leave) (harrive : m ≠ .arrive) :
    (if m = .ask then 1 else 0) + requestsLeft timing.contentAttempts w' ≤
      requestsLeft timing.contentAttempts w := by
  have hleft := hw.left_nonneg hmax
  cases h with
  | enter =>
    cases policy
    · simp [requestsLeft]
    · simpa [requestsLeft] using hleft
  | leave => exact absurd rfl hleave
  | ask now hu =>
    simp [requestsLeft, hu]
    omega
  | retry hu => simp [requestsLeft, hu]
  | giveUp hu => simpa [requestsLeft] using hleft
  | mismatch hu => simp [requestsLeft, hu]
  | absent hu => simpa [requestsLeft] using hleft
  | arrive => exact absurd rfl harrive

/-- Other bytes come alone and early. -/
def EarlyAlone (timing : Timing) (w : Option Want) (ms : List Move) : Prop :=
  .mismatch ∈ ms → ms.length = 1 ∧ Early timing w

theorem EarlyAlone.rest (h : EarlyAlone timing w (m :: ms)) : EarlyAlone timing w' ms := by
  intro hm
  obtain ⟨hlength, -⟩ := h (List.mem_cons_of_mem _ hm)
  have : ms = [] := by simpa using hlength
  rw [this] at hm
  cases hm

theorem Path.sparing (h : Path timing policy w ms w') (hmax : 1 ≤ timing.contentAttempts)
    (hw : Sparing timing.contentAttempts w) (hm : EarlyAlone timing w ms) :
    Sparing timing.contentAttempts w' := by
  induction h with
  | nil => exact hw
  | cons first _ ih =>
    refine ih (first.sparing hmax hw ?_) hm.rest
    rintro rfl
    exact (hm List.mem_cons_self).2

theorem Path.left (h : Path timing policy w ms w') (hmax : 1 ≤ timing.contentAttempts)
    (hw : Sparing timing.contentAttempts w) (hm : EarlyAlone timing w ms) (hleave : .leave ∉ ms)
    (harrive : .arrive ∉ ms) :
    (ms.count .ask : ℤ) + requestsLeft timing.contentAttempts w' ≤
      requestsLeft timing.contentAttempts w := by
  induction h with
  | nil => simp
  | @cons w w' w'' m ms first _ ih =>
    rw [List.mem_cons, not_or] at hleave harrive
    have hmid : Sparing timing.contentAttempts w' := by
      refine first.sparing hmax hw ?_
      rintro rfl
      exact (hm List.mem_cons_self).2
    have hfirst := first.left hmax hw (Ne.symm hleave.1) (Ne.symm harrive.1)
    have hrest := ih hmid hm.rest hleave.2 harrive.2
    rw [List.count_cons]
    by_cases hask : m = .ask
    · simp only [hask, beq_self_eq_true, if_true] at hfirst ⊢
      push_cast
      omega
    · simp only [beq_iff_eq, hask, if_false] at hfirst ⊢
      push_cast
      omega

/-- What was given up stays so. -/
theorem Path.of_givenUp (h : Path timing policy w ms w') (hw : GivenUp w) (hleave : .leave ∉ ms) :
    ms = [] ∧ GivenUp w' := by
  cases h with
  | nil => exact ⟨rfl, hw⟩
  | cons first _ =>
    obtain ⟨v, rfl, hv⟩ := hw
    cases first with
    | leave => exact absurd List.mem_cons_self hleave
    | ask _ hu => simp [hu] at hv
    | retry hu => simp [hu] at hv
    | giveUp hu => simp [hu] at hv
    | mismatch hu => simp [hu] at hv
    | absent hu => simp [hu] at hv
    | arrive hu => simp [hu] at hv

/-- Nothing is asked for once it was reported. -/
def OverOnce (said : List Seen) : Prop := said.Pairwise fun x y => x = .unavailable → y ≠ .asked

theorem Path.overOnce (h : Path timing policy w ms w') (hleave : .leave ∉ ms) :
    OverOnce (ms.filterMap Move.seen) ∧ (.unavailable ∈ ms.filterMap Move.seen → GivenUp w') := by
  induction h with
  | nil => exact ⟨List.Pairwise.nil, nofun⟩
  | @cons w w' w'' m ms first rest ih =>
    rw [List.mem_cons, not_or] at hleave
    obtain ⟨hover, hgiven⟩ := ih hleave.2
    -- what reports an address leaves nothing to come
    have hreport : m.seen = some .unavailable → ms = [] ∧ GivenUp w'' := by
      intro hm
      refine rest.of_givenUp ?_ hleave.2
      cases first <;> simp [Move.seen] at hm
      · exact ⟨_, rfl, rfl⟩
      · exact ⟨_, rfl, rfl⟩
    rw [List.filterMap_cons]
    cases hm : m.seen with
    | none => exact ⟨hover, hgiven⟩
    | some x =>
      dsimp only
      constructor
      · refine List.pairwise_cons.mpr ⟨fun y hy hx => ?_, hover⟩
        rw [(hreport (hx ▸ hm)).1] at hy
        cases hy
      · intro hx
        rcases List.mem_cons.mp hx with rfl | hx
        · exact (hreport hm).2
        · exact hgiven hx

end

/-! ### Calls -/

namespace Entry

/-- The host says what to fetch, or when. -/
def Wishes (e : Entry) : Prop :=
  match e.call with
  | .fetch _ => True
  | .setFetch _ => True
  | _ => False

/-- A file that is heard for an address whose attempts are used up has its bytes. -/
def Spares (e : Entry) : Prop :=
  ∀ m, e.HearsFile m → ∀ w, e.before.wants[m.address]? = some w → w.state = .requested →
    e.before.timing.contentAttempts ≤ w.attempts → contentMatches m.address m.payload = true

theorem prepared_of_not_wishes {e : Entry} (h : ¬e.Wishes) : e.prepared = e.before := by
  obtain ⟨c, host, now, r, s⟩ := e
  cases c with
  | fetch => exact absurd trivial h
  | setFetch => exact absurd trivial h
  | start => rfl
  | receive => rfl
  | tick => rfl
  | publishPresence => rfl
  | close => rfl

theorem HearsFile.not_wishes {e : Entry} {m : Message} (h : e.HearsFile m) : ¬e.Wishes := by
  obtain ⟨c, host, now, r, s⟩ := e
  obtain ⟨hheard, -⟩ := h
  cases c with
  | fetch => cases hheard
  | setFetch => cases hheard
  | start => cases hheard
  | receive => exact id
  | tick => cases hheard
  | publishPresence => cases hheard
  | close => cases hheard

/-- What the host wishes does not take a request that is not left. -/
theorem sparing_prepared {e : Entry} {a : Bytes} {max : ℤ} (hmax : 1 ≤ max)
    (h : Sparing max e.before.wants[a]?) : Sparing max e.prepared.wants[a]? := by
  rw [prepared, prepare_wants]
  cases hu : e.before.wants[a]? with
  | none =>
    intro v hv
    cases hv
  | some u =>
    have hs : Sparing max (some u) := hu ▸ h
    have hfirst : ∀ w : Want, w.attempts = 0 → w.state ≠ .requested → Sparing max (some w) := by
      rintro w hw hne v hv
      obtain rfl := Option.some.inj hv
      exact ⟨fun _ => by rw [hw]; push_cast; omega, fun hst => absurd hst hne⟩
    change Sparing max (some (e.call.wish a u))
    cases e.call with
    | fetch b =>
      change Sparing max (some (if a = b then u.release else u))
      unfold Want.release
      split_ifs
      · exact hfirst _ rfl (by simp)
      · exact hs
      · exact hs
    | setFetch policy =>
      change Sparing max (some (u.follow policy))
      unfold Want.follow
      split_ifs
      · exact hfirst _ rfl (by simp)
      · rintro v hv
        obtain rfl := Option.some.inj hv
        refine ⟨fun hst => ?_, fun hst => ?_⟩ <;> cases hst
      · exact hs
    | start => exact hs
    | receive => exact hs
    | tick => exact hs
    | publishPresence => exact hs
    | close => exact hs

theorem Lives.earlyAlone {e : Entry} {a : Bytes} {ms : List Move} (h : e.Lives a ms)
    (hs : e.Spares) : EarlyAlone e.before.timing e.prepared.wants[a]? ms := by
  intro hm
  obtain ⟨m, hfile, rfl, hmatch⟩ := h.allows _ hm
  refine ⟨h.alone (Or.inl hm), fun v hv hst => not_le.mp fun hle => ?_⟩
  rw [prepared_of_not_wishes hfile.not_wishes] at hv
  rw [hs m hfile v hv hst hle] at hmatch
  cases hmatch

theorem sparing_step {e : Entry} {a : Bytes} (hmax : 1 ≤ e.before.timing.contentAttempts)
    (hs : e.Spares) (h : Sparing e.before.timing.contentAttempts e.before.wants[a]?) :
    Sparing e.before.timing.contentAttempts e.after.wants[a]? := by
  obtain ⟨ms, hl⟩ := e.lives a
  exact hl.path.sparing hmax (sparing_prepared hmax h) (hl.earlyAlone hs)

end Entry

/-! ### Runs -/

/-- The timers of a session stay. -/
theorem Run.timing {s₀ s : Session} {es : List Entry} (hr : Run s₀ es s) : s.timing = s₀.timing := by
  induction hr with
  | nil => rfl
  | @call es e _ ih =>
    obtain ⟨ms, hl⟩ := e.lives []
    exact hl.timing.trans ih

theorem Run.sparing {s₀ s : Session} {es : List Entry} (hf : Fresh s₀) (hr : Run s₀ es s)
    (hmax : 1 ≤ s₀.timing.contentAttempts) (hs : ∀ e ∈ es, e.Spares) (a : Bytes) :
    Sparing s₀.timing.contentAttempts s.wants[a]? := by
  induction hr with
  | nil =>
    intro v hv
    rw [hf] at hv
    simp at hv
  | @call es e hr ih =>
    have hb := ih fun x hx => hs x (List.mem_append_left _ hx)
    rw [← hr.timing] at hb hmax ⊢
    exact Entry.sparing_step hmax (hs e (by simp)) hb

/-- An address that stays named and missing while calls are made, and its bytes do not come. -/
structure StaysMissing (a : Bytes) (es : List Entry) : Prop where
  /-- It is named, and the host does not hold it. -/
  lacks : ∀ e ∈ es, e.Lacks a
  /-- Its bytes do not come. -/
  absent : ∀ e ∈ es, .arrived ∉ seen a e.out

/-- How often an address may be asked for, and when no more. -/
structure AskedWithin (max : ℤ) (a : Bytes) (es : List Entry) : Prop where
  /-- So often. -/
  count : ((seen a (log es)).count .asked : ℤ) ≤ max
  /-- Not after it is reported. -/
  ended : OverOnce (seen a (log es))

/-- Between two wishes of the host an address that stays named and missing is asked for as often as
there are attempts, and not once it is reported. -/
def RequestsBounded (s₀ : Session) (es : List Entry) : Prop :=
  ∀ (past mid later : List Entry) (a : Bytes), es = past ++ mid ++ later → (∀ e ∈ mid.tail, ¬e.Wishes) →
    StaysMissing a mid → AskedWithin s₀.timing.contentAttempts a mid

theorem log_append (es es' : List Entry) : log (es ++ es') = log es ++ log es' := List.flatMap_append

theorem OverOnce.append {said said' : List Seen} (h : OverOnce said) (h' : OverOnce said')
    (hno : .unavailable ∈ said → .asked ∉ said') : OverOnce (said ++ said') := by
  refine List.pairwise_append.mpr ⟨h, h', fun x hx y hy he hask => ?_⟩
  subst he hask
  exact hno hx hy

/-- What stands after calls between two wishes: what was asked for and what is left are no more than
the attempts, and what was reported is given up. -/
structure Bounded (max : ℤ) (a : Bytes) (es : List Entry) (w : Option Want) : Prop where
  /-- What was asked for and what is left. -/
  count : ((seen a (log es)).count .asked : ℤ) + requestsLeft max w ≤ max
  /-- Nothing is asked for once it was reported. -/
  ended : OverOnce (seen a (log es))
  /-- What was reported is given up. -/
  reported : .unavailable ∈ seen a (log es) → GivenUp w

theorem count_asked (ms : List Move) : (ms.filterMap Move.seen).count .asked = ms.count .ask := by
  induction ms with
  | nil => rfl
  | cons m ms ih => cases m <;> simp [Move.seen, List.filterMap_cons, ih]

/-- One call more, from where the host left the table. -/
theorem Bounded.call {max : ℤ} {a : Bytes} {es : List Entry} {e : Entry}
    (h : Bounded max a es e.prepared.wants[a]?) (hmax : 1 ≤ max)
    (htiming : e.before.timing.contentAttempts = max) (hw : Sparing max e.prepared.wants[a]?)
    (hs : e.Spares) (hlacks : e.Lacks a) (habsent : .arrived ∉ seen a e.out) :
    Bounded max a (es ++ [e]) e.after.wants[a]? := by
  subst htiming
  obtain ⟨ms, hl⟩ := e.lives a
  have hleave : .leave ∉ ms := fun hm => hl.allows _ hm hlacks
  have harrive : .arrive ∉ ms := fun hm => habsent
    (hl.seen ▸ List.mem_filterMap.mpr ⟨_, hm, rfl⟩)
  have hpath := hl.path.left hmax hw (hl.earlyAlone hs) hleave harrive
  obtain ⟨hover, hgiven⟩ := hl.path.overOnce hleave
  have hlog : seen a (log (es ++ [e])) = seen a (log es) ++ ms.filterMap Move.seen := by
    rw [log_append, seen_append, hl.seen]
    simp [log]
  have hcount := h.count
  -- once it was reported, nothing moves
  have hstill : .unavailable ∈ seen a (log es) → ms = [] ∧ GivenUp e.after.wants[a]? := fun hm =>
    hl.path.of_givenUp (h.reported hm) hleave
  refine ⟨?_, ?_, ?_⟩
  · rw [hlog, List.count_append, count_asked]
    push_cast
    omega
  · rw [hlog]
    refine h.ended.append hover fun hm => ?_
    rw [(hstill hm).1]
    exact nofun
  · rw [hlog, List.mem_append]
    rintro (hm | hm)
    · exact (hstill hm).2
    · exact hgiven hm

theorem Run.bounded {s₀ s : Session} {past mid : List Entry} {e : Entry} {a : Bytes} (hf : Fresh s₀)
    (hr : Run s₀ (past ++ e :: mid) s) (hmax : 1 ≤ s₀.timing.contentAttempts)
    (hs : ∀ x ∈ past ++ e :: mid, x.Spares) (hwish : ∀ x ∈ mid, ¬x.Wishes)
    (ha : StaysMissing a (e :: mid)) : Bounded s₀.timing.contentAttempts a (e :: mid) s.wants[a]? := by
  induction mid using List.reverseRecOn generalizing s with
  | nil =>
    obtain ⟨hbefore, rfl⟩ := hr.last
    have hsparing := hbefore.sparing hf hmax (fun x hx => hs x (by simp [hx])) a
    have hstart : Bounded s₀.timing.contentAttempts a [] e.prepared.wants[a]? := by
      refine ⟨?_, List.Pairwise.nil, nofun⟩
      simpa [log, seen] using requestsLeft_le hmax _
    exact hstart.call hmax (congrArg Timing.contentAttempts hbefore.timing)
      (Entry.sparing_prepared hmax hsparing) (hs e (by simp)) (ha.lacks e (by simp))
      (ha.absent e (by simp))
  | append_singleton mid x ih =>
    have hr' : Run s₀ ((past ++ e :: mid) ++ [x]) s := by simpa using hr
    obtain ⟨hbefore, rfl⟩ := hr'.last
    have hspares : ∀ y ∈ past ++ e :: mid, y.Spares := fun y hy => hs y (by
      simp only [List.mem_append, List.mem_cons] at hy ⊢
      tauto)
    have hb := ih hbefore hspares (fun y hy => hwish y (List.mem_append_left _ hy))
      ⟨fun y hy => ha.lacks y (List.mem_append_left [x] hy),
        fun y hy => ha.absent y (List.mem_append_left [x] hy)⟩
    have hsparing := hbefore.sparing hf hmax hspares a
    have hprepared := Entry.prepared_of_not_wishes (hwish x (by simp))
    rw [← hprepared] at hb hsparing
    exact hb.call hmax (congrArg Timing.contentAttempts hbefore.timing) hsparing (hs x (by simp))
      (ha.lacks x (by simp)) (ha.absent x (by simp))

/-- **Requests are bounded** in every run in which no file with other bytes comes for an address
whose attempts are used up, whatever else the peer answers. -/
theorem requestsBounded_of_spares {s₀ s : Session} {es : List Entry} (hf : Fresh s₀) (hr : Run s₀ es s)
    (hmax : 1 ≤ s₀.timing.contentAttempts) (hs : ∀ e ∈ es, e.Spares) : RequestsBounded s₀ es := by
  rintro past mid later a rfl hwish ha
  obtain ⟨s', hr'⟩ := hr.of_append
  cases mid with
  | nil => exact ⟨by simp [log, seen]; omega, List.Pairwise.nil⟩
  | cons e mid =>
    have hb := hr'.bounded hf hmax (fun x hx => hs x (List.mem_append_left _ hx)) hwish ha
    have hsparing := hr'.sparing hf hmax (fun x hx => hs x (List.mem_append_left _ hx)) a
    have hleft := hsparing.left_nonneg hmax
    have hcount := hb.count
    exact ⟨by omega, hb.ended⟩

/-! ### A file with other bytes -/

instance (m : Message) (s : Session) : Decidable (FromPeer m s) := inferInstanceAs (Decidable (_ ∧ _))

instance (e : Entry) : Decidable e.Spares :=
  decidable_of_iff (∀ m ∈ e.heard, m.kind = .content ∧ FromPeer m e.before →
      ∀ w ∈ e.before.wants[m.address]?, w.state = .requested →
        e.before.timing.contentAttempts ≤ w.attempts → contentMatches m.address m.payload = true)
    ⟨fun h m hm => h m hm.1 hm.2, fun h m hm hk => h m ⟨hm, hk⟩⟩

/-- The peer answers with other bytes. -/
def otherBytes : Call :=
  .receive (encodeFrame { peerSays .content "bbbbbbbbbbbbbbbb@1" 0 with
    address := pictureAddress, payload := [0x78] })

/-- A session that fetches by itself. -/
def automaticStart : Session := { references := rulesNameFiles }

/-- The peer says hello, and answers so many requests with other bytes. -/
def otherBytesCalls (n : ℕ) : List (Call × ℤ × Replica) :=
  (.receive (encodeFrame (peerSays .hello "bbbbbbbbbbbbbbbb@1" 0)), 0, deviceNaming) ::
    (List.replicate n [(otherBytes, 1, deviceNaming), (.tick, 2, deviceNaming)]).flatten

/-- The run of these calls. -/
def otherBytesRun (n : ℕ) : List Entry := trace {} automaticStart (otherBytesCalls n)

theorem requestsBounded_of_spares_twice : RequestsBounded automaticStart (otherBytesRun 1) := by
  obtain ⟨s, hr⟩ := @Run.trace automaticStart {} (otherBytesCalls 1) [] automaticStart .nil
  have hspares : ∀ e ∈ [] ++ otherBytesRun 1, e.Spares := by decide +kernel
  exact requestsBounded_of_spares rfl hr (by decide) hspares

/-- The last attempt is answered with other bytes, and the address is asked for once more. -/
theorem other_bytes_asked_again : ∃ (s₀ s : Session) (es : List Entry), Fresh s₀ ∧ Run s₀ es s ∧
    1 ≤ s₀.timing.contentAttempts ∧ ¬RequestsBounded s₀ es := by
  obtain ⟨s, hr⟩ := @Run.trace automaticStart {} (otherBytesCalls 4) [] automaticStart .nil
  refine ⟨automaticStart, s, otherBytesRun 4, rfl, hr, by decide, fun hb => ?_⟩
  have hfacts : (∀ e ∈ otherBytesRun 4, pictureAddress ∈ namedBy e.outcome.replica e.before.references ∧
      e.host.has pictureAddress = false ∧ .arrived ∉ seen pictureAddress e.out) ∧
      (seen pictureAddress (log (otherBytesRun 4))).count .asked = 5 := by decide +kernel
  have hwish : ∀ e ∈ (otherBytesRun 4).tail, ¬e.Wishes := by
    have hcalls : (otherBytesRun 4).tail.map Entry.call = [otherBytes, .tick, otherBytes, .tick,
      otherBytes, .tick, otherBytes, .tick] := rfl
    intro e he
    have hmem := List.mem_map_of_mem (f := Entry.call) he
    rw [hcalls] at hmem
    simp only [List.mem_cons, List.not_mem_nil, or_false] at hmem
    rcases hmem with h | h | h | h | h | h | h | h <;> simp [Entry.Wishes, h, otherBytes]
  have hstays : StaysMissing pictureAddress (otherBytesRun 4) :=
    ⟨fun e he => ⟨(hfacts.1 e he).1, (hfacts.1 e he).2.1⟩, fun e he => (hfacts.1 e he).2.2⟩
  have hcount := (hb [] (otherBytesRun 4) [] pictureAddress (by simp) hwish hstays).count
  rw [hfacts.2] at hcount
  exact absurd hcount (by decide)

end VoidPalabra.Sync
