import VoidPalabra.Calls
import VoidPalabra.Frames

/-!
# Presence

The presences that a session shows are numbered by their sender, and a session shows one when
its number is above every number that it heard so far. The numbers of a peer that restarts
begin again, while what was heard of its old session still counts.
-/

namespace VoidPalabra.Sync

/-! ### What one call does -/

/-- A call shows a presence. -/
def Entry.shows (e : Entry) (m : Message) : Prop :=
  .event { type := .presence, peer := e.before.peer, bytes := m.payload } ∈ e.out

/-- What a presence of the peer does. -/
theorem Entry.outcome_presence {e : Entry} {m : Message} (hm : e.presence = some m) :
    e.after.presenceIn = max e.before.presenceIn m.seq ∧
      e.after.link = { e.before.link with presenceIn := e.after.presenceIn } ∧
      e.after.state = e.before.state ∧
      e.out = if e.before.presenceIn < m.seq then
        [.event { type := .presence, peer := e.before.peer, bytes := m.payload }] else [] := by
  obtain ⟨hheard, hk, hp⟩ := Entry.presence_eq_some.mp hm
  obtain ⟨c, h, now, r, s⟩ := e
  cases c with
  | receive frame =>
    have hnone : accepted h frame s ≠ none := by
      rw [show accepted h frame s = some m from hheard]
      exact Option.some_ne_none m
    rcases @receive_cases h r now s frame with
      ⟨ha, -⟩ | ⟨n, hn, -, hrec⟩
    · exact absurd ha hnone
    obtain rfl : n = m := Option.some.inj (hn.symm.trans hheard)
    have hmsg : onMessage h r n now s = (onPresence n now { s with lastHeard := now }).done r := by
      rw [onMessage_other (by rw [hk]; decide) hp, onOther, hk]
    have hlink : (receive h r frame now s).session.link =
        (onPresence n now { s with lastHeard := now }).session.link := by
      rw [hrec, Outcome.noteSaid_link, hmsg]
      rfl
    have hout : (receive h r frame now s).said.out = (onPresence n now { s with lastHeard := now }).out := by
      rw [hrec, Outcome.noteSaid_out, hmsg]
      rfl
    have hstate : (receive h r frame now s).session.state =
        (onPresence n now { s with lastHeard := now }).session.state := by
      rw [hrec, Outcome.noteSaid_state, hmsg]
      rfl
    have hin : (receive h r frame now s).session.presenceIn =
        (onPresence n now { s with lastHeard := now }).session.presenceIn := congrArg Link.presenceIn hlink
    change (receive h r frame now s).session.presenceIn = max s.presenceIn n.seq ∧
      (receive h r frame now s).session.link =
        { s.link with presenceIn := (receive h r frame now s).session.presenceIn } ∧
      (receive h r frame now s).session.state = s.state ∧
      (receive h r frame now s).said.out = _
    rw [hin, hlink, hstate, hout]
    unfold onPresence
    dsimp only
    split_ifs with hle hlt hlt
    · exact absurd hlt (not_lt.mpr hle)
    · exact ⟨(max_eq_left hle).symm, rfl, rfl, rfl⟩
    · exact ⟨(max_eq_right hlt.le).symm, rfl, rfl, rfl⟩
    · exact absurd (not_le.mp hle) hlt
  | _ => cases hheard

theorem Entry.shows_iff {e : Entry} {m : Message} (hm : e.presence = some m) :
    e.shows m ↔ e.before.presenceIn < m.seq := by
  unfold Entry.shows
  rw [(Entry.outcome_presence hm).2.2.2]
  split_ifs with h
  · simp [h]
  · simp [h]

/-- A taken hello leaves the number of the last presence alone. -/
theorem Entry.outcome_hello {e : Entry} {m : Message} (hm : e.heard = some m) (hk : m.kind = .hello)
    (ht : Taken e.replica.id m e.before) :
    e.after.link = e.before.link.greeted m ∧ ∀ v, .event v ∈ e.out → v.type ≠ .presence := by
  obtain ⟨c, h, now, r, s⟩ := e
  cases c with
  | receive frame =>
    rcases @receive_cases h r now s frame with
      ⟨ha, -⟩ | ⟨n, hn, -, hrec⟩
    · rw [show accepted h frame s = some m from hm] at ha
      cases ha
    obtain rfl : n = m := Option.some.inj (hn.symm.trans hm)
    have hpart := @part_onHello h r now s n ht
      { s with peer := n.sender, peerSession := n.session,
               state := if opening n s then .opened else s.state } rfl rfl
    have hboth := @Part.noteSaid_said now _ _ _ _ _ hpart
    rw [← onMessage_hello hk, ← hrec] at hboth
    refine ⟨hboth.link, fun v hv hpres => ?_⟩
    have := hboth.events v hv
    rw [hpres] at this
    revert this
    decide
  | _ => cases hm

/-- A call that heard no presence of the peer shows none and leaves the number alone. -/
theorem Entry.outcome_other {e : Entry} (hm : e.presence = none) :
    e.after.presenceIn = e.before.presenceIn ∧ ∀ v, .event v ∈ e.out → v.type ≠ .presence := by
  rcases e.part with hs | ⟨m, hheard, hk, ht⟩ | ⟨m, hp⟩ | hpart
  · obtain ⟨c, h, now, r, s⟩ := e
    obtain rfl : c = .start := hs
    refine ⟨rfl, fun v hv => ?_⟩
    simp [Entry.out, Entry.outcome, Call.run, start, Said.done, Outcome.said, send] at hv
  · obtain ⟨hlink, hev⟩ := Entry.outcome_hello hheard hk ht
    exact ⟨congrArg Link.presenceIn hlink, hev⟩
  · rw [hp] at hm
    cases hm
  · refine ⟨congrArg Link.presenceIn hpart.link, fun v hv hpres => ?_⟩
    have := hpart.events v hv
    rw [hpres] at this
    revert this
    decide

/-- The number a session keeps is the largest that it heard. -/
theorem Run.watermark {s₀ s : Session} {es : List Entry} (hr : Run s₀ es s) (h0 : s₀.presenceIn = 0) :
    (∀ x ∈ es, ∀ n, x.presence = some n → n.seq ≤ s.presenceIn) ∧
      (s.presenceIn = 0 ∨ ∃ x ∈ es, ∃ n, x.presence = some n ∧ n.seq = s.presenceIn) := by
  induction hr with
  | nil => exact ⟨fun x hx => (nomatch hx), Or.inl h0⟩
  | @call es e hr ih =>
    obtain ⟨hmax, hattained⟩ := ih
    cases hm : e.presence with
    | none =>
      rw [(Entry.outcome_other hm).1]
      constructor
      · intro x hx n hn
        rcases List.mem_append.mp hx with hx | hx
        · exact hmax x hx n hn
        · rw [List.mem_singleton.mp hx, hm] at hn
          cases hn
      · rcases hattained with h | ⟨x, hx, n, hn⟩
        · exact Or.inl h
        · exact Or.inr ⟨x, List.mem_append_left _ hx, n, hn⟩
    | some m =>
      rw [(Entry.outcome_presence hm).1]
      constructor
      · intro x hx n hn
        rcases List.mem_append.mp hx with hx | hx
        · exact le_max_of_le_left (hmax x hx n hn)
        · rw [List.mem_singleton.mp hx, hm] at hn
          cases hn
          exact le_max_right _ _
      · rcases le_total e.before.presenceIn m.seq with hle | hle
        · rw [max_eq_right hle]
          exact Or.inr ⟨e, by simp, m, hm, rfl⟩
        · rw [max_eq_left hle]
          rcases hattained with h | ⟨x, hx, n, hn⟩
          · exact Or.inl h
          · exact Or.inr ⟨x, List.mem_append_left _ hx, n, hn⟩

/-- A number above every number that was heard. -/
def Above (es : List Entry) (m : Message) : Prop :=
  0 < m.seq ∧ ∀ x ∈ es, ∀ n, x.presence = some n → n.seq < m.seq

/-- A presence is shown when its number is above every number that was heard. -/
theorem Run.shows_iff {s₀ s : Session} {pre post : List Entry} {e : Entry} {m : Message}
    (hr : Run s₀ (pre ++ e :: post) s) (h0 : s₀.presenceIn = 0) (hm : e.presence = some m) :
    e.shows m ↔ Above pre m := by
  obtain ⟨hmax, hattained⟩ := hr.before.watermark h0
  rw [Entry.shows_iff hm]
  constructor
  · intro hlt
    exact ⟨by omega, fun x hx n hn => lt_of_le_of_lt (hmax x hx n hn) hlt⟩
  · rintro ⟨hpos, habove⟩
    rcases hattained with h | ⟨x, hx, n, hn, hseq⟩
    · omega
    · exact hseq ▸ habove x hx n hn

/-! ### Restarts -/

/-- A peer that is already known announced another session. -/
def Entry.restarts (e : Entry) : Prop :=
  e.before.peer.isEmpty = false ∧ e.after.peerSession ≠ e.before.peerSession

/-- The peer stays in one session. -/
def Stays (es : List Entry) : Prop := ∀ x ∈ es, x.after.peerSession = x.before.peerSession

/-- The first presence of the session that the peer announced at `a`. -/
structure First (a : Entry) (mid : List Entry) (e : Entry) (m : Message) : Prop where
  /-- The session was announced. -/
  restarts : a.restarts
  /-- The peer stays in it. -/
  stays : Stays mid
  /-- The presence is heard, -/
  heard : e.presence = some m
  /-- and it is of the session. -/
  session : m.session = e.before.peerSession
  /-- None was before it. -/
  first : ∀ x ∈ mid, ∀ n, x.presence = some n → n.session ≠ e.before.peerSession

/-- A presence of an old session that arrives while the peer stays in a later one. -/
structure LateOne (old mid : List Entry) (e : Entry) (m : Message) : Prop where
  /-- The peer stays in its session. -/
  stays : Stays mid
  /-- The presence is heard, -/
  heard : e.presence = some m
  /-- it is not of the session, -/
  session : m.session ≠ e.before.peerSession
  /-- but of one that the peer was in. -/
  old : ∃ x ∈ old, x.before.peer.isEmpty = false ∧ m.session = x.before.peerSession

/-- The presences that a run shows are the newest ones, also when the peer restarts. -/
structure NewestFirst (es : List Entry) : Prop where
  /-- A presence that is shown is one that is heard. -/
  heard : ∀ e ∈ es, ∀ v, .event v ∈ e.out → v.type = .presence →
    ∃ m, e.presence = some m ∧ v.bytes = m.payload ∧ e.out = [.event v]
  /-- The numbers grow. -/
  increasing : ∀ {pre e mid e' post m m'}, es = pre ++ e :: (mid ++ e' :: post) → Stays mid →
    e.presence = some m → e.shows m → e'.presence = some m' → e'.shows m' → m.seq < m'.seq
  /-- The first presence of a new session is shown. -/
  accepted : ∀ {pre a mid e post m}, es = pre ++ a :: (mid ++ e :: post) → First a mid e m → e.shows m
  /-- After it no late presence of an old session is. -/
  late : ∀ {pre a mid e mid' e' post m m'}, es = pre ++ a :: (mid ++ e :: (mid' ++ e' :: post)) →
    First a mid e m → LateOne (pre ++ [a]) mid' e' m' → ¬e'.shows m'

/-- The numbers of a new session are above those of the old ones that were heard before it. -/
structure Numbered (es : List Entry) : Prop where
  /-- The first number of a new session is above every number that was heard. -/
  first : ∀ {pre a mid e post m}, es = pre ++ a :: (mid ++ e :: post) → First a mid e m →
    Above (pre ++ a :: mid) m
  /-- That of a late presence of an old session is not. -/
  late : ∀ {pre a mid e mid' e' post m m'}, es = pre ++ a :: (mid ++ e :: (mid' ++ e' :: post)) →
    First a mid e m → LateOne (pre ++ [a]) mid' e' m' → ¬Above (pre ++ a :: (mid ++ e :: mid')) m'

theorem Entry.heard_of_event {e : Entry} {v : Event} (hv : .event v ∈ e.out) (ht : v.type = .presence) :
    ∃ m, e.presence = some m ∧ v.bytes = m.payload ∧ e.out = [.event v] := by
  cases hm : e.presence with
  | none => exact absurd ht ((Entry.outcome_other hm).2 v hv)
  | some m =>
    have hout := (Entry.outcome_presence hm).2.2.2
    split_ifs at hout with hlt
    · rw [hout] at hv ⊢
      cases List.mem_singleton.mp hv
      exact ⟨m, rfl, rfl, rfl⟩
    · rw [hout] at hv
      cases hv

theorem newestFirst_iff {s₀ s : Session} {es : List Entry} (hr : Run s₀ es s) (hf : Fresh s₀) :
    NewestFirst es ↔ Numbered es := by
  have h0 : s₀.presenceIn = 0 := by
    rw [hf]
  constructor
  · intro h
    constructor
    · intro pre a mid e post m hes hfirst
      have hr' : Run s₀ ((pre ++ a :: mid) ++ e :: post) s := by
        rw [hes] at hr
        simpa using hr
      exact (hr'.shows_iff h0 hfirst.heard).mp (h.accepted hes hfirst)
    · intro pre a mid e mid' e' post m m' hes hfirst hlate habove
      have hr' : Run s₀ ((pre ++ a :: (mid ++ e :: mid')) ++ e' :: post) s := by
        rw [hes] at hr
        simpa using hr
      exact h.late hes hfirst hlate ((hr'.shows_iff h0 hlate.heard).mpr habove)
  · intro h
    constructor
    · exact fun e _ v hv ht => Entry.heard_of_event hv ht
    · intro pre e mid e' post m m' hes _ hm _ hm' hshows'
      have hr' : Run s₀ ((pre ++ e :: mid) ++ e' :: post) s := by
        rw [hes] at hr
        simpa using hr
      exact ((hr'.shows_iff h0 hm').mp hshows').2 e (by simp) m hm
    · intro pre a mid e post m hes hfirst
      have hr' : Run s₀ ((pre ++ a :: mid) ++ e :: post) s := by
        rw [hes] at hr
        simpa using hr
      exact (hr'.shows_iff h0 hfirst.heard).mpr (h.first hes hfirst)
    · intro pre a mid e mid' e' post m m' hes hfirst hlate hshows
      have hr' : Run s₀ ((pre ++ a :: (mid ++ e :: mid')) ++ e' :: post) s := by
        rw [hes] at hr
        simpa using hr
      exact h.late hes hfirst hlate ((hr'.shows_iff h0 hlate.heard).mp hshows)

/-! ### A peer that restarts -/

/-- A message of a peer. -/
def peerSays (kind : Kind) (session : String) (seq : ℕ) : Message where
  kind := kind
  sender := lit "bbbbbbbbbbbbbbbb"
  session := lit session
  seq := seq

/-- The replica of a device whose peer restarts. -/
def deviceA : Replica := { id := .ofLit "aaaaaaaaaaaaaaaa", issued := 0, doc := emptyRoot }

/-- A message of the peer arrives. -/
def arrives (m : Message) (s : Session) : Entry := ⟨.receive (encodeFrame m), {}, 0, deviceA, s⟩

theorem arrives_heard {m : Message} {s : Session} (hs : s.state ≠ .closed)
    (hd : decodeFrame (encodeFrame m) s.limits = .ok m) : (arrives m s).heard = some m := by
  change accepted {} (encodeFrame m) s = some m
  unfold accepted
  rw [if_neg hs, hd]
  rfl

theorem decodeFrame_peerSays {kind : Kind} {session : String} {seq : ℕ} (hs : seq < 10 ^ 15)
    (hlen : (encodeFrame (peerSays kind session seq)).length ≤ 1000)
    (hfits : Fits {} (peerSays kind session seq) [])
    (hcut : (peerSays kind session seq).cut = peerSays kind session seq) :
    decodeFrame (encodeFrame (peerSays kind session seq)) {} = .ok (peerSays kind session seq) := by
  have hlength := length_encodeFrame (peerSays kind session seq)
  have := @decodeFrame_of_fits _ {} (spelled_of_lt hs) (by omega) (le_trans hlen (by decide)) hfits
  rwa [hcut] at this

theorem newestFirst_iff_arrives :
    NewestFirst [arrives (peerSays .hello "bbbbbbbbbbbbbbbb@1" 1) {}] ↔
      Numbered [arrives (peerSays .hello "bbbbbbbbbbbbbbbb@1" 1) {}] :=
  newestFirst_iff (@Run.call {} [] (arrives (peerSays .hello "bbbbbbbbbbbbbbbb@1" 1) {}) Run.nil) rfl

/-- A hello of the peer that opens a session. -/
theorem arrives_hello {session : String} {s : Session} (hs : s.state ≠ .closed) (hl : s.limits = {})
    (ht : s.timing = {}) (hp : s.peer.isEmpty = true ∨ s.peer = lit "bbbbbbbbbbbbbbbb")
    (hn : lit session ≠ s.peerSession)
    (hd : decodeFrame (encodeFrame (peerSays .hello session 1)) {} = .ok (peerSays .hello session 1)) :
    (arrives (peerSays .hello session 1) s).after.link = s.link.greeted (peerSays .hello session 1) ∧
      (arrives (peerSays .hello session 1) s).after.state = .opened := by
  have hheard := arrives_heard hs (hl ▸ hd)
  have htaken : Taken deviceA.id (peerSays .hello session 1) s := by
    refine ⟨?_, hp.imp_right Eq.symm⟩
    change lit "bbbbbbbbbbbbbbbb" ≠ lit "aaaaaaaaaaaaaaaa"
    decide
  refine ⟨(Entry.outcome_hello hheard rfl htaken).1, ?_⟩
  have hopen : opening (peerSays .hello session 1) s = true := by
    unfold opening
    rw [show (peerSays .hello session 1).session = lit session from rfl]
    simp [hn]
  rcases @receive_cases {} deviceA 0 s
    (encodeFrame (peerSays .hello session 1)) with ⟨hnone, -⟩ | ⟨m, hm, -, hrec⟩
  · rw [show accepted {} (encodeFrame (peerSays .hello session 1)) s = some _ from hheard] at hnone
    cases hnone
  · obtain rfl : m = peerSays .hello session 1 := Option.some.inj (hm.symm.trans hheard)
    change (receive {} deviceA (encodeFrame (peerSays .hello session 1)) 0 s).session.state = .opened
    rw [hrec, Outcome.noteSaid_state, onMessage_hello rfl]
    exact onHello_opened htaken hopen (by rw [ht]; decide)

/-- A presence of the peer in its session. -/
theorem arrives_presence {session : String} {seq : ℕ} {s : Session} (hs : s.state ≠ .closed)
    (hl : s.limits = {}) (hp : s.peer = lit "bbbbbbbbbbbbbbbb")
    (hd : decodeFrame (encodeFrame (peerSays .presence session seq)) {} =
      .ok (peerSays .presence session seq)) :
    (arrives (peerSays .presence session seq) s).presence = some (peerSays .presence session seq) := by
  have hfrom : FromPeer (peerSays .presence session seq) s := by
    unfold FromPeer
    rw [hp]
    exact ⟨by decide, rfl⟩
  exact Entry.presence_eq_some.mpr ⟨arrives_heard hs (hl ▸ hd), rfl, hfrom⟩

/-- A peer that restarts and whose presences begin with one again is not seen any more. -/
theorem restarted_presence_dropped :
    ∃ (es : List Entry) (s : Session), Run {} es s ∧ Fresh {} ∧ ¬NewestFirst es := by
  have hdecode : ∀ kind session seq, kind = Kind.hello ∨ kind = .presence →
      session = "bbbbbbbbbbbbbbbb@1" ∨ session = "bbbbbbbbbbbbbbbb@2" → seq = 1 ∨ seq = 2 →
      decodeFrame (encodeFrame (peerSays kind session seq)) {} = .ok (peerSays kind session seq) := by
    rintro _ _ _ (rfl | rfl) (rfl | rfl) (rfl | rfl)
    all_goals
      refine decodeFrame_peerSays (by decide) (by decide +kernel) ?_ (by decide +kernel)
      exact ⟨by decide +kernel, by decide +kernel, by decide +kernel, by decide +kernel,
        by decide +kernel, by decide +kernel, by decide +kernel, by decide +kernel, rfl⟩
  obtain ⟨e₁, he₁⟩ : ∃ e, e = arrives (peerSays .hello "bbbbbbbbbbbbbbbb@1" 1) {} := ⟨_, rfl⟩
  obtain ⟨e₂, he₂⟩ : ∃ e, e = arrives (peerSays .presence "bbbbbbbbbbbbbbbb@1" 2) e₁.after := ⟨_, rfl⟩
  obtain ⟨e₃, he₃⟩ : ∃ e, e = arrives (peerSays .hello "bbbbbbbbbbbbbbbb@2" 1) e₂.after := ⟨_, rfl⟩
  obtain ⟨e₄, he₄⟩ : ∃ e, e = arrives (peerSays .presence "bbbbbbbbbbbbbbbb@2" 1) e₃.after := ⟨_, rfl⟩
  have hrun : Run {} [e₁, e₂, e₃, e₄] e₄.after := by
    have h₁ : Run {} ([] ++ [e₁]) e₁.after := Run.call (he₁ ▸ Run.nil)
    have h₂ : Run {} ([] ++ [e₁] ++ [e₂]) e₂.after := Run.call (he₂ ▸ h₁)
    have h₃ : Run {} ([] ++ [e₁] ++ [e₂] ++ [e₃]) e₃.after := Run.call (he₃ ▸ h₂)
    have h₄ : Run {} ([] ++ [e₁] ++ [e₂] ++ [e₃] ++ [e₄]) e₄.after := Run.call (by rw [he₄]; exact h₃)
    exact h₄
  obtain ⟨hlink₁, hstate₁⟩ := @arrives_hello "bbbbbbbbbbbbbbbb@1" {} (by decide) rfl rfl
    (Or.inl rfl) (by decide) (hdecode _ _ _ (Or.inl rfl) (Or.inl rfl) (Or.inl rfl))
  rw [← he₁] at hlink₁ hstate₁
  have hpres₂ := arrives_presence (s := e₁.after) (by rw [hstate₁]; decide)
    (congrArg Link.limits hlink₁) (congrArg Link.peer hlink₁)
    (hdecode _ _ _ (Or.inr rfl) (Or.inl rfl) (Or.inr rfl))
  rw [← he₂] at hpres₂
  have hbefore₂ : e₂.before = e₁.after := by rw [he₂]; rfl
  obtain ⟨hin₂, hlink₂, hstate₂, -⟩ := Entry.outcome_presence hpres₂
  rw [hbefore₂] at hlink₂ hstate₂ hin₂
  rw [hlink₁] at hlink₂
  have hpeer₂ : e₂.after.peer = lit "bbbbbbbbbbbbbbbb" := congrArg Link.peer hlink₂
  have hsession₂ : e₂.after.peerSession = lit "bbbbbbbbbbbbbbbb@1" := congrArg Link.peerSession hlink₂
  obtain ⟨hlink₃, hstate₃⟩ := @arrives_hello "bbbbbbbbbbbbbbbb@2" e₂.after
    (by rw [hstate₂, hstate₁]; decide) (congrArg Link.limits hlink₂) (congrArg Link.timing hlink₂)
    (Or.inr hpeer₂) (by rw [hsession₂]; decide)
    (hdecode _ _ _ (Or.inl rfl) (Or.inr rfl) (Or.inl rfl))
  rw [← he₃] at hlink₃ hstate₃
  have hbefore₃ : e₃.before = e₂.after := by rw [he₃]; rfl
  have hsession₃ : e₃.after.peerSession = lit "bbbbbbbbbbbbbbbb@2" := congrArg Link.peerSession hlink₃
  have hpres₄ := arrives_presence (s := e₃.after) (by rw [hstate₃]; decide)
    (by rw [show e₃.after.limits = _ from congrArg Link.limits hlink₃]
        exact congrArg Link.limits hlink₂)
    (congrArg Link.peer hlink₃) (hdecode _ _ _ (Or.inr rfl) (Or.inr rfl) (Or.inl rfl))
  rw [← he₄] at hpres₄
  have hbefore₄ : e₄.before = e₃.after := by rw [he₄]; rfl
  refine ⟨_, _, hrun, rfl, fun h => ?_⟩
  have hfirst : First e₃ [] e₄ (peerSays .presence "bbbbbbbbbbbbbbbb@2" 1) := by
    refine ⟨⟨?_, ?_⟩, fun x hx => (nomatch hx), hpres₄, ?_, fun x hx => (nomatch hx)⟩
    · rw [hbefore₃, hpeer₂]
      decide
    · rw [hbefore₃, hsession₃, hsession₂]
      decide
    · rw [hbefore₄, hsession₃]
      rfl
  have hshows := @h.accepted [e₁, e₂] e₃ [] e₄ [] _ rfl hfirst
  have habove := ((show Run {} ([e₁, e₂, e₃] ++ e₄ :: []) e₄.after from hrun).shows_iff rfl hpres₄).mp hshows
  exact absurd (habove.2 e₂ (by simp) _ hpres₂) (by decide)

end VoidPalabra.Sync
