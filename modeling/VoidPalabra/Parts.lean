import VoidPalabra.Receive

/-!
# What a part of a call may do

Most of what a call does leaves alone which peer the session is with. For each part of a call
it is said once which kinds of frames it sends and which types of events it shows; the
frames are stamped with what the session has.
-/

namespace VoidPalabra.Sync

/-- What a session keeps through most of its calls. -/
structure Link where
  /-- The peer. -/
  peer : Bytes
  /-- The peer's session. -/
  peerSession : Bytes
  /-- This session's name. -/
  nonce : Bytes
  /-- The last presence that was shown. -/
  presenceIn : ℕ
  /-- What names files. -/
  references : ReferencePolicy
  /-- The limits. -/
  limits : Limits
  /-- The timers. -/
  timing : Timing

/-- What a session keeps. -/
def Session.link (s : Session) : Link where
  peer := s.peer
  peerSession := s.peerSession
  nonce := s.nonce
  presenceIn := s.presenceIn
  references := s.references
  limits := s.limits
  timing := s.timing

/-- A frame of a replica that is stamped for a link. -/
structure Stamped (id : CString) (l : Link) (m : Message) : Prop where
  /-- It is of the replica. -/
  sender : m.sender = id.bytes
  /-- It is of this session. -/
  session : m.session = l.nonce
  /-- A hello says whether the peer was heard. -/
  hello : m.kind = .hello → m.seq = if l.peer.isEmpty then 0 else 1
  /-- Only a presence is numbered otherwise. -/
  other : m.kind ≠ .hello → m.kind ≠ .presence → m.seq = 0

/-- What a part of a call leaves alone, and what it may say. -/
structure Part (id : CString) (kinds : List Kind) (types : List EventType) (s : Session) (x : Said) :
    Prop where
  /-- The link stays. -/
  link : x.session.link = s.link
  /-- The session may only end, and then it says so. -/
  state : x.session.state = s.state ∨ x.session.state = .closed ∧ .closed ∈ types
  /-- The frames are stamped and of these kinds. -/
  frames : ∀ m, .frame m ∈ x.out → m.kind ∈ kinds ∧ Stamped id s.link m
  /-- The events are of these types. -/
  events : ∀ e, .event e ∈ x.out → e.type ∈ types

section

variable {id : CString} {ks ks' : List Kind} {ts ts' : List EventType} {s : Session} {x : Said}

theorem Part.mono (h : Part id ks ts s x) (hk : ks ⊆ ks') (ht : ts ⊆ ts') : Part id ks' ts' s x where
  link := h.link
  state := h.state.imp_right fun hs => ⟨hs.1, ht hs.2⟩
  frames := fun m hm => ⟨hk (h.frames m hm).1, (h.frames m hm).2⟩
  events := fun e he => ht (h.events e he)

/-- Nothing is said. -/
theorem Part.silent (hl : x.session.link = s.link) (hs : x.session.state = s.state)
    (ho : x.out = []) : Part id ks ts s x where
  link := hl
  state := Or.inl hs
  frames := fun m hm => by
    rw [ho] at hm
    cases hm
  events := fun e he => by
    rw [ho] at he
    cases he

theorem Part.andThen {f : Session → Said} (h : Part id ks ts s x)
    (hf : Part id ks' ts' x.session (f x.session)) :
    Part id (ks ++ ks') (ts ++ ts') s (x.andThen f) where
  link := hf.link.trans h.link
  state := by
    rcases hf.state with hs | hs
    · rcases h.state with hs' | hs'
      · exact Or.inl (hs.trans hs')
      · exact Or.inr ⟨hs.trans hs'.1, List.mem_append_left _ hs'.2⟩
    · exact Or.inr ⟨hs.1, List.mem_append_right _ hs.2⟩
  frames := fun m hm => by
    rcases List.mem_append.mp hm with hm | hm
    · exact ⟨List.mem_append_left _ (h.frames m hm).1, (h.frames m hm).2⟩
    · have := hf.frames m hm
      rw [h.link] at this
      exact ⟨List.mem_append_right _ this.1, this.2⟩
  events := fun e he => by
    rcases List.mem_append.mp he with he | he
    · exact List.mem_append_left _ (h.events e he)
    · exact List.mem_append_right _ (hf.events e he)

/-- A part that does not say that the session ends leaves its state. -/
theorem Part.state_eq (h : Part id ks ts s x) (hc : .closed ∉ ts) : x.session.state = s.state :=
  h.state.resolve_right fun hs => hc hs.2

/-- A part that starts from a session with the same link. -/
theorem Part.of_link {s' : Session} (h : Part id ks ts s' x) (hl : s'.link = s.link)
    (hs : s'.state = s.state) : Part id ks ts s x where
  link := h.link.trans hl
  state := hs ▸ h.state
  frames := hl ▸ h.frames
  events := h.events

/-- More of the session may change behind what is said. -/
theorem Part.session {s' : Session} (h : Part id ks ts s x) (hl : s'.link = x.session.link)
    (hs : s'.state = x.session.state) : Part id ks ts s ⟨s', x.out⟩ where
  link := hl.trans h.link
  state := hs ▸ h.state
  frames := h.frames
  events := h.events

end

variable (h : Host) (id : CString) (now : ℤ) (s : Session)

/-! ### Sending -/

theorem stamp_kind (m : Message) : (stamp h id s m).kind = m.kind := by
  unfold stamp
  cases h.sign <;> rfl

theorem stamp_addresses (m : Message) : (stamp h id s m).addresses = m.addresses := by
  unfold stamp
  cases h.sign <;> rfl

theorem stamped_stamp {m : Message} (hm : m.kind ≠ .hello → m.kind ≠ .presence → m.seq = 0) :
    Stamped id s.link (stamp h id s m) := by
  unfold stamp
  cases h.sign with
  | none =>
    exact ⟨rfl, rfl, fun hk => if_pos hk, fun hk hp => (if_neg hk).trans (hm hk hp)⟩
  | some f =>
    exact ⟨rfl, rfl, fun hk => if_pos hk, fun hk hp => (if_neg hk).trans (hm hk hp)⟩

theorem part_send {m : Message} (hm : m.kind ≠ .hello → m.kind ≠ .presence → m.seq = 0) :
    Part id [m.kind] [] s (send h id m s) where
  link := rfl
  state := Or.inl rfl
  frames := fun m' hm' => by
    obtain rfl : m' = stamp h id s m := by simpa [send] using hm'
    exact ⟨by simp [stamp_kind], stamped_stamp h id s hm⟩
  events := fun e he => by simp [send] at he

theorem part_tell (e : Event) : Part id [] [e.type] s (tell e s) where
  link := rfl
  state := Or.inl rfl
  frames := fun m hm => by simp [tell] at hm
  events := fun e' he => by
    obtain rfl : e' = e := by simpa [tell] using he
    exact List.mem_singleton_self _

theorem part_finish (why : Bytes) (bye : Bool) :
    Part id [.bye] [.closed] s (finish h id why bye s) := by
  unfold finish
  split_ifs with hc hb
  · exact Part.silent rfl rfl rfl
  · constructor
    · rfl
    · exact Or.inr ⟨rfl, List.mem_singleton_self _⟩
    · intro m hm
      have hm : .frame m ∈ (send h id { kind := .bye, reason := why } s).out := by simpa using hm
      exact (part_send h id s (m := { kind := .bye, reason := why }) (fun _ _ => rfl)).frames m hm
    · intro e he
      have he : e = { type := .closed, peer := s.peer, detail := why } := by simpa [send] using he
      rw [he]
      exact List.mem_singleton_self _
  · constructor
    · rfl
    · exact Or.inr ⟨rfl, List.mem_singleton_self _⟩
    · intro m hm
      simp at hm
    · intro e he
      have he : e = { type := .closed, peer := s.peer, detail := why } := by simpa using he
      rw [he]
      exact List.mem_singleton_self _

/-- A session that ends is closed. -/
theorem finish_state (why : Bytes) (bye : Bool) : (finish h id why bye s).session.state = .closed := by
  unfold finish
  split_ifs with hc
  · exact hc
  · rfl
  · rfl

/-! ### Derived state -/

theorem refreshExport_link (r : Replica) : (refreshExport h r s).2.link = s.link := by
  unfold refreshExport
  split_ifs
  · rfl
  · dsimp only
    split <;> rfl

theorem refreshExport_state (r : Replica) : (refreshExport h r s).2.state = s.state := by
  unfold refreshExport
  split_ifs
  · rfl
  · dsimp only
    split <;> rfl

theorem refreshExport_wants (r : Replica) : (refreshExport h r s).2.wants = s.wants := by
  unfold refreshExport
  split_ifs
  · rfl
  · dsimp only
    split <;> rfl

theorem part_ask : Part id [.want] [] s (ask h id now s) := by
  unfold ask
  split_ifs with hs
  · exact Part.silent rfl rfl rfl
  · constructor
    · rfl
    · exact Or.inl rfl
    · intro m hm
      obtain ⟨batch, -, hm⟩ := List.mem_flatMap.mp hm
      exact (part_send h id s (m := { kind := .want, addresses := batch }) (fun _ _ => rfl)).frames m hm
    · intro e he
      obtain ⟨batch, -, he⟩ := List.mem_flatMap.mp he
      simp [send] at he

theorem part_refreshWants (r : Replica) : Part r.id [.want] [] s (refreshWants h r now s) := by
  unfold refreshWants
  split_ifs
  · exact Part.silent rfl rfl rfl
  · exact (part_ask h r.id now _).of_link rfl rfl

/-! ### Time -/

theorem part_tickConnecting : Part id [.bye, .hello] [.closed] s (tickConnecting h id now s) := by
  unfold tickConnecting
  split_ifs
  · exact (part_finish h id s _ _).mono (by simp) (by simp)
  · have hsay : Part id [.hello] [] s
        ⟨{ s with lastSaid := now }, (send h id { kind := .hello } s).out⟩ :=
      (part_send h id s (m := { kind := .hello }) (fun hk => absurd rfl hk)).session rfl rfl
    exact hsay.mono (by simp) (by simp)
  · exact Part.silent rfl rfl rfl

theorem echoed_link : (echoed s).link = s.link := by
  unfold echoed
  split_ifs <;> rfl

theorem echoed_state : (echoed s).state = s.state := by
  unfold echoed
  split_ifs <;> rfl

theorem part_sayDoc : Part id [.doc] [] s (sayDoc h id now s) := by
  unfold sayDoc
  split_ifs
  · exact (part_send h id s (m := { kind := .doc, digest := s.exportDigest, payload := s.exportJson })
      (fun _ _ => rfl)).session rfl rfl
  · exact Part.silent rfl rfl rfl

theorem part_tickDoc : Part id [.doc] [] s (tickDoc h id now s) := by
  unfold tickDoc
  split_ifs
  · exact Part.silent rfl rfl rfl
  · exact (part_sayDoc h id now (echoed s)).of_link (echoed_link s) (echoed_state s)

theorem part_tickWants : Part id [.want] [.contentUnavailable] s (tickWants h id now s) := by
  unfold tickWants
  have hfirst : Part id [] [.contentUnavailable] s
      ⟨{ s with wants := s.wants.map fun _ w => w.tick s.timing now },
        (s.givenUp now).map fun a => .event
          { type := .contentUnavailable, peer := s.peer, detail := lit "no answer", address := a }⟩ := by
    constructor
    · rfl
    · exact Or.inl rfl
    · intro m hm
      obtain ⟨a, -, ha⟩ := List.mem_map.mp hm
      cases ha
    · intro e he
      obtain ⟨a, -, ha⟩ := List.mem_map.mp he
      cases ha
      exact List.mem_singleton_self _
  exact (hfirst.andThen (part_ask h id now _)).mono (by simp) (by simp)

theorem part_tickPresence : Part id [] [.presenceExpired] s (tickPresence now s) := by
  unfold tickPresence
  split_ifs
  · exact (part_tell id _ { type := .presenceExpired, peer := s.peer }).of_link rfl rfl
  · exact Part.silent rfl rfl rfl

theorem part_tickKeepalive : Part id [.hello] [] s (tickKeepalive h id now s) := by
  unfold tickKeepalive
  split_ifs
  · exact (part_send h id s (m := { kind := .hello }) (fun hk => absurd rfl hk)).session rfl rfl
  · exact Part.silent rfl rfl rfl

theorem Part.noteSaid {id : CString} {ks : List Kind} {ts : List EventType} {s : Session} {x : Said}
    (hx : Part id ks ts s x) : Part id ks ts s (Sync.noteSaid now x) := by
  unfold Sync.noteSaid
  split_ifs
  · exact hx.session rfl rfl
  · exact hx

/-- What a call says; nothing when it throws. -/
def Outcome.said (o : Outcome) : Said where
  session := o.session
  out :=
    match o.result with
    | .ok out => out
    | .error _ => []

theorem tickRefresh_replica (r : Replica) : (tickRefresh h r now s).replica = r := by
  unfold tickRefresh
  split_ifs
  · rfl
  · split
    · rfl
    · split_ifs <;> rfl

theorem part_tickRefresh (r : Replica) : Part r.id [.want] [] s (tickRefresh h r now s).said := by
  unfold tickRefresh
  split_ifs
  · exact Part.silent rfl rfl rfl
  · have hl := refreshExport_link h s r
    have hs := refreshExport_state h s r
    split
    · rename_i e s' he
      rw [he] at hl hs
      exact Part.silent hl hs rfl
    · rename_i s' he
      rw [he] at hl hs
      split_ifs
      · exact (part_refreshWants h now s' r).of_link hl hs
      · exact Part.silent hl hs rfl

theorem part_tickRest {x : Said} {kinds : List Kind} {types : List EventType}
    (hx : Part id kinds types s x) :
    Part id (kinds ++ [.doc] ++ [.want] ++ [] ++ [.hello])
      (types ++ [] ++ [.contentUnavailable] ++ [.presenceExpired] ++ []) s (tickRest h id now x) := by
  unfold tickRest
  exact ((((hx.andThen (part_tickDoc h id now _)).andThen (part_tickWants h id now _)).andThen
    (part_tickPresence id now _)).noteSaid now).andThen (part_tickKeepalive h id now _)

theorem tick_replica (r : Replica) : (tick h r now s).replica = r := by
  unfold tick
  split
  · rfl
  · rfl
  · have hr := tickRefresh_replica h now s r
    split_ifs
    · rfl
    · split
      · rename_i he
        rw [he] at hr
        exact hr
      · rename_i he
        rw [he] at hr
        exact hr

/-- An open session whose peer is not silent stays open. -/
theorem tick_opened (r : Replica) (hs : s.state = .opened)
    (hh : ¬s.timing.silenceTimeout ≤ now - s.lastHeard) : (tick h r now s).session.state = .opened := by
  unfold tick
  rw [hs]
  dsimp only
  rw [if_neg hh]
  have hr := part_tickRefresh h now s r
  split
  · rename_i he
    rw [he] at hr
    exact (hr.state_eq (by simp)).trans hs
  · rename_i he
    rw [he] at hr
    exact ((part_tickRest h r.id now s hr).state_eq (by simp)).trans hs

/-- What time may bring. -/
theorem part_tick (r : Replica) :
    Part r.id [.bye, .hello, .doc, .want] [.closed, .contentUnavailable, .presenceExpired] s
      (tick h r now s).said := by
  unfold tick
  split
  · exact Part.silent rfl rfl rfl
  · exact (part_tickConnecting h r.id now s).mono (by simp) (by simp)
  · have hr := part_tickRefresh h now s r
    split_ifs
    · exact (part_finish h r.id s _ _).mono (by simp) (by simp)
    · split
      · rename_i he
        rw [he] at hr
        exact hr.mono (by simp) (by simp)
      · rename_i he
        rw [he] at hr
        exact (part_tickRest h r.id now s hr).mono (by simp) (by simp)

/-! ### Frames -/

theorem part_onMerged (r : Replica) (m : Message) (digest : Bytes) :
    Part r.id [.ack, .want] [.merged] s (onMerged h r m digest now s) := by
  have hack := part_send h r.id { s with lastMerged := digest }
    (m := { kind := .ack, digest := m.digest }) (fun _ _ => rfl)
  have htell := hack.andThen (part_tell r.id _
    { type := .merged, peer := s.peer, conflicts := r.conflicts.length,
      anomalies := (anomalies r.doc r.policy).length })
  have hall : Part r.id _ _ { s with lastMerged := digest } (onMerged h r m digest now s) :=
    htell.andThen (part_refreshWants h now _ r)
  have hlink : Part r.id _ _ s (onMerged h r m digest now s) := hall.of_link rfl rfl
  exact hlink.mono (by simp) (by simp)

theorem part_onRefused (m : Message) (why : Bytes) (collision : Bool) :
    Part id [.refuse, .bye] [.mergeRefused, .closed] s (onRefused h id m why collision s) := by
  unfold onRefused
  have hfirst := (part_send h id s (m := { kind := .refuse, digest := m.digest, reason := why.take 1000 })
    (fun _ _ => rfl)).andThen (part_tell id _ { type := .mergeRefused, peer := s.peer, detail := why })
  dsimp only
  split_ifs
  · exact (hfirst.andThen (part_finish h id _ _ true)).mono (by simp) (by simp)
  · exact hfirst.mono (by simp) (by simp)

theorem merge_id (r : Replica) (remote : Json) : (r.merge remote).2.id = r.id := by
  unfold Replica.merge
  split
  · rfl
  · split <;> rfl

theorem judge_id {r r' : Replica} {m : Message} {v : Verdict} (hj : judge r m = .ok (v, r')) :
    r'.id = r.id := by
  unfold judge at hj
  split at hj
  · cases hj
    rfl
  split at hj
  · cases hj
    rfl
  split at hj
  · cases hj
  split_ifs at hj
  · cases hj
    rfl
  split at hj
  all_goals
    rename_i hm
    cases hj
    exact (congrArg (fun x => x.2.id) hm).symm.trans (merge_id r _)

theorem part_onDoc (r : Replica) (m : Message) :
    Part r.id [.ack, .want, .refuse, .bye] [.merged, .mergeRefused, .closed] s
      (onDoc h r m now s).said := by
  unfold onDoc
  split_ifs
  · exact (part_send h r.id s (m := { kind := .ack, digest := m.digest }) (fun _ _ => rfl)).mono
      (by simp) (by simp)
  split
  · exact Part.silent rfl rfl rfl
  · rename_i digest r' hj
    rw [← judge_id hj]
    exact (part_onMerged h now s r' m digest).mono (by simp) (by simp)
  · rename_i why collision r' hj
    rw [← judge_id hj]
    exact (part_onRefused h r'.id s m why collision).mono (by simp) (by simp)

theorem part_onAck (r : Replica) (m : Message) : Part r.id [] [] s (onAck h r m s).said := by
  unfold onAck
  have hl := refreshExport_link h s r
  have hs := refreshExport_state h s r
  split
  · rename_i he
    rw [he] at hl hs
    exact Part.silent hl hs rfl
  · rename_i he
    rw [he] at hl hs
    dsimp only [Outcome.said]
    split_ifs
    · exact Part.silent hl hs rfl
    · exact Part.silent hl hs rfl

/-- What was said before the rest of a call is said with it. -/
theorem Part.after {id : CString} {kinds kinds' : List Kind} {types types' : List EventType} {s : Session}
    {x : Said} {o : Outcome} (hx : Part id kinds types s x) (ho : Part id kinds' types' x.session o.said) :
    Part id (kinds ++ kinds') (types ++ types') s (o.after x.out).said := by
  have hboth : Part id (kinds ++ kinds') (types ++ types') s (x.andThen fun _ => o.said) := hx.andThen ho
  unfold Outcome.after Outcome.said
  cases hr : o.result with
  | ok out =>
    unfold Said.andThen Outcome.said at hboth
    rw [hr] at hboth
    exact hboth
  | error e =>
    refine ⟨hboth.link, hboth.state, ?_, ?_⟩
    · intro m hm
      cases hm
    · intro e he
      cases he

theorem part_onWant (r : Replica) {as : List Bytes} : ∀ {absent : List Bytes} {s : Session},
    Part r.id [.content, .absent] [] s (onWant h r as absent s).said := by
  induction as with
  | nil =>
    intro absent s
    rw [onWant]
    split_ifs
    · exact Part.silent rfl rfl rfl
    · exact (part_send h r.id s (m := { kind := .absent, addresses := absent }) (fun _ _ => rfl)).mono
        (by simp) (by simp)
  | cons a as ih =>
    intro absent s
    rw [onWant]
    have hl := refreshExport_link h s r
    have hs := refreshExport_state h s r
    split
    · rename_i he
      rw [he] at hl hs
      exact Part.silent hl hs rfl
    · rename_i s' he
      rw [he] at hl hs
      split
      · rename_i bytes _
        have hsend := part_send h r.id s' (m := { kind := .content, address := a, payload := bytes })
          (fun _ _ => rfl)
        exact ((hsend.after ih).of_link hl hs).mono (by simp) (by simp)
      · exact ih.of_link hl hs

theorem part_onContent (m : Message) :
    Part id [] [.messageRefused, .contentRefused, .contentArrived] s (onContent m s) := by
  have htell : ∀ (e : Event) (s' : Session), s'.link = s.link → s'.state = s.state →
      e.type ∈ [EventType.messageRefused, .contentRefused, .contentArrived] →
      Part id [] [.messageRefused, .contentRefused, .contentArrived] s (tell e s') := by
    intro e s' hl hs he
    exact ((part_tell id s' e).of_link hl hs).mono (by simp) (by simpa using he)
  unfold onContent
  split
  · exact htell _ _ rfl rfl (by simp)
  · split_ifs
    · exact htell _ _ rfl rfl (by simp)
    · exact htell _ _ rfl rfl (by simp)
    · exact htell _ _ rfl rfl (by simp)

theorem part_onAbsentOne (a : Bytes) : Part id [] [.contentUnavailable] s (onAbsentOne a s) := by
  unfold onAbsentOne
  split
  · exact Part.silent rfl rfl rfl
  · split_ifs
    · exact Part.silent rfl rfl rfl
    · exact (part_tell id _
        { type := .contentUnavailable, peer := s.peer, detail := lit "the peer does not serve it",
          address := a }).of_link rfl rfl

theorem part_onAbsent {as : List Bytes} : ∀ {s : Session},
    Part id [] [.contentUnavailable] s (onAbsent as s) := by
  induction as with
  | nil => exact Part.silent rfl rfl rfl
  | cons a as ih =>
    intro s
    rw [onAbsent]
    exact ((part_onAbsentOne id s a).andThen ih).mono (by simp) (by simp)

end VoidPalabra.Sync
