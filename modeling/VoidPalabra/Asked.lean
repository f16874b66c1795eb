import VoidPalabra.Requests

/-!
# What a call does about one address

The host releases an address or changes the policy, and then the call takes a path; which
moves can be on it depends on what the call is and on the message that it heard.
-/

namespace VoidPalabra.Sync

section
variable {h : Host} {r : Replica} {id : CString} {now : ℤ} {s : Session} {a : Bytes}

/-! ### Messages -/

theorem getElem?_insert_want {wants : Std.ExtTreeMap Bytes Want compare} (b : Bytes) (w : Want) :
    (wants.insert b w)[a]? = if a = b then some w else wants[a]? := by
  rw [Std.ExtTreeMap.getElem?_insert]
  by_cases hab : a = b
  · rw [if_pos hab, if_pos (Std.LawfulEqCmp.compare_eq_iff_eq.mpr hab.symm)]
  · rw [if_neg hab, if_neg fun he => hab (Std.LawfulEqCmp.eq_of_compare he).symm]

/-- A file is refused, arrives, or was not asked for. -/
theorem path_onContent (m : Message) :
    ∃ ms, Path s.timing s.fetch s.wants[a]? ms (onContent m s).session.wants[a]? ∧
      ms.filterMap Move.seen = seen a (onContent m s).out ∧
      (ms = [] ∨ ms = [.mismatch] ∧ m.address = a ∧ contentMatches m.address m.payload = false ∨
        ms = [.arrive] ∧ m.address = a ∧ contentMatches m.address m.payload = true) := by
  unfold onContent
  split
  · exact ⟨[], .nil _, by simp [tell, seen, seenOf, EventType.seen], Or.inl rfl⟩
  rename_i w hw
  split_ifs with hst hmatch
  · exact ⟨[], .nil _, by simp [tell, seen, seenOf, EventType.seen], Or.inl rfl⟩
  · rw [Bool.not_eq_true'] at hmatch
    change ∃ ms, Path _ _ _ ms (s.wants.insert m.address { w with state := .wanted })[a]? ∧ _
    rw [getElem?_insert_want]
    by_cases ha : m.address = a
    · subst ha
      rw [if_pos rfl, hw]
      exact ⟨[.mismatch], .one (.mismatch (not_not.mp hst)), by simp [tell, seen, seenOf, Move.seen,
        EventType.seen], Or.inr (Or.inl ⟨rfl, rfl, hmatch⟩)⟩
    · rw [if_neg fun he => ha he.symm]
      exact ⟨[], .nil _, by simp [tell, seen, seenOf, ha], Or.inl rfl⟩
  · rw [Bool.not_eq_true', Bool.not_eq_false] at hmatch
    change ∃ ms, Path _ _ _ ms (s.wants.erase m.address)[a]? ∧ _
    rw [Std.ExtTreeMap.getElem?_erase]
    by_cases ha : m.address = a
    · subst ha
      rw [if_pos Std.ReflCmp.compare_self, hw]
      exact ⟨[.arrive], .one (.arrive (not_not.mp hst)), by simp [tell, seen, seenOf, Move.seen,
        EventType.seen], Or.inr (Or.inr ⟨rfl, rfl, hmatch⟩)⟩
    · rw [if_neg fun he => ha (Std.LawfulEqCmp.eq_of_compare he)]
      exact ⟨[], .nil _, by simp [tell, seen, seenOf, ha], Or.inl rfl⟩

theorem desk_onContent (m : Message) : (onContent m s).session.timing = s.timing ∧
    (onContent m s).session.fetch = s.fetch := by
  unfold onContent
  split
  · exact ⟨rfl, rfl⟩
  · split_ifs <;> exact ⟨rfl, rfl⟩

theorem traced_onAbsentOne (b : Bytes) :
    Traced a (fun mv => mv = .absent ∧ a = b) s (onAbsentOne b s) := by
  unfold onAbsentOne
  split
  · exact Traced.quiet rfl rfl
  rename_i w hw
  split_ifs with hst
  · exact Traced.quiet rfl rfl
  refine ⟨rfl, rfl, ?_⟩
  change ∃ ms, Path _ _ _ ms (s.wants.insert b { w with state := .unavailable })[a]? ∧ _
  rw [getElem?_insert_want]
  by_cases ha : a = b
  · subst ha
    rw [if_pos rfl, hw]
    exact ⟨[.absent], .one (.absent (not_not.mp hst)),
      by simp [tell, seen, seenOf, Move.seen, EventType.seen], by simp⟩
  · rw [if_neg ha]
    exact ⟨[], .nil _, by simp [tell, seen, seenOf, Ne.symm ha], by simp⟩

/-- What the peer does not serve is given up. -/
theorem traced_onAbsent : ∀ (as : List Bytes) (s : Session),
    Traced a (fun mv => mv = .absent ∧ a ∈ as) s (onAbsent as s)
  | [], s => Traced.quiet rfl rfl
  | b :: as, s => by
    rw [onAbsent]
    refine Traced.andThen ((traced_onAbsentOne b).mono ?_) ((traced_onAbsent as _).mono ?_)
    · rintro m ⟨rfl, rfl⟩
      exact ⟨rfl, List.mem_cons_self⟩
    · rintro m ⟨rfl, ha⟩
      exact ⟨rfl, List.mem_cons_of_mem _ ha⟩

theorem traced_onHello (m : Message) :
    Traced a (Plain h r s.references a) s (onHello h r m now s).said := by
  by_cases ht : Taken r.id m s
  · have hpeer : ¬(!s.peer.isEmpty && decide (m.sender ≠ s.peer)) = true := by
      rcases ht.peer with hp | hp <;> simp [hp]
    have hpart := @part_answerHello h now s _ m ht
      { s with peer := m.sender, peerSession := m.session,
               state := if opening m s then .opened else s.state } rfl rfl
    have hseen : seen a (answerHello h r.id m now s).out = [] :=
      seen_of_part hpart (by decide) (by simp [EventType.seen]) a
    have hanswer : Traced a (Plain h r s.references a) s (answerHello h r.id m now s) :=
      Traced.quiet (desk_answerHello m) hseen
    unfold onHello
    rw [if_neg ht.other, if_neg hpeer]
    dsimp only
    split_ifs
    · have hrefs : (answerHello h r.id m now s).session.references = s.references :=
        congrArg Link.references hpart.link
      have htick := @traced_tick h r now (answerHello h r.id m now s).session a
      rw [hrefs] at htick
      exact hanswer.after htick fun _ _ => hseen
    · exact hanswer
  · have hseen := seen_of_part (@part_onHello_refused h r now s m ht) (by decide)
      (by simp [EventType.seen]) a
    refine Traced.quiet ?_ hseen
    rcases @onHello_refused h r now s m ht with he | he
    · rw [he]
      exact desk_finish _ _
    · rw [he]
      rfl

theorem traced_onDoc (m : Message) :
    Traced a (Plain h (onDoc h r m now s).replica s.references a) s (onDoc h r m now s).said := by
  unfold onDoc
  split_ifs
  · exact Traced.quiet rfl (by simp [seen, send, Outcome.said, Said.done, seenOf, stamp_kind])
  split
  · exact Traced.quiet rfl rfl
  · rename_i digest r' _
    have hfirst : Traced a (Plain h r' s.references a) s
        ((send h r'.id { kind := .ack, digest := m.digest } { s with lastMerged := digest }).andThen
          (tell { type := .merged, peer := s.peer, conflicts := r'.conflicts.length,
                  anomalies := (anomalies r'.doc r'.policy).length })) :=
      Traced.quiet rfl (by simp [seen, send, tell, Said.andThen, seenOf, stamp_kind, EventType.seen])
    exact hfirst.andThen (traced_refreshWants (s := { s with lastMerged := digest }))
  · rename_i why collision r' _
    exact Traced.quiet (desk_onRefused m why collision)
      (seen_of_part (part_onRefused h r'.id s m why collision) (by decide) (by simp [EventType.seen]) a)

end

/-! ### Calls -/

/-- What the host does to the table before a call goes on. -/
def Call.prepare (c : Call) (s : Session) : Session :=
  match c with
  | .fetch address =>
    match s.wants[address]? with
    | none => s
    | some w => { s with wants := s.wants.insert address w.release }
  | .setFetch policy => { s with fetch := policy, wants := s.wants.map fun _ w => w.follow policy }
  | _ => s

namespace Entry

/-- The session once the host's wish is noted. -/
def prepared (e : Entry) : Session := e.call.prepare e.before

/-- The replica names an address whose file the host does not hold. -/
def Lacks (e : Entry) (a : Bytes) : Prop :=
  Sync.Lacks e.host e.outcome.replica e.before.references a

/-- A file of the peer that a call heard. -/
def HearsFile (e : Entry) (m : Message) : Prop :=
  e.heard = some m ∧ m.kind = .content ∧ FromPeer m e.before

/-- The moves that a call can make. -/
def Allows (e : Entry) (a : Bytes) : Move → Prop
  | .mismatch => ∃ m, e.HearsFile m ∧ m.address = a ∧ contentMatches a m.payload = false
  | .arrive => ∃ m, e.HearsFile m ∧ m.address = a ∧ contentMatches a m.payload = true
  | .absent => ∃ m, e.heard = some m ∧ m.kind = .absent ∧ FromPeer m e.before ∧ a ∈ m.addresses
  | mv => Plain e.host e.outcome.replica e.before.references a mv

theorem allows_of_plain {e : Entry} {a : Bytes} {mv : Move}
    (h : Plain e.host e.outcome.replica e.before.references a mv) : e.Allows a mv := by
  cases mv with
  | mismatch => exact h.elim
  | arrive => exact h.elim
  | absent => exact h.elim
  | enter => exact h
  | leave => exact h
  | ask => exact h
  | retry => exact h
  | giveUp => exact h

/-- What a call does about one address. -/
structure Lives (e : Entry) (a : Bytes) (ms : List Move) : Prop where
  /-- The timers stay. -/
  timing : e.after.timing = e.before.timing
  /-- The policy is the one that the host wishes. -/
  policy : e.after.fetch = e.prepared.fetch
  /-- The path, once the host's wish is noted. -/
  path : Path e.before.timing e.after.fetch e.prepared.wants[a]? ms e.after.wants[a]?
  /-- The call says what is on it. -/
  seen : ms.filterMap Move.seen = Sync.seen a e.out
  /-- It can make these moves. -/
  allows : ∀ mv ∈ ms, e.Allows a mv
  /-- A file that is heard is all that happens. -/
  alone : .mismatch ∈ ms ∨ .arrive ∈ ms → ms.length = 1

end Entry

/-- What the host's wish makes of the want for one address. -/
def Call.wish (c : Call) (a : Bytes) (w : Want) : Want :=
  match c with
  | .fetch address => if a = address then w.release else w
  | .setFetch policy => w.follow policy
  | _ => w

theorem prepare_wants (c : Call) (s : Session) (a : Bytes) :
    (c.prepare s).wants[a]? = (s.wants[a]?).map (c.wish a) := by
  have hsame : ∀ o : Option Want, o = o.map fun w => w := fun o => by cases o <;> rfl
  cases c with
  | fetch b =>
    change _ = (s.wants[a]?).map fun w => if a = b then w.release else w
    cases hb : s.wants[b]? with
    | none =>
      have hprepare : (Call.fetch b).prepare s = s := by simp only [Call.prepare, hb]
      rw [hprepare]
      by_cases hab : a = b
      · rw [hab, hb]
        rfl
      · simp only [if_neg hab]
        exact hsame _
    | some w =>
      have hprepare : (Call.fetch b).prepare s = { s with wants := s.wants.insert b w.release } := by
        simp only [Call.prepare, hb]
      rw [hprepare]
      dsimp only
      rw [getElem?_insert_want]
      by_cases hab : a = b
      · simp only [if_pos hab]
        rw [hab, hb]
        rfl
      · simp only [if_neg hab]
        exact hsame _
  | setFetch policy => exact Std.ExtTreeMap.getElem?_map
  | start => exact hsame _
  | receive => exact hsame _
  | tick => exact hsame _
  | publishPresence => exact hsame _
  | close => exact hsame _

/-- No wish of the host opens a request. -/
theorem Call.requested_of_wish {c : Call} {a : Bytes} {w : Want}
    (h : (c.wish a w).state = .requested) : w.state = .requested := by
  cases c with
  | fetch b =>
    change (if a = b then w.release else w).state = .requested at h
    unfold Want.release at h
    split_ifs at h <;> exact h
  | setFetch policy =>
    change (w.follow policy).state = .requested at h
    unfold Want.follow at h
    split_ifs at h
    exact h
  | start => exact h
  | receive => exact h
  | tick => exact h
  | publishPresence => exact h
  | close => exact h

theorem prepare_timing (c : Call) (s : Session) : (c.prepare s).timing = s.timing := by
  unfold Call.prepare
  split
  · split <;> rfl
  · rfl
  · rfl

theorem Entry.Lives.of_traced {e : Entry} {a : Bytes} {allows : Move → Prop}
    (h : Traced a allows e.prepared e.outcome.said) (ha : ∀ mv, allows mv → e.Allows a mv)
    (hno : ¬allows .mismatch ∧ ¬allows .arrive) : ∃ ms, e.Lives a ms := by
  obtain ⟨ms, hms, hseen, hall⟩ := h.path
  refine ⟨ms, ⟨h.timing.trans (prepare_timing ..), h.fetch, ?_, hseen,
    fun mv hmv => ha mv (hall mv hmv), ?_⟩⟩
  · rw [prepared, prepare_timing, ← prepared, ← h.fetch] at hms
    exact hms
  · rintro (hm | hm)
    · exact absurd (hall _ hm) hno.1
    · exact absurd (hall _ hm) hno.2

namespace Entry

/-- A frame that is heard moves an address as its message asks for. -/
theorem lives_receive {h : Host} {r : Replica} {now : ℤ} {s : Session} {frame : Bytes} (a : Bytes) :
    ∃ ms, Lives ⟨.receive frame, h, now, r, s⟩ a ms := by
  rcases @receive_cases h r now s frame with ⟨-, hs, -, hp⟩ | ⟨m, hm, -, hrec⟩
  · have hquiet : Traced a (fun _ => False) s (outcome ⟨.receive frame, h, now, r, s⟩).said := by
      refine Traced.quiet ?_ (seen_of_part hp (by simp) (by simp [EventType.seen]) a)
      change Session.desk (receive h r frame now s).session = _
      rw [hs]
    exact Lives.of_traced hquiet (fun _ hf => hf.elim) ⟨id, id⟩
  -- what a part of the message's handler does is what the call does
  have hout : ∀ {allows : Move → Prop}, Traced a allows s (onMessage h r m now s).said →
      Traced a allows s (outcome ⟨.receive frame, h, now, r, s⟩).said := by
    intro allows ht
    have hn := ht.session (@Outcome.desk_noteSaid now (onMessage h r m now s))
    rw [← @Outcome.noteSaid_out now (onMessage h r m now s)] at hn
    change Traced a allows s (receive h r frame now s).said
    rw [hrec]
    exact hn
  have hreplica : (outcome ⟨.receive frame, h, now, r, s⟩).replica =
      (onMessage h r m now s).replica := by
    change (receive h r frame now s).replica = _
    rw [hrec, Outcome.noteSaid_replica]
  have hplain : Traced a (Plain h (onMessage h r m now s).replica s.references a) s
      (onMessage h r m now s).said → ∃ ms, Lives ⟨.receive frame, h, now, r, s⟩ a ms := by
    intro ht
    refine Lives.of_traced (hout ht) (fun mv hmv => allows_of_plain ?_) ⟨id, id⟩
    rw [hreplica]
    exact hmv
  by_cases hk : m.kind = .hello
  · refine hplain ?_
    rw [onMessage_hello hk, onHello_replica]
    exact traced_onHello m
  by_cases hp : FromPeer m s
  swap
  · refine hplain ?_
    rw [onMessage_ignored hk hp]
    exact Traced.quiet rfl rfl
  have hquiet : ∀ {x : Outcome}, onMessage h r m now s = x →
      x.session.desk = s.desk → seen a x.said.out = [] →
      ∃ ms, Lives ⟨.receive frame, h, now, r, s⟩ a ms := fun hx hd ho =>
    hplain (hx ▸ Traced.quiet hd ho)
  have hother := @onMessage_other h r now s m hk hp
  unfold onOther at hother
  split at hother
  · exact hquiet hother rfl rfl
  · refine hplain ?_
    rw [hother]
    exact (traced_onDoc (s := { s with lastHeard := now }) m).of_desk rfl
  · exact hquiet hother (desk_onAck m)
      (seen_of_part (part_onAck h { s with lastHeard := now } r m) (by simp) (by simp) a)
  · exact hquiet hother rfl (by simp [seen, Outcome.said, Said.done, onRefuse, tell, seenOf,
      EventType.seen])
  · exact hquiet hother (desk_onWant m.addresses [] _)
      (seen_of_part (part_onWant h r) (by decide) (by simp) a)
  · rename_i hkind
    obtain ⟨ms, hms, hseen, hcases⟩ := @path_onContent { s with lastHeard := now } a m
    have hfile : HearsFile ⟨.receive frame, h, now, r, s⟩ m := ⟨hm, hkind, hp⟩
    obtain ⟨ht, hfetch⟩ := @desk_onContent { s with lastHeard := now } m
    have hd := @Outcome.desk_noteSaid now (onMessage h r m now s)
    have hwants : (after ⟨.receive frame, h, now, r, s⟩).wants =
        (onContent m { s with lastHeard := now }).session.wants := by
      change (receive h r frame now s).session.wants = _
      rw [hrec, hother]
      rw [hother] at hd
      exact congrArg Desk.wants hd
    have hpolicy : (after ⟨.receive frame, h, now, r, s⟩).fetch = s.fetch := by
      change (receive h r frame now s).session.fetch = _
      rw [hrec, hother]
      rw [hother] at hd
      exact (congrArg Desk.fetch hd).trans hfetch
    have htiming : (after ⟨.receive frame, h, now, r, s⟩).timing = s.timing := by
      change (receive h r frame now s).session.timing = _
      rw [hrec, hother]
      rw [hother] at hd
      exact (congrArg Desk.timing hd).trans ht
    have hsaid : out ⟨.receive frame, h, now, r, s⟩ = (onContent m { s with lastHeard := now }).out := by
      change (receive h r frame now s).said.out = _
      rw [hrec, Outcome.noteSaid_out, hother]
      rfl
    refine ⟨ms, htiming, hpolicy, ?_, ?_, ?_, ?_⟩
    · rw [hwants, hpolicy]
      exact hms
    · rw [hsaid]
      exact hseen
    · rcases hcases with rfl | ⟨rfl, rfl, hmatch⟩ | ⟨rfl, rfl, hmatch⟩
      · simp
      · exact List.forall_mem_singleton.mpr ⟨m, hfile, rfl, hmatch⟩
      · exact List.forall_mem_singleton.mpr ⟨m, hfile, rfl, hmatch⟩
    · rcases hcases with rfl | ⟨rfl, -⟩ | ⟨rfl, -⟩
      · simp
      · exact fun _ => rfl
      · exact fun _ => rfl
  · rename_i hkind
    have habsent : Traced a (fun mv => mv = .absent ∧ a ∈ m.addresses) s
        (onMessage h r m now s).said := by
      rw [hother]
      exact (traced_onAbsent m.addresses { s with lastHeard := now }).of_desk rfl
    refine Lives.of_traced (hout habsent) (fun mv hmv => ?_) ⟨by simp, by simp⟩
    rw [hmv.1]
    exact ⟨m, hm, hkind, hp, hmv.2⟩
  · exact hquiet hother (desk_onPresence m) (by
      unfold onPresence
      split_ifs <;> simp [seen, Outcome.said, Said.done, tell, seenOf, EventType.seen])
  · exact hquiet hother (desk_finish _ _)
      (seen_of_part (part_finish h r.id _ _ false) (by decide) (by simp [EventType.seen]) a)

/-- **Every call takes a path.** What it says about an address is on the path. -/
theorem lives (e : Entry) (a : Bytes) : ∃ ms, e.Lives a ms := by
  have hplain : Traced a (Plain e.host e.outcome.replica e.before.references a) e.prepared
      e.outcome.said → ∃ ms, e.Lives a ms := fun ht =>
    Lives.of_traced ht (fun mv hmv => allows_of_plain hmv) ⟨id, id⟩
  obtain ⟨c, h, now, r, s⟩ := e
  cases c with
  | start => exact hplain (Traced.quiet rfl (by
      simp [seen, outcome, Call.run, Outcome.said, Said.done, start, send, seenOf, stamp_kind]))
  | receive frame => exact lives_receive a
  | tick =>
    refine hplain ?_
    change Traced a (Plain h (tick h r now s).replica s.references a) s (tick h r now s).said
    rw [tick_replica]
    exact traced_tick
  | publishPresence payload =>
    exact hplain (Traced.quiet (desk_publishPresence payload)
      (seen_of_part (part_publishPresence payload) (by decide) (by simp [EventType.seen]) a))
  | fetch address =>
    refine hplain ?_
    change Traced a _ ((Call.fetch address).prepare s) (fetch h r.id address now s)
    cases hw : s.wants[address]? with
    | none =>
      have hprepare : (Call.fetch address).prepare s = s := by simp only [Call.prepare, hw]
      have hfetch : fetch h r.id address now s = ⟨s, []⟩ := by simp only [fetch, hw]
      rw [hprepare, hfetch]
      exact Traced.quiet rfl rfl
    | some w =>
      have hprepare : (Call.fetch address).prepare s =
          { s with wants := s.wants.insert address w.release } := by simp only [Call.prepare, hw]
      have hfetch : fetch h r.id address now s =
          noteSaid now (ask h r.id now { s with wants := s.wants.insert address w.release }) := by
        simp only [fetch, hw]
      rw [hprepare, hfetch]
      have hask := @traced_plain_ask h r r.id now { s with wants := s.wants.insert address w.release }
        a s.references
      have hnote := hask.session (@desk_noteSaid now _)
      rw [← @noteSaid_out now (ask h r.id now
        { s with wants := s.wants.insert address w.release })] at hnote
      exact hnote
  | setFetch policy =>
    refine hplain ?_
    have hask := @traced_plain_ask h r r.id now ((Call.setFetch policy).prepare s) a s.references
    have hnote := hask.session (@desk_noteSaid now _)
    rw [← @noteSaid_out now (ask h r.id now ((Call.setFetch policy).prepare s))] at hnote
    exact hnote
  | close reason =>
    exact hplain (Traced.quiet (desk_finish reason true)
      (seen_of_part (part_finish h r.id s reason true) (by decide) (by simp [EventType.seen]) a))

end Entry

end VoidPalabra.Sync
