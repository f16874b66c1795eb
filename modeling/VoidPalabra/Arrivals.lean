import VoidPalabra.Attempts
import VoidPalabra.Refusals

/-!
# Files that arrive

A file is accepted while a request for it is open, and only with bytes of its address. A request
is opened by asking, so every arrival has a want of its own before it.
-/

namespace VoidPalabra.Sync

/-- An address was asked for since it last arrived or was reported. -/
def AskedSince (said : List Seen) : Prop :=
  ∃ l r, said = l ++ .asked :: r ∧ .arrived ∉ r ∧ .unavailable ∉ r

theorem AskedSince.prepend {said : List Seen} (h : AskedSince said) (before : List Seen) :
    AskedSince (before ++ said) := by
  obtain ⟨l, r, rfl, hr⟩ := h
  exact ⟨before ++ l, r, by simp, hr⟩

section
variable {timing : Timing} {policy : FetchPolicy} {w w' : Option Want} {ms : List Move}

/-- A request is opened by asking. -/
theorem Path.askedSince (h : Path timing policy w ms w') {v : Want} (hv : w' = some v)
    (hst : v.state = .requested) : ms = [] ∧ w = w' ∨ AskedSince (ms.filterMap Move.seen) := by
  induction h with
  | nil => exact Or.inl ⟨rfl, rfl⟩
  | @cons w w' w'' m ms first rest ih =>
    rcases ih hv with ⟨rfl, rfl⟩ | hs
    · subst hv
      have hm : m = .ask := by
        cases first with
        | enter => cases policy <;> simp at hst
        | ask => rfl
        | retry => cases hst
        | giveUp => cases hst
        | mismatch => cases hst
        | absent => cases hst
      rw [hm]
      exact Or.inr ⟨[], [], rfl, List.not_mem_nil, List.not_mem_nil⟩
    · rw [List.filterMap_cons]
      cases m.seen with
      | none => exact Or.inr hs
      | some x => exact Or.inr (hs.prepend [x])

/-- What was not in the table and is there came in. -/
theorem Path.enters {v : Want} (h : Path timing policy none ms (some v)) : .enter ∈ ms := by
  cases h with
  | cons first _ =>
    cases first with
    | enter => exact List.mem_cons_self

end

namespace Entry

/-- A call takes in what its replica names. -/
def Enters (e : Entry) (a : Bytes) : Prop :=
  a ∉ e.before.wants ∧ a ∈ namedBy e.outcome.replica e.before.references

theorem enters_of_mem {e : Entry} {a : Bytes} (hb : a ∉ e.before.wants) (ha : a ∈ e.after.wants) :
    e.Enters a := by
  obtain ⟨ms, hl⟩ := e.lives a
  have hpath := hl.path
  obtain ⟨v, hv⟩ := Option.isSome_iff_exists.mp (Std.ExtTreeMap.mem_iff_isSome_getElem?.mp ha)
  rw [prepared, prepare_wants, Std.ExtTreeMap.getElem?_eq_none hb, hv] at hpath
  exact ⟨hb, (hl.allows _ hpath.enters).1⟩

/-- A file that a call hears is all that it acts on. -/
theorem HearsFile.outcome {e : Entry} {m : Message} (h : e.HearsFile m) :
    e.outcome = ((onContent m { e.before with lastHeard := e.now }).done e.replica).noteSaid e.now := by
  obtain ⟨hheard, hk, hp⟩ := h
  rw [Entry.outcome_hears (Entry.hears_eq_some.mpr ⟨hheard, hk, hp⟩) (by decide)]
  unfold onOther
  rw [hk]

end Entry

namespace Entry

/-- A call that says that a file arrived heard it, with bytes of its address. -/
theorem hearsFile_of_arrived {e : Entry} {ev : Event} (hev : .event ev ∈ e.out)
    (ht : ev.type = .contentArrived) :
    ∃ m, e.HearsFile m ∧ ev.address = m.address ∧ ev.bytes = m.payload ∧
      contentMatches ev.address ev.bytes = true := by
  obtain ⟨ms, hl⟩ := e.lives ev.address
  have hseen : .arrived ∈ seen ev.address e.out := by
    refine List.mem_filterMap.mpr ⟨.event ev, hev, ?_⟩
    rw [seenOf, if_pos rfl, ht]
    rfl
  rw [← hl.seen] at hseen
  obtain ⟨mv, hmv, hs⟩ := List.mem_filterMap.mp hseen
  obtain rfl : mv = .arrive := by cases mv <;> first | rfl | cases hs
  obtain ⟨m, hfile, ha, hmatch⟩ := hl.allows _ hmv
  have hout : e.out = (onContent m { e.before with lastHeard := e.now }).out := by
    rw [out, hfile.outcome, Outcome.noteSaid_out]
    rfl
  rw [hout] at hev
  refine ⟨m, hfile, ha.symm, ?_⟩
  have hbytes : ev.bytes = m.payload := by
    unfold onContent at hev
    split at hev
    · cases List.mem_singleton.mp hev
      cases ht
    · split_ifs at hev
      · cases List.mem_singleton.mp hev
        cases ht
      · cases List.mem_singleton.mp hev
        cases ht
      · cases List.mem_singleton.mp hev
        rfl
  exact ⟨hbytes, hbytes ▸ hmatch⟩

end Entry

/-! ### Runs -/

/-- An open request was asked for since the address last arrived or was reported. -/
theorem Run.askedSince {s₀ s : Session} {es : List Entry} (hf : Fresh s₀) (hr : Run s₀ es s)
    {a : Bytes} {v : Want} (hv : s.wants[a]? = some v) (hst : v.state = .requested) :
    AskedSince (seen a (log es)) := by
  induction hr generalizing v with
  | nil =>
    rw [hf] at hv
    simp at hv
  | @call es e hr ih =>
    obtain ⟨ms, hl⟩ := e.lives a
    have hlog : seen a (log (es ++ [e])) = seen a (log es) ++ ms.filterMap Move.seen := by
      rw [log_append, seen_append, hl.seen]
      simp [log]
    rw [hlog]
    rcases hl.path.askedSince hv hst with ⟨rfl, hsame⟩ | hs
    · rw [hv, Entry.prepared, prepare_wants] at hsame
      obtain ⟨u, hu, rfl⟩ := Option.map_eq_some_iff.mp hsame
      simpa using ih hu (Call.requested_of_wish hst)
    · exact hs.prepend _

/-- What is in the table came in when a replica named it. -/
theorem Run.entered {s₀ s : Session} {es : List Entry} (hf : Fresh s₀) (hr : Run s₀ es s) {a : Bytes}
    (ha : a ∈ s.wants) : ∃ past e since, es = past ++ e :: since ∧ e.Enters a ∧
      ∀ x ∈ since, a ∈ x.before.wants := by
  induction hr with
  | nil =>
    rw [hf] at ha
    simp at ha
  | @call es e hr ih =>
    by_cases hb : a ∈ e.before.wants
    · obtain ⟨past, x, since, rfl, hx, hall⟩ := ih hb
      refine ⟨past, x, since ++ [e], by simp, hx, fun y hy => ?_⟩
      rcases List.mem_append.mp hy with hy | hy
      · exact hall y hy
      · rw [List.mem_singleton.mp hy]
        exact hb
    · exact ⟨es, e, [], rfl, Entry.enters_of_mem hb ha, List.forall_mem_nil _⟩

/-- Between two arrivals of an address it is asked for. -/
def AskedBetween (said : List Seen) : Prop :=
  ∀ l mid r, said = l ++ .arrived :: (mid ++ .arrived :: r) → .asked ∈ mid

theorem AskedBetween.concat {said : List Seen} (h : AskedBetween said) {x : Seen}
    (hx : x = .arrived → AskedSince said) : AskedBetween (said ++ [x]) := by
  intro l mid r he
  rcases List.eq_nil_or_concat r with rfl | ⟨r, y, rfl⟩
  · -- the second arrival is the last thing that is said
    have he : said ++ [x] = (l ++ .arrived :: mid) ++ [.arrived] := by simpa using he
    obtain ⟨rfl, hlast⟩ := List.append_inj' he rfl
    cases hlast
    obtain ⟨l', r', hsplit, harrived, -⟩ := hx rfl
    rcases List.append_eq_append_iff.mp hsplit with ⟨as, rfl, hr⟩ | ⟨as, rfl, hr⟩
    · cases as with
      | nil =>
        cases hr
      | cons y as =>
        rw [List.cons_append] at hr
        obtain ⟨-, rfl⟩ := List.cons.inj hr
        simp
    · cases as with
      | nil => cases hr
      | cons y as =>
        rw [List.cons_append] at hr
        obtain ⟨-, rfl⟩ := List.cons.inj hr
        simp at harrived
  · have he : said ++ [x] = (l ++ .arrived :: (mid ++ .arrived :: r)) ++ [y] := by simpa using he
    obtain ⟨hsaid, -⟩ := List.append_inj' he rfl
    exact h l mid r hsaid

theorem AskedBetween.append {said said' : List Seen} (h : AskedBetween said)
    (hno : .arrived ∉ said') : AskedBetween (said ++ said') := by
  induction said' generalizing said with
  | nil => simpa using h
  | cons x said' ih =>
    rw [List.mem_cons, not_or] at hno
    have := ih (h.concat (x := x) fun hx => absurd hx.symm hno.1) hno.2
    simpa using this

theorem Run.askedBetween {s₀ s : Session} {es : List Entry} (hf : Fresh s₀) (hr : Run s₀ es s)
    (a : Bytes) : AskedBetween (seen a (log es)) := by
  induction hr with
  | nil =>
    intro l mid r he
    simp [log, seen] at he
  | @call es e hr ih =>
    obtain ⟨ms, hl⟩ := e.lives a
    have hlog : seen a (log (es ++ [e])) = seen a (log es) ++ ms.filterMap Move.seen := by
      rw [log_append, seen_append, hl.seen]
      simp [log]
    rw [hlog]
    by_cases hm : .arrive ∈ ms
    · obtain ⟨m, rfl⟩ := List.length_eq_one_iff.mp (hl.alone (Or.inr hm))
      obtain rfl := List.mem_singleton.mp hm
      refine ih.concat fun _ => ?_
      have hpath := hl.path
      generalize hp : e.prepared.wants[a]? = w at hpath
      cases hpath with
      | cons first _ =>
        cases first with
        | arrive hst =>
          rw [Entry.prepared, prepare_wants] at hp
          obtain ⟨u, hu, rfl⟩ := Option.map_eq_some_iff.mp hp
          exact hr.askedSince hf hu (Call.requested_of_wish hst)
    · refine ih.append fun hs => ?_
      obtain ⟨mv, hmv, hs⟩ := List.mem_filterMap.mp hs
      obtain rfl : mv = .arrive := by cases mv <;> first | rfl | cases hs
      exact hm hmv

/-- What is known of a file that a call reports after other calls. -/
structure Accepted (past : List Entry) (e : Entry) (ev : Event) : Prop where
  /-- Its bytes hash to its address. -/
  matching : hexBytes (sha256 ev.bytes) = ev.address
  /-- The address came into the table when the replica named it. -/
  named : ∃ before x since, past = before ++ x :: since ∧ x.Enters ev.address ∧
    ∀ y ∈ since ++ [e], ev.address ∈ y.before.wants
  /-- It was asked for since it last arrived or was reported. -/
  asked : AskedSince (seen ev.address (log past))

/-- **Files are accepted only on request and only when true.** Any other content frame leaves the
addresses of the table and the replica. -/
theorem files_accepted :
    (∀ {s₀ s : Session} {past later : List Entry} {e : Entry} {ev : Event}, Fresh s₀ →
      Run s₀ (past ++ e :: later) s → .event ev ∈ e.out → ev.type = .contentArrived →
        Accepted past e ev) ∧
    (∀ {s₀ s : Session} {es : List Entry} (a : Bytes), Fresh s₀ → Run s₀ es s →
      AskedBetween (seen a (log es))) ∧
    ∀ {e : Entry} {frame : Bytes} {m : Message}, e.call = .receive frame →
      decodeFrame frame e.before.limits = .ok m → m.kind = .content →
      (∀ ev, .event ev ∈ e.out → ev.type ≠ .contentArrived) →
        e.outcome.replica = e.replica ∧ ∀ a, a ∈ e.after.wants ↔ a ∈ e.before.wants := by
  refine ⟨?_, fun a hf hr => hr.askedBetween hf a, ?_⟩
  · intro s₀ s past later e ev hf hr hev ht
    obtain ⟨m, hfile, ha, hbytes, hmatch⟩ := Entry.hearsFile_of_arrived hev ht
    have hout : e.out = (onContent m { e.before with lastHeard := e.now }).out := by
      rw [Entry.out, hfile.outcome, Outcome.noteSaid_out]
      rfl
    -- the file was accepted, so a request for it was open
    obtain ⟨w, hw, hst⟩ : ∃ w, e.before.wants[ev.address]? = some w ∧ w.state = .requested := by
      rw [hout, onContent] at hev
      rw [ha]
      split at hev
      · cases List.mem_singleton.mp hev
        cases ht
      · rename_i w hw
        split_ifs at hev with hst
        · cases List.mem_singleton.mp hev
          cases ht
        all_goals exact ⟨w, hw, not_not.mp hst⟩
    have hmem : ev.address ∈ e.before.wants :=
      Std.ExtTreeMap.mem_iff_isSome_getElem?.mpr (by simp [hw])
    obtain ⟨before, x, since, rfl, hx, hall⟩ := hr.before.entered hf hmem
    refine ⟨?_, ⟨before, x, since, rfl, hx, ?_⟩, hr.before.askedSince hf hw hst⟩
    · unfold contentMatches at hmatch
      rw [Bool.and_eq_true, beq_iff_eq] at hmatch
      exact hmatch.2
    · intro y hy
      rcases List.mem_append.mp hy with hy | hy
      · exact hall y hy
      · rw [List.mem_singleton.mp hy]
        exact hmem
  · intro e frame m hcall hdecode hk hno
    obtain ⟨c, h, now, r, s⟩ := e
    dsimp only at hcall hdecode
    subst hcall
    rcases @receive_cases h r now s frame with ⟨-, hs, hr, -⟩ | ⟨m', hm, -, hrec⟩
    · refine ⟨hr, fun a => ?_⟩
      change a ∈ (receive h r frame now s).session.wants ↔ _
      rw [hs]
    obtain rfl : m' = m := by
      unfold accepted at hm
      rw [hdecode] at hm
      split at hm
      · cases hm
      · dsimp only at hm
        split at hm
        · cases hm
        · exact (Option.some.inj hm).symm
    by_cases hp : FromPeer m' s
    · have hfile : Entry.HearsFile ⟨.receive frame, h, now, r, s⟩ m' := ⟨hm, hk, hp⟩
      have hout := hfile.outcome
      refine ⟨?_, fun a => ?_⟩
      · rw [hout, Outcome.noteSaid_replica]
        rfl
      · rw [Entry.after, hout, Outcome.noteSaid_wants]
        refine (mem_onContent m' a).trans (and_iff_left ?_)
        rintro ⟨-, ev, hev, ht⟩
        refine hno ev ?_ ht
        rw [Entry.out, hout, Outcome.noteSaid_out]
        exact hev
    · have hne : m'.kind ≠ .hello := by rw [hk]; decide
      refine ⟨?_, fun a => ?_⟩
      · change (receive h r frame now s).replica = r
        rw [hrec, Outcome.noteSaid_replica, onMessage_ignored hne hp]
      · change a ∈ (receive h r frame now s).session.wants ↔ a ∈ s.wants
        rw [hrec, Outcome.noteSaid_wants, onMessage_ignored hne hp]

/-! ### A file that arrives -/

/-- The address of a file of one byte. -/
def fileAddress : CString := ⟨hexBytes (sha256 [0x78]), noNul_hexBytes _⟩

/-- The replica of a device whose document names the file. -/
def deviceWanting : Replica :=
  (deviceA.observe (some (.obj [(Key.mantles, .arr [.obj [(Key.name, .str (.ofLit "m")),
    (Key.rules, .arr [.str fileAddress])]])]))).2

/-- The peer says hello and sends the file. -/
def arrivalCalls : List (Call × ℤ × Replica) :=
  [(.receive (encodeFrame (peerSays .hello "bbbbbbbbbbbbbbbb@1" 0)), 0, deviceWanting),
    (.receive (encodeFrame { peerSays .content "bbbbbbbbbbbbbbbb@1" 0 with
      address := fileAddress.bytes, payload := [0x78] }), 1, deviceWanting)]

/-- The run of those calls. -/
def arrivalRun : List Entry := trace {} automaticStart arrivalCalls

/-- A call of that run. -/
def arrivalEntry (n : ℕ) : Entry := arrivalRun.getD n ⟨.tick, {}, 0, deviceA, {}⟩

theorem files_accepted_one : ∃ ev, .event ev ∈ (arrivalEntry 1).out ∧ ev.type = .contentArrived ∧
    Accepted [arrivalEntry 0] (arrivalEntry 1) ev := by
  obtain ⟨s, hr⟩ := @Run.trace automaticStart {} arrivalCalls [] automaticStart .nil
  have hentries : [] ++ trace {} automaticStart arrivalCalls =
      [arrivalEntry 0] ++ arrivalEntry 1 :: [] := rfl
  rw [hentries] at hr
  have hfresh : Fresh automaticStart := rfl
  have hseen : .arrived ∈ seen fileAddress.bytes (arrivalEntry 1).out := by decide +kernel
  obtain ⟨o, ho, hs⟩ := List.mem_filterMap.mp hseen
  cases o with
  | frame m =>
    rw [seenOf] at hs
    split_ifs at hs
    cases hs
  | event ev =>
    have ht : ev.type = .contentArrived := by
      rw [seenOf] at hs
      split_ifs at hs
      cases htype : ev.type <;> rw [htype] at hs <;> first | rfl | cases hs
    exact ⟨ev, ho, ht, files_accepted.1 hfresh hr ho ht⟩

end VoidPalabra.Sync
