import VoidPalabra.Asked
import VoidPalabra.Presence

/-!
# What a cautious session asks for

An address may be asked for once the host released it, or after it was asked for while the
session fetched by itself. Both stay with the address until it leaves the table, and a cautious
session asks for nothing else.
-/

namespace VoidPalabra.Sync

/-- A request that is open, or may be made again. -/
def Released (policy : FetchPolicy) (w : Option Want) : Prop :=
  ∃ v, w = some v ∧ (v.state = .requested ∨ v.state = .wanted ∧ policy = .cautious)

section
variable {timing : Timing} {policy : FetchPolicy} {w w' : Option Want} {m : Move} {ms : List Move}

/-- Only a session that fetches by itself releases an address. -/
theorem Moved.released (h : Moved timing policy w m w') (hr : Released policy w') :
    Released policy w ∨ policy = .automatic ∧ m = .ask := by
  obtain ⟨v, hv, hst⟩ := hr
  cases h with
  | enter =>
    obtain rfl := Option.some.inj hv
    cases policy <;> simp at hst
  | leave => cases hv
  | @ask u now hu =>
    cases policy with
    | automatic => exact Or.inr ⟨rfl, rfl⟩
    | cautious => exact Or.inl ⟨u, rfl, Or.inr ⟨hu, rfl⟩⟩
  | retry hu => exact Or.inl ⟨_, rfl, Or.inl hu⟩
  | giveUp hu => exact Or.inl ⟨_, rfl, Or.inl hu⟩
  | mismatch hu => exact Or.inl ⟨_, rfl, Or.inl hu⟩
  | absent hu => exact Or.inl ⟨_, rfl, Or.inl hu⟩
  | arrive => cases hv

theorem Path.released (h : Path timing policy w ms w') (hr : Released policy w') :
    Released policy w ∨ policy = .automatic ∧ .ask ∈ ms := by
  induction h with
  | nil => exact Or.inl hr
  | cons first _ ih =>
    rcases ih hr with hmid | ⟨hp, hm⟩
    · rcases first.released hmid with hw | ⟨hp, rfl⟩
      · exact Or.inl hw
      · exact Or.inr ⟨hp, List.mem_cons_self⟩
    · exact Or.inr ⟨hp, List.mem_cons_of_mem _ hm⟩

/-- What a cautious session asks for was released before. -/
theorem Path.released_of_ask (h : Path timing .cautious w ms w') (ha : .ask ∈ ms) :
    Released .cautious w := by
  induction h with
  | nil => cases ha
  | cons first _ ih =>
    rcases List.mem_cons.mp ha with rfl | hm
    · cases first with
      | ask _ hu => exact ⟨_, rfl, Or.inr ⟨hu, rfl⟩⟩
    · exact (first.released (ih hm)).resolve_right nofun

end

namespace Entry

/-- A call says a want frame with an address. -/
def Asks (e : Entry) (a : Bytes) : Prop := ∃ m, .frame m ∈ e.out ∧ m.kind = .want ∧ a ∈ m.addresses

/-- The host calls `fetch` for an address of the table. -/
def Fetches (e : Entry) (a : Bytes) : Prop := e.call = .fetch a ∧ a ∈ e.before.wants

/-- A call after which a cautious session may ask for an address: the host fetches it, or it is
asked for under the automatic policy. -/
def Releases (e : Entry) (a : Bytes) : Prop :=
  e.Fetches a ∨ e.after.fetch = .automatic ∧ e.Asks a

theorem asks_iff {e : Entry} {a : Bytes} : e.Asks a ↔ .asked ∈ Sync.seen a e.out := by
  constructor
  · rintro ⟨m, hm, hk, ha⟩
    exact List.mem_filterMap.mpr ⟨.frame m, hm, if_pos ⟨hk, ha⟩⟩
  · intro h
    obtain ⟨o, ho, hs⟩ := List.mem_filterMap.mp h
    cases o with
    | frame m =>
      by_cases hm : m.kind = .want ∧ a ∈ m.addresses
      · exact ⟨m, ho, hm.1, hm.2⟩
      · rw [seenOf, if_neg hm] at hs
        cases hs
    | event ev =>
      rw [seenOf] at hs
      split_ifs at hs
      cases ht : ev.type <;> rw [ht] at hs <;> cases hs

theorem Lives.asks_iff {e : Entry} {a : Bytes} {ms : List Move} (h : e.Lives a ms) :
    e.Asks a ↔ .ask ∈ ms := by
  rw [Entry.asks_iff, ← h.seen, List.mem_filterMap]
  constructor
  · rintro ⟨m, hm, hs⟩
    cases m <;> simp [Move.seen] at hs
    exact hm
  · intro hm
    exact ⟨.ask, hm, rfl⟩

theorem prepare_fetch (address : Bytes) (s : Session) :
    ((Call.fetch address).prepare s).fetch = s.fetch := by
  cases hw : s.wants[address]? with
  | none => simp only [Call.prepare, hw]
  | some w => simp only [Call.prepare, hw]

/-- What the host wishes releases no other address. -/
theorem released_of_prepared {e : Entry} {a : Bytes}
    (h : Released e.prepared.fetch e.prepared.wants[a]?) :
    Released e.before.fetch e.before.wants[a]? ∨ e.Fetches a := by
  obtain ⟨v, hv, hst⟩ := h
  rw [prepared, prepare_wants] at hv
  obtain ⟨u, hu, rfl⟩ := Option.map_eq_some_iff.mp hv
  rcases hst with hst | ⟨hst, hpolicy⟩
  · exact Or.inl ⟨u, hu, Or.inl (Call.requested_of_wish hst)⟩
  obtain ⟨c, host, now, r, s⟩ := e
  cases c with
  | fetch b =>
    by_cases hab : a = b
    · subst hab
      exact Or.inr ⟨rfl, Std.ExtTreeMap.mem_iff_isSome_getElem?.mpr (by simp [hu])⟩
    · change (if a = b then u.release else u).state = .wanted at hst
      rw [if_neg hab] at hst
      refine Or.inl ⟨u, hu, Or.inr ⟨hst, ?_⟩⟩
      rw [prepared, prepare_fetch] at hpolicy
      exact hpolicy
  | setFetch policy =>
    -- a cautious policy leaves nothing to be asked for
    obtain rfl : policy = .cautious := hpolicy
    change (u.follow .cautious).state = .wanted at hst
    rw [Want.follow, if_neg (by simp)] at hst
    split_ifs at hst with hc
    exact absurd ⟨rfl, hst⟩ hc
  | start => exact Or.inl ⟨u, hu, Or.inr ⟨hst, hpolicy⟩⟩
  | receive => exact Or.inl ⟨u, hu, Or.inr ⟨hst, hpolicy⟩⟩
  | tick => exact Or.inl ⟨u, hu, Or.inr ⟨hst, hpolicy⟩⟩
  | publishPresence => exact Or.inl ⟨u, hu, Or.inr ⟨hst, hpolicy⟩⟩
  | close => exact Or.inl ⟨u, hu, Or.inr ⟨hst, hpolicy⟩⟩

end Entry

/-! ### Runs -/

/-- One of the calls released an address, which was in the table at every later one. -/
def Released.Since (es : List Entry) (a : Bytes) : Prop :=
  ∃ past e since, es = past ++ e :: since ∧ e.Releases a ∧ ∀ x ∈ since, a ∈ x.before.wants

theorem Released.mem {policy : FetchPolicy} {s : Session} {a : Bytes}
    (h : Released policy s.wants[a]?) : a ∈ s.wants := by
  obtain ⟨v, hv, -⟩ := h
  exact Std.ExtTreeMap.mem_iff_isSome_getElem?.mpr (by simp [hv])

theorem Released.Since.call {es : List Entry} {e : Entry} {a : Bytes} (h : Released.Since es a)
    (ha : a ∈ e.before.wants) : Released.Since (es ++ [e]) a := by
  obtain ⟨past, e', since, rfl, hrel, hall⟩ := h
  refine ⟨past, e', since ++ [e], by simp, hrel, ?_⟩
  intro x hx
  rcases List.mem_append.mp hx with hx | hx
  · exact hall x hx
  · rw [List.mem_singleton.mp hx]
    exact ha

/-- What may be asked for was released since it came into the table. -/
theorem Run.released {s₀ s : Session} {es : List Entry} {a : Bytes} (hf : Fresh s₀)
    (hr : Run s₀ es s) (h : Released s.fetch s.wants[a]?) : Released.Since es a := by
  induction hr with
  | nil =>
    obtain ⟨v, hv, -⟩ := h
    rw [hf] at hv
    simp at hv
  | @call es e hr ih =>
    obtain ⟨ms, hl⟩ := e.lives a
    rcases hl.path.released h with hp | ⟨hauto, hask⟩
    · rw [hl.policy] at hp
      rcases Entry.released_of_prepared hp with hb | hfetch
      · exact (ih hb).call hb.mem
      · exact ⟨es, e, [], rfl, Or.inl hfetch, List.forall_mem_nil _⟩
    · exact ⟨es, e, [], rfl, Or.inr ⟨hauto, hl.asks_iff.mpr hask⟩, List.forall_mem_nil _⟩

/-! ### Switching to automatic -/

/-- The addresses that an output asks for. -/
def Output.asked : Output → List Bytes
  | .frame m => if m.kind = .want then m.addresses else []
  | .event _ => []

theorem length_askBatches {max : ℕ} (hm : 1 ≤ max) : ∀ {as batch : List Bytes}, batch.length ≤ max →
    ∀ b ∈ askBatches max batch as, b.length ≤ max
  | [], batch, hb => by
    rw [askBatches]
    split_ifs
    · exact List.forall_mem_nil _
    · exact List.forall_mem_singleton.mpr hb
  | a :: as, batch, hb => by
    rw [askBatches]
    split_ifs with hfull
    · exact List.forall_mem_cons.mpr ⟨hb, length_askBatches hm (by simpa using hm)⟩
    · refine length_askBatches hm ?_
      rw [List.length_append, List.length_singleton]
      omega

section
variable {h : Host} {id : CString} {now : ℤ} {s : Session}

/-- What `ask` says in an open session. -/
theorem ask_out (ho : s.state = .opened) : (ask h id now s).out =
    (askBatches s.limits.maxAddresses [] s.wanted).map fun batch =>
      .frame (stamp h id s { kind := .want, addresses := batch }) := by
  unfold ask
  rw [if_neg (not_not.mpr ho), List.map_eq_flatMap]
  rfl

theorem ask_asked (ho : s.state = .opened) : (ask h id now s).out.flatMap Output.asked = s.wanted := by
  have hone : ∀ batch : List Bytes, Output.asked
      (.frame (stamp h id s { kind := .want, addresses := batch })) = batch := by
    intro batch
    rw [Output.asked, stamp_kind, stamp_addresses, if_pos rfl]
  rw [ask_out ho, List.flatMap_map]
  simp only [hone]
  rw [List.flatMap_id', flatten_askBatches, List.nil_append]

/-- A session that is switched asks for what was deferred. -/
theorem mem_wanted_automatic {a : Bytes} :
    a ∈ Session.wanted { s with fetch := .automatic, wants := s.wants.map fun _ w => w.follow .automatic } ↔
      ∃ w, s.wants[a]? = some w ∧ (w.state = .deferred ∨ w.state = .wanted) := by
  have hfollow : ∀ w : Want, (w.follow .automatic).state = .wanted ↔
      w.state = .deferred ∨ w.state = .wanted := by
    intro w
    unfold Want.follow
    cases hw : w.state <;> simp [hw]
  rw [mem_wanted]
  dsimp only
  rw [Std.ExtTreeMap.getElem?_map]
  constructor
  · rintro ⟨w', hw', hst⟩
    obtain ⟨w, hw, rfl⟩ := Option.map_eq_some_iff.mp hw'
    exact ⟨w, hw, (hfollow w).mp hst⟩
  · rintro ⟨w, hw, hst⟩
    exact ⟨w.follow .automatic, by rw [hw]; rfl, (hfollow w).mpr hst⟩

/-- What `set_fetch` says when it switches an open session to automatic. -/
theorem switched (ho : s.state = .opened) (hm : 1 ≤ s.limits.maxAddresses) :
    (∀ o ∈ (setFetch h id .automatic now s).out, ∃ m, o = .frame m ∧ m.kind = .want ∧
      m.addresses.length ≤ s.limits.maxAddresses) ∧
    ((setFetch h id .automatic now s).out.flatMap Output.asked).Nodup ∧
    ∀ a, a ∈ (setFetch h id .automatic now s).out.flatMap Output.asked ↔
      ∃ w, s.wants[a]? = some w ∧ (w.state = .deferred ∨ w.state = .wanted) := by
  have hout : (setFetch h id .automatic now s).out = (ask h id now { s with
      fetch := .automatic, wants := s.wants.map (fun _ w => w.follow .automatic) }).out :=
    noteSaid_out _
  rw [hout, ask_asked (by exact ho)]
  refine ⟨?_, nodup_wanted _, fun a => mem_wanted_automatic⟩
  rw [ask_out (by exact ho)]
  intro o hmem
  obtain ⟨batch, hbatch, rfl⟩ := List.mem_map.mp hmem
  refine ⟨_, rfl, stamp_kind .., ?_⟩
  rw [stamp_addresses]
  exact length_askBatches hm (Nat.zero_le _) batch hbatch

end

/-- **A cautious session asks for nothing unreleased.** Each address of a want frame that is said
while the policy is cautious was fetched by the host, or was asked for under the automatic policy,
since it came into the table; and a session that is switched to automatic asks for all that was
deferred at once, in frames of the allowed size that name each address once. -/
theorem asks_released :
    (∀ {s₀ s : Session} {past later : List Entry} {e : Entry} {a : Bytes}, Fresh s₀ →
      Run s₀ (past ++ e :: later) s → e.after.fetch = .cautious → e.Asks a →
        e.Fetches a ∨ a ∈ e.before.wants ∧ Released.Since past a) ∧
    ∀ {h : Host} {id : CString} {now : ℤ} {s : Session}, s.state = .opened →
      1 ≤ s.limits.maxAddresses →
        (∀ o ∈ (setFetch h id .automatic now s).out, ∃ m, o = .frame m ∧ m.kind = .want ∧
          m.addresses.length ≤ s.limits.maxAddresses) ∧
        ((setFetch h id .automatic now s).out.flatMap Output.asked).Nodup ∧
        ∀ a, a ∈ (setFetch h id .automatic now s).out.flatMap Output.asked ↔
          ∃ w, s.wants[a]? = some w ∧ (w.state = .deferred ∨ w.state = .wanted) := by
  refine ⟨?_, switched⟩
  intro s₀ s past later e a hf hr hpolicy hasks
  obtain ⟨ms, hl⟩ := e.lives a
  have hpath := hl.path
  rw [hpolicy] at hpath
  have hprep := hpath.released_of_ask (hl.asks_iff.mp hasks)
  rw [← hpolicy, hl.policy] at hprep
  rcases Entry.released_of_prepared hprep with hb | hfetch
  · exact Or.inr ⟨hb.mem, hr.before.released hf hb⟩
  · exact Or.inl hfetch

/-! ### A run in which a file is fetched -/

/-- An address of the right form. -/
def pictureAddress : Bytes := List.replicate 64 0x61

/-- The rules of a mantle name files. -/
def rulesNameFiles : ReferencePolicy :=
  { fields := (∅ : Std.ExtTreeMap Bytes AddressFinder compare).insert (lit "mantle.rules")
      sha256HexAnywhere }

/-- The replica of a device whose document names a file. -/
def deviceNaming : Replica :=
  (deviceA.observe (some (.obj [(Key.mantles, .arr [.obj [(Key.name, .str (.ofLit "m")),
    (Key.rules, .arr [.str ⟨pictureAddress, by decide⟩])]])]))).2

/-- A cautious session. -/
def cautiousStart : Session := { references := rulesNameFiles, fetch := .cautious }

/-- The peer says hello, the host fetches the file, and it does not come in time. -/
def cautiousCalls : List (Call × ℤ × Replica) :=
  [(.receive (encodeFrame (peerSays .hello "bbbbbbbbbbbbbbbb@1" 0)), 0, deviceNaming),
    (.fetch pictureAddress, 1, deviceNaming), (.tick, 20000, deviceNaming)]

/-- A call of that run. -/
def cautiousEntry (n : ℕ) : Entry :=
  (trace {} cautiousStart cautiousCalls).getD n ⟨.tick, {}, 0, deviceA, {}⟩

/-- The file is asked for again, for the host fetched it before. -/
theorem asks_released_again : (cautiousEntry 2).Asks pictureAddress ∧
    ((cautiousEntry 2).Fetches pictureAddress ∨ pictureAddress ∈ (cautiousEntry 2).before.wants ∧
      Released.Since [cautiousEntry 0, cautiousEntry 1] pictureAddress) := by
  obtain ⟨s, hr⟩ := @Run.trace cautiousStart {} cautiousCalls [] cautiousStart .nil
  have hentries : [] ++ trace {} cautiousStart cautiousCalls =
      [cautiousEntry 0, cautiousEntry 1] ++ cautiousEntry 2 :: [] := rfl
  rw [hentries] at hr
  have hfacts : (cautiousEntry 2).after.fetch = .cautious ∧
      .asked ∈ seen pictureAddress (cautiousEntry 2).out := by decide +kernel
  have hfresh : Fresh cautiousStart := rfl
  have hasks := Entry.asks_iff.mpr hfacts.2
  exact ⟨hasks, asks_released.1 hfresh hr hfacts.1 hasks⟩

end VoidPalabra.Sync
