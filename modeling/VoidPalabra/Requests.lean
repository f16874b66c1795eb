import VoidPalabra.Table

/-!
# The life of one address

What a session does about one address is a path of a small machine: the address comes into
the table, is asked for, is given up or asked for again, and leaves. Every part of a call
takes such a path, and what the call says about the address is what the path shows.
-/

namespace VoidPalabra.Sync

/-- What happens to one address. -/
inductive Move where
  /-- It comes into the table. -/
  | enter
  /-- It leaves the table, for it is not named any more or not missing. -/
  | leave
  /-- It is asked for. -/
  | ask
  /-- It was not answered in time, and is to be asked for again. -/
  | retry
  /-- It was not answered in time, and is given up. -/
  | giveUp
  /-- Other bytes came, and it is to be asked for again. -/
  | mismatch
  /-- The peer does not serve it. -/
  | absent
  /-- Its bytes came. -/
  | arrive
  deriving DecidableEq

/-- A move of one address, with the timers and under a policy. -/
inductive Moved (timing : Timing) (policy : FetchPolicy) :
    Option Want → Move → Option Want → Prop
  /-- It comes in as the policy says. -/
  | enter : Moved timing policy none .enter
      (some { state := if policy = .automatic then .wanted else .deferred })
  /-- It leaves in any state. -/
  | leave (w : Want) : Moved timing policy (some w) .leave none
  /-- What is wanted is asked for, which is counted. -/
  | ask {w : Want} (now : ℤ) (hw : w.state = .wanted) :
    Moved timing policy (some w) .ask
      (some { state := .requested, askedAt := now, attempts := w.attempts + 1 })
  /-- An attempt is left. -/
  | retry {w : Want} (hw : w.state = .requested) (ha : ¬timing.contentAttempts ≤ w.attempts) :
    Moved timing policy (some w) .retry (some { w with state := .wanted })
  /-- None is left. -/
  | giveUp {w : Want} (hw : w.state = .requested) (ha : timing.contentAttempts ≤ w.attempts) :
    Moved timing policy (some w) .giveUp (some { w with state := .unavailable })
  /-- Whether an attempt is left is not looked at. -/
  | mismatch {w : Want} (hw : w.state = .requested) :
    Moved timing policy (some w) .mismatch (some { w with state := .wanted })
  /-- What was asked for is not served. -/
  | absent {w : Want} (hw : w.state = .requested) :
    Moved timing policy (some w) .absent (some { w with state := .unavailable })
  /-- What was asked for is here. -/
  | arrive {w : Want} (hw : w.state = .requested) : Moved timing policy (some w) .arrive none

/-- Moves one after another. -/
inductive Path (timing : Timing) (policy : FetchPolicy) :
    Option Want → List Move → Option Want → Prop
  /-- None. -/
  | nil (w : Option Want) : Path timing policy w [] w
  /-- One and the others. -/
  | cons {w w' w'' : Option Want} {m : Move} {ms : List Move} (first : Moved timing policy w m w')
    (rest : Path timing policy w' ms w'') : Path timing policy w (m :: ms) w''

section
variable {timing : Timing} {policy : FetchPolicy} {w w' w'' : Option Want} {ms ns : List Move}

theorem Path.append (h : Path timing policy w ms w') (k : Path timing policy w' ns w'') :
    Path timing policy w (ms ++ ns) w'' := by
  induction h with
  | nil => exact k
  | cons first _ ih => exact .cons first (ih k)

theorem Path.one {m : Move} (h : Moved timing policy w m w') : Path timing policy w [m] w' :=
  .cons h (.nil w')

end

/-! ### What is said about an address -/

/-- What the peer or the host is told about one address. -/
inductive Seen where
  /-- It is in a want frame. -/
  | asked
  /-- It is not to be had. -/
  | unavailable
  /-- Its bytes were refused. -/
  | refused
  /-- Its bytes are here. -/
  | arrived
  deriving DecidableEq

/-- What a move shows. -/
def Move.seen : Move → Option Seen
  | .ask => some .asked
  | .giveUp => some .unavailable
  | .absent => some .unavailable
  | .mismatch => some .refused
  | .arrive => some .arrived
  | _ => none

/-- What an event says about the address in it. -/
def EventType.seen : EventType → Option Seen
  | .contentArrived => some .arrived
  | .contentRefused => some .refused
  | .contentUnavailable => some .unavailable
  | _ => none

/-- What an output says about an address. -/
def seenOf (a : Bytes) : Output → Option Seen
  | .frame m => if m.kind = .want ∧ a ∈ m.addresses then some .asked else none
  | .event e => if e.address = a then e.type.seen else none

/-- What a list of outputs says about an address. -/
def seen (a : Bytes) (out : List Output) : List Seen := out.filterMap (seenOf a)

theorem seen_append (a : Bytes) (out out' : List Output) :
    seen a (out ++ out') = seen a out ++ seen a out' := List.filterMap_append

/-- What a part of a call says is not about files. -/
theorem seen_of_part {id : CString} {kinds : List Kind} {types : List EventType} {s : Session}
    {x : Said} (hp : Part id kinds types s x) (hk : .want ∉ kinds)
    (ht : ∀ t ∈ types, t.seen = none) (a : Bytes) : seen a x.out = [] := by
  refine List.filterMap_eq_nil_iff.mpr fun o ho => ?_
  cases o with
  | frame m =>
    refine if_neg fun hm => hk ?_
    rw [← hm.1]
    exact (hp.frames m ho).1
  | event e =>
    rw [seenOf, ht e.type (hp.events e ho)]
    exact ite_self none

/-! ### Parts of a call -/

/-- What the moves of an address depend on. -/
structure Desk where
  /-- The table. -/
  wants : Std.ExtTreeMap Bytes Want compare
  /-- The policy. -/
  fetch : FetchPolicy
  /-- The timers. -/
  timing : Timing

/-- The desk of a session. -/
def Session.desk (s : Session) : Desk := ⟨s.wants, s.fetch, s.timing⟩

/-- A part of a call takes an allowed path and shows what is on it. -/
structure Traced (a : Bytes) (allows : Move → Prop) (s : Session) (x : Said) : Prop where
  /-- The timers stay. -/
  timing : x.session.timing = s.timing
  /-- So does the policy. -/
  fetch : x.session.fetch = s.fetch
  /-- The path. -/
  path : ∃ ms, Path s.timing s.fetch s.wants[a]? ms x.session.wants[a]? ∧
    ms.filterMap Move.seen = seen a x.out ∧ ∀ m ∈ ms, allows m

section
variable {a : Bytes} {allows allows' : Move → Prop} {s : Session} {x : Said}

theorem Traced.mono (h : Traced a allows s x) (ha : ∀ m, allows m → allows' m) :
    Traced a allows' s x :=
  ⟨h.timing, h.fetch, h.path.imp fun _ hp => ⟨hp.1, hp.2.1, fun m hm => ha m (hp.2.2 m hm)⟩⟩

/-- A part that is not about files. -/
theorem Traced.quiet (hd : x.session.desk = s.desk) (ho : seen a x.out = []) :
    Traced a allows s x := by
  have hw : x.session.wants = s.wants := congrArg Desk.wants hd
  refine ⟨congrArg Desk.timing hd, congrArg Desk.fetch hd, [], ?_, ho.symm, nofun⟩
  rw [hw]
  exact .nil _

theorem Traced.andThen {f : Session → Said} (h : Traced a allows s x)
    (hf : Traced a allows x.session (f x.session)) : Traced a allows s (x.andThen f) := by
  obtain ⟨ms, hms, hseen, hall⟩ := h.path
  obtain ⟨ns, hns, hseen', hall'⟩ := hf.path
  rw [h.timing, h.fetch] at hns
  refine ⟨hf.timing.trans h.timing, hf.fetch.trans h.fetch, ms ++ ns, hms.append hns, ?_, ?_⟩
  · rw [List.filterMap_append, hseen, hseen', Said.andThen, seen_append]
  · exact List.forall_mem_append.mpr ⟨hall, hall'⟩

theorem Traced.after {o : Outcome} (h : Traced a allows s x)
    (ho : Traced a allows x.session o.said) (hok : ∀ e, o.result = .error e → seen a x.out = []) :
    Traced a allows s (o.after x.out).said := by
  obtain ⟨ms, hms, hseen, hall⟩ := h.path
  obtain ⟨ns, hns, hseen', hall'⟩ := ho.path
  rw [h.timing, h.fetch] at hns
  refine ⟨ho.timing.trans h.timing, ho.fetch.trans h.fetch, ms ++ ns, hms.append hns, ?_, ?_⟩
  · rw [List.filterMap_append, hseen, hseen']
    cases hr : o.result with
    | ok out => simp [Outcome.said, Outcome.after, hr, Except.map, seen_append]
    | error e =>
      rw [hok e hr]
      simp [Outcome.said, Outcome.after, hr, Except.map, seen]
  · exact List.forall_mem_append.mpr ⟨hall, hall'⟩

/-- The session may change in what is not about files. -/
theorem Traced.session {s' : Session} (h : Traced a allows s x) (hd : s'.desk = x.session.desk) :
    Traced a allows s ⟨s', x.out⟩ := by
  have hw : s'.wants = x.session.wants := congrArg Desk.wants hd
  refine ⟨(congrArg Desk.timing hd).trans h.timing, (congrArg Desk.fetch hd).trans h.fetch, ?_⟩
  dsimp only
  rw [hw]
  exact h.path

theorem Traced.of_desk {s' : Session} (h : Traced a allows s' x) (hd : s'.desk = s.desk) :
    Traced a allows s x := by
  have hw : s'.wants = s.wants := congrArg Desk.wants hd
  have ht : s'.timing = s.timing := congrArg Desk.timing hd
  have hf : s'.fetch = s.fetch := congrArg Desk.fetch hd
  exact ⟨h.timing.trans ht, h.fetch.trans hf, by rw [← hw, ← ht, ← hf]; exact h.path⟩

end

/-! ### What is not about files -/

section
variable {h : Host} {r : Replica} {id : CString} {now : ℤ} {s : Session} {a : Bytes}

theorem desk_finish (why : Bytes) (bye : Bool) : (finish h id why bye s).session.desk = s.desk := by
  unfold finish
  split_ifs <;> rfl

theorem desk_noteSaid (x : Said) : (noteSaid now x).session.desk = x.session.desk := by
  unfold noteSaid
  split_ifs <;> rfl

theorem Outcome.desk_noteSaid (o : Outcome) :
    (o.noteSaid now).session.desk = o.session.desk := by
  unfold Outcome.noteSaid
  split
  · split_ifs <;> rfl
  · rfl

theorem noteSaid_out (x : Said) : (noteSaid now x).out = x.out := by
  unfold noteSaid
  split_ifs <;> rfl

theorem desk_tickConnecting : (tickConnecting h id now s).session.desk = s.desk := by
  unfold tickConnecting
  split_ifs
  · exact desk_finish _ _
  · rfl
  · rfl

theorem desk_tickDoc : (tickDoc h id now s).session.desk = s.desk := by
  have hechoed : (echoed s).desk = s.desk := by
    unfold echoed
    split_ifs <;> rfl
  unfold tickDoc sayDoc
  split_ifs
  · rfl
  · exact hechoed
  · exact hechoed

theorem desk_tickPresence : (tickPresence now s).session.desk = s.desk := by
  unfold tickPresence
  split_ifs <;> rfl

theorem desk_tickKeepalive : (tickKeepalive h id now s).session.desk = s.desk := by
  unfold tickKeepalive
  split_ifs <;> rfl

theorem desk_answerHello (m : Message) : (answerHello h id m now s).session.desk = s.desk := by
  have hgreet : (greet m now s).session.desk = s.desk := by
    unfold greet
    dsimp only
    split_ifs <;> rfl
  have hwelcome : (welcome m now s).session.desk = s.desk := by
    unfold welcome
    dsimp only
    split_ifs <;> exact hgreet
  unfold answerHello
  split_ifs <;> exact hwelcome

theorem desk_onRefused (m : Message) (why : Bytes) (collision : Bool) :
    (onRefused h id m why collision s).session.desk = s.desk := by
  unfold onRefused
  dsimp only
  split_ifs
  · exact desk_finish _ _
  · rfl

theorem desk_onPresence (m : Message) : (onPresence m now s).session.desk = s.desk := by
  unfold onPresence
  split_ifs <;> rfl

theorem desk_publishPresence (payload : Bytes) :
    (publishPresence h id payload now s).session.desk = s.desk := by
  unfold publishPresence
  split_ifs <;> rfl

theorem desk_refreshExport : (refreshExport h r s).2.desk = s.desk := by
  unfold refreshExport
  dsimp only
  split_ifs
  · rfl
  · split <;> rfl

theorem desk_onAck (m : Message) : (onAck h r m s).said.session.desk = s.desk := by
  have hd := @desk_refreshExport h r s
  unfold onAck
  split
  · rename_i e s' he
    rw [he] at hd
    exact hd
  · rename_i s' he
    rw [he] at hd
    change Session.desk (if m.digest = s'.exportDigest then { s' with acked := m.digest } else s') = _
    split_ifs <;> exact hd

theorem desk_onWant : ∀ (as absent : List Bytes) (s : Session),
    (onWant h r as absent s).said.session.desk = s.desk
  | [], absent, s => by
    rw [onWant]
    split_ifs <;> rfl
  | a :: as, absent, s => by
    have hd := @desk_refreshExport h r s
    rw [onWant]
    split
    · rename_i e s' he
      rw [he] at hd
      exact hd
    · rename_i s' he
      rw [he] at hd
      split
      · exact (desk_onWant as absent s').trans hd
      · exact (desk_onWant as (absent ++ [a]) s').trans hd

/-! ### What asks -/

/-- The batches hold what is wanted, in order. -/
theorem flatten_askBatches (max : ℕ) : ∀ as batch : List Bytes,
    (askBatches max batch as).flatten = batch ++ as
  | [], batch => by
    rw [askBatches]
    split_ifs with he
    · rw [List.isEmpty_iff.mp he]
      rfl
    · simp
  | a :: as, batch => by
    rw [askBatches]
    split_ifs
    · rw [List.flatten_cons, flatten_askBatches max as [a]]
      rfl
    · rw [flatten_askBatches max as (batch ++ [a]), List.append_assoc]
      rfl

theorem nodup_wanted (s : Session) : s.wanted.Nodup :=
  (List.filter_sublist.map _).nodup
    (Std.ExtTreeMap.map_fst_toList_eq_keys (t := s.wants) ▸ Std.ExtTreeMap.nodup_keys)

/-- What is read off the table. -/
theorem mem_selected {wants : Std.ExtTreeMap Bytes Want compare} {p : Want → Bool} :
    a ∈ ((wants.toList.filter fun kv => p kv.2).map Prod.fst) ↔
      ∃ w, wants[a]? = some w ∧ p w = true := by
  constructor
  · intro ha
    obtain ⟨kv, hkv, rfl⟩ := List.mem_map.mp ha
    obtain ⟨hmem, hp⟩ := List.mem_filter.mp hkv
    exact ⟨kv.2, Std.ExtTreeMap.mem_toList_iff_getElem?_eq_some.mp hmem, hp⟩
  · rintro ⟨w, hw, hp⟩
    exact List.mem_map.mpr ⟨(a, w), List.mem_filter.mpr
      ⟨Std.ExtTreeMap.mem_toList_iff_getElem?_eq_some.mpr hw, hp⟩, rfl⟩

theorem mem_wanted : a ∈ s.wanted ↔ ∃ w, s.wants[a]? = some w ∧ w.state = .wanted := by
  rw [Session.wanted, @mem_selected a s.wants fun w => decide (w.state = .wanted)]
  simp

/-- An address that is in one of several lists, and in none twice, is seen once. -/
theorem filterMap_mem {β : Type} (x : β) : ∀ {batches : List (List Bytes)},
    batches.flatten.Nodup →
      (batches.filterMap fun b => if a ∈ b then some x else none) =
        if a ∈ batches.flatten then [x] else []
  | [], _ => by simp
  | b :: batches, hd => by
    rw [List.flatten_cons, List.nodup_append'] at hd
    have ih := filterMap_mem x hd.2.1
    by_cases hb : a ∈ b
    · have hnot : a ∉ batches.flatten := fun hm => hd.2.2 hb hm
      rw [if_neg hnot] at ih
      simp [hb, ih]
    · simp [ih, hb]

/-- What is said in batches. -/
theorem seen_ask_out : seen a ((askBatches s.limits.maxAddresses [] s.wanted).flatMap fun batch =>
      (send h id { kind := .want, addresses := batch } s).out) =
    if a ∈ s.wanted then [.asked] else [] := by
  have hflat := flatten_askBatches s.limits.maxAddresses s.wanted []
  rw [List.nil_append] at hflat
  have hone := @filterMap_mem a Seen .asked (askBatches s.limits.maxAddresses [] s.wanted)
    (by rw [hflat]; exact nodup_wanted s)
  rw [hflat] at hone
  rw [← hone, seen]
  generalize askBatches s.limits.maxAddresses [] s.wanted = batches
  induction batches with
  | nil => rfl
  | cons b batches ih =>
    rw [List.flatMap_cons, List.filterMap_append, ih]
    have hb : seenOf a (.frame (stamp h id s { kind := .want, addresses := b })) =
        if a ∈ b then some .asked else none := by
      rw [seenOf, stamp_kind, stamp_addresses]
      simp
    by_cases hm : a ∈ b
    · simp [send, hb, hm]
    · simp [send, hb, hm]

/-- `ask` asks for what is wanted. -/
theorem traced_ask : Traced a (· = .ask) s (ask h id now s) := by
  unfold ask
  split_ifs with ho
  · exact Traced.quiet rfl rfl
  refine ⟨rfl, rfl, ?_⟩
  dsimp only
  rw [seen_ask_out, Std.ExtTreeMap.getElem?_map]
  cases hw : s.wants[a]? with
  | none =>
    rw [if_neg fun hm => by simp [mem_wanted, hw] at hm]
    exact ⟨[], .nil none, rfl, nofun⟩
  | some w =>
    by_cases hst : w.state = .wanted
    · rw [if_pos (mem_wanted.mpr ⟨w, hw, hst⟩)]
      refine ⟨[.ask], .one ?_, rfl, by simp⟩
      rw [Option.map_some, Want.ask, if_pos hst]
      exact .ask now hst
    · rw [if_neg fun hm => by
        obtain ⟨w', hw', hst'⟩ := mem_wanted.mp hm
        obtain rfl := Option.some.inj (hw.symm.trans hw')
        exact hst hst']
      refine ⟨[], ?_, rfl, nofun⟩
      rw [Option.map_some, Want.ask, if_neg hst]
      exact .nil _

end

/-! ### Files that are named and missing -/

/-- A replica names an address whose file the host does not hold. -/
def Lacks (h : Host) (r : Replica) (refs : ReferencePolicy) (a : Bytes) : Prop :=
  a ∈ namedBy r refs ∧ h.has a = false

/-- The moves that no message is needed for. -/
def Plain (h : Host) (r : Replica) (refs : ReferencePolicy) (a : Bytes) : Move → Prop
  | .enter => Lacks h r refs a
  | .leave => ¬Lacks h r refs a
  | .ask => True
  | .retry => True
  | .giveUp => True
  | _ => False

section
variable {h : Host} {r : Replica} {id : CString} {now : ℤ} {s : Session} {a : Bytes}

theorem traced_plain_ask {refs : ReferencePolicy} :
    Traced a (Plain h r refs a) s (ask h id now s) :=
  traced_ask.mono fun m hm => by rw [hm]; trivial

theorem getElem?_foldl_enterWant {fetch : FetchPolicy} : ∀ (as : List Bytes)
    (wants : Std.ExtTreeMap Bytes Want compare),
    (as.foldl (enterWant h fetch) wants)[a]? = (wants[a]?).or
      (if a ∈ as ∧ h.has a = false then
        some { state := if fetch = .automatic then .wanted else .deferred } else none)
  | [], wants => by simp
  | b :: as, wants => by
    have hone : (enterWant h fetch wants b)[a]? = (wants[a]?).or
        (if a = b ∧ h.has a = false then
          some { state := if fetch = .automatic then .wanted else .deferred } else none) := by
      unfold enterWant
      by_cases hab : a = b
      · subst hab
        cases hw : wants[a]? with
        | none =>
          have hnot : wants.contains a = false := by
            rw [Std.ExtTreeMap.contains_eq_isSome_getElem?, hw]
            rfl
          cases hh : h.has a with
          | true => simp [hw]
          | false => simp [hnot]
        | some w =>
          have hin : wants.contains a = true := by
            rw [Std.ExtTreeMap.contains_eq_isSome_getElem?, hw]
            rfl
          simp [hin, hw]
      · have hno : ¬(a = b ∧ h.has a = false) := fun he => hab he.1
        rw [if_neg hno, Option.or_none]
        by_cases hc : (wants.contains b || h.has b) = true
        · rw [if_pos hc]
        · rw [if_neg hc, Std.ExtTreeMap.getElem?_insert,
            if_neg fun he => hab (Std.LawfulEqCmp.eq_of_compare he).symm]
    rw [List.foldl_cons, getElem?_foldl_enterWant as, hone, Option.or_assoc]
    congr 1
    by_cases hab : a = b
    · subst hab
      cases h.has a <;> simp
    · simp [hab]

/-- The table follows what is named and missing. -/
theorem traced_refreshWants :
    Traced a (Plain h r s.references a) s (refreshWants h r now s) := by
  unfold refreshWants
  split_ifs
  · exact Traced.quiet rfl rfl
  dsimp only
  have hfirst : Traced a (Plain h r s.references a) s
      ⟨{ s with wants := ((namedBy r s.references).toList.foldl (enterWant h s.fetch)
          (s.wants.filter fun a _ => (namedBy r s.references).contains a && !h.has a)) }, []⟩ := by
    refine ⟨rfl, rfl, ?_⟩
    dsimp only
    rw [getElem?_foldl_enterWant, Std.ExtTreeMap.getElem?_filter']
    have hlacks : ((namedBy r s.references).contains a && !h.has a) = true ↔
        Lacks h r s.references a := by
      rw [Bool.and_eq_true, Std.ExtTreeSet.contains_iff_mem, Bool.not_eq_true', Lacks]
    have htoList : (a ∈ (namedBy r s.references).toList ∧ h.has a = false) ↔
        Lacks h r s.references a := by
      rw [Std.ExtTreeSet.mem_toList, Lacks]
    by_cases hl : Lacks h r s.references a
    · rw [if_pos (htoList.mpr hl)]
      cases hw : s.wants[a]? with
      | none => exact ⟨[.enter], .one .enter, rfl, List.forall_mem_singleton.mpr hl⟩
      | some w =>
        rw [Option.filter_some, if_pos (hlacks.mpr hl), Option.some_or]
        exact ⟨[], .nil _, rfl, nofun⟩
    · rw [if_neg fun hc => hl (htoList.mp hc)]
      cases hw : s.wants[a]? with
      | none => exact ⟨[], .nil _, rfl, nofun⟩
      | some w =>
        rw [Option.filter_some, if_neg fun hc => hl (hlacks.mp hc)]
        exact ⟨[.leave], .one (.leave w), rfl, List.forall_mem_singleton.mpr hl⟩
  exact hfirst.andThen traced_plain_ask

/-! ### Time -/

theorem seen_givenUp {peer : Bytes} : seen a ((s.givenUp now).map fun a =>
      .event { type := .contentUnavailable, peer := peer, detail := lit "no answer", address := a }) =
    if a ∈ s.givenUp now then [.unavailable] else [] := by
  have hnodup : (s.givenUp now).Nodup := (List.filter_sublist.map _).nodup
    (Std.ExtTreeMap.map_fst_toList_eq_keys (t := s.wants) ▸ Std.ExtTreeMap.nodup_keys)
  have hflat : ((s.givenUp now).map fun b => [b]).flatten = s.givenUp now := by
    rw [← List.flatMap_def]
    exact List.flatMap_singleton' _
  have hone := @filterMap_mem a Seen .unavailable ((s.givenUp now).map fun b => [b])
    (by rwa [hflat])
  rw [hflat, List.filterMap_map] at hone
  rw [← hone, seen, List.filterMap_map]
  congr 1
  funext b
  simp [seenOf, EventType.seen, eq_comm]

/-- Time gives up requests, or lets them be repeated. -/
theorem traced_tickWants {refs : ReferencePolicy} :
    Traced a (Plain h r refs a) s (tickWants h id now s) := by
  have hfirst : Traced a (Plain h r refs a) s
      ⟨{ s with wants := s.wants.map fun _ w => w.tick s.timing now },
        (s.givenUp now).map fun a => .event
          { type := .contentUnavailable, peer := s.peer, detail := lit "no answer", address := a }⟩ := by
    refine ⟨rfl, rfl, ?_⟩
    dsimp only
    have hmem : a ∈ s.givenUp now ↔ ∃ w, s.wants[a]? = some w ∧
        (w.overdue s.timing now && decide (s.timing.contentAttempts ≤ w.attempts)) = true := by
      rw [Session.givenUp, @mem_selected a s.wants fun w =>
        w.overdue s.timing now && decide (s.timing.contentAttempts ≤ w.attempts)]
    rw [seen_givenUp, Std.ExtTreeMap.getElem?_map]
    cases hw : s.wants[a]? with
    | none =>
      rw [if_neg fun hm => by simp [hmem, hw] at hm]
      exact ⟨[], .nil none, rfl, nofun⟩
    | some w =>
      rw [Option.map_some, Want.tick]
      by_cases ho : w.overdue s.timing now = true
      · have hst : w.state = .requested := by
          rw [Want.overdue, Bool.and_eq_true, decide_eq_true_eq] at ho
          exact ho.1
        rw [if_pos ho]
        by_cases ha : s.timing.contentAttempts ≤ w.attempts
        · rw [if_pos ha, if_pos (hmem.mpr ⟨w, hw, by simp [ho, ha]⟩)]
          exact ⟨[.giveUp], .one (.giveUp hst ha), rfl, List.forall_mem_singleton.mpr trivial⟩
        · rw [if_neg ha, if_neg fun hm => by
            obtain ⟨w', hw', hp⟩ := hmem.mp hm
            obtain rfl := Option.some.inj (hw.symm.trans hw')
            simp [ha] at hp]
          exact ⟨[.retry], .one (.retry hst ha), rfl, List.forall_mem_singleton.mpr trivial⟩
      · rw [if_neg ho, if_neg fun hm => by
          obtain ⟨w', hw', hp⟩ := hmem.mp hm
          obtain rfl := Option.some.inj (hw.symm.trans hw')
          simp [ho] at hp]
        exact ⟨[], .nil _, rfl, nofun⟩
  exact hfirst.andThen traced_plain_ask

theorem traced_tickRefresh :
    Traced a (Plain h r s.references a) s (tickRefresh h r now s).said := by
  have hd := @desk_refreshExport h r s
  have hlink := refreshExport_link h s r
  unfold tickRefresh
  split_ifs
  · exact Traced.quiet rfl rfl
  · split
    · rename_i e s' he
      rw [he] at hd
      exact Traced.quiet hd rfl
    · rename_i s' he
      rw [he] at hd hlink
      have hrefs : s'.references = s.references := congrArg Link.references hlink
      split_ifs
      · have hw := @traced_refreshWants h r now s' a
        rw [hrefs] at hw
        exact hw.of_desk hd
      · exact Traced.quiet hd rfl

theorem traced_tickRest {refs : ReferencePolicy} {x : Said}
    (hx : Traced a (Plain h r refs a) s x) :
    Traced a (Plain h r refs a) s (tickRest h id now x) := by
  have hdoc : ∀ s', Traced a (Plain h r refs a) s' (tickDoc h id now s') := fun s' =>
    Traced.quiet desk_tickDoc (seen_of_part (part_tickDoc h id now s') (by decide) (by simp) a)
  have hpresence : ∀ s', Traced a (Plain h r refs a) s' (tickPresence now s') := fun s' =>
    Traced.quiet desk_tickPresence
      (seen_of_part (part_tickPresence id now s') (by simp) (by simp [EventType.seen]) a)
  have hkeepalive : ∀ s', Traced a (Plain h r refs a) s' (tickKeepalive h id now s') := fun s' =>
    Traced.quiet desk_tickKeepalive
      (seen_of_part (part_tickKeepalive h id now s') (by decide) (by simp) a)
  have hthree : Traced a (Plain h r refs a) s (((x.andThen (tickDoc h id now)).andThen
      (tickWants h id now)).andThen (tickPresence now)) :=
    ((hx.andThen (hdoc _)).andThen traced_tickWants).andThen (hpresence _)
  have hnote := hthree.session (@desk_noteSaid now
    (((x.andThen (tickDoc h id now)).andThen (tickWants h id now)).andThen (tickPresence now)))
  rw [← @noteSaid_out now (((x.andThen (tickDoc h id now)).andThen (tickWants h id now)).andThen
    (tickPresence now))] at hnote
  exact hnote.andThen (hkeepalive _)

/-- A tick moves an address without a message. -/
theorem traced_tick : Traced a (Plain h r s.references a) s (tick h r now s).said := by
  have hfinish : ∀ why, Traced a (Plain h r s.references a) s
      ((finish h r.id why false s).done r).said := fun why =>
    Traced.quiet (desk_finish _ _)
      (seen_of_part (part_finish h r.id s why false) (by decide) (by simp [EventType.seen]) a)
  unfold tick
  split
  · exact Traced.quiet rfl rfl
  · exact Traced.quiet desk_tickConnecting
      (seen_of_part (part_tickConnecting h r.id now s) (by decide) (by simp [EventType.seen]) a)
  · split_ifs
    · exact hfinish _
    · have hrefresh := @traced_tickRefresh h r now s a
      generalize tickRefresh h r now s = o at hrefresh ⊢
      obtain ⟨res, s', r'⟩ := o
      cases res with
      | error e => exact hrefresh
      | ok out => exact traced_tickRest hrefresh

end

end VoidPalabra.Sync
