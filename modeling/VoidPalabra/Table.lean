import VoidPalabra.Calls

/-!
# The table of wanted files

Most parts of a call leave the table of wanted files and the revision that was looked at
alone. Requests only change what stands in the table; what comes in and goes out follows the
addresses that the replica names.
-/

namespace VoidPalabra.Sync

/-- The table and the revision that was looked at stay as they are. -/
structure Untouched (s s' : Session) : Prop where
  /-- The table is the same. -/
  wants : s'.wants = s.wants
  /-- So is the revision. -/
  seen : s'.seenRevision = s.seenRevision

/-- The addresses in the table and the revision that was looked at stay as they are. -/
structure SameTable (s s' : Session) : Prop where
  /-- The addresses are the same. -/
  mem : ∀ a, a ∈ s'.wants ↔ a ∈ s.wants
  /-- So is the revision. -/
  seen : s'.seenRevision = s.seenRevision

theorem Untouched.trans {s s' s'' : Session} (h : Untouched s s') (k : Untouched s' s'') : Untouched s s'' :=
  ⟨k.wants.trans h.wants, k.seen.trans h.seen⟩

theorem Untouched.same {s s' : Session} (h : Untouched s s') : SameTable s s' :=
  ⟨fun a => by rw [h.wants], h.seen⟩

theorem SameTable.trans {s s' s'' : Session} (h : SameTable s s') (k : SameTable s' s'') : SameTable s s'' :=
  ⟨fun a => (k.mem a).trans (h.mem a), k.seen.trans h.seen⟩

variable {h : Host} {r : Replica} {id : CString} {now : ℤ} {s : Session}

/-! ### What leaves the table alone -/

theorem untouched_noteSaid (x : Said) : Untouched x.session (noteSaid now x).session := by
  unfold noteSaid
  split_ifs <;> exact ⟨rfl, rfl⟩

theorem Outcome.untouched_noteSaid (o : Outcome) : Untouched o.session (o.noteSaid now).session := by
  unfold Outcome.noteSaid
  split
  · split_ifs <;> exact ⟨rfl, rfl⟩
  · exact ⟨rfl, rfl⟩

theorem untouched_finish (why : Bytes) (bye : Bool) : Untouched s (finish h id why bye s).session := by
  unfold finish
  split_ifs <;> exact ⟨rfl, rfl⟩

theorem untouched_tickConnecting : Untouched s (tickConnecting h id now s).session := by
  unfold tickConnecting
  split_ifs
  · exact untouched_finish _ _
  · exact ⟨rfl, rfl⟩
  · exact ⟨rfl, rfl⟩

theorem untouched_tickDoc : Untouched s (tickDoc h id now s).session := by
  have hechoed : Untouched s (echoed s) := by
    unfold echoed
    split_ifs <;> exact ⟨rfl, rfl⟩
  unfold tickDoc sayDoc
  split_ifs
  · exact ⟨rfl, rfl⟩
  · exact ⟨hechoed.wants, hechoed.seen⟩
  · exact hechoed

theorem untouched_tickPresence : Untouched s (tickPresence now s).session := by
  unfold tickPresence
  split_ifs <;> exact ⟨rfl, rfl⟩

theorem untouched_tickKeepalive : Untouched s (tickKeepalive h id now s).session := by
  unfold tickKeepalive
  split_ifs <;> exact ⟨rfl, rfl⟩

theorem untouched_answerHello (m : Message) : Untouched s (answerHello h id m now s).session := by
  have hgreet : Untouched s (greet m now s).session := by
    unfold greet
    dsimp only
    split_ifs <;> exact ⟨rfl, rfl⟩
  have hwelcome : Untouched s (welcome m now s).session := by
    unfold welcome
    dsimp only
    split_ifs
    · exact ⟨hgreet.wants, hgreet.seen⟩
    · exact hgreet
  unfold answerHello
  split_ifs <;> exact hwelcome

theorem untouched_onRefused (m : Message) (why : Bytes) (collision : Bool) :
    Untouched s (onRefused h id m why collision s).session := by
  unfold onRefused
  dsimp only
  split_ifs
  · exact untouched_finish _ _
  · exact ⟨rfl, rfl⟩

theorem untouched_onPresence (m : Message) : Untouched s (onPresence m now s).session := by
  unfold onPresence
  split_ifs <;> exact ⟨rfl, rfl⟩

theorem untouched_publishPresence (payload : Bytes) :
    Untouched s (publishPresence h id payload now s).session := by
  unfold publishPresence
  split_ifs <;> exact ⟨rfl, rfl⟩

/-! ### What only changes requests -/

theorem sameTable_ask : SameTable s (ask h id now s).session := by
  unfold ask
  split_ifs
  · exact ⟨fun _ => Iff.rfl, rfl⟩
  · exact ⟨fun _ => Std.ExtTreeMap.mem_map, rfl⟩

theorem sameTable_tickWants : SameTable s (tickWants h id now s).session :=
  @SameTable.trans s { s with wants := s.wants.map fun _ w => w.tick s.timing now } _
    ⟨fun _ => Std.ExtTreeMap.mem_map, rfl⟩ sameTable_ask

/-- An entry that stays in the table with another state. -/
theorem mem_insert_of_getElem? {wants : Std.ExtTreeMap Bytes Want compare} {a : Bytes} {w : Want}
    (ha : wants[a]? = some w) (w' : Want) (b : Bytes) : b ∈ wants.insert a w' ↔ b ∈ wants := by
  rw [Std.ExtTreeMap.mem_insert, Std.LawfulEqCmp.compare_eq_iff_eq]
  constructor
  · rintro (rfl | hb)
    · exact Std.ExtTreeMap.mem_iff_isSome_getElem?.mpr (by rw [ha]; rfl)
    · exact hb
  · exact Or.inr

theorem sameTable_fetch (address : Bytes) : SameTable s (fetch h id address now s).session := by
  unfold fetch
  split
  · exact ⟨fun _ => Iff.rfl, rfl⟩
  · rename_i w hw
    have hinsert : SameTable s { s with wants := s.wants.insert address w.release } :=
      ⟨mem_insert_of_getElem? hw _, rfl⟩
    exact (hinsert.trans sameTable_ask).trans (untouched_noteSaid _).same

theorem sameTable_setFetch (policy : FetchPolicy) : SameTable s (setFetch h id policy now s).session := by
  have hmap : SameTable s { s with fetch := policy, wants := s.wants.map fun _ w => w.follow policy } :=
    ⟨fun _ => Std.ExtTreeMap.mem_map, rfl⟩
  exact (hmap.trans sameTable_ask).trans (untouched_noteSaid _).same

theorem sameTable_onAbsent {as : List Bytes} : ∀ {s : Session}, SameTable s (onAbsent as s).session := by
  induction as with
  | nil => exact ⟨fun _ => Iff.rfl, rfl⟩
  | cons a as ih =>
    intro s
    have hone : SameTable s (onAbsentOne a s).session := by
      unfold onAbsentOne
      split
      · exact ⟨fun _ => Iff.rfl, rfl⟩
      · rename_i w hw
        split_ifs
        · exact ⟨fun _ => Iff.rfl, rfl⟩
        · exact ⟨mem_insert_of_getElem? hw _, rfl⟩
    rw [onAbsent]
    exact hone.trans ih

/-! ### What comes in and goes out -/

/-- A file that arrives is no longer wanted; any other one leaves the addresses alone. -/
theorem mem_onContent (m : Message) (a : Bytes) :
    a ∈ (onContent m s).session.wants ↔ a ∈ s.wants ∧
      ¬(a = m.address ∧ ∃ e, .event e ∈ (onContent m s).out ∧ e.type = .contentArrived) := by
  unfold onContent
  split
  · simp [tell]
  · rename_i w hw
    split_ifs
    · simp [tell]
    · rw [show (tell _ _).session.wants = s.wants.insert m.address { w with state := .wanted } from rfl,
        mem_insert_of_getElem? hw]
      simp [tell]
    · rw [show (tell _ _).session.wants = s.wants.erase m.address from rfl, Std.ExtTreeMap.mem_erase,
        ne_eq, Std.LawfulEqCmp.compare_eq_iff_eq]
      simp [tell, and_comm, eq_comm]

theorem onContent_seen (m : Message) : (onContent m s).session.seenRevision = s.seenRevision := by
  unfold onContent
  split
  · rfl
  · split_ifs <;> rfl

theorem mem_enterWant {fetch : FetchPolicy} {wants : Std.ExtTreeMap Bytes Want compare} {a b : Bytes} :
    b ∈ enterWant h fetch wants a ↔ b ∈ wants ∨ (b = a ∧ h.has a = false) := by
  unfold enterWant
  by_cases hc : (wants.contains a || h.has a) = true
  · rw [if_pos hc]
    rw [Bool.or_eq_true] at hc
    constructor
    · exact Or.inl
    · rintro (hb | ⟨rfl, hb⟩)
      · exact hb
      · rcases hc with hc | hc
        · exact hc
        · rw [hb] at hc
          cases hc
  · rw [if_neg hc]
    rw [Bool.or_eq_true, not_or, Bool.not_eq_true, Bool.not_eq_true] at hc
    rw [Std.ExtTreeMap.mem_insert, Std.LawfulEqCmp.compare_eq_iff_eq]
    simp [hc.2, or_comm, eq_comm]

theorem mem_foldl_enterWant {fetch : FetchPolicy} {as : List Bytes} {b : Bytes} :
    ∀ {wants : Std.ExtTreeMap Bytes Want compare},
      b ∈ as.foldl (enterWant h fetch) wants ↔ b ∈ wants ∨ (b ∈ as ∧ h.has b = false) := by
  induction as with
  | nil => simp
  | cons a as ih =>
    intro wants
    rw [List.foldl_cons, ih, mem_enterWant, List.mem_cons]
    constructor
    · rintro ((hb | ⟨rfl, hb⟩) | ⟨hm, hb⟩)
      · exact Or.inl hb
      · exact Or.inr ⟨Or.inl rfl, hb⟩
      · exact Or.inr ⟨Or.inr hm, hb⟩
    · rintro (hb | ⟨rfl | hm, hb⟩)
      · exact Or.inl (Or.inl hb)
      · exact Or.inl (Or.inr ⟨rfl, hb⟩)
      · exact Or.inr ⟨hm, hb⟩

/-- A refreshed table has the addresses that are named and missing. -/
theorem mem_refreshWants (hf : s.references.fields.isEmpty = false) (a : Bytes) :
    a ∈ (refreshWants h r now s).session.wants ↔
      a ∈ namedBy r s.references ∧ h.has a = false := by
  unfold refreshWants
  rw [hf, if_neg Bool.false_ne_true]
  dsimp only
  rw [(@sameTable_ask h r.id now _).mem]
  dsimp only
  rw [mem_foldl_enterWant, Std.ExtTreeSet.mem_toList, Std.ExtTreeMap.mem_filter]
  simp only [Std.ExtTreeMap.getKey_eq, Bool.and_eq_true, Bool.not_eq_true',
    Std.ExtTreeSet.contains_iff_mem]
  constructor
  · rintro (⟨-, hb⟩ | hb)
    · exact hb
    · exact hb
  · exact Or.inr

theorem refreshWants_seen : (refreshWants h r now s).session.seenRevision = s.seenRevision := by
  unfold refreshWants
  split_ifs
  · rfl
  · exact (@sameTable_ask h r.id now _).seen

/-! ### What a call does to the table -/

/-- A table that was compared with what a replica names; without a field that names files there is
nothing to compare. -/
def Refreshed (h : Host) (r : Replica) (s s' : Session) : Prop :=
  ∀ a, a ∈ s'.wants ↔
    if s.references.fields.isEmpty then a ∈ s.wants
    else a ∈ namedBy r s.references ∧ h.has a = false

/-- The shareable state has no canonical form. -/
def Unprintable (h : Host) (r : Replica) : Prop :=
  ∃ e, canonDoc (exportable r.doc h.share r.policy) = .error e

theorem refreshed_refreshWants : Refreshed h r s (refreshWants h r now s).session := by
  intro a
  cases hf : s.references.fields.isEmpty with
  | true =>
    unfold refreshWants
    rw [if_pos hf]
    exact (if_pos rfl).symm ▸ Iff.rfl
  | false =>
    rw [mem_refreshWants hf, if_neg Bool.false_ne_true]

theorem Refreshed.trans_untouched {s s' s'' : Session} (hr : Refreshed h r s s') (hu : SameTable s' s'') :
    Refreshed h r s s'' :=
  fun a => (hu.mem a).trans (hr a)

theorem Refreshed.of_untouched {s s' s'' : Session} (hu : SameTable s s') (hf : s'.references = s.references)
    (hr : Refreshed h r s' s'') : Refreshed h r s s'' := by
  intro a
  rw [hr a, hf, hu.mem a]

/-- A look at the replica leaves the table, and sees the revision. -/
theorem refreshExport_cases (h : Host) (r : Replica) (s : Session) :
    (s.seenRevision = r.revision ∧ refreshExport h r s = (.ok (), s)) ∨
      s.seenRevision ≠ r.revision ∧ (refreshExport h r s).2.seenRevision = r.revision ∧
        (refreshExport h r s).2.wants = s.wants ∧
        ((refreshExport h r s).1 = .ok () ∨
          Unprintable h r ∧ ∃ e, (refreshExport h r s).1 = .error e) := by
  unfold refreshExport
  by_cases he : s.seenRevision = r.revision
  · rw [if_pos he]
    exact Or.inl ⟨he, rfl⟩
  · rw [if_neg he]
    dsimp only
    cases hc : canonDoc (exportable r.doc h.share r.policy) with
    | error e => exact Or.inr ⟨he, rfl, rfl, Or.inr ⟨⟨e, hc⟩, e, rfl⟩⟩
    | ok bytes => exact Or.inr ⟨he, rfl, rfl, Or.inl rfl⟩

/-- What a look for changes does to the table. -/
inductive Looked (h : Host) (r : Replica) (s s' : Session) : Prop
  /-- The revision was seen before. -/
  | same (hs : SameTable s s') (hr : s.seenRevision = r.revision)
  /-- It was not, and the table follows. -/
  | refreshed (hw : Refreshed h r s s') (hs : s'.seenRevision = r.revision)
  /-- It was not, and the table does not follow, for the state cannot be sent. -/
  | thrown (hw : ∀ a, a ∈ s'.wants ↔ a ∈ s.wants) (hs : s'.seenRevision = r.revision)
      (he : Unprintable h r)

theorem Looked.trans_untouched {s s' s'' : Session} (hl : Looked h r s s') (hu : SameTable s' s'') :
    Looked h r s s'' := by
  cases hl with
  | same hs hr => exact .same (hs.trans hu) hr
  | refreshed hw hs => exact .refreshed (hw.trans_untouched hu) (hu.seen.trans hs)
  | thrown hw hs he => exact .thrown (fun a => (hu.mem a).trans (hw a)) (hu.seen.trans hs) he

theorem looked_tickRefresh (hset : settling now s = false) :
    Looked h r s (tickRefresh h r now s).session := by
  unfold tickRefresh
  rw [if_neg (by rw [hset]; exact Bool.false_ne_true)]
  have hlink := refreshExport_link h s r
  rcases refreshExport_cases h r s with ⟨hseen, hok⟩ | ⟨hne, hseen, hwants, hres⟩
  · rw [hok]
    dsimp only
    rw [if_neg (fun hb => hb rfl)]
    exact .same ⟨fun _ => Iff.rfl, rfl⟩ hseen
  · generalize refreshExport h r s = p at hlink hseen hwants hres ⊢
    obtain ⟨res, s'⟩ := p
    have hmem : ∀ a, a ∈ s'.wants ↔ a ∈ s.wants := fun a => by rw [hwants]
    rcases hres with hok | ⟨hun, e, herr⟩
    · obtain rfl : res = .ok () := hok
      dsimp only
      rw [if_pos (fun hb => hne (hb.symm.trans hseen))]
      have href : s'.references = s.references := congrArg Link.references hlink
      refine .refreshed ?_ (refreshWants_seen.trans hseen)
      intro a
      change a ∈ (refreshWants h r now s').session.wants ↔ _
      rw [refreshed_refreshWants a, href, hmem]
    · obtain rfl : res = .error e := herr
      exact .thrown hmem hseen hun

theorem sameTable_tickRest (x : Said) : SameTable x.session (tickRest h id now x).session := by
  unfold tickRest
  have hdoc : SameTable x.session (x.andThen (tickDoc h id now)).session := untouched_tickDoc.same
  have hwants := hdoc.trans (@sameTable_tickWants h id now _)
  have hpresence := hwants.trans (@untouched_tickPresence now _).same
  have hnote := hpresence.trans (@untouched_noteSaid now
    (((x.andThen (tickDoc h id now)).andThen (tickWants h id now)).andThen (tickPresence now))).same
  exact hnote.trans (@untouched_tickKeepalive h id now _).same

/-- An open session that does not wait for the end of the coalescing window looks for changes. -/
theorem looked_tick (ho : s.state = .opened) (hsilent : now - s.lastHeard < s.timing.silenceTimeout)
    (hset : settling now s = false) : Looked h r s (tick h r now s).session := by
  have hlook := looked_tickRefresh (h := h) (r := r) hset
  unfold tick
  rw [ho]
  dsimp only
  rw [if_neg (by omega)]
  generalize tickRefresh h r now s = o at hlook ⊢
  obtain ⟨res, s', r'⟩ := o
  cases res with
  | error e => exact hlook
  | ok out => exact hlook.trans_untouched (sameTable_tickRest ⟨s', out⟩)

/-- Any other tick leaves the table. -/
theorem sameTable_tick (hq : ¬(s.state = .opened ∧ now - s.lastHeard < s.timing.silenceTimeout ∧
    settling now s = false)) : SameTable s (tick h r now s).session := by
  unfold tick
  split
  · exact ⟨fun _ => Iff.rfl, rfl⟩
  · exact untouched_tickConnecting.same
  · rename_i ho
    split_ifs with hs
    · exact (untouched_finish _ _).same
    · have hset : settling now s = true := by
        by_contra hb
        exact hq ⟨ho, by omega, by simpa using hb⟩
      have hstill : tickRefresh h r now s = ⟨.ok [], s, r⟩ := by
        unfold tickRefresh
        rw [if_pos hset]
      rw [hstill]
      exact sameTable_tickRest ⟨s, []⟩

/-- A tick looks for changes or leaves the table. -/
theorem looked_or_same_tick (s : Session) :
    SameTable s (tick h r now s).session ∨ Looked h r s (tick h r now s).session := by
  by_cases hq : s.state = .opened ∧ now - s.lastHeard < s.timing.silenceTimeout ∧ settling now s = false
  · exact Or.inr (looked_tick hq.1 hq.2.1 hq.2.2)
  · exact Or.inl (sameTable_tick hq)

end VoidPalabra.Sync
