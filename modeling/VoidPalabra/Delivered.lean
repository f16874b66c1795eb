import VoidPalabra.Ancestry

/-!
# What histories that were told the same hold

Utterances arrive one by one, in bags and as whole histories, in any order and any number
of times, and what cannot be placed is tried again. Once nothing more can be placed, what is
held does not depend on how it came.
-/

namespace VoidPalabra.Utterances.History

open Growth

variable {h k : History}

/-! ### Receiving -/

/-- The utterance is malformed or comes before one of its parents. -/
def waits (h : History) (u : Utterance) : Bool :=
  decide ((h.add u).1 = .malformed) || decide ((h.add u).1 = .missingParent)

theorem waits_iff {u : Utterance} : h.waits u = true ↔
    ¬WellFormed u ∨ u.hash ∉ h.names ∧ ∃ p ∈ u.parents, p ∉ h.names := by
  rcases h.add_cases u with ⟨hw, he⟩ | ⟨hw, hheld, he⟩ | ⟨hw, hnew, hmissing, he⟩ |
    ⟨hw, hnew, hparents, he⟩
  · simp [waits, he, hw]
  · simp [waits, he, hw, hheld]
  · simp only [waits, he, hw, hnew, not_true_eq_false, not_false_eq_true, true_and, false_or]
    exact iff_of_true (by decide) hmissing
  · simp only [waits, he, hw, hnew, not_true_eq_false, not_false_eq_true, true_and, false_or]
    exact iff_of_false (by decide) fun ⟨p, hp, hnot⟩ => hnot (hparents p hp)

/-- What is held waits no more. -/
theorem waits_of_held {u : Utterance} (hw : WellFormed u) (hu : u.hash ∈ h.names) :
    h.waits u = false := by
  refine Bool.eq_false_iff.mpr fun hwaits => ?_
  rcases waits_iff.mp hwaits with hnot | ⟨hnew, -⟩
  · exact hnot hw
  · exact hnew hu

theorem Adds.names {offered : Set Utterance} (hk : Adds offered h k) : h.names ⊆ k.names :=
  hk.grows.subset

/-- What one pass over what is pending does. -/
structure Passed (h : History) (pending : List Utterance) (p : Pass) : Prop where
  /-- It adds some of it. -/
  adds : Adds {u | u ∈ pending} h p.history
  /-- It counts what it files. -/
  size : p.history.byHash.size = h.byHash.size + p.added
  /-- It leaves nothing else. -/
  subset : ∀ u ∈ p.still, u ∈ pending
  /-- It leaves what waits, and drops nothing that would wait later. -/
  still : ∀ k : History, p.history.names ⊆ k.names →
    p.still.filter k.waits = pending.filter k.waits
  /-- What it does not leave is held. -/
  placed : ∀ u ∈ pending, u ∈ p.still ∨ WellFormed u ∧ u.hash ∈ p.history.names
  /-- If it does not get on, everything waits. -/
  stuck : p.progress = false → p.history = h ∧ p.added = 0 ∧ p.still = pending ∧
    ∀ u ∈ pending, h.waits u = true

/-- The head of what is pending is filed or was held. -/
theorem Passed.placing {pending : List Utterance} {p : Pass} {u : Utterance} {n : ℕ}
    (hp : Passed k pending p) (hk : Adds {v | v ∈ u :: pending} h k) (hw : WellFormed u)
    (hheld : u.hash ∈ k.names) (hsize : k.byHash.size = h.byHash.size + n) :
    Passed h (u :: pending) { p with added := p.added + n, progress := true } where
  adds := hk.trans (hp.adds.mono fun _ hv => List.mem_cons_of_mem _ hv)
  size := by
    have := hp.size
    dsimp only
    omega
  subset v hv := List.mem_cons_of_mem _ (hp.subset v hv)
  still l hl := by
    rw [List.filter_cons_of_neg, hp.still l hl]
    rw [waits_of_held hw (hl (hp.adds.names hheld))]
    decide
  placed v hv := by
    rcases List.mem_cons.mp hv with rfl | hv
    · exact Or.inr ⟨hw, hp.adds.names hheld⟩
    · exact hp.placed v hv
  stuck hf := nomatch hf

/-- The head of what is pending waits. -/
theorem Passed.waiting {pending : List Utterance} {p : Pass} {u : Utterance}
    (hp : Passed h pending p) (hwaits : h.waits u = true) :
    Passed h (u :: pending) { p with still := u :: p.still } where
  adds := hp.adds.mono fun _ hv => List.mem_cons_of_mem _ hv
  size := hp.size
  subset v hv := by
    rcases List.mem_cons.mp hv with rfl | hv
    · exact List.mem_cons_self
    · exact List.mem_cons_of_mem _ (hp.subset v hv)
  still l hl := by
    simp only [List.filter_cons, hp.still l hl]
  placed v hv := by
    rcases List.mem_cons.mp hv with rfl | hv
    · exact Or.inl List.mem_cons_self
    · exact (hp.placed v hv).imp_left (List.mem_cons_of_mem _)
  stuck hf := by
    obtain ⟨hh, hadded, hstill, hall⟩ := hp.stuck hf
    refine ⟨hh, hadded, by rw [hstill], fun v hv => ?_⟩
    rcases List.mem_cons.mp hv with rfl | hv
    · exact hwaits
    · exact hall v hv

theorem size_file {u : Utterance} (hnew : u.hash ∉ h.names) :
    (h.file u).byHash.size = h.byHash.size + 1 := by
  rw [file, Std.ExtTreeMap.size_insert]
  exact if_neg fun hmem => hnew (has_iff.mp hmem)

theorem passed : ∀ (h : History) (pending : List Utterance), Passed h pending (h.pass pending)
  | h, [] => ⟨.refl, rfl, fun _ hu => hu, fun _ _ => rfl, fun u hu => absurd hu List.not_mem_nil,
      fun _ => ⟨rfl, rfl, rfl, fun u hu => absurd hu List.not_mem_nil⟩⟩
  | h, u :: pending => by
    have hone : Adds {v | v ∈ u :: pending} h (h.add u).2 := Adds.refl.add List.mem_cons_self
    rw [pass]
    rcases h.add_cases u with ⟨hw, he⟩ | ⟨hw, hheld, he⟩ | ⟨hw, hnew, hmissing, he⟩ |
      ⟨hw, hnew, hparents, he⟩
    · rw [he]
      exact (passed h pending).waiting (waits_iff.mpr (Or.inl hw))
    · rw [he]
      exact (passed h pending).placing .refl hw hheld (Nat.add_zero _).symm
    · rw [he]
      exact (passed h pending).waiting (waits_iff.mpr (Or.inr ⟨hnew, hmissing⟩))
    · rw [he] at hone ⊢
      exact (passed (h.file u) pending).placing hone hw
        (by rw [names_file]; exact Set.mem_insert _ _) (size_file hnew)

/-- What a call of `History::receive` does. -/
structure Taken (h : History) (inbox : List Utterance) (r : Received) : Prop where
  /-- It adds some of the bag. -/
  adds : Adds {u | u ∈ inbox} h r.history
  /-- It counts what it files. -/
  size : r.history.byHash.size = h.byHash.size + r.added
  /-- It hands back what waits. -/
  unplaceable : r.unplaceable = inbox.filter r.history.waits
  /-- Everything else is held. -/
  placed : ∀ u ∈ inbox, r.history.waits u = true ∨ WellFormed u ∧ u.hash ∈ r.history.names

theorem taken (h : History) (inbox : List Utterance) : Taken h inbox (h.receive inbox) := by
  induction h, inbox using receive.induct with
  | case1 h inbox hempty =>
    rw [receive, if_pos hempty]
    obtain rfl := List.isEmpty_iff.mp hempty
    exact ⟨.refl, rfl, rfl, fun u hu => absurd hu List.not_mem_nil⟩
  | case2 h inbox hempty hprogress ih =>
    rw [receive, if_neg hempty, if_pos hprogress]
    have hp := passed h inbox
    refine ⟨hp.adds.trans (ih.adds.mono hp.subset), ?_, ?_, fun u hu => ?_⟩
    · have hsize := hp.size
      have hrest := ih.size
      dsimp only
      omega
    · exact ih.unplaceable.trans (hp.still _ ih.adds.names)
    · rcases hp.placed u hu with hu | ⟨hw, hheld⟩
      · exact ih.placed u hu
      · exact Or.inr ⟨hw, ih.adds.names hheld⟩
  | case3 h inbox hempty hprogress =>
    rw [receive, if_neg hempty, if_neg hprogress]
    have hp := passed h inbox
    obtain ⟨hh, hadded, hstill, hall⟩ := hp.stuck (Bool.eq_false_iff.mpr hprogress)
    rw [hh, hadded, hstill]
    exact ⟨.refl, rfl, (List.filter_eq_self.mpr hall).symm, fun u hu => Or.inl (hall u hu)⟩

/-! ### Deliveries -/

/-- One way to bring utterances to a history. -/
inductive Delivery
  /-- One alone. -/
  | add (u : Utterance)
  /-- A bag of them. -/
  | receive (inbox : List Utterance)
  /-- All that another history holds. -/
  | absorb (other : History)

/-- The utterances that are brought. -/
def Delivery.utterances : Delivery → List Utterance
  | add u => [u]
  | receive inbox => inbox
  | absorb other => other.utterances

/-- The history after a delivery. -/
def deliver (h : History) : Delivery → History
  | .add u => (h.add u).2
  | .receive inbox => (h.receive inbox).history
  | .absorb other => (h.absorb other).2

/-- The history after many. -/
def deliverAll (h : History) (ds : List Delivery) : History := ds.foldl deliver h

/-- An utterance was among those that were brought. -/
def Delivered (ds : List Delivery) (u : Utterance) : Prop := ∃ d ∈ ds, u ∈ d.utterances

/-- Nothing that was brought can be placed any more. -/
def Settled (h : History) (ds : List Delivery) : Prop := ∀ u, Delivered ds u → (h.add u).1 ≠ .ok

theorem adds_deliver (h : History) (d : Delivery) : Adds {u | u ∈ d.utterances} h (h.deliver d) := by
  cases d with
  | add u => exact Adds.refl.add List.mem_cons_self
  | receive inbox => exact (taken h inbox).adds
  | absorb other => exact (taken h other.utterances).adds

theorem adds_deliverAll (ds : List Delivery) : ∀ h : History,
    Adds {u | Delivered ds u} h (h.deliverAll ds) := by
  induction ds with
  | nil => exact fun _ => .refl
  | cons d ds ih =>
    intro h
    have hfirst : {u | u ∈ d.utterances} ⊆ {u | Delivered (d :: ds) u} :=
      fun _ hu => ⟨d, List.mem_cons_self, hu⟩
    have hrest : {u | Delivered ds u} ⊆ {u | Delivered (d :: ds) u} :=
      fun _ ⟨e, he, hu⟩ => ⟨e, List.mem_cons_of_mem _ he, hu⟩
    exact ((h.adds_deliver d).mono hfirst).trans ((ih (h.deliver d)).mono hrest)

/-- What each of a set follows is held, or is of the set. -/
def Closed (h : History) (q : Set Utterance) : Prop :=
  ∀ u ∈ q, ∀ p ∈ u.parents, h.has p = true ∨ ∃ v ∈ q, v.hash = p

/-- No utterance of a set follows itself through others of it, as none does whose address is
the digest of what it follows. -/
def Grounded (q : Set Utterance) : Prop :=
  WellFounded fun v u : Utterance => v ∈ q ∧ u ∈ q ∧ v.hash ∈ u.parents

/-- The sets of well-formed delivered utterances that are closed under parents. -/
def closedSets (h : History) (ds : List Delivery) : Set (Set Utterance) :=
  {q | (∀ u ∈ q, Delivered ds u ∧ WellFormed u) ∧ h.Closed q ∧ Grounded q}

/-- The well-formed delivered utterances all of whose parents are held in the end. -/
def placed (h : History) (ds : List Delivery) : Set Utterance :=
  {u | Delivered ds u ∧ WellFormed u ∧ ∀ p ∈ u.parents, (h.deliverAll ds).has p = true}

/-- What is hashed for the utterances that are held or delivered. -/
def hashedFor (h : History) (ds : List Delivery) : Set Bytes :=
  {b | ∃ u, ((∃ n : Bytes, h.byHash[n]? = some u) ∨ Delivered ds u) ∧ b = u.hashed}

/-! ### What they end with -/

section Runs

variable {ds es : List Delivery} {s : Set Bytes}

/-- What was delivered and what it needs. -/
def offers (ds : List Delivery) : Set Utterance := {u | Delivered ds u ∧ WellFormed u}

/-- What follows from the names that are held in the end. -/
theorem placedNames (hs : (h.deliverAll ds).Settled ds) (n : Bytes) :
    n ∈ (h.deliverAll ds).names ↔
      Growth.Placed (fun u : Utterance => {p | p ∈ u.parents}) Utterance.hash h.names (offers ds) n := by
  refine (adds_deliverAll ds h).grows.mem_iff (fun u hu hparents => ?_) n
  rcases (h.deliverAll ds).add_cases u with ⟨hw, -⟩ | ⟨-, hheld, -⟩ | ⟨-, -, ⟨p, hp, hnot⟩, -⟩ |
    ⟨-, -, -, he⟩
  · exact absurd hu.2 hw
  · exact hheld
  · exact absurd (hparents hp) hnot
  · exact absurd (congrArg Prod.fst he) (hs u hu.1)

/-- What is held in the end has a payload among those of what was held or delivered. -/
theorem hashed_mem {n : Bytes} {u : Utterance} (hu : (h.deliverAll ds).byHash[n]? = some u) :
    u.hashed ∈ h.hashedFor ds := by
  rcases (adds_deliverAll ds h).origin hu with hheld | hd
  · exact ⟨u, Or.inl ⟨n, hheld⟩, rfl⟩
  · exact ⟨u, Or.inr hd, rfl⟩

/-- What has all its parents is held in the end. -/
theorem held_of_placed (hs : (h.deliverAll ds).Settled ds) {u : Utterance} (hu : u ∈ h.placed ds) :
    u.hash ∈ (h.deliverAll ds).names := by
  rw [placedNames hs]
  exact .given ⟨hu.1, hu.2.1⟩ fun p hp => (placedNames hs p).mp (has_iff.mp (hu.2.2 p hp))

/-- In the end a well-formed utterance that is held under its name follows the same. -/
theorem follows_of_held (hh : h.Filed) (hsha : Set.InjOn sha256 (h.hashedFor ds)) {u : Utterance}
    (hd : Delivered ds u) (hw : WellFormed u) (hheld : u.hash ∈ (h.deliverAll ds).names) (p : Bytes) :
    (h.deliverAll ds).Follows p u.hash ↔ p ∈ u.parents := by
  obtain ⟨v, hv⟩ := Option.isSome_iff_exists.mp (Std.ExtTreeMap.isSome_getElem?_iff_mem.mpr hheld)
  obtain ⟨hvn, hw'⟩ := ((adds_deliverAll ds h).filed hh).named hv
  have hsame := hw'.same hsha (hashed_mem hv) ⟨u, Or.inr hd, rfl⟩ hw hvn
  rw [Follows, parentsOf, hv]
  exact hsame.parents p

/-- **What was placed is the largest closed set.** -/
theorem isGreatest_placed (hh : h.Filed) (hs : (h.deliverAll ds).Settled ds)
    (hsha : Set.InjOn sha256 (h.hashedFor ds)) : IsGreatest (h.closedSets ds) (h.placed ds) := by
  obtain ⟨rank, hrank⟩ := ((adds_deliverAll ds h).filed hh).graded
  refine ⟨⟨fun u hu => ⟨hu.1, hu.2.1⟩, fun u hu p hp => ?_, ?_⟩, ?_⟩
  · have hplaced := (placedNames hs p).mp (has_iff.mp (hu.2.2 p hp))
    cases hplaced with
    | held hp => exact Or.inl (has_iff.mpr hp)
    | @given v offer hv =>
      exact Or.inr ⟨v, ⟨offer.1, offer.2, fun q hq => has_iff.mpr ((placedNames hs q).mpr (hv q hq))⟩, rfl⟩
  · refine Subrelation.wf ?_ (measure fun u : Utterance => rank u.hash).wf
    rintro v u ⟨hv, hu, hvu⟩
    exact hrank.lt ((follows_of_held hh hsha hu.1 hu.2.1 (held_of_placed hs hu) v.hash).mpr hvu)
  · rintro q ⟨hq, hclosed, hgrounded⟩ u
    induction u using hgrounded.induction with
    | _ u ih =>
      intro hu
      refine ⟨(hq u hu).1, (hq u hu).2, fun p hp => ?_⟩
      rcases hclosed u hu p hp with hheld | ⟨v, hv, rfl⟩
      · exact has_iff.mpr ((adds_deliverAll ds h).names (has_iff.mp hheld))
      · exact has_iff.mpr (held_of_placed hs (ih v ⟨hv, hu, hp⟩ hv))

/-- The names that are held in the end. -/
theorem has_deliverAll (hs : (h.deliverAll ds).Settled ds) (n : Bytes) :
    (h.deliverAll ds).has n = true ↔ h.has n = true ∨ ∃ u ∈ h.placed ds, u.hash = n := by
  rw [has_iff, has_iff]
  constructor
  · intro hn
    cases (placedNames hs n).mp hn with
    | held hn => exact Or.inl hn
    | @given u offer hu =>
      exact Or.inr ⟨u, ⟨offer.1, offer.2, fun p hp => has_iff.mpr ((placedNames hs p).mpr (hu p hp))⟩, rfl⟩
  · rintro (hn | ⟨u, hu, rfl⟩)
    · exact (adds_deliverAll ds h).names hn
    · exact held_of_placed hs hu

/-- Histories that hold the same names in the same order are the same for every reader. -/
theorem readers_agree_of_follows (hf : h.Filed) (hk : k.Filed) (hnames : h.names = k.names)
    (hfollows : ∀ c p, h.Follows p c ↔ k.Follows p c) :
    h.heads = k.heads ∧ h.cutName = k.cutName ∧ h.linearExtension = k.linearExtension := by
  have hheads : h.heads = k.heads :=
    heads_congr hf hk fun n => and_congr (by rw [hnames]) (forall_congr' fun c =>
      not_congr (hfollows c n))
  refine ⟨hheads, by rw [cutName, cutName, hheads], ?_⟩
  refine hf.reading.unique hk.reading (fun n => ?_) fun c _ p => hfollows c p
  rw [Std.ExtTreeMap.mem_keys, Std.ExtTreeMap.mem_keys]
  exact Set.ext_iff.mp hnames n

/-- Histories that hold the same names and whose payloads have different digests are the
same for every reader. -/
theorem readers_agree (hs : Set.InjOn sha256 s) (hf : h.Filed) (hk : k.Filed)
    (hh : ∀ (n : Bytes) (u : Utterance), h.byHash[n]? = some u → u.hashed ∈ s)
    (hk' : ∀ (n : Bytes) (u : Utterance), k.byHash[n]? = some u → u.hashed ∈ s)
    (hnames : h.names = k.names) :
    h.heads = k.heads ∧ h.cutName = k.cutName ∧ h.linearExtension = k.linearExtension := by
  refine readers_agree_of_follows hf hk hnames fun c p => ?_
  by_cases hc : c ∈ h.names
  · exact follows_agree hs hf hk hh hk' c hc (hnames ▸ hc) p
  · rw [Follows, Follows, parentsOf_of_not_mem hc, parentsOf_of_not_mem (hnames ▸ hc)]

/-- What a call of `History::receive` returns. -/
structure Accounted (h : History) (inbox : List Utterance) : Prop where
  /-- The count is the growth. -/
  growth : (h.receive inbox).history.byHash.size = h.byHash.size + (h.receive inbox).added
  /-- What is handed back is malformed, or a parent of it is not held. -/
  unplaceable : (h.receive inbox).unplaceable = inbox.filter fun u =>
    decide (¬WellFormed u ∨ ∃ p ∈ u.parents, (h.receive inbox).history.has p = false)
  /-- Nothing of the bag can be placed any more. -/
  exhausted : ∀ u ∈ inbox, ((h.receive inbox).history.add u).1 ≠ .ok

theorem accounted {inbox : List Utterance} (hf : h.Filed) (hs : Set.InjOn sha256 s)
    (hh : ∀ (n : Bytes) (u : Utterance), h.byHash[n]? = some u → u.hashed ∈ s)
    (hinbox : ∀ u ∈ inbox, u.hashed ∈ s) : h.Accounted inbox := by
  have ht := taken h inbox
  have hafter := ht.adds.filed hf
  obtain ⟨rank, hrank⟩ := hafter.graded
  refine ⟨ht.size, ?_, fun u hu hok => ?_⟩
  · rw [ht.unplaceable]
    refine List.filter_congr fun u hu => ?_
    rw [Bool.eq_iff_iff, waits_iff, decide_eq_true_iff]
    by_cases hw : WellFormed u
    · simp only [hw, not_true_eq_false, false_or, ← Bool.not_eq_true, has_iff]
      refine ⟨And.right, fun ⟨p, hp, hnot⟩ => ⟨fun hheld => hnot ?_, p, hp, hnot⟩⟩
      -- the one of its name that is held has the same parents, and all of them are held
      obtain ⟨v, hv⟩ := Option.isSome_iff_exists.mp (Std.ExtTreeMap.isSome_getElem?_iff_mem.mpr hheld)
      obtain ⟨hvn, hw'⟩ := hafter.named hv
      have hvs : v.hashed ∈ s := (ht.adds.origin hv).elim (hh _ v) (hinbox v)
      have hsame := hw'.same hs hvs (hinbox u hu) hw hvn
      refine hrank.parent (c := u.hash) ?_
      rw [Follows, parentsOf, hv]
      exact (hsame.parents p).mpr hp
    · simp [hw]
  · rcases (h.receive inbox).history.add_cases u with ⟨-, he⟩ | ⟨-, -, he⟩ | ⟨-, -, -, he⟩ |
      ⟨hw, hnew, hparents, -⟩
    · rw [he] at hok
      cases hok
    · rw [he] at hok
      cases hok
    · rw [he] at hok
      cases hok
    · rcases ht.placed u hu with hwaits | ⟨-, hheld⟩
      · rcases waits_iff.mp hwaits with hnot | ⟨-, p, hp, hnot⟩
        · exact hnot hw
        · exact hnot (hparents p hp)
      · exact hnew hheld

/-- Two runs of deliveries to one history that brought the same end with the same. -/
structure Converge (h : History) (ds es : List Delivery) : Prop where
  /-- What was placed is the largest set of well-formed delivered utterances that is closed
  under parents. -/
  greatest : IsGreatest (h.closedSets ds) (h.placed ds)
  /-- That is held in the end, with what was held before. -/
  names : ∀ n, (h.deliverAll ds).has n = true ↔ h.has n = true ∨ ∃ u ∈ h.placed ds, u.hash = n
  /-- After either run. -/
  same : ∀ n, (h.deliverAll ds).has n = (h.deliverAll es).has n
  /-- With the same heads. -/
  heads : (h.deliverAll ds).heads = (h.deliverAll es).heads
  /-- Under the same name. -/
  cutName : (h.deliverAll ds).cutName = (h.deliverAll es).cutName
  /-- Read in the same order. -/
  linearExtension : (h.deliverAll ds).linearExtension = (h.deliverAll es).linearExtension
  /-- And every bag on the way is accounted for. -/
  accounted : ∀ pre inbox post, ds = pre ++ .receive inbox :: post →
    (h.deliverAll pre).Accounted inbox

theorem deliverAll_append (ds es : List Delivery) :
    h.deliverAll (ds ++ es) = (h.deliverAll ds).deliverAll es := List.foldl_append

/-- **History convergence.** However the same utterances are brought to a history, once
nothing more of them can be placed it holds the same and says the same. -/
theorem histories_converge (h : History) (ds es : List Delivery) (hh : h.Reachable)
    (hsame : ∀ u, Delivered ds u ↔ Delivered es u) (hds : (h.deliverAll ds).Settled ds)
    (hes : (h.deliverAll es).Settled es) (hsha : Set.InjOn sha256 (h.hashedFor ds)) :
    Converge h ds es := by
  have hf := hh.filed
  have hoffers : offers ds = offers es := Set.ext fun u => and_congr_left fun _ => hsame u
  have hhashed : h.hashedFor es = h.hashedFor ds :=
    Set.ext fun b => exists_congr fun u => and_congr_left fun _ => or_congr_right (hsame u).symm
  have hnames : (h.deliverAll ds).names = (h.deliverAll es).names := by
    ext n
    rw [placedNames hds, placedNames hes, hoffers]
  obtain ⟨hheads, hcut, hlinear⟩ := readers_agree hsha ((adds_deliverAll ds h).filed hf)
    ((adds_deliverAll es h).filed hf) (fun _ _ => hashed_mem)
    (fun _ _ hu => hhashed ▸ hashed_mem hu) hnames
  refine ⟨isGreatest_placed hf hds hsha, has_deliverAll hds, fun n => ?_, hheads, hcut, hlinear, ?_⟩
  · rw [Bool.eq_iff_iff, has_iff, has_iff, hnames]
  · intro pre inbox post hsplit
    have hpre : ∀ u, Delivered pre u → Delivered ds u := fun u ⟨d, hd, hu⟩ =>
      ⟨d, hsplit ▸ List.mem_append_left _ hd, hu⟩
    refine accounted ((adds_deliverAll pre h).filed hf) hsha (fun n u hu => ?_) fun u hu => ?_
    · rcases (adds_deliverAll pre h).origin hu with hheld | hd
      · exact ⟨u, Or.inl ⟨n, hheld⟩, rfl⟩
      · exact ⟨u, Or.inr (hpre u hd), rfl⟩
    · exact ⟨u, Or.inr ⟨.receive inbox, by simp [hsplit], hu⟩, rfl⟩

/-- What follows a first utterance. -/
def followsFirst : Utterance where
  command := lit "rune rm a"
  verb := lit "rune"
  parents := [(opens "rune new a").hash]
  hash := lit "u:" ++ hexBytes (sha256 (Utterance.hashed
    { command := lit "rune rm a", verb := lit "rune", parents := [(opens "rune new a").hash] }))

/-- Both come in one bag, the later one first. -/
def inOneBag : List Delivery := [.receive [followsFirst, opens "rune new a"]]

/-- They come alone, and the later one is tried again. -/
def oneByOne : List Delivery := [.add followsFirst, .add (opens "rune new a"), .add followsFirst]

theorem histories_converge_inOneBag : Converge {} inOneBag oneByOne := by
  have hcomputed : ([(opens "rune new a").hashed, followsFirst.hashed].map sha256).Nodup ∧
      ∀ u ∈ [followsFirst, opens "rune new a"],
        ((({} : History).deliverAll inOneBag).add u).1 ≠ .ok ∧
          ((({} : History).deliverAll oneByOne).add u).1 ≠ .ok := by
    decide +kernel
  obtain ⟨hnodup, hsettled⟩ := hcomputed
  have hbag : ∀ u, Delivered inOneBag u ↔ u ∈ [followsFirst, opens "rune new a"] := fun u => by
    simp [Delivered, inOneBag, Delivery.utterances]
  have hone : ∀ u, Delivered oneByOne u ↔ u ∈ [followsFirst, opens "rune new a"] := fun u => by
    simp only [Delivered, oneByOne, List.mem_cons, List.not_mem_nil, or_false, exists_eq_or_imp,
      exists_eq_left, Delivery.utterances]
    constructor
    · rintro (hu | hu | hu)
      · exact Or.inl hu
      · exact Or.inr hu
      · exact Or.inl hu
    · exact fun hu => hu.imp_right Or.inl
  have hsha : Set.InjOn sha256 {b | b ∈ [(opens "rune new a").hashed, followsFirst.hashed]} :=
    List.inj_on_of_nodup_map hnodup
  refine histories_converge {} inOneBag oneByOne .refl (fun u => (hbag u).trans (hone u).symm)
    (fun u hu => (hsettled u ((hbag u).mp hu)).1) (fun u hu => (hsettled u ((hone u).mp hu)).2)
    (hsha.mono ?_)
  rintro b ⟨u, ⟨n, hn⟩ | hu, rfl⟩
  · simp at hn
  · rcases List.mem_cons.mp ((hbag u).mp hu) with rfl | hu
    · exact List.mem_cons_of_mem _ List.mem_cons_self
    · rw [List.mem_singleton.mp hu]
      exact List.mem_cons_self

end Runs

end VoidPalabra.Utterances.History
