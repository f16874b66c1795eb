import VoidPalabra.Ancestry

/-!
# From a journal to a history

What a machine did, in order, becomes utterances. The entries that may be recorded form a
chain on the heads, each after the one before it, and the others are handed back with the
reason they were left out.
-/

namespace VoidPalabra.Utterances

open Growth

/-- `JournalEntry`. -/
structure JournalEntry where
  /-- Its number. -/
  seq : Int64 := 0
  /-- The canonical line. -/
  command : Bytes
  /-- The canonical verb. -/
  verb : Bytes
  /-- Who said it. -/
  who : Bytes := []
  /-- Whether anyone did. -/
  hasWho : Bool := false
  /-- Whether its verb cannot reach the host. -/
  pure : Bool := false
  /-- Where the change landed. -/
  slice : Bytes
  /-- The ids that came into being. -/
  minted : List Bytes := []

/-- `Skip`. -/
inductive Skip
  /-- Its verb can reach the host. -/
  | effectful
  /-- It placed something. -/
  | viewSlice
  /-- It changed nothing in the document. -/
  | hostSlice
  deriving DecidableEq

/-- `Skipped`. -/
structure Skipped where
  /-- The entry. -/
  entry : JournalEntry
  /-- Why it was left out. -/
  why : Skip

/-- `IngestReport`. -/
structure IngestReport where
  /-- What was made of the others. -/
  recorded : List Utterance := []
  /-- What was left out. -/
  skipped : List Skipped := []

/-- `IngestOptions`. -/
structure IngestOptions where
  /-- The label of every utterance that is made. -/
  group : Bytes := []

/-- The two filters of `ingest`, the one of purity first. -/
def skipOf (e : JournalEntry) : Option Skip :=
  if !e.pure then some .effectful
  else if e.slice = lit "view" then some .viewSlice
  else if e.slice ≠ lit "undo" then some .hostSlice
  else none

/-- What `ingest` makes of an entry, before it is sealed. -/
def uttered (options : IngestOptions) (current : List Bytes) (e : JournalEntry) : Utterance where
  parents := current
  command := e.command
  verb := e.verb
  who := e.who
  hasWho := e.hasWho
  minted := e.minted
  group := options.group
  seq := e.seq

/-- The loop of `ingest`, after the parents of the next utterance. -/
def ingestFrom (options : IngestOptions) :
    List JournalEntry → List Bytes → Except CanonicalError IngestReport
  | [], _ => .ok {}
  | e :: entries, current =>
    match skipOf e with
    | some why => do
      let report ← ingestFrom options entries current
      pure { report with skipped := ⟨e, why⟩ :: report.skipped }
    | none => do
      let u ← (uttered options current e).sealed
      let report ← ingestFrom options entries [u.hash]
      pure { report with recorded := u :: report.recorded }

/-- `ingest`. -/
def ingest (entries : List JournalEntry) (parents : List Bytes) (options : IngestOptions) :
    Except CanonicalError IngestReport :=
  ingestFrom options entries (sortUnique parents)

namespace History

/-- Utterances added one after another; what `History::add` returns is not looked at. -/
def addAll (h : History) (us : List Utterance) : History := us.foldl (fun h u => (h.add u).2) h

/-- `History::record`, with the history after it. -/
def record (h : History) (entries : List JournalEntry) (options : IngestOptions) :
    Except CanonicalError IngestReport × History :=
  match ingest entries h.heads options with
  | .ok report => (.ok report, h.addAll report.recorded)
  | .error e => (.error e, h)

end History

/-! ### What is recorded -/

/-- An entry that is recorded. -/
def Recordable (e : JournalEntry) : Prop := e.pure = true ∧ e.slice = lit "undo"

instance : DecidablePred Recordable := fun _ => inferInstanceAs (Decidable (_ ∧ _))

/-- The strings that enter the name of what is made of an entry are text. -/
structure Encodable (options : IngestOptions) (e : JournalEntry) : Prop where
  /-- Its command. -/
  command : validUtf8 e.command = true
  /-- Its verb. -/
  verb : validUtf8 e.verb = true
  /-- Who said it, if anyone. -/
  who : e.hasWho = true → validUtf8 e.who = true
  /-- The ids it minted. -/
  minted : ∀ m ∈ e.minted, validUtf8 m = true
  /-- The label. -/
  group : validUtf8 options.group = true

/-- An utterance that says what an entry says. -/
structure Records (options : IngestOptions) (e : JournalEntry) (u : Utterance) : Prop where
  /-- The line. -/
  command : u.command = e.command
  /-- The verb. -/
  verb : u.verb = e.verb
  /-- Whether anyone said it. -/
  hasWho : u.hasWho = e.hasWho
  /-- Who did. -/
  who : u.who = e.who
  /-- The ids it minted. -/
  minted : u.minted = e.minted
  /-- The label. -/
  group : u.group = options.group
  /-- The number. -/
  seq : u.seq = e.seq

theorem skipOf_eq_none {e : JournalEntry} : skipOf e = none ↔ Recordable e := by
  have hview : lit "undo" ≠ lit "view" := by decide
  unfold skipOf Recordable
  cases e.pure with
  | false => simp
  | true =>
    by_cases hundo : e.slice = lit "undo"
    · simp [hundo, hview]
    · simp only [Bool.not_true, Bool.false_eq_true, if_false, hundo, and_false, iff_false]
      split <;> simp

theorem uttered_valid {options : IngestOptions} {current : List Bytes} {e : JournalEntry}
    (hcurrent : ∀ p ∈ current, validUtf8 p = true) :
    (uttered options current e).Valid ↔ Encodable options e :=
  ⟨fun h => ⟨h.command, h.verb, h.who, h.minted, h.group⟩,
    fun h => ⟨h.command, h.verb, h.who, h.group, hcurrent, h.minted⟩⟩

/-- A chain of utterances, the first after some names and each other one after the one
before it. -/
def ChainFrom : List Bytes → List Utterance → Prop
  | _, [] => True
  | ps, u :: us => WellFormed u ∧ u.parents = sortUnique ps ∧ ChainFrom [u.hash] us

/-- What `ingest` makes of a list of entries. -/
structure Ingested (options : IngestOptions) (parents : List Bytes) (entries : List JournalEntry)
    (report : IngestReport) : Prop where
  /-- The entries that may be recorded, in order, -/
  recorded : List.Forall₂ (Records options) (entries.filter (Recordable ·)) report.recorded
  /-- the others, in order, -/
  skipped : report.skipped.map Skipped.entry = entries.filter (¬Recordable ·)
  /-- with the reason, -/
  why : ∀ s ∈ report.skipped, skipOf s.entry = some s.why
  /-- and the order of what was recorded. -/
  chain : ChainFrom parents report.recorded

/-- A sealed utterance is well formed, says the same and has its parents sorted. -/
theorem sealed_wellFormed {u w : Utterance} (h : u.sealed = .ok w) :
    WellFormed w ∧ w.parents = sortUnique u.parents ∧
      w = { u with parents := w.parents, hash := w.hash } := by
  obtain ⟨n, hn, hw⟩ := bind_eq_ok.mp h
  obtain rfl := Except.ok.inj hw
  have hname : ({ u with parents := sortUnique u.parents, hash := n } : Utterance).name = .ok n := hn
  refine ⟨⟨?_, hname⟩, rfl, rfl⟩
  rw [(Utterance.name_eq_ok.mp hname).2]
  exact List.cons_ne_nil _ _

/-- When the strings are text, every entry is either recorded or left out. -/
theorem ingestFrom_ok (options : IngestOptions) : ∀ (entries : List JournalEntry)
    (current : List Bytes), (∀ p ∈ current, validUtf8 p = true) →
    (∀ e ∈ entries, Recordable e → Encodable options e) →
    ∃ report, ingestFrom options entries current = .ok report ∧
      Ingested options current entries report
  | [], _, _, _ => ⟨{}, rfl, .nil, rfl, nofun, trivial⟩
  | e :: entries, current, hcurrent, hencodable => by
    obtain ⟨he, hentries⟩ := List.forall_mem_cons.mp hencodable
    rw [ingestFrom]
    cases hskip : skipOf e with
    | some why =>
      have hrec : ¬Recordable e := fun hrec => by simp [skipOf_eq_none.mpr hrec] at hskip
      obtain ⟨report, hreport, hi⟩ := ingestFrom_ok options entries current hcurrent hentries
      refine ⟨{ report with skipped := ⟨e, why⟩ :: report.skipped },
        bind_eq_ok.mpr ⟨_, hreport, rfl⟩, ?_, ?_, ?_, hi.chain⟩
      · simpa [hrec] using hi.recorded
      · simpa [hrec] using hi.skipped
      · exact List.forall_mem_cons.mpr ⟨hskip, hi.why⟩
    | none =>
      have hrec := skipOf_eq_none.mp hskip
      have hvalid := (uttered_valid hcurrent).mpr (he hrec)
      obtain ⟨u, hu⟩ : ∃ u, (uttered options current e).sealed = .ok u :=
        ⟨_, Utterance.sealed_eq_ok.mpr ⟨hvalid, rfl⟩⟩
      obtain ⟨hw, hparents, htext⟩ := sealed_wellFormed hu
      obtain ⟨report, hreport, hi⟩ := ingestFrom_ok options entries [u.hash]
        (by simpa using hw.text) hentries
      refine ⟨{ report with recorded := u :: report.recorded },
        bind_eq_ok.mpr ⟨u, hu, bind_eq_ok.mpr ⟨report, hreport, rfl⟩⟩, ?_, ?_, hi.why,
        hw, hparents, hi.chain⟩
      · rw [List.filter_cons_of_pos (by simpa using hrec)]
        refine .cons ?_ hi.recorded
        rw [htext]
        exact ⟨rfl, rfl, rfl, rfl, rfl, rfl, rfl⟩
      · simpa [hrec] using hi.skipped

/-- A string that is not text is found before anything is returned. -/
theorem ingestFrom_error (options : IngestOptions) : ∀ (entries : List JournalEntry)
    (current : List Bytes), (∃ e ∈ entries, Recordable e ∧ ¬Encodable options e) →
    ∃ err, ingestFrom options entries current = .error err
  | [], _, h => absurd h (by simp)
  | e :: entries, current, h => by
    rw [ingestFrom]
    cases hskip : skipOf e with
    | some why =>
      have hrec : ¬Recordable e := fun hrec => by simp [skipOf_eq_none.mpr hrec] at hskip
      have hlater : ∃ e ∈ entries, Recordable e ∧ ¬Encodable options e := by simpa [hrec] using h
      obtain ⟨err, herr⟩ := ingestFrom_error options entries current hlater
      exact ⟨err, by rw [herr]; rfl⟩
    | none =>
      cases hu : (uttered options current e).sealed with
      | error err => exact ⟨err, rfl⟩
      | ok u =>
        have hvalid := (Utterance.sealed_eq_ok.mp hu).1
        have he : Encodable options e :=
          ⟨hvalid.command, hvalid.verb, hvalid.who, hvalid.minted, hvalid.group⟩
        have hlater : ∃ e ∈ entries, Recordable e ∧ ¬Encodable options e := by simpa [he] using h
        obtain ⟨err, herr⟩ := ingestFrom_error options entries [u.hash] hlater
        refine ⟨err, ?_⟩
        change ((ingestFrom options entries [u.hash]).bind _) = _
        rw [herr]
        rfl

namespace History

/-! ### Nothing is lost -/

variable {h : History}

/-- An utterance after all the heads is new, and becomes the only head. -/
theorem Filed.add_onto_heads (hf : h.Filed) {s : Set Bytes} (hs : Set.InjOn sha256 s)
    (hh : ∀ (n : Bytes) (v : Utterance), h.byHash[n]? = some v → v.hashed ∈ s) {u : Utterance}
    (hu : WellFormed u) (hus : u.hashed ∈ s) (hparents : u.parents = sortUnique h.heads) :
    h.add u = (.ok, h.file u) ∧ (h.file u).heads = [u.hash] := by
  have hmem : ∀ p, p ∈ u.parents ↔ Head h.names h.Follows p := fun p => by
    rw [hparents, mem_sortUnique, mem_heads hf]
  obtain ⟨rank, hrank⟩ := hf.graded
  have hnew : u.hash ∉ h.names := by
    intro hheld
    obtain ⟨v, hv⟩ := Option.isSome_iff_exists.mp (Std.ExtTreeMap.isSome_getElem?_iff_mem.mpr hheld)
    obtain ⟨hvn, hw⟩ := hf.named hv
    -- it would follow a head
    obtain ⟨m, hm, -⟩ := hrank.below_head h.finite_names hheld
    refine hm.2 u.hash ?_
    rw [Follows, parentsOf, hv]
    exact ((hw.same hs (hh _ v hv) hus hu hvn).parents m).mpr ((hmem m).mpr hm)
  have hheld : ∀ p ∈ u.parents, p ∈ h.names := fun p hp => ((hmem p).mp hp).1
  have hok : h.add u = (.ok, h.file u) := by
    rcases h.add_cases u with ⟨hnot, -⟩ | ⟨-, hdup, -⟩ | ⟨-, -, ⟨p, hp, hnot⟩, -⟩ | ⟨-, -, -, he⟩
    · exact absurd hu hnot
    · exact absurd hdup hnew
    · exact absurd (hheld p hp) hnot
    · exact he
  refine ⟨hok, ?_⟩
  have hafter := hf.file hu hnew hheld
  have hone : ∀ n, Head (h.file u).names (h.file u).Follows n ↔ n = u.hash := by
    intro n
    simp only [Head, names_file, Set.mem_insert_iff, Follows, parentsOf_file]
    constructor
    · rintro ⟨rfl | hn, hlast⟩
      · rfl
      · by_contra hne
        have hnot := hlast u.hash
        rw [if_pos rfl, hmem] at hnot
        refine hnot ⟨hn, fun c hc => hlast c ?_⟩
        rwa [if_neg fun he : c = u.hash => hnew (he ▸ hrank.child hc)]
    · rintro rfl
      refine ⟨Or.inl rfl, fun c hc => ?_⟩
      split at hc
      · exact hnew (hheld _ hc)
      · exact hnew (hrank.parent hc)
  rw [heads_eq_sortUnique, @sortUnique_congr _ [u.hash] fun n => ?_, sortUnique_singleton]
  rw [List.mem_singleton, ← hone, ← mem_heads hafter, heads, Sorting.mem_sortOn]

/-- A chain on the heads is added whole, and its last utterance is the only head. -/
theorem addAll_chain {s : Set Bytes} (hs : Set.InjOn sha256 s) : ∀ (us : List Utterance)
    {h : History}, h.Filed → (∀ (n : Bytes) (v : Utterance), h.byHash[n]? = some v → v.hashed ∈ s) →
    (∀ u ∈ us, u.hashed ∈ s) → ChainFrom h.heads us →
    (∀ pre u post, us = pre ++ u :: post → ((h.addAll pre).add u).1 = .ok) ∧
      (∀ u, us.getLast? = some u → (h.addAll us).heads = [u.hash]) ∧
      ∀ n u, (h.addAll us).byHash[n]? = some u ↔ h.byHash[n]? = some u ∨ u ∈ us ∧ u.hash = n
  | [], h, _, _, _, _ => ⟨by simp, by simp, by simp [addAll]⟩
  | u :: us, h, hf, hh, hus, hchain => by
    obtain ⟨hu, hparents, hrest⟩ := hchain
    obtain ⟨husHere, husLater⟩ := List.forall_mem_cons.mp hus
    obtain ⟨hok, hheads⟩ := hf.add_onto_heads hs hh hu husHere hparents
    have hafter : (h.file u).Filed := by
      have hadd := hf.add u
      rwa [hok] at hadd
    have hnew : h.byHash[u.hash]? = none := by
      rcases h.add_cases u with ⟨-, he⟩ | ⟨-, -, he⟩ | ⟨-, -, -, he⟩ | ⟨-, hnew, -, -⟩
      · exact absurd (hok.symm.trans he) (by simp)
      · exact absurd (hok.symm.trans he) (by simp)
      · exact absurd (hok.symm.trans he) (by simp)
      · exact Std.ExtTreeMap.getElem?_eq_none hnew
    have hheld : ∀ (n : Bytes) (v : Utterance), (h.file u).byHash[n]? = some v ↔
        h.byHash[n]? = some v ∨ v = u ∧ v.hash = n := by
      intro n v
      rw [byHash_file]
      by_cases hn : n = u.hash
      · subst hn
        rw [if_pos rfl, hnew, Option.some.injEq]
        exact ⟨fun he => Or.inr ⟨he.symm, by rw [he]⟩, fun he => he.elim nofun fun hv => hv.1.symm⟩
      · rw [if_neg hn]
        exact ⟨Or.inl, fun he => he.elim id fun hv => absurd (hv.1 ▸ hv.2).symm hn⟩
    obtain ⟨hadds, hlast, hall⟩ := addAll_chain hs us hafter
      (fun n v hv => ((hheld n v).mp hv).elim (hh n v) fun he => he.1 ▸ husHere) husLater
      (hheads.symm ▸ hrest)
    have hcons : ∀ vs, h.addAll (u :: vs) = (h.file u).addAll vs := fun vs => by
      rw [addAll, List.foldl_cons, hok, addAll]
    refine ⟨fun pre v post hsplit => ?_, fun v hv => ?_, fun n v => ?_⟩
    · rcases List.append_eq_cons_iff.mp hsplit.symm with ⟨rfl, he⟩ | ⟨pre, rfl, he⟩
      · obtain ⟨rfl, -⟩ := List.cons.inj he
        rw [addAll, List.foldl_nil, hok]
      · rw [hcons]
        exact hadds pre v post he
    · rw [hcons]
      cases us with
      | nil =>
        obtain rfl := Option.some.inj hv
        exact hheads
      | cons w us => exact hlast v (by rwa [List.getLast?_cons_cons] at hv)
    · rw [hcons, hall, hheld, List.mem_cons, or_and_right, or_assoc]

/-- What is hashed for the utterances that a history holds and for those recorded onto it. -/
def hashedWith (h : History) (entries : List JournalEntry) (options : IngestOptions) : Set Bytes :=
  {b | ∃ u, ((∃ n : Bytes, h.byHash[n]? = some u) ∨
    ∃ report, (h.record entries options).1 = .ok report ∧ u ∈ report.recorded) ∧ b = u.hashed}

/-- A journal that was turned into history without loss. -/
structure Recorded (h : History) (options : IngestOptions) (entries : List JournalEntry)
    (report : IngestReport) (after : History) : Prop where
  /-- The pure entries of the slice that is versioned are recorded, in order, -/
  recorded : List.Forall₂ (Records options) (entries.filter (Recordable ·)) report.recorded
  /-- the others are handed back, in order, -/
  skipped : report.skipped.map Skipped.entry = entries.filter (¬Recordable ·)
  /-- with the reason. -/
  why : ∀ s ∈ report.skipped, skipOf s.entry = some s.why
  /-- The first utterance follows the heads, -/
  first : ∀ u, report.recorded.head? = some u → u.parents = h.heads
  /-- and each other one the one before it. -/
  next : report.recorded.IsChain fun u v => v.parents = [u.hash]
  /-- Each one is new when it is added. -/
  new : ∀ pre u post, report.recorded = pre ++ u :: post → ((h.addAll pre).add u).1 = .ok
  /-- What was held and what was recorded is held. -/
  held : ∀ n u, after.byHash[n]? = some u ↔
    h.byHash[n]? = some u ∨ u ∈ report.recorded ∧ u.hash = n
  /-- The last one is the only head, -/
  last : ∀ u, report.recorded.getLast? = some u → after.heads = [u.hash]
  /-- and without one nothing changed. -/
  none : report.recorded = [] → after = h

theorem isChain_of_chainFrom : ∀ {us : List Utterance} {ps : List Bytes}, ChainFrom ps us →
    us.IsChain fun u v => v.parents = [u.hash]
  | [], _, _ => .nil
  | [_], _, _ => .singleton _
  | u :: v :: us, ps, h => by
    refine .cons_cons ?_ (isChain_of_chainFrom h.2.2)
    rw [h.2.2.2.1, sortUnique_singleton]

/-- The names of the heads are text, and they are listed sorted. -/
theorem Filed.heads_text (hf : h.Filed) : ∀ p ∈ sortUnique h.heads, validUtf8 p = true := by
  intro p hp
  have hheld := ((mem_heads hf).mp (mem_sortUnique.mp hp)).1
  obtain ⟨u, hu⟩ := Option.isSome_iff_exists.mp (Std.ExtTreeMap.isSome_getElem?_iff_mem.mpr hheld)
  obtain ⟨rfl, hw⟩ := hf.named hu
  exact hw.text

/-- **A journal becomes history without loss.** When the strings that enter a name are text,
the pure entries of the slice that is versioned become a chain on the heads of which every
utterance is new, and the other entries are handed back; when one of those strings is not
text, nothing is added. -/
theorem recorded_without_loss (h : History) (entries : List JournalEntry)
    (options : IngestOptions) (hh : h.Reachable)
    (hsha : Set.InjOn sha256 (h.hashedWith entries options)) :
    ((∀ e ∈ entries, Recordable e → Encodable options e) →
      ∃ report, (h.record entries options).1 = .ok report ∧
        Recorded h options entries report (h.record entries options).2) ∧
      ((∃ e ∈ entries, Recordable e ∧ ¬Encodable options e) →
        (∃ err, (h.record entries options).1 = .error err) ∧ (h.record entries options).2 = h) := by
  have hf := hh.filed
  have hsorted : sortUnique h.heads = h.heads := by
    rw [heads_eq_sortUnique, sortUnique_sortUnique]
  constructor
  · intro hencodable
    obtain ⟨report, hreport, hi⟩ := ingestFrom_ok options entries _ hf.heads_text hencodable
    have hrecord : h.record entries options = (.ok report, h.addAll report.recorded) := by
      rw [record, ingest, hreport]
    rw [hsorted] at hi
    obtain ⟨hnew, hlast, hheld⟩ := addAll_chain hsha report.recorded hf
      (fun n v hv => ⟨v, Or.inl ⟨n, hv⟩, rfl⟩)
      (fun u hu => ⟨u, Or.inr ⟨report, by rw [hrecord], hu⟩, rfl⟩) hi.chain
    refine ⟨report, by rw [hrecord], ?_⟩
    rw [hrecord]
    refine ⟨hi.recorded, hi.skipped, hi.why, fun u hu => ?_, isChain_of_chainFrom hi.chain, hnew,
      hheld, hlast, fun hnone => by rw [hnone]; rfl⟩
    obtain ⟨us, hus⟩ := List.head?_eq_some_iff.mp hu
    have hchain := hi.chain
    rw [hus] at hchain
    rw [hchain.2.1, hsorted]
  · intro hbad
    obtain ⟨err, herr⟩ := ingestFrom_error options entries (sortUnique h.heads) hbad
    have hrecord : h.record entries options = (.error err, h) := by
      rw [record, ingest, herr]
    exact ⟨⟨err, by rw [hrecord]⟩, by rw [hrecord]⟩

/-- A deployment of what is not text, which is left out, and a command that is recorded. -/
def deployedFirst : List JournalEntry :=
  [{ command := [0xFF], verb := lit "deploy", slice := lit "host" },
    { command := lit "rune new a", verb := lit "rune", pure := true, slice := lit "undo" }]

theorem recorded_without_loss_deployedFirst : ∃ report,
    (({} : History).record deployedFirst {}).1 = .ok report ∧
      Recorded {} {} deployedFirst report (({} : History).record deployedFirst {}).2 := by
  have htext : ∀ e ∈ deployedFirst, Recordable e → Encodable {} e := by
    have hcommand : validUtf8 (lit "rune new a") = true ∧ validUtf8 (lit "rune") = true := by
      decide +kernel
    intro e he hrec
    simp only [deployedFirst, List.mem_cons, List.not_mem_nil, or_false] at he
    obtain rfl | rfl := he
    · exact absurd hrec.1 (by simp)
    · exact ⟨hcommand.1, hcommand.2, by simp, by simp, rfl⟩
  refine (recorded_without_loss {} deployedFirst {} .refl ?_).1 htext
  -- there is one payload only
  obtain ⟨report, hreport, hi⟩ := ingestFrom_ok {} deployedFirst _ filed_empty.heads_text htext
  have hrecord : (({} : History).record deployedFirst {}).1 = .ok report := by
    rw [record, ingest, hreport]
  obtain ⟨u, hu⟩ : ∃ u, report.recorded = [u] := List.length_eq_one_iff.mp
    (hi.recorded.length_eq.symm.trans (by decide))
  have honly : ∀ b ∈ ({} : History).hashedWith deployedFirst {}, b = u.hashed := by
    rintro b ⟨v, ⟨n, hn⟩ | ⟨report', hreport', hv⟩, rfl⟩
    · simp at hn
    · obtain rfl := Except.ok.inj (hrecord.symm.trans hreport')
      rw [hu, List.mem_singleton] at hv
      rw [hv]
  exact fun b hb c hc _ => (honly b hb).trans (honly c hc).symm

/-- What is left out is not encoded, so that something is added although a string of the
journal is not text. -/
theorem left_out_unread : (∃ e ∈ deployedFirst, validUtf8 e.command = false) ∧
    (({} : History).record deployedFirst {}).2 ≠ {} := by
  have hsize : (({} : History).record deployedFirst {}).2.byHash.size = 1 := by decide +kernel
  refine ⟨⟨_, List.mem_cons_self, by decide +kernel⟩, fun h => ?_⟩
  rw [h] at hsize
  simp at hsize

end History

end VoidPalabra.Utterances
