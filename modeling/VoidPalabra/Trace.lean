import VoidPalabra.Replica
import VoidPalabra.Store

/-!
# What an edit leaves behind

Whatever an edit does, and whether it ends well or throws, the working copy and the
delta are extended by the same facts, every tag that is new was minted in this edit,
and a tag is newly retired only where its write was live or where a removal saw it.
-/

namespace VoidPalabra

/-- A store adds a value under a tag. -/
def Act.Adds (act : Act) (t : Tag) (v : Bytes) : Prop :=
  act.before.adds[t]? = none ∧ act.after.adds[t]? = some v

/-- A store retires a tag that was not retired there before. -/
def Act.Retires (act : Act) (t : Tag) : Prop :=
  t ∉ act.before.removes ∧ t ∈ act.after.removes

/-- A store means to end a value at its place: it overwrites or clears what is there, or
it drops that element. -/
def Act.Ends (act : Act) (v : Bytes) : Prop :=
  match act.intent with
  | .add => False
  | .overwrite => True
  | .clear => True
  | .update dropped => v ∈ dropped

/-- What a list of stores says. -/
def said (log : List Act) : Set Fact :=
  {f | ∃ act ∈ log, f ∈ changeFacts act.place act.before act.after}

theorem said_nil : said [] = ∅ := by
  ext f
  simp [said]

theorem said_concat (log : List Act) (act : Act) :
    said (log ++ [act]) = said log ∪ changeFacts act.place act.before act.after := by
  ext f
  simp [said, or_and_right, exists_or]

/-- A store as it may happen in a document that says at least what is said after it. -/
structure Act.Sound (act : Act) (work : Json) : Prop where
  /-- It happens at a set. -/
  place : IsSetPath act.place
  /-- It was made in a document. -/
  doc : Shaped act.doc
  /-- What that said is still said. -/
  doc_facts : facts act.doc ⊆ facts work
  /-- What it saw was there. -/
  saw : act.before = setAt act.doc act.place
  /-- It keeps what is there. -/
  extends_ : act.before.Extends act.after
  /-- It retires every write it saw of a value that it means to end. -/
  ends : ∀ (t : Tag) (v : Bytes), act.before.adds[t]? = some v → act.Ends v → t ∈ act.after.removes
  /-- What it retires was live there and meant to end, or is a live tag of another set that
  a removal saw. -/
  retires : ∀ t, act.Retires t →
    (∃ v, act.before.IsLive t v ∧ act.Ends v) ∨
      act.intent = .clear ∧ ∃ base q v, act.place = base ++ [Key.present] ∧ base <+: q ∧ q ≠ act.place ∧
        (setAt act.doc q).IsLive t v
  /-- A removal records every live tag beneath what it removes. -/
  removal : act.intent = .clear → ∀ base, act.place = base ++ [Key.present] → ∀ q t v, base <+: q →
    q ≠ act.place → (setAt act.doc q).IsLive t v → t ∈ act.after.removes
  /-- A presence is made or removed, and nothing else. -/
  presence : ∀ base, act.place = base ++ [Key.present] → act.intent = .add ∨ act.intent = .clear
  /-- What clears something retires something. -/
  clears : act.intent = .clear → ∃ t, act.Retires t

/-- A store stays sound in a document that says more. -/
theorem Act.Sound.mono {act : Act} {d d' : Json} (h : act.Sound d) (hs : facts d ⊆ facts d') :
    act.Sound d' :=
  { h with doc_facts := h.doc_facts.trans hs }

/-- What it saw is in the document. -/
theorem Act.Sound.saw_adds {act : Act} {d : Json} (h : act.Sound d) {t : Tag} {v : Bytes}
    (hv : act.before.adds[t]? = some v) : .add act.place t v ∈ facts d := by
  rw [h.saw] at hv
  exact h.doc_facts (show Fact.add act.place t v ∈ facts act.doc from hv)

/-- The delta an edit starts with. -/
def emptyDelta : Json := .obj [(Key.palabra, .num Double.one)]

/-- The editor of an author that started from a document and a counter, at any moment. -/
structure Inv (a : Author) (d₀ : Json) (i₀ : ℕ) (e : Editor) : Prop where
  /-- The working copy is a document. -/
  work : Shaped e.work
  /-- The delta is a document. -/
  delta : Shaped e.delta
  /-- The counter only grows. -/
  issued : i₀ ≤ e.issued
  /-- The document it started from holds no tag past its counter. -/
  fresh : ∀ p n v, .add p (mintTag a.id n) v ∈ facts d₀ → n ≤ i₀
  /-- Nothing a fresh delta says is missing from the document. -/
  start : facts emptyDelta ⊆ facts d₀
  /-- The working copy says what the stores said. -/
  work_facts : facts e.work = facts d₀ ∪ said e.log
  /-- So does the delta. -/
  delta_facts : facts e.delta = facts emptyDelta ∪ said e.log
  /-- Every store is sound. -/
  sound : ∀ act ∈ e.log, act.Sound e.work
  /-- New tags were minted in this edit. -/
  minted : ∀ act ∈ e.log, ∀ t v, act.Adds t v →
    ∃ n, i₀ < n ∧ n ≤ e.issued ∧ t = mintTag a.id n
  /-- A new tag names one value in one set. -/
  unique : ∀ act ∈ e.log, ∀ act' ∈ e.log, ∀ t v v', act.Adds t v → act'.Adds t v' →
    act.place = act'.place ∧ v = v'
  /-- The stores are counted. -/
  changes : e.changes = e.log.length

theorem mintTag_injective {id : CString} {m n : ℕ} (h : mintTag id m = mintTag id n) : m = n := by
  have hb := congrArg CString.bytes h
  simp only [mintTag, List.append_cancel_left_eq, List.cons.injEq, true_and] at hb
  exact decimal_injective hb

section

variable {a : Author} {d₀ : Json} {i₀ : ℕ} {e : Editor}

/-- What the delta says, the document says. -/
theorem Inv.delta_sub (h : Inv a d₀ i₀ e) : facts e.delta ⊆ facts e.work := by
  rw [h.delta_facts, h.work_facts]
  exact Set.union_subset_union_left _ h.start

/-- No tag past the counter is in the document. -/
theorem Inv.le_issued (h : Inv a d₀ i₀ e) {p : Path} {n : ℕ} {v : Bytes}
    (hf : .add p (mintTag a.id n) v ∈ facts e.work) : n ≤ e.issued := by
  rw [h.work_facts] at hf
  rcases hf with hf | ⟨act, hact, -, hnone, hsome⟩
  · exact (h.fresh p n v hf).trans h.issued
  · obtain ⟨m, -, hm, he⟩ := h.minted act hact _ _ ⟨hnone, hsome⟩
    rwa [mintTag_injective he]

/-- A tag past the counter is not in any set. -/
theorem Inv.fresh_tag (h : Inv a d₀ i₀ e) (p : Path) {n : ℕ} (hn : e.issued < n) :
    (setAt e.work p).adds[mintTag a.id n]? = none := by
  cases hv : (setAt e.work p).adds[mintTag a.id n]? with
  | none => rfl
  | some v =>
    have := h.le_issued (p := p) (v := v) hv
    omega

/-- The counter may move on. -/
theorem Inv.burn (h : Inv a d₀ i₀ e) {j : ℕ} (hj : e.issued ≤ j) :
    Inv a d₀ i₀ { e with issued := j } where
  work := h.work
  delta := h.delta
  issued := h.issued.trans hj
  fresh := h.fresh
  start := h.start
  work_facts := h.work_facts
  delta_facts := h.delta_facts
  sound := h.sound
  minted := fun act hact t v ht => by
    obtain ⟨n, h1, h2, h3⟩ := h.minted act hact t v ht
    exact ⟨n, h1, h2.trans hj, h3⟩
  unique := h.unique
  changes := h.changes

/-- A document says about a set of the delta what the working copy says. -/
theorem Inv.delta_extends (h : Inv a d₀ i₀ e) (p : Path) :
    (setAt e.delta p).Extends (setAt e.work p) where
  adds := fun t v hv => h.delta_sub (show Fact.add p t v ∈ facts e.delta from hv)
  removes := fun t ht => h.delta_sub (show Fact.retire p t ∈ facts e.delta from ht)

/-- A sound store at the set as it is keeps the invariant. -/
theorem Inv.store (h : Inv a d₀ i₀ e) {p : Path} {after : OrSet} {intent : Intent} {j : ℕ}
    (hj : e.issued ≤ j) (hp : IsSetPath p) (hn : after.Named)
    (hx : (setAt e.work p).Extends after)
    (hnew : ∀ (t : Tag) (v : Bytes), (setAt e.work p).adds[t]? = none → after.adds[t]? = some v →
      ∃ n, e.issued < n ∧ n ≤ j ∧ t = mintTag a.id n)
    (hends : ∀ (t : Tag) (v : Bytes), (setAt e.work p).adds[t]? = some v →
      Act.Ends ⟨p, setAt e.work p, after, intent, e.work⟩ v → t ∈ after.removes)
    (hret : ∀ t ∈ after.removes, t ∉ (setAt e.work p).removes →
      (∃ v, (setAt e.work p).IsLive t v ∧ Act.Ends ⟨p, setAt e.work p, after, intent, e.work⟩ v) ∨
        intent = .clear ∧ ∃ base q v, p = base ++ [Key.present] ∧ base <+: q ∧ q ≠ p ∧
          (setAt e.work q).IsLive t v)
    (hrem : intent = .clear → ∀ base, p = base ++ [Key.present] → ∀ q t v, base <+: q → q ≠ p →
      (setAt e.work q).IsLive t v → t ∈ after.removes)
    (hpres : ∀ base, p = base ++ [Key.present] → intent = .add ∨ intent = .clear)
    (hclear : intent = .clear → after.adds = (setAt e.work p).adds) :
    Inv a d₀ i₀ (({ e with issued := j } : Editor).store p (setAt e.work p) after intent) := by
  unfold Editor.store
  split
  · exact h.burn hj
  · rename_i hchanged
    have hload : recorded (atPath e.delta p) ((setAt e.work p).diff after) =
        (setAt e.delta p).join ((setAt e.work p).diff after) := by
      rw [← orsetFromJson_atPath h.delta hp]
      cases atPath e.delta p with
      | none => exact (OrSet.empty_join _).symm
      | some existing => rfl
    have hrn : ((setAt e.delta p).join ((setAt e.work p).diff after)).Named :=
      (named_setAt _ _).join hn.diff
    have hde := h.delta_extends p
    have hwork := facts_putAt h.work hp hn hx
    have hdelta := facts_putAt h.delta hp hrn (extends_recorded hde)
    rw [changeFacts_recorded hde] at hdelta
    have hsub : facts e.work ⊆ facts (putAt p (orsetToJson after) e.work) := by
      rw [hwork]
      exact Set.subset_union_left
    have hold : ∀ act ∈ e.log, ∀ t v, act.Adds t v →
        ∀ w, Act.Adds ⟨p, setAt e.work p, after, intent, e.work⟩ t w → False := by
      intro act hact t v ht w ⟨hw0, hw⟩
      obtain ⟨m, -, hm, rfl⟩ := h.minted act hact t v ht
      obtain ⟨n, hn', -, he⟩ := hnew _ w hw0 hw
      have := mintTag_injective he
      omega
    dsimp only
    rw [hload]
    constructor
    · exact h.work.putAt hp hn
    · exact h.delta.putAt hp hrn
    · exact h.issued.trans hj
    · exact h.fresh
    · exact h.start
    · rw [hwork, h.work_facts, said_concat, Set.union_assoc]
    · rw [hdelta, h.delta_facts, said_concat, Set.union_assoc]
    · intro act hact
      rcases List.mem_append.mp hact with hact | hact
      · exact (h.sound act hact).mono hsub
      · rw [List.mem_singleton] at hact
        subst hact
        exact {
          place := hp
          doc := h.work
          doc_facts := hsub
          saw := rfl
          extends_ := hx
          ends := hends
          retires := fun t ht => hret t ht.2 ht.1
          removal := hrem
          presence := hpres
          clears := fun hc => by
            by_contra hnone
            push Not at hnone
            refine hchanged (OrSet.ext_tags (fun t => by rw [hclear hc]) fun t => ⟨hx.removes t, fun ht => ?_⟩)
            by_contra hnot
            exact hnone t ⟨hnot, ht⟩ }
    · intro act hact t v ht
      rcases List.mem_append.mp hact with hact | hact
      · obtain ⟨n, h1, h2, h3⟩ := h.minted act hact t v ht
        exact ⟨n, h1, h2.trans hj, h3⟩
      · rw [List.mem_singleton] at hact
        subst hact
        obtain ⟨n, h1, h2, h3⟩ := hnew t v ht.1 ht.2
        exact ⟨n, h.issued.trans_lt h1, h2, h3⟩
    · intro act hact act' hact' t v v' ht ht'
      rcases List.mem_append.mp hact with hact | hact <;>
        rcases List.mem_append.mp hact' with hact' | hact'
      · exact h.unique act hact act' hact' t v v' ht ht'
      · rw [List.mem_singleton] at hact'
        subst hact'
        exact (hold act hact t v ht v' ht').elim
      · rw [List.mem_singleton] at hact
        subst hact
        exact (hold act' hact' t v' ht' v ht).elim
      · rw [List.mem_singleton] at hact hact'
        subst hact hact'
        exact ⟨rfl, Option.some.inj (ht.2.symm.trans ht'.2)⟩
    · rw [List.length_append, h.changes]
      rfl

end

end VoidPalabra
