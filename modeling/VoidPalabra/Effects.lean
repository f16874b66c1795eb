import VoidPalabra.Reading

/-!
# Where an edit stores something

An operation of the editor adds its stores to the log, and each of them at one of the
places that the operation is about. What is beneath a place that none of the stores is
at or beneath stays as it was.
-/

namespace VoidPalabra

/-- Every store that a step of an edit makes is at one of these places. -/
def Logs (S : Path → Prop) {α : Type} (m : EditM α) : Prop :=
  ∀ e, ∃ l, (m e).2.log = e.log ++ l ∧ ∀ act ∈ l, S act.place

section

variable {S : Path → Prop} {a : Author}

theorem logs_same {α : Type} {m : EditM α} (h : ∀ e, (m e).2.log = e.log) : Logs S m :=
  fun e => ⟨[], by rw [h, List.append_nil], fun act hact => (nomatch hact)⟩

theorem logs_pure {α : Type} (x : α) : Logs S (pure x : EditM α) := logs_same fun _ => rfl

theorem logs_lift {α : Type} (x : Except CanonicalError α) : Logs S (EditM.lift x) :=
  logs_same fun _ => rfl

theorem logs_refuse {α : Type} (what : Bytes) : Logs S (EditM.refuse what : EditM α) :=
  logs_same fun _ => rfl

/-- One step after another. -/
theorem Logs.bind {α β : Type} {x : EditM α} {f : α → EditM β} (hx : Logs S x)
    (hf : ∀ y, Logs S (f y)) : Logs S (x >>= f) := by
  intro e
  obtain ⟨l, hl, hs⟩ := hx e
  rw [EditM.bind_apply]
  generalize hxe : x e = r at hl
  obtain ⟨c | y, e'⟩ := r
  · exact ⟨l, hl, hs⟩
  · obtain ⟨l', hl', hs'⟩ := hf y e'
    refine ⟨l ++ l', ?_, fun act hact => ?_⟩
    · change ((f y) e').2.log = _
      rw [hl', ← List.append_assoc]
      exact congrArg (· ++ l') hl
    · exact (List.mem_append.mp hact).elim (hs act) (hs' act)

/-- A loop of steps. -/
theorem logs_each {α : Type} {f : α → EditM Unit} {xs : List α} (h : ∀ x ∈ xs, Logs S (f x)) :
    Logs S (EditM.each f xs) := by
  induction xs with
  | nil => exact logs_pure ()
  | cons x xs ih =>
    refine (h x List.mem_cons_self).bind fun _ => ?_
    exact ih fun y hy => h y (List.mem_cons_of_mem _ hy)

theorem Logs.mono {T : Path → Prop} {α : Type} {m : EditM α} (h : Logs S m) (hS : ∀ p, S p → T p) :
    Logs T m := fun e => by
  obtain ⟨l, hl, hs⟩ := h e
  exact ⟨l, hl, fun act hact => hS _ (hs act hact)⟩

/-- A step that first looks at the editor. -/
theorem logs_current_bind {α : Type} {f : Editor → EditM α} (h : ∀ e, Logs S (f e)) :
    Logs S (EditM.current >>= f) := fun e => h e e

/-- A store is at its place. -/
theorem log_store (e : Editor) (p : Path) (before after : OrSet) (intent : Intent) :
    ∃ l, (e.store p before after intent).log = e.log ++ l ∧ ∀ act ∈ l, act.place = p := by
  unfold Editor.store
  split
  · exact ⟨[], (List.append_nil _).symm, fun act hact => (nomatch hact)⟩
  · exact ⟨_, rfl, fun act hact => by rw [List.mem_singleton.mp hact]⟩

theorem logs_syncRegister (p : Path) (field : CString) (value : Option Bytes) :
    Logs (· = p) (syncRegister a p field value) := by
  intro e
  cases value with
  | some v =>
    rw [syncRegister_some]
    dsimp only
    split
    · exact ⟨[], (List.append_nil _).symm, fun act hact => (nomatch hact)⟩
    · exact log_store ..
  | none =>
    rw [syncRegister_none]
    dsimp only
    split
    · exact ⟨[], (List.append_nil _).symm, fun act hact => (nomatch hact)⟩
    · exact log_store ..

theorem logs_syncSet (p : Path) (want : List Bytes) : Logs (· = p) (syncSet a p want) := by
  intro e
  obtain ⟨s, j, he, -⟩ := addWanted_spec a (e.load p).values want (e.load p) e
  rw [syncSet_apply he]
  exact log_store ..

theorem logs_makePresent (p : Path) (value : Bytes) :
    Logs (· = p ++ [Key.present]) (makePresent a p value) := by
  intro e
  rw [makePresent_apply]
  dsimp only
  split
  · exact log_store ..
  · exact ⟨[], (List.append_nil _).symm, fun act hact => (nomatch hact)⟩

theorem logs_removeThing (p : Path) (evenIfDead : Bool) :
    Logs (· = p ++ [Key.present]) (removeThing p evenIfDead) := by
  intro e
  rw [removeThing_apply]
  cases e.node p with
  | none => exact ⟨[], (List.append_nil _).symm, fun act hact => (nomatch hact)⟩
  | some n =>
    dsimp only
    split
    · exact ⟨[], (List.append_nil _).symm, fun act hact => (nomatch hact)⟩
    · exact log_store ..

theorem logs_fixedField (fields : Path) (name : CString) (v : Option Json) :
    Logs (· = fields ++ [name]) (fixedField a fields name v) :=
  (logs_lift _).bind fun _ => logs_syncRegister _ _ _

theorem logs_optionalField (fields : Path) (name : CString) (v : Option Json) :
    Logs (· = fields ++ [name]) (optionalField a fields name v) := by
  unfold optionalField
  split
  · exact (logs_lift _).bind fun _ => logs_syncRegister _ _ _
  · exact logs_syncRegister _ _ _

/-- A keyed object's stores are at registers that start with the prefix. -/
theorem logs_keyedFields (fields : Path) (pre : CString) (object : List (CString × Json)) :
    Logs (fun p => ∃ f : CString, f.startsWith pre = true ∧ p = fields ++ [f])
      (keyedFields a fields pre object) := by
  refine (logs_each fun m _ => ?_).bind fun _ => logs_current_bind fun e => logs_each fun name hname => ?_
  · unfold keyedField
    split
    · exact logs_pure ()
    · refine (logs_lift _).bind fun _ => (logs_syncRegister _ _ _).mono fun p hp => ?_
      exact ⟨pre ++ m.1, CString.startsWith_append .., hp⟩
  · obtain ⟨m, hm, rfl⟩ := List.mem_map.mp (List.mem_of_mem_filter hname)
    have hpre := (List.mem_filter.mp hm).2
    rw [Bool.and_eq_true] at hpre
    exact (logs_syncRegister _ _ _).mono fun p hp => ⟨m.1, hpre.1, hp⟩

theorem logs_syncValues (p : Path) (values : List Json) : Logs (· = p) (syncValues a p values) :=
  (logs_lift _).bind fun _ => logs_syncSet _ _

/-- A rune's stores are beneath it. -/
theorem logs_observeRune (base : Path) (r : Json) : Logs (base <+: ·) (observeRune a base r) := by
  have hfields : ∀ name p, p = base ++ [Key.fields] ++ [name] → base <+: p := by
    rintro name - rfl
    rw [List.append_assoc]
    exact List.prefix_append ..
  have hfixed : ∀ f v, Logs (base <+: ·) (fixedField a (base ++ [Key.fields]) f v) :=
    fun f v => (logs_fixedField _ _ _).mono (hfields f)
  refine ((logs_makePresent _ _).mono fun p hp => ⟨_, hp.symm⟩).bind fun _ => ?_
  refine (hfixed _ _).bind fun _ => (hfixed _ _).bind fun _ => ?_
  refine (logs_each fun k _ => hfixed _ _).bind fun _ => (hfixed _ _).bind fun _ => ?_
  refine ((logs_optionalField _ _ _).mono (hfields _)).bind fun _ => ?_
  dsimp only
  split
  · exact logs_refuse _
  · refine ((logs_keyedFields _ _ _).mono fun p ⟨f, _, hp⟩ => hfields f p hp).bind fun _ => ?_
    exact (logs_syncValues _ _).mono fun p hp => ⟨_, hp.symm⟩

theorem logs_observeGlyph (base : Path) (descriptor : Bytes) :
    Logs (base <+: ·) (observeGlyph a base descriptor) :=
  ((logs_makePresent _ _).mono fun _ hp => ⟨_, hp.symm⟩).bind fun _ =>
    (logs_syncRegister _ _ _).mono fun _ hp => ⟨_, hp.symm⟩

/-- What is removed at the end of a level is shown, and not among what was observed. -/
theorem log_removeGone (base : Path) (observed : CString → Bool) (e : Editor) :
    ∃ l, (removeGone base observed e).2.log = e.log ++ l ∧ ∀ act ∈ l, ∃ name,
      observed name = false ∧ e.live (base ++ [name]) = true ∧
        act.place = base ++ [name] ++ [Key.present] := by
  refine logs_each (S := fun p => ∃ name, observed name = false ∧ e.live (base ++ [name]) = true ∧
    p = base ++ [name] ++ [Key.present]) (fun name hname => ?_) e
  obtain ⟨m, hm, rfl⟩ := List.mem_map.mp hname
  have hgone := (List.mem_filter.mp hm).2
  rw [Bool.and_eq_true, Bool.not_eq_true'] at hgone
  exact (logs_removeThing _ _).mono fun p hp => ⟨m.1, hgone.1, hgone.2, hp⟩

/-- A mantle's stores are beneath it. -/
theorem logs_observeMantle (base : Path) (m : Json) : Logs (base <+: ·) (observeMantle a base m) := by
  have hfields : ∀ name p, p = base ++ [Key.fields] ++ [name] → base <+: p := by
    rintro name - rfl
    rw [List.append_assoc]
    exact List.prefix_append ..
  have hfixed : ∀ f v, Logs (base <+: ·) (fixedField a (base ++ [Key.fields]) f v) :=
    fun f v => (logs_fixedField _ _ _).mono (hfields f)
  refine ((logs_makePresent _ _).mono fun p hp => ⟨_, hp.symm⟩).bind fun _ => ?_
  refine (hfixed _ _).bind fun _ => (hfixed _ _).bind fun _ => ?_
  dsimp only
  split
  · exact logs_refuse _
  · refine ((logs_keyedFields _ _ _).mono fun p ⟨f, _, hp⟩ => hfields f p hp).bind fun _ => ?_
    refine ((logs_optionalField _ _ _).mono (hfields _)).bind fun _ => (logs_lift _).bind fun runes => ?_
    refine (logs_each fun r _ => (logs_observeRune _ _).mono fun p hp => ?_).bind fun _ => ?_
    · exact (List.prefix_append ..).trans hp
    · refine Logs.bind (fun e => ?_) fun _ => (logs_syncValues _ _).mono fun p hp => ⟨_, hp.symm⟩
      obtain ⟨l, hl, hs⟩ := log_removeGone (base ++ [Key.runes]) runes.contains e
      refine ⟨l, hl, fun act hact => ?_⟩
      obtain ⟨name, -, -, hp⟩ := hs act hact
      rw [hp, List.append_assoc, List.append_assoc]
      exact List.prefix_append ..

end

/-! ### What stays as it was -/

/-- What two documents say beneath a path is the same. -/
structure Unchanged (x : Path) (d d' : Json) : Prop where
  /-- The sets. -/
  sets : ∀ q, x <+: q → setAt d' q = setAt d q
  /-- The nodes. -/
  nodes : ∀ q, x <+: q → (HasNode d' q ↔ HasNode d q)

theorem Unchanged.refl (x : Path) (d : Json) : Unchanged x d d := ⟨fun _ _ => rfl, fun _ _ => Iff.rfl⟩

theorem Unchanged.trans {x : Path} {d d' d'' : Json} (h : Unchanged x d d') (h' : Unchanged x d' d'') :
    Unchanged x d d'' where
  sets := fun q hq => (h'.sets q hq).trans (h.sets q hq)
  nodes := fun q hq => (h'.nodes q hq).trans (h.nodes q hq)

/-- Where nothing can stand, nothing changes. -/
theorem Unchanged.of_kind_none {x : Path} {d d' : Json} (hx : ∀ q, x <+: q → kindOf q = none)
    (h : Shaped d) (h' : Shaped d') : Unchanged x d d' where
  sets := fun q hq => by
    rw [setAt_eq_empty (h.nodeAt_of_kind_none (hx q hq)), setAt_eq_empty (h'.nodeAt_of_kind_none (hx q hq))]
  nodes := fun q hq => by
    rw [HasNode, HasNode, h.nodeAt_of_kind_none (hx q hq), h'.nodeAt_of_kind_none (hx q hq)]

theorem Unchanged.shownAt_eq {x : Path} {d d' : Json} (h : Unchanged x d d') :
    shownAt d' x = shownAt d x := by
  rw [shownAt, shownAt, h.sets _ (List.prefix_append ..)]

section

variable {a : Author} {d₀ : Json} {i₀ : ℕ}

/-- Stores that are elsewhere change nothing beneath a path. -/
theorem Inv.unchanged {e e' : Editor} (h : Inv a d₀ i₀ e) (h' : Inv a d₀ i₀ e') {l : List Act}
    (hl : e'.log = e.log ++ l) {x : Path} (hx : ∀ act ∈ l, ¬x <+: act.place) :
    Unchanged x e.work e'.work := by
  have hsaid : ∀ f, f ∈ said e'.log ↔ f ∈ said e.log ∨ f ∈ said l := by
    intro f
    simp only [said, hl, Set.mem_ofPred_eq, List.mem_append, or_and_right, exists_or]
  have hfacts : ∀ f, f ∉ said l → (f ∈ facts e'.work ↔ f ∈ facts e.work) := by
    intro f hf
    rw [h.work_facts, h'.work_facts, Set.mem_union, Set.mem_union, hsaid, or_iff_left hf]
  constructor
  · intro q hq
    refine OrSet.ext_tags (fun t => Option.ext fun v => ?_) fun t => ?_
    · refine hfacts (.add q t v) ?_
      rintro ⟨act, hact, he, -⟩
      exact hx act hact (he ▸ hq)
    · refine hfacts (.retire q t) ?_
      rintro ⟨act, hact, he, -⟩
      exact hx act hact (he ▸ hq)
  · intro q hq
    refine hfacts (.node q) ?_
    rintro ⟨act, hact, he⟩
    exact hx act hact (hq.trans he)

/-- An edit keeps the invariant, and leaves what is beneath a path as it was if it is not
shown there. -/
def Spares (a : Author) (d₀ : Json) (i₀ : ℕ) (x : Path) {α : Type} (m : EditM α) : Prop :=
  ∀ e, Inv a d₀ i₀ e → shownAt e.work x = false →
    Inv a d₀ i₀ (m e).2 ∧ Unchanged x e.work (m e).2.work

variable {x : Path}

/-- What stores elsewhere only spares the path. -/
theorem Keeps.spares {S : Path → Prop} {α : Type} {m : EditM α} (h : Keeps a d₀ i₀ m) (hl : Logs S m)
    (hx : ∀ p, S p → ¬x <+: p) : Spares a d₀ i₀ x m := by
  intro e he _
  obtain ⟨l, hlog, hs⟩ := hl e
  exact ⟨h e he, he.unchanged (h e he) hlog fun act hact => hx _ (hs act hact)⟩

theorem Spares.bind {α β : Type} {m : EditM α} {f : α → EditM β} (hm : Spares a d₀ i₀ x m)
    (hf : ∀ y, Spares a d₀ i₀ x (f y)) : Spares a d₀ i₀ x (m >>= f) := by
  intro e he hs
  obtain ⟨h1, h2⟩ := hm e he hs
  rw [EditM.bind_apply]
  generalize m e = r at h1 h2
  obtain ⟨c | y, e'⟩ := r
  · exact ⟨h1, h2⟩
  · obtain ⟨h3, h4⟩ := hf y e' h1 (by rw [h2.shownAt_eq, hs])
    exact ⟨h3, h2.trans h4⟩

theorem spares_each {α : Type} {f : α → EditM Unit} {xs : List α}
    (h : ∀ y ∈ xs, Spares a d₀ i₀ x (f y)) : Spares a d₀ i₀ x (EditM.each f xs) := by
  induction xs with
  | nil => exact fun e he _ => ⟨he, .refl x _⟩
  | cons y xs ih =>
    refine (h y List.mem_cons_self).bind fun _ => ?_
    exact ih fun z hz => h z (List.mem_cons_of_mem _ hz)

theorem spares_lift_bind {α β : Type} {y : Except CanonicalError α} {f : α → EditM β}
    (h : ∀ z, y = .ok z → Spares a d₀ i₀ x (f z)) : Spares a d₀ i₀ x (EditM.lift y >>= f) := by
  intro e he hs
  cases y with
  | ok z => exact h z rfl e he hs
  | error c => exact ⟨he, .refl x _⟩

theorem spares_refuse {α : Type} (what : Bytes) : Spares a d₀ i₀ x (EditM.refuse what : EditM α) :=
  fun _ he _ => ⟨he, .refl x _⟩

/-- Paths of which neither is above the other have nothing beneath both. -/
theorem not_prefix_of_apart {b x p : Path} (h1 : ¬b <+: x) (h2 : ¬x <+: b) (hp : b <+: p) : ¬x <+: p :=
  fun hx => (List.prefix_or_prefix_of_prefix hp hx).elim h1 h2

/-- What is not shown is not removed at the end of a level. -/
theorem spares_removeGone {base : Path} (hb : NamedAt base) (observed : CString → Bool)
    (hx : IsSetPath (x ++ [Key.present]))
    (hlevel : ∀ name, x <+: base ++ [name] ++ [Key.present] → x = base ++ [name]) :
    Spares a d₀ i₀ x (removeGone base observed) := by
  intro e he hs
  obtain ⟨l, hl, hacts⟩ := log_removeGone base observed e
  have he' := keeps_removeGone hb observed e he
  refine ⟨he', he.unchanged he' hl fun act hact hpre => ?_⟩
  obtain ⟨name, -, hlive, hp⟩ := hacts act hact
  rw [hp] at hpre
  obtain rfl := hlevel name hpre
  rw [Editor.live, he.load hx] at hlive
  rw [shownAt, OrSet.isEmpty] at hs
  rw [hs] at hlive
  cases hlive

end

end VoidPalabra
