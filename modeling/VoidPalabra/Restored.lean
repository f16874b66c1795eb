import VoidPalabra.Persist
import VoidPalabra.ReadsAgree
import VoidPalabra.Tags
import VoidPalabra.Reported

/-!
# A replica can be read back

Over the life of one replica the document stays readable: every value in it is one that
the door accepts, and no tag of the replica's own is past its counter. Two things break
this. An observation stores what it encodes, and not all of that decodes; a fork takes
an identity, and the document may hold tags under it that the counter does not follow.
-/

namespace VoidPalabra

/-! ### Readable documents -/

/-- A rule on values, for one value. -/
def ValueRule.Takes (rule : ValueRule) (v : Bytes) : Prop :=
  match rule with
  | .any => True
  | .canonical => isCanonical v = true
  | .declaration => isCanonical v = true ∧ v.head? = some 0x08

/-- A value may stand in the set at a path. -/
def AcceptedAt (p : Path) (v : Bytes) : Prop := ∀ rule, kindOf p = some (.set rule) → rule.Takes v

theorem accepts_iff {rule : ValueRule} {s : OrSet} :
    rule.Accepts s ↔ ∀ (t : Tag) (v : Bytes), s.adds[t]? = some v → rule.Takes v := by
  cases rule <;> simp [ValueRule.Accepts, ValueRule.Takes]

/-- The values of a document are accepted exactly when each of them is, in its set. -/
theorem valuesAccepted_iff {root : Json} (h : Shaped root) : ValuesAccepted root ↔
    ∀ p (t : Tag) (v : Bytes), (setAt root p).adds[t]? = some v → AcceptedAt p v := by
  constructor
  · exact fun hv p t v ht rule hk => accepts_iff.mp (hv.setAt h hk) t v ht
  · intro hv p rule n hk hn
    rw [← hn, h.orsetFromJson_set ⟨rule, hk⟩]
    exact accepts_iff.mpr fun t v ht => hv p t v ht rule hk

/-- A tag is in a set. -/
def OrSet.Mentions (s : OrSet) (t : Tag) : Prop := (∃ v, s.adds[t]? = some v) ∨ t ∈ s.removes

/-- A document that an identity can be read back with. -/
structure Readable (id : CString) (issued : ℕ) (doc : Json) : Prop where
  /-- It is a document. -/
  shaped : Shaped doc
  /-- Its values are accepted. -/
  values : ∀ p (t : Tag) (v : Bytes), (setAt doc p).adds[t]? = some v → AcceptedAt p v
  /-- The counter is not behind it. -/
  own : ∀ p t, (setAt doc p).Mentions t → ∀ n, ownCounter t.bytes id.bytes = some n → n ≤ issued

theorem Readable.mono {id : CString} {i j : ℕ} {doc : Json} (h : Readable id i doc) (hij : i ≤ j) :
    Readable id j doc := ⟨h.shaped, h.values, fun p t ht n hn => (h.own p t ht n hn).trans hij⟩

theorem Readable.validate {id : CString} {issued : ℕ} {doc : Json} (h : Readable id issued doc) :
    validate doc = .ok () := validate_iff.mpr ⟨h.shaped, (valuesAccepted_iff h.shaped).mpr h.values⟩

theorem Readable.not_behind {id : CString} {issued : ℕ} {doc : Json} (h : Readable id issued doc) :
    Replica.behind doc id issued = false := by
  by_contra hb
  rw [Bool.not_eq_false, Replica.behind_eq_true] at hb
  obtain ⟨t, ht, n, hn, hlt⟩ := hb
  obtain ⟨q, hq⟩ := (mem_collectAllTags_iff h.shaped.namedOnce).mp ht
  exact absurd (h.own q t hq n hn) (by omega)

/-! ### What one store keeps -/

/-- The digits of a number are read as that number, if they are read at all. -/
theorem readDecimal_decimal_eq {n m : ℕ} (h : readDecimal 0 (decimal n) = some m) : m = n := by
  induction n using Nat.strongRecOn generalizing m with
  | ind n ih =>
    by_cases hn : n < 10
    · rw [readDecimal_decimal (by have : 0 ≤ digitGuard := Nat.zero_le _; omega)] at h
      exact (Option.some.inj h).symm
    · rw [decimal_step (by omega), readDecimal_append] at h
      obtain ⟨k, hk, h⟩ := Option.bind_eq_some_iff.mp h
      obtain rfl := ih (n / 10) (by omega) hk
      by_cases hg : n / 10 ≤ digitGuard
      · rw [readDecimal_digit hg (by omega)] at h
        have := Option.some.inj h
        omega
      · rw [readDecimal, if_pos (.inr (.inr (by omega)))] at h
        cases h

theorem ownCounter_mintTag_eq {id : CString} {n m : ℕ}
    (h : ownCounter (mintTag id n).bytes id.bytes = some m) : m = n := by
  unfold ownCounter at h
  split at h
  · cases h
  · refine readDecimal_decimal_eq ?_
    have hdrop : (mintTag id n).bytes.drop (id.bytes.length + 1) = decimal n := by
      rw [mintTag, ← List.drop_drop, List.drop_left' rfl]
      rfl
    rwa [hdrop] at h

section

variable {a : Author} {e e' : Editor}

/-- A store of an accepted value keeps the document readable. -/
theorem Readable.store (h : Readable a.id e.issued e.work) (hs : Stored a AcceptedAt e e') :
    Readable a.id e'.issued e'.work := by
  obtain ⟨hw, hi, hadds, hremoves⟩ := hs.work h.shaped
  have hown : ∀ q (t : Tag) (v : Bytes), (setAt e.work q).adds[t]? = some v →
      ∀ n, ownCounter t.bytes a.id.bytes = some n → n ≤ e'.issued :=
    fun q t v hv n hn => (h.own q t (.inl ⟨v, hv⟩) n hn).trans hi
  refine ⟨hw, fun p t v hv => ?_, fun p t ht n hn => ?_⟩
  · rcases hadds p t v hv with hv | ⟨hv, -⟩
    · exact h.values p t v hv
    · exact hv
  · rcases ht with ⟨v, hv⟩ | ht
    · rcases hadds p t v hv with hv | ⟨-, m, -, hm, rfl⟩
      · exact hown p t v hv n hn
      · rw [ownCounter_mintTag_eq hn]
        exact hm
    · rcases hremoves p t ht with ht | ⟨q, v, hv⟩
      · exact (h.own p t (.inr ht) n hn).trans hi
      · exact hown q t v hv n hn

theorem Readable.stores (h : Readable a.id e.issued e.work)
    (hs : Relation.ReflTransGen (Stored a AcceptedAt) e e') : Readable a.id e'.issued e'.work := by
  induction hs with
  | refl => exact h
  | tail _ hs ih => exact ih.store hs

end

/-! ### What an edit may store -/

/-- A rule on the sets of a tree of kinds, by the last name of the path. -/
def SetsAre (K : Path → Option Kind) (Q : Path → ValueRule → Prop) : Prop :=
  ∀ p rule, K p = some (.set rule) → Q p rule

section

variable {Q : Path → ValueRule → Prop}

theorem setsAre_set {rule : ValueRule} (h : Q [] rule) : SetsAre (setKind rule) Q := by
  intro p r hr
  unfold setKind at hr
  split at hr
  · rename_i hp
    cases hr
    rwa [hp]
  · cases hr

theorem setsAre_fields {allowed : CString → Bool} {rule : ValueRule}
    (h : ∀ f, allowed f = true → Q [f] rule) : SetsAre (fieldsKind allowed rule) Q := by
  intro p r hr
  cases p with
  | nil => cases hr
  | cons f p =>
    rw [fieldsKind] at hr
    split at hr
    · rename_i hf
      exact setsAre_set (Q := fun p => Q (f :: p)) (h f hf) p r hr
    · cases hr

theorem setsAre_named {below : Path → Option Kind} (h : ∀ k, SetsAre below fun p => Q (k :: p)) :
    SetsAre (namedKind below) Q := by
  intro p r hr
  cases p with
  | nil => cases hr
  | cons k p =>
    rw [namedKind] at hr
    split at hr
    · cases hr
    · exact h k p r hr

theorem setsAre_rune (hp : Q [Key.present] .any)
    (hf : ∀ f, runeFieldAllowed f = true → Q [Key.fields, f] .canonical)
    (ht : Q [Key.tags] .canonical) : SetsAre runeKind Q := by
  intro p r hr
  cases p with
  | nil => cases hr
  | cons x p =>
    rw [runeKind] at hr
    split_ifs at hr with h1 h2 h3
    · subst h1
      exact setsAre_set (Q := fun p => Q (_ :: p)) hp p r hr
    · subst h2
      exact setsAre_fields (Q := fun p => Q (_ :: p)) hf p r hr
    · subst h3
      exact setsAre_set (Q := fun p => Q (_ :: p)) ht p r hr

theorem setsAre_mantle (hp : Q [Key.present] .any)
    (hf : ∀ f, mantleFieldAllowed f = true → Q [Key.fields, f] .canonical)
    (he : Q [Key.edges] .canonical) (hr : ∀ k, SetsAre runeKind fun p => Q (Key.runes :: k :: p)) :
    SetsAre mantleKind Q := by
  intro p r h
  cases p with
  | nil => cases h
  | cons x p =>
    rw [mantleKind] at h
    split_ifs at h with h1 h2 h3 h4
    · subst h1
      exact setsAre_set (Q := fun p => Q (_ :: p)) hp p r h
    · subst h2
      exact setsAre_fields (Q := fun p => Q (_ :: p)) hf p r h
    · subst h3
      exact setsAre_named (Q := fun p => Q (_ :: p)) hr p r h
    · subst h4
      exact setsAre_set (Q := fun p => Q (_ :: p)) he p r h

theorem setsAre_glyph (hp : Q [Key.present] .any)
    (hf : ∀ f, isGlyphField f = true → Q [Key.fields, f] .declaration) : SetsAre glyphKind Q := by
  intro p r h
  cases p with
  | nil => cases h
  | cons x p =>
    rw [glyphKind] at h
    split_ifs at h with h1 h2
    · subst h1
      exact setsAre_set (Q := fun p => Q (_ :: p)) hp p r h
    · subst h2
      exact setsAre_fields (Q := fun p => Q (_ :: p)) hf p r h

theorem setsAre_kindOf (hm : ∀ k, SetsAre mantleKind fun p => Q (Key.mantles :: k :: p))
    (hg : ∀ k, SetsAre glyphKind fun p => Q (Key.glyphs :: k :: p)) : SetsAre kindOf Q := by
  intro p r h
  cases p with
  | nil => cases h
  | cons x p =>
    rw [kindOf] at h
    split_ifs at h with h1 h2 h3 h4
    · cases h
    · subst h3
      exact setsAre_named (Q := fun p => Q (_ :: p)) hm p r h
    · subst h4
      exact setsAre_named (Q := fun p => Q (_ :: p)) hg p r h

end

/-- The presence of a thing takes any value. -/
theorem acceptedAt_present (p : Path) (v : Bytes) : AcceptedAt (p ++ [Key.present]) v := by
  have hrune : ∀ f, runeFieldAllowed f = true → f ≠ Key.present := by
    rintro f hf rfl
    exact absurd hf (by decide)
  have hmantle : ∀ f, mantleFieldAllowed f = true → f ≠ Key.present := by
    rintro f hf rfl
    exact absurd hf (by decide)
  have hglyph : ∀ f, isGlyphField f = true → f ≠ Key.present := by
    rintro f hf rfl
    exact absurd hf (by decide)
  have hedges : Key.edges ≠ Key.present := by decide
  have htags : Key.tags ≠ Key.present := by decide
  have h : SetsAre kindOf fun p r => p.getLast? = some Key.present → r = .any :=
    setsAre_kindOf
      (fun k => setsAre_mantle (fun _ => rfl) (fun f hf => by simpa using hmantle f hf)
        (by simpa using hedges) fun id => setsAre_rune (fun _ => rfl)
          (fun f hf => by simpa using hrune f hf) (by simpa using htags))
      fun k => setsAre_glyph (fun _ => rfl) fun f hf => by simpa using hglyph f hf
  intro rule hk
  rw [h _ rule hk List.getLast?_concat]
  trivial

/-- Nothing beneath a mantle is a declaration. -/
theorem mantleKind_ne_declaration {p : Path} {rule : ValueRule} (h : mantleKind p = some (.set rule)) :
    rule ≠ .declaration :=
  setsAre_mantle (Q := fun _ r => r ≠ .declaration) (by simp) (by simp) (by simp)
    (fun _ => setsAre_rune (by simp) (by simp) (by simp)) p rule h

theorem acceptedAt_mantle {name : CString} (hn : name.isEmpty = false) {v : Bytes}
    (hv : isCanonical v = true) (p : Path) : AcceptedAt ([Key.mantles, name] ++ p) v := by
  intro rule hk
  rw [atKind_mantle hn] at hk
  cases rule with
  | any => trivial
  | canonical => exact hv
  | declaration => exact absurd rfl (mantleKind_ne_declaration hk)

/-- An observation of values that decode stores accepted values. -/
theorem steps_observed {a : Author} {state : Json} (h : ∀ v ∈ recordedState state, Decodable v) :
    Steps a AcceptedAt (observeInto a (some state)) := by
  refine steps_observeInto acceptedAt_present (fun name hn m hm v hv b hb p => ?_)
    fun name hn g hg b hb => ?_
  · have hd := h v (List.mem_append_left _ (List.mem_flatMap.mpr ⟨m, hm, hv⟩))
    rw [← form_of_encode hb]
    exact acceptedAt_mantle hn (isCanonical_form hd) p
  · have hd := h (declared g.2) (List.mem_append_right _ (List.mem_map_of_mem (f := fun g => declared g.2) hg))
    obtain ⟨p, hp⟩ := form_eq_cons hd.hasForm
    have hc := isCanonical_form hd
    rw [canonGlyphDescriptor_form hb hd.hasForm]
    intro rule hk
    cases rule with
    | any => trivial
    | canonical => exact hc
    | declaration => exact ⟨hc, by rw [hp]; rfl⟩

/-- A conflict that an accepted document reports is settled with an accepted value. -/
theorem steps_settled {a : Author} {d : Json} (hd : VoidPalabra.validate d = .ok ()) {policy : JoinPolicy}
    {c : Conflict} (hc : c ∈ conflicts d policy) {side : Bytes} (hs : side ∈ c.sides) :
    Steps a AcceptedAt (settle a c side) := by
  obtain ⟨hshape, hv⟩ := validate_iff.mp hd
  refine steps_settle acceptedAt_present (hshape.placed hc) fun hk => ?_
  obtain ⟨base, m, r, g, hp, hn, hr⟩ := hshape.mem_conflicts.mp hc
  obtain ⟨-, -, -, hl⟩ := hshape.locate_eq hp hn hr
  rcases hr with ⟨-, f, -, he⟩ | ⟨-, -, he⟩
  · have hfield : CString.ofBytes c.field = f := by rw [he, CString.ofBytes_bytes]
    have hsides : c.sides = (registerAt d policy base f).values := by rw [he]
    rw [hsides] at hs
    obtain ⟨t, ht⟩ := OrSet.mem_values.mp (OrSet.mem_values_of_resolve hs)
    rw [hl, hfield]
    exact (valuesAccepted_iff hshape).mp hv _ t side ht.1
  · rw [he] at hk
    cases hk

/-! ### The life of a replica -/

/-- What a replica is in a life of its own, with the stores made under its identity: it is
created or forked, observes, settles conflicts that some accepted document reports, and
merges. The states that it observes fit, and the identities it is forked to are fresh. -/
inductive Lived (fits : Json → Prop) (fresh : Replica → CString → Prop) : Replica → List Act → Prop
  /-- It is created. -/
  | create {id : CString} {r : Replica} (made : Replica.create id = .ok r) : Lived fits fresh r []
  /-- It is forked from another. -/
  | fork {r r' : Replica} {log : List Act} {newId : CString} (lived : Lived fits fresh r log)
    (unused : fresh r newId) (made : r.fork newId = .ok r') : Lived fits fresh r' []
  /-- It is given another policy. -/
  | setPolicy {r : Replica} {log : List Act} (lived : Lived fits fresh r log) (policy : JoinPolicy) :
    Lived fits fresh (r.setPolicy policy) log
  /-- It observes a state. -/
  | observe {r : Replica} {log : List Act} {state : Json} {o : Observed} (lived : Lived fits fresh r log)
    (fit : fits state) (ok : (r.observe (some state)).1 = .ok o) :
    Lived fits fresh (r.observe (some state)).2 (log ++ r.observed (some state))
  /-- It refuses a state. -/
  | refuse {r : Replica} {log : List Act} {state : Option Json} {c : CanonicalError}
    (lived : Lived fits fresh r log) (failed : (r.observe state).1 = .error c) :
    Lived fits fresh (r.observe state).2 log
  /-- It settles a conflict. -/
  | resolve {r : Replica} {log : List Act} {c : Conflict} {side : ℕ} {d delta : Json} {policy : JoinPolicy}
    (lived : Lived fits fresh r log) (accepted : VoidPalabra.validate d = .ok ())
    (reported : c ∈ conflicts d policy) (ok : (r.resolve c side).1 = .ok (some delta)) :
    Lived fits fresh (r.resolve c side).2 (log ++ r.settled c side)
  /-- It merges a document. -/
  | merge {r : Replica} {log : List Act} {d : Json} (lived : Lived fits fresh r log)
    (ok : (r.merge d).1 = .ok) : Lived fits fresh (r.merge d).2 log

/-- Each value that an observation of the state encodes has a canonical form that decodes. -/
def RecordsDecodable (state : Json) : Prop := ∀ v ∈ recordedState state, Decodable v

/-- No tag of the document under an identity is past the counter that a fork starts from. -/
def FreshFor (r : Replica) (newId : CString) : Prop :=
  ∀ t ∈ collectAllTags r.doc, ∀ n, ownCounter t.bytes newId.bytes = some n → n ≤ highestCounter r.doc

/-- Every store is of tags that were minted under an identity up to a counter. -/
def MintedBy (id : CString) (issued : ℕ) (log : List Act) : Prop :=
  ∀ act ∈ log, ∀ t v, act.Adds t v → ∃ n ≤ issued, t = mintTag id n

/-- What a stored edit logs was minted in it. -/
theorem mintedBy_stores {a : Author} {V : Path → Bytes → Prop} {e e' : Editor} (hw : Shaped e.work)
    (hs : Relation.ReflTransGen (Stored a V) e e') :
    e.issued ≤ e'.issued ∧ (MintedBy a.id e.issued e.log → MintedBy a.id e'.issued e'.log) := by
  induction hs with
  | refl => exact ⟨le_rfl, fun h => h⟩
  | @tail b c hb hs ih =>
    have hwb := shaped_of_stored hb hw
    have hbc := (hs.work hwb).2.1
    refine ⟨ih.1.trans hbc, fun h act hact t v hadd => ?_⟩
    rcases hs.log hwb act hact with hold | ⟨-, -, hnew⟩
    · obtain ⟨n, hn, ht⟩ := ih.2 h act hold t v hadd
      exact ⟨n, hn.trans hbc, ht⟩
    · obtain ⟨n, -, hn, ht⟩ := hnew t v hadd
      exact ⟨n, hn, ht⟩

theorem MintedBy.mono {id : CString} {i j : ℕ} {log : List Act} (h : MintedBy id i log) (hij : i ≤ j) :
    MintedBy id j log := by
  intro act hact t v hadd
  obtain ⟨n, hn, ht⟩ := h act hact t v hadd
  exact ⟨n, hn.trans hij, ht⟩

theorem MintedBy.append {id : CString} {j : ℕ} {log log' : List Act} (h : MintedBy id j log)
    (h' : MintedBy id j log') : MintedBy id j (log ++ log') :=
  fun act hact => (List.mem_append.mp hact).elim (h act) (h' act)

/-- A readable document joined with an accepted one, when no tag of the identity is new. -/
theorem Readable.join {id : CString} {i j : ℕ} {doc d : Json} (h : Readable id i doc) (hij : i ≤ j)
    (hd : VoidPalabra.validate d = .ok ())
    (hown : ∀ t ∈ collectAllTags d, (ownCounter t.bytes id.bytes).isSome = true → t ∈ collectAllTags doc) :
    Readable id j (joinNode doc d) := by
  obtain ⟨hs, hv⟩ := validate_iff.mp hd
  have hset := setAt_joinNode h.shaped hs
  have hmem : ∀ q t, (setAt doc q).Mentions t → ∀ n, ownCounter t.bytes id.bytes = some n → n ≤ j :=
    fun q t hm n hn => (h.own q t hm n hn).trans hij
  refine ⟨h.shaped.join hs, fun p t v ht => ?_, fun p t ht n hn => ?_⟩
  · rw [hset, OrSet.join_adds] at ht
    cases hb : (setAt d p).adds[t]? with
    | some w =>
      rw [hb] at ht
      cases ht
      exact (valuesAccepted_iff hs).mp hv p t _ hb
    | none =>
      rw [hb] at ht
      exact h.values p t v ht
  · have hin : (setAt doc p).Mentions t ∨ (setAt d p).Mentions t := by
      rcases ht with ⟨v, hv⟩ | ht
      · rw [hset, OrSet.join_adds] at hv
        cases hb : (setAt d p).adds[t]? with
        | some w => exact .inr (.inl ⟨w, hb⟩)
        | none =>
          rw [hb] at hv
          exact .inl (.inl ⟨v, hv⟩)
      · rw [hset] at ht
        exact (OrSet.mem_join_removes.mp ht).imp .inr .inr
    rcases hin with hin | hin
    · exact hmem p t hin n hn
    · have ht := hown t ((mem_collectAllTags_iff hs.namedOnce).mpr ⟨p, hin⟩) (by rw [hn]; rfl)
      obtain ⟨q, hq⟩ := (mem_collectAllTags_iff h.shaped.namedOnce).mp ht
      exact hmem q t hq n hn

/-- A merge that succeeds brings no unknown tag of the replica's own. -/
theorem own_of_merge {r : Replica} {d : Json} (h : (r.merge d).1 = .ok) :
    ∀ t ∈ collectAllTags d, (ownCounter t.bytes r.id.bytes).isSome = true → t ∈ collectAllTags r.doc := by
  intro t ht hown
  by_contra hnot
  obtain ⟨hd, -⟩ := Replica.merge_ok h
  obtain ⟨why, hw⟩ := (merge_identityCollision_iff hd).mpr ⟨t, ht, hown, .inl hnot⟩
  rw [hw] at h
  cases h

/-- Over a life in which everything fits, the document stays readable. -/
theorem Lived.readable {r : Replica} {log : List Act} (h : Lived RecordsDecodable FreshFor r log) :
    Readable r.id r.issued r.doc ∧ validId r.id = .ok () ∧ MintedBy r.id r.issued log := by
  induction h with
  | create made =>
    obtain ⟨hid, rfl⟩ := Replica.create_eq_ok.mp made
    refine ⟨⟨shaped_emptyRoot, fun p t v hv => ?_, fun p t ht => ?_⟩, hid, by simp [MintedBy]⟩
    · rw [setAt_emptyRoot] at hv
      simp at hv
    · rw [setAt_emptyRoot] at ht
      simp [OrSet.Mentions] at ht
  | fork _ unused made ih =>
    obtain ⟨hid, -, rfl⟩ := Replica.fork_eq_ok.mp made
    obtain ⟨hr, -, -⟩ := ih
    refine ⟨⟨hr.shaped, hr.values, fun p t ht n hn => ?_⟩, hid, by simp [MintedBy]⟩
    exact unused t ((mem_collectAllTags_iff hr.shaped.namedOnce).mpr ⟨p, ht⟩) n hn
  | setPolicy _ _ ih => exact ih
  | @observe r log state o _ fit ok ih =>
    obtain ⟨hr, hid, hlog⟩ := ih
    obtain ⟨-, -, he, -, hdoc, hissued⟩ := Replica.observe_ok ok
    have hs := steps_observed (a := r.author) fit r.editor hr.shaped
    have hm := mintedBy_stores (e := r.editor) hr.shaped hs
    rw [he, hdoc, hissued]
    exact ⟨hr.stores (a := r.author) (e := r.editor) hs, hid, (hlog.mono hm.1).append
      (hm.2 (by simp [MintedBy, Replica.editor]))⟩
  | @refuse r log state c _ failed ih =>
    obtain ⟨hr, hid, hlog⟩ := ih
    have hle := r.observe_issued state
    obtain ⟨-, he⟩ := Replica.observe_error failed
    rw [he] at hle ⊢
    exact ⟨hr.mono hle, hid, hlog.mono hle⟩
  | @resolve r log c side d delta policy _ accepted reported ok ih =>
    obtain ⟨hr, hid, hlog⟩ := ih
    obtain ⟨hside, -, -, he, -, hdoc, hissued⟩ := Replica.resolve_ok ok
    have hs := steps_settled (a := r.author) accepted reported (List.mem_of_getElem? hside) r.editor hr.shaped
    have hm := mintedBy_stores (e := r.editor) hr.shaped hs
    rw [he, hdoc, hissued]
    exact ⟨hr.stores (a := r.author) (e := r.editor) hs, hid, (hlog.mono hm.1).append
      (hm.2 (by simp [MintedBy, Replica.editor]))⟩
  | @merge r log d _ ok ih =>
    obtain ⟨hr, hid, hlog⟩ := ih
    obtain ⟨hd, he⟩ := Replica.merge_ok ok
    rw [he]
    exact ⟨hr.join (le_max_left _ _) hd (own_of_merge ok), hid, hlog.mono (le_max_left _ _)⟩

section

attribute [local irreducible] Replica.observe Replica.merge

/-- A declaration that names a member twice. -/
def declaredTwice : Json :=
  .obj [(Key.mantles, .arr []), (Key.glyphs, .obj [(.ofLit "g",
    .obj [(.ofLit "x", .num Double.one), (.ofLit "x", .num (.ofInt 2))])])]

end

end VoidPalabra
