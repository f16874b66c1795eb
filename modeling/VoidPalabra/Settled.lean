import VoidPalabra.Lamport
import VoidPalabra.Raced

/-!
# What a settlement does

A conflict that a replica reports is settled by one store, at one set. The store decides that register or that
presence and leaves every other set as it was; handed over as a delta, it decides it in every document of the
run whose live writes there the replica had seen.
-/

namespace VoidPalabra

/-- The set that decides a conflict. -/
def Conflict.place (c : Conflict) : Path :=
  match c.kind with
  | .values => locate c ++ [Key.fields, .ofBytes c.field]
  | .deletedWhileEdited => locate c ++ [Key.present]

/-! ### Documents that differ at one set -/

theorem OrSet.values_congr {s s' : OrSet} (h : ∀ t v, s.IsLive t v ↔ s'.IsLive t v) : s.values = s'.values := by
  refine sortUnique_congr fun v => ?_
  refine mem_sortUnique.symm.trans (Iff.trans ?_ mem_sortUnique)
  exact OrSet.mem_values.trans ((exists_congr fun t => h t v).trans OrSet.mem_values.symm)

/-- A set with one live value shows it. -/
theorem OrSet.values_eq_singleton {s : OrSet} {v : Bytes} (h : ∀ x, (∃ t, s.IsLive t x) ↔ x = v) :
    s.values = [v] := by
  have hone : sortUnique [v] = [v] := rfl
  rw [← hone]
  refine sortUnique_congr fun x => ?_
  rw [← mem_sortUnique, List.mem_singleton]
  exact OrSet.mem_values.trans (h x)

/-- A document says what another one says, and what a store says. -/
structure Saying (p : Path) (before after : OrSet) (d d' : Json) : Prop where
  /-- Adds. -/
  adds : ∀ q (t : Tag) (v : Bytes), (setAt d' q).adds[t]? = some v ↔
    (setAt d q).adds[t]? = some v ∨ q = p ∧ before.adds[t]? = none ∧ after.adds[t]? = some v
  /-- Retirements. -/
  removes : ∀ q t, t ∈ (setAt d' q).removes ↔
    t ∈ (setAt d q).removes ∨ q = p ∧ t ∉ before.removes ∧ t ∈ after.removes

section

variable {p : Path} {before after : OrSet} {d d' : Json}

/-- Every other set is as it was. -/
theorem Saying.setAt_of_ne (h : Saying p before after d d') {q : Path} (hq : q ≠ p) :
    setAt d' q = setAt d q := by
  refine OrSet.ext_tags (fun t => Option.ext fun v => ?_) fun t => ?_
  · rw [h.adds, or_iff_left fun hp => hq hp.1]
  · rw [h.removes, or_iff_left fun hp => hq hp.1]

/-- A thing whose presence is another set is shown as it was. -/
theorem Saying.shownAt_eq (h : Saying p before after d d') {base : Path} (hb : base ++ [Key.present] ≠ p) :
    shownAt d' base = shownAt d base := by
  rw [shownAt, shownAt, h.setAt_of_ne hb]

/-- Another register shows what it showed. -/
theorem Saying.registerAt_eq (h : Saying p before after d d') (policy : JoinPolicy) {base : Path} {f : CString}
    (hb : base ++ [Key.fields, f] ≠ p) : registerAt d' policy base f = registerAt d policy base f := by
  rw [registerAt, registerAt, h.setAt_of_ne hb]

/-- A removal raced what it raced, when the set is not beneath the thing or lives as it did. -/
theorem Saying.racedAt_iff (h : Saying p before after d d') {base : Path} (hb : base ++ [Key.present] ≠ p)
    (hlive : base <+: p → ∀ t v, (setAt d' p).IsLive t v ↔ (setAt d p).IsLive t v) :
    RacedAt d' base ↔ RacedAt d base := by
  unfold RacedAt
  rw [h.setAt_of_ne hb]
  refine and_congr_right fun _ => exists_congr fun t => exists_congr fun q => exists_congr fun v =>
    and_congr_left fun _ => ?_
  by_cases hq : base ++ q = p
  · rw [hq, hlive ⟨q, hq⟩]
  · rw [h.setAt_of_ne hq]

end

/-! ### What is reported of such documents -/

theorem PlaceAt.eq {d d' : Json} {base : Path} {m r g m' r' g' : Bytes} (h : PlaceAt d base m r g)
    (h' : PlaceAt d' base m' r' g') : m = m' ∧ r = r' ∧ g = g' := by
  cases h <;> cases h' <;> exact ⟨rfl, rfl, rfl⟩

/-- What has a place above another thing is that thing or is shown. -/
theorem PlaceAt.above {d : Json} {base base' : Path} {m r g m' r' g' : Bytes} (h : PlaceAt d base m r g)
    (h' : PlaceAt d base' m' r' g') {k : CString} {x : Path} (hk : k ≠ Key.runes)
    (hpre : base <+: base' ++ k :: x) : base = base' ∨ shownAt d base = true := by
  have hmg : Key.mantles ≠ Key.glyphs := by decide
  cases h <;> cases h' <;>
    simp only [List.cons_append, List.nil_append, List.cons_prefix_cons, List.nil_prefix, and_true, true_and]
      at hpre
  case mantle.mantle => exact .inl (by rw [hpre])
  case mantle.rune hs => exact .inr (by rw [hpre, hs])
  case mantle.glyph => exact absurd hpre.1 hmg
  case rune.mantle => exact absurd hpre.2.1 hk.symm
  case rune.rune => exact .inl (by rw [hpre.1, hpre.2])
  case rune.glyph => exact absurd hpre.1 hmg
  case glyph.mantle => exact absurd hpre.1 hmg.symm
  case glyph.rune => exact absurd hpre.1 hmg.symm
  case glyph.glyph => exact .inl (by rw [hpre])

theorem PlaceAt.mono {d d' : Json} {base : Path} {m r g : Bytes} (h : PlaceAt d base m r g)
    (hshown : ∀ m, shownAt d [Key.mantles, m] = true → shownAt d' [Key.mantles, m] = true) :
    PlaceAt d' base m r g := by
  cases h with
  | mantle m => exact .mantle m
  | rune m r hs => exact .rune m r (hshown m hs)
  | glyph g => exact .glyph g

section

variable {d d' : Json} (hd : Shaped d) (hd' : Shaped d') {policy : JoinPolicy} {c : Conflict}
  (hnodes : ∀ q, HasNode d' q ↔ HasNode d q)

include hd hd' hnodes

/-- What is reported of documents in which the same things are shown. -/
theorem mem_conflicts_but (hshown : ∀ base, shownAt d' base = shownAt d base)
    (h : ∀ base m r g c', PlaceAt d base m r g → HasNode d base →
      (ReportedAt d' policy base m r g c' ↔ ReportedAt d policy base m r g c' ∧ c' ≠ c)) {c' : Conflict} :
    c' ∈ conflicts d' policy ↔ c' ∈ conflicts d policy ∧ c' ≠ c := by
  rw [hd.mem_conflicts, hd'.mem_conflicts]
  constructor
  · rintro ⟨base, m, r, g, hp, hn, hr⟩
    have hp' : PlaceAt d base m r g := hp.mono fun k hk => by rwa [← hshown]
    obtain ⟨hr', hne⟩ := (h base m r g c' hp' ((hnodes _).mp hn)).mp hr
    exact ⟨⟨base, m, r, g, hp', (hnodes _).mp hn, hr'⟩, hne⟩
  · rintro ⟨⟨base, m, r, g, hp, hn, hr⟩, hne⟩
    have hp' : PlaceAt d' base m r g := hp.mono fun k hk => by rwa [hshown]
    exact ⟨base, m, r, g, hp', (hnodes _).mpr hn, (h base m r g c' hp hn).mpr ⟨hr, hne⟩⟩

end

section

variable {d d' : Json} (hd : Shaped d) {policy : JoinPolicy} {c : Conflict} (hc : c ∈ conflicts d policy)
  {before after : OrSet} (hs : Saying c.place before after d d')

include hd hc

/-- A register that is reported, and where. -/
theorem conflict_values (hk : c.kind = .values) : ∃ m r g f, PlaceAt d (locate c) m r g ∧
    HasNode d (locate c) ∧ shownAt d (locate c) = true ∧ (registerAt d policy (locate c) f).conflicted = true ∧
      c = { placeOf m r g with field := f.bytes, sides := (registerAt d policy (locate c) f).values } ∧
        c.place = locate c ++ [Key.fields, f] := by
  obtain ⟨base, m, r, g, hp, hn, hr⟩ := hd.mem_conflicts.mp hc
  obtain ⟨-, -, -, hl⟩ := hd.locate_eq hp hn hr
  rcases hr with ⟨hs, f, hf, he⟩ | ⟨-, -, he⟩
  · refine ⟨m, r, g, f, hl ▸ hp, hl ▸ hn, hl ▸ hs, hl ▸ hf, hl ▸ he, ?_⟩
    rw [Conflict.place, hk, he, CString.ofBytes_bytes]
  · rw [he] at hk
    cases hk

/-- A deletion that an edit raced, and where. -/
theorem conflict_deleted (hk : c.kind = .deletedWhileEdited) : ∃ m r g, PlaceAt d (locate c) m r g ∧
    HasNode d (locate c) ∧ shownAt d (locate c) = false ∧ RacedAt d (locate c) ∧
      c = { deletedConflict with mantle := m, rune := r, glyph := g } := by
  obtain ⟨base, m, r, g, hp, hn, hr⟩ := hd.mem_conflicts.mp hc
  obtain ⟨-, -, -, hl⟩ := hd.locate_eq hp hn hr
  rcases hr with ⟨-, f, -, he⟩ | ⟨hdead, hraced, he⟩
  · rw [he] at hk
    cases hk
  · exact ⟨m, r, g, hl ▸ hp, hl ▸ hn, hl ▸ hdead, hl ▸ hraced, he⟩

include hs

/-- A register that is settled is no conflict any more, and nothing else changes. -/
theorem conflicts_values (hk : c.kind = .values) (hd' : Shaped d') (hnodes : ∀ q, HasNode d' q ↔ HasNode d q)
    (hone : (registerAt d' policy (locate c) (.ofBytes c.field)).conflicted = false) {c' : Conflict} :
    c' ∈ conflicts d' policy ↔ c' ∈ conflicts d policy ∧ c' ≠ c := by
  obtain ⟨m₀, r₀, g₀, f₀, hp₀, hn₀, hs₀, -, hc₀, hplace⟩ := conflict_values hd hc hk
  have hfield : CString.ofBytes c.field = f₀ := by
    rw [Conflict.place, hk] at hplace
    simpa using hplace
  have hpresent : ∀ base, base ++ [Key.present] ≠ c.place := by
    intro base he
    have hset := (hd.placed hc).field hk
    rw [hplace] at he
    have hlast := congrArg List.getLast? he
    rw [List.getLast?_concat, List.getLast?_append_cons] at hlast
    rw [hfield, show f₀ = Key.present by simpa using hlast.symm] at hset
    exact (hd.placed hc).thing.noPresent hset
  have hshown : ∀ base, shownAt d' base = shownAt d base := fun base => hs.shownAt_eq (hpresent base)
  refine mem_conflicts_but hd hd' hnodes hshown fun base m r g c' hp hn => ?_
  have hraced : shownAt d base = false → (RacedAt d' base ↔ RacedAt d base) := by
    refine fun hdead => hs.racedAt_iff (hpresent base) fun hpre => ?_
    rw [hplace] at hpre
    rcases hp.above hp₀ (by decide) hpre with rfl | hlive
    · rw [hs₀] at hdead
      cases hdead
    · rw [hlive] at hdead
      cases hdead
  have hsame : ∀ f, base ++ [Key.fields, f] = c.place ↔ base = locate c ∧ f = f₀ := by
    intro f
    rw [hplace]
    refine ⟨fun he => ?_, fun ⟨hb, hf⟩ => by rw [hb, hf]⟩
    obtain ⟨hb, hf⟩ := List.append_inj' he rfl
    simpa using And.intro hb hf
  unfold ReportedAt
  rw [hshown]
  constructor
  · rintro (⟨hb, f, hf, he⟩ | ⟨hb, hr, he⟩)
    · have hother : base ++ [Key.fields, f] ≠ c.place := by
        intro heq
        obtain ⟨rfl, rfl⟩ := (hsame f).mp heq
        rw [← hfield, hone] at hf
        cases hf
      have hreg := hs.registerAt_eq policy hother
      rw [hreg] at hf he
      refine ⟨.inl ⟨hb, f, hf, he⟩, fun hcc => hother ((hsame f).mpr ⟨?_, ?_⟩)⟩
      · have hat := (hd.locate_eq hp hn (.inl ⟨hb, f, hf, he⟩)).2.2.2
        rw [← hat, hcc]
      · rw [← hfield, ← hcc, he, CString.ofBytes_bytes]
    · refine ⟨.inr ⟨hb, (hraced hb).mp hr, he⟩, fun hcc => ?_⟩
      rw [← hcc, he] at hk
      cases hk
  · rintro ⟨⟨hb, f, hf, he⟩ | ⟨hb, hr, he⟩, hne⟩
    · have hother : base ++ [Key.fields, f] ≠ c.place := by
        intro heq
        obtain ⟨rfl, rfl⟩ := (hsame f).mp heq
        obtain ⟨rfl, rfl, rfl⟩ := hp.eq hp₀
        exact hne (he.trans hc₀.symm)
      have hreg := hs.registerAt_eq policy hother
      exact .inl ⟨hb, f, hreg ▸ hf, hreg ▸ he⟩
    · exact .inr ⟨hb, (hraced hb).mpr hr, he⟩

omit hd hc hs in
theorem PlaceAt.field_ne_present {base base' : Path} {m r g m' r' g' : Bytes} (hp : PlaceAt d base m r g)
    (hp' : PlaceAt d' base' m' r' g') (f : CString) : base ++ [Key.fields, f] ≠ base' ++ [Key.present] := by
  intro he
  have hlen := congrArg List.length he
  cases hp <;> cases hp' <;> simp at hlen

/-- A deletion that is made again is no conflict any more, and nothing else changes. -/
theorem conflicts_deleted (hk : c.kind = .deletedWhileEdited) (hd' : Shaped d')
    (hnodes : ∀ q, HasNode d' q ↔ HasNode d q)
    (hlive : ∀ t v, (setAt d' c.place).IsLive t v ↔ (setAt d c.place).IsLive t v)
    (hgone : ¬RacedAt d' (locate c)) {c' : Conflict} :
    c' ∈ conflicts d' policy ↔ c' ∈ conflicts d policy ∧ c' ≠ c := by
  obtain ⟨m₀, r₀, g₀, hp₀, hn₀, hdead₀, hraced₀, hc₀⟩ := conflict_deleted hd hc hk
  have hplace : c.place = locate c ++ [Key.present] := by rw [Conflict.place, hk]
  have hshown : ∀ base, shownAt d' base = shownAt d base := by
    intro base
    by_cases hb : base ++ [Key.present] = c.place
    · rw [shownAt, shownAt, hb, OrSet.isEmpty, OrSet.isEmpty, OrSet.values_congr hlive]
    · exact hs.shownAt_eq hb
  refine mem_conflicts_but hd hd' hnodes hshown fun base m r g c' hp hn => ?_
  have hreg : ∀ f, registerAt d' policy base f = registerAt d policy base f := fun f =>
    hs.registerAt_eq policy (hplace ▸ hp.field_ne_present hp₀ f)
  unfold ReportedAt
  rw [hshown]
  constructor
  · rintro (⟨hb, f, hf, he⟩ | ⟨hb, hr, he⟩)
    · refine ⟨.inl ⟨hb, f, hreg f ▸ hf, hreg f ▸ he⟩, fun hcc => ?_⟩
      rw [← hcc, he] at hk
      cases hk
    · have hother : base ≠ locate c := by
        rintro rfl
        exact hgone hr
      have hr' := (hs.racedAt_iff (by rwa [hplace, Ne, List.append_cancel_right_eq]) fun _ => hlive).mp hr
      refine ⟨.inr ⟨hb, hr', he⟩, fun hcc => hother ?_⟩
      rw [← hcc, (hd.locate_eq hp hn (show ReportedAt d policy base m r g c' from .inr ⟨hb, hr', he⟩)).2.2.2]
  · rintro ⟨⟨hb, f, hf, he⟩ | ⟨hb, hr, he⟩, hne⟩
    · exact .inl ⟨hb, f, (hreg f).symm ▸ hf, (hreg f).symm ▸ he⟩
    · have hother : base ≠ locate c := by
        rintro rfl
        obtain ⟨rfl, rfl, rfl⟩ := hp.eq hp₀
        exact hne (he.trans hc₀.symm)
      exact .inr ⟨hb, (hs.racedAt_iff (by rwa [hplace, Ne, List.append_cancel_right_eq]) fun _ => hlive).mpr hr,
        he⟩

/-- A deletion that is undone is no conflict any more, and what is new is reported of the thing that is shown
again or of what is in it. -/
theorem conflicts_kept (hk : c.kind = .deletedWhileEdited) (hd' : Shaped d')
    (hnodes : ∀ q, HasNode d' q ↔ HasNode d q) (hshow : shownAt d' (locate c) = true) (c' : Conflict) :
    (c' ∈ conflicts d policy → c' ≠ c → c' ∈ conflicts d' policy) ∧
      (c' ∈ conflicts d' policy → c' ≠ c ∧ (c' ∈ conflicts d policy ∨ locate c <+: locate c')) := by
  obtain ⟨m₀, r₀, g₀, hp₀, hn₀, hdead₀, hraced₀, hc₀⟩ := conflict_deleted hd hc hk
  have hplace : c.place = locate c ++ [Key.present] := by rw [Conflict.place, hk]
  have hother : ∀ {base}, base ≠ locate c → base ++ [Key.present] ≠ c.place := by
    intro base hb
    rwa [hplace, Ne, List.append_cancel_right_eq]
  have hmono : ∀ base, shownAt d base = true → shownAt d' base = true := by
    intro base hb
    by_cases hbase : base = locate c
    · rw [hbase, hshow]
    · rwa [hs.shownAt_eq (hother hbase)]
  have hreg : ∀ {base m r g}, PlaceAt d' base m r g → ∀ f, registerAt d' policy base f =
      registerAt d policy base f := fun hp f => hs.registerAt_eq policy (hplace ▸ hp.field_ne_present hp₀ f)
  have hraced : ∀ {base m r g}, PlaceAt d base m r g → base ≠ locate c → shownAt d base = false →
      (RacedAt d' base ↔ RacedAt d base) := by
    intro base m r g hp hb hdead
    refine hs.racedAt_iff (hother hb) fun hpre => ?_
    rw [hplace] at hpre
    rcases hp.above hp₀ (by decide) hpre with he | hlive
    · exact absurd he hb
    · rw [hlive] at hdead
      cases hdead
  rw [hd.mem_conflicts, hd'.mem_conflicts]
  constructor
  · rintro ⟨base, m, r, g, hp, hn, hr⟩ hne
    have hp' : PlaceAt d' base m r g := hp.mono fun m => hmono _
    refine ⟨base, m, r, g, hp', (hnodes _).mpr hn, ?_⟩
    rcases hr with ⟨hb, f, hf, he⟩ | ⟨hb, hr, he⟩
    · exact .inl ⟨hmono _ hb, f, hreg hp' f ▸ hf, hreg hp' f ▸ he⟩
    · have hbase : base ≠ locate c := by
        rintro rfl
        obtain ⟨rfl, rfl, rfl⟩ := hp.eq hp₀
        exact hne (he.trans hc₀.symm)
      exact .inr ⟨by rwa [hs.shownAt_eq (hother hbase)], (hraced hp hbase hb).mpr hr, he⟩
  · rintro ⟨base, m, r, g, hp, hn, hr⟩
    have hat := (hd'.locate_eq hp hn hr).2.2.2
    have hne : c' ≠ c := by
      rintro rfl
      rcases hr with ⟨-, f, -, he⟩ | ⟨hb, -, -⟩
      · rw [he] at hk
        cases hk
      · rw [← hat, hshow] at hb
        cases hb
    refine ⟨hne, or_iff_not_imp_right.mpr fun hbelow => ?_⟩
    rw [hat] at hbelow
    have hbase : base ≠ locate c := fun he => hbelow (he ▸ List.prefix_rfl)
    have hp' : PlaceAt d base m r g := by
      cases hp with
      | mantle m => exact .mantle m
      | glyph g => exact .glyph g
      | rune m r hm =>
        refine .rune m r ?_
        by_cases hmc : [Key.mantles, m] = locate c
        · exact absurd (hmc ▸ List.prefix_append [Key.mantles, m] [Key.runes, r]) hbelow
        · rwa [← hs.shownAt_eq (hother hmc)]
    refine ⟨base, m, r, g, hp', (hnodes _).mp hn, ?_⟩
    have hshown := hs.shownAt_eq (hother hbase)
    rcases hr with ⟨hb, f, hf, he⟩ | ⟨hb, hr, he⟩
    · exact .inl ⟨hshown ▸ hb, f, hreg hp f ▸ hf, hreg hp f ▸ he⟩
    · exact .inr ⟨hshown ▸ hb, (hraced hp' hbase (hshown ▸ hb)).mp hr, he⟩

end

/-! ### The store of a settlement -/

/-- A settlement, when its store is known. -/
structure Settles (a : Author) (e : Editor) (c : Conflict) (side : Bytes) (after : OrSet) : Prop where
  /-- The set changes. -/
  changed : setAt e.work c.place ≠ after
  /-- There is one store, at the set that decides the conflict. -/
  log : ∃ intent, (settle a c side e).2.log = e.log ++ [⟨c.place, setAt e.work c.place, after, intent, e.work⟩]

section

variable {a : Author} {d₀ : Json} {i₀ : ℕ} {e : Editor} (h : Inv a d₀ i₀ e) {c : Conflict} {side : Bytes}

include h

/-- A value that is chosen is written. -/
theorem settles_values (hk : c.kind = .values) (hp : IsSetPath c.place) :
    Settles a e c side ((setAt e.work c.place).write (mintTag a.id (e.issued + 1)) side) := by
  have hne : setAt e.work c.place ≠ (setAt e.work c.place).write (mintTag a.id (e.issued + 1)) side := by
    refine fun he => ?_
    have hfresh := h.fresh_tag c.place (Nat.lt_succ_self e.issued)
    rw [he, OrSet.write_adds, if_pos rfl] at hfresh
    cases hfresh
  have hplace : c.place = locate c ++ [Key.fields, .ofBytes c.field] := by rw [Conflict.place, hk]
  refine ⟨hne, .overwrite, ?_⟩
  have hrun : settle a c side e = (.ok true, ({ e with issued := e.issued + 1 } : Editor).store c.place
      (e.load c.place) ((e.load c.place).write (mintTag a.id (e.issued + 1)) side) .overwrite) := by
    rw [hplace, settle, hk]
    rfl
  rw [hrun, h.load hp, Editor.store, if_neg hne]

/-- A thing that is kept is made present. -/
theorem settles_kept (hk : c.kind = .deletedWhileEdited) (hp : IsSetPath c.place)
    (hs : shownAt e.work (locate c) = false) (hside : strOr (decode side) .empty = .ofLit "kept") :
    ∃ v, Settles a e c side ((setAt e.work c.place).add (mintTag a.id (e.issued + 1)) v) := by
  have hplace : c.place = locate c ++ [Key.present] := by rw [Conflict.place, hk]
  have hempty : (setAt e.work c.place).values.isEmpty = true := by
    rw [shownAt, ← hplace, OrSet.isEmpty] at hs
    simpa using hs
  have hne : ∀ v, setAt e.work c.place ≠ (setAt e.work c.place).add (mintTag a.id (e.issued + 1)) v := by
    refine fun v he => ?_
    have hfresh := h.fresh_tag c.place (Nat.lt_succ_self e.issued)
    rw [he, OrSet.add_adds, if_pos rfl] at hfresh
    cases hfresh
  refine ⟨if c.glyph.isEmpty then lit "1" else [], hne _, .add, ?_⟩
  have hrun : (settle a c side e).2 =
      (makePresent a (locate c) (if c.glyph.isEmpty then lit "1" else []) e).2 := by
    unfold settle
    rw [hk]
    dsimp only
    rw [if_pos hside, EditM.bind_apply, makePresent_apply]
    rfl
  rw [hrun, makePresent_apply, ← hplace, h.load hp, if_pos hempty, Editor.store, if_neg (hne _)]

/-- A thing that is deleted again is removed with what the removal sees. -/
theorem settles_deleted (hk : c.kind = .deletedWhileEdited) (hp : IsSetPath c.place)
    (hr : RacedAt e.work (locate c)) (hside : strOr (decode side) .empty = .ofLit "deleted") :
    ∃ after, Settles a e c side after ∧ after.adds = (setAt e.work c.place).adds ∧
      ∀ t, t ∈ after.removes ↔
        (t ∈ (setAt e.work c.place).removes ∨ ∃ v, (setAt e.work c.place).adds[t]? = some v) ∨
        ∃ q v, locate c <+: q ∧ q ≠ c.place ∧ (setAt e.work q).IsLive t v := by
  have hplace : c.place = locate c ++ [Key.present] := by rw [Conflict.place, hk]
  have hp' : IsSetPath (locate c ++ [Key.present]) := hplace ▸ hp
  obtain ⟨hremoved, u, q, v, hlive, hq, hunseen⟩ := hr
  obtain ⟨n, hn⟩ : ∃ n, nodeAt e.work (locate c) = some n := by
    refine Option.ne_none_iff_exists'.mp fun hnone => ?_
    rw [setAt_eq_empty (nodeAt_none_append hnone _)] at hremoved
    exact absurd hremoved (by decide)
  have hmem : ∀ t, t ∈ (setAt e.work c.place).removeAll.removes.insertMany (collectLiveTags n true) ↔
      (t ∈ (setAt e.work c.place).removes ∨ ∃ v, (setAt e.work c.place).adds[t]? = some v) ∨
        ∃ q v, locate c <+: q ∧ q ≠ c.place ∧ (setAt e.work q).IsLive t v := by
    intro t
    rw [Std.ExtTreeSet.mem_insertMany_list, List.contains_iff_mem, OrSet.mem_removeAll,
      mem_collectLiveTags_thing h.work hp' hn, ← hplace]
  have hne : setAt e.work c.place ≠ ⟨(setAt e.work c.place).removeAll.adds,
      (setAt e.work c.place).removeAll.removes.insertMany (collectLiveTags n true)⟩ := by
    intro he
    refine hunseen ?_
    rw [← hplace, he]
    refine (hmem u).mpr (.inr ⟨locate c ++ q, v, List.prefix_append _ _, ?_, hlive⟩)
    rw [hplace]
    intro hqp
    rw [List.append_cancel_left_eq] at hqp
    exact hq (by rw [hqp]; rfl)
  refine ⟨_, ⟨hne, .clear, ?_⟩, rfl, hmem⟩
  have hwhat : ¬(strOr (decode side) .empty = .ofLit "kept") := by
    rw [hside]
    decide
  have hrun : (settle a c side e).2 = (removeThing (locate c) true e).2 := by
    unfold settle
    rw [hk]
    dsimp only
    rw [if_neg hwhat, if_pos hside, EditM.bind_apply, removeThing_apply]
    rfl
  rw [hrun, removeThing_apply, h.node hp', hn]
  dsimp only
  rw [if_neg (by simp), ← hplace, h.load hp, Editor.store, if_neg hne]

end

/-! ### What it leaves in a run -/

section

variable {w : World} (hw : w.Sound) {id : CString} {p : Peer} (there : w.peers id = some p) {c : Conflict}
  {side : ℕ} {delta : Json} (hc : c ∈ p.replica.conflicts)
  (ok : (p.replica.resolve c side).1 = .ok (some delta)) {after : OrSet}
  (hs : Settles p.replica.author p.replica.editor c (c.sides.getD side []) after)

include hw there hc hs

/-- What the editor of a settlement holds at its end. -/
theorem settled_inv : Inv p.replica.author p.replica.doc p.replica.issued
      (settle p.replica.author c (c.sides.getD side []) p.replica.editor).2 ∧
    said (settle p.replica.author c (c.sides.getD side []) p.replica.editor).2.log =
      changeFacts c.place (setAt p.replica.doc c.place) after := by
  have hshaped := (hw.peers id p there).tells.1
  obtain ⟨intent, hlog⟩ := hs.log
  refine ⟨keeps_settle (hshaped.placed hc) _ _ (hw.editor there), ?_⟩
  rw [hlog, said_concat, show p.replica.editor.log = [] from rfl, said_nil, Set.empty_union]
  rfl

include ok

/-- The document that is left. -/
theorem settled_doc : Shaped (p.replica.resolve c side).2.doc ∧
    Saying c.place (setAt p.replica.doc c.place) after p.replica.doc (p.replica.resolve c side).2.doc ∧
    ∀ q, HasNode (p.replica.resolve c side).2.doc q ↔ HasNode p.replica.doc q ∨ q <+: c.place := by
  obtain ⟨hinv, hsaid⟩ := settled_inv hw there hc hs
  obtain ⟨-, -, -, -, -, hdoc, -⟩ := Replica.resolve_ok ok
  rw [hdoc]
  have hfacts := hinv.work_facts
  rw [hsaid] at hfacts
  refine ⟨hinv.work, ⟨fun q t v => ?_, fun q t => ?_⟩, fun q => ?_⟩
  · exact Set.ext_iff.mp hfacts (.add q t v)
  · exact Set.ext_iff.mp hfacts (.retire q t)
  · exact Set.ext_iff.mp hfacts (.node q)

/-- Another document of the run that the delta is merged into. -/
theorem settled_delta {d : Json} (hd : w.Tells d) : Shaped (joinNode d delta) ∧
    Saying c.place (setAt p.replica.doc c.place) after d (joinNode d delta) := by
  obtain ⟨hinv, hsaid⟩ := settled_inv hw there hc hs
  obtain ⟨-, -, hdelta, hid, -, hdoc, hissued⟩ := Replica.resolve_ok ok
  have hw' := hw.commit there hinv hid hdoc hissued
  rw [← hdelta] at hw'
  have hd' := hd.mono ((World.said_commit ..).symm ▸ Set.subset_union_left : w.said ⊆ (w.commit p
    (p.replica.resolve c side).2 delta
    (settle p.replica.author c (c.sides.getD side []) p.replica.editor).2.log).said)
  have htells := hw'.mail ⟨delta, {w.changes.length}⟩ List.mem_cons_self
  have hfacts := hw'.facts_joinNode hd' htells
  have hdf := hinv.delta_facts
  rw [hsaid, ← hdelta] at hdf
  rw [hdf] at hfacts
  refine ⟨hd.1.join htells.1, ⟨fun q t v => ?_, fun q t => ?_⟩⟩
  · refine (Set.ext_iff.mp hfacts (.add q t v)).trans (or_congr_right (or_iff_right fun he => ?_))
    rw [add_mem_facts, setAt_emptyDelta] at he
    cases he
  · refine (Set.ext_iff.mp hfacts (.retire q t)).trans (or_congr_right (or_iff_right fun he => ?_))
    rw [retire_mem_facts, setAt_emptyDelta] at he
    exact OrSet.not_mem_empty_removes t he

end

/-- What decides a conflict is there. -/
theorem hasNode_place {d : Json} (hd : Shaped d) {policy : JoinPolicy} {c : Conflict}
    (hc : c ∈ conflicts d policy) : HasNode d c.place := by
  cases hk : c.kind with
  | values =>
    obtain ⟨m, r, g, f, hp, hn, -, hf, -, hplace⟩ := conflict_values hd hc hk
    have hb := hd.thing_of_place hp hn
    have hname := hd.mem_fields_of_conflicted hb hf
    rw [hd.mem_namesAt hb.fields, List.append_assoc] at hname
    rwa [hplace]
  | deletedWhileEdited =>
    obtain ⟨m, r, g, -, -, -, hraced, -⟩ := conflict_deleted hd hc hk
    rw [Conflict.place, hk]
    by_contra hnone
    have hempty := hraced.1
    rw [setAt_of_not_hasNode hnone] at hempty
    exact absurd hempty (by decide)

theorem OrSet.resolve_of_single {s : OrSet} {v : Bytes} (h : s.values = [v]) (how : FieldJoin) :
    s.resolve how = ⟨[v], false⟩ := by
  rw [OrSet.resolve.eq_def, OrSet.live, h]
  rfl

/-- The next tag of a replica is in no document of the run. -/
theorem World.Sound.next_tag {w : World} (hw : w.Sound) {id : CString} {p : Peer} (there : w.peers id = some p)
    {d : Json} (hd : w.Tells d) (q : Path) :
    (setAt d q).adds[mintTag p.replica.author.id (p.replica.issued + 1)]? = none ∧
      mintTag p.replica.author.id (p.replica.issued + 1) ∉ (setAt d q).removes := by
  have hp := hw.peers id p there
  have hnot : ∀ q v, .add q (mintTag p.replica.author.id (p.replica.issued + 1)) v ∉ w.said := by
    intro q v hadd
    rw [show p.replica.author.id = id from hp.filed] at hadd
    have := (hp.counter q _ v hadd).2
    omega
  refine ⟨Option.eq_none_iff_forall_not_mem.mpr fun v hv => hnot q v (hd.add hv), fun ht => ?_⟩
  obtain ⟨q', v, hadd⟩ := hw.added_of_retired (hd.retire ht)
  exact hnot q' v hadd

/-- The value that was chosen, and what was live in the document and not in the one it was chosen in. -/
theorem Saying.write_live {p : Path} {s : OrSet} {t : Tag} {v : Bytes} {d d' : Json}
    (h : Saying p s (s.write t v) d d') (hs : s.adds[t]? = none)
    (hd : (setAt d p).adds[t]? = none ∧ t ∉ (setAt d p).removes) (hr : t ∉ s.removes)
    (hagree : ∀ (u : Tag) (x y : Bytes), (setAt d p).adds[u]? = some x → s.adds[u]? = some y → x = y)
    {u : Tag} {x : Bytes} : (setAt d' p).IsLive u x ↔
      u = t ∧ x = v ∨ (setAt d p).IsLive u x ∧ ¬s.IsLive u x := by
  have hlive : (setAt d' p).IsLive u x ↔ (setAt d' p).adds[u]? = some x ∧ u ∉ (setAt d' p).removes := Iff.rfl
  rw [hlive, h.adds, h.removes, OrSet.write_adds, OrSet.mem_write_removes]
  by_cases hu : u = t
  · subst hu
    have hnot : ¬(setAt d p).IsLive u x := fun hl => by
      have hadd := hl.1
      rw [hd.1] at hadd
      cases hadd
    simp [hs, hd.1, hd.2, hr, hnot, eq_comm]
  · constructor
    · rintro ⟨hx | ⟨-, hnone, hx⟩, hrem⟩
      · refine .inr ⟨⟨hx, fun hm => hrem (.inl hm)⟩, fun hsl => hrem (.inr ⟨rfl, hsl.2, .inr ⟨x, hsl.1⟩⟩)⟩
      · rw [if_neg (Ne.symm hu), hnone] at hx
        cases hx
    · rintro (⟨he, -⟩ | ⟨hl, hsl⟩)
      · exact absurd he hu
      · refine ⟨.inl hl.1, ?_⟩
        rintro (hm | ⟨-, hm, hm' | ⟨w, hw⟩⟩)
        · exact hl.2 hm
        · exact hm hm'
        · exact hsl ⟨(hagree u x w hl.1 hw) ▸ hw, hm⟩

/-- **A value that is chosen is the value.** In every run a replica that settles a register which it reports
leaves that register with the value that was chosen, every other set as it was and every other conflict
reported as before. In any document of the run that the delta is merged into, what is live in the register is
the chosen value and the writes that were live there and not where it was chosen; if there are none, every
policy shows the chosen value and none reports the register. -/
theorem value_settled {w : World} (h : Reachable w) {id : CString} {p : Peer} (there : w.peers id = some p)
    {c : Conflict} (hc : c ∈ p.replica.conflicts) (hk : c.kind = .values) {side : ℕ} {delta : Json}
    (ok : (p.replica.resolve c side).1 = .ok (some delta)) :
    ∃ v, c.sides[side]? = some v ∧ (setAt (p.replica.resolve c side).2.doc c.place).values = [v] ∧
      (∀ q, q ≠ c.place → setAt (p.replica.resolve c side).2.doc q = setAt p.replica.doc q) ∧
      (∀ c', c' ∈ (p.replica.resolve c side).2.conflicts ↔ c' ∈ p.replica.conflicts ∧ c' ≠ c) ∧
      ∀ d k, w.Holds d k →
        (∀ q, q ≠ c.place → setAt (joinNode d delta) q = setAt d q) ∧
        (∀ x, (∃ u, (setAt (joinNode d delta) c.place).IsLive u x) ↔
          x = v ∨ ∃ u, (setAt d c.place).IsLive u x ∧ ¬(setAt p.replica.doc c.place).IsLive u x) ∧
        ((∀ u x, (setAt d c.place).IsLive u x → (setAt p.replica.doc c.place).IsLive u x) → ∀ policy,
          (registerAt (joinNode d delta) policy (locate c) (.ofBytes c.field)).values = [v] ∧
          ∀ c' ∈ conflicts (joinNode d delta) policy, c'.place ≠ c.place) := by
  have hw := h.sound
  have hp := hw.peers id p there
  have hshaped := hp.tells.1
  have hplace : c.place = locate c ++ [Key.fields, .ofBytes c.field] := by rw [Conflict.place, hk]
  have hset : IsSetPath c.place := hplace ▸ (hshaped.placed hc).field hk
  have hs : Settles p.replica.author p.replica.editor c (c.sides.getD side [])
      ((setAt p.replica.doc c.place).write (mintTag p.replica.author.id (p.replica.issued + 1)) (c.sides.getD side [])) :=
    settles_values (hw.editor there) hk hset
  have hv := (Replica.resolve_ok ok).1
  obtain ⟨hdoc, hsaying, hnodes⟩ := settled_doc hw there hc ok hs
  have hdelta : ∀ {d}, w.Tells d → _ := fun hd => settled_delta hw there hc ok hs hd
  have hnext : ∀ {d}, w.Tells d → ∀ q, _ := fun hd q => hw.next_tag there hd q
  generalize c.sides.getD side [] = v at hv hsaying hdelta
  generalize mintTag p.replica.author.id (p.replica.issued + 1) = t at hsaying hdelta hnext
  have hlaw : ∀ {d d'}, w.Tells d → Saying c.place (setAt p.replica.doc c.place)
      ((setAt p.replica.doc c.place).write t v) d d' → ∀ u x, (setAt d' c.place).IsLive u x ↔
        u = t ∧ x = v ∨ (setAt d c.place).IsLive u x ∧ ¬(setAt p.replica.doc c.place).IsLive u x :=
    fun hd hsay u x => hsay.write_live (hnext hp.tells _).1 (hnext hd _) (hnext hp.tells _).2
      fun u x y hx hy => (hw.unique _ _ u x y (hd.add hx) (hp.tells.add hy)).2
  have hone : ∀ {d d'}, w.Tells d → Saying c.place (setAt p.replica.doc c.place)
      ((setAt p.replica.doc c.place).write t v) d d' →
      (∀ u x, (setAt d c.place).IsLive u x → (setAt p.replica.doc c.place).IsLive u x) →
        (setAt d' c.place).values = [v] := by
    intro d d' hd hsay hseen
    refine OrSet.values_eq_singleton fun x =>
      ⟨fun ⟨u, hu⟩ => ?_, fun hx => ⟨_, (hlaw hd hsay _ x).mpr (.inl ⟨rfl, hx⟩)⟩⟩
    exact ((hlaw hd hsay u x).mp hu).elim And.right fun hl => absurd (hseen u x hl.1) hl.2
  have hhere := hone hp.tells hsaying fun _ _ hl => hl
  refine ⟨v, hv, hhere, fun q => hsaying.setAt_of_ne, fun c' => ?_,
    fun d k hd => ?_⟩
  · have hpolicy := (Replica.resolve_ok ok).2.2.2.2.1
    unfold Replica.conflicts
    rw [hpolicy]
    refine conflicts_values hshaped hc hsaying hk hdoc (fun q => ?_) ?_
    · rw [hnodes, or_iff_left_of_imp]
      rintro ⟨x, hx⟩
      exact hasNode_of_append (hx ▸ hasNode_place hshaped hc)
    · rw [registerAt, ← hplace, OrSet.resolve_of_single hhere]
  · obtain ⟨hjoin, hsay⟩ := hdelta (hw.holds hd)
    refine ⟨fun q => hsay.setAt_of_ne, fun x => ?_, fun hseen policy => ⟨?_, fun c' hc' heq => ?_⟩⟩
    · simp only [hlaw (hw.holds hd) hsay, exists_or, exists_and_right, exists_eq, true_and]
    · rw [registerAt, ← hplace, OrSet.resolve_of_single (hone (hw.holds hd) hsay hseen)]
    · -- What is reported of another register or presence has another place.
      obtain ⟨_, _, _, _, hthing, -⟩ := conflict_values hshaped hc hk
      cases hk' : c'.kind with
      | values =>
        obtain ⟨_, _, _, f', -, -, -, hf', -, hat⟩ := conflict_values hjoin hc' hk'
        obtain ⟨hb, hf⟩ := List.append_inj' (hat.symm.trans (heq.trans hplace)) rfl
        have hff : f' = .ofBytes c.field := by simpa using hf
        rw [hb, hff, registerAt, ← hplace, OrSet.resolve_of_single (hone (hw.holds hd) hsay hseen)] at hf'
        cases hf'
      | deletedWhileEdited =>
        obtain ⟨_, _, _, hp', -⟩ := conflict_deleted hjoin hc' hk'
        refine hthing.field_ne_present hp' (.ofBytes c.field) ?_
        rw [← hplace, ← heq, Conflict.place, hk']

section

-- What a replica does is evaluated by the kernel only.
attribute [local irreducible] Replica.observe Replica.merge Replica.resolve observedDelta

/-- The delta of a replica that wrote another domain. -/
def rivalParcel : Parcel := ⟨observedDelta (newReplica idB) (domainState 1), {1}⟩

/-- A replica that wrote a domain, and merged one that was written elsewhere. -/
def rival : Replica := ((writer 1).merge rivalParcel.doc).2

/-- Two domains were written apart, and one of the replicas merged the other's. -/
def rivalWorld : World :=
  ((writerWorld 1).observing ⟨newReplica idB, ∅⟩ (domainState 1)).merging ⟨writer 1, writerKnown 1⟩ rivalParcel

theorem rivalWorld_idA : rivalWorld.peers (writer 1).id = some ⟨rival, writerKnown 1 ∪ {1}⟩ := by
  have h := World.merging_self ((writerWorld 1).observing ⟨newReplica idB, ∅⟩ (domainState 1))
    ⟨writer 1, writerKnown 1⟩ rivalParcel
  rwa [Replica.merge_id] at h

theorem reachable_rivalWorld : Reachable rivalWorld := by
  have hone := reachable_twoNew.writerWorld_succ (n := 0) (by decide +kernel)
  have hwrites : ((newReplica idB).observe (some (domainState 1))).1.toOption.isSome = true := by decide +kernel
  have htwo := hone.observing (p := ⟨newReplica idB, ∅⟩) (writerWorld_idB 1) hwrites
  refine htwo.merging (p := ⟨writer 1, writerKnown 1⟩) ?_ ?_ (by decide +kernel)
  · have hne : (writer 1).id ≠ idB := by
      rw [writer_id]
      decide
    exact (World.observing_ne _ _ _ hne).trans (writerWorld_idA 1)
  · simp only [World.observing, World.commit, writerWorld_changes, rivalParcel]
    exact List.mem_cons_self

/-- The two domains. -/
def rivalConflict : Conflict where
  mantle := lit "m"
  field := lit "domain"
  sides := [[0x03, 0x00], [0x03, 0x02]]

/-- The second domain is chosen. -/
theorem value_settled_rivalWorld :
    (setAt (rival.resolve rivalConflict 1).2.doc rivalConflict.place).values = [[0x03, 0x02]] := by
  have hok : (rival.resolve rivalConflict 1).1.toOption.join.isSome = true := by decide +kernel
  have hc : rivalConflict ∈ rival.conflicts := by decide +kernel
  obtain ⟨delta, hdelta⟩ := Option.isSome_iff_exists.mp hok
  have ho := toOption_eq_some.mp (Option.join_eq_some_iff.mp hdelta)
  obtain ⟨v, hv, hvalues, -⟩ := value_settled reachable_rivalWorld rivalWorld_idA hc rfl ho
  cases hv
  exact hvalues

end

/-- A presence under a new tag is one. -/
theorem Saying.add_shown {base : Path} {s : OrSet} {t : Tag} {v : Bytes} {d d' : Json}
    (h : Saying (base ++ [Key.present]) s (s.add t v) d d') (hs : s.adds[t]? = none)
    (hd : t ∉ (setAt d (base ++ [Key.present])).removes) : shownAt d' base = true := by
  rw [shownAt, Bool.not_eq_true', ← Bool.not_eq_true, OrSet.isEmpty_iff]
  refine fun hnone => hnone t v ⟨(h.adds _ _ _).mpr (.inr ⟨rfl, hs, ?_⟩), fun ht => ?_⟩
  · rw [OrSet.add_adds, if_pos rfl]
  · rcases (h.removes _ _).mp ht with ht | ⟨-, hn, ht⟩
    · exact hd ht
    · exact hn ht

/-- A removal that sees every live write beneath a thing is raced by none of them. -/
theorem Saying.not_raced {base : Path} {s after : OrSet} {d d' : Json}
    (h : Saying (base ++ [Key.present]) s after d d')
    (hknown : ∀ t ∈ s.removes, t ∈ (setAt d (base ++ [Key.present])).removes)
    (hseen : ∀ q u x, base <+: q → q ≠ base ++ [Key.present] → (setAt d q).IsLive u x → u ∈ after.removes) :
    ¬RacedAt d' base := by
  rintro ⟨-, t, q, v, hlive, hq, hunseen⟩
  have hne : base ++ q ≠ base ++ [Key.present] := by
    rw [Ne, List.append_cancel_left_eq]
    exact fun he => hq (by rw [he]; rfl)
  rw [h.setAt_of_ne hne] at hlive
  have hafter := hseen _ t v (List.prefix_append _ _) hne hlive
  refine hunseen ((h.removes _ _).mpr ?_)
  by_cases ht : t ∈ s.removes
  · exact .inl (hknown t ht)
  · exact .inr ⟨rfl, ht, hafter⟩

/-- The sides of a deletion that an edit raced. -/
theorem deletedConflict_sides : deletedConflict.sides = [strBytes (lit "kept"), strBytes (lit "deleted")] := by
  decide

/-- **A deletion that an edit raced is undone, or made again.** In every run a replica that settles one leaves
every set but that presence as it was. When the thing is kept, it is shown, and in every document of the run
that the delta is merged into; every other conflict is still reported, and what is new is reported of the thing
or of what is in it. When it is deleted, it is not shown and every other conflict is reported as before; in a
document of the run that the delta is merged into it is shown or not as it was, and the deletion is not
reported if the document knew the removals that were known and holds no live write beneath the thing that was
not live where it was deleted. -/
theorem deletion_settled {w : World} (h : Reachable w) {id : CString} {p : Peer} (there : w.peers id = some p)
    {c : Conflict} (hc : c ∈ p.replica.conflicts) (hk : c.kind = .deletedWhileEdited) {side : ℕ} {delta : Json}
    (ok : (p.replica.resolve c side).1 = .ok (some delta)) :
    (∀ q, q ≠ c.place → setAt (p.replica.resolve c side).2.doc q = setAt p.replica.doc q) ∧
    (∀ d k, w.Holds d k → ∀ q, q ≠ c.place → setAt (joinNode d delta) q = setAt d q) ∧
    (c.sides[side]? = some (strBytes (lit "kept")) ∧
        shownAt (p.replica.resolve c side).2.doc (locate c) = true ∧
        (∀ c' ∈ p.replica.conflicts, c' ≠ c → c' ∈ (p.replica.resolve c side).2.conflicts) ∧
        (∀ c' ∈ (p.replica.resolve c side).2.conflicts, c' ≠ c ∧
          (c' ∈ p.replica.conflicts ∨ locate c <+: locate c')) ∧
        (∀ d k, w.Holds d k → shownAt (joinNode d delta) (locate c) = true) ∨
      c.sides[side]? = some (strBytes (lit "deleted")) ∧
        shownAt (p.replica.resolve c side).2.doc (locate c) = false ∧
        (∀ c', c' ∈ (p.replica.resolve c side).2.conflicts ↔ c' ∈ p.replica.conflicts ∧ c' ≠ c) ∧
        ∀ d k, w.Holds d k → shownAt (joinNode d delta) (locate c) = shownAt d (locate c) ∧
          ((∀ t ∈ (setAt p.replica.doc c.place).removes, t ∈ (setAt d c.place).removes) →
            (∀ q u x, locate c <+: q → (setAt d q).IsLive u x → (setAt p.replica.doc q).IsLive u x) →
            ∀ policy, c ∉ conflicts (joinNode d delta) policy)) := by
  have hw := h.sound
  have hp := hw.peers id p there
  have hshaped := hp.tells.1
  have hplace : c.place = locate c ++ [Key.present] := by rw [Conflict.place, hk]
  have hset : IsSetPath c.place := hplace ▸ (hshaped.placed hc).thing.present
  obtain ⟨m, r, g, hat, hn, hdead, hraced, he⟩ := conflict_deleted hshaped hc hk
  have hsides : c.sides = [strBytes (lit "kept"), strBytes (lit "deleted")] := by
    rw [he]
    exact deletedConflict_sides
  have hv := (Replica.resolve_ok ok).1
  have hpolicy := (Replica.resolve_ok ok).2.2.2.2.1
  have hnodes : ∀ {d : Json}, (∀ q, HasNode d q ↔ HasNode p.replica.doc q ∨ q <+: c.place) →
      ∀ q, HasNode d q ↔ HasNode p.replica.doc q := by
    intro d hd q
    rw [hd, or_iff_left_of_imp]
    rintro ⟨x, hx⟩
    exact hasNode_of_append (hx ▸ hasNode_place hshaped hc)
  have hside : side = 0 ∨ side = 1 := by
    obtain ⟨hlt, -⟩ := List.getElem?_eq_some_iff.mp hv
    rw [hsides] at hlt
    simp at hlt
    omega
  unfold Replica.conflicts
  rw [hpolicy]
  rcases hside with rfl | rfl
  · -- The thing is kept.
    obtain ⟨v, hs⟩ := settles_kept (hw.editor there) hk hset hdead
      (show strOr (decode (c.sides.getD 0 [])) .empty = .ofLit "kept" by
        rw [hsides]
        rfl)
    obtain ⟨hdoc, hsaying, hnode⟩ := settled_doc hw there hc ok hs
    have hshow : ∀ {d d'}, w.Tells d → Saying c.place (setAt p.replica.doc c.place)
        ((setAt p.replica.doc c.place).add (mintTag p.replica.author.id (p.replica.issued + 1)) v) d d' →
          shownAt d' (locate c) = true := by
      intro d d' hd hsay
      rw [hplace] at hsay
      exact hsay.add_shown (hw.next_tag there hp.tells _).1 (hw.next_tag there hd _).2
    have hkept := conflicts_kept hshaped hc hsaying hk hdoc (hnodes hnode) (hshow hp.tells hsaying)
    refine ⟨fun q => hsaying.setAt_of_ne,
      fun d k hd q => (settled_delta hw there hc ok hs (hw.holds hd)).2.setAt_of_ne,
      .inl ⟨?_, hshow hp.tells hsaying, fun c' hc' hne => (hkept c').1 hc' hne, fun c' hc' => (hkept c').2 hc',
        fun d k hd => ?_⟩⟩
    · rw [hsides]
      rfl
    · exact hshow (hw.holds hd) (settled_delta hw there hc ok hs (hw.holds hd)).2
  · -- It is deleted again.
    obtain ⟨after, hs, hadds, hrem⟩ := settles_deleted (hw.editor there) hk hset hraced
      (show strOr (decode (c.sides.getD 1 [])) .empty = .ofLit "deleted" by
        rw [hsides]
        rfl)
    obtain ⟨hdoc, hsaying, hnode⟩ := settled_doc hw there hc ok hs
    have hlive : ∀ {d d'}, w.Tells d → Saying c.place (setAt p.replica.doc c.place) after d d' →
        ∀ u x, (setAt d' c.place).IsLive u x ↔ (setAt d c.place).IsLive u x := by
      intro d d' hd hsay u x
      have hadd : (setAt d' c.place).adds[u]? = some x ↔ (setAt d c.place).adds[u]? = some x := by
        rw [hsay.adds, or_iff_left]
        rintro ⟨-, hnone, hsome⟩
        rw [hadds, show p.replica.editor.work = p.replica.doc from rfl, hnone] at hsome
        cases hsome
      refine ⟨fun ⟨hx, hr⟩ => ⟨hadd.mp hx, fun hm => hr ((hsay.removes _ _).mpr (.inl hm))⟩,
        fun ⟨hx, hr⟩ => ⟨hadd.mpr hx, fun hm => ?_⟩⟩
      -- A tag of the presence that the removal retires would have been live where the thing is not shown.
      rcases (hsay.removes _ _).mp hm with hm | ⟨-, hn, hm⟩
      · exact hr hm
      · rcases (hrem u).mp hm with (hm | ⟨y, hy⟩) | ⟨q, y, -, hq, hl⟩
        · exact hn hm
        · have hempty : (setAt p.replica.doc c.place).isEmpty = true := by
            rw [shownAt, ← hplace, Bool.not_eq_false'] at hdead
            exact hdead
          exact OrSet.isEmpty_iff.mp hempty u y ⟨hy, hn⟩
        · exact hq (hw.unique _ _ u y x (hp.tells.add hl.1) (hd.add hx)).1
    have hshow : ∀ {d d'}, w.Tells d → Saying c.place (setAt p.replica.doc c.place) after d d' →
        shownAt d' (locate c) = shownAt d (locate c) := by
      intro d d' hd hsay
      rw [shownAt, shownAt, ← hplace, OrSet.isEmpty, OrSet.isEmpty, OrSet.values_congr (hlive hd hsay)]
    have hgone : ∀ {d d'}, Saying c.place (setAt p.replica.doc c.place) after d d' →
        (∀ t ∈ (setAt p.replica.doc c.place).removes, t ∈ (setAt d c.place).removes) →
        (∀ q u x, locate c <+: q → (setAt d q).IsLive u x → (setAt p.replica.doc q).IsLive u x) →
          ¬RacedAt d' (locate c) := by
      intro d d' hsay hknown hseen
      rw [hplace] at hsay hknown
      refine hsay.not_raced hknown fun q u x hq hne hl => (hrem u).mpr (.inr ⟨q, x, hq, ?_, hseen q u x hq hl⟩)
      rwa [hplace]
    refine ⟨fun q => hsaying.setAt_of_ne,
      fun d k hd q => (settled_delta hw there hc ok hs (hw.holds hd)).2.setAt_of_ne,
      .inr ⟨?_, (hshow hp.tells hsaying).trans hdead, fun c' => ?_, fun d k hd => ?_⟩⟩
    · rw [hsides]
      rfl
    · exact conflicts_deleted hshaped hc hsaying hk hdoc (hnodes hnode) (hlive hp.tells hsaying)
        (hgone hsaying (fun _ ht => ht) fun _ _ _ _ hl => hl)
    · obtain ⟨hjoin, hsay⟩ := settled_delta hw there hc ok hs (hw.holds hd)
      refine ⟨hshow (hw.holds hd) hsay, fun hknown hseen policy hc' => ?_⟩
      obtain ⟨_, _, _, -, -, -, hr, -⟩ := conflict_deleted hjoin hc' hk
      exact hgone hsay hknown hseen hr

section

-- What a replica does is evaluated by the kernel only.
attribute [local irreducible] Replica.observe Replica.merge Replica.resolve observedDelta

/-- A mantle that was removed while it was edited is kept. -/
theorem deletion_settled_gappedWorld :
    shownAt (gapped.resolve { deletedConflict with mantle := lit "m" } 0).2.doc mantlePlace = true := by
  have hok : (gapped.resolve { deletedConflict with mantle := lit "m" } 0).1.toOption.join.isSome = true := by
    decide +kernel
  have hc : { deletedConflict with mantle := lit "m" } ∈ gapped.conflicts := by decide +kernel
  obtain ⟨delta, hdelta⟩ := Option.isSome_iff_exists.mp hok
  have ho := toOption_eq_some.mp (Option.join_eq_some_iff.mp hdelta)
  obtain ⟨-, -, hkept | ⟨hv, -⟩⟩ :=
    deletion_settled reachable_gappedWorld gappedWorld_idB hc rfl ho
  · exact hkept.2.1
  · exact absurd hv (by decide)

end

end VoidPalabra
