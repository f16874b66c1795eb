import VoidPalabra.Enrich
import VoidPalabra.Naming
import VoidPalabra.Facts

/-!
# What an enriched document holds

Which tags a mint hands out matters to nothing but their being apart, so a document that
`enrich` makes is described without them: each register has the one value it was written
with, and each set has the values of its list.
-/

namespace VoidPalabra

/-! ### One step after another -/

theorem EnrichM.bind_ok {α β : Type} {x : EnrichM α} {f : α → EnrichM β} {n k : ℕ} {b : β} :
    (x >>= f) n = .ok (b, k) ↔ ∃ a j, x n = .ok (a, j) ∧ f a j = .ok (b, k) := by
  rw [show (x >>= f) n = x n >>= fun p => f p.1 p.2 from rfl, bind_eq_ok]
  constructor
  · rintro ⟨⟨a, j⟩, hx, hf⟩
    exact ⟨a, j, hx, hf⟩
  · rintro ⟨a, j, hx, hf⟩
    exact ⟨(a, j), hx, hf⟩

theorem EnrichM.pure_ok {α : Type} {a b : α} {n k : ℕ} :
    (pure a : EnrichM α) n = .ok (b, k) ↔ b = a ∧ k = n := by
  rw [show (pure a : EnrichM α) n = .ok (a, n) from rfl, Except.ok.injEq, Prod.mk.injEq]
  exact ⟨fun h => ⟨h.1.symm, h.2.symm⟩, fun h => ⟨h.1.symm, h.2.symm⟩⟩

theorem EnrichM.lift_ok {α : Type} {x : Except CanonicalError α} {a : α} {n k : ℕ} :
    EnrichM.lift x n = .ok (a, k) ↔ x = .ok a ∧ k = n := by
  rw [EnrichM.lift, bind_eq_ok]
  constructor
  · rintro ⟨v, hv, h⟩
    cases h
    exact ⟨hv, rfl⟩
  · rintro ⟨hv, rfl⟩
    exact ⟨a, hv, rfl⟩

/-- What each round makes, and that every round is made. -/
theorem enrichEach_ok {α β : Type} {f : α → EnrichM β} {P : α → β → Prop}
    (h : ∀ x n y k, f x n = .ok (y, k) → P x y) {xs : List α} :
    ∀ {n k : ℕ} {ys : List β}, enrichEach f xs n = .ok (ys, k) → List.Forall₂ P xs ys := by
  induction xs with
  | nil =>
    intro n k ys hys
    obtain ⟨rfl, -⟩ := EnrichM.pure_ok.mp hys
    exact .nil
  | cons x xs ih =>
    intro n k ys hys
    obtain ⟨y, j, hy, hys⟩ := EnrichM.bind_ok.mp hys
    obtain ⟨rest, i, hrest, hys⟩ := EnrichM.bind_ok.mp hys
    obtain ⟨rfl, -⟩ := EnrichM.pure_ok.mp hys
    exact .cons (h _ _ _ _ hy) (ih hrest)

/-- A loop ends when each of its rounds does. -/
theorem enrichEach_total {α β : Type} {f : α → EnrichM β} {xs : List α}
    (h : ∀ x ∈ xs, ∀ n, ∃ y k, f x n = .ok (y, k)) :
    ∀ n, ∃ ys k, enrichEach f xs n = .ok (ys, k) := by
  induction xs with
  | nil => exact fun n => ⟨[], n, rfl⟩
  | cons x xs ih =>
    intro n
    obtain ⟨hx, hxs⟩ := List.forall_mem_cons.mp h
    obtain ⟨y, j, hy⟩ := hx n
    obtain ⟨ys, k, hys⟩ := ih hxs j
    exact ⟨y :: ys, k, EnrichM.bind_ok.mpr ⟨y, j, hy, EnrichM.bind_ok.mpr ⟨ys, k, hys, rfl⟩⟩⟩

/-! ### Sets -/

/-- A set with one add, of these bytes. -/
def Holds (b : Bytes) (reg : Json) : Prop :=
  ∃ t : Tag, t.isEmpty = false ∧ reg = orsetToJson (OrSet.empty.add t b)

/-- A set with nothing retired, whose values are the encodings of a list. -/
structure Lists (vs : List Json) (s : OrSet) : Prop where
  /-- Every tag has a name. -/
  named : s.Named
  /-- Nothing is retired. -/
  removes : ∀ t, t ∉ s.removes
  /-- The values. -/
  values : ∀ b, (∃ t : Tag, s.adds[t]? = some b) ↔ ∃ v ∈ vs, encode v = .ok b

section

variable {mint : Mint}

theorem enrichOne_ok {value : Except CanonicalError Bytes} {n k : ℕ} {reg : Json}
    (h : enrichOne mint value n = .ok (reg, k)) : ∃ b, value = .ok b ∧ Holds b reg := by
  obtain ⟨t, j, ht, h⟩ := EnrichM.bind_ok.mp h
  cases ht
  obtain ⟨b, i, hb, h⟩ := EnrichM.bind_ok.mp h
  obtain ⟨hb, -⟩ := EnrichM.lift_ok.mp hb
  obtain ⟨rfl, -⟩ := EnrichM.pure_ok.mp h
  exact ⟨b, hb, mint.tag n, mint.named n, rfl⟩

theorem enrichOne_total (mint : Mint) {value : Except CanonicalError Bytes} {b : Bytes}
    (h : value = .ok b) (n : ℕ) :
    ∃ reg k, enrichOne mint value n = .ok (reg, k) :=
  ⟨_, _, EnrichM.bind_ok.mpr ⟨_, _, rfl, EnrichM.bind_ok.mpr
    ⟨b, _, EnrichM.lift_ok.mpr ⟨h, rfl⟩, rfl⟩⟩⟩

/-- The adds made so far have tags handed out so far. -/
theorem addValues_spec {vs : List Json} : ∀ {s s' : OrSet} {n k : ℕ},
    addValues mint vs s n = .ok (s', k) →
      (∀ (t : Tag) (b : Bytes), s.adds[t]? = some b → ∃ i < n, t = mint.tag i) →
        (∀ v ∈ vs, HasForm v) ∧ s'.removes = s.removes ∧
        (∀ (t : Tag) (b : Bytes), s'.adds[t]? = some b → ∃ i < k, t = mint.tag i) ∧
        ∀ b, (∃ t : Tag, s'.adds[t]? = some b) ↔
          (∃ t : Tag, s.adds[t]? = some b) ∨ ∃ v ∈ vs, encode v = .ok b := by
  induction vs with
  | nil =>
    intro s s' n k h hs
    obtain ⟨rfl, rfl⟩ := EnrichM.pure_ok.mp h
    exact ⟨by simp, rfl, hs, by simp⟩
  | cons v vs ih =>
    intro s s' n k h hs
    obtain ⟨t, j, ht, h⟩ := EnrichM.bind_ok.mp h
    cases ht
    obtain ⟨b, i, hb, h⟩ := EnrichM.bind_ok.mp h
    obtain ⟨hv, rfl⟩ := EnrichM.lift_ok.mp hb
    have hb : encode v = .ok b := hv
    have hfresh : s.adds[mint.tag n]? = none := by
      cases hc : s.adds[mint.tag n]? with
      | none => rfl
      | some c =>
        obtain ⟨i, hi, he⟩ := hs _ _ hc
        exact absurd (mint.distinct he) (by omega)
    have hadd : ∀ (t : Tag) (c : Bytes), (s.add (mint.tag n) b).adds[t]? = some c ↔
        s.adds[t]? = some c ∨ t = mint.tag n ∧ c = b := by
      intro t c
      rw [OrSet.add_adds]
      by_cases ht : mint.tag n = t
      · subst ht
        rw [if_pos rfl, hfresh]
        simp [eq_comm]
      · rw [if_neg ht, or_iff_left fun he => ht he.1.symm]
    obtain ⟨hform, hrem, htags, hvals⟩ := ih h fun t c hc => by
      rcases (hadd t c).mp hc with hc | ⟨rfl, -⟩
      · obtain ⟨i, hi, rfl⟩ := hs t c hc
        exact ⟨i, by omega, rfl⟩
      · exact ⟨n, by omega, rfl⟩
    refine ⟨List.forall_mem_cons.mpr ⟨⟨b, hb⟩, hform⟩, hrem, htags, fun c => ?_⟩
    rw [hvals]
    constructor
    · rintro (⟨t, hc⟩ | ⟨w, hw, he⟩)
      · rcases (hadd t c).mp hc with hc | ⟨-, rfl⟩
        · exact .inl ⟨t, hc⟩
        · exact .inr ⟨v, List.mem_cons_self, hb⟩
      · exact .inr ⟨w, List.mem_cons_of_mem _ hw, he⟩
    · rintro (⟨t, hc⟩ | ⟨w, hw, he⟩)
      · exact .inl ⟨t, (hadd t c).mpr (.inl hc)⟩
      · rcases List.mem_cons.mp hw with rfl | hw
        · have hbc : b = c := Except.ok.inj (hb.symm.trans he)
          exact .inl ⟨_, (hadd _ c).mpr (.inr ⟨rfl, hbc.symm⟩)⟩
        · exact .inr ⟨w, hw, he⟩

theorem addValues_ok {vs : List Json} {s : OrSet} {n k : ℕ}
    (h : addValues mint vs .empty n = .ok (s, k)) : (∀ v ∈ vs, HasForm v) ∧ Lists vs s := by
  obtain ⟨hform, hrem, htags, hvals⟩ := addValues_spec h (by simp)
  refine ⟨hform, ⟨fun t b hb => ?_, fun t ht => ?_⟩, fun t ht => ?_, fun b => ?_⟩
  · obtain ⟨i, -, rfl⟩ := htags t b hb
    exact mint.named i
  · rw [hrem] at ht
    exact absurd ht (OrSet.not_mem_empty_removes t)
  · rw [hrem] at ht
    exact OrSet.not_mem_empty_removes t ht
  · rw [hvals]
    simp

theorem addValues_total (mint : Mint) {vs : List Json} (h : ∀ v ∈ vs, HasForm v) :
    ∀ (s : OrSet) (n : ℕ), ∃ s' k, addValues mint vs s n = .ok (s', k) := by
  induction vs with
  | nil => exact fun s n => ⟨s, n, rfl⟩
  | cons v vs ih =>
    intro s n
    obtain ⟨⟨b, hb⟩, hvs⟩ := List.forall_mem_cons.mp h
    obtain ⟨s', k, hs⟩ := ih hvs (s.add (mint.tag n) b) (n + 1)
    exact ⟨s', k, EnrichM.bind_ok.mpr ⟨_, _, rfl, EnrichM.bind_ok.mpr
      ⟨b, _, EnrichM.lift_ok.mpr ⟨hb, rfl⟩, hs⟩⟩⟩

end

/-! ### Things -/

/-- A field and its register. -/
def FieldEnriched (f : CString × Option Json) (out : CString × Json) : Prop :=
  out.1 = f.1 ∧ ∃ b, asText f.2 = .ok b ∧ Holds b out.2

/-- What becomes of a rune. -/
inductive RuneEnriched (r : Json) : List (CString × Json) → Prop
  /-- It has no identity. -/
  | skipped (unnamed : runeId r = none) : RuneEnriched r []
  /-- It is there. -/
  | rune {id : CString} {present : Json} {fields : List (CString × Json)} {tags : OrSet}
    (named : runeId r = some id) (there : Holds (lit "1") present)
    (registers : List.Forall₂ FieldEnriched (runeRegisters r) fields)
    (text : ∀ v ∈ childValues (r.get Key.tags), HasForm v)
    (lists : Lists (childValues (r.get Key.tags)) tags) :
    RuneEnriched r [(id, .obj [(Key.present, present), (Key.fields, .obj fields),
      (Key.tags, orsetToJson tags)])]

/-- What becomes of a mantle. -/
inductive MantleEnriched (m : Json) : List (CString × Json) → Prop
  /-- It has no name. -/
  | skipped (unnamed : mantleName m = none) : MantleEnriched m []
  /-- It is there. -/
  | mantle {name : CString} {present : Json} {fields : List (CString × Json)}
    {runes : List (List (CString × Json))} {edges : OrSet} (named : mantleName m = some name)
    (there : Holds (lit "1") present)
    (registers : List.Forall₂ FieldEnriched (mantleRegisters m) fields)
    (things : List.Forall₂ RuneEnriched (childValues (m.get Key.runes)) runes)
    (text : ∀ v ∈ childValues (get (m.get Key.layout) Key.edges), HasForm v)
    (lists : Lists (childValues (get (m.get Key.layout) Key.edges)) edges) :
    MantleEnriched m [(name, .obj [(Key.present, present), (Key.fields, .obj fields),
      (Key.runes, .obj runes.flatten), (Key.edges, orsetToJson edges)])]

/-- What becomes of a declaration. -/
def GlyphEnriched (g out : CString × Json) : Prop :=
  ∃ present reg b, canonGlyphDescriptor g.2 = .ok b ∧ Holds [] present ∧ Holds b reg ∧
    out = (g.1, .obj [(Key.present, present), (Key.fields, .obj [(Key.descriptor, reg)])])

/-- What becomes of a state. -/
def StateEnriched (state doc : Json) : Prop :=
  ∃ mantles glyphs, List.Forall₂ MantleEnriched (childValues (state.get Key.mantles)) mantles ∧
    List.Forall₂ GlyphEnriched (childMembers (state.get Key.glyphs)) glyphs ∧
    doc = .obj [(Key.palabra, .num Double.one), (Key.mantles, .obj mantles.flatten),
      (Key.glyphs, .obj glyphs)]

section

variable {mint : Mint}

theorem addField_ok {f : CString × Option Json} {n k : ℕ} {out : CString × Json}
    (h : addField mint f n = .ok (out, k)) : FieldEnriched f out := by
  obtain ⟨reg, j, hreg, h⟩ := EnrichM.bind_ok.mp h
  obtain ⟨rfl, -⟩ := EnrichM.pure_ok.mp h
  obtain ⟨b, hb, hh⟩ := enrichOne_ok hreg
  exact ⟨rfl, b, hb, hh⟩

theorem enrichRune_ok {r : Json} {n k : ℕ} {out : List (CString × Json)}
    (h : enrichRune mint r n = .ok (out, k)) : RuneEnriched r out := by
  unfold enrichRune at h
  cases hid : runeId r with
  | none =>
    rw [hid] at h
    obtain ⟨rfl, -⟩ := EnrichM.pure_ok.mp h
    exact .skipped hid
  | some id =>
    rw [hid] at h
    obtain ⟨present, _, hp, h⟩ := EnrichM.bind_ok.mp h
    obtain ⟨fields, _, hf, h⟩ := EnrichM.bind_ok.mp h
    obtain ⟨tags, _, ht, h⟩ := EnrichM.bind_ok.mp h
    obtain ⟨rfl, -⟩ := EnrichM.pure_ok.mp h
    obtain ⟨b, hb, hp⟩ := enrichOne_ok hp
    cases hb
    obtain ⟨htext, hlists⟩ := addValues_ok ht
    exact .rune hid hp (enrichEach_ok (P := FieldEnriched) (fun _ _ _ _ => addField_ok) hf) htext hlists

theorem enrichMantle_ok {m : Json} {n k : ℕ} {out : List (CString × Json)}
    (h : enrichMantle mint m n = .ok (out, k)) : MantleEnriched m out := by
  unfold enrichMantle at h
  cases hname : mantleName m with
  | none =>
    rw [hname] at h
    obtain ⟨rfl, -⟩ := EnrichM.pure_ok.mp h
    exact .skipped hname
  | some name =>
    rw [hname] at h
    obtain ⟨present, _, hp, h⟩ := EnrichM.bind_ok.mp h
    obtain ⟨fields, _, hf, h⟩ := EnrichM.bind_ok.mp h
    obtain ⟨runes, _, hr, h⟩ := EnrichM.bind_ok.mp h
    obtain ⟨edges, _, he, h⟩ := EnrichM.bind_ok.mp h
    obtain ⟨rfl, -⟩ := EnrichM.pure_ok.mp h
    obtain ⟨b, hb, hp⟩ := enrichOne_ok hp
    cases hb
    obtain ⟨htext, hlists⟩ := addValues_ok he
    exact .mantle hname hp (enrichEach_ok (P := FieldEnriched) (fun _ _ _ _ => addField_ok) hf)
      (enrichEach_ok (P := RuneEnriched) (fun _ _ _ _ => enrichRune_ok) hr) htext hlists

theorem enrichGlyph_ok {g out : CString × Json} {n k : ℕ}
    (h : enrichGlyph mint g n = .ok (out, k)) : GlyphEnriched g out := by
  obtain ⟨present, _, hp, h⟩ := EnrichM.bind_ok.mp h
  obtain ⟨reg, _, hr, h⟩ := EnrichM.bind_ok.mp h
  obtain ⟨rfl, -⟩ := EnrichM.pure_ok.mp h
  obtain ⟨b, hb, hp⟩ := enrichOne_ok hp
  cases hb
  obtain ⟨d, hd, hr⟩ := enrichOne_ok hr
  exact ⟨present, reg, d, hd, hp, hr, rfl⟩

/-- A document that `enrich` makes, described without its tags. -/
theorem enrich_ok {state doc : Json} (h : enrich mint state = .ok doc) : StateEnriched state doc := by
  obtain ⟨⟨d, k⟩, hd, h⟩ := bind_eq_ok.mp h
  cases h
  obtain ⟨mantles, _, hm, hd⟩ := EnrichM.bind_ok.mp hd
  obtain ⟨glyphs, _, hg, hd⟩ := EnrichM.bind_ok.mp hd
  obtain ⟨rfl, -⟩ := EnrichM.pure_ok.mp hd
  exact ⟨mantles, glyphs, enrichEach_ok (P := MantleEnriched) (fun _ _ _ _ => enrichMantle_ok) hm,
    enrichEach_ok (P := GlyphEnriched) (fun _ _ _ _ => enrichGlyph_ok) hg, rfl⟩

end

/-! ### What is written -/

/-- The values that a rune's registers and tags are written with. -/
def writtenRune (r : Json) : List Json :=
  match runeId r with
  | none => []
  | some _ => (runeRegisters r).map (fun f => f.2.getD .null) ++ childValues (r.get Key.tags)

/-- The values that a mantle's registers, runes and edges are written with. -/
def writtenMantle (m : Json) : List Json :=
  match mantleName m with
  | none => []
  | some _ => (mantleRegisters m).map (fun f => f.2.getD .null) ++
      (childValues (m.get Key.runes)).flatMap writtenRune ++
      childValues (get (m.get Key.layout) Key.edges)

/-- The values that `enrich` encodes with `as_text`. -/
def written (state : Json) : List Json :=
  (childValues (state.get Key.mantles)).flatMap writtenMantle

section

variable (mint : Mint)

theorem addField_total {f : CString × Option Json} (h : HasForm (f.2.getD .null)) (n : ℕ) :
    ∃ out k, addField mint f n = .ok (out, k) := by
  obtain ⟨b, hb⟩ := h
  obtain ⟨reg, k, hreg⟩ := enrichOne_total mint hb n
  exact ⟨_, _, EnrichM.bind_ok.mpr ⟨reg, k, hreg, rfl⟩⟩

theorem addFields_total {fs : List (CString × Option Json)}
    (h : ∀ v ∈ fs.map (fun f => f.2.getD .null), HasForm v) (n : ℕ) :
    ∃ out k, enrichEach (addField mint) fs n = .ok (out, k) :=
  enrichEach_total (fun _ hf => addField_total mint (h _ (List.mem_map_of_mem hf))) n

theorem enrichRune_total {r : Json} (h : ∀ v ∈ writtenRune r, HasForm v) (n : ℕ) :
    ∃ out k, enrichRune mint r n = .ok (out, k) := by
  unfold enrichRune
  unfold writtenRune at h
  cases hid : runeId r with
  | none => exact ⟨[], n, rfl⟩
  | some id =>
    rw [hid] at h
    obtain ⟨hfields, htags⟩ := List.forall_mem_append.mp h
    obtain ⟨present, i, hp⟩ := enrichOne_total mint (b := lit "1") rfl n
    obtain ⟨fields, j, hf⟩ := addFields_total mint hfields i
    obtain ⟨tags, k, ht⟩ := addValues_total mint htags .empty j
    exact ⟨_, _, EnrichM.bind_ok.mpr ⟨present, i, hp, EnrichM.bind_ok.mpr ⟨fields, j, hf,
      EnrichM.bind_ok.mpr ⟨tags, k, ht, rfl⟩⟩⟩⟩

theorem enrichMantle_total {m : Json} (h : ∀ v ∈ writtenMantle m, HasForm v) (n : ℕ) :
    ∃ out k, enrichMantle mint m n = .ok (out, k) := by
  unfold enrichMantle
  unfold writtenMantle at h
  cases hname : mantleName m with
  | none => exact ⟨[], n, rfl⟩
  | some name =>
    rw [hname] at h
    obtain ⟨hfr, hedges⟩ := List.forall_mem_append.mp h
    obtain ⟨hfields, hrunes⟩ := List.forall_mem_append.mp hfr
    obtain ⟨present, i, hp⟩ := enrichOne_total mint (b := lit "1") rfl n
    obtain ⟨fields, j, hf⟩ := addFields_total mint hfields i
    obtain ⟨runes, k, hr⟩ := enrichEach_total (f := enrichRune mint)
      (fun r hr => enrichRune_total mint fun v hv => hrunes v (List.mem_flatMap.mpr ⟨r, hr, hv⟩)) j
    obtain ⟨edges, l, he⟩ := addValues_total mint hedges .empty k
    exact ⟨_, _, EnrichM.bind_ok.mpr ⟨present, i, hp, EnrichM.bind_ok.mpr ⟨fields, j, hf,
      EnrichM.bind_ok.mpr ⟨runes, k, hr, EnrichM.bind_ok.mpr ⟨edges, l, he, rfl⟩⟩⟩⟩⟩

/-- `enrich` refuses a state only for a value without a canonical form. -/
theorem enrich_total {state : Json} (h : ∀ v ∈ written state, HasForm v)
    (hg : ∀ g ∈ childMembers (state.get Key.glyphs), ∃ b, canonGlyphDescriptor g.2 = .ok b) :
    ∃ doc, enrich mint state = .ok doc := by
  obtain ⟨mantles, i, hm⟩ := enrichEach_total (f := enrichMantle mint)
    (fun m hm => enrichMantle_total mint fun v hv => h v (List.mem_flatMap.mpr ⟨m, hm, hv⟩)) 0
  obtain ⟨glyphs, j, hgl⟩ := enrichEach_total (f := enrichGlyph mint) (fun g hgm n => by
    obtain ⟨b, hb⟩ := hg g hgm
    obtain ⟨present, k, hp⟩ := enrichOne_total mint (b := []) rfl n
    obtain ⟨reg, l, hr⟩ := enrichOne_total mint hb k
    exact ⟨_, _, EnrichM.bind_ok.mpr ⟨present, k, hp, EnrichM.bind_ok.mpr ⟨reg, l, hr, rfl⟩⟩⟩) i
  have hstate : enrichState mint state 0 = .ok (_, j) :=
    EnrichM.bind_ok.mpr ⟨mantles, i, hm, EnrichM.bind_ok.mpr ⟨glyphs, j, hgl, rfl⟩⟩
  exact ⟨_, bind_eq_ok.mpr ⟨_, hstate, rfl⟩⟩

end

theorem forall₂_left {α β : Type} {P : α → β → Prop} {xs : List α} {ys : List β}
    (h : List.Forall₂ P xs ys) {x : α} (hx : x ∈ xs) : ∃ y ∈ ys, P x y := by
  induction h with
  | nil => cases hx
  | cons hp _ ih =>
    rcases List.mem_cons.mp hx with rfl | hx
    · exact ⟨_, List.mem_cons_self, hp⟩
    · obtain ⟨y, hy, hp⟩ := ih hx
      exact ⟨y, List.mem_cons_of_mem _ hy, hp⟩

theorem fields_hasForm {fs : List (CString × Option Json)} {out : List (CString × Json)}
    (h : List.Forall₂ FieldEnriched fs out) : ∀ v ∈ fs.map (fun f => f.2.getD .null), HasForm v := by
  intro v hv
  obtain ⟨f, hf, rfl⟩ := List.mem_map.mp hv
  obtain ⟨o, -, -, b, hb, -⟩ := forall₂_left h hf
  exact ⟨b, hb⟩

/-- Every value that was written has a canonical form. -/
theorem written_hasForm {state doc : Json} (h : StateEnriched state doc) :
    ∀ v ∈ written state, HasForm v := by
  obtain ⟨mantles, glyphs, hm, -, -⟩ := h
  intro v hv
  obtain ⟨m, hmem, hv⟩ := List.mem_flatMap.mp hv
  obtain ⟨out, -, hout⟩ := forall₂_left hm hmem
  unfold writtenMantle at hv
  cases hout with
  | skipped unnamed =>
    rw [unnamed] at hv
    cases hv
  | mantle named there registers things text lists =>
    rw [named] at hv
    rcases List.mem_append.mp hv with hv | hv
    · rcases List.mem_append.mp hv with hv | hv
      · exact fields_hasForm registers v hv
      · obtain ⟨r, hr, hv⟩ := List.mem_flatMap.mp hv
        obtain ⟨rout, -, hrout⟩ := forall₂_left things hr
        unfold writtenRune at hv
        cases hrout with
        | skipped unnamed =>
          rw [unnamed] at hv
          cases hv
        | rune rnamed _ rregisters rtext _ =>
          rw [rnamed] at hv
          rcases List.mem_append.mp hv with hv | hv
          · exact fields_hasForm rregisters v hv
          · exact rtext v hv
    · exact text v hv

/-- Every declaration was accepted. -/
theorem glyphs_accepted {state doc : Json} (h : StateEnriched state doc) :
    ∀ g ∈ childMembers (state.get Key.glyphs), ∃ b, canonGlyphDescriptor g.2 = .ok b := by
  obtain ⟨mantles, glyphs, -, hg, -⟩ := h
  intro g hgm
  obtain ⟨out, -, present, reg, b, hb, -⟩ := forall₂_left hg hgm
  exact ⟨b, hb⟩

theorem forall₂_right {α β : Type} {P : α → β → Prop} {xs : List α} {ys : List β}
    (h : List.Forall₂ P xs ys) {y : β} (hy : y ∈ ys) : ∃ x ∈ xs, P x y :=
  forall₂_left h.flip hy

end VoidPalabra
