import VoidPalabra.Effects
import VoidPalabra.Causality
import VoidPalabra.Tags

/-!
# Removed while edited

A thing that is not shown is reported when something beneath it is live that no removal
of it recorded. What a removal records is what was live where it was made, so the report
is about edits that the removals did not see. A state in which the thing is still absent
leaves it as it was.
-/

namespace VoidPalabra

/-! ### States in which a thing is absent -/

/-- A state names the thing at a path. -/
inductive NamedIn (state : Json) : Path → Prop
  /-- A mantle. -/
  | mantle {v : Json} {m : CString} (member : v ∈ childValues (state.get Key.mantles))
    (name : mantleName v = some m) : NamedIn state [Key.mantles, m]
  /-- A rune. -/
  | rune {v u : Json} {m r : CString} (member : v ∈ childValues (state.get Key.mantles))
    (name : mantleName v = some m) (below : u ∈ childValues (v.get Key.runes))
    (id : runeId u = some r) : NamedIn state [Key.mantles, m, Key.runes, r]
  /-- A glyph declaration. -/
  | glyph {v : Json} {g : CString} (member : (g, v) ∈ childMembers (state.get Key.glyphs)) :
    NamedIn state [Key.glyphs, g]

/-- What was gathered under a name has it. -/
theorem gather_mem {nameOf : Json → Option CString} {missing duplicate : String} :
    ∀ {values : List Json} {out d : Dict Json}, gather nameOf missing duplicate values out = .ok d →
      ∀ (k : CString) (v : Json), d[k]? = some v →
        out[k]? = some v ∨ v ∈ values ∧ nameOf v = some k := by
  intro values
  induction values with
  | nil =>
    intro out d h k v hv
    cases h
    exact .inl hv
  | cons u values ih =>
    intro out d h k v hv
    rw [gather] at h
    split at h
    · cases h
    · rename_i j hj
      split at h
      · cases h
      · split at h
        · cases h
        · rcases ih h k v hv with ho | ⟨hm, hk⟩
          · rw [Std.ExtTreeMap.getElem?_insert] at ho
            split at ho
            · rename_i he
              cases ho
              rw [Std.LawfulEqCmp.compare_eq_iff_eq] at he
              exact .inr ⟨List.mem_cons_self, he ▸ hj⟩
            · exact .inl ho
          · exact .inr ⟨List.mem_cons_of_mem _ hm, hk⟩

theorem gatherGlyphs_mem : ∀ {members : List (CString × Json)} {out d : Dict Bytes},
    gatherGlyphs members out = .ok d → ∀ k ∈ d, k ∈ out ∨ ∃ g, (k, g) ∈ members := by
  intro members
  induction members with
  | nil =>
    intro out d h k hk
    cases h
    exact .inl hk
  | cons m members ih =>
    intro out d h k hk
    obtain ⟨j, g⟩ := m
    rw [gatherGlyphs] at h
    split at h
    · cases h
    · obtain ⟨b, -, h⟩ := bind_eq_ok.mp h
      rcases ih h k hk with ho | ⟨g', hg'⟩
      · rcases Std.ExtTreeMap.mem_insert.mp ho with he | ho
        · rw [Std.LawfulEqCmp.compare_eq_iff_eq] at he
          exact .inr ⟨g, he ▸ List.mem_cons_self⟩
        · exact .inl ho
      · exact .inr ⟨g', List.mem_cons_of_mem _ hg'⟩

/-- What is in a dictionary's list is found under its name. -/
theorem getElem?_of_mem_toList {β : Type} {d : Dict β} {m : CString × β} (h : m ∈ d.toList) :
    d[m.1]? = some m.2 :=
  Std.ExtTreeMap.mem_toList_iff_getElem?_eq_some.mp (show (m.1, m.2) ∈ d.toList from h)

section

variable {a : Author} {d₀ : Json} {i₀ : ℕ}

/-- A mantle that is observed without a rune that is not shown leaves the rune as it was. -/
theorem spares_observeMantle {base : Path} (hb : AtKind base mantleKind) {r : CString}
    (hr : r.isEmpty = false) (m : Json) (habsent : ∀ u ∈ childValues (m.get Key.runes), runeId u ≠ some r) :
    Spares a d₀ i₀ (base ++ [Key.runes, r]) (observeMantle a base m) := by
  have hx : IsSetPath (base ++ [Key.runes, r] ++ [Key.present]) := (hb.rune hr).present_rune
  have hfields : ∀ name p, p = base ++ [Key.fields] ++ [name] → ¬base ++ [Key.runes, r] <+: p := by
    rintro name - rfl hpre
    rw [List.append_assoc, List.prefix_append_right_inj, List.singleton_append,
      List.cons_prefix_cons] at hpre
    exact absurd hpre.1 (by decide)
  have hfixed : ∀ f v, mantleFieldAllowed f = true →
      Spares a d₀ i₀ (base ++ [Key.runes, r]) (fixedField a (base ++ [Key.fields]) f v) := fun f v hf =>
    (keeps_fixedField (hb.mantle_field hf) hb.mantle_fieldsAt.noPresent v).spares (logs_fixedField _ _ _)
      (hfields f)
  have hshort : ∀ k p, k ≠ Key.runes → p = base ++ [k] → ¬base ++ [Key.runes, r] <+: p := by
    rintro k - hk rfl hpre
    rw [List.prefix_append_right_inj, List.cons_prefix_cons] at hpre
    exact hk hpre.1.symm
  refine ((keeps_makePresent hb.present_mantle _).spares (logs_makePresent _ _)
    (hshort Key.present · (by decide))).bind fun _ => ?_
  refine (hfixed _ _ (by decide)).bind fun _ => (hfixed _ _ (by decide)).bind fun _ => ?_
  dsimp only
  split
  · exact spares_refuse _
  · refine ((keeps_keyedFields hb.mantle_fieldsAt (fun k hk => mantleFieldAllowed_tag hk) _).spares
      (logs_keyedFields _ _ _) fun p ⟨f, _, hp⟩ => hfields f p hp).bind fun _ => ?_
    refine ((keeps_optionalField (hb.mantle_field (by decide)) hb.mantle_fieldsAt.noPresent _).spares
      (logs_optionalField _ _ _) (hfields _)).bind fun _ => ?_
    refine spares_lift_bind fun runes hruns => ?_
    refine (spares_each fun u hu => ?_).bind fun _ => ?_
    · have hname := gather_named hruns (by simp) _ (mem_of_mem_toList hu)
      refine (keeps_observeRune (hb.rune hname) _).spares (logs_observeRune _ _) fun p hp => ?_
      have hne : u.1 ≠ r := by
        rintro rfl
        rcases gather_mem hruns _ _ (getElem?_of_mem_toList hu) with h | ⟨hm, hid⟩
        · simp at h
        · exact habsent _ hm hid
      refine not_prefix_of_apart (fun hpre => ?_) (fun hpre => ?_) hp
      · rw [List.prefix_append_right_inj] at hpre
        simp only [List.cons_prefix_cons, List.prefix_rfl, and_true, true_and] at hpre
        exact hne hpre
      · rw [List.prefix_append_right_inj] at hpre
        simp only [List.cons_prefix_cons, List.prefix_rfl, and_true, true_and] at hpre
        exact hne hpre.symm
    · refine Spares.bind ?_ fun _ => ?_
      · refine spares_removeGone hb.namedAt_runes _ hx fun name hpre => ?_
        simp only [List.append_assoc, List.cons_append, List.nil_append,
          List.prefix_append_right_inj, List.cons_prefix_cons, List.nil_prefix, and_true, true_and] at hpre
        simp [hpre]
      · exact (keeps_syncValues hb.mantle_edges (by decide) _).spares (logs_syncValues _ _)
          (hshort Key.edges · (by decide))

/-- The names in a thing's path are not empty. -/
inductive ThingPath : Path → Prop
  /-- A mantle. -/
  | mantle {m : CString} (named : m.isEmpty = false) : ThingPath [Key.mantles, m]
  /-- A rune. -/
  | rune {m r : CString} (named : m.isEmpty = false) (id : r.isEmpty = false) :
    ThingPath [Key.mantles, m, Key.runes, r]
  /-- A glyph. -/
  | glyph {g : CString} (named : g.isEmpty = false) : ThingPath [Key.glyphs, g]

theorem ThingPath.thing {x : Path} (h : ThingPath x) : ThingAt x := by
  cases h with
  | mantle named => exact (atKind_mantle named).mantle_thing
  | rune named id => exact ((atKind_mantle named).rune id).rune_thing
  | glyph named => exact (atKind_glyph named).glyph_thing

/-- A path that names a thing is a thing's, or nothing can stand there. -/
theorem PlaceAt.thingPath {d : Json} {x : Path} {m r g : Bytes} (hp : PlaceAt d x m r g) :
    ThingPath x ∨ ∀ q, x <+: q → kindOf q = none := by
  have hnone : ∀ {x : Path}, kindOf x = none → ∀ q, x <+: q → kindOf q = none := by
    rintro x hx - ⟨q, rfl⟩
    by_contra hq
    cases q with
    | nil =>
      rw [List.append_nil] at hq
      exact hq hx
    | cons k q =>
      have hmap := kindOf_prefix (q := x) (List.cons_ne_nil k q) (Option.isSome_iff_ne_none.mpr hq)
      rw [hx] at hmap
      cases hmap
  have hdecide : ∀ {x : Path}, (∀ k, kindOf x = some k → ThingPath x) →
      ThingPath x ∨ ∀ q, x <+: q → kindOf q = none := by
    intro x h
    cases hk : kindOf x with
    | some k => exact .inl (h k hk)
    | none => exact .inr (hnone hk)
  cases hp with
  | mantle n => exact hdecide fun k hk => .mantle (namedAt_mantles.named n (by
      rw [List.singleton_append, hk]
      rfl))
  | rune n u shown =>
    refine hdecide fun k hk => ?_
    have hn : n.isEmpty = false := namedAt_mantles.named n (by
      rw [List.singleton_append, kindOf_prefix (q := [Key.mantles, n]) (r := [Key.runes, u]) (by simp)
        (by rw [List.cons_append, List.singleton_append, hk]; rfl)]
      rfl)
    exact .rune hn ((atKind_mantle hn).namedAt_runes.named u (by
      rw [show [Key.mantles, n] ++ [Key.runes] ++ [u] = [Key.mantles, n, Key.runes, u] from rfl, hk]
      rfl))
  | glyph u => exact hdecide fun k hk => .glyph (namedAt_glyphs.named u (by
      rw [List.singleton_append, hk]
      rfl))

theorem cons_prefix_pair {a b c : CString} {p : Path} :
    a :: b :: p <+: [a, c] ↔ b = c ∧ p = [] := by
  rw [List.cons_prefix_cons, List.cons_prefix_cons, List.prefix_nil]
  simp

/-- A state in which something is absent that is not shown leaves it as it was. -/
theorem spares_observeInto {x : Path} (hx : ThingPath x) {state : Json} (habsent : ¬NamedIn state x) :
    Spares a d₀ i₀ x (observeInto a (some state)) := by
  have hset := hx.thing.present
  have hroot : ∀ k l : CString, ∀ p : Path, k ≠ l → x = k :: p → ∀ q, ¬x <+: l :: q := by
    rintro k l p hne rfl q hpre
    exact hne (List.cons_prefix_cons.mp hpre).1
  cases state with
  | obj members =>
    unfold observeInto
    dsimp only
    split
    · exact spares_refuse _
    · refine spares_lift_bind fun mantles hm => ?_
      refine (spares_each fun m hmem => ?_).bind fun _ => ?_
      · have hname := gather_named hm (by simp) _ (mem_of_mem_toList hmem)
        obtain ⟨hval, hnamed⟩ : m.2 ∈ childValues ((Json.obj members).get Key.mantles) ∧
            mantleName m.2 = some m.1 := by
          rcases gather_mem hm _ _ (getElem?_of_mem_toList hmem) with h | h
          · simp at h
          · exact h
        have hb := atKind_mantle hname
        cases hx with
        | @mantle n named =>
          have hne : m.1 ≠ n := by
            rintro rfl
            exact habsent (.mantle hval hnamed)
          refine (keeps_observeMantle hb _).spares (logs_observeMantle _ _) fun p hp => ?_
          refine not_prefix_of_apart (fun hpre => ?_) (fun hpre => ?_) hp
          · exact hne (cons_prefix_pair.mp hpre).1
          · exact hne (cons_prefix_pair.mp hpre).1.symm
        | @rune n r named id =>
          by_cases he : m.1 = n
          · subst he
            exact spares_observeMantle hb id m.2 fun u hu hid => habsent (.rune hval hnamed hu hid)
          · refine (keeps_observeMantle hb _).spares (logs_observeMantle _ _) fun p hp => ?_
            refine not_prefix_of_apart (fun hpre => ?_) (fun hpre => ?_) hp
            · simp only [List.cons_prefix_cons, true_and] at hpre
              exact he hpre.1
            · exact he (cons_prefix_pair.mp hpre).1.symm
        | @glyph g named =>
          refine (keeps_observeMantle hb _).spares (logs_observeMantle _ _) fun p hp => ?_
          obtain ⟨q, rfl⟩ := hp
          exact hroot Key.glyphs Key.mantles _ (by decide) rfl _
      · refine (spares_removeGone namedAt_mantles _ hset fun name hpre => ?_).bind fun _ => ?_
        · cases hx with
          | mantle named => simpa [List.cons_prefix_cons] using hpre
          | rune named id => simp [List.cons_prefix_cons] at hpre
          | glyph named => exact absurd hpre (hroot Key.glyphs Key.mantles _ (by decide) rfl _)
        · split
          · exact spares_refuse _
          · refine spares_lift_bind fun glyphs hg => ?_
            refine (spares_each fun g hmem => ?_).bind fun _ => ?_
            · have hname := gatherGlyphs_named hg (by simp) _ (mem_of_mem_toList hmem)
              refine (keeps_observeGlyph (atKind_glyph hname) _).spares (logs_observeGlyph _ _)
                fun p hp => ?_
              obtain ⟨q, rfl⟩ := hp
              cases hx with
              | mantle named => exact hroot Key.mantles Key.glyphs _ (by decide) rfl _
              | rune named id => exact hroot Key.mantles Key.glyphs _ (by decide) rfl _
              | @glyph n named =>
                intro hpre
                have hn : n = g.1 := (List.cons_prefix_cons.mp (List.cons_prefix_cons.mp hpre).2).1
                rcases gatherGlyphs_mem hg _ (mem_of_mem_toList hmem) with h | ⟨v, hv⟩
                · simp at h
                · exact habsent (hn ▸ .glyph hv)
            · refine spares_removeGone namedAt_glyphs _ hset fun name hpre => ?_
              cases hx with
              | mantle named => exact absurd hpre (hroot Key.mantles Key.glyphs _ (by decide) rfl _)
              | rune named id => exact absurd hpre (hroot Key.mantles Key.glyphs _ (by decide) rfl _)
              | glyph named => simpa [List.cons_prefix_cons] using hpre
  | null => exact spares_refuse _
  | bool b => exact spares_refuse _
  | num n => exact spares_refuse _
  | str t => exact spares_refuse _
  | arr xs => exact spares_refuse _

end

/-! ### What is reported -/

namespace World

variable {w : World}

/-- A removal of a thing among some changes: an edit that cleared its presence. -/
def Removal (w : World) (known : Set ℕ) (base : Path) (act : Act) : Prop :=
  act ∈ w.edits known ∧ act.place = base ++ [Key.present] ∧ act.intent = .clear

end World

/-- Of a thing that is not shown, and of what is inside it, a document reports one thing
at most: that it was removed while it was edited. -/
theorem Shaped.mem_conflicts_dead {d : Json} (h : Shaped d) {policy : JoinPolicy} {base : Path}
    {m r g : Bytes} (hp : PlaceAt d base m r g) (hs : shownAt d base = false) {c : Conflict} :
    c ∈ conflicts d policy ∧ base <+: locate c ↔
      HasNode d base ∧ RacedAt d base ∧
        c = { deletedConflict with mantle := m, rune := r, glyph := g } := by
  constructor
  · rintro ⟨hc, hpre⟩
    obtain ⟨base', m', r', g', hp', hn', hr'⟩ := h.mem_conflicts.mp hc
    obtain ⟨-, -, -, hl⟩ := h.locate_eq hp' hn' hr'
    rw [hl] at hpre
    have hsame : base' = base ∧ m' = m ∧ r' = r ∧ g' = g := by
      cases hp with
      | mantle n =>
        cases hp' with
        | mantle n' =>
          obtain ⟨rfl, -⟩ := cons_prefix_pair.mp hpre
          exact ⟨rfl, rfl, rfl, rfl⟩
        | rune n' u shown =>
          have he : n = n' := (List.cons_prefix_cons.mp (List.cons_prefix_cons.mp hpre).2).1
          rw [he, shown] at hs
          cases hs
        | glyph u => exact absurd (List.cons_prefix_cons.mp hpre).1 (by decide)
      | rune n u shown =>
        cases hp' with
        | mantle n' => simp at hpre
        | rune n' u' shown' =>
          simp only [List.cons_prefix_cons, true_and, List.prefix_rfl, and_true] at hpre
          obtain ⟨rfl, rfl⟩ := hpre
          exact ⟨rfl, rfl, rfl, rfl⟩
        | glyph u => exact absurd (List.cons_prefix_cons.mp hpre).1 (by decide)
      | glyph n =>
        cases hp' with
        | mantle n' => exact absurd (List.cons_prefix_cons.mp hpre).1 (by decide)
        | rune n' u' shown' => exact absurd (List.cons_prefix_cons.mp hpre).1 (by decide)
        | glyph n' =>
          obtain ⟨rfl, -⟩ := cons_prefix_pair.mp hpre
          exact ⟨rfl, rfl, rfl, rfl⟩
    obtain ⟨rfl, rfl, rfl, rfl⟩ := hsame
    rcases hr' with ⟨hshown, -⟩ | ⟨-, hraced, he⟩
    · rw [hs] at hshown
      cases hshown
    · exact ⟨hn', hraced, he⟩
  · rintro ⟨hn, hraced, rfl⟩
    have hr : ReportedAt d policy base m r g _ := .inr ⟨hs, hraced, rfl⟩
    refine ⟨h.mem_conflicts.mpr ⟨base, m, r, g, hp, hn, hr⟩, ?_⟩
    rw [(h.locate_eq hp hn hr).2.2.2]

section

variable {w : World} (h : Reachable w) {d : Json} {k : Set ℕ} {base : Path}

include h

/-- Whatever was retired in a thing's presence was retired by a removal. -/
theorem Reachable.mem_present_removes (hd : w.Holds d k) {t : Tag} :
    t ∈ (setAt d (base ++ [Key.present])).removes ↔
    ∃ act, w.Removal k base act ∧ act.Retires t := by
  rw [(h.mem_set hd _).2 t]
  constructor
  · rintro ⟨act, hact, hplace, hr⟩
    obtain ⟨-, -, c, -, -, -, ha⟩ := h.sound.edit hact
    refine ⟨act, ⟨hact, hplace, ?_⟩, hr⟩
    rcases ha.presence base hplace with hi | hi
    · rcases ha.retires t hr with ⟨v, -, hends⟩ | ⟨hi', -⟩
      · rw [Act.Ends, hi] at hends
        exact hends.elim
      · exact hi'
    · exact hi
  · rintro ⟨act, ⟨hact, hplace, -⟩, hr⟩
    exact ⟨act, hact, hplace, hr⟩

/-- A thing was removed in a document that contains a removal of it, and in no other. -/
theorem Reachable.removed_iff (hd : w.Holds d k) :
    (setAt d (base ++ [Key.present])).removes.isEmpty = false ↔
    ∃ act, w.Removal k base act := by
  rw [← Bool.not_eq_true, Std.ExtTreeSet.isEmpty_iff]
  constructor
  · intro hne
    by_contra hnone
    refine hne (Std.ExtTreeSet.ext_mem fun t => ?_)
    rw [h.mem_present_removes hd]
    exact ⟨fun ⟨act, hact, _⟩ => absurd ⟨act, hact⟩ hnone, fun ht => absurd ht Std.ExtTreeSet.not_mem_empty⟩
  · rintro ⟨act, hact⟩ hempty
    obtain ⟨-, -, c, -, -, -, ha⟩ := h.sound.edit hact.1
    obtain ⟨t, ht⟩ := ha.clears hact.2.2
    have hmem := (h.mem_present_removes hd).mpr ⟨act, hact, ht⟩
    rw [hempty] at hmem
    exact absurd hmem Std.ExtTreeSet.not_mem_empty

/-- A removal newly retires what it saw live beneath and had not retired before. -/
theorem Reachable.removal_retires {act : Act} (hact : w.Removal k base act) {q : Path} {t : Tag}
    {v : Bytes} (hadd : .add q t v ∈ w.said) (hq : base <+: q) (hne : q ≠ base ++ [Key.present]) :
    act.Retires t ↔ (setAt act.doc q).IsLive t v ∧ t ∉ (setAt act.doc (base ++ [Key.present])).removes := by
  obtain ⟨-, -, c, -, -, -, ha⟩ := h.sound.edit hact.1
  have hsaw : act.before = setAt act.doc (base ++ [Key.present]) := by rw [ha.saw, hact.2.1]
  have hplace : ∀ p u, Fact.add p t u ∈ facts act.doc → p = q ∧ u = v := fun p u hf =>
    h.sound.unique _ _ _ _ _ ((h.sound.tells_doc hact.1).add hf) hadd
  constructor
  · intro hr
    refine ⟨?_, hsaw ▸ hr.1⟩
    rcases ha.retires t hr with ⟨u, hl, -⟩ | ⟨-, -, p, u, -, -, -, hl⟩
    · rw [hsaw] at hl
      exact absurd (hplace _ _ hl.1).1.symm hne
    · obtain ⟨rfl, rfl⟩ := hplace p u hl.1
      exact hl
  · rintro ⟨hl, hnot⟩
    refine ⟨hsaw ▸ hnot, ha.removal hact.2.2 base hact.2.1 q t v hq ?_ hl⟩
    rw [hact.2.1]
    exact hne

/-- A live write beneath a thing is recorded in its presence when a removal newly retired
it. -/
theorem Reachable.raced_iff (hd : w.Holds d k) (hb : IsSetPath (base ++ [Key.present])) :
    RacedAt d base ↔ (∃ act, w.Removal k base act) ∧
      ∃ q t v, base <+: q ∧ q ≠ base ++ [Key.present] ∧ (setAt d q).IsLive t v ∧
        ∀ act, w.Removal k base act → ¬((setAt act.doc q).IsLive t v ∧
          t ∉ (setAt act.doc (base ++ [Key.present])).removes) := by
  unfold RacedAt
  rw [h.removed_iff hd]
  refine and_congr_right fun _ => ?_
  have hrec : ∀ q t v, base <+: q → q ≠ base ++ [Key.present] → (setAt d q).IsLive t v →
      (t ∉ (setAt d (base ++ [Key.present])).removes ↔
        ∀ act, w.Removal k base act → ¬((setAt act.doc q).IsLive t v ∧
          t ∉ (setAt act.doc (base ++ [Key.present])).removes)) := by
    intro q t v hq hne hl
    have hadd := (((h.mem_set hd q).1 t v).mp hl.1).said
    rw [h.mem_present_removes hd]
    push Not
    refine forall₂_congr fun act hact => ?_
    rw [h.removal_retires hact hadd hq hne]
    tauto
  constructor
  · rintro ⟨t, q, v, hl, hhead, hnot⟩
    have hne : base ++ q ≠ base ++ [Key.present] := fun he => by
      rw [List.append_cancel_left he] at hhead
      exact hhead rfl
    exact ⟨base ++ q, t, v, List.prefix_append .., hne, hl,
      (hrec _ t v (List.prefix_append ..) hne hl).mp hnot⟩
  · rintro ⟨-, t, v, ⟨q, rfl⟩, hne, hl, hall⟩
    exact ⟨t, q, v, hl, (h.sound.holds hd).1.head_ne_present hb hl hne,
      (hrec _ t v (List.prefix_append ..) hne hl).mpr hall⟩

/-- In a document that contains what its changes were built on, a removal recorded every
live write beneath the thing that it had. -/
theorem Reachable.raced_iff_of_closed (hd : w.Holds d k) (hb : IsSetPath (base ++ [Key.present]))
    (hk : w.CausallyClosed k) :
    RacedAt d base ↔ (∃ act, w.Removal k base act) ∧
      ∃ q t v, base <+: q ∧ q ≠ base ++ [Key.present] ∧ (setAt d q).IsLive t v ∧
        ∀ act, w.Removal k base act → (setAt act.doc q).adds[t]? ≠ some v := by
  rw [h.raced_iff hd hb]
  refine and_congr_right fun hsome => ?_
  constructor
  · rintro ⟨q, t, v, hq, hne, hl, hall⟩
    refine ⟨q, t, v, hq, hne, hl, fun act hact hadd => ?_⟩
    by_cases hgone : t ∈ (setAt act.doc q).removes
    · exact hl.2 (((h.mem_set hd q).2 t).mpr (h.retired_of_closed hk hact.1 hgone))
    · -- The removal had the write live, so an earlier one recorded it, and that one is here too.
      have hrec : t ∈ (setAt act.doc (base ++ [Key.present])).removes := by
        by_contra hnot
        exact hall act hact ⟨⟨hadd, hgone⟩, hnot⟩
      obtain ⟨act', hact', hplace, hr⟩ := h.retired_of_closed hk hact.1 hrec
      obtain ⟨act'', hact'', hr''⟩ := (h.mem_present_removes hd).mp
        (((h.mem_set hd _).2 t).mpr ⟨act', hact', hplace, hr⟩)
      have hwrote := (((h.mem_set hd q).1 t v).mp hl.1).said
      exact hall act'' hact'' ((h.removal_retires hact'' hwrote hq hne).mp hr'')
  · rintro ⟨q, t, v, hq, hne, hl, hall⟩
    exact ⟨q, t, v, hq, hne, hl, fun act hact hseen => hall act hact hseen.1.1⟩

end

/-- A deletion that raced an edit, and nothing else, is reported of a thing that a
document of a run removed and does not show: there is a write live beneath the thing that
every removal in the document, where it was made, did not have live or had recorded
before; in a document that contains what its changes were built on, one that no removal
had. Nothing else is reported of the thing or of what is inside it, nothing at all where
the document contains no removal of it, and a state in which it is absent leaves it as it
was. -/
theorem deleted_while_edited_iff {w : World} (h : Reachable w) {d : Json} {k : Set ℕ}
    (hd : w.Holds d k) {base : Path} {m r g : Bytes} (hp : PlaceAt d base m r g)
    (hs : shownAt d base = false) (policy : JoinPolicy) :
    ((∃ act, w.Removal k base act) →
      (({ deletedConflict with mantle := m, rune := r, glyph := g } : Conflict) ∈ conflicts d policy ↔
        ∃ q t v, base <+: q ∧ q ≠ base ++ [Key.present] ∧ (setAt d q).IsLive t v ∧
          ∀ act, w.Removal k base act → ¬((setAt act.doc q).IsLive t v ∧
            t ∉ (setAt act.doc (base ++ [Key.present])).removes)) ∧
      (w.CausallyClosed k →
        (({ deletedConflict with mantle := m, rune := r, glyph := g } : Conflict) ∈ conflicts d policy ↔
          ∃ q t v, base <+: q ∧ q ≠ base ++ [Key.present] ∧ (setAt d q).IsLive t v ∧
            ∀ act, w.Removal k base act → (setAt act.doc q).adds[t]? ≠ some v))) ∧
    ((¬∃ act, w.Removal k base act) → ∀ c ∈ conflicts d policy, ¬base <+: locate c) ∧
    (∀ c ∈ conflicts d policy, base <+: locate c →
      c = { deletedConflict with mantle := m, rune := r, glyph := g }) ∧
    ∀ id p state, w.peers id = some p → p.replica.doc = d → ¬NamedIn state base →
      Unchanged base d (p.replica.observe (some state)).2.doc := by
  have hshape := (h.sound.holds hd).1
  have hdead := fun c => @Shaped.mem_conflicts_dead d hshape policy _ _ _ _ hp hs c
  have hsome : (∃ act, w.Removal k base act) → IsSetPath (base ++ [Key.present]) ∧
      (({ deletedConflict with mantle := m, rune := r, glyph := g } : Conflict) ∈ conflicts d policy ↔
        RacedAt d base) := by
    intro hrem
    have hn : HasNode d base := by
      refine hasNode_of_append (q := [Key.present]) ?_
      by_contra hnode
      have hne := (h.removed_iff hd).mpr hrem
      rw [setAt_of_not_hasNode hnode] at hne
      cases hne
    refine ⟨(hshape.thing_of_place hp hn).present, fun hc => ?_, fun hraced => ?_⟩
    · have hl := hshape.locate_place (c := { deletedConflict with mantle := m, rune := r, glyph := g })
        hp hn rfl rfl rfl
      exact ((hdead _).mp ⟨hc, by rw [hl]⟩).2.1
    · exact ((hdead _).mpr ⟨hn, hraced, rfl⟩).1
  refine ⟨fun hrem => ?_, ?_, ?_, ?_⟩
  · obtain ⟨hset, hiff⟩ := hsome hrem
    rw [hiff]
    refine ⟨?_, fun hk => ?_⟩
    · rw [h.raced_iff hd hset, and_iff_right hrem]
    · rw [h.raced_iff_of_closed hd hset hk, and_iff_right hrem]
  · intro hnone c hc hpre
    have hraced := ((hdead c).mp ⟨hc, hpre⟩).2.1
    exact hnone ((h.removed_iff hd).mp hraced.1)
  · exact fun c hc hpre => ((hdead c).mp ⟨hc, hpre⟩).2.2
  · rintro id p state there rfl habsent
    have he := h.sound.editor there
    have hu : Inv p.replica.author p.replica.doc p.replica.issued
          (observeInto p.replica.author (some state) p.replica.editor).2 ∧
        Unchanged base p.replica.doc (observeInto p.replica.author (some state) p.replica.editor).2.work := by
      rcases hp.thingPath with hx | hnone
      · exact spares_observeInto hx habsent p.replica.editor he hs
      · have he' := keeps_observeInto (some state) p.replica.editor he
        exact ⟨he', .of_kind_none hnone hshape he'.work⟩
    cases ho : (p.replica.observe (some state)).1 with
    | ok o =>
      obtain ⟨-, -, -, -, hdoc, -⟩ := Replica.observe_ok ho
      rw [hdoc]
      exact hu.2
    | error c =>
      rw [(Replica.observe_error ho).2]
      exact .refl base _

/-! ### A write that a removal saw replaced -/

section

-- What a replica does is evaluated by the kernel only.
attribute [local irreducible] Replica.observe Replica.merge observedDelta

/-- A state without mantles. -/
def noMantles : Json := .obj [(Key.mantles, .arr [])]

/-- Two domains were written, and the mantle was removed. -/
def removedWorld : World := (writerWorld 2).observing ⟨writer 2, writerKnown 2⟩ noMantles

/-- The delta of the removal. -/
def removalParcel : Parcel := ⟨observedDelta (writer 2) noMantles, {2}⟩

/-- Another replica merged the first domain and the removal. -/
def gappedWorld : World :=
  (removedWorld.merging ⟨newReplica idB, ∅⟩ (writerParcel 0)).merging ⟨firstOnly, ∅ ∪ {0}⟩ removalParcel

/-- What that replica holds. -/
def gapped : Replica := (firstOnly.merge removalParcel.doc).2

theorem reachable_removedWorld : Reachable removedWorld :=
  Reachable.observing ((reachable_twoNew.writerWorld_succ (n := 0) (by decide +kernel)).writerWorld_succ
    (by decide +kernel)) (writerWorld_idA 2) (by decide +kernel)

theorem reachable_gappedWorld : Reachable gappedWorld := by
  have hne : idB ≠ (writer 2).id := by
    rw [writer_id]
    decide
  have hB : removedWorld.peers (newReplica idB).id = some ⟨newReplica idB, ∅⟩ := by
    rw [removedWorld, World.observing_ne _ _ _ hne]
    exact writerWorld_idB 2
  have hmail : removedWorld.mail = removalParcel :: (writerWorld 2).mail := by
    simp only [removedWorld, World.observing, World.commit, writerWorld_changes, removalParcel]
  have h0 : writerParcel 0 ∈ removedWorld.mail :=
    hmail ▸ List.mem_cons_of_mem _ (writerWorld_mail (by decide))
  have h2 : removalParcel ∈ removedWorld.mail := hmail ▸ List.mem_cons_self
  have hfirst := World.merging_self removedWorld ⟨newReplica idB, ∅⟩ (writerParcel 0)
  exact (reachable_removedWorld.merging hB h0 (by decide +kernel)).merging (p := ⟨firstOnly, ∅ ∪ {0}⟩)
    hfirst h2 (by decide +kernel)

theorem gappedWorld_idB : gappedWorld.peers idB = some ⟨gapped, ∅ ∪ {0} ∪ {2}⟩ := by
  have hid : gapped.id = idB := by
    rw [gapped, Replica.merge_id, firstOnly, Replica.merge_id]
    rfl
  have h := World.merging_self (removedWorld.merging ⟨newReplica idB, ∅⟩ (writerParcel 0))
    ⟨firstOnly, ∅ ∪ {0}⟩ removalParcel
  rwa [show (firstOnly.merge removalParcel.doc).2.id = idB from hid] at h

/-- The edits of the removal. -/
theorem gappedWorld_edits {act : Act} (h : act ∈ (writer 2).observed (some noMantles)) :
    act ∈ gappedWorld.edits (∅ ∪ {0} ∪ {2}) := by
  let c : Change := ⟨(writer 2).id, (writer 2).issued, (writer 2).doc,
    ((writer 2).observe (some noMantles)).2.doc, observedDelta (writer 2) noMantles,
    (writer 2).observed (some noMantles), writerKnown 2⟩
  have hlast : ((writerWorld 2).changes ++ [c])[(writerWorld 2).changes.length]? = some c :=
    List.getElem?_concat_length
  rw [writerWorld_changes] at hlast
  exact ⟨2, Set.mem_union_right _ rfl, c, hlast, h⟩

/-- The place of the mantle. -/
def mantlePlace : Path := [Key.mantles, .ofLit "m"]

/-- Every removal there had every write that is live beneath the mantle, and the mantle is
reported all the same. -/
theorem reported_though_seen : ∃ p, Reachable gappedWorld ∧ gappedWorld.peers idB = some p ∧
    PlaceAt p.replica.doc mantlePlace (lit "m") [] [] ∧ shownAt p.replica.doc mantlePlace = false ∧
    (∃ act, gappedWorld.Removal p.known mantlePlace act) ∧
    { deletedConflict with mantle := lit "m" } ∈ conflicts p.replica.doc p.replica.policy ∧
    ¬∃ q t v, mantlePlace <+: q ∧ q ≠ mantlePlace ++ [Key.present] ∧
      (setAt p.replica.doc q).IsLive t v ∧
      ∀ act, gappedWorld.Removal p.known mantlePlace act → (setAt act.doc q).adds[t]? ≠ some v := by
  have hreported : shownAt gapped.doc mantlePlace = false ∧
      { deletedConflict with mantle := lit "m" } ∈ conflicts gapped.doc gapped.policy := by
    decide +kernel
  have hacts : ∃ act ∈ (writer 2).observed (some noMantles),
      (act.place = mantlePlace ++ [Key.present] ∧ act.intent = .clear) ∧
      ∀ x ∈ addsIn gapped.doc [], (setAt act.doc x.2.1).adds[x.1]? = some x.2.2 := by
    decide +kernel
  obtain ⟨act, hmem, ⟨hplace, hintent⟩, hhad⟩ := hacts
  have hremoval : gappedWorld.Removal (∅ ∪ {0} ∪ {2}) mantlePlace act :=
    ⟨gappedWorld_edits hmem, hplace, hintent⟩
  have hnamed := (reachable_gappedWorld.sound.holds (.peer gappedWorld_idB)).1.namedOnce
  refine ⟨_, reachable_gappedWorld, gappedWorld_idB, .mantle _, hreported.1, ⟨act, hremoval⟩,
    hreported.2, ?_⟩
  rintro ⟨q, t, v, -, -, hl, hnone⟩
  exact hnone act hremoval (hhad (t, q, v) ((mem_addsIn hnamed).mpr hl.1))

theorem deleted_while_edited_iff_gappedWorld :
    { deletedConflict with mantle := lit "m" } ∈ conflicts gapped.doc {} ↔
      ∃ q t v, mantlePlace <+: q ∧ q ≠ mantlePlace ++ [Key.present] ∧ (setAt gapped.doc q).IsLive t v ∧
        ∀ act, gappedWorld.Removal (∅ ∪ {0} ∪ {2}) mantlePlace act → ¬((setAt act.doc q).IsLive t v ∧
          t ∉ (setAt act.doc (mantlePlace ++ [Key.present])).removes) := by
  have hshown : shownAt gapped.doc mantlePlace = false := by decide +kernel
  have hacts : ∃ act ∈ (writer 2).observed (some noMantles),
      act.place = mantlePlace ++ [Key.present] ∧ act.intent = .clear := by
    decide +kernel
  obtain ⟨act, hmem, hplace, hintent⟩ := hacts
  exact ((deleted_while_edited_iff reachable_gappedWorld (.peer gappedWorld_idB)
    (.mantle (.ofLit "m")) hshown {}).1 ⟨act, gappedWorld_edits hmem, hplace, hintent⟩).1

end

end VoidPalabra
