import VoidPalabra.Reading

/-!
# Where a document reports conflicts

A conflict is reported of a register of a thing that is shown, or of a thing that is
not shown, was removed, and has something live beneath it that no removal saw. Every
conflict that a document reports names the place it is about, and no two name one.
-/

namespace VoidPalabra

/-- How a conflict names the thing at a path. A rune is looked at in a mantle that is
shown only. -/
inductive PlaceAt (root : Json) : Path → Bytes → Bytes → Bytes → Prop
  /-- A mantle. -/
  | mantle (m : CString) : PlaceAt root [Key.mantles, m] m.bytes [] []
  /-- A rune. -/
  | rune (m r : CString) (shown : shownAt root [Key.mantles, m] = true) :
    PlaceAt root [Key.mantles, m, Key.runes, r] m.bytes r.bytes []
  /-- A glyph. -/
  | glyph (g : CString) : PlaceAt root [Key.glyphs, g] [] [] g.bytes

/-- The thing at a path was removed, and something beneath it is live that no removal
saw. -/
def RacedAt (root : Json) (base : Path) : Prop :=
  (setAt root (base ++ [Key.present])).removes.isEmpty = false ∧
    ∃ t q v, (setAt root (base ++ q)).IsLive t v ∧ q.head? ≠ some Key.present ∧
      t ∉ (setAt root (base ++ [Key.present])).removes

/-- The register of a thing, under a policy. -/
def registerAt (root : Json) (policy : JoinPolicy) (base : Path) (f : CString) : Live :=
  (setAt root (base ++ [Key.fields, f])).resolve (policy.lookup f.bytes)

/-- A conflict is about the thing at a path. -/
def ReportedAt (root : Json) (policy : JoinPolicy) (base : Path) (m r g : Bytes) (c : Conflict) :
    Prop :=
  (shownAt root base = true ∧ ∃ f, (registerAt root policy base f).conflicted = true ∧
      c = { placeOf m r g with field := f.bytes, sides := (registerAt root policy base f).values }) ∨
    (shownAt root base = false ∧ RacedAt root base ∧
      c = { deletedConflict with mantle := m, rune := r, glyph := g })

section

variable {root n : Json} (h : Shaped root) {policy : JoinPolicy} {base : Path}

include h

/-- Whether a removed thing is contested is read off the sets beneath it. -/
theorem Shaped.racedByAnEdit_iff (hb : ThingAt base) (hn : nodeAt root base = some n)
    (hs : shownAt root base = false) : racedByAnEdit n = true ↔ RacedAt root base := by
  have hpresent := h.read_present hb hn
  have hempty : (setAt root (base ++ [Key.present])).isEmpty = true := by
    simpa [shownAt] using hs
  unfold racedByAnEdit RacedAt
  rw [hpresent]
  dsimp only
  rw [hempty, Bool.not_true, if_neg Bool.false_ne_true]
  cases hr : (setAt root (base ++ [Key.present])).removes.isEmpty with
  | true => simp
  | false =>
    rw [if_neg Bool.false_ne_true, List.any_eq_true]
    constructor
    · rintro ⟨t, ht, hnot⟩
      obtain ⟨q, v, hl, hq⟩ := (mem_collectLiveTags (namedOnce_nodeAt h.namedOnce hn)).mp ht
      refine ⟨rfl, t, q, v, ?_, hq rfl, ?_⟩
      · rwa [setAt_append hn]
      · simpa [← Std.ExtTreeSet.contains_iff_mem] using hnot
    · rintro ⟨-, t, q, v, hl, hq, hnot⟩
      rw [setAt_append hn] at hl
      refine ⟨t, (mem_collectLiveTags (namedOnce_nodeAt h.namedOnce hn)).mpr ⟨q, v, hl, fun _ => hq⟩, ?_⟩
      simpa [← Std.ExtTreeSet.contains_iff_mem] using hnot

theorem Shaped.alive_eq (hb : ThingAt base) (hn : nodeAt root base = some n) :
    alive n = shownAt root base := by
  rw [alive, h.present_eq hb hn, Bool.not_not]

/-- A register with a conflict is among the fields. -/
theorem Shaped.mem_fields_of_conflicted (hb : ThingAt base) {f : CString}
    (hc : (registerAt root policy base f).conflicted = true) :
    f ∈ namesAt root (base ++ [Key.fields]) := by
  rw [h.mem_namesAt hb.fields, List.append_assoc]
  by_contra hnode
  rw [registerAt, ← List.singleton_append, setAt_of_not_hasNode hnode,
    OrSet.resolve_of_length_le (by simp)] at hc
  simp [OrSet.live] at hc

/-- The registers of a thing that are in conflict. -/
theorem Shaped.mem_scanFields (hb : ThingAt base) (hn : nodeAt root base = some n)
    {place c : Conflict} :
    c ∈ scanFields (n.get Key.fields) place policy ↔
      ∃ f, (registerAt root policy base f).conflicted = true ∧
        c = { place with field := f.bytes, sides := (registerAt root policy base f).values } := by
  have hlist : scanFields (n.get Key.fields) place policy =
      (namesAt root (base ++ [Key.fields])).flatMap fun f =>
        if !(registerAt root policy base f).conflicted then []
        else [{ place with field := f.bytes, sides := (registerAt root policy base f).values }] := by
    rw [scanFields, h.get_of_nodeAt hn hb.map]
    refine h.flatMap_childMembers hb.fields fun f v hv => ?_
    dsimp only
    rw [resolve, h.field_node hb hv, registerAt]
  rw [hlist, List.mem_flatMap]
  constructor
  · rintro ⟨f, hf, hc⟩
    split at hc
    · cases hc
    · rename_i hcon
      exact ⟨f, by simpa using hcon, List.mem_singleton.mp hc⟩
  · rintro ⟨f, hcon, rfl⟩
    exact ⟨f, h.mem_fields_of_conflicted hb hcon, by simp [hcon]⟩

theorem Shaped.mem_deadConflicts (hb : ThingAt base) (hn : nodeAt root base = some n)
    (hs : shownAt root base = false) {m r g : Bytes} {c : Conflict} :
    c ∈ deadConflicts n m r g ↔
      RacedAt root base ∧ c = { deletedConflict with mantle := m, rune := r, glyph := g } := by
  rw [deadConflicts, ← h.racedByAnEdit_iff hb hn hs]
  split
  · rename_i hr
    simp [hr]
  · rename_i hr
    simp [hr]

/-- What a thing reports of itself. -/
theorem Shaped.mem_thingConflicts (hb : ThingAt base) (hn : nodeAt root base = some n)
    {m r g : Bytes} {c : Conflict} :
    (c ∈ if !alive n then deadConflicts n m r g
      else scanFields (n.get Key.fields) (placeOf m r g) policy) ↔
      ReportedAt root policy base m r g c := by
  rw [h.alive_eq hb hn, ReportedAt]
  cases hs : shownAt root base with
  | false =>
    simp only [Bool.not_false, if_true, Bool.false_eq_true, false_and, false_or, true_and]
    exact h.mem_deadConflicts hb hn hs
  | true =>
    simp only [Bool.not_true, Bool.false_eq_true, if_false, true_and, Bool.true_eq_false, false_and,
      or_false]
    exact h.mem_scanFields hb hn

/-- What a mantle reports of itself and of its runes. -/
theorem Shaped.mem_mantleConflicts {k : CString} (hn : nodeAt root [Key.mantles, k] = some n)
    {c : Conflict} :
    c ∈ mantleConflicts policy (k, n) ↔ ReportedAt root policy [Key.mantles, k] k.bytes [] [] c ∨
      ∃ r, shownAt root [Key.mantles, k] = true ∧ HasNode root [Key.mantles, k, Key.runes, r] ∧
        ReportedAt root policy [Key.mantles, k, Key.runes, r] k.bytes r.bytes [] c := by
  have hb := atKind_mantle (h.name_ne_empty namedAt_mantles hn)
  rw [← h.mem_thingConflicts hb.mantle_thing hn, mantleConflicts]
  dsimp only
  rw [h.alive_eq hb.mantle_thing hn]
  cases hs : shownAt root [Key.mantles, k] with
  | false => simp
  | true =>
    simp only [Bool.not_true, Bool.false_eq_true, if_false, List.mem_append, List.mem_flatMap,
      true_and]
    refine or_congr Iff.rfl ?_
    rw [h.get_of_nodeAt hn hb.mantle_thing.map]
    have hrune : ∀ r v, nodeAt root [Key.mantles, k, Key.runes, r] = some v →
        (c ∈ runeConflicts policy k.bytes (r, v) ↔
          ReportedAt root policy [Key.mantles, k, Key.runes, r] k.bytes r.bytes [] c) :=
      fun r v hv => h.mem_thingConflicts
        (hb.rune (h.name_ne_empty hb.namedAt_runes (k := r) hv)).rune_thing hv
    constructor
    · rintro ⟨⟨r, v⟩, hm, hc⟩
      have hv := (h.mem_childMembers (hb [Key.runes])).mp hm
      exact ⟨r, by rw [HasNode]; exact hv ▸ rfl, (hrune r v hv).mp hc⟩
    · rintro ⟨r, hnode, hc⟩
      obtain ⟨v, hv⟩ := Option.isSome_iff_exists.mp hnode
      exact ⟨(r, v), (h.mem_childMembers (hb [Key.runes])).mpr hv, (hrune r v hv).mpr hc⟩

/-- The conflicts that a document reports. -/
theorem Shaped.mem_conflicts {c : Conflict} :
    c ∈ conflicts root policy ↔
      ∃ base m r g, PlaceAt root base m r g ∧ HasNode root base ∧
        ReportedAt root policy base m r g c := by
  have hmap : ∀ k, root.get k = nodeAt root [k] := fun k => h.get_of_nodeAt (p := []) rfl rfl k
  have hmantle : ∀ m, m ∈ childMembers (root.get Key.mantles) ↔
      nodeAt root [Key.mantles, m.1] = some m.2 := fun m => by
    rw [hmap]
    exact h.mem_childMembers (p := [Key.mantles]) (by decide)
  have hglyph : ∀ m, m ∈ childMembers (root.get Key.glyphs) ↔
      nodeAt root [Key.glyphs, m.1] = some m.2 := fun m => by
    rw [hmap]
    exact h.mem_childMembers (p := [Key.glyphs]) (by decide)
  rw [conflicts, Sorting.mem_sortOn, List.mem_append, List.mem_flatMap, List.mem_flatMap]
  constructor
  · rintro (⟨⟨k, n⟩, hm, hc⟩ | ⟨⟨k, n⟩, hm, hc⟩)
    · have hn := (hmantle _).mp hm
      rcases (h.mem_mantleConflicts hn).mp hc with hc | ⟨r, hs, hr, hc⟩
      · exact ⟨_, _, _, _, .mantle k, by rw [HasNode, hn]; rfl, hc⟩
      · exact ⟨_, _, _, _, .rune k r hs, hr, hc⟩
    · have hn := (hglyph _).mp hm
      have hb := atKind_glyph (h.name_ne_empty namedAt_glyphs hn)
      exact ⟨_, _, _, _, .glyph k, by rw [HasNode, hn]; rfl,
        (h.mem_thingConflicts hb.glyph_thing hn).mp hc⟩
  · rintro ⟨base, m, r, g, hplace, hnode, hc⟩
    cases hplace with
    | mantle k =>
      obtain ⟨n, hn⟩ := Option.isSome_iff_exists.mp hnode
      exact .inl ⟨(k, n), (hmantle _).mpr hn, (h.mem_mantleConflicts hn).mpr (.inl hc)⟩
    | rune k r hs =>
      have hup := hasNode_of_append (p := [Key.mantles, k]) (q := [Key.runes, r]) hnode
      obtain ⟨n, hn⟩ := Option.isSome_iff_exists.mp hup
      exact .inl ⟨(k, n), (hmantle _).mpr hn, (h.mem_mantleConflicts hn).mpr (.inr ⟨r, hs, hnode, hc⟩)⟩
    | glyph k =>
      obtain ⟨n, hn⟩ := Option.isSome_iff_exists.mp hnode
      have hb := atKind_glyph (h.name_ne_empty namedAt_glyphs hn)
      exact .inr ⟨(k, n), (hglyph _).mpr hn, (h.mem_thingConflicts hb.glyph_thing hn).mpr hc⟩

/-- The names in a rune's path are not empty. -/
theorem Shaped.rune_named {k r : CString} (hn : HasNode root [Key.mantles, k, Key.runes, r]) :
    k.isEmpty = false ∧ r.isEmpty = false := by
  obtain ⟨n, hm⟩ := Option.isSome_iff_exists.mp
    (hasNode_of_append (p := [Key.mantles, k]) (q := [Key.runes, r]) hn)
  have hk := h.name_ne_empty namedAt_mantles hm
  obtain ⟨v, hv⟩ := Option.isSome_iff_exists.mp hn
  exact ⟨hk, h.name_ne_empty (atKind_mantle hk).namedAt_runes (k := r) hv⟩

/-- What a conflict is about is a thing. -/
theorem Shaped.thing_of_place {m r g : Bytes} (hp : PlaceAt root base m r g)
    (hn : HasNode root base) : ThingAt base := by
  cases hp with
  | mantle k =>
    obtain ⟨n, hn⟩ := Option.isSome_iff_exists.mp hn
    exact (atKind_mantle (h.name_ne_empty namedAt_mantles hn)).mantle_thing
  | rune k r hs =>
    obtain ⟨hk, hr⟩ := h.rune_named hn
    exact ((atKind_mantle hk).rune hr).rune_thing
  | glyph k =>
    obtain ⟨n, hn⟩ := Option.isSome_iff_exists.mp hn
    exact (atKind_glyph (h.name_ne_empty namedAt_glyphs hn)).glyph_thing

/-- A conflict that names a thing as its path does is located there. -/
theorem Shaped.locate_place {m r g : Bytes} {c : Conflict} (hp : PlaceAt root base m r g)
    (hn : HasNode root base) (hm : c.mantle = m) (hr : c.rune = r) (hg : c.glyph = g) :
    locate c = base := by
  unfold locate
  rw [hm, hr, hg]
  cases hp with
  | mantle k => simp
  | rune k r hs =>
    have hne : r.bytes.isEmpty = false := (h.rune_named hn).2
    simp [hne]
  | glyph k =>
    obtain ⟨n, hn⟩ := Option.isSome_iff_exists.mp hn
    have hne : k.bytes.isEmpty = false := h.name_ne_empty (p := [Key.glyphs]) namedAt_glyphs hn
    simp [hne]

/-- The place that a conflict names is where it was reported. -/
theorem Shaped.locate_eq {m r g : Bytes} {c : Conflict} (hp : PlaceAt root base m r g)
    (hn : HasNode root base) (hc : ReportedAt root policy base m r g c) :
    c.mantle = m ∧ c.rune = r ∧ c.glyph = g ∧ locate c = base := by
  obtain ⟨hm, hr, hg⟩ : c.mantle = m ∧ c.rune = r ∧ c.glyph = g := by
    rcases hc with ⟨-, f, -, rfl⟩ | ⟨-, -, rfl⟩ <;> exact ⟨rfl, rfl, rfl⟩
  exact ⟨hm, hr, hg, h.locate_place hp hn hm hr hg⟩

/-- What names a conflict tells it from the others that a document reports. -/
theorem Shaped.conflict_of_sortKey {c c' : Conflict} (hc : c ∈ conflicts root policy)
    (hc' : c' ∈ conflicts root policy) (he : c.sortKey = c'.sortKey) : c = c' := by
  obtain ⟨base, m, r, g, hp, hn, hr⟩ := h.mem_conflicts.mp hc
  obtain ⟨base', m', r', g', hp', hn', hr'⟩ := h.mem_conflicts.mp hc'
  obtain ⟨hm, hrune, hg, hbase⟩ := h.locate_eq hp hn hr
  obtain ⟨hm', hrune', hg', hbase'⟩ := h.locate_eq hp' hn' hr'
  simp only [Conflict.sortKey, List.cons.injEq, and_true] at he
  obtain ⟨-, hkind, heg, hem, her, hef⟩ := he
  have hb : base = base' := by
    rw [← hbase, ← hbase', locate, locate, heg, hem, her]
  subst hb
  obtain rfl : m = m' := by rw [← hm, ← hm', hem]
  obtain rfl : r = r' := by rw [← hrune, ← hrune', her]
  obtain rfl : g = g' := by rw [← hg, ← hg', heg]
  rcases hr with ⟨hs, f, -, rfl⟩ | ⟨hs, -, rfl⟩ <;> rcases hr' with ⟨hs', f', -, rfl⟩ | ⟨hs', -, rfl⟩
  · obtain rfl : f = f' := CString.ext hef
    rfl
  · rw [hs] at hs'
    cases hs'
  · rw [hs] at hs'
    cases hs'
  · rfl

/-- No conflict of a list of members is there twice, when each tells the name of the
member it is of. -/
theorem Shaped.nodup_flatMap {p : Path} (hk : kindOf p = some .map) {f : CString × Json → List Conflict}
    (key : Conflict → Bytes)
    (hf : ∀ k v, nodeAt root (p ++ [k]) = some v → (f (k, v)).Nodup ∧ ∀ c ∈ f (k, v), key c = k.bytes) :
    ((childMembers (nodeAt root p)).flatMap f).Nodup := by
  have hnode : ∀ m ∈ childMembers (nodeAt root p), nodeAt root (p ++ [m.1]) = some m.2 :=
    fun m hm => (h.mem_childMembers hk).mp hm
  have hd : ((childMembers (nodeAt root p)).map Prod.fst).Nodup := h.namesAt_nodup hk
  rw [List.nodup_flatMap]
  refine ⟨fun m hm => (hf m.1 m.2 (hnode m hm)).1, ?_⟩
  refine (List.pairwise_map.mp hd).imp_of_mem fun {m n} hm hn hne => ?_
  intro c hcm hcn
  refine hne (CString.ext ?_)
  rw [← (hf m.1 m.2 (hnode m hm)).2 c hcm, (hf n.1 n.2 (hnode n hn)).2 c hcn]

/-- What a thing reports of itself is reported once. -/
theorem Shaped.thingConflicts_nodup (hb : ThingAt base) (hn : nodeAt root base = some n)
    (m r g : Bytes) :
    (if !alive n then deadConflicts n m r g
      else scanFields (n.get Key.fields) (placeOf m r g) policy).Nodup := by
  split
  · unfold deadConflicts
    split
    · exact List.nodup_singleton _
    · exact List.nodup_nil
  · rw [scanFields, h.get_of_nodeAt hn hb.map]
    refine h.nodup_flatMap hb.fields Conflict.field fun f v _ => ?_
    dsimp only
    split
    · exact ⟨List.nodup_nil, fun c hc => by cases hc⟩
    · refine ⟨List.nodup_singleton _, fun c hc => ?_⟩
      rw [List.mem_singleton.mp hc]

theorem Shaped.mantleConflicts_nodup {k : CString} (hn : nodeAt root [Key.mantles, k] = some n) :
    (mantleConflicts policy (k, n)).Nodup := by
  have hb := atKind_mantle (h.name_ne_empty namedAt_mantles hn)
  have hself := @Shaped.thingConflicts_nodup root n h policy _ hb.mantle_thing hn k.bytes [] []
  unfold mantleConflicts
  dsimp only
  rw [h.alive_eq hb.mantle_thing hn] at hself ⊢
  cases hs : shownAt root [Key.mantles, k] with
  | false => simpa [hs] using hself
  | true =>
    rw [hs] at hself
    simp only [Bool.not_true, Bool.false_eq_true, if_false] at hself ⊢
    have hrune : ∀ r v, nodeAt root [Key.mantles, k, Key.runes, r] = some v →
        r.isEmpty = false ∧ (runeConflicts policy k.bytes (r, v)).Nodup ∧
          ∀ c ∈ runeConflicts policy k.bytes (r, v), c.rune = r.bytes := by
      intro r v hv
      have hname := h.name_ne_empty hb.namedAt_runes (k := r) hv
      have hr := (hb.rune hname).rune_thing
      refine ⟨hname, h.thingConflicts_nodup hr hv _ _ _, fun c hc => ?_⟩
      rcases (h.mem_thingConflicts hr hv).mp hc with ⟨-, f, -, rfl⟩ | ⟨-, -, rfl⟩ <;> rfl
    rw [h.get_of_nodeAt hn hb.mantle_thing.map Key.runes]
    refine hself.append (h.nodup_flatMap (hb [Key.runes]) Conflict.rune
      fun r v hv => (hrune r v hv).2) ?_
    intro c hc hc'
    obtain ⟨⟨r, v⟩, hm, hcr⟩ := List.mem_flatMap.mp hc'
    obtain ⟨hname, -, hkey⟩ := hrune r v ((h.mem_childMembers (hb [Key.runes])).mp hm)
    obtain ⟨f, -, rfl⟩ := (h.mem_scanFields hb.mantle_thing hn).mp hc
    have he : ([] : Bytes) = r.bytes := hkey _ hcr
    rw [CString.isEmpty, ← he] at hname
    cases hname

/-- No two conflicts of a document have one name. -/
theorem Shaped.conflicts_nodup : ((conflicts root policy).map Conflict.sortKey).Nodup := by
  refine List.Nodup.map_on (fun c hc c' hc' he => h.conflict_of_sortKey hc hc' he) ?_
  have hmap : ∀ k, root.get k = nodeAt root [k] := fun k => h.get_of_nodeAt (p := []) rfl rfl k
  rw [conflicts, (Sorting.sortOn_perm _ _).nodup_iff, hmap, hmap]
  have hmantle : ∀ k v, nodeAt root ([Key.mantles] ++ [k]) = some v →
      (mantleConflicts policy (k, v)).Nodup ∧
        ∀ c ∈ mantleConflicts policy (k, v), c.mantle = k.bytes ∧ c.glyph = [] := by
    intro k v hv
    refine ⟨h.mantleConflicts_nodup hv, fun c hc => ?_⟩
    rcases (h.mem_mantleConflicts hv).mp hc with hc | ⟨r, -, -, hc⟩ <;>
      rcases hc with ⟨-, f, -, rfl⟩ | ⟨-, -, rfl⟩ <;> exact ⟨rfl, rfl⟩
  have hglyph : ∀ k v, nodeAt root ([Key.glyphs] ++ [k]) = some v →
      k.isEmpty = false ∧ (glyphConflicts policy (k, v)).Nodup ∧
        ∀ c ∈ glyphConflicts policy (k, v), c.glyph = k.bytes := by
    intro k v hv
    have hname := h.name_ne_empty namedAt_glyphs hv
    have hb := (atKind_glyph hname).glyph_thing
    refine ⟨hname, h.thingConflicts_nodup hb hv _ _ _, fun c hc => ?_⟩
    rcases (h.mem_thingConflicts hb hv).mp hc with ⟨-, f, -, rfl⟩ | ⟨-, -, rfl⟩ <;> rfl
  refine List.Nodup.append ?_ ?_ ?_
  · exact h.nodup_flatMap (by decide) Conflict.mantle fun k v hv =>
      ⟨(hmantle k v hv).1, fun c hc => ((hmantle k v hv).2 c hc).1⟩
  · exact h.nodup_flatMap (by decide) Conflict.glyph fun k v hv => (hglyph k v hv).2
  · intro c hc hc'
    obtain ⟨⟨k, v⟩, hm, hck⟩ := List.mem_flatMap.mp hc
    obtain ⟨⟨g, w⟩, hw, hcg⟩ := List.mem_flatMap.mp hc'
    obtain ⟨hname, -, hkey⟩ := hglyph g w ((h.mem_childMembers (by decide)).mp hw)
    have he := ((hmantle k v ((h.mem_childMembers (by decide)).mp hm)).2 c hck).2
    rw [hkey c hcg] at he
    rw [CString.isEmpty, he] at hname
    cases hname

end

/-! ### Settling what was reported -/

/-- A conflict that can be settled by writing at sets only. -/
structure Placed (c : Conflict) : Prop where
  /-- It is about a thing. -/
  thing : ThingAt (locate c)
  /-- Its field is a register of the thing. -/
  field : c.kind = .values → IsSetPath (locate c ++ [Key.fields, .ofBytes c.field])

/-- What a document reports can be settled. -/
theorem Shaped.placed {root : Json} (h : Shaped root) {policy : JoinPolicy} {c : Conflict}
    (hc : c ∈ conflicts root policy) : Placed c := by
  obtain ⟨base, m, r, g, hp, hn, hr⟩ := h.mem_conflicts.mp hc
  obtain ⟨-, -, -, hl⟩ := h.locate_eq hp hn hr
  have hb := h.thing_of_place hp hn
  subst hl
  refine ⟨hb, fun hk => ?_⟩
  rcases hr with ⟨-, f, hf, he⟩ | ⟨-, -, he⟩
  · have hcf : c.field = f.bytes := by rw [he]
    rw [hcf, CString.ofBytes_bytes]
    have hname := h.mem_fields_of_conflicted hb hf
    rw [h.mem_namesAt hb.fields, List.append_assoc] at hname
    exact hb.field f (h.kindOf_isSome hname)
  · rw [he] at hk
    cases hk

/-- Settling a conflict keeps the invariant of an edit. -/
theorem keeps_settle {a : Author} {d₀ : Json} {i₀ : ℕ} {c : Conflict} (hc : Placed c) (side : Bytes) :
    Keeps a d₀ i₀ (settle a c side) := by
  unfold settle
  split
  · rename_i hk
    refine fun e he => he.overwrite (hc.field hk) ?_ side
    intro hlast
    have hf : CString.ofBytes c.field = Key.present := by simpa using hlast
    exact hc.thing.noPresent (hf ▸ hc.field hk)
  · dsimp only
    split
    · exact (keeps_makePresent hc.thing.present _).bind fun _ => keeps_pure _
    · split
      · exact (keeps_removeThing hc.thing.present _).bind fun _ => keeps_pure _
      · exact keeps_pure _

end VoidPalabra
