import VoidPalabra.Filing
import VoidPalabra.ReadsAgree

/-!
# What a broken rule is

Which rules a document breaks, and which runes explain it, is said of what is present, removed
and renamed in it, without an index. The index of a document files exactly that.
-/

namespace VoidPalabra

/-! ### What is present, removed and renamed -/

/-- A mantle that is present. -/
def LiveMantle (root : Json) (m : Bytes) (v : Json) : Prop :=
  alive v = true ∧ ∃ name : CString, name.bytes = m ∧ (name, v) ∈ childMembers (root.get Key.mantles)

/-- A glyph that was declared and is not. -/
def RemovedGlyph (root : Json) (g : Bytes) : Prop :=
  ∃ (name : CString) (v : Json), name.bytes = g ∧
    (name, v) ∈ childMembers (root.get Key.glyphs) ∧ wasPresentAndIsNot v = true

/-- A rune of a mantle. -/
def RuneOf (v : Json) (id : Bytes) (r : Json) : Prop :=
  ∃ name : CString, name.bytes = id ∧ (name, r) ∈ childMembers (v.get Key.runes)

/-- The register of a rune's name. -/
def nameRegister (r : Json) : Option Json := get (r.get Key.fields) Key.spiritName

/-- The name that a rune shows. -/
def nameShown (policy : JoinPolicy) (r : Json) : Bytes :=
  shown (nameRegister r) Key.spiritName policy

/-- The glyph that a rune shows. -/
def glyphShown (policy : JoinPolicy) (r : Json) : Bytes :=
  shown (get (r.get Key.fields) Key.glyph) Key.glyph policy

/-- A text that a register holds only as a retired value. -/
def HeldBefore (reg : Option Json) (t : Bytes) : Prop :=
  (∃ (tag : Tag) (v : Bytes), (orsetFromJson reg).adds[tag]? = some v ∧
      tag ∈ (orsetFromJson reg).removes ∧ textOf v = some t) ∧
    ∀ v ∈ (orsetFromJson reg).values, textOf v ≠ some t

section

variable (policy : JoinPolicy) (v : Json)

/-- A live rune of a mantle shows a name. -/
def LiveNamed (n id : Bytes) : Prop := ∃ r, RuneOf v id r ∧ alive r = true ∧ nameShown policy r = n

/-- A removed rune of a mantle shows a name. -/
def RemovedNamed (n id : Bytes) : Prop :=
  ∃ r, RuneOf v id r ∧ wasPresentAndIsNot r = true ∧ nameShown policy r = n

/-- A live rune of a mantle holds a name only as a retired value. -/
def FormerlyNamed (n id : Bytes) : Prop :=
  ∃ r, RuneOf v id r ∧ alive r = true ∧ HeldBefore (nameRegister r) n

/-- A live rune of a mantle shows a glyph. -/
def LiveTyped (g id : Bytes) : Prop := ∃ r, RuneOf v id r ∧ alive r = true ∧ glyphShown policy r = g

end

/-- Why a link is broken. -/
inductive Cause where
  /-- The rune was removed. -/
  | removed
  /-- The rune was renamed. -/
  | renamed
  deriving DecidableEq

/-- The text of a cause. -/
def Cause.text : Cause → Bytes
  | .removed => lit "removed"
  | .renamed => lit "renamed"

/-- A rune of the target mantle that explains why no rune there shows a name. -/
def Blames (policy : JoinPolicy) (v : Json) (n : Bytes) (cause : Cause) (id : Bytes) : Prop :=
  match cause with
  | .removed => RemovedNamed policy v n id
  | .renamed => (∀ id', ¬RemovedNamed policy v n id') ∧ FormerlyNamed v n id

/-- A live edge of a mantle names an end. -/
def Linked (root : Json) (m target rune : Bytes) : Prop :=
  ∃ v, LiveMantle root m v ∧ ∃ edge ∈ (orsetFromJson (v.get Key.edges)).values,
    ∃ k ∈ [CString.ofLit "from", CString.ofLit "to"],
      endpoint (get (decode edge) k) m = some (target, rune)

/-- The spelling of an end of a link: a name in the link's own mantle, or a mantle and a name. -/
def linkSubject (own target rune : Bytes) : Bytes :=
  if target = own then rune else target ++ lit "/" ++ rune

/-- What a document may report. -/
inductive Rule where
  /-- Live runes of a mantle show one name. -/
  | duplicateName (mantle name : Bytes)
  /-- A link of a mantle names an end that is gone. -/
  | linkBroken (mantle target rune : Bytes) (cause : Cause)
  /-- Live runes of a mantle show a glyph that was removed. -/
  | typeRemoved (mantle glyph : Bytes)
  deriving DecidableEq

namespace Rule

/-- What an anomaly of a rule is listed under. -/
def head : Rule → AnomalyKind × Bytes × Bytes × Bytes
  | .duplicateName m n => (.duplicateName, m, n, [])
  | .linkBroken m target rune cause =>
    (.linkBroken, m, linkSubject m target rune, cause.text)
  | .typeRemoved m g => (.typeRemoved, m, g, [])

/-- The runes that explain a rule. -/
def Explains (root : Json) (policy : JoinPolicy) : Rule → Bytes → Prop
  | .duplicateName m n, id => ∃ v, LiveMantle root m v ∧ LiveNamed policy v n id
  | .linkBroken _ target rune cause, id => ∃ v, LiveMantle root target v ∧ Blames policy v rune cause id
  | .typeRemoved m g, id => ∃ v, LiveMantle root m v ∧ LiveTyped policy v g id

/-- A rule that a document breaks. -/
def Broken (root : Json) (policy : JoinPolicy) : Rule → Prop
  | .duplicateName m n => n ≠ [] ∧ ∃ id id', id ≠ id' ∧
      Explains root policy (.duplicateName m n) id ∧ Explains root policy (.duplicateName m n) id'
  | .linkBroken m target rune cause => Linked root m target rune ∧
      (∃ v, LiveMantle root target v ∧ ∀ id, ¬LiveNamed policy v rune id) ∧
      ∃ id, Explains root policy (.linkBroken m target rune cause) id
  | .typeRemoved m g => RemovedGlyph root g ∧ ∃ id, Explains root policy (.typeRemoved m g) id

end Rule

/-! ### The index of a mantle -/

/-- What was pushed under names is filed under them. -/
theorem files_foldl_push (xs : List (Bytes × Bytes)) :
    Files (xs.foldl (fun d x => Filed.push d x.1 x.2) ∅) fun n id => (n, id) ∈ xs := by
  have h := @Files.foldl Bytes Bytes _ _ ∅ (fun _ _ => False) _ Files.empty
    (xs.map fun x => (x.1, [x.2])) (by simp +contextual [eq_comm])
  rw [List.foldl_map] at h
  refine h.congr fun n id => ?_
  rw [false_or]
  constructor
  · rintro ⟨_, hy, rfl, hid⟩
    obtain ⟨x, hx, rfl⟩ := List.mem_map.mp hy
    rw [List.mem_singleton.mp hid]
    exact hx
  · intro hx
    exact ⟨(n, [id]), List.mem_map.mpr ⟨(n, id), hx, rfl⟩, rfl, List.mem_singleton_self id⟩

/-- Two canonical values with one text are one value. -/
theorem eq_of_textOf {v w t : Bytes} (hv : isCanonical v = true) (hw : isCanonical w = true)
    (hvt : textOf v = some t) (hwt : textOf w = some t) : v = w := by
  have htext : ∀ {v : Bytes}, isCanonical v = true → textOf v = some t →
      ∃ c : CString, c.bytes = t ∧ encode (.str c) = .ok v := by
    intro v hv ht
    obtain ⟨x, hx, he⟩ := isCanonical_iff.mp hv
    rw [textOf, hx] at ht
    obtain ⟨c, hc, hct⟩ := Option.map_eq_some_iff.mp ht
    cases x with
    | str s =>
      obtain rfl := Option.some.inj hc
      exact ⟨s, hct, he⟩
    | _ => cases hc
  obtain ⟨c, rfl, hc⟩ := htext hv hvt
  obtain ⟨c', he, hc'⟩ := htext hw hwt
  obtain rfl := CString.ext he
  exact Except.ok.inj (hc.symm.trans hc')

/-- The former values of a register of canonical values are the texts it holds only as retired
values. -/
theorem mem_formerValues {reg : Option Json} {t : Bytes}
    (hc : ∀ (tag : Tag) (v : Bytes), (orsetFromJson reg).adds[tag]? = some v → isCanonical v = true) :
    t ∈ formerValues reg ↔ HeldBefore reg t := by
  unfold formerValues HeldBefore
  dsimp only
  rw [mem_sortUnique, List.mem_filterMap]
  constructor
  · rintro ⟨⟨tag, v⟩, hm, ht⟩
    rw [List.mem_filter, OrSet.mem_entries, Bool.and_eq_true, Std.ExtTreeSet.contains_iff_mem,
      Bool.not_eq_true', ← Bool.not_eq_true, List.contains_iff_mem] at hm
    obtain ⟨hadd, hremoved, hlive⟩ := hm
    refine ⟨⟨tag, v, hadd, hremoved, ht⟩, fun w hw hwt => hlive ?_⟩
    obtain ⟨tag', hlive'⟩ := OrSet.mem_values.mp hw
    rw [eq_of_textOf (hc tag v hadd) (hc tag' w hlive'.1) ht hwt]
    exact hw
  · rintro ⟨⟨tag, v, hadd, hremoved, ht⟩, hno⟩
    refine ⟨(tag, v), ?_, ht⟩
    rw [List.mem_filter, OrSet.mem_entries, Bool.and_eq_true, Std.ExtTreeSet.contains_iff_mem,
      Bool.not_eq_true', ← Bool.not_eq_true, List.contains_iff_mem]
    exact ⟨hadd, hremoved, fun hw => hno v hw ht⟩

/-- What the index of a mantle files. -/
structure MantleIndex.Reads (policy : JoinPolicy) (v : Json) (ix : MantleIndex) : Prop where
  /-- The names of live runes. -/
  liveNames : Files ix.liveNames (LiveNamed policy v)
  /-- No rune is filed twice under a name. -/
  once : ∀ (n : Bytes) (ids : List Bytes), ix.liveNames[n]? = some ids → ids.Nodup
  /-- The names of removed runes. -/
  removed : Files ix.removed (RemovedNamed policy v)
  /-- The former names. -/
  renamedFrom : Files ix.renamedFrom fun n id => ∃ r, RuneOf v id r ∧ alive r = true ∧
    HeldBefore (nameRegister r) n ∧ n ≠ nameShown policy r
  /-- The glyphs. -/
  glyphOf : ∀ id g : Bytes, ix.glyphOf[id]? = some g ↔ LiveTyped policy v g id

/-- A rune that is present was not removed. -/
theorem wasPresentAndIsNot_of_alive {r : Json} (h : alive r = true) : wasPresentAndIsNot r = false := by
  rw [alive, Bool.not_eq_true'] at h
  rw [wasPresentAndIsNot, h, Bool.false_and]

theorem reads_indexMantle {policy : JoinPolicy} {v : Json}
    (hd : ((childMembers (v.get Key.runes)).map Prod.fst).Nodup)
    (hc : ∀ id r, RuneOf v id r → ∀ (tag : Tag) (x : Bytes),
      (orsetFromJson (nameRegister r)).adds[tag]? = some x → isCanonical x = true) :
    (indexMantle policy v).Reads policy v := by
  rw [indexMantle, foldl_indexRune]
  constructor
  · refine (files_foldl_push _).congr fun n id => ?_
    rw [List.mem_flatMap]
    constructor
    · rintro ⟨⟨name, r⟩, hm, hx⟩
      unfold liveEntry at hx
      split at hx
      · rename_i ha
        cases List.mem_singleton.mp hx
        exact ⟨r, ⟨name, rfl, hm⟩, ha, rfl⟩
      · cases hx
    · rintro ⟨r, ⟨name, rfl, hm⟩, ha, rfl⟩
      refine ⟨(name, r), hm, ?_⟩
      unfold liveEntry
      rw [if_pos ha]
      exact List.mem_singleton_self _
  · intro n ids hids
    dsimp only at hids
    rw [getElem?_foldl_push] at hids
    split at hids
    · simp at hids
    · obtain rfl := Option.some.inj hids
      have hnodup := @entries_nodup _ Prod.snd _ (liveEntry policy) hd
        (fun m => by unfold liveEntry; split <;> simp)
        (fun m x hx => by
          unfold liveEntry at hx
          split at hx
          · rw [List.mem_singleton.mp hx]
          · cases hx)
      simpa using hnodup.sublist (List.filter_sublist.map Prod.snd)
  · refine (files_foldl_push _).congr fun n id => ?_
    rw [List.mem_flatMap]
    constructor
    · rintro ⟨⟨name, r⟩, hm, hx⟩
      unfold removedEntry at hx
      split at hx
      · cases hx
      split at hx
      · rename_i hw
        cases List.mem_singleton.mp hx
        exact ⟨r, ⟨name, rfl, hm⟩, hw, rfl⟩
      · cases hx
    · rintro ⟨r, ⟨name, rfl, hm⟩, hw, rfl⟩
      refine ⟨(name, r), hm, ?_⟩
      have ha : ¬alive r = true := fun ha => by
        rw [wasPresentAndIsNot_of_alive ha] at hw
        cases hw
      unfold removedEntry
      rw [if_neg ha, if_pos hw]
      exact List.mem_singleton_self _
  · refine (files_foldl_push _).congr fun n id => ?_
    rw [List.mem_flatMap]
    constructor
    · rintro ⟨⟨name, r⟩, hm, hx⟩
      unfold renamedEntries at hx
      dsimp only at hx
      split at hx
      · rename_i ha
        obtain ⟨old, hold, he⟩ := List.mem_map.mp hx
        cases he
        obtain ⟨hformer, hne⟩ := List.mem_filter.mp hold
        exact ⟨r, ⟨name, rfl, hm⟩, ha,
          (mem_formerValues (hc _ r ⟨name, rfl, hm⟩)).mp hformer, of_decide_eq_true hne⟩
      · cases hx
    · rintro ⟨r, ⟨name, rfl, hm⟩, ha, hheld, hne⟩
      refine ⟨(name, r), hm, ?_⟩
      unfold renamedEntries
      dsimp only
      rw [if_pos ha]
      exact List.mem_map.mpr ⟨n, List.mem_filter.mpr
        ⟨(mem_formerValues (hc _ r ⟨name, rfl, hm⟩)).mpr hheld, decide_eq_true hne⟩, rfl⟩
  · intro id g
    rw [Sorting.getElem?_foldl_insert_eq_some (glyphEntries_nodup hd policy), List.mem_flatMap]
    constructor
    · rintro ⟨⟨name, r⟩, hm, hx⟩
      unfold glyphEntry at hx
      split at hx
      · rename_i ha
        cases List.mem_singleton.mp hx
        exact ⟨r, ⟨name, rfl, hm⟩, ha, rfl⟩
      · cases hx
    · rintro ⟨r, ⟨name, rfl, hm⟩, ha, rfl⟩
      refine ⟨(name, r), hm, ?_⟩
      unfold glyphEntry
      rw [if_pos ha]
      exact List.mem_singleton_self _

/-! ### The index of a document -/

section

variable {root : Json} (h : Shaped root) {policy : JoinPolicy} {m : Bytes} {v : Json}

include h

/-- The node of a mantle is where its name is. -/
theorem LiveMantle.node (hm : LiveMantle root m v) :
    ∃ name : CString, name.bytes = m ∧ nodeAt root [Key.mantles, name] = some v := by
  obtain ⟨-, name, hname, hmem⟩ := hm
  rw [h.get_of_nodeAt (p := []) rfl rfl] at hmem
  exact ⟨name, hname, (h.mem_childMembers (p := [Key.mantles]) (by decide)).mp hmem⟩

theorem LiveMantle.unique {w : Json} (hm : LiveMantle root m v) (hw : LiveMantle root m w) :
    v = w := by
  obtain ⟨name, rfl, hv⟩ := hm.node h
  obtain ⟨name', he, hv'⟩ := hw.node h
  obtain rfl := CString.ext he
  exact Option.some.inj (hv.symm.trans hv')

/-- The index has the mantles that are present. -/
theorem getElem?_mantleIndex {ix : MantleIndex} : (mantleIndex root policy)[m]? = some ix ↔
    ∃ v, LiveMantle root m v ∧ ix = indexMantle policy v := by
  have hd : ((childMembers (root.get Key.mantles)).map Prod.fst).Nodup := by
    rw [h.get_of_nodeAt (p := []) rfl rfl]
    exact h.namesAt_nodup (p := [Key.mantles]) (by decide)
  rw [mantleIndex_eq, Sorting.getElem?_foldl_insert_eq_some (mantleEntries_nodup hd policy),
    List.mem_flatMap]
  constructor
  · rintro ⟨⟨name, v⟩, hm, hx⟩
    unfold mantleEntry at hx
    split at hx
    · rename_i ha
      cases List.mem_singleton.mp hx
      exact ⟨v, ⟨ha, name, rfl, hm⟩, rfl⟩
    · cases hx
  · rintro ⟨v, ⟨ha, name, rfl, hm⟩, rfl⟩
    refine ⟨(name, v), hm, ?_⟩
    unfold mantleEntry
    rw [if_pos ha]
    exact List.mem_singleton_self _

/-- A mantle that is present is indexed by what is read off it. -/
theorem LiveMantle.reads (hv : ValuesAccepted root) (hm : LiveMantle root m v) :
    (indexMantle policy v).Reads policy v := by
  obtain ⟨name, -, hn⟩ := hm.node h
  have hb := atKind_mantle (h.name_ne_empty (k := name) namedAt_mantles hn)
  have hk : kindOf [Key.mantles, name, Key.runes] = some .map := hb [Key.runes]
  have hrunes : v.get Key.runes = nodeAt root [Key.mantles, name, Key.runes] :=
    h.get_of_nodeAt hn hb.mantle_thing.map _
  refine reads_indexMantle ?_ ?_
  · rw [hrunes]
    exact h.namesAt_nodup hk
  · rintro id r ⟨id, rfl, hr⟩ tag x hx
    rw [hrunes] at hr
    have hr := (h.mem_childMembers hk).mp hr
    have hrune := hb.rune (h.name_ne_empty hb.namedAt_runes hr)
    rw [nameRegister, h.read_field hrune.rune_thing hr] at hx
    have hrule : kindOf ([Key.mantles, name, Key.runes] ++ [id] ++ [Key.fields, Key.spiritName]) =
        some (.set .canonical) := by
      rw [show [Key.mantles, name, Key.runes] ++ [id] = [Key.mantles, name] ++ [Key.runes, id] from rfl,
        hrune]
      decide
    exact hv.setAt h hrule tag x hx

end

/-! ### Ends of links -/

section

variable {root : Json} (h : Shaped root) (hv : ValuesAccepted root) {policy : JoinPolicy}
  {target rune : Bytes}

include h hv

/-- An end is broken when no rune shows its name and some rune explains that. -/
theorem brokenEnd_eq_some {cause : Bytes} {who : List Bytes}
    (hb : brokenEnd (mantleIndex root policy) target rune = some (cause, who)) :
    ∃ (why : Cause) (v : Json), cause = why.text ∧ LiveMantle root target v ∧
      (∀ id, ¬LiveNamed policy v rune id) ∧ (∃ id, Blames policy v rune why id) ∧
      ∀ id, id ∈ who ↔ Blames policy v rune why id := by
  unfold brokenEnd at hb
  obtain ⟨ix, hix, hb⟩ := Option.bind_eq_some_iff.mp hb
  obtain ⟨v, hm, rfl⟩ := (getElem?_mantleIndex h).mp hix
  have hreads := @LiveMantle.reads root h policy target v hv hm
  split at hb
  · cases hb
  rename_i hlive
  have hnone : ∀ id, ¬LiveNamed policy v rune id := by
    rw [Std.ExtTreeMap.contains_eq_isSome_getElem?, Bool.not_eq_true, Option.isSome_eq_false_iff,
      Option.isNone_iff_eq_none] at hlive
    exact hreads.liveNames.none_iff.mp hlive
  split at hb
  · rename_i ids hids
    cases hb
    exact ⟨.removed, v, rfl, hm, hnone, hreads.removed.exists_of_list hids,
      hreads.removed.mem_iff hids⟩
  · rename_i hremoved
    obtain ⟨ids, hids, he⟩ := Option.map_eq_some_iff.mp hb
    cases he
    have hno := hreads.removed.none_iff.mp hremoved
    -- no rune of the mantle shows the name, so a former name is not the one that is shown
    have hformer : ∀ id, (∃ r, RuneOf v id r ∧ alive r = true ∧ HeldBefore (nameRegister r) rune ∧
        rune ≠ nameShown policy r) ↔ Blames policy v rune .renamed id := by
      intro id
      constructor
      · rintro ⟨r, hr, ha, hheld, -⟩
        exact ⟨hno, r, hr, ha, hheld⟩
      · rintro ⟨-, r, hr, ha, hheld⟩
        exact ⟨r, hr, ha, hheld, fun he => hnone id ⟨r, hr, ha, he.symm⟩⟩
    refine ⟨.renamed, v, rfl, hm, hnone, ?_, fun id =>
      (hreads.renamedFrom.mem_iff hids id).trans (hformer id)⟩
    exact (hreads.renamedFrom.exists_of_list hids).imp fun id => (hformer id).mp

theorem exists_brokenEnd {v : Json} {why : Cause} {id : Bytes} (hm : LiveMantle root target v)
    (hno : ∀ id, ¬LiveNamed policy v rune id) (hid : Blames policy v rune why id) :
    ∃ who, brokenEnd (mantleIndex root policy) target rune = some (why.text, who) := by
  have hreads := @LiveMantle.reads root h policy target v hv hm
  have hlive : (indexMantle policy v).liveNames.contains rune = false := by
    rw [Std.ExtTreeMap.contains_eq_isSome_getElem?, hreads.liveNames.none_iff.mpr hno]
    rfl
  unfold brokenEnd
  rw [(getElem?_mantleIndex h).mpr ⟨v, hm, rfl⟩]
  simp only [Option.bind_eq_bind, Option.bind_some, hlive, Bool.false_eq_true, if_false]
  cases why with
  | removed =>
    obtain ⟨ids, hids⟩ := hreads.removed.exists_list hid
    rw [hids]
    exact ⟨ids, rfl⟩
  | renamed =>
    obtain ⟨hremoved, r, hr, ha, hheld⟩ := hid
    rw [hreads.removed.none_iff.mpr hremoved]
    obtain ⟨ids, hids⟩ := hreads.renamedFrom.exists_list
      ⟨r, hr, ha, hheld, fun he => hno id ⟨r, hr, ha, he.symm⟩⟩
    rw [hids]
    exact ⟨ids, rfl⟩

end

/-- The ends of an edge that are broken, with what they are filed under. -/
def brokenEnds (index : Std.ExtTreeMap Bytes MantleIndex compare) (own : Bytes) (e : Option Json) :
    List (List Bytes × List Bytes) :=
  match endpoint e own with
  | none => []
  | some (target, rune) =>
    match brokenEnd index target rune with
    | none => []
    | some (cause, who) => [([linkSubject own target rune, cause], who)]

/-- The ends of a mantle's edges. -/
def endsOfEdges (edges : List Bytes) : List (Option Json) :=
  edges.flatMap fun edge => [get (decode edge) (.ofLit "from"), get (decode edge) (.ofLit "to")]

theorem brokenLinks_eq (index : Std.ExtTreeMap Bytes MantleIndex compare) (own : Bytes)
    (edges : List Bytes) : brokenLinks index own edges =
      ((endsOfEdges edges).flatMap (brokenEnds index own)).foldl
        (fun d y => d.insert y.1 (d[y.1]?.getD [] ++ y.2)) ∅ := by
  have hone : ∀ (found : Std.ExtTreeMap (List Bytes) (List Bytes) compare) (e : Option Json),
      fileEnd index own found e =
        (brokenEnds index own e).foldl (fun d y => d.insert y.1 (d[y.1]?.getD [] ++ y.2)) found := by
    intro found e
    unfold fileEnd brokenEnds
    cases endpoint e own with
    | none => rfl
    | some x =>
      obtain ⟨target, rune⟩ := x
      dsimp only
      cases brokenEnd index target rune with
      | none => rfl
      | some y => rfl
  unfold brokenLinks endsOfEdges
  generalize (∅ : Std.ExtTreeMap (List Bytes) (List Bytes) compare) = found
  induction edges generalizing found with
  | nil => rfl
  | cons edge edges ih =>
    rw [List.foldl_cons, ih, List.flatMap_cons, List.flatMap_append, List.foldl_append]
    congr 1
    simp only [fileEdge, List.foldl_cons, List.foldl_nil, hone, List.flatMap_cons, List.flatMap_nil,
      List.append_nil, List.foldl_append]

end VoidPalabra
