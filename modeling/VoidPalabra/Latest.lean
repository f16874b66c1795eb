import VoidPalabra.Codec
import VoidPalabra.Saved

/-!
# The latest document

A save is skipped when its digest is that of the last one, and the digest does not cover all that is
stored: of a mantle it covers what the canonical form reads. What is loaded after a save is the state
exactly when nothing of it was out of the digest's sight.
-/

namespace VoidPalabra

open BlockStore

/-! ### Equal documents -/

theorem SameItems.of_forall {xs : List Json} (h : ∀ x ∈ xs, SameValue x x) : SameItems xs xs := by
  induction xs with
  | nil => exact .nil
  | cons x xs ih =>
    exact .cons (h x List.mem_cons_self) (ih fun y hy => h y (List.mem_cons_of_mem _ hy))

theorem SameMembers.of_forall {ms : List (CString × Json)} (h : ∀ m ∈ ms, SameValue m.2 m.2) :
    SameMembers ms ms := by
  induction ms with
  | nil => exact .nil
  | cons m ms ih =>
    exact .cons (h m List.mem_cons_self) (ih fun y hy => h y (List.mem_cons_of_mem _ hy))

theorem SameValue.refl (v : Json) : SameValue v v := by
  induction v using Json.induct with
  | null => exact .null
  | bool b => exact .bool b
  | num d => exact .num rfl fun _ => rfl
  | str s => exact .str s
  | arr xs ih => exact .arr (.of_forall ih)
  | obj ms ih => exact .obj (List.Perm.refl _) (.of_forall ih) (List.Perm.refl _)

/-- The member that is taken out is the one that lookup finds. -/
theorem eraseMember_perm {k : CString} {v : Json} {ms : List (CString × Json)}
    (h : Json.lookup k ms = some v) : (eraseMember k ms ++ [(k, v)]).Perm ms := by
  induction ms with
  | nil => cases h
  | cons m rest ih =>
    obtain ⟨l, w⟩ := m
    rw [Json.lookup_cons] at h
    rw [eraseMember]
    by_cases hl : l = k
    · rw [if_pos hl] at h ⊢
      cases h
      rw [hl]
      exact List.perm_append_singleton _ _
    · rw [if_neg hl] at h ⊢
      exact (ih h).cons _

/-- An object with a member replaced by an equal one, wherever it stands, is an equal object. -/
theorem sameValue_replaced {j v w : Json} {k : CString} (h : j.get k = some w) (hvw : SameValue v w) :
    SameValue (addMember (without k j) k v) j := by
  have hmembers : ∀ ms : List (CString × Json), SameMembers (ms ++ [(k, v)]) (ms ++ [(k, w)]) := by
    intro ms
    induction ms with
    | nil => exact .cons hvw .nil
    | cons m ms ih => exact .cons (.refl m.2) ih
  cases j with
  | obj ms => exact .obj (List.Perm.refl _) (hmembers (eraseMember k ms)) (eraseMember_perm h)
  | null => cases h
  | bool _ => cases h
  | num _ => cases h
  | str _ => cases h
  | arr _ => cases h

namespace Archive

/-- The mantles are a list and each has a list of runes. -/
structure HasLists (s : Json) : Prop where
  /-- The mantles. -/
  mantles : (s.get Key.mantles).isSome = true
  /-- The runes of each. -/
  runes : ∀ m ∈ mantlesOf s, (m.get Key.runes).isSome = true

theorem some_of_listField {P : Json → Prop} {n : Option Json} (h : ListField P n)
    (hn : n.isSome = true) : n = some (.arr (childValues n)) := by
  obtain ⟨v, rfl⟩ := Option.isSome_iff_exists.mp hn
  obtain ⟨xs, rfl, -⟩ := h v rfl
  rw [childValues_eq_arrayItems h]
  rfl

/-- **A state that has its lists is loaded as it was**, up to the order of members. -/
theorem sameValue_reloaded {s : Json} (h : CoreState s) (hd : MembersOnce s) (hl : HasLists s) :
    SameValue (reloaded s) s := by
  have hmantle : ∀ m ∈ mantlesOf s, SameValue (reloadedMantle m) m := fun m hm =>
    sameValue_replaced (some_of_listField (coreMantle_of_mem h hm).runes (hl.runes m hm)) (.refl _)
  have hitems : ∀ ms : List Json, (∀ m ∈ ms, SameValue (reloadedMantle m) m) →
      SameItems (ms.map reloadedMantle) ms := by
    intro ms
    induction ms with
    | nil => exact fun _ => .nil
    | cons m ms ih =>
      exact fun hms => .cons (hms m List.mem_cons_self) (ih fun n hn => hms n (List.mem_cons_of_mem _ hn))
  rw [reloaded_eq hd]
  exact sameValue_replaced (some_of_listField h.mantles hl.mantles) (.arr (hitems _ hmantle))

/-! ### One document -/

/-- Members that are missing, lists of related things in any order, or equal other values. -/
inductive Rearranged (R : Json → Json → Prop) : Option Json → Option Json → Prop
  /-- Missing. -/
  | missing : Rearranged R none none
  /-- Lists. -/
  | list {xs zs ys : List Json} (order : xs.Perm zs) (each : List.Forall₂ R zs ys) :
    Rearranged R (some (.arr xs)) (some (.arr ys))
  /-- Something else. -/
  | other {v w : Json} (notList : v.isArray = false) (same : SameValue v w) :
    Rearranged R (some v) (some w)

/-- One rune, with its tags in any order. -/
structure OneRune (r r' : Json) : Prop where
  /-- What is beside the tags. -/
  beside : SameValue (without Key.tags r) (without Key.tags r')
  /-- The tags. -/
  tags : Rearranged SameValue (r.get Key.tags) (r'.get Key.tags)

/-- One layout, with its edges in any order. -/
structure OneLayout (l l' : Json) : Prop where
  /-- What is beside the edges. -/
  beside : SameValue (without Key.edges l) (without Key.edges l')
  /-- The edges. -/
  edges : Rearranged SameValue (l.get Key.edges) (l'.get Key.edges)

/-- One mantle, with its runes in any order. -/
structure OneMantle (m m' : Json) : Prop where
  /-- What is beside the runes and the layout. -/
  beside : SameValue (without Key.layout (shellOf m)) (without Key.layout (shellOf m'))
  /-- The runes. -/
  runes : Rearranged OneRune (m.get Key.runes) (m'.get Key.runes)
  /-- The layout. -/
  layout : Option.Rel OneLayout (m.get Key.layout) (m'.get Key.layout)

/-- One document: equal up to the order of members and that of mantles, runes, tags and edges. -/
structure OneDocument (s s' : Json) : Prop where
  /-- What is beside the mantles. -/
  beside : SameValue (remainderOf s) (remainderOf s')
  /-- The mantles. -/
  mantles : Rearranged OneMantle (s.get Key.mantles) (s'.get Key.mantles)

theorem Rearranged.refl {R : Json → Json → Prop} (h : ∀ v, R v v) (n : Option Json) : Rearranged R n n := by
  cases n with
  | none => exact .missing
  | some v =>
    cases v with
    | arr xs => exact .list (List.Perm.refl _) (List.forall₂_same.mpr fun x _ => h x)
    | null => exact .other rfl (.refl _)
    | bool _ => exact .other rfl (.refl _)
    | num _ => exact .other rfl (.refl _)
    | str _ => exact .other rfl (.refl _)
    | obj _ => exact .other rfl (.refl _)

theorem OneRune.refl (r : Json) : OneRune r r := ⟨.refl _, .refl .refl _⟩

theorem OneLayout.refl (l : Json) : OneLayout l l := ⟨.refl _, .refl .refl _⟩

theorem OneMantle.refl (m : Json) : OneMantle m m := by
  refine ⟨.refl _, .refl .refl _, ?_⟩
  cases m.get Key.layout with
  | none => exact .none
  | some l => exact .some (.refl l)

/-- Taking out what was added leaves the rest. -/
theorem without_addMember {j : Json} (hd : (j.members.map Prod.fst).Nodup) (k : CString) (v : Json) :
    without k (addMember (without k j) k v) = without k j := by
  have herase : ∀ {ms : List (CString × Json)}, Json.lookup k ms = none →
      eraseMember k (ms ++ [(k, v)]) = ms := by
    intro ms
    induction ms with
    | nil => exact fun _ => if_pos rfl
    | cons m rest ih =>
      obtain ⟨l, w⟩ := m
      intro h
      rw [Json.lookup_cons] at h
      by_cases hl : l = k
      · rw [if_pos hl] at h
        cases h
      · rw [if_neg hl] at h
        rw [List.cons_append, eraseMember, if_neg hl, ih h]
  cases j with
  | obj ms =>
    rw [Json.members_obj] at hd
    refine congrArg Json.obj (herase ?_)
    rw [lookup_eraseMember hd, if_pos rfl]
  | null => rfl
  | bool _ => rfl
  | num _ => rfl
  | str _ => rfl
  | arr _ => rfl

theorem oneMantle_reloaded {m : Json} (h : CoreMantle m) (hd : (m.members.map Prod.fst).Nodup)
    (hr : (m.get Key.runes).isSome = true) : OneMantle (reloadedMantle m) m := by
  have hruns : (reloadedMantle m).get Key.runes = m.get Key.runes := by
    rw [get_reloadedMantle h hd, if_pos rfl, some_of_listField h.runes hr]
    rfl
  have hlayout : (reloadedMantle m).get Key.layout = m.get Key.layout := by
    rw [get_reloadedMantle h hd, if_neg (by decide)]
  have hself := OneMantle.refl m
  refine ⟨?_, by rw [hruns]; exact hself.runes, by rw [hlayout]; exact hself.layout⟩
  rw [shellOf, reloadedMantle, shellOf, without_addMember hd]
  exact hself.beside

/-- What is loaded is the document that was saved exactly when that had its lists. -/
theorem oneDocument_reloaded_iff {s : Json} (h : CoreState s) (hd : MembersOnce s) :
    OneDocument (reloaded s) s ↔ HasLists s := by
  constructor
  · intro hone
    have hmantles := hone.mantles
    rw [get_reloaded h hd, if_pos rfl] at hmantles
    cases hs : s.get Key.mantles with
    | none =>
      rw [hs] at hmantles
      cases hmantles
    | some v =>
      refine ⟨by rw [hs]; rfl, fun m hm => ?_⟩
      have hlist := some_of_listField h.mantles (by rw [hs]; rfl)
      rw [← mantlesOf] at hlist
      rw [hlist] at hmantles
      cases hmantles with
      | list order each =>
        obtain ⟨z, hz, hzm⟩ := forall₂_right each hm
        obtain ⟨n, hn, rfl⟩ := List.mem_map.mp (order.mem_iff.mpr hz)
        have hruns := hzm.runes
        rw [get_reloadedMantle (coreMantle_of_mem h hn) (hd.mantles n hn), if_pos rfl] at hruns
        cases hr : m.get Key.runes with
        | none =>
          rw [hr] at hruns
          cases hruns
        | some _ => rfl
      | other notList same => cases notList
  · intro hl
    refine ⟨?_, ?_⟩
    · rw [remainderOf, reloaded_eq hd, without_addMember hd.state]
      exact .refl _
    · rw [get_reloaded h hd, if_pos rfl, some_of_listField h.mantles hl.mantles]
      refine .list (List.Perm.refl _) (List.forall₂_map_left_iff.mpr (List.forall₂_same.mpr fun m hm => ?_))
      exact oneMantle_reloaded (coreMantle_of_mem h hm) (hd.mantles m hm) (hl.runes m hm)

/-! ### The latest save -/

/-- The latest document of an archive is this one. -/
def LatestIs (a : Archive) (s : Json) : Prop := ∃ d, a.loadLatest = .ok (some d) ∧ OneDocument d s

/-- Where the blocks of a save do not collide with one another or with what is there, they are all
there afterwards. -/
theorem hasTexts_saved {a : Archive} {s : Json} (ha : a.blocks.ContentAddressed)
    (hinj : Set.InjOn sha256 (a.blocks.stored ∪ {b | b ∈ savedTexts s})) :
    HasTexts (a.blocks.putAll (savedTexts s)).2 (savedTexts s) :=
  fun _ hb => get_putAll ha hinj hb

/-- A save that is made is loaded. -/
theorem loadAt_saved {a : Archive} {s : Json} {version : Bytes} (hversion : versionName s {} = .ok version)
    (hcore : CoreState s) (honce : MembersOnce s) (hstorable : Storable s) (ha : a.blocks.ContentAddressed)
    (hinj : Set.InjOn sha256 (a.blocks.stored ∪ {b | b ∈ savedTexts s})) (label content : Bytes) :
    (a.saved s version label content).loadAt a.saves.length = .ok (some (reloaded s)) := by
  have hload : (a.saved s version label content).loadManifest
      { version := version, label := label, recipe := recipeOf s, content := content } =
        .ok (some (reloaded s)) :=
    loadManifest_eq ⟨rfl, hversion⟩ hcore honce hstorable (hasTexts_saved ha hinj)
  rw [loadAt, saved, List.getElem?_concat_length]
  exact hload

theorem loadLatest_saved (a : Archive) (s : Json) (version label content : Bytes) :
    (a.saved s version label content).loadLatest =
      (a.saved s version label content).loadAt a.saves.length := by
  rw [loadLatest, saved, if_neg (by simp), List.length_append, List.length_singleton, Nat.add_sub_cancel]

end Archive

open Archive

/-! ### A mantle with a colour -/

/-- A colour. -/
def red : CString := .ofLit "red"

/-- Another one. -/
def blue : CString := .ofLit "blue"

/-- What is beside the runes of a mantle of this colour. -/
def colouredShell (color : CString) : Json :=
  .obj [(Key.name, .str (.ofLit "m")), (.ofLit "color", .str color)]

/-- The mantle. -/
def colouredMantle (color : CString) : Json :=
  .obj [(Key.name, .str (.ofLit "m")), (Key.runes, .arr []), (.ofLit "color", .str color)]

/-- A state with this one mantle. -/
def painted (color : CString) : Json := .obj [(Key.mantles, .arr [colouredMantle color])]

theorem coreState_painted (color : CString) : CoreState (painted color) := by
  refine ⟨⟨_, rfl⟩, ?_, fun v hv => by cases hv⟩
  rintro _ ⟨⟩
  refine ⟨_, rfl, List.forall_mem_singleton.mpr ⟨⟨_, rfl⟩, fun v hv => (by cases hv), ?_, ?_,
    fun v hv => by cases hv⟩⟩
  · rintro _ ⟨⟩
    exact ⟨_, rfl⟩
  · rintro _ ⟨⟩
    exact ⟨[], rfl, fun x hx => by cases hx⟩

theorem membersOnce_painted (color : CString) : MembersOnce (painted color) :=
  ⟨show ([Key.mantles] : List CString).Nodup by decide, List.forall_mem_singleton.mpr
    (show ([Key.name, Key.runes, .ofLit "color"] : List CString).Nodup by decide)⟩

theorem hasLists_painted (color : CString) : HasLists (painted color) :=
  ⟨rfl, List.forall_mem_singleton.mpr rfl⟩

theorem storable_red : Archive.Storable (painted red) where
  beside := by
    change parseText _ = _
    rfl
  shells := List.forall_mem_singleton.mpr (by
    change parseText _ = _
    rfl)
  runes := List.forall_mem_singleton.mpr fun r hr => by cases hr
  mantleCount := by decide
  runeCount := List.forall_mem_singleton.mpr (by decide)
  shellLength := List.forall_mem_singleton.mpr (by decide +kernel)

theorem injOn_red : Set.InjOn sha256 (({} : BlockStore).stored ∪ {b | b ∈ savedTexts (painted red)}) := by
  have hall : ∀ x ∈ savedTexts (painted red), ∀ y ∈ savedTexts (painted red),
      sha256 x = sha256 y → x = y := by decide +kernel
  rintro x (⟨k, hx⟩ | hx) y (⟨l, hy⟩ | hy) h
  · cases hx
  · cases hx
  · cases hy
  · exact hall x hx y hy h

/-- A state whose digest and name exist. -/
theorem exists_save_red : ∃ version content, versionName (painted red) {} = .ok version ∧
    contentDigest (painted red) (remainderOf (painted red)) = .ok content ∧
      versionName (painted blue) {} = .ok version ∧
        contentDigest (painted blue) (remainderOf (painted blue)) = .ok content :=
  ⟨(versionName (painted red) {}).toOption.getD [],
    (contentDigest (painted red) (remainderOf (painted red))).toOption.getD [],
    by decide +kernel, by decide +kernel, by decide +kernel, by decide +kernel⟩

theorem exists_encode_shell : encode (colouredShell red) = .ok ((encode (colouredShell red)).toOption.getD []) ∧
    encode (colouredShell blue) = .ok ((encode (colouredShell blue)).toOption.getD []) :=
  ⟨by decide +kernel, by decide +kernel⟩

theorem contentAddressed_empty : BlockStore.ContentAddressed ∅ := fun k b h => by cases h

/-- **After a save the latest document is the one that was saved exactly when** the save was not
skipped and the document has its lists, or it was skipped and the latest document was that one already.
The save is skipped when the digest, which does not cover all of the document, is that of the last
save. The parts of the document have to come back from their texts and fit the fields of a manifest,
and its blocks must not collide. -/
theorem save_latest_iff {a a' : Archive} {s : Json} {label version : Bytes} (hcore : CoreState s)
    (honce : MembersOnce s) (hstorable : Archive.Storable s) (ha : a.blocks.ContentAddressed)
    (hinj : Set.InjOn sha256 (a.blocks.stored ∪ {b | b ∈ savedTexts s}))
    (hsave : a.save s label = .ok (version, a')) :
    LatestIs a' s ↔ ∀ content, contentDigest s (remainderOf s) = .ok content →
      if a.savedLast content then LatestIs a s else HasLists s := by
  obtain ⟨content, hversion, hcontent, rfl⟩ := save_eq_ok.mp hsave
  have hone : (∀ c, contentDigest s (remainderOf s) = .ok c →
      if a.savedLast c then LatestIs a s else HasLists s) ↔
      if a.savedLast content then LatestIs a s else HasLists s := by
    constructor
    · exact fun h => h content hcontent
    · intro h c hc
      rw [hcontent] at hc
      cases hc
      exact h
  rw [hone]
  by_cases hlast : a.savedLast content = true
  · rw [if_pos hlast, if_pos hlast]
  · rw [if_neg hlast, if_neg hlast, ← oneDocument_reloaded_iff hcore honce, LatestIs,
      loadLatest_saved, loadAt_saved hversion hcore honce hstorable ha hinj]
    constructor
    · rintro ⟨d, hd, h⟩
      cases hd
      exact h
    · exact fun h => ⟨_, rfl, h⟩

/-- A first save is there. -/
theorem save_latest_red : ∃ version a, Archive.save {} (painted red) [] = .ok (version, a) ∧
    LatestIs a (painted red) := by
  obtain ⟨version, content, hversion, hcontent, -, -⟩ := exists_save_red
  have hsave : Archive.save {} (painted red) [] =
      .ok (version, Archive.saved {} (painted red) version [] content) :=
    save_eq_ok.mpr ⟨content, hversion, hcontent, rfl⟩
  refine ⟨_, _, hsave, (save_latest_iff (coreState_painted _) (membersOnce_painted _) storable_red
    contentAddressed_empty injOn_red hsave).mpr fun c _ => hasLists_painted _⟩

/-- A mantle that changed its colour is not saved. -/
theorem recoloured_not_saved : ∃ version a,
    Archive.save {} (painted red) [] = .ok (version, a) ∧
      a.save (painted blue) [] = .ok (version, a) ∧ ¬ LatestIs a (painted blue) := by
  obtain ⟨version, content, hversion, hcontent, hversion', hcontent'⟩ := exists_save_red
  refine ⟨version, Archive.saved {} (painted red) version [] content,
    save_eq_ok.mpr ⟨content, hversion, hcontent, rfl⟩, save_eq_ok.mpr ⟨content, hversion', hcontent', ?_⟩, ?_⟩
  · exact (if_pos (beq_self_eq_true content)).symm
  · rintro ⟨d, hd, hone⟩
    rw [loadLatest_saved, loadAt_saved hversion (coreState_painted _) (membersOnce_painted _) storable_red
      contentAddressed_empty injOn_red] at hd
    cases hd
    have hmantles := hone.mantles
    change Rearranged OneMantle (some (.arr [reloadedMantle (colouredMantle red)])) (some (.arr [colouredMantle blue])) at hmantles
    cases hmantles with
    | list order each =>
      obtain ⟨z, hz, hone⟩ := forall₂_right each (List.mem_singleton_self _)
      obtain rfl := List.mem_singleton.mp (order.mem_iff.mpr hz)
      have hform : HasForm (colouredShell red) ∧ HasForm (colouredShell blue) :=
        ⟨⟨_, exists_encode_shell.1⟩, ⟨_, exists_encode_shell.2⟩⟩
      have hsame := (form_eq_iff hform.1 hform.2).mpr ((norm_eq_iff hform.1 hform.2).mpr hone.beside)
      revert hsame
      decide +kernel
    | other notList same => cases notList
end VoidPalabra
