import VoidPalabra.Reopened

/-!
# The life of an archive

An archive is saved into, given assets, written and read again, in any order. Its store only grows,
so each recipe keeps its meaning: every save is loaded as the state that made it, and every asset is
what was last put under its name.
-/

namespace VoidPalabra

open BlockStore

namespace Archive

/-- The blocks of an asset. -/
def assetTexts (bytes : Bytes) : List Bytes := pieces bytes 0 (chunksOf bytes {} runs_default)

/-- A state that is loaded as it was saved, with its blocks among `B`. -/
structure Lasts (B : Set Bytes) (s : Json) : Prop where
  /-- Its shape. -/
  core : CoreState s
  /-- Its objects. -/
  once : MembersOnce s
  /-- Its lists. -/
  lists : HasLists s
  /-- Its parts. -/
  storable : Storable s
  /-- Its blocks. -/
  blocks : ∀ b ∈ savedTexts s, b ∈ B

/-- The archives that come of a fresh one, with the states that made their saves and the assets as
they were last put. -/
inductive Run (B : Set Bytes) : Archive → List Json → (Bytes → Option Bytes) → Prop
  /-- A fresh archive. -/
  | fresh : Run B {} [] fun _ => none
  /-- A save; a state that is skipped makes none. -/
  | save {a a' : Archive} {states : List Json} {assets : Bytes → Option Bytes} {s : Json}
    {label version : Bytes} (run : Run B a states assets) (lasts : Lasts B s) (plain : Plain label)
    (done : a.save s label = .ok (version, a')) :
    Run B a' (if a'.saves.length = a.saves.length then states else states ++ [s]) assets
  /-- An asset. -/
  | asset {a : Archive} {states : List Json} {assets : Bytes → Option Bytes} {name bytes : Bytes}
    (run : Run B a states assets) (plain : Plain name) (blocks : ∀ b ∈ assetTexts bytes, b ∈ B) :
    Run B (a.putAsset name bytes) states (Function.update assets name (some bytes))
  /-- Writing, and reading into a fresh archive. -/
  | reopen {a : Archive} {states : List Json} {assets : Bytes → Option Bytes} {bytes : Bytes}
    (run : Run B a states assets) (written : a.toBytes = .ok bytes) (fits : bytes.length < sizeT) :
    Run B (fromBytes bytes {}).2 states assets

/-- What holds of an archive all its life. -/
structure Keeping (B : Set Bytes) (a : Archive) (states : List Json) (assets : Bytes → Option Bytes) :
    Prop where
  /-- It can be written. -/
  writable : Writable a
  /-- Its blocks. -/
  stored : a.blocks.stored ⊆ B
  /-- Its saves are of these states. -/
  saves : List.Forall₂ IsSaveOf a.saves states
  /-- The states. -/
  lasts : ∀ s ∈ states, Lasts B s
  /-- Their blocks are there. -/
  held : ∀ s ∈ states, HasTexts a.blocks (savedTexts s)
  /-- The recipes of the assets. -/
  recipes : ∀ name : Bytes, a.assets[name]? = (assets name).map fun b => (assetTexts b).map sha256
  /-- Their blocks are there. -/
  assetsHeld : ∀ name b, assets name = some b → HasTexts a.blocks (assetTexts b)

theorem HasTexts.putAll {blocks : BlockStore} {texts : List Bytes} (h : HasTexts blocks texts)
    (parts : List Bytes) : HasTexts (blocks.putAll parts).2 texts :=
  fun b hb => get_putAll_of_some (h b hb)

theorem plain_nil : Plain [] := ⟨by simp, rfl⟩

section

variable {B : Set Bytes} {a : Archive} {states : List Json} {assets : Bytes → Option Bytes}

theorem keeping_fresh : Keeping B {} [] fun _ => none where
  writable := by
    refine ⟨fun k b h => (by cases h), fun s hs => (by cases hs), fun name r h => ?_⟩
    rw [Std.ExtTreeMap.getElem?_empty] at h
    cases h
  stored := by
    rintro b ⟨k, h⟩
    cases h
  saves := .nil
  lasts := fun s hs => by cases hs
  held := fun s hs => by cases hs
  recipes := fun name => Std.ExtTreeMap.getElem?_empty
  assetsHeld := fun name b h => by cases h

variable (h : Keeping B a states assets)

include h

/-- More blocks of the set keep the store within it. -/
theorem Keeping.stored_putAll {parts : List Bytes} (hp : ∀ b ∈ parts, b ∈ B) :
    (a.blocks.putAll parts).2.stored ⊆ B :=
  (BlockStore.stored_putAll parts a.blocks).trans (Set.union_subset h.stored hp)

/-- Blocks of the set that are put are there. -/
theorem Keeping.holds_putAll (hB : Set.InjOn sha256 B) {parts : List Bytes} (hp : ∀ b ∈ parts, b ∈ B) :
    HasTexts (a.blocks.putAll parts).2 parts :=
  fun _ hb => get_putAll h.writable.blocks (hB.mono (Set.union_subset h.stored hp)) hb

/-- A save that is made. -/
theorem Keeping.saved (hB : Set.InjOn sha256 B) {s : Json} {version label content : Bytes}
    (hs : Lasts B s) (hl : Plain label) (hv : versionName s {} = .ok version) :
    Keeping B (a.saved s version label content) (states ++ [s]) assets where
  writable := by
    refine ⟨h.writable.blocks.putAll _, fun sv hsv => ?_, h.writable.assets⟩
    rcases List.mem_append.mp hsv with hsv | hsv
    · exact h.writable.saves sv hsv
    · obtain rfl := List.mem_singleton.mp hsv
      exact ⟨plain_versionName hv, hl, show (0 : ℤ).natAbs < 2 ^ 53 by decide, digests_map_sha256 _⟩
  stored := h.stored_putAll hs.blocks
  saves := List.rel_append h.saves (.cons ⟨rfl, hv⟩ .nil)
  lasts := fun t ht => (List.mem_append.mp ht).elim (h.lasts t) fun ht =>
    List.mem_singleton.mp ht ▸ hs
  held := by
    intro t ht
    rcases List.mem_append.mp ht with ht | ht
    · exact (h.held t ht).putAll _
    · obtain rfl := List.mem_singleton.mp ht
      exact h.holds_putAll hB hs.blocks
  recipes := h.recipes
  assetsHeld := fun name b hb => (h.assetsHeld name b hb).putAll _

theorem Keeping.save (hB : Set.InjOn sha256 B) {a' : Archive} {s : Json} {version label : Bytes}
    (hs : Lasts B s) (hl : Plain label) (hdone : a.save s label = .ok (version, a')) :
    Keeping B a' (if a'.saves.length = a.saves.length then states else states ++ [s]) assets := by
  obtain ⟨content, hv, -, rfl⟩ := save_eq_ok.mp hdone
  by_cases hlast : a.savedLast content = true
  · rw [if_pos hlast, if_pos rfl]
    exact h
  · rw [if_neg hlast, if_neg]
    · exact h.saved hB hs hl hv
    · rw [Archive.saved, List.length_append]
      simp

theorem Keeping.putAsset (hB : Set.InjOn sha256 B) {name bytes : Bytes} (hn : Plain name)
    (hb : ∀ b ∈ assetTexts bytes, b ∈ B) :
    Keeping B (a.putAsset name bytes) states (Function.update assets name (some bytes)) where
  writable := by
    refine ⟨h.writable.blocks.putAll _, h.writable.saves, fun n r hr => ?_⟩
    rw [Archive.putAsset, Std.ExtTreeMap.getElem?_insert] at hr
    split at hr
    · rename_i he
      obtain rfl := Std.LawfulEqCmp.eq_of_compare he
      cases hr
      refine ⟨hn, ?_⟩
      rw [storeBlob, putAll_fst]
      exact digests_map_sha256 _
    · exact h.writable.assets n r hr
  stored := h.stored_putAll hb
  saves := h.saves
  lasts := h.lasts
  held := fun s hs => (h.held s hs).putAll _
  recipes := by
    intro n
    rw [Archive.putAsset, Std.ExtTreeMap.getElem?_insert]
    by_cases he : name = n
    · subst he
      rw [if_pos Std.ReflCmp.compare_self, Function.update_self, storeBlob, putAll_fst]
      rfl
    · rw [if_neg (fun hc => he (Std.LawfulEqCmp.eq_of_compare hc)), Function.update_of_ne (Ne.symm he)]
      exact h.recipes n
  assetsHeld := by
    intro n b hnb
    by_cases he : n = name
    · subst he
      rw [Function.update_self] at hnb
      cases hnb
      exact h.holds_putAll hB hb
    · rw [Function.update_of_ne he] at hnb
      exact (h.assetsHeld n b hnb).putAll _

theorem Keeping.reopen {bytes : Bytes} (hw : a.toBytes = .ok bytes) (hlen : bytes.length < sizeT) :
    Keeping B (fromBytes bytes {}).2 states assets := by
  rw [h.writable.fromBytes_toBytes hw hlen]
  refine ⟨⟨h.writable.blocks, fun sv hsv => ?_, h.writable.assets⟩, h.stored, ?_, h.lasts, h.held,
    h.recipes, h.assetsHeld⟩
  · obtain ⟨s, hs, rfl⟩ := List.mem_map.mp hsv
    obtain ⟨hv, hl, ht, hr⟩ := h.writable.saves s hs
    exact ⟨hv, hl, ht, hr⟩
  · exact List.forall₂_map_left_iff.mpr (h.saves.imp fun s t hst => ⟨hst.recipe, hst.version⟩)

end

/-- **An archive keeps what it was given**, whatever was done to it. -/
theorem Run.keeping {B : Set Bytes} {a : Archive} {states : List Json} {assets : Bytes → Option Bytes}
    (run : Run B a states assets) (hB : Set.InjOn sha256 B) : Keeping B a states assets := by
  induction run with
  | fresh => exact keeping_fresh
  | save _ lasts plain done ih => exact ih.save hB lasts plain done
  | asset _ plain blocks ih => exact ih.putAsset hB plain blocks
  | reopen _ written fits ih => exact ih.reopen written fits

theorem Keeping.loadAt {B : Set Bytes} {a : Archive} {states : List Json} {assets : Bytes → Option Bytes}
    (h : Keeping B a states assets) {i : ℕ} {s : Json} (hi : states[i]? = some s) :
    ∃ d, a.loadAt i = .ok (some d) ∧ SameValue d s := by
  have hs : s ∈ states := List.mem_of_getElem? hi
  obtain ⟨hlt, hget⟩ := List.getElem?_eq_some_iff.mp hi
  have hlen := h.saves.length_eq
  have hsave : IsSaveOf a.saves[i] s := by
    have hall := h.saves.get (by omega) hlt
    rwa [List.get_eq_getElem, List.get_eq_getElem, hget] at hall
  have hl := h.lasts s hs
  refine ⟨reloaded s, ?_, sameValue_reloaded hl.core hl.once hl.lists⟩
  rw [Archive.loadAt, List.getElem?_eq_getElem (by omega)]
  exact loadManifest_eq hsave hl.core hl.once hl.storable (h.held s hs)

theorem Keeping.getAsset {B : Set Bytes} {a : Archive} {states : List Json} {assets : Bytes → Option Bytes}
    (h : Keeping B a states assets) (name : Bytes) : a.getAsset name = assets name := by
  rw [Archive.getAsset, h.recipes]
  cases hn : assets name with
  | none => rfl
  | some b =>
    rw [Option.map_some, Option.bind_some, getBlob_of_hasTexts (h.assetsHeld name b hn), assetTexts,
      flatten_chunks]

end Archive

open Archive

/-- **Every save stays loadable and unchanged**, and every asset too, whatever is saved, put, written
and read: in every life of an archive whose blocks do not collide, each save is loaded as the state
that made it, an asset is what was last put, and the archive can be written and read again. The
states have their lists, name a member once, come back from their texts and fit the fields of a
manifest. -/
theorem saves_last {B : Set Bytes} (hB : Set.InjOn sha256 B) {a : Archive} {states : List Json}
    {assets : Bytes → Option Bytes} (run : Run B a states assets) :
    a.saves.length = states.length ∧
      (∀ i s, states[i]? = some s → ∃ d, a.loadAt i = .ok (some d) ∧ SameValue d s) ∧
      (∀ name, a.getAsset name = assets name) ∧
      ∃ bytes, a.toBytes = .ok bytes ∧ (bytes.length < sizeT → (fromBytes bytes {}).1 = true) := by
  have h := run.keeping hB
  refine ⟨h.saves.length_eq, fun i s hi => h.loadAt hi, h.getAsset, _, h.writable.toBytes_eq, fun hlen => ?_⟩
  rw [h.writable.fromBytes_toBytes h.writable.toBytes_eq hlen]

/-- The state with one red mantle lasts. -/
theorem saves_last_red : ∃ version a, Archive.save {} (painted red) [] = .ok (version, a) ∧
    ∃ d, a.loadAt 0 = .ok (some d) ∧ SameValue d (painted red) := by
  obtain ⟨version, content, hversion, hcontent, -, -⟩ := exists_save_red
  have hsave : Archive.save {} (painted red) [] =
      .ok (version, Archive.saved {} (painted red) version [] content) :=
    save_eq_ok.mpr ⟨content, hversion, hcontent, rfl⟩
  have hlasts : Lasts {b | b ∈ savedTexts (painted red)} (painted red) :=
    ⟨coreState_painted _, membersOnce_painted _, hasLists_painted _, storable_red, fun _ hb => hb⟩
  have hrun := Run.save .fresh hlasts plain_nil hsave
  exact ⟨_, _, hsave, (saves_last (injOn_red.mono Set.subset_union_right) hrun).2.1 0 _ rfl⟩

/-- A state that has no mantles yet. -/
def bare : Json := .obj [(.ofLit "config", .str (.ofLit "x"))]

/-- It is loaded with a list of mantles that it does not have. -/
theorem bare_gains_mantles : ∃ version a d, CoreState bare ∧ MembersOnce bare ∧ Archive.Storable bare ∧
    (∀ m ∈ mantlesOf bare, (m.get Key.runes).isSome = true) ∧
    Set.InjOn sha256 {b | b ∈ savedTexts bare} ∧ Archive.save {} bare [] = .ok (version, a) ∧
    a.loadAt 0 = .ok (some d) ∧ ¬ SameValue d bare := by
  have hcore : CoreState bare := ⟨⟨_, rfl⟩, fun v hv => (by cases hv), fun v hv => by cases hv⟩
  have honce : MembersOnce bare := ⟨by decide, fun m hm => by cases hm⟩
  have hstorable : Archive.Storable bare :=
    ⟨by change parseText _ = _; rfl, fun m hm => (by cases hm), fun m hm => (by cases hm), by decide,
      fun m hm => (by cases hm), fun m hm => by cases hm⟩
  have hinj : Set.InjOn sha256 {b | b ∈ savedTexts bare} := by
    have hall : ∀ x ∈ savedTexts bare, ∀ y ∈ savedTexts bare, sha256 x = sha256 y → x = y := by
      decide +kernel
    exact fun x hx y hy h => hall x hx y hy h
  have hversion : versionName bare {} = .ok ((versionName bare {}).toOption.getD []) := by decide +kernel
  have hcontent : contentDigest bare (remainderOf bare) =
      .ok ((contentDigest bare (remainderOf bare)).toOption.getD []) := by decide +kernel
  have hempty : ({} : Archive).blocks.stored = ∅ :=
    Set.eq_empty_iff_forall_notMem.mpr fun b ⟨k, hb⟩ => by cases hb
  generalize (versionName bare {}).toOption.getD [] = version at hversion
  generalize (contentDigest bare (remainderOf bare)).toOption.getD [] = content at hcontent
  refine ⟨version, Archive.saved {} bare version [] content, reloaded bare, hcore, honce, hstorable,
    fun m hm => (by cases hm), hinj, save_eq_ok.mpr ⟨content, hversion, hcontent, rfl⟩, ?_, fun h => ?_⟩
  · exact loadAt_saved hversion hcore honce hstorable contentAddressed_empty
      (by rwa [hempty, Set.empty_union]) [] content
  · have hforms : HasForm (reloaded bare) ∧ HasForm bare :=
      ⟨⟨(encode (reloaded bare)).toOption.getD [], by decide +kernel⟩,
        ⟨(encode bare).toOption.getD [], by decide +kernel⟩⟩
    have hsame := (form_eq_iff hforms.1 hforms.2).mpr ((norm_eq_iff hforms.1 hforms.2).mpr h)
    revert hsame
    decide +kernel

end VoidPalabra
