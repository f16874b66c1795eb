import VoidPalabra.Manifest
import VoidPalabra.Versions

/-!
# What a save puts into the store and what is loaded from it

The manifest of a state does not depend on the store, and every block of a save is one of a list of
texts. Where the store holds these texts the state is loaded, its mantles and their runes behind the
other members of the objects that hold them.
-/

namespace VoidPalabra

open Cursor BlockStore

namespace Archive

/-! ### What is put -/

/-- The mantles of a state. -/
def mantlesOf (s : Json) : List Json := childValues (s.get Key.mantles)

/-- The runes of a mantle. -/
def runesOf (m : Json) : List Json := childValues (m.get Key.runes)

/-- A mantle without its runes. -/
def shellOf (m : Json) : Json := without Key.runes m

/-- A state without its mantles. -/
def remainderOf (s : Json) : Json := without Key.mantles s

/-- A mantle in a manifest. -/
def mantleText (m : Json) : Bytes :=
  putText (printed (shellOf m)) ++
    (putU32 (runesOf m).length ++ (runesOf m).flatMap fun r => sha256 (printed r))

/-- The manifest of a state. -/
def manifestText (s : Json) : Bytes :=
  kManifestMagic ++ (putU32 kManifestVersion ++ (sha256 (printed (remainderOf s)) ++
    (putU32 (mantlesOf s).length ++ (mantlesOf s).flatMap mantleText)))

/-- The texts of the runes. -/
def runeTexts (ms : List Json) : List Bytes := ms.flatMap fun m => (runesOf m).map printed

/-- The blocks of a save. -/
def savedTexts (s : Json) : List Bytes :=
  (printed (remainderOf s) :: runeTexts (mantlesOf s)) ++
    pieces (manifestText s) 0 (chunksOf (manifestText s) kManifestChunks runs_manifestChunks)

theorem writeMantles_eq (ms : List Json) (blocks : BlockStore) :
    writeMantles ms blocks = (ms.flatMap mantleText, (blocks.putAll (runeTexts ms)).2) := by
  induction ms generalizing blocks with
  | nil => rfl
  | cons m rest ih =>
    rw [writeMantles]
    simp only [ih, putAll_fst, runeTexts, List.flatMap_cons, putAll_append]
    refine Prod.ext ?_ rfl
    simp only [mantleText, shellOf, runesOf, List.append_assoc, List.map_map]
    rw [← List.flatMap_def]
    rfl

theorem writeManifest_eq (s : Json) (blocks : BlockStore) :
    writeManifest s blocks = (manifestText s,
      (blocks.putAll (printed (remainderOf s) :: runeTexts (mantlesOf s))).2) := by
  unfold writeManifest
  simp only [writeMantles_eq]
  rfl

/-- The recipe of a save. -/
def recipeOf (s : Json) : List Bytes :=
  (pieces (manifestText s) 0 (chunksOf (manifestText s) kManifestChunks runs_manifestChunks)).map sha256

/-- The archive with one more save. -/
def saved (a : Archive) (s : Json) (version label content : Bytes) : Archive where
  blocks := (a.blocks.putAll (savedTexts s)).2
  saves := a.saves ++ [{ version := version, label := label, recipe := recipeOf s, content := content }]
  assets := a.assets

theorem storeManifest_eq (a : Archive) (s : Json) (version label content : Bytes) :
    (let manifest := writeManifest s a.blocks
    let blob := manifest.2.storeBlob manifest.1 kManifestChunks runs_manifestChunks
    Archive.mk blob.2 (a.saves ++ [Save.mk version label 0 blob.1 content]) a.assets) =
      a.saved s version label content := by
  simp only [writeManifest_eq, storeBlob, putAll_fst, ← putAll_append]
  rfl

/-- **What a save does.** -/
theorem save_eq_ok {a a' : Archive} {s : Json} {label version : Bytes} :
    a.save s label = .ok (version, a') ↔ ∃ content, versionName s {} = .ok version ∧
      contentDigest s (remainderOf s) = .ok content ∧
        a' = if a.savedLast content then a else a.saved s version label content := by
  unfold save
  rw [bind_eq_ok]
  constructor
  · rintro ⟨v, hv, h⟩
    obtain ⟨content, hcontent, h⟩ := bind_eq_ok.mp h
    split at h
    · rename_i hlast
      cases h
      exact ⟨content, hv, hcontent, by rw [if_pos hlast]⟩
    · rename_i hlast
      cases h
      exact ⟨content, hv, hcontent, by rw [if_neg hlast]; exact storeManifest_eq a s version label content⟩
  · rintro ⟨content, hv, hcontent, rfl⟩
    refine ⟨version, hv, bind_eq_ok.mpr ⟨content, hcontent, ?_⟩⟩
    split
    · rfl
    · exact congrArg (fun x => Except.ok (version, x)) (storeManifest_eq a s version label content)

theorem versionName_of_contentDigest {s rest : Json} {content : Bytes}
    (h : contentDigest s rest = .ok content) : ∃ version, versionName s {} = .ok version := by
  obtain ⟨slice, hslice, -⟩ := bind_eq_ok.mp h
  exact ⟨_, bind_eq_ok.mpr ⟨slice, hslice, rfl⟩⟩

/-! ### What is read -/

/-- A value that comes back from its text. -/
def Rereads (j : Json) : Prop := parseText (printed j) = some j

/-- A state whose parts come back from their texts, with counts and lengths that fit their fields. -/
structure Storable (s : Json) : Prop where
  /-- What is beside the mantles. -/
  beside : Rereads (remainderOf s)
  /-- The mantles without their runes. -/
  shells : ∀ m ∈ mantlesOf s, Rereads (shellOf m)
  /-- The runes. -/
  runes : ∀ m ∈ mantlesOf s, ∀ r ∈ runesOf m, Rereads r
  /-- The number of mantles. -/
  mantleCount : (mantlesOf s).length < 2 ^ 32
  /-- The number of runes of a mantle. -/
  runeCount : ∀ m ∈ mantlesOf s, (runesOf m).length < 2 ^ 32
  /-- The text of a mantle without its runes. -/
  shellLength : ∀ m ∈ mantlesOf s, (printed (shellOf m)).length < 2 ^ 32

/-- A mantle as it is loaded. -/
def reloadedMantle (m : Json) : Json := addMember (shellOf m) Key.runes (.arr (runesOf m))

/-- A state as it is loaded. -/
def reloaded (s : Json) : Json :=
  addMember (without Key.mantles (remainderOf s)) Key.mantles (.arr ((mantlesOf s).map reloadedMantle))

/-- A store that has these texts, each under its hash. -/
def HasTexts (blocks : BlockStore) (texts : List Bytes) : Prop :=
  ∀ b ∈ texts, blocks.get (sha256 b) = some b

theorem getBytes_append {b : Bytes} {n : ℕ} (h : b.length = n) (rest : Bytes) :
    getBytes n (b ++ rest) = some (b, rest) := by
  unfold getBytes
  rw [if_neg (by rw [List.length_append]; omega), List.take_left' h, List.drop_left' h]

theorem getU32_putU32 {n : ℕ} (h : n < 2 ^ 32) (rest : Bytes) :
    getU32 (putU32 n ++ rest) = some (n, rest) := by
  unfold getU32 putU32
  rw [getBytes_append (length_leBytes 4 n), Option.map_some]
  dsimp only
  rw [leNat_leBytes, Nat.mod_eq_of_lt (h.trans_eq (by norm_num))]

theorem getText_putText {b : Bytes} (h : b.length < 2 ^ 32) (rest : Bytes) :
    getText (putText b ++ rest) = some (b, rest) := by
  unfold getText putText
  rw [List.append_assoc, getU32_putU32 h]
  exact getBytes_append rfl rest

section

variable {blocks : BlockStore} {s : Json}

theorem readRune_eq {r : Json} (h : Rereads r) (hb : blocks.get (sha256 (printed r)) = some (printed r))
    (rest : Bytes) : readRune blocks (sha256 (printed r) ++ rest) = some (r, rest) := by
  unfold readRune
  rw [getBytes_append (length_sha256 _)]
  simp only [Option.bind_eq_bind, Option.bind_some, hb, show parseText (printed r) = some r from h]
  rfl

theorem readMantle_eq {m : Json} (hs : Storable s) (hm : m ∈ mantlesOf s)
    (hb : HasTexts blocks ((runesOf m).map printed)) (rest : Bytes) :
    readMantle blocks (mantleText m ++ rest) = some (reloadedMantle m, rest) := by
  have hrunes : ∀ rest, readMany (readRune blocks) (runesOf m).length
      ((runesOf m).flatMap (fun r => sha256 (printed r)) ++ rest) = some (runesOf m, rest) := by
    intro rest
    have h := @readMany_eq Json Json (readRune blocks) (fun r => sha256 (printed r)) id (runesOf m) rest
      fun r hr => readRune_eq (hs.runes m hm r hr) (hb _ (List.mem_map_of_mem hr))
    rwa [List.map_id] at h
  unfold readMantle mantleText
  rw [List.append_assoc, List.append_assoc, getText_putText (hs.shellLength m hm)]
  simp only [Option.bind_eq_bind, Option.bind_some,
    show parseText (printed (shellOf m)) = some (shellOf m) from hs.shells m hm]
  rw [getU32_putU32 (hs.runeCount m hm)]
  simp only [Option.bind_some, hrunes]
  rfl

/-- **A manifest is read back** where the store holds the parts of the state. -/
theorem readManifest_eq (hobj : (remainderOf s).isObject = true) (hs : Storable s)
    (hb : HasTexts blocks (printed (remainderOf s) :: runeTexts (mantlesOf s))) :
    readManifest blocks (manifestText s) = some (reloaded s) := by
  have hmantles : readMany (readMantle blocks) (mantlesOf s).length
      ((mantlesOf s).flatMap mantleText ++ []) = some ((mantlesOf s).map reloadedMantle, []) :=
    readMany_eq [] fun m hm => readMantle_eq hs hm fun b hbm =>
      hb b (List.mem_cons_of_mem _ (List.mem_flatMap.mpr ⟨m, hm, hbm⟩))
  rw [List.append_nil] at hmantles
  unfold readManifest manifestText
  rw [getBytes_append (show kManifestMagic.length = 4 from rfl)]
  simp only [Option.bind_eq_bind, Option.bind_some, ne_eq, not_true_eq_false, if_false]
  rw [getU32_putU32 (by decide)]
  simp only [Option.bind_some, not_true_eq_false, if_false]
  rw [getBytes_append (length_sha256 _)]
  simp only [Option.bind_some, hb _ List.mem_cons_self, hobj, Bool.not_true, Bool.false_eq_true, if_false,
    show parseText (printed (remainderOf s)) = some (remainderOf s) from hs.beside]
  rw [getU32_putU32 hs.mantleCount]
  simp only [Option.bind_some, hmantles, not_true_eq_false, if_false]
  rfl

end

/-! ### The name of what is read -/

/-- The state and its mantles name their members once. -/
structure MembersOnce (s : Json) : Prop where
  /-- The state. -/
  state : (s.members.map Prod.fst).Nodup
  /-- Its mantles. -/
  mantles : ∀ m ∈ mantlesOf s, (m.members.map Prod.fst).Nodup

/-- What an object holds when a member was taken out of it and another one added. -/
theorem get_addMember_without {j : Json} (hobj : j.isObject = true) (hd : (j.members.map Prod.fst).Nodup)
    (k l : CString) (v : Json) :
    (addMember (without k j) k v).get l = if l = k then some v else j.get l := by
  cases j with
  | obj ms => exact lookup_replaced hd k l v
  | null => cases hobj
  | bool _ => cases hobj
  | num _ => cases hobj
  | str _ => cases hobj
  | arr _ => cases hobj

/-- Nothing is left to take out. -/
theorem without_without {j : Json} (hd : (j.members.map Prod.fst).Nodup) (k : CString) :
    without k (without k j) = without k j := by
  have herase : ∀ {ms : List (CString × Json)}, k ∉ ms.map Prod.fst → eraseMember k ms = ms := by
    intro ms
    induction ms with
    | nil => exact fun _ => rfl
    | cons m rest ih =>
      intro h
      rw [List.map_cons, List.mem_cons, not_or] at h
      rw [eraseMember, if_neg (Ne.symm h.1), ih h.2]
  cases j with
  | obj ms =>
    rw [Json.members_obj] at hd
    refine congrArg Json.obj (herase ?_)
    rw [← Json.lookup_eq_none_iff, lookup_eraseMember hd, if_pos rfl]
  | null => rfl
  | bool _ => rfl
  | num _ => rfl
  | str _ => rfl
  | arr _ => rfl

theorem reloaded_eq {s : Json} (h : MembersOnce s) : reloaded s =
    addMember (without Key.mantles s) Key.mantles (.arr ((mantlesOf s).map reloadedMantle)) := by
  rw [reloaded, remainderOf, without_without h.state]

/-- A canonical form looks at seven members of a mantle. -/
theorem canonMantle_congr {policy : SlicePolicy} {m n : Json}
    (h : ∀ k ∈ [Key.id, Key.name, Key.domain, Key.tags, Key.layout, Key.rules], m.get k = n.get k)
    (hr : arrayItems (m.get Key.runes) = arrayItems (n.get Key.runes)) :
    canonMantle policy m = canonMantle policy n := by
  simp only [List.forall_mem_cons, List.not_mem_nil, false_implies, implies_true, and_true] at h
  obtain ⟨h1, h2, h3, h4, h5, h6⟩ := h
  unfold canonMantle
  rw [h1, h2, h3, h4, h5, h6, hr]

/-- The children of a member that is a list when it is there are its items. -/
theorem childValues_eq_arrayItems {P : Json → Prop} {n : Option Json} (h : ListField P n) :
    childValues n = arrayItems n := by
  cases n with
  | none => rfl
  | some v =>
    obtain ⟨xs, rfl, -⟩ := h v rfl
    change (xs.map fun x => (none, x)).map Prod.snd = xs
    rw [List.map_map]
    exact List.map_id xs

theorem isObject_of_core {m : Json} (h : CoreMantle m) : m.isObject = true := by
  obtain ⟨ms, rfl⟩ := h.object
  rfl

theorem get_reloadedMantle {m : Json} (h : CoreMantle m) (hd : (m.members.map Prod.fst).Nodup)
    (k : CString) :
    (reloadedMantle m).get k = if k = Key.runes then some (.arr (runesOf m)) else m.get k :=
  get_addMember_without (isObject_of_core h) hd Key.runes k _

theorem canonMantle_reloaded {policy : SlicePolicy} {m : Json} (h : CoreMantle m)
    (hd : (m.members.map Prod.fst).Nodup) :
    canonMantle policy (reloadedMantle m) = canonMantle policy m := by
  refine canonMantle_congr (fun k hk => ?_) ?_
  · rw [get_reloadedMantle h hd, if_neg]
    rintro rfl
    revert hk
    decide
  · rw [get_reloadedMantle h hd, if_pos rfl]
    exact childValues_eq_arrayItems h.runes

theorem isObject_of_coreState {s : Json} (h : CoreState s) : s.isObject = true := by
  obtain ⟨ms, rfl⟩ := h.object
  rfl

theorem get_reloaded {s : Json} (h : CoreState s) (hd : MembersOnce s) (k : CString) :
    (reloaded s).get k =
      if k = Key.mantles then some (.arr ((mantlesOf s).map reloadedMantle)) else s.get k := by
  rw [reloaded_eq hd]
  exact get_addMember_without (isObject_of_coreState h) hd.state Key.mantles k _

theorem coreMantle_of_mem {s m : Json} (h : CoreState s) (hm : m ∈ mantlesOf s) : CoreMantle m := by
  rw [mantlesOf, childValues_eq_arrayItems h.mantles] at hm
  exact h.mantles.mem hm

/-- **What is loaded has the name of what was saved.** -/
theorem canonSlice_reloaded {policy : SlicePolicy} {s : Json} (h : CoreState s) (hd : MembersOnce s) :
    canonSlice (reloaded s) policy = canonSlice s policy := by
  have hitems : arrayItems ((reloaded s).get Key.mantles) = (mantlesOf s).map reloadedMantle := by
    rw [get_reloaded h hd, if_pos rfl]
    rfl
  have hmantles : arrayItems (s.get Key.mantles) = mantlesOf s :=
    (childValues_eq_arrayItems h.mantles).symm
  have hnames : ((mantlesOf s).map reloadedMantle).map (fun m => (strOr (m.get Key.name) .empty).bytes) =
      (mantlesOf s).map fun m => (strOr (m.get Key.name) .empty).bytes := by
    rw [List.map_map]
    refine List.map_congr_left fun m hm => ?_
    rw [Function.comp_apply, get_reloadedMantle (coreMantle_of_mem h hm) (hd.mantles m hm),
      if_neg (by decide)]
  have hglyphs : canonGlyphs (reloaded s) = canonGlyphs s := by
    rw [canonGlyphs, canonGlyphs, get_reloaded h hd, if_neg (by decide)]
  have hforms : encodeEach (canonMantle policy) ((mantlesOf s).map reloadedMantle) =
      encodeEach (canonMantle policy) (mantlesOf s) := by
    refine encodeEach_congr ?_
    rw [List.map_map]
    exact List.map_congr_left fun m hm =>
      canonMantle_reloaded (coreMantle_of_mem h hm) (hd.mantles m hm)
  unfold canonSlice
  simp only [hitems, hmantles, hnames, hglyphs, hforms]

theorem versionName_reloaded {s : Json} (h : CoreState s) (hd : MembersOnce s) :
    versionName (reloaded s) {} = versionName s {} := by
  rw [versionName, versionName, canonSlice_reloaded h hd]

/-! ### Loading a save -/

/-- The chunks are all of the bytes. -/
theorem flatten_chunks (bytes : Bytes) {p : ChunkParams} (hp : p.Runs) :
    (pieces bytes 0 (chunksOf bytes p hp)).flatten = bytes := by
  obtain ⟨_, _, -, -, hcuts⟩ := cuts_of_chunk (chunk_eq bytes hp)
  rw [flatten_pieces (by rw [hcuts.sum (Nat.zero_le _)]), List.drop_zero]

theorem getBlob_of_hasTexts {blocks : BlockStore} {parts : List Bytes} (h : HasTexts blocks parts) :
    blocks.getBlob (parts.map sha256) = some parts.flatten := by
  induction parts with
  | nil => rfl
  | cons b rest ih =>
    rw [List.map_cons, getBlob, h b List.mem_cons_self, ih fun c hc => h c (List.mem_cons_of_mem _ hc)]
    rfl

/-- A save of a state: its recipe and its name are those of the state. -/
structure IsSaveOf (sv : Save) (s : Json) : Prop where
  /-- The recipe. -/
  recipe : sv.recipe = recipeOf s
  /-- The name of the cut. -/
  version : versionName s {} = .ok sv.version

/-- **A save is loaded** from every store that holds its blocks. -/
theorem loadManifest_eq {a : Archive} {sv : Save} {s : Json} (hsv : IsSaveOf sv s) (h : CoreState s)
    (hd : MembersOnce s) (hs : Storable s) (hb : HasTexts a.blocks (savedTexts s)) :
    a.loadManifest sv = .ok (some (reloaded s)) := by
  have hblob : a.blocks.getBlob sv.recipe = some (manifestText s) := by
    rw [hsv.recipe, recipeOf, getBlob_of_hasTexts fun b hbm => hb b (List.mem_append_right _ hbm),
      flatten_chunks]
  have hobj : (remainderOf s).isObject = true := by
    obtain ⟨ms, rfl⟩ := h.object
    rfl
  have hread : readManifest a.blocks (manifestText s) = some (reloaded s) :=
    readManifest_eq hobj hs fun b hbm => hb b (List.mem_append_left _ hbm)
  unfold loadManifest
  simp only [hblob, Option.bind_some, hread, versionName_reloaded h hd, hsv.version]
  exact congrArg Except.ok (if_pos rfl)

end Archive

end VoidPalabra
