import VoidPalabra.Blocks
import VoidPalabra.Decode
import VoidPalabra.Observe
import VoidPalabra.WriteFile

/-!
# An archive and its file

Saves and assets are recipes into one block store. The file is a container whose document is the
encoded index of both. The reader writes into its target while it goes through the index: what the
target had stays beside what is read (`fromBytes_eq`), and what was read before a damage stays too.
-/

namespace VoidPalabra

/-- `Save`. -/
structure Save where
  /-- The name of the cut. -/
  version : Bytes
  /-- What the user called it. -/
  label : Bytes
  /-- The wall clock, for display only. -/
  when : ℤ := 0
  /-- The chunks of the manifest. -/
  recipe : List Bytes
  /-- The address of the whole document. -/
  content : Bytes := List.replicate 32 0
  deriving DecidableEq

/-- The assets by name. -/
abbrev AssetMap := Std.ExtTreeMap Bytes (List Bytes) compare

/-- `Archive`. -/
@[ext] structure Archive where
  /-- The block store. -/
  blocks : BlockStore := ∅
  /-- The saves, oldest first. -/
  saves : List Save := []
  /-- The recipes of the assets. -/
  assets : AssetMap := ∅

namespace Archive

/-! ### Writing -/

/-- `recipe_to_json`. -/
def recipeToJson (r : List Bytes) : Json := .arr (r.map fun d => .str (hexify d))

/-- A save in the index. -/
def saveToJson (s : Save) : Json :=
  .obj [(.ofLit "v", .str (.ofBytes s.version)), (.ofLit "label", .str (.ofBytes s.label)),
    (.ofLit "when", .num (Double.ofInt s.when)), (.ofLit "chunks", recipeToJson s.recipe)]

/-- The index. -/
def index (a : Archive) : Json :=
  .obj [(.ofLit "palabra_archive", .num Double.one), (.ofLit "saves", .arr (a.saves.map saveToJson)),
    (.ofLit "assets", .obj (a.assets.toList.map fun kv => (.ofBytes kv.1, recipeToJson kv.2)))]

/-- `Archive::to_bytes`. -/
def toBytes (a : Archive) : Except CanonicalError Bytes := do
  let doc ← encode a.index
  pure (containerWrite { doc := doc, blocks := a.blocks })

/-! ### Reading -/

/-- `digest_from_hex`. -/
def digestFromHex (h : CString) : Option Bytes :=
  if h.bytes.length = 64 then unhexStrict h.bytes else none

/-- `recipe_from_json`. -/
def recipeFromJson (a : Option Json) : Option (List Bytes) :=
  match a with
  | some (.arr items) => items.mapM fun it => it.string?.bind digestFromHex
  | _ => none

/-- A save of the index; the digest of the document is not in it. -/
def readSave (it : Json) : Option Save := do
  let v ← (it.get (.ofLit "v")).bind Json.string?
  let recipe ← recipeFromJson (it.get (.ofLit "chunks"))
  pure {
    version := v.bytes
    label := (strOr (it.get (.ofLit "label")) .empty).bytes
    when := match it.get (.ofLit "when") with
      | some (.num w) => w.trunc
      | _ => 0
    recipe := recipe }

/-- An asset of the index. -/
def readAsset (it : Option CString × Json) : Option (Bytes × List Bytes) :=
  (recipeFromJson (some it.2)).map fun r => ((it.1.getD .empty).bytes, r)

/-- The loop of `from_bytes` over the saves. -/
def readSaves : List Json → Archive → Bool × Archive
  | [], out => (true, out)
  | it :: rest, out =>
    match readSave it with
    | none => (false, out)
    | some s => readSaves rest { out with saves := out.saves ++ [s] }

/-- The loop of `from_bytes` over the assets. -/
def readAssets : List (Option CString × Json) → Archive → Bool × Archive
  | [], out => (true, out)
  | it :: rest, out =>
    match readAsset it with
    | none => (false, out)
    | some kv => readAssets rest { out with assets := out.assets.insert kv.1 kv.2 }

/-- Whether the index says that it is one. -/
def isIndex (index : Json) : Bool :=
  match index.get (.ofLit "palabra_archive") with
  | some (.num d) => d.eq Double.one
  | _ => false

/-- The children of a member with their names. -/
def entries (index : Json) (k : CString) : List (Option CString × Json) :=
  match index.get k with
  | some v => v.child
  | none => []

/-- `from_bytes` once the index is decoded. -/
def readIndex (index : Json) (out : Archive) : Bool × Archive :=
  if isIndex index then
    let saves := readSaves (childValues (index.get (.ofLit "saves"))) out
    if saves.1 then readAssets (entries index (.ofLit "assets")) saves.2 else saves
  else (false, out)

/-- `Archive::from_bytes`: whether the file is an archive, and what was read into. -/
def fromBytes (bytes : Bytes) (out : Archive) : Bool × Archive :=
  let read := containerRead bytes {}
  if read.1 then
    let out := { out with blocks := read.2.blocks }
    match decode read.2.doc with
    | none => (false, out)
    | some index => readIndex index out
  else (false, out)

/-- What comes of reading a file: the system's error, or the parts that the reads returned. -/
inductive FileRead where
  /-- `fopen` fails. -/
  | cannotOpen (e : Bytes)
  /-- A read fails after these parts. -/
  | cannotRead (parts : List Bytes) (e : Bytes)
  /-- The end of the file is reached. -/
  | done (parts : List Bytes)

/-- `Archive::read_file`; its result is the text left in `error`. -/
def readFile (path : CString) (file : FileRead) (out : Archive) : Except Bytes Unit × Archive :=
  match file with
  | .cannotOpen e => (.error (describeErrno "cannot open" path e), out)
  | .cannotRead _ e => (.error (describeErrno "cannot read" path e), out)
  | .done parts =>
    let read := fromBytes parts.flatten out
    if read.1 then (.ok (), read.2)
    else (.error (lit "'" ++ path.bytes ++ lit ("' is not a valid Void Palabra archive " ++
      "(bad magic, unsupported version, truncation, or a " ++
      "block that does not match its hash)")), read.2)

/-! ### What a file holds -/

/-- The entries before the first that is damaged. -/
def beforeDamage {α : Type} : List (Option α) → List α
  | some x :: rest => x :: beforeDamage rest
  | _ => []

/-- No entry is damaged. -/
def undamaged {α : Type} (xs : List (Option α)) : Bool := xs.all Option.isSome

/-- The saves of an index. -/
def savesIn (index : Json) : List (Option Save) := (childValues (index.get (.ofLit "saves"))).map readSave

/-- The assets of an index. -/
def assetsIn (index : Json) : List (Option (Bytes × List Bytes)) :=
  (entries index (.ofLit "assets")).map readAsset

/-- Assets put into a map in turn. -/
def putAssets (xs : List (Bytes × List Bytes)) (d : AssetMap) : AssetMap :=
  xs.foldl (fun d x => d.insert x.1 x.2) d

/-- What a container holds up to the first damage of its index, and whether there is none. -/
def contents (c : Container) : Bool × Archive :=
  match decode c.doc with
  | none => (false, { blocks := c.blocks })
  | some index =>
    if isIndex index then
      if undamaged (savesIn index) then
        (undamaged (assetsIn index), {
          blocks := c.blocks
          saves := beforeDamage (savesIn index)
          assets := putAssets (beforeDamage (assetsIn index)) ∅ })
      else (false, { blocks := c.blocks, saves := beforeDamage (savesIn index) })
    else (false, { blocks := c.blocks })

/-- The archive that a byte string encodes. -/
def encoded (bytes : Bytes) : Option Archive :=
  let read := containerRead bytes {}
  if read.1 && (contents read.2).1 then some (contents read.2).2 else none

/-! ### Reading into a target -/

/-- What a target is after `a` was read into it. -/
structure ReadOver (a out out' : Archive) : Prop where
  /-- The blocks are those of the file. -/
  blocks : out'.blocks = a.blocks
  /-- The saves come after those that were there. -/
  saves : out'.saves = out.saves ++ a.saves
  /-- The assets are put among those that were there. -/
  assets : ∀ k : Bytes, out'.assets[k]? = (a.assets[k]?).or out.assets[k]?

theorem readSaves_eq (items : List Json) (out : Archive) :
    readSaves items out = (undamaged (items.map readSave),
      { out with saves := out.saves ++ beforeDamage (items.map readSave) }) := by
  induction items generalizing out with
  | nil => simp [readSaves, undamaged, beforeDamage]
  | cons it rest ih =>
    rw [readSaves]
    cases h : readSave it with
    | none => simp [undamaged, beforeDamage, h]
    | some s => simp [ih, undamaged, beforeDamage, h]

theorem readAssets_eq (items : List (Option CString × Json)) (out : Archive) :
    readAssets items out = (undamaged (items.map readAsset),
      { out with assets := putAssets (beforeDamage (items.map readAsset)) out.assets }) := by
  induction items generalizing out with
  | nil => simp [readAssets, undamaged, beforeDamage, putAssets]
  | cons it rest ih =>
    rw [readAssets]
    cases h : readAsset it with
    | none => simp [undamaged, beforeDamage, putAssets, h]
    | some kv => simp [ih, undamaged, beforeDamage, putAssets, h]

/-- What is put into a map is found before what was there. -/
theorem getElem?_putAssets (xs : List (Bytes × List Bytes)) (d : AssetMap) (k : Bytes) :
    (putAssets xs d)[k]? = ((putAssets xs ∅)[k]?).or d[k]? := by
  unfold putAssets
  rw [Sorting.getElem?_foldl_insert, Sorting.getElem?_foldl_insert, Std.ExtTreeMap.getElem?_empty,
    Option.or_none]

/-- A file that is no container leaves its target alone. -/
theorem fromBytes_unreadable {bytes : Bytes} (h : (containerRead bytes {}).1 = false) (out : Archive) :
    fromBytes bytes out = (false, out) := by
  simp [fromBytes, h]

/-- **Every other file is read over its target**, as far as its index goes. -/
theorem fromBytes_eq {bytes : Bytes} (h : (containerRead bytes {}).1 = true) (out : Archive) :
    (fromBytes bytes out).1 = (contents (containerRead bytes {}).2).1 ∧
      ReadOver (contents (containerRead bytes {}).2).2 out (fromBytes bytes out).2 := by
  rw [fromBytes]
  simp only [h, if_true]
  generalize (containerRead bytes {}).2 = c
  rw [contents]
  cases hdoc : decode c.doc with
  | none => exact ⟨rfl, rfl, by simp, by simp⟩
  | some index =>
    simp only [readIndex]
    cases hindex : isIndex index with
    | false => exact ⟨rfl, rfl, by simp, by simp⟩
    | true =>
      simp only [if_true, readSaves_eq, readAssets_eq]
      rw [← savesIn, ← assetsIn]
      cases hsaves : undamaged (savesIn index) with
      | false => exact ⟨rfl, rfl, rfl, by simp⟩
      | true => exact ⟨rfl, rfl, rfl, getElem?_putAssets _ _⟩

/-! ### All or nothing -/

/-- A result that is the whole archive, or else leaves the target as it was. -/
structure AllOrNothing (archive : Option Archive) (out : Archive) (result : Bool × Archive) : Prop where
  /-- What is accepted is the archive and nothing else. -/
  accepted : result.1 = true → archive = some result.2
  /-- What is refused changes nothing. -/
  refused : result.1 = false → result.2 = out

/-- A target into which a file is read completely or not at all. -/
def Accommodates (bytes : Bytes) (out : Archive) : Prop :=
  (containerRead bytes {}).1 = true →
    let held := contents (containerRead bytes {}).2
    if held.1 then
      -- A whole archive: the target has no save, and no asset that is not overwritten.
      out.saves = [] ∧ ∀ name ∈ out.assets, name ∈ held.2.assets
    else
      -- A damaged one: what comes before the damage is in the target already.
      out.blocks = held.2.blocks ∧ held.2.saves = [] ∧
        ∀ (name : Bytes) r, held.2.assets[name]? = some r → out.assets[name]? = some r

/-- What was read over a target is all there is exactly when the target had nothing else. -/
theorem ReadOver.eq_read_iff {a out out' : Archive} (h : ReadOver a out out') :
    a = out' ↔ out.saves = [] ∧ ∀ name ∈ out.assets, name ∈ a.assets := by
  constructor
  · rintro rfl
    refine ⟨List.self_eq_append_left.mp h.saves, fun name hname => ?_⟩
    have hk := h.assets name
    rw [← Std.ExtTreeMap.isSome_getElem?_iff_mem] at hname ⊢
    rw [hk, Option.isSome_or, hname, Bool.or_true]
  · rintro ⟨hsaves, hassets⟩
    refine Archive.ext h.blocks.symm (by rw [h.saves, hsaves, List.nil_append]) ?_
    refine Std.ExtTreeMap.ext_getElem? fun k => ?_
    rw [h.assets]
    cases hk : a.assets[k]? with
    | some r => rfl
    | none =>
      rw [Option.none_or, eq_comm]
      refine Std.ExtTreeMap.getElem?_eq_none fun hmem => ?_
      have hsome := Std.ExtTreeMap.isSome_getElem?_iff_mem.mpr (hassets k hmem)
      rw [hk] at hsome
      cases hsome

/-- It changes nothing exactly when the target had it. -/
theorem ReadOver.eq_target_iff {a out out' : Archive} (h : ReadOver a out out') :
    out' = out ↔ out.blocks = a.blocks ∧ a.saves = [] ∧
      ∀ (name : Bytes) r, a.assets[name]? = some r → out.assets[name]? = some r := by
  constructor
  · rintro rfl
    refine ⟨h.blocks, List.self_eq_append_right.mp h.saves, fun name r hr => ?_⟩
    rw [h.assets, hr, Option.some_or]
  · rintro ⟨hblocks, hsaves, hassets⟩
    refine Archive.ext (h.blocks.trans hblocks.symm) (by rw [h.saves, hsaves, List.append_nil]) ?_
    refine Std.ExtTreeMap.ext_getElem? fun k => ?_
    rw [h.assets]
    cases hk : a.assets[k]? with
    | some r => rw [hassets k r hk, Option.some_or]
    | none => rw [Option.none_or]

theorem allOrNothing_iff (bytes : Bytes) (out : Archive) :
    AllOrNothing (encoded bytes) out (fromBytes bytes out) ↔ Accommodates bytes out := by
  unfold Accommodates encoded
  cases hread : (containerRead bytes {}).1 with
  | false =>
    rw [fromBytes_unreadable hread]
    exact ⟨fun _ h => (by cases h), fun _ => ⟨fun h => (by cases h), fun _ => rfl⟩⟩
  | true =>
    obtain ⟨hwhole, hover⟩ := fromBytes_eq hread out
    simp only [hread, Bool.true_and, true_imp_iff]
    cases hheld : (contents (containerRead bytes {}).2).1 with
    | true =>
      rw [if_pos rfl, if_pos rfl, ← hover.eq_read_iff]
      refine ⟨fun h => Option.some.inj (h.accepted (hwhole.trans hheld)), fun h => ⟨fun _ => ?_, fun hf => ?_⟩⟩
      · rw [h]
      · rw [hwhole, hheld] at hf
        cases hf
    | false =>
      rw [if_neg Bool.false_ne_true, if_neg Bool.false_ne_true, ← hover.eq_target_iff]
      refine ⟨fun h => h.refused (hwhole.trans hheld), fun h => ⟨fun ht => ?_, fun _ => h⟩⟩
      rw [hwhole, hheld] at ht
      cases ht

/-- The bytes of a file that is read to its end. -/
def FileRead.content : FileRead → Option Bytes
  | .done parts => some parts.flatten
  | _ => none

/-- What `read_file` says and what it read into. -/
def fileResult (path : CString) (file : FileRead) (out : Archive) : Bool × Archive :=
  ((readFile path file out).1.isOk, (readFile path file out).2)

theorem fileResult_done (path : CString) (parts : List Bytes) (out : Archive) :
    fileResult path (.done parts) out = fromBytes parts.flatten out := by
  unfold fileResult readFile
  cases h : (fromBytes parts.flatten out).1 with
  | true =>
    simp only [h, if_true]
    exact Prod.ext h.symm rfl
  | false =>
    simp only [h, Bool.false_eq_true, if_false]
    exact Prod.ext h.symm rfl

end Archive

open Archive

/-- **An archive is read completely or not at all exactly into a target that has room for it.** For a
file that is no container that is every target. A whole archive needs a target without saves and
without an asset of another name, for it is read over what is there; a damaged one leaves behind what
was read before the damage, so that the target has to have it. -/
theorem reading_allOrNothing_iff (bytes : Bytes) (path : CString) (file : FileRead) (out : Archive) :
    (AllOrNothing (encoded bytes) out (fromBytes bytes out) ↔ Accommodates bytes out) ∧
    (AllOrNothing (file.content.bind encoded) out (fileResult path file out) ↔
      ∀ bytes ∈ file.content, Accommodates bytes out) := by
  refine ⟨allOrNothing_iff bytes out, ?_⟩
  cases file with
  | cannotOpen e => exact ⟨fun _ _ h => (by cases h), fun _ => ⟨fun h => (by cases h), fun _ => rfl⟩⟩
  | cannotRead parts e => exact ⟨fun _ _ h => (by cases h), fun _ => ⟨fun h => (by cases h), fun _ => rfl⟩⟩
  | done parts =>
    rw [fileResult_done, FileRead.content, Option.bind_some, allOrNothing_iff]
    exact ⟨fun h bytes hb => Option.some.inj hb ▸ h, fun h => h _ rfl⟩

/-- A target with one save. -/
def occupied : Archive := { saves := [{ version := lit "v:0", label := [], recipe := [] }] }

/-- The file of an empty archive is accepted into a target with a save, which stays. -/
theorem reading_appends : ∃ bytes, toBytes {} = .ok bytes ∧ (fromBytes bytes occupied).1 = true ∧
    (fromBytes bytes occupied).2.saves ≠ [] ∧ encoded bytes ≠ some (fromBytes bytes occupied).2 := by
  have hbytes : toBytes {} = .ok ((toBytes {}).toOption.getD []) := by decide +kernel
  have hkept : (fromBytes ((toBytes {}).toOption.getD []) occupied).1 = true ∧
      (fromBytes ((toBytes {}).toOption.getD []) occupied).2.saves = occupied.saves ∧
        (encoded ((toBytes {}).toOption.getD [])).map Archive.saves = some [] := by
    decide +kernel
  obtain ⟨htrue, hsaves, hnone⟩ := hkept
  have hne : (fromBytes ((toBytes {}).toOption.getD []) occupied).2.saves ≠ [] := by
    rw [hsaves]
    exact List.cons_ne_nil _ _
  refine ⟨_, hbytes, htrue, hne, fun h => hne ?_⟩
  rw [h] at hnone
  exact Option.some.inj hnone

end VoidPalabra
