import VoidPalabra.Archive
import VoidPalabra.Repeats
import VoidPalabra.Parse

/-!
# Saving and loading a document

A save stores the document in parts: what is beside the mantles as one block, every rune as one, and
a manifest that holds the mantles without their runes and names the blocks. Two digests are taken of
the document. One names the cut. The other, of the cut and of what is beside the mantles, decides
whether there is anything to save; neither looks at the text that is stored.
-/

namespace VoidPalabra

open Cursor

/-- The chunker returns with these parameters. -/
structure ChunkParams.Runs (p : ChunkParams) : Prop where
  /-- A chunk may hold something. -/
  max : 1 ≤ p.maxSize
  /-- The size aimed at fits a word. -/
  avg : p.avgSize ≤ 2 ^ 63

/-- The lengths of the chunks. -/
def chunksOf (bytes : Bytes) (p : ChunkParams) (hp : p.Runs) : List ℕ :=
  (chunk bytes p).get (Option.isSome_iff_exists.mpr (exists_chunk hp.max hp.avg bytes))

/-- `BlockStore::put_blob` with parameters for which the chunker returns. -/
def BlockStore.storeBlob (blocks : BlockStore) (bytes : Bytes) (p : ChunkParams) (hp : p.Runs) :
    List Bytes × BlockStore :=
  blocks.putAll (BlockStore.pieces bytes 0 (chunksOf bytes p hp))

theorem chunk_eq (bytes : Bytes) {p : ChunkParams} (hp : p.Runs) :
    chunk bytes p = some (chunksOf bytes p hp) :=
  (Option.some_get _).symm

theorem BlockStore.putBlob_eq (blocks : BlockStore) (bytes : Bytes) {p : ChunkParams} (hp : p.Runs) :
    blocks.putBlob bytes p = some (blocks.storeBlob bytes p hp) := by
  rw [putBlob, chunk_eq bytes hp]
  rfl

/-- `cJSON_DeleteItemFromObjectCaseSensitive` on a copy of an item. -/
def without (k : CString) : Json → Json
  | .obj ms => .obj (eraseMember k ms)
  | j => j

/-- `cJSON_AddItemToObject`; what is added to an item that is no object is not looked at again. -/
def addMember (j : Json) (k : CString) (v : Json) : Json :=
  match j with
  | .obj ms => .obj (ms ++ [(k, v)])
  | j => j

/-- `cJSON_Parse` on the `c_str()` of a text. -/
def parseText (b : Bytes) : Option Json := parseJson (CString.ofBytes b).bytes

namespace Archive

/-- `kManifestChunks`. -/
def kManifestChunks : ChunkParams := ⟨128, 512, 8192⟩

theorem runs_manifestChunks : kManifestChunks.Runs := ⟨by decide, by decide⟩

theorem runs_default : ChunkParams.Runs {} := ⟨by decide, by decide⟩

/-- `kManifestMagic`. -/
def kManifestMagic : Bytes := lit "VPST"

/-- `kManifestVersion`. -/
def kManifestVersion : ℕ := 2

/-! ### Saving -/

/-- `content_digest`. -/
def contentDigest (state rest : Json) : Except CanonicalError Bytes := do
  let slice ← canonSlice state {}
  let beside ← encode rest
  pure (sha256 (lit "voidpalabra/content" ++ 0 :: (slice ++ beside)))

/-- `put_bytes`. -/
def putText (b : Bytes) : Bytes := putU32 b.length ++ b

/-- The mantles in a manifest, and the store with their runes. -/
def writeMantles : List Json → BlockStore → Bytes × BlockStore
  | [], blocks => ([], blocks)
  | m :: rest, blocks =>
    let runes := childValues (m.get Key.runes)
    let put := blocks.putAll (runes.map printed)
    let later := writeMantles rest put.2
    (putText (printed (without Key.runes m)) ++ (putU32 runes.length ++ (put.1.flatten ++ later.1)),
      later.2)

/-- The manifest of a state, and the store with its parts. -/
def writeManifest (state : Json) (blocks : BlockStore) : Bytes × BlockStore :=
  let beside := blocks.put (printed (without Key.mantles state))
  let mantles := childValues (state.get Key.mantles)
  let written := writeMantles mantles beside.2
  (kManifestMagic ++ (putU32 kManifestVersion ++ (beside.1 ++ (putU32 mantles.length ++ written.1))),
    written.2)

/-- The document that was saved last has this digest. -/
def savedLast (a : Archive) (content : Bytes) : Bool := a.saves.getLast?.any fun s => s.content == content

/-- `Archive::save`: the name of the cut, and the archive. -/
def save (a : Archive) (state : Json) (label : Bytes) : Except CanonicalError (Bytes × Archive) := do
  let version ← versionName state {}
  let content ← contentDigest state (without Key.mantles state)
  if a.savedLast content then pure (version, a)
  else
    let manifest := writeManifest state a.blocks
    let blob := manifest.2.storeBlob manifest.1 kManifestChunks runs_manifestChunks
    pure (version, {
      blocks := blob.2
      saves := a.saves ++ [{ version := version, label := label, recipe := blob.1, content := content }]
      assets := a.assets })

/-- `Archive::put_asset`. -/
def putAsset (a : Archive) (name bytes : Bytes) : Archive :=
  let blob := a.blocks.storeBlob bytes {} runs_default
  { blocks := blob.2, saves := a.saves, assets := a.assets.insert name blob.1 }

/-- `Archive::get_asset`. -/
def getAsset (a : Archive) (name : Bytes) : Option Bytes := (a.assets[name]?).bind a.blocks.getBlob

/-! ### Loading -/

/-- The first `n` bytes, and what is left. -/
def getBytes (n : ℕ) (b : Bytes) : Option (Bytes × Bytes) :=
  if b.length < n then none else some (b.take n, b.drop n)

/-- `get_u32le`. -/
def getU32 (b : Bytes) : Option (ℕ × Bytes) := (getBytes 4 b).map fun (word, b) => (leNat word, b)

/-- `get_bytes`. -/
def getText (b : Bytes) : Option (Bytes × Bytes) := do
  let (n, b) ← getU32 b
  getBytes n b

/-- A rune of a manifest. -/
def readRune (blocks : BlockStore) (b : Bytes) : Option (Json × Bytes) := do
  let (key, b) ← getBytes 32 b
  let text ← blocks.get key
  let rune ← parseText text
  pure (rune, b)

/-- A mantle of a manifest. -/
def readMantle (blocks : BlockStore) (b : Bytes) : Option (Json × Bytes) := do
  let (text, b) ← getText b
  let mantle ← parseText text
  let (n, b) ← getU32 b
  let (runes, b) ← readMany (readRune blocks) n b
  pure (addMember mantle Key.runes (.arr runes), b)

/-- A manifest up to the check of the version. -/
def readManifest (blocks : BlockStore) (manifest : Bytes) : Option Json := do
  let (magic, b) ← getBytes 4 manifest
  if magic ≠ kManifestMagic then none
  else
    let (version, b) ← getU32 b
    if version ≠ kManifestVersion then none
    else
      let (key, b) ← getBytes 32 b
      let text ← blocks.get key
      let beside ← parseText text
      if !beside.isObject then none
      else
        let (n, b) ← getU32 b
        let (mantles, b) ← readMany (readMantle blocks) n b
        if b ≠ [] then none
        else pure (addMember (without Key.mantles beside) Key.mantles (.arr mantles))

/-- `Archive::load_manifest`: a document that is not named as the save is refused. -/
def loadManifest (a : Archive) (s : Save) : Except CanonicalError (Option Json) :=
  match (a.blocks.getBlob s.recipe).bind (readManifest a.blocks) with
  | none => .ok none
  | some parsed => do
    let version ← versionName parsed {}
    pure (if version = s.version then some parsed else none)

/-- `Archive::load_at`. -/
def loadAt (a : Archive) (index : ℕ) : Except CanonicalError (Option Json) :=
  match a.saves[index]? with
  | none => .ok none
  | some s => a.loadManifest s

/-- `Archive::load_latest`. -/
def loadLatest (a : Archive) : Except CanonicalError (Option Json) :=
  if a.saves.isEmpty then .ok none else a.loadAt (a.saves.length - 1)

/-- `Archive::load`: the most recent save of that name. -/
def load (a : Archive) (version : Bytes) : Except CanonicalError (Option Json) :=
  match a.saves.reverse.find? fun s => s.version == version with
  | none => .ok none
  | some s => a.loadManifest s

end Archive

end VoidPalabra
