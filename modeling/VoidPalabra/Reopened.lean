import VoidPalabra.CanonDoc
import VoidPalabra.Latest
import VoidPalabra.Numbers

/-!
# An archive that is written and read again

The index is decoded to its normal form, which has its members in another order; the saves and the
assets that are read from it are the ones that were written. Only the digest of a save, which the
index does not have, is lost.
-/

namespace VoidPalabra

open BlockStore

namespace Archive

/-! ### What can be written -/

/-- Text that stays whole in the index. -/
structure Plain (b : Bytes) : Prop where
  /-- It does not end early. -/
  noNul : (0 : UInt8) ∉ b
  /-- It can be encoded. -/
  utf8 : validUtf8 b = true

/-- A recipe names blocks by digests. -/
def Digests (r : List Bytes) : Prop := ∀ d ∈ r, d.length = 32

/-- A save that the index holds as it is, its digest apart. -/
structure WritableSave (s : Save) : Prop where
  /-- The name. -/
  version : Plain s.version
  /-- The label. -/
  label : Plain s.label
  /-- The time, as a double. -/
  time : s.when.natAbs < 2 ^ 53
  /-- The recipe. -/
  recipe : Digests s.recipe

/-- An archive that its file holds as it is, the digests apart. -/
structure Writable (a : Archive) : Prop where
  /-- The blocks. -/
  blocks : a.blocks.ContentAddressed
  /-- The saves. -/
  saves : ∀ s ∈ a.saves, WritableSave s
  /-- The assets. -/
  assets : ∀ (name : Bytes) r, a.assets[name]? = some r → Plain name ∧ Digests r

/-- A save as it is read. -/
def Save.asRead (s : Save) : Save := { s with content := List.replicate 32 0 }

theorem Plain.bytes_ofBytes {b : Bytes} (h : Plain b) : (CString.ofBytes b).bytes = b :=
  congrArg CString.bytes (CString.ofBytes_bytes ⟨b, h.noNul⟩)

theorem Plain.hasForm {b : Bytes} (h : Plain b) : HasForm (.str (.ofBytes b)) := by
  rw [hasForm_str, h.bytes_ofBytes]
  exact h.utf8

theorem digests_map_sha256 (parts : List Bytes) : Digests (parts.map sha256) := by
  intro d hd
  obtain ⟨b, -, rfl⟩ := List.mem_map.mp hd
  exact length_sha256 b

theorem plain_versionName {s : Json} {version : Bytes} (h : versionName s {} = .ok version) :
    Plain version := by
  obtain ⟨slice, -, h⟩ := bind_eq_ok.mp h
  cases h
  constructor
  · intro hmem
    rcases List.mem_append.mp hmem with hmem | hmem
    · exact absurd hmem (by decide)
    · exact noNul_hexBytes _ hmem
  · rw [show lit "v:" = [0x76, 0x3A] by decide, List.cons_append, List.cons_append, List.nil_append,
      validUtf8_cons (by decide), validUtf8_cons (by decide)]
    exact validUtf8_hexify (domainDigest "slice" slice ({} : SlicePolicy).tag)

/-! ### The index has a form -/

theorem hasForm_recipeToJson (r : List Bytes) : HasForm (recipeToJson r) := by
  refine hasForm_arr.mpr fun x hx => ?_
  obtain ⟨d, -, rfl⟩ := List.mem_map.mp hx
  exact hasForm_str.mpr (validUtf8_hexify d)

theorem hasForm_ofInt {n : ℤ} (h : n.natAbs < 2 ^ 53) : HasForm (.num (.ofInt n)) :=
  Double.hasForm (Double.whole?_finite (Double.whole?_ofInt h))

theorem WritableSave.hasForm {s : Save} (h : WritableSave s) : HasForm (saveToJson s) := by
  refine hasForm_obj.mpr ⟨?_, (by decide : ([.ofLit "v", .ofLit "label", .ofLit "when",
    .ofLit "chunks"] : List CString).Nodup)⟩
  simp only [List.forall_mem_cons, List.not_mem_nil, false_implies, implies_true, and_true]
  exact ⟨⟨by decide, h.version.hasForm⟩, ⟨by decide, h.label.hasForm⟩,
    ⟨by decide, hasForm_ofInt h.time⟩, ⟨by decide, hasForm_recipeToJson _⟩⟩

/-- The assets as members of the index. -/
def assetMembers (a : Archive) : List (CString × Json) :=
  a.assets.toList.map fun kv => (.ofBytes kv.1, recipeToJson kv.2)

theorem keys_nodup_toList (m : AssetMap) : (m.toList.map Prod.fst).Nodup := by
  refine List.pairwise_map.mpr (m.distinct_keys_toList.imp fun h he => h ?_)
  rw [he]
  exact Std.ReflCmp.compare_self

theorem Writable.mem_toList {a : Archive} (h : Writable a) {kv : Bytes × List Bytes}
    (hkv : kv ∈ a.assets.toList) : Plain kv.1 ∧ Digests kv.2 :=
  h.assets kv.1 kv.2 (Std.ExtTreeMap.mem_toList_iff_getElem?_eq_some.mp hkv)

theorem Writable.assetNames_nodup {a : Archive} (h : Writable a) :
    ((assetMembers a).map Prod.fst).Nodup := by
  have hnd := keys_nodup_toList a.assets
  rw [assetMembers, List.map_map]
  refine List.Nodup.map_on (fun x hx y hy hxy => ?_) (hnd.of_map Prod.fst)
  have hbytes := congrArg CString.bytes hxy
  rw [Function.comp_apply, Function.comp_apply] at hbytes
  dsimp only at hbytes
  rw [(h.mem_toList hx).1.bytes_ofBytes, (h.mem_toList hy).1.bytes_ofBytes] at hbytes
  exact List.inj_on_of_nodup_map hnd hx hy hbytes

theorem Writable.hasForm_assets {a : Archive} (h : Writable a) : HasForm (.obj (assetMembers a)) := by
  refine hasForm_obj.mpr ⟨fun m hm => ?_, h.assetNames_nodup⟩
  obtain ⟨kv, hkv, rfl⟩ := List.mem_map.mp hm
  refine ⟨?_, hasForm_recipeToJson _⟩
  rw [(h.mem_toList hkv).1.bytes_ofBytes]
  exact (h.mem_toList hkv).1.utf8

theorem Writable.hasForm_saves {a : Archive} (h : Writable a) : HasForm (.arr (a.saves.map saveToJson)) := by
  refine hasForm_arr.mpr fun x hx => ?_
  obtain ⟨s, hs, rfl⟩ := List.mem_map.mp hx
  exact (h.saves s hs).hasForm

theorem Writable.hasForm {a : Archive} (h : Writable a) : HasForm a.index := by
  refine hasForm_obj.mpr ⟨?_, (by decide : ([.ofLit "palabra_archive", .ofLit "saves",
    .ofLit "assets"] : List CString).Nodup)⟩
  simp only [List.forall_mem_cons, List.not_mem_nil, false_implies, implies_true, and_true]
  have hone : HasForm (.num Double.one) := ⟨[0x03, 0x02], by decide +kernel⟩
  exact ⟨⟨by decide +kernel, hone⟩, ⟨by decide, h.hasForm_saves⟩, ⟨by decide, h.hasForm_assets⟩⟩

theorem depth_recipeToJson (r : List Bytes) : depth (recipeToJson r) ≤ 1 := by
  rw [recipeToJson, depth, depthItems_le]
  intro x hx
  obtain ⟨d, -, rfl⟩ := List.mem_map.mp hx
  exact Nat.le_refl 1

theorem depth_index (a : Archive) : depth a.index ≤ 4 := by
  have hsave : ∀ s : Save, depth (saveToJson s) ≤ 2 := by
    intro s
    rw [saveToJson, depth, depthMembers_le]
    simp only [List.forall_mem_cons, List.not_mem_nil, false_implies, implies_true, and_true]
    have hr := depth_recipeToJson s.recipe
    exact ⟨Nat.succ_le_succ (Nat.zero_le 1), Nat.succ_le_succ (Nat.zero_le 1),
      Nat.succ_le_succ (Nat.zero_le 1), by omega⟩
  rw [index, depth, depthMembers_le]
  simp only [List.forall_mem_cons, List.not_mem_nil, false_implies, implies_true, and_true]
  refine ⟨Nat.succ_le_succ (Nat.zero_le 3), ?_, ?_⟩
  · have h : depth (.arr (a.saves.map saveToJson)) ≤ 3 := by
      rw [depth, depthItems_le]
      intro x hx
      obtain ⟨s, -, rfl⟩ := List.mem_map.mp hx
      exact Nat.succ_le_succ (hsave s)
    omega
  · have h : depth (.obj (assetMembers a)) ≤ 2 := by
      rw [depth, depthMembers_le]
      intro m hm
      obtain ⟨kv, -, rfl⟩ := List.mem_map.mp hm
      exact Nat.succ_le_succ (depth_recipeToJson _)
    exact Nat.le_succ_of_le (Nat.succ_le_succ h)

/-! ### Reading the index -/

theorem norm_recipeToJson (r : List Bytes) : norm (recipeToJson r) = recipeToJson r := by
  rw [recipeToJson, norm_arr, List.map_map]
  rfl

theorem norm_ofInt {n : ℤ} (h : n.natAbs < 2 ^ 53) : norm (.num (.ofInt n)) = .num (.ofInt n) := by
  rw [norm, Double.whole?_ofInt h]

theorem digestFromHex_hexify {d : Bytes} (h : d.length = 32) : digestFromHex (hexify d) = some d := by
  have hlen : (hexify d).bytes.length = 64 := by
    change (hexBytes d).length = 64
    rw [length_hexBytes, h]
  rw [digestFromHex, if_pos hlen]
  exact unhexStrict_hexify d

theorem recipeFromJson_recipeToJson {r : List Bytes} (h : Digests r) :
    recipeFromJson (some (recipeToJson r)) = some r := by
  change (r.map fun d => Json.str (hexify d)).mapM (fun it => it.string?.bind digestFromHex) = some r
  induction r with
  | nil => rfl
  | cons d r ih =>
    rw [List.map_cons, List.mapM_cons, ih fun e he => h e (List.mem_cons_of_mem _ he)]
    change (digestFromHex (hexify d)).bind _ = _
    rw [digestFromHex_hexify (h d List.mem_cons_self)]
    rfl

/-- **A save is read from the normal form of what was written.** -/
theorem readSave_norm {s : Save} (h : WritableSave s) : readSave (norm (saveToJson s)) = some (Save.asRead s) := by
  have hget : ∀ k, (norm (saveToJson s)).get k = ((saveToJson s).get k).map norm := fun k => get_norm h.hasForm k
  have hrecipe : ((saveToJson s).get (.ofLit "chunks")).map norm = some (recipeToJson s.recipe) :=
    congrArg some (norm_recipeToJson s.recipe)
  have htime : ((saveToJson s).get (.ofLit "when")).map norm = some (.num (.ofInt s.when)) :=
    congrArg some (norm_ofInt h.time)
  unfold readSave
  rw [hget, hget, hget, hget, hrecipe, htime, recipeFromJson_recipeToJson h.recipe]
  simp only [Option.bind_eq_bind, Option.bind_some, Double.trunc_ofInt (Nat.le_of_lt h.time)]
  have hversion : (((saveToJson s).get (.ofLit "v")).map norm).bind Json.string? = some (.ofBytes s.version) := rfl
  have hlabel : strOr (((saveToJson s).get (.ofLit "label")).map norm) .empty = .ofBytes s.label := rfl
  rw [hversion, hlabel, Option.bind_some, h.version.bytes_ofBytes, h.label.bytes_ofBytes]
  rfl

theorem undamaged_map_some {α β : Type} (f : α → β) (xs : List α) :
    undamaged (xs.map fun x => some (f x)) = true := by
  simp [undamaged]

theorem beforeDamage_map_some {α β : Type} (f : α → β) (xs : List α) :
    beforeDamage (xs.map fun x => some (f x)) = xs.map f := by
  induction xs with
  | nil => rfl
  | cons x xs ih => exact congrArg _ ih

section

variable {a : Archive} (h : Writable a)

include h

theorem Writable.get_norm (k : CString) : (norm a.index).get k = (a.index.get k).map norm :=
  VoidPalabra.get_norm h.hasForm k

theorem Writable.isIndex : isIndex (norm a.index) = true := by
  have hself : norm (.num Double.one) = .num Double.one := by
    rw [Double.one]
    exact norm_ofInt (by decide)
  have hone : (a.index.get (.ofLit "palabra_archive")).map norm = some (.num Double.one) :=
    congrArg some hself
  rw [Archive.isIndex, h.get_norm, hone]
  decide +kernel

theorem Writable.savesIn : savesIn (norm a.index) = a.saves.map fun s => some (Save.asRead s) := by
  have hitems : childValues ((norm a.index).get (.ofLit "saves")) = (a.saves.map saveToJson).map norm := by
    have hget : (a.index.get (.ofLit "saves")).map norm = some (.arr ((a.saves.map saveToJson).map norm)) :=
      congrArg some (norm_arr _)
    rw [h.get_norm, hget]
    change (((a.saves.map saveToJson).map norm).map fun x => (none, x)).map Prod.snd = _
    rw [List.map_map]
    exact List.map_id _
  rw [Archive.savesIn, hitems, List.map_map, List.map_map]
  exact List.map_congr_left fun s hs => readSave_norm (h.saves s hs)

/-- What a member of the index stands for. -/
def assetOf (m : CString × Json) : Bytes × List Bytes := (m.1.bytes, (recipeFromJson (some m.2)).getD [])

theorem Writable.readAsset {m : CString × Json} (hm : m ∈ assetMembers a) :
    readAsset (some m.1, norm m.2) = some (assetOf m) := by
  obtain ⟨kv, hkv, rfl⟩ := List.mem_map.mp hm
  rw [Archive.readAsset, assetOf]
  dsimp only
  rw [norm_recipeToJson, recipeFromJson_recipeToJson (h.mem_toList hkv).2]
  rfl

theorem Writable.assetsIn :
    assetsIn (norm a.index) = (sortMembers (assetMembers a)).map fun m => some (assetOf m) := by
  have hentries : entries (norm a.index) (.ofLit "assets") =
      (sortMembers (assetMembers a)).map fun m => (some m.1, norm m.2) := by
    have hget : (a.index.get (.ofLit "assets")).map norm =
        some (.obj ((sortMembers (assetMembers a)).map normMember)) :=
      congrArg some (norm_obj h.assetNames_nodup)
    rw [entries, h.get_norm, hget]
    change ((sortMembers (assetMembers a)).map normMember).map (fun m => (some m.1, m.2)) = _
    rw [List.map_map]
    rfl
  rw [Archive.assetsIn, hentries, List.map_map]
  exact List.map_congr_left fun m hm => h.readAsset ((sortMembers_perm _).mem_iff.mp hm)

theorem Writable.putAssets :
    putAssets ((sortMembers (assetMembers a)).map assetOf) ∅ = a.assets := by
  have hmap : (assetMembers a).map assetOf = a.assets.toList := by
    rw [assetMembers, List.map_map]
    conv_rhs => rw [← List.map_id a.assets.toList]
    refine List.map_congr_left fun kv hkv => ?_
    rw [Function.comp_apply, assetOf]
    dsimp only
    rw [(h.mem_toList hkv).1.bytes_ofBytes, recipeFromJson_recipeToJson (h.mem_toList hkv).2]
    rfl
  have hperm : ((sortMembers (assetMembers a)).map assetOf).Perm a.assets.toList :=
    hmap ▸ (sortMembers_perm _).map assetOf
  have hnd : (((sortMembers (assetMembers a)).map assetOf).map Prod.fst).Nodup :=
    (hperm.map Prod.fst).nodup_iff.mpr (keys_nodup_toList a.assets)
  refine Std.ExtTreeMap.ext_getElem? fun k => Option.ext fun r => ?_
  rw [Archive.putAssets, Sorting.getElem?_foldl_insert_eq_some hnd, hperm.mem_iff,
    Std.ExtTreeMap.mem_toList_iff_getElem?_eq_some]

/-- **An archive can be written.** -/
theorem Writable.toBytes_eq : a.toBytes = .ok (containerWrite { doc := form a.index, blocks := a.blocks }) := by
  obtain ⟨b, hb⟩ := h.hasForm
  rw [toBytes, hb, form_of_encode hb]
  rfl

/-- **What is written is read back**, the digests of the saves apart. -/
theorem Writable.fromBytes_toBytes {bytes : Bytes} (hb : a.toBytes = .ok bytes) (hlen : bytes.length < sizeT) :
    fromBytes bytes {} = (true, { a with saves := a.saves.map Save.asRead }) := by
  rw [h.toBytes_eq] at hb
  cases hb
  have hread := containerRead_write (c := { doc := form a.index, blocks := a.blocks }) h.blocks hlen
  have hdoc : decode (form a.index) = some (norm a.index) := by
    refine decode_form (decodable_of_form h.hasForm ((depth_index a).trans (by decide)) ?_)
    refine Nat.lt_of_le_of_lt ?_ hlen
    simp only [containerWrite, List.length_append]
    omega
  have hcontents : contents { doc := form a.index, blocks := a.blocks } =
      (true, { a with saves := a.saves.map Save.asRead }) := by
    simp only [contents, hdoc, h.isIndex, h.savesIn, h.assetsIn, undamaged_map_some,
      beforeDamage_map_some, h.putAssets, if_true]
  obtain ⟨hwhole, hover⟩ := fromBytes_eq (congrArg Prod.fst hread) {}
  rw [hread, hcontents] at hwhole hover
  refine Prod.ext hwhole (hover.eq_read_iff.mpr ⟨rfl, fun name hname => ?_⟩).symm
  exact absurd hname (Std.ExtTreeMap.not_mem_empty)

end

end Archive

end VoidPalabra
