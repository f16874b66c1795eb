import VoidPalabra.Base64
import VoidPalabra.Lasting

/-!
# Importing a bundle

A bundle is one JSON text with a state and its assets in base 64. The state is saved before the assets
are looked at, one after the other, so that a damaged one is found when the archive has changed
already. The decoder passes over signs that fill up a group wherever they stand, and drops what is left
of the last group.
-/

namespace VoidPalabra

open BlockStore

/-! ### The decoder -/

/-- The loop of `base64_decode` with its two counters; what it pushes from there on. -/
def base64Loop : Bytes → ℕ → ℤ → Option Bytes
  | [], _, _ => some []
  | c :: rest, val, bits =>
    if c = 0x3D ∨ c = 0x0A ∨ c = 0x0D then base64Loop rest val bits
    else
      match Base64.alphabet.idxOf? c with
      | none => none
      | some pos =>
        let val := (val * 2 ^ 6 + pos) % 2 ^ 32
        let bits := bits + 6
        if 0 ≤ bits then
          (base64Loop rest val (bits - 8)).map fun out => (val / 2 ^ bits.toNat % 256).toUInt8 :: out
        else base64Loop rest val bits

/-- `base64_decode`. -/
def base64Decode (b : Bytes) : Option Bytes := base64Loop b 0 (-8)

/-- A text that is the encoding of some bytes, in lines or not. -/
def IsBase64 (text bytes : Bytes) : Prop :=
  (text.filter fun c => c ≠ 0x0A ∧ c ≠ 0x0D) = Base64.encode bytes

/-- What is passed over has no effect. -/
theorem base64Loop_filter (b : Bytes) (val : ℕ) (bits : ℤ) :
    base64Loop (b.filter fun c => c ≠ 0x0A ∧ c ≠ 0x0D) val bits = base64Loop b val bits := by
  induction b generalizing val bits with
  | nil => rfl
  | cons c rest ih =>
    by_cases hc : c ≠ 0x0A ∧ c ≠ 0x0D
    · rw [List.filter_cons_of_pos (by simpa using hc), base64Loop, base64Loop]
      simp only [ih]
    · rw [List.filter_cons_of_neg (by simpa using hc), ih, base64Loop, if_pos]
      by_cases hlf : c = 0x0A
      · exact .inr (.inl hlf)
      · exact .inr (.inr (not_ne_iff.mp fun h => hc ⟨hlf, h⟩))

theorem base64Loop_pad (rest : Bytes) (val : ℕ) (bits : ℤ) :
    base64Loop (Base64.pad :: rest) val bits = base64Loop rest val bits := by
  rw [base64Loop, if_pos (.inl rfl)]

/-- One digit. -/
theorem base64Loop_digit {n : ℕ} (h : n < 64) (rest : Bytes) (val : ℕ) (bits : ℤ) :
    base64Loop (Base64.digit n :: rest) val bits =
      if 0 ≤ bits + 6 then
        (base64Loop rest ((val * 64 + n) % 2 ^ 32) (bits + 6 - 8)).map fun out =>
          ((val * 64 + n) % 2 ^ 32 / 2 ^ (bits + 6).toNat % 256).toUInt8 :: out
      else base64Loop rest ((val * 64 + n) % 2 ^ 32) (bits + 6) := by
  obtain ⟨hpad, hlf, hcr⟩ := Base64.digit_ne h
  rw [base64Loop, if_neg (by rintro (h | h | h); exacts [hpad h, hlf h, hcr h]), Base64.idxOf_digit h]
  dsimp only
  rw [show (2 : ℕ) ^ 6 = 64 from rfl]

section

variable {n : ℕ} (h : n < 64) (rest : Bytes) (val : ℕ)

include h

/-- The first digit of a group completes no byte, -/
theorem base64Loop_first :
    base64Loop (Base64.digit n :: rest) val (-8) = base64Loop rest ((val * 64 + n) % 2 ^ 32) (-2) := by
  rw [base64Loop_digit h]
  rfl

/-- the second one the first byte, -/
theorem base64Loop_second :
    base64Loop (Base64.digit n :: rest) val (-2) = (base64Loop rest ((val * 64 + n) % 2 ^ 32) (-4)).map fun out =>
      ((val * 64 + n) % 2 ^ 32 / 16 % 256).toUInt8 :: out := by
  rw [base64Loop_digit h]
  rfl

/-- the third one the second, -/
theorem base64Loop_third :
    base64Loop (Base64.digit n :: rest) val (-4) = (base64Loop rest ((val * 64 + n) % 2 ^ 32) (-6)).map fun out =>
      ((val * 64 + n) % 2 ^ 32 / 4 % 256).toUInt8 :: out := by
  rw [base64Loop_digit h]
  rfl

/-- and the fourth one the third. -/
theorem base64Loop_fourth :
    base64Loop (Base64.digit n :: rest) val (-6) = (base64Loop rest ((val * 64 + n) % 2 ^ 32) (-8)).map fun out =>
      ((val * 64 + n) % 2 ^ 32 / 1 % 256).toUInt8 :: out := by
  rw [base64Loop_digit h]
  rfl

end

theorem toUInt8_of_mod {n : ℕ} {c : UInt8} (h : n % 256 = c.toNat) : (n % 256).toUInt8 = c := by
  rw [h]
  exact UInt8.ofNat_toNat

/-- **What is encoded is decoded.** -/
theorem base64Loop_encode (bytes : Bytes) (val : ℕ) :
    base64Loop (Base64.encode bytes) val (-8) = some bytes := by
  induction bytes using Base64.encode.induct generalizing val with
  | case1 => rfl
  | case2 a =>
    have ha := a.toNat_lt
    rw [Base64.encode, base64Loop_first (by omega), base64Loop_second (by omega), base64Loop_pad,
      base64Loop_pad, toUInt8_of_mod (c := a) (by omega)]
    rfl
  | case3 a b =>
    have ha := a.toNat_lt
    have hb := b.toNat_lt
    rw [Base64.encode, base64Loop_first (by omega), base64Loop_second (by omega),
      base64Loop_third (by omega), base64Loop_pad, toUInt8_of_mod (c := a) (by omega),
      toUInt8_of_mod (c := b) (by omega)]
    rfl
  | case4 a b c rest ih =>
    have ha := a.toNat_lt
    have hb := b.toNat_lt
    have hc := c.toNat_lt
    rw [Base64.encode, base64Loop_first (by omega), base64Loop_second (by omega),
      base64Loop_third (by omega), base64Loop_fourth (by omega), ih, toUInt8_of_mod (c := a) (by omega),
      toUInt8_of_mod (c := b) (by omega), toUInt8_of_mod (c := c) (by omega)]
    rfl

theorem base64Decode_of_isBase64 {text bytes : Bytes} (h : IsBase64 text bytes) :
    base64Decode text = some bytes := by
  rw [base64Decode, ← base64Loop_filter, h, base64Loop_encode]

namespace Archive

/-! ### The import -/

/-- What an import takes from a bundle. -/
structure Bundle where
  /-- The state. -/
  state : Json
  /-- The assets by name. -/
  assets : List (CString × Json)

/-- A bundle of the version that is imported. -/
def bundleOf (text : Bytes) : Option Bundle := do
  let root ← parseText text
  let magic ← (root.get (.ofLit "magic")).bind Json.string?
  let state ← root.get (.ofLit "state")
  let current := match root.get (.ofLit "version") with
    | some (.num d) => d.eq (.ofInt 3)
    | _ => false
  if magic = .ofLit "MIGA" ∧ current = true then
    some ⟨state, childMembers (root.get (.ofLit "assets"))⟩
  else none

/-- The loop of `import_miga`; what is no string is passed over. -/
def importAssets : List (CString × Json) → Archive → Bool × Archive
  | [], out => (true, out)
  | (name, v) :: rest, out =>
    match v.string? with
    | none => importAssets rest out
    | some text =>
      match base64Decode text.bytes with
      | none => (false, out)
      | some raw => importAssets rest (out.putAsset name.bytes raw)

/-- `import_miga`: whether the bundle was imported, and what became of the archive. -/
def importMiga (text label : Bytes) (out : Archive) : Except CanonicalError (Bool × Archive) :=
  match bundleOf text with
  | none => .ok (false, out)
  | some bundle => do
    let saved ← out.save bundle.state label
    pure (importAssets bundle.assets saved.2)

/-! ### What stays when blocks are added -/

/-- Every block of one store is in another one. -/
def Within (blocks blocks' : BlockStore) : Prop := ∀ k b, blocks.get k = some b → blocks'.get k = some b

section

variable {blocks blocks' : BlockStore} (h : Within blocks blocks')

include h

theorem readRune_mono {b : Bytes} {x : Json × Bytes} (hx : readRune blocks b = some x) :
    readRune blocks' b = some x := by
  simp only [readRune, Option.bind_eq_bind, Option.bind_eq_some_iff] at hx ⊢
  obtain ⟨key, hkey, text, htext, hx⟩ := hx
  exact ⟨key, hkey, text, h _ _ htext, hx⟩

theorem readMantle_mono {b : Bytes} {x : Json × Bytes} (hx : readMantle blocks b = some x) :
    readMantle blocks' b = some x := by
  simp only [readMantle, Option.bind_eq_bind, Option.bind_eq_some_iff] at hx ⊢
  obtain ⟨text, htext, mantle, hmantle, n, hn, runes, hruns, hx⟩ := hx
  exact ⟨text, htext, mantle, hmantle, n, hn, runes, readMany_mono (fun _ _ => readRune_mono h) hruns, hx⟩

theorem readManifest_mono {manifest : Bytes} {d : Json} (hd : readManifest blocks manifest = some d) :
    readManifest blocks' manifest = some d := by
  simp only [readManifest, Option.bind_eq_bind, Option.bind_eq_some_iff] at hd ⊢
  obtain ⟨magic, hmagic, hd⟩ := hd
  refine ⟨magic, hmagic, ?_⟩
  split at hd
  · cases hd
  rename_i hne
  rw [if_neg hne]
  simp only [Option.bind_eq_some_iff] at hd ⊢
  obtain ⟨version, hversion, hd⟩ := hd
  refine ⟨version, hversion, ?_⟩
  split at hd
  · cases hd
  rename_i hne
  rw [if_neg hne]
  simp only [Option.bind_eq_some_iff] at hd ⊢
  obtain ⟨key, hkey, text, htext, beside, hbeside, hd⟩ := hd
  refine ⟨key, hkey, text, h _ _ htext, beside, hbeside, ?_⟩
  split at hd
  · cases hd
  rename_i hne
  rw [if_neg hne]
  simp only [Option.bind_eq_some_iff] at hd ⊢
  obtain ⟨n, hn, mantles, hmantles, hd⟩ := hd
  exact ⟨n, hn, mantles, readMany_mono (fun _ _ => readMantle_mono h) hmantles, hd⟩

end

/-- **A save that is loaded stays loaded** when blocks are added. -/
theorem loadManifest_mono {a a' : Archive} {sv : Save} {d : Json} (h : Within a.blocks a'.blocks)
    (hd : a.loadManifest sv = .ok (some d)) : a'.loadManifest sv = .ok (some d) := by
  unfold loadManifest at hd ⊢
  cases hread : (a.blocks.getBlob sv.recipe).bind (readManifest a.blocks) with
  | none =>
    rw [hread] at hd
    cases hd
  | some parsed =>
    obtain ⟨manifest, hblob, hparsed⟩ := Option.bind_eq_some_iff.mp hread
    rw [getBlob_mono h hblob, Option.bind_some, readManifest_mono h hparsed]
    rwa [hread] at hd

/-! ### The loop over the assets -/

/-- The bytes of an asset. -/
def assetBytes (m : CString × Json) : Option Bytes := m.2.string?.bind fun t => base64Decode t.bytes

/-- Every asset that is a string is decoded. -/
def allDecode (ms : List (CString × Json)) : Bool :=
  ms.all fun m => m.2.string?.all fun t => (base64Decode t.bytes).isSome

/-- The assets that are put, up to the first that is not decoded. -/
def assetPuts : List (CString × Json) → List (Bytes × Bytes)
  | [] => []
  | (name, v) :: rest =>
    match v.string? with
    | none => assetPuts rest
    | some text =>
      match base64Decode text.bytes with
      | none => []
      | some raw => (name.bytes, raw) :: assetPuts rest

/-- Assets put one after the other. -/
def placed (out : Archive) (puts : List (Bytes × Bytes)) : Archive :=
  puts.foldl (fun a x => a.putAsset x.1 x.2) out

theorem importAssets_eq (ms : List (CString × Json)) (out : Archive) :
    importAssets ms out = (allDecode ms, placed out (assetPuts ms)) := by
  induction ms generalizing out with
  | nil => rfl
  | cons m rest ih =>
    obtain ⟨name, v⟩ := m
    rw [importAssets, assetPuts, allDecode, List.all_cons]
    dsimp only
    cases hv : v.string? with
    | none => exact ih out
    | some text =>
      dsimp only
      cases hraw : base64Decode text.bytes with
      | none => simp [hraw, placed]
      | some raw =>
        dsimp only
        rw [ih]
        simp [hraw, placed, allDecode]

/-- What is put is an asset. -/
theorem mem_of_assetPuts {ms : List (CString × Json)} {x : Bytes × Bytes} (hx : x ∈ assetPuts ms) :
    ∃ m ∈ ms, m.1.bytes = x.1 ∧ assetBytes m = some x.2 := by
  induction ms with
  | nil => cases hx
  | cons m rest ih =>
    obtain ⟨name, v⟩ := m
    have hlater : x ∈ assetPuts rest → ∃ m ∈ (name, v) :: rest, m.1.bytes = x.1 ∧ assetBytes m = some x.2 := by
      intro h
      obtain ⟨m, hm, h⟩ := ih h
      exact ⟨m, List.mem_cons_of_mem _ hm, h⟩
    rw [assetPuts] at hx
    cases hv : v.string? with
    | none =>
      simp only [hv] at hx
      exact hlater hx
    | some text =>
      cases hraw : base64Decode text.bytes with
      | none =>
        simp only [hv, hraw] at hx
        cases hx
      | some raw =>
        simp only [hv, hraw] at hx
        rcases List.mem_cons.mp hx with rfl | hx
        · refine ⟨(name, v), List.mem_cons_self, rfl, ?_⟩
          rw [assetBytes, hv]
          exact hraw
        · exact hlater hx

/-- When all are decoded every one that is a string is put. -/
theorem assetPuts_of_mem {ms : List (CString × Json)} (h : allDecode ms = true) {m : CString × Json}
    (hm : m ∈ ms) {raw : Bytes} (hraw : assetBytes m = some raw) : (m.1.bytes, raw) ∈ assetPuts ms := by
  induction ms with
  | nil => cases hm
  | cons n rest ih =>
    obtain ⟨name, v⟩ := n
    rw [allDecode, List.all_cons, Bool.and_eq_true] at h
    rw [assetPuts]
    rcases List.mem_cons.mp hm with rfl | hm
    · obtain ⟨text, hv, htext⟩ := Option.bind_eq_some_iff.mp hraw
      simp only [show v.string? = some text from hv, htext]
      exact List.mem_cons_self
    · have hlater := ih h.2 hm
      cases hv : v.string? with
      | none => exact hlater
      | some text =>
        obtain ⟨r, hr⟩ := Option.isSome_iff_exists.mp (by simpa [hv] using h.1)
        simp only [hr]
        exact List.mem_cons_of_mem _ hlater

/-- The blocks of the assets that are put. -/
def putTexts (puts : List (Bytes × Bytes)) : List Bytes := puts.flatMap fun x => assetTexts x.2

theorem putAsset_eq (out : Archive) (name bytes : Bytes) :
    out.putAsset name bytes = Archive.mk (out.blocks.putAll (assetTexts bytes)).2 out.saves
      (out.assets.insert name ((assetTexts bytes).map sha256)) := by
  rw [putAsset, storeBlob, putAll_fst]
  rfl

theorem placed_eq (out : Archive) (puts : List (Bytes × Bytes)) :
    placed out puts = {
      blocks := (out.blocks.putAll (putTexts puts)).2
      saves := out.saves
      assets := putAssets (puts.map fun x => (x.1, (assetTexts x.2).map sha256)) out.assets } := by
  induction puts generalizing out with
  | nil => rfl
  | cons x rest ih =>
    rw [placed, List.foldl_cons, ← placed, ih, putAsset_eq]
    refine Archive.ext ?_ rfl rfl
    dsimp only
    rw [putTexts, putTexts, List.flatMap_cons, putAll_append]

theorem within_placed (out : Archive) (puts : List (Bytes × Bytes)) :
    Within out.blocks (placed out puts).blocks := by
  rw [placed_eq]
  exact fun _ _ h => get_putAll_of_some h

/-- What is recorded under a name when assets were put. -/
theorem getElem?_assets_placed (out : Archive) (puts : List (Bytes × Bytes)) (name : Bytes) :
    (placed out puts).assets[name]? =
      (((puts.filter fun y => compare y.1 name == .eq).getLast?).map fun y =>
        (assetTexts y.2).map sha256).or out.assets[name]? := by
  rw [placed_eq]
  dsimp only
  rw [putAssets, Sorting.getElem?_foldl_insert, List.filter_map, List.getLast?_map, Option.map_map]
  rfl

/-- An asset that is put, and no other of its name, is there. -/
theorem getAsset_placed {out : Archive} {puts : List (Bytes × Bytes)} (ha : out.blocks.ContentAddressed)
    (hinj : Set.InjOn sha256 (out.blocks.stored ∪ {b | b ∈ putTexts puts})) {x : Bytes × Bytes}
    (hx : x ∈ puts) (hone : ∀ y ∈ puts, y.1 = x.1 → y.2 = x.2) :
    (placed out puts).getAsset x.1 = some x.2 := by
  have hrecipe : (placed out puts).assets[x.1]? = some ((assetTexts x.2).map sha256) := by
    obtain ⟨last, hlast⟩ : ∃ last, (puts.filter fun y => compare y.1 x.1 == .eq).getLast? = some last := by
      rw [← Option.isSome_iff_exists, List.getLast?_isSome]
      exact List.ne_nil_of_mem (List.mem_filter.mpr ⟨hx, beq_iff_eq.mpr Std.ReflCmp.compare_self⟩)
    obtain ⟨hmem, hkey⟩ := List.mem_filter.mp (List.mem_of_getLast? hlast)
    have hsame := hone last hmem (Std.LawfulEqCmp.eq_of_compare (beq_iff_eq.mp hkey))
    rw [getElem?_assets_placed, hlast, Option.map_some, Option.some_or, hsame]
  have htexts : HasTexts (placed out puts).blocks (assetTexts x.2) := by
    rw [placed_eq]
    exact fun b hb => get_putAll ha hinj (List.mem_flatMap.mpr ⟨x, hx, hb⟩)
  rw [getAsset, hrecipe, Option.bind_some, getBlob_of_hasTexts htexts, assetTexts, flatten_chunks]

/-! ### What changes nothing -/

/-- Blocks that are there already are put without effect, and no others. -/
theorem putAll_eq_self_iff {blocks : BlockStore} {parts : List Bytes} :
    (blocks.putAll parts).2 = blocks ↔ ∀ t ∈ parts, ∃ c, blocks.get (sha256 t) = some c := by
  constructor
  · intro h t ht
    obtain ⟨before, after, rfl⟩ := List.append_of_mem ht
    have hput : ∃ c, ((blocks.putAll before).2.put t).2.get (sha256 t) = some c := by
      change ∃ c, ((blocks.putAll before).2.insertRaw (sha256 t) t).get (sha256 t) = some c
      rw [get_insertRaw]
      split
      · exact ⟨t, rfl⟩
      · rename_i hne
        exact Option.ne_none_iff_exists'.mp fun hnone => hne ⟨rfl, hnone⟩
    obtain ⟨c, hc⟩ := hput
    refine ⟨c, ?_⟩
    have hlater := @get_putAll_of_some _ _ _ after hc
    rw [← h, putAll_append]
    exact hlater
  · intro h
    induction parts with
    | nil => rfl
    | cons t rest ih =>
      obtain ⟨c, hc⟩ := h t List.mem_cons_self
      have hput : (blocks.put t).2 = blocks := by
        refine Std.ExtTreeMap.ext_getElem? fun k => ?_
        change (blocks.insertRaw (sha256 t) t).get k = blocks.get k
        rw [get_insertRaw, if_neg]
        rintro ⟨-, hnone⟩
        rw [hc] at hnone
        cases hnone
      change ((blocks.put t).2.putAll rest).2 = blocks
      rw [hput]
      exact ih fun t ht => h t (List.mem_cons_of_mem _ ht)

/-- Assets that are there already: their blocks are stored, and each name stands for what is put under
it last. -/
structure AlreadyThere (out : Archive) (puts : List (Bytes × Bytes)) : Prop where
  /-- The blocks. -/
  stored : ∀ t ∈ putTexts puts, ∃ c, out.blocks.get (sha256 t) = some c
  /-- The names. -/
  named : ∀ x, (puts.filter fun y => compare y.1 x.1 == .eq).getLast? = some x →
    out.assets[x.1]? = some ((assetTexts x.2).map sha256)

/-- Assets are put without effect exactly when they are there. -/
theorem placed_eq_self_iff {out : Archive} {puts : List (Bytes × Bytes)} :
    placed out puts = out ↔ AlreadyThere out puts := by
  constructor
  · intro h
    constructor
    · rw [← putAll_eq_self_iff]
      have hblocks := congrArg Archive.blocks h
      rwa [placed_eq] at hblocks
    · intro x hx
      have hname := getElem?_assets_placed out puts x.1
      rwa [h, hx, Option.map_some, Option.some_or] at hname
  · intro h
    refine Archive.ext ?_ (by rw [placed_eq]) (Std.ExtTreeMap.ext_getElem? fun name => ?_)
    · rw [placed_eq]
      exact putAll_eq_self_iff.mpr h.stored
    · rw [getElem?_assets_placed]
      cases hlast : (puts.filter fun y => compare y.1 name == .eq).getLast? with
      | none => rfl
      | some x =>
        have hkey : x.1 = name := Std.LawfulEqCmp.eq_of_compare
          (beq_iff_eq.mp (List.mem_filter.mp (List.mem_of_getLast? hlast)).2)
        subst hkey
        exact (h.named x hlast).symm

/-! ### All of a bundle or nothing -/

/-- A result that is the whole bundle, or else leaves the archive as it was. -/
structure ImportedEntirely (bundle : Option Bundle) (out : Archive) (result : Bool × Archive) : Prop where
  /-- What is imported is the state and every asset, each the encoding of its bytes. -/
  accepted : result.1 = true → ∃ b, bundle = some b ∧ LatestIs result.2 b.state ∧
    ∀ m ∈ b.assets, ∃ t bytes, m.2 = .str t ∧ IsBase64 t.bytes bytes ∧
      result.2.getAsset m.1.bytes = some bytes
  /-- What is refused changes nothing. -/
  refused : result.1 = false → result.2 = out

/-- Every asset is the encoding of some bytes. -/
def AllBase64 (ms : List (CString × Json)) : Prop :=
  ∀ m ∈ ms, ∃ t bytes, m.2 = .str t ∧ IsBase64 t.bytes bytes

/-- Assets of one name are the same bytes. -/
def OneAssetEach (ms : List (CString × Json)) : Prop :=
  ∀ m ∈ ms, ∀ m' ∈ ms, m.1 = m'.1 → assetBytes m = assetBytes m'

/-- A bundle that is imported as a whole, or that is found to be damaged before anything changes. -/
def FitsWholly (b : Bundle) (out : Archive) (content : Bytes) : Prop :=
  if allDecode b.assets then
    (if out.savedLast content then LatestIs out b.state else HasLists b.state) ∧
      AllBase64 b.assets ∧ OneAssetEach b.assets
  else out.savedLast content = true ∧ AlreadyThere out (assetPuts b.assets)

/-- What is taken for granted of a bundle: the shape of its state, whose parts come back from their
texts and fit the fields of a manifest, and blocks that do not collide. -/
structure Importable (b : Bundle) (out : Archive) : Prop where
  /-- The shape. -/
  core : CoreState b.state
  /-- The objects. -/
  once : MembersOnce b.state
  /-- The parts. -/
  storable : Storable b.state
  /-- The blocks. -/
  apart : Set.InjOn sha256 (out.blocks.stored ∪ {t | t ∈ savedTexts b.state} ∪
    {t | ∃ m ∈ b.assets, ∃ raw, assetBytes m = some raw ∧ t ∈ assetTexts raw})

theorem assetBytes_of_isBase64 {m : CString × Json} {t : CString} {bytes : Bytes} (hm : m.2 = .str t)
    (h : IsBase64 t.bytes bytes) : assetBytes m = some bytes := by
  rw [assetBytes, hm]
  exact base64Decode_of_isBase64 h

section

variable {b : Bundle} {out : Archive} {label version content : Bytes}

/-- The archive when the state is saved. -/
def afterSave (b : Bundle) (out : Archive) (version label content : Bytes) : Archive :=
  if out.savedLast content then out else out.saved b.state version label content

theorem contentAddressed_afterSave (ha : out.blocks.ContentAddressed) :
    (afterSave b out version label content).blocks.ContentAddressed := by
  unfold afterSave
  split
  · exact ha
  · exact ha.putAll _

theorem apart_afterSave (hb : Importable b out) :
    Set.InjOn sha256 ((afterSave b out version label content).blocks.stored ∪
      {t | t ∈ putTexts (assetPuts b.assets)}) := by
  refine hb.apart.mono (Set.union_subset ?_ ?_)
  · refine Set.Subset.trans ?_ Set.subset_union_left
    unfold afterSave
    split
    · exact Set.subset_union_left
    · exact stored_putAll _ _
  · intro t ht
    obtain ⟨x, hx, ht⟩ := List.mem_flatMap.mp ht
    obtain ⟨m, hm, -, hraw⟩ := mem_of_assetPuts hx
    exact .inr ⟨m, hm, x.2, hraw, ht⟩

/-- Whether the state is the latest document then. -/
theorem latestIs_afterSave (hb : Importable b out) (ha : out.blocks.ContentAddressed)
    (hversion : versionName b.state {} = .ok version)
    (hlatest : out.saves ≠ [] → ∃ d, out.loadLatest = .ok (some d)) (puts : List (Bytes × Bytes)) :
    LatestIs (placed (afterSave b out version label content) puts) b.state ↔
      if out.savedLast content then LatestIs out b.state else HasLists b.state := by
  have hmono : ∀ {a : Archive} {d : Json}, a.loadLatest = .ok (some d) →
      (placed a puts).loadLatest = .ok (some d) := by
    intro a d hd
    have hsaves : (placed a puts).saves = a.saves := by rw [placed_eq]
    unfold loadLatest loadAt at hd ⊢
    rw [hsaves]
    split at hd
    · cases hd
    rename_i hne
    rw [if_neg hne]
    split at hd
    · cases hd
    · exact loadManifest_mono (within_placed a puts) hd
  have hiff : ∀ {a : Archive} {d : Json}, a.loadLatest = .ok (some d) →
      (LatestIs (placed a puts) b.state ↔ OneDocument d b.state) := by
    intro a d hd
    constructor
    · rintro ⟨e, he, h⟩
      rw [hmono hd] at he
      cases he
      exact h
    · exact fun h => ⟨d, hmono hd, h⟩
  unfold afterSave
  by_cases hlast : out.savedLast content = true
  · rw [if_pos hlast, if_pos hlast]
    have hne : out.saves ≠ [] := by
      intro h
      rw [savedLast, h] at hlast
      cases hlast
    obtain ⟨d, hd⟩ := hlatest hne
    rw [hiff hd]
    constructor
    · exact fun h => ⟨d, hd, h⟩
    · rintro ⟨e, he, h⟩
      rw [hd] at he
      cases he
      exact h
  · rw [if_neg hlast, if_neg hlast, ← oneDocument_reloaded_iff hb.core hb.once]
    refine hiff ?_
    rw [loadLatest_saved]
    exact loadAt_saved hversion hb.core hb.once hb.storable ha
      (hb.apart.mono Set.subset_union_left) label content

/-- What comes of an import is all or nothing exactly for such a bundle. -/
theorem importedEntirely_iff (hb : Importable b out) (ha : out.blocks.ContentAddressed)
    (hversion : versionName b.state {} = .ok version)
    (hlatest : out.saves ≠ [] → ∃ d, out.loadLatest = .ok (some d)) :
    ImportedEntirely (some b) out
        (allDecode b.assets, placed (afterSave b out version label content) (assetPuts b.assets)) ↔
      FitsWholly b out content := by
  have hstate := @latestIs_afterSave b out label version content hb ha hversion hlatest (assetPuts b.assets)
  unfold FitsWholly
  cases hall : allDecode b.assets with
  | true =>
    rw [if_pos rfl, ← hstate]
    constructor
    · intro h
      obtain ⟨b', he, hlast, hassets⟩ := h.accepted rfl
      cases he
      refine ⟨hlast, fun m hm => ?_, fun m hm m' hm' hname => ?_⟩
      · obtain ⟨t, bytes, ht, hbytes, -⟩ := hassets m hm
        exact ⟨t, bytes, ht, hbytes⟩
      · obtain ⟨t, bytes, ht, hbytes, hget⟩ := hassets m hm
        obtain ⟨t', bytes', ht', hbytes', hget'⟩ := hassets m' hm'
        rw [hname, hget'] at hget
        rw [assetBytes_of_isBase64 ht hbytes, assetBytes_of_isBase64 ht' hbytes', hget]
    · rintro ⟨hlast, hbase, hone⟩
      refine ⟨fun _ => ⟨b, rfl, hlast, fun m hm => ?_⟩, fun h => by cases h⟩
      obtain ⟨t, bytes, ht, hbytes⟩ := hbase m hm
      have hraw := assetBytes_of_isBase64 ht hbytes
      refine ⟨t, bytes, ht, hbytes, getAsset_placed (contentAddressed_afterSave ha) (apart_afterSave hb)
        (assetPuts_of_mem hall hm hraw) fun y hy hname => ?_⟩
      obtain ⟨m', hm', hname', hraw'⟩ := mem_of_assetPuts hy
      have hsame := hone m' hm' m hm (CString.ext (hname'.trans hname))
      rw [hraw, hraw'] at hsame
      exact Option.some.inj hsame
  | false =>
    rw [if_neg Bool.false_ne_true]
    have hunchanged : ImportedEntirely (some b) out
        (false, placed (afterSave b out version label content) (assetPuts b.assets)) ↔
        placed (afterSave b out version label content) (assetPuts b.assets) = out :=
      ⟨fun h => h.refused rfl, fun h => ⟨fun hf => (by cases hf), fun _ => h⟩⟩
    rw [hunchanged]
    unfold afterSave
    by_cases hlast : out.savedLast content = true
    · rw [if_pos hlast, placed_eq_self_iff]
      exact ⟨fun h => ⟨hlast, h⟩, fun h => h.2⟩
    · rw [if_neg hlast]
      refine ⟨fun h => ?_, fun h => absurd h.1 hlast⟩
      -- A save that is made is one more than there were.
      have hlen := congrArg (fun a => a.saves.length) h
      rw [placed_eq] at hlen
      simp [saved] at hlen

end

/-- **What an import of a bundle does.** -/
theorem importMiga_eq_ok {text label : Bytes} {b : Bundle} (hb : bundleOf text = some b) {out : Archive}
    {result : Bool × Archive} : importMiga text label out = .ok result ↔ ∃ version content,
      versionName b.state {} = .ok version ∧ contentDigest b.state (remainderOf b.state) = .ok content ∧
        result = (allDecode b.assets,
          placed (afterSave b out version label content) (assetPuts b.assets)) := by
  rw [importMiga, hb]
  change out.save b.state label >>= _ = _ ↔ _
  rw [bind_eq_ok]
  constructor
  · rintro ⟨⟨version, saved⟩, hsave, h⟩
    obtain ⟨content, hversion, hcontent, rfl⟩ := save_eq_ok.mp hsave
    cases h
    exact ⟨version, content, hversion, hcontent, importAssets_eq _ _⟩
  · rintro ⟨version, content, hversion, hcontent, rfl⟩
    refine ⟨(version, afterSave b out version label content),
      save_eq_ok.mpr ⟨content, hversion, hcontent, rfl⟩, ?_⟩
    exact congrArg Except.ok (importAssets_eq _ _)

end Archive

open Archive

/-- **A bundle is imported entirely or refused entirely exactly when** it is no bundle of the version, or
all its strings are decoded and it is sound: each asset is the encoding of some bytes, one for each name,
and the save of the state is either made, of a state with its lists, or skipped where the state is the
latest document already; or a string is not decoded and neither the save nor the assets before it change
anything. The archive is one whose latest save can be loaded. -/
theorem import_entire_iff {out : Archive} (ha : out.blocks.ContentAddressed)
    (hlatest : out.saves ≠ [] → ∃ d, out.loadLatest = .ok (some d)) {text : Bytes}
    (hbundle : ∀ b, bundleOf text = some b → Importable b out) (label : Bytes) :
    (∀ result, importMiga text label out = .ok result → ImportedEntirely (bundleOf text) out result) ↔
      ∀ b content, bundleOf text = some b → contentDigest b.state (remainderOf b.state) = .ok content →
        FitsWholly b out content := by
  cases hb : bundleOf text with
  | none =>
    refine ⟨fun _ b content h => (by cases h), fun _ result h => ?_⟩
    rw [importMiga, hb] at h
    cases h
    exact ⟨fun h => (by cases h), fun _ => rfl⟩
  | some b =>
    have hi := hbundle b hb
    constructor
    · rintro h b' content he hcontent
      cases he
      obtain ⟨version, hversion⟩ := versionName_of_contentDigest hcontent
      exact (importedEntirely_iff hi ha hversion hlatest).mp
        (h _ ((importMiga_eq_ok hb).mpr ⟨version, content, hversion, hcontent, rfl⟩))
    · rintro h result hresult
      obtain ⟨version, content, hversion, hcontent, rfl⟩ := (importMiga_eq_ok hb).mp hresult
      exact (importedEntirely_iff hi ha hversion hlatest).mpr (h b content rfl hcontent)

/-- A bundle with the state of one red mantle and one asset of this text. -/
def bundled (text : CString) : Json :=
  .obj [(.ofLit "magic", .str (.ofLit "MIGA")), (.ofLit "version", .num (.ofInt 3)),
    (.ofLit "state", painted red), (.ofLit "assets", .obj [(.ofLit "a", .str text)])]

/-- The encoding of one byte. -/
def soundText : CString := .ofLit "YQ=="

/-- A text that is none. -/
def damagedText : CString := .ofLit "!"

theorem rereads_of_printable {j : Json} (h : Printable nestingLimit j) (hn : (0 : UInt8) ∉ printed j) :
    Rereads j := by
  have hbytes : (CString.ofBytes (printed j)).bytes = printed j :=
    congrArg CString.bytes (CString.ofBytes_bytes ⟨printed j, hn⟩)
  rw [Rereads, parseText, hbytes]
  exact parseJson_printed h

theorem bundleOf_bundled {text : CString} (hn : (0 : UInt8) ∉ printed (bundled text)) :
    bundleOf (printed (bundled text)) = some ⟨painted red, [(.ofLit "a", .str text)]⟩ := by
  have hthree : (Double.ofInt 3).ReadsBack := readsBack_ofInt (by decide)
  have hprint : Printable (995 + 5) (bundled text) := by
    simp [bundled, painted, colouredMantle, Printable, hthree]
  have hparse : parseText (printed (bundled text)) = some (bundled text) :=
    rereads_of_printable hprint hn
  have hversion : (Double.ofInt 3).eq (.ofInt 3) = true := by decide +kernel
  rw [bundleOf, hparse]
  change (if (CString.ofLit "MIGA" = CString.ofLit "MIGA" ∧ (Double.ofInt 3).eq (.ofInt 3) = true) then
    some (Bundle.mk (painted red) [(.ofLit "a", .str text)]) else none) = _
  rw [if_pos ⟨rfl, hversion⟩]

/-- A sound bundle is imported entirely. -/
theorem import_sound : ∃ result, importMiga (printed (bundled soundText)) [] {} = .ok result ∧
    result.1 = true ∧ ImportedEntirely (bundleOf (printed (bundled soundText))) {} result := by
  have hbundle := @bundleOf_bundled soundText (by decide +kernel)
  obtain ⟨version, content, hversion, hcontent, -, -⟩ := exists_save_red
  have hresult := (@importMiga_eq_ok _ [] _ hbundle {} _).mpr ⟨version, content, hversion, hcontent, rfl⟩
  have hall : allDecode [(CString.ofLit "a", Json.str soundText)] = true := by decide +kernel
  have hraw : assetBytes (CString.ofLit "a", Json.str soundText) = some [0x61] := by decide +kernel
  have hbase : IsBase64 soundText.bytes [0x61] := by
    unfold IsBase64
    decide +kernel
  have happart : ∀ x ∈ savedTexts (painted red) ++ assetTexts [0x61],
      ∀ y ∈ savedTexts (painted red) ++ assetTexts [0x61], sha256 x = sha256 y → x = y := by
    decide +kernel
  have himportable : ∀ b, bundleOf (printed (bundled soundText)) = some b → Importable b {} := by
    intro b hb
    rw [hbundle] at hb
    cases hb
    refine ⟨coreState_painted _, membersOnce_painted _, storable_red, ?_⟩
    have hsub : ∀ x ∈ (({} : Archive).blocks.stored ∪ {t | t ∈ savedTexts (painted red)} ∪
        {t | ∃ m ∈ [(CString.ofLit "a", Json.str soundText)], ∃ raw, assetBytes m = some raw ∧
          t ∈ assetTexts raw}), x ∈ savedTexts (painted red) ++ assetTexts [0x61] := by
      rintro x ((⟨k, hx⟩ | hx) | ⟨m, hm, raw, hbytes, hx⟩)
      · cases hx
      · exact List.mem_append_left _ hx
      · rw [List.mem_singleton.mp hm, hraw] at hbytes
        cases hbytes
        exact List.mem_append_right _ hx
    exact fun x hx y hy h => happart x (hsub x hx) y (hsub y hy) h
  refine ⟨_, hresult, hall, ?_⟩
  refine (import_entire_iff contentAddressed_empty (fun h => absurd rfl h) himportable []).mpr ?_ _ hresult
  intro b c hb hc
  rw [hbundle] at hb
  cases hb
  rw [FitsWholly, if_pos hall]
  refine ⟨hasLists_painted _, List.forall_mem_singleton.mpr ⟨soundText, [0x61], rfl, hbase⟩, ?_⟩
  exact List.forall_mem_singleton.mpr (List.forall_mem_singleton.mpr fun _ => rfl)

/-- A damaged asset is found when the state is saved already. -/
theorem import_damaged : ∃ result, importMiga (printed (bundled damagedText)) [] {} = .ok result ∧
    result.1 = false ∧ result.2.saves ≠ [] ∧
      ¬ ImportedEntirely (bundleOf (printed (bundled damagedText))) {} result := by
  have hbundle := @bundleOf_bundled damagedText (by decide +kernel)
  obtain ⟨version, content, hversion, hcontent, -, -⟩ := exists_save_red
  have hresult := (@importMiga_eq_ok _ [] _ hbundle {} _).mpr ⟨version, content, hversion, hcontent, rfl⟩
  have hfalse : allDecode [(CString.ofLit "a", Json.str damagedText)] = false := by decide +kernel
  have hsaves : (placed (afterSave ⟨painted red, [(.ofLit "a", .str damagedText)]⟩ {} version [] content)
      (assetPuts [(.ofLit "a", .str damagedText)])).saves ≠ [] := by
    rw [placed_eq]
    exact List.cons_ne_nil _ _
  refine ⟨_, hresult, hfalse, hsaves, fun h => hsaves ?_⟩
  exact congrArg Archive.saves (h.refused hfalse)

end VoidPalabra
