import VoidPalabra.Delivered
import VoidPalabra.Persist

/-!
# Histories as files

Every utterance is written with its name, and the name is computed again when it is read.
What is read is filed as it would be if it had been received, so that neither the order of
the file matters nor can a part of it be missing.
-/

namespace VoidPalabra

/-- Bytes without NUL are what a C string holds of them. -/
theorem CString.bytes_ofBytes {b : Bytes} (h : (0 : UInt8) ∉ b) : (CString.ofBytes b).bytes = b :=
  congrArg CString.bytes (CString.ofBytes_bytes ⟨b, h⟩)

/-- A loop that may fail has read every element when it has not. -/
theorem mapM_eq_ok {ε α β : Type} {f : α → Except ε β} {xs : List α} : ∀ {ys : List β},
    xs.mapM f = .ok ys ↔ List.Forall₂ (fun x y => f x = .ok y) xs ys := by
  induction xs with
  | nil =>
    intro ys
    rw [List.mapM_nil, pure_eq_ok, List.forall₂_nil_left_iff]
  | cons x xs ih =>
    intro ys
    rw [List.mapM_cons, bind_eq_ok, List.forall₂_cons_left_iff]
    refine exists_congr fun y => ?_
    simp only [bind_eq_ok, pure_eq_ok, ih]
    exact ⟨fun ⟨hy, ys, hys, he⟩ => ⟨ys, hy, hys, he⟩, fun ⟨ys, hy, hys, he⟩ => ⟨hy, ys, hys, he⟩⟩

namespace Utterances

namespace Key

def hash : CString := .ofLit "hash"
def parents : CString := .ofLit "parents"
def command : CString := .ofLit "command"
def verb : CString := .ofLit "verb"
def who : CString := .ofLit "who"
def minted : CString := .ofLit "minted"
def group : CString := .ofLit "group"
def seq : CString := .ofLit "seq"
def palabraHistory : CString := .ofLit "palabra_history"
def utterances : CString := .ofLit "utterances"

end Key

/-! ### Writing -/

/-- An array of strings. -/
def stringsJson (items : List Bytes) : Json := .arr (items.map fun s => .str (.ofBytes s))

/-- A string that may be absent. -/
def strOrNull (present : Bool) (s : Bytes) : Json :=
  if present then .str (.ofBytes s) else .null

/-- `utterance_to_json`. -/
def utteranceToJson (u : Utterance) : Json :=
  .obj [(Key.hash, .str (.ofBytes u.hash)), (Key.parents, stringsJson u.parents),
    (Key.command, .str (.ofBytes u.command)), (Key.verb, .str (.ofBytes u.verb)),
    (Key.who, strOrNull u.hasWho u.who), (Key.minted, stringsJson u.minted),
    (Key.group, strOrNull (!u.group.isEmpty) u.group), (Key.seq, .num (.ofInt u.seq.toInt))]

/-! ### Reading -/

/-- The string under a name, if there is one. -/
def stringAt (obj : Json) (k : CString) : Option Bytes :=
  ((obj.get k).bind Json.string?).map CString.bytes

/-- The string under a name, which has to be there. -/
def requiredAt (obj : Json) (k : CString) (reason : String) : Except Bytes Bytes :=
  match stringAt obj k with
  | some s => .ok s
  | none => .error (lit reason)

/-- One of the strings of an array. -/
def stringOf (reason : String) (j : Json) : Except Bytes Bytes :=
  match j with
  | .str s => .ok s.bytes
  | _ => .error (lit reason)

/-- The strings of the array under a name; none when there is no array. -/
def stringsAt (obj : Json) (k : CString) (reason : String) : Except Bytes (List Bytes) :=
  match obj.get k with
  | some (.arr items) => items.mapM (stringOf reason)
  | _ => .ok []

/-- The number under a name as an integer; zero when there is none. -/
def seqAt (obj : Json) (k : CString) : Int64 :=
  match obj.get k with
  | some (.num d) => .ofInt d.trunc
  | _ => 0

/-- The fields that `utterance_from_json` reads, the parents sorted. -/
def readUtterance (obj : Json) : Except Bytes Utterance := do
  if !obj.isObject then .error (lit "utterance is not an object")
  let command ← requiredAt obj Key.command "utterance has no string 'command'"
  let verb ← requiredAt obj Key.verb "utterance has no string 'verb'"
  let parents ← stringsAt obj Key.parents "utterance 'parents' holds a non-string"
  let minted ← stringsAt obj Key.minted "utterance 'minted' holds a non-string"
  pure { parents := sortUnique parents, command := command, verb := verb,
         who := (stringAt obj Key.who).getD [], hasWho := (stringAt obj Key.who).isSome,
         minted := minted, group := (stringAt obj Key.group).getD [], seq := seqAt obj Key.seq }

/-- The end of `utterance_from_json`: the name is computed again and compared with the one
that is stored, if one is. -/
def verified (u : Utterance) (claimed : Option Bytes) : Except Bytes Utterance :=
  match u.name with
  | .error e => .error (lit "utterance has no canonical form: " ++ e.what)
  | .ok recomputed =>
    if claimed.any (· ≠ recomputed) then
      .error (lit "utterance hash mismatch: stored " ++ claimed.getD [] ++ lit ", computed " ++ recomputed)
    else .ok { u with hash := recomputed }

/-- `utterance_from_json`. -/
def utteranceFromJson (obj : Json) : Except Bytes Utterance := do
  let u ← readUtterance obj
  verified u (stringAt obj Key.hash)

namespace History

/-- `History::get`. -/
def get (h : History) (hash : Bytes) : Option Utterance := h.byHash[hash]?

/-- The array that `History::to_json` writes. -/
def utterancesJson (h : History) : List Json :=
  h.linearExtension.filterMap fun hash => (h.get hash).map utteranceToJson

/-- A file with an array of utterances. -/
def fileOf (items : List Json) : Json :=
  .obj [(Key.palabraHistory, .num Double.one), (Key.utterances, .arr items)]

/-- `History::to_json`. -/
def toJson (h : History) : Json := fileOf h.utterancesJson

/-- `History::from_json`, with what it leaves in `out`. Its loop is the one of
`History::receive`; a null pointer is no value. -/
def fromJson (obj : Option Json) : Except Bytes Unit × History :=
  match obj with
  | some (.obj members) =>
    match Json.lookup Key.utterances members with
    | some (.arr items) =>
      match items.mapM utteranceFromJson with
      | .error reason => (.error reason, {})
      | .ok parsed =>
        let r := ({} : History).receive parsed
        if r.unplaceable.isEmpty then (.ok (), r.history)
        else (.error (lit "history is incomplete: " ++ decimal r.unplaceable.length ++
          lit " utterance(s) name a parent that is not in the file"), {})
    | _ => (.error (lit "history has no 'utterances' array"), {})
  | _ => (.error (lit "history is not an object"), {})

end History

/-! ### An utterance read back -/

/-- What a file keeps of an utterance: its parents are a set, and nobody has no name. -/
def stored (u : Utterance) : Utterance :=
  { u with parents := sortUnique u.parents, who := if u.hasWho then u.who else [] }

/-- An utterance that a file can hold. -/
structure Storable (u : Utterance) : Prop where
  /-- Its command has no NUL, -/
  command : (0 : UInt8) ∉ u.command
  /-- nor has its verb, -/
  verb : (0 : UInt8) ∉ u.verb
  /-- who said it, -/
  who : u.hasWho = true → (0 : UInt8) ∉ u.who
  /-- its label -/
  group : (0 : UInt8) ∉ u.group
  /-- or an id. -/
  minted : ∀ m ∈ u.minted, (0 : UInt8) ∉ m
  /-- Its number is exact as a double. -/
  seq : u.seq.toInt.natAbs ≤ 2 ^ 53

theorem mapM_stringOf (reason : String) {xs : List Bytes} (h : ∀ s ∈ xs, (0 : UInt8) ∉ s) :
    (xs.map fun s => Json.str (.ofBytes s)).mapM (stringOf reason) = .ok xs := by
  rw [mapM_eq_ok, List.forall₂_map_left_iff, List.forall₂_same]
  intro s hs
  rw [stringOf, CString.bytes_ofBytes (h s hs)]

/-- A well-formed name has no NUL. -/
theorem WellFormed.noNul {u : Utterance} (hu : WellFormed u) : (0 : UInt8) ∉ u.hash := by
  rw [hu.valid.2]
  intro h
  rcases List.mem_append.mp h with h | h
  · exact absurd h (by decide)
  · exact noNul_hexBytes _ h

section ReadBack

variable {u : Utterance}

theorem stringAt_who (h : u.hasWho = true → (0 : UInt8) ∉ u.who) :
    stringAt (utteranceToJson u) Key.who = if u.hasWho then some u.who else none := by
  have hget : (utteranceToJson u).get Key.who = some (strOrNull u.hasWho u.who) := rfl
  rw [stringAt, hget]
  cases hw : u.hasWho with
  | false => rfl
  | true => exact congrArg some (CString.bytes_ofBytes (h hw))

theorem stringAt_group (h : (0 : UInt8) ∉ u.group) :
    (stringAt (utteranceToJson u) Key.group).getD [] = u.group := by
  have hget : (utteranceToJson u).get Key.group = some (strOrNull (!u.group.isEmpty) u.group) := rfl
  rw [stringAt, hget]
  cases hg : u.group with
  | nil => rfl
  | cons c g => exact CString.bytes_ofBytes (hg ▸ h)

/-- What is read of an utterance that was written. -/
theorem readUtterance_toJson (hs : Storable u) (hparents : ∀ p ∈ u.parents, (0 : UInt8) ∉ p) :
    readUtterance (utteranceToJson u) = .ok { stored u with hash := [] } := by
  have hcommand : requiredAt (utteranceToJson u) Key.command
      "utterance has no string 'command'" = .ok u.command :=
    congrArg Except.ok (CString.bytes_ofBytes hs.command)
  have hverb : requiredAt (utteranceToJson u) Key.verb
      "utterance has no string 'verb'" = .ok u.verb :=
    congrArg Except.ok (CString.bytes_ofBytes hs.verb)
  have hps : stringsAt (utteranceToJson u) Key.parents
      "utterance 'parents' holds a non-string" = .ok u.parents := mapM_stringOf _ hparents
  have hms : stringsAt (utteranceToJson u) Key.minted
      "utterance 'minted' holds a non-string" = .ok u.minted := mapM_stringOf _ hs.minted
  have hseq : seqAt (utteranceToJson u) Key.seq = u.seq := by
    change Int64.ofInt (Double.ofInt u.seq.toInt).trunc = u.seq
    rw [Double.trunc_ofInt hs.seq, Int64.ofInt_toInt]
  have hobject : (utteranceToJson u).isObject = true := rfl
  rw [readUtterance, hobject]
  refine bind_eq_ok.mpr ⟨_, hcommand, bind_eq_ok.mpr ⟨_, hverb, ?_⟩⟩
  refine bind_eq_ok.mpr ⟨_, hps, bind_eq_ok.mpr ⟨_, hms, ?_⟩⟩
  rw [pure_eq_ok, stringAt_group hs.group, stringAt_who hs.who, hseq, stored]
  cases u.hasWho <;> rfl

/-- What a file keeps has the same name. -/
theorem name_stored (hw : WellFormed u) : (stored u).name = .ok u.hash := by
  obtain ⟨hvalid, hhash⟩ := hw.valid
  have hsame : (stored u).Same u :=
    ⟨rfl, rfl, rfl, fun h => if_pos h, rfl, fun _ => mem_sortUnique, fun _ => Iff.rfl⟩
  refine Utterance.name_eq_ok.mpr ⟨⟨hvalid.command, hvalid.verb, fun h => ?_, hvalid.group,
    fun p hp => hvalid.parents p (mem_sortUnique.mp hp), hvalid.minted⟩, ?_⟩
  · rw [hsame.who h]
    exact hvalid.who h
  · rw [Utterance.hashed_inj.mpr hsame]
    exact hhash

/-- What is read back has the name that was written. -/
theorem utteranceFromJson_toJson (hw : WellFormed u) (hs : Storable u)
    (hparents : ∀ p ∈ u.parents, (0 : UInt8) ∉ p) :
    utteranceFromJson (utteranceToJson u) = .ok (stored u) := by
  have hname : ({ stored u with hash := [] } : Utterance).name = .ok u.hash := name_stored hw
  have hclaimed : stringAt (utteranceToJson u) Key.hash = some u.hash :=
    congrArg some (CString.bytes_ofBytes hw.noNul)
  refine bind_eq_ok.mpr ⟨_, readUtterance_toJson hs hparents, ?_⟩
  rw [verified, hname, hclaimed]
  simp [stored]

end ReadBack

namespace History

variable {h : History}

/-! ### A history read back -/

/-- What was kept of a history is filed again, in whichever order it comes. -/
theorem Filed.receive_stored (hf : h.Filed) {us : List Utterance}
    (hus : ∀ v, v ∈ us ↔ ∃ (n : Bytes) (u : Utterance), h.byHash[n]? = some u ∧ v = stored u) :
    (({} : History).receive us).unplaceable = [] ∧
      ∀ n : Bytes,
        (({} : History).receive us).history.byHash[n]? = (h.byHash[n]?).map stored := by
  have ht := taken {} us
  generalize ({} : History).receive us = r at ht ⊢
  have hk := ht.adds.filed filed_empty
  obtain ⟨rank, hrank⟩ := hf.graded
  have hwell : ∀ {n : Bytes} {u : Utterance}, h.byHash[n]? = some u → WellFormed (stored u) :=
    fun hu => ⟨(hf.named hu).2.1, name_stored (hf.named hu).2⟩
  -- by the rank of what is held, parents before children
  have hheld : ∀ (m : ℕ) (n : Bytes) (u : Utterance), rank n = m → h.byHash[n]? = some u →
      n ∈ r.history.names := by
    intro m
    induction m using Nat.strong_induction_on with
    | _ m ih =>
      rintro n u rfl hu
      have hn : (stored u).hash = n := (hf.named hu).1
      rcases ht.placed (stored u) ((hus _).mpr ⟨n, u, hu, rfl⟩) with hwaits | ⟨-, hmem⟩
      · rcases waits_iff.mp hwaits with hnot | ⟨-, p, hp, hmissing⟩
        · exact absurd (hwell hu) hnot
        · have hfollows : h.Follows p n := by
            rw [Follows, parentsOf, hu]
            exact mem_sortUnique.mp hp
          obtain ⟨v, hv⟩ := Option.isSome_iff_exists.mp
            (Std.ExtTreeMap.isSome_getElem?_iff_mem.mpr (hrank.parent hfollows))
          exact absurd (ih _ (hrank.lt hfollows) p v rfl hv) hmissing
      · exact hn ▸ hmem
  have horigin : ∀ {n : Bytes} {v : Utterance}, r.history.byHash[n]? = some v →
      ∃ u, h.byHash[n]? = some u ∧ v = stored u := by
    intro n v hv
    rcases ht.adds.origin hv with hnone | hmem
    · simp at hnone
    · obtain ⟨n', u, hu, rfl⟩ := (hus v).mp hmem
      have he : n' = n := (hf.named hu).1.symm.trans (hk.named hv).1
      exact ⟨u, he ▸ hu, rfl⟩
  refine ⟨?_, fun n => ?_⟩
  · rw [ht.unplaceable, List.filter_eq_nil_iff]
    intro v hv
    obtain ⟨n, u, hu, rfl⟩ := (hus v).mp hv
    have hmem := hheld _ n u rfl hu
    rw [← (hf.named hu).1] at hmem
    simp [waits_of_held (hwell hu) hmem]
  · cases hn : h.byHash[n]? with
    | none =>
      cases hv : r.history.byHash[n]? with
      | none => rfl
      | some v =>
        obtain ⟨u, hu, -⟩ := horigin hv
        rw [hn] at hu
        cases hu
    | some u =>
      obtain ⟨v, hv⟩ := Option.isSome_iff_exists.mp
        (Std.ExtTreeMap.isSome_getElem?_iff_mem.mpr (hheld _ n u rfl hn))
      obtain ⟨u', hu', rfl⟩ := horigin hv
      rw [hv, ← hn, hu']
      rfl

/-- A history that was read back. -/
structure Restored (h k : History) : Prop where
  /-- The names are the same, -/
  names : ∀ n, k.has n = h.has n
  /-- each with its content, the parents as a set, -/
  content : ∀ n, k.get n = (h.get n).map stored
  /-- the heads, -/
  heads : k.heads = h.heads
  /-- the name of the cut -/
  cutName : k.cutName = h.cutName
  /-- and the one reading of the order. -/
  linearExtension : k.linearExtension = h.linearExtension

theorem restored (hf : h.Filed) {k : History} (hk : k.Filed)
    (hcontent : ∀ n : Bytes, k.byHash[n]? = (h.byHash[n]?).map stored) : Restored h k := by
  have hnames : k.names = h.names := by
    ext n
    change n ∈ k.byHash ↔ n ∈ h.byHash
    rw [← Std.ExtTreeMap.isSome_getElem?_iff_mem, ← Std.ExtTreeMap.isSome_getElem?_iff_mem,
      hcontent, Option.isSome_map]
  have hfollows : ∀ c p, k.Follows p c ↔ h.Follows p c := by
    intro c p
    rw [Follows, Follows, parentsOf, parentsOf, hcontent]
    cases h.byHash[c]? with
    | none => exact Iff.rfl
    | some u => exact mem_sortUnique
  obtain ⟨hheads, hcut, hlinear⟩ := readers_agree_of_follows hk hf hnames hfollows
  refine ⟨fun n => ?_, hcontent, hheads, hcut, hlinear⟩
  rw [Bool.eq_iff_iff, has_iff, has_iff, hnames]

/-- The utterances that a history writes. -/
theorem mem_written (hf : h.Filed) (u : Utterance) :
    u ∈ h.linearExtension.filterMap h.get ↔ ∃ n : Bytes, h.byHash[n]? = some u := by
  rw [List.mem_filterMap]
  refine exists_congr fun n => ⟨And.right, fun hu => ⟨(hf.reading.mem n).mpr ?_, hu⟩⟩
  exact Std.ExtTreeMap.mem_keys.mpr (Std.ExtTreeMap.mem_iff_isSome_getElem?.mpr (by rw [hu]; rfl))

/-- Every permutation of what a history writes is read back. -/
theorem Filed.fromJson_perm (hf : h.Filed) (hs : ∀ n u, h.get n = some u → Storable u)
    {items : List Json} (hperm : items.Perm h.utterancesJson) :
    (fromJson (some (fileOf items))).1 = .ok () ∧
      Restored h (fromJson (some (fileOf items))).2 := by
  obtain ⟨rank, hrank⟩ := hf.graded
  have hwritten : h.utterancesJson = (h.linearExtension.filterMap h.get).map utteranceToJson := by
    rw [utterancesJson, List.map_filterMap]
  have hread : List.Forall₂ (fun j v => utteranceFromJson j = .ok v) h.utterancesJson
      ((h.linearExtension.filterMap h.get).map stored) := by
    rw [hwritten, List.forall₂_map_left_iff, List.forall₂_map_right_iff, List.forall₂_same]
    intro u hu
    obtain ⟨n, hn⟩ := (mem_written hf u).mp hu
    refine utteranceFromJson_toJson (hf.named hn).2 (hs n u hn) fun p hp => ?_
    -- a parent is held, so it is a name
    have hfollows : h.Follows p n := by
      rw [Follows, parentsOf, hn]
      exact hp
    obtain ⟨v, hv⟩ := Option.isSome_iff_exists.mp
      (Std.ExtTreeMap.isSome_getElem?_iff_mem.mpr (hrank.parent hfollows))
    exact (hf.named hv).1 ▸ (hf.named hv).2.noNul
  obtain ⟨us, hus, husperm⟩ := List.perm_comp_forall₂ hperm hread
  have hmem : ∀ v, v ∈ us ↔ ∃ (n : Bytes) (u : Utterance), h.byHash[n]? = some u ∧ v = stored u := by
    intro v
    rw [husperm.mem_iff, List.mem_map]
    constructor
    · rintro ⟨u, hu, rfl⟩
      obtain ⟨n, hn⟩ := (mem_written hf u).mp hu
      exact ⟨n, u, hn, rfl⟩
    · rintro ⟨n, u, hn, rfl⟩
      exact ⟨u, (mem_written hf u).mpr ⟨n, hn⟩, rfl⟩
  obtain ⟨hall, hcontent⟩ := hf.receive_stored hmem
  have hfrom : fromJson (some (fileOf items)) =
      (.ok (), (({} : History).receive us).history) := by
    have hlookup : Json.lookup Key.utterances [(Key.palabraHistory, Json.num Double.one),
      (Key.utterances, Json.arr items)] = some (.arr items) := rfl
    simp only [fromJson, fileOf, hlookup, mapM_eq_ok.mpr hus, hall]
    rfl
  rw [hfrom]
  exact ⟨rfl, restored hf ((taken {} us).adds.filed filed_empty) hcontent⟩

/-! ### Files that are refused -/

/-- The array of utterances of a file. -/
def itemsOf (obj : Option Json) : List Json :=
  match VoidPalabra.get obj Key.utterances with
  | some (.arr items) => items
  | _ => []

/-- What is hashed for the utterances of a file. -/
def payloads (items : List Json) : Set Bytes :=
  {b | ∃ j ∈ items, ∃ u, readUtterance j = .ok u ∧ b = u.hashed}

/-- The content of an utterance does not match the name stored with it. -/
def Altered (items : List Json) : Prop :=
  ∃ j ∈ items, ∃ u c, readUtterance j = .ok u ∧ stringAt j Key.hash = some c ∧ u.name ≠ .ok c

/-- A parent of an utterance is the name of none of them. -/
def Incomplete (items : List Json) : Prop :=
  ∃ j ∈ items, ∃ u, readUtterance j = .ok u ∧ ∃ p ∈ u.parents,
    ∀ j' ∈ items, ∀ v, readUtterance j' = .ok v → v.name ≠ .ok p

/-- Either a file is refused, and nothing is left of it, or all of it is filed. -/
theorem fromJson_cases (obj : Option Json) : (∃ reason, fromJson obj = (.error reason, {})) ∨
    ∃ parsed, (itemsOf obj).mapM utteranceFromJson = .ok parsed ∧
      (({} : History).receive parsed).unplaceable = [] ∧
      fromJson obj = (.ok (), (({} : History).receive parsed).history) := by
  unfold fromJson
  split
  · rename_i members
    split
    · rename_i items hitems
      have hof : itemsOf (some (.obj members)) = items := by
        rw [itemsOf, VoidPalabra.get_some, Json.get_obj, hitems]
      rw [hof]
      split
      · exact Or.inl ⟨_, rfl⟩
      · rename_i parsed hparsed
        dsimp only
        split
        · rename_i hempty
          exact Or.inr ⟨parsed, hparsed, List.isEmpty_iff.mp hempty, rfl⟩
        · exact Or.inl ⟨_, rfl⟩
    · exact Or.inl ⟨_, rfl⟩
  · exact Or.inl ⟨_, rfl⟩

/-- What is read has the name of its content, and no other was stored. -/
theorem utteranceFromJson_eq_ok {j : Json} {v : Utterance} (h : utteranceFromJson j = .ok v) :
    ∃ u, readUtterance j = .ok u ∧ u.name = .ok v.hash ∧ v = { u with hash := v.hash } ∧
      ∀ c, stringAt j Key.hash = some c → c = v.hash := by
  obtain ⟨u, hu, hv⟩ := bind_eq_ok.mp h
  refine ⟨u, hu, ?_⟩
  unfold verified at hv
  split at hv
  · cases hv
  · rename_i recomputed hname
    split at hv
    · cases hv
    · rename_i hclaimed
      obtain rfl := Except.ok.inj hv
      refine ⟨hname, rfl, fun c hc => ?_⟩
      simpa [hc] using hclaimed

/-- Every element that was read is among what was read, and the other way. -/
theorem exists_of_forall₂ {α β : Type} {R : α → β → Prop} {xs : List α} {ys : List β}
    (h : List.Forall₂ R xs ys) : (∀ x ∈ xs, ∃ y ∈ ys, R x y) ∧ ∀ y ∈ ys, ∃ x ∈ xs, R x y := by
  induction h with
  | nil => exact ⟨nofun, nofun⟩
  | cons hxy _ ih =>
    constructor
    · rintro x (_ | ⟨_, hx⟩)
      · exact ⟨_, List.mem_cons_self, hxy⟩
      · obtain ⟨y, hy, hr⟩ := ih.1 x hx
        exact ⟨y, List.mem_cons_of_mem _ hy, hr⟩
    · rintro y (_ | ⟨_, hy⟩)
      · exact ⟨_, List.mem_cons_self, hxy⟩
      · obtain ⟨x, hx, hr⟩ := ih.2 y hy
        exact ⟨x, List.mem_cons_of_mem _ hx, hr⟩

/-- A file in which a name does not match is refused. -/
theorem refused_of_altered {obj : Option Json} (h : Altered (itemsOf obj)) :
    ∃ reason, fromJson obj = (.error reason, {}) := by
  rcases fromJson_cases obj with hrefused | ⟨parsed, hparsed, -, -⟩
  · exact hrefused
  · obtain ⟨j, hj, u, c, hu, hc, hname⟩ := h
    obtain ⟨v, -, hv⟩ := (exists_of_forall₂ (mapM_eq_ok.mp hparsed)).1 j hj
    obtain ⟨u', hu', hn, -, hclaimed⟩ := utteranceFromJson_eq_ok hv
    obtain rfl := Except.ok.inj (hu.symm.trans hu')
    exact absurd (hclaimed c hc ▸ hn) hname

/-- A file in which a parent is missing is refused, where different payloads have different
digests. -/
theorem refused_of_incomplete {obj : Option Json} (hsha : Set.InjOn sha256 (payloads (itemsOf obj)))
    (h : Incomplete (itemsOf obj)) : ∃ reason, fromJson obj = (.error reason, {}) := by
  rcases fromJson_cases obj with hrefused | ⟨parsed, hparsed, hall, -⟩
  · exact hrefused
  exfalso
  obtain ⟨j, hj, u, hu, p, hp, habsent⟩ := h
  obtain ⟨hleft, hright⟩ := exists_of_forall₂ (mapM_eq_ok.mp hparsed)
  have ht := taken {} parsed
  generalize ({} : History).receive parsed = r at ht hall
  have hk := ht.adds.filed filed_empty
  obtain ⟨rank, hrank⟩ := hk.graded
  -- whatever is held was read from the file
  have horigin : ∀ {n : Bytes} {w : Utterance}, r.history.byHash[n]? = some w →
      ∃ j' ∈ itemsOf obj, ∃ x, readUtterance j' = .ok x ∧ x.name = .ok n ∧ w.hashed = x.hashed := by
    intro n w hw
    rcases ht.adds.origin hw with hnone | hmem
    · simp at hnone
    · obtain ⟨j', hj', hread⟩ := hright w hmem
      obtain ⟨x, hx, hn, he, -⟩ := utteranceFromJson_eq_ok hread
      exact ⟨j', hj', x, hx, (hk.named hw).1 ▸ hn, by rw [he]; rfl⟩
  obtain ⟨v, hv, hread⟩ := hleft j hj
  obtain ⟨u', hu', -, he, -⟩ := utteranceFromJson_eq_ok hread
  obtain rfl := Except.ok.inj (hu.symm.trans hu')
  rcases ht.placed v hv with hwaits | ⟨hw, hheld⟩
  · have hmem : v ∈ parsed.filter r.history.waits := List.mem_filter.mpr ⟨hv, hwaits⟩
    rw [← ht.unplaceable, hall] at hmem
    cases hmem
  · obtain ⟨w, hget⟩ := Option.isSome_iff_exists.mp
      (Std.ExtTreeMap.isSome_getElem?_iff_mem.mpr hheld)
    obtain ⟨j₁, hj₁, x₁, hx₁, -, hhashed⟩ := horigin hget
    obtain ⟨hwn, hww⟩ := hk.named hget
    have hsame := hww.same hsha (hhashed ▸ ⟨j₁, hj₁, x₁, hx₁, rfl⟩)
      ⟨j, hj, u, hu, by rw [he]; rfl⟩ hw hwn
    have hfollows : r.history.Follows p v.hash := by
      rw [Follows, parentsOf, hget]
      refine (hsame.parents p).mpr ?_
      rw [he]
      exact hp
    obtain ⟨x, hx⟩ := Option.isSome_iff_exists.mp
      (Std.ExtTreeMap.isSome_getElem?_iff_mem.mpr (hrank.parent hfollows))
    obtain ⟨j₂, hj₂, y, hy, hname, -⟩ := horigin hx
    exact habsent j₂ hj₂ y hy hname

/-- **Histories come back from their files.** Every permutation of what a history writes is
read back as that history, with each list of parents sorted and without repetition; a file
with an utterance that does not match its name, or without one of the parents, is refused
and leaves an empty history. -/
theorem comes_back (h : History) (hh : h.Reachable) (hs : ∀ n u, h.get n = some u → Storable u)
    (obj : Option Json) (hsha : Set.InjOn sha256 (payloads (itemsOf obj))) :
    (∀ items, items.Perm h.utterancesJson → (fromJson (some (fileOf items))).1 = .ok () ∧
      Restored h (fromJson (some (fileOf items))).2) ∧
    (Altered (itemsOf obj) ∨ Incomplete (itemsOf obj) →
      (∃ reason, (fromJson obj).1 = .error reason) ∧ (fromJson obj).2 = {}) := by
  refine ⟨fun items hperm => hh.filed.fromJson_perm hs hperm, fun hbad => ?_⟩
  obtain ⟨reason, hreason⟩ : ∃ reason, fromJson obj = (.error reason, {}) :=
    hbad.elim refused_of_altered (refused_of_incomplete hsha)
  rw [hreason]
  exact ⟨⟨reason, rfl⟩, rfl⟩

theorem storable_opens (command : String) (h : (0 : UInt8) ∉ lit command) :
    Storable (opens command) where
  command := h
  verb := by change (0 : UInt8) ∉ lit "rune"; decide
  who := nofun
  group := List.not_mem_nil
  minted := nofun
  seq := by change (0 : Int64).toInt.natAbs ≤ 2 ^ 53; decide

/-- What a run of additions holds can be written when what it was offered can. -/
theorem storable_of_adds {offered : Set Utterance} {k : History} (hk : Adds offered {} k)
    (ho : ∀ u ∈ offered, Storable u) (n : Bytes) (u : Utterance) (hu : k.get n = some u) :
    Storable u := by
  rcases hk.origin hu with hnone | hmem
  · simp at hnone
  · exact ho u hmem

/-- An utterance under the name of another. -/
def misnamed : Json :=
  .obj [(Key.hash, .str (.ofLit "u:0")), (Key.command, .str (.ofLit "rune new a")),
    (Key.verb, .str (.ofLit "rune"))]

theorem comes_back_oneWay :
    (∀ items, items.Perm oneWay.utterancesJson → (fromJson (some (fileOf items))).1 = .ok () ∧
      Restored oneWay (fromJson (some (fileOf items))).2) ∧
    (fromJson (some (fileOf [misnamed]))).2 = {} := by
  have hadds : Adds {opens "rune new a", opens "rune new b"} {} oneWay :=
    .add (.add .refl (Or.inl rfl)) (Or.inr rfl)
  have hstorable : ∀ u ∈ ({opens "rune new a", opens "rune new b"} : Set Utterance), Storable u := by
    rintro u (rfl | rfl)
    · exact storable_opens _ (by decide)
    · exact storable_opens _ (by decide)
  have hread : readUtterance misnamed =
      .ok { command := lit "rune new a", verb := lit "rune" } := by decide +kernel
  have hsha : Set.InjOn sha256 (payloads (itemsOf (some (fileOf [misnamed])))) := by
    have hitems : itemsOf (some (fileOf [misnamed])) = [misnamed] := rfl
    rintro b ⟨j, hj, u, hu, rfl⟩ c ⟨j', hj', v, hv, rfl⟩ -
    rw [hitems, List.mem_singleton] at hj hj'
    subst hj hj'
    rw [Except.ok.inj (hu.symm.trans hv)]
  obtain ⟨hback, hrefused⟩ := comes_back oneWay (hadds.mono (Set.subset_univ _))
    (storable_of_adds hadds hstorable) _ hsha
  refine ⟨hback, (hrefused (Or.inl ⟨_, List.mem_cons_self, _, lit "u:0", hread, rfl, ?_⟩)).2⟩
  decide +kernel

/-- A change that names its one parent twice. -/
def namesTwice : Utterance :=
  { followsFirst with parents := [(opens "rune new a").hash, (opens "rune new a").hash] }

/-- The history of the two. -/
def repeating : History := ((({} : History).add (opens "rune new a")).2.add namesTwice).2

theorem repetition_dropped {u : Utterance} {p : Bytes} (h : u.parents = [p, p]) :
    ¬(stored u).parents.Perm u.parents := by
  intro hperm
  have hone : sortUnique u.parents = [p] := by
    rw [h, sortUnique_congr fun _ => show _ ∈ [p, p] ↔ _ ∈ [p] by simp, sortUnique_singleton]
  have hlength : (sortUnique u.parents).length = u.parents.length := hperm.length_eq
  rw [hone, h] at hlength
  cases hlength

/-- A parent that is named twice is read back once, which is more than another order. -/
theorem repetition_lost : repeating.Reachable ∧
    (∀ n u, repeating.get n = some u → Storable u) ∧
    ∃ u v, repeating.get namesTwice.hash = some u ∧
      (fromJson (some repeating.toJson)).2.get namesTwice.hash = some v ∧
      ¬v.parents.Perm u.parents := by
  have hadds : Adds {opens "rune new a", namesTwice} {} repeating :=
    .add (.add .refl (Or.inl rfl)) (Or.inr rfl)
  have hreachable : repeating.Reachable := hadds.mono (Set.subset_univ _)
  have hstorable := storable_of_adds hadds <| by
    rintro u (rfl | rfl)
    · exact storable_opens _ (by decide)
    · exact ⟨by decide, by decide, nofun, List.not_mem_nil, nofun, by decide⟩
  have hheld : repeating.get namesTwice.hash = some namesTwice := by decide +kernel
  have hback := (hreachable.filed.fromJson_perm hstorable (List.Perm.refl _)).2.content
    namesTwice.hash
  rw [hheld] at hback
  exact ⟨hreachable, hstorable, namesTwice, _, hheld, hback, repetition_dropped rfl⟩

end History

end Utterances

end VoidPalabra
