import VoidPalabra.Lasting

/-!
# Going on with an archive that was read

Its store, its assets and the entries of its saves are the ones that were written, and everything that
is done next depends on these only, but for one thing: a save is skipped when the digest of the
document is that of the last one, and the digests are not in the file. Until an entry is added the
document that was saved last is saved again.
-/

namespace VoidPalabra

open BlockStore

namespace Archive

/-! ### What is done with an archive -/

/-- An operation. -/
inductive Operation where
  /-- `save`. -/
  | save (state : Json) (label : Bytes)
  /-- `put_asset`. -/
  | putAsset (name bytes : Bytes)
  /-- `get_asset`. -/
  | getAsset (name : Bytes)
  /-- `load`. -/
  | load (version : Bytes)
  /-- `load_at`. -/
  | loadAt (index : ℕ)
  /-- `load_latest`. -/
  | loadLatest
  /-- `to_bytes`. -/
  | toBytes

/-- Its result. -/
inductive Answer where
  /-- The name of a cut. -/
  | version (r : Except CanonicalError Bytes)
  /-- Nothing. -/
  | put
  /-- The bytes of an asset. -/
  | asset (r : Option Bytes)
  /-- A document. -/
  | document (r : Except CanonicalError (Option Json))
  /-- A file. -/
  | file (r : Except CanonicalError Bytes)

/-- What an operation answers, and the archive after it; a save that throws has done nothing yet. -/
def perform (a : Archive) : Operation → Answer × Archive
  | .save state label =>
    match a.save state label with
    | .ok (version, a') => (.version (.ok version), a')
    | .error e => (.version (.error e), a)
  | .putAsset name bytes => (.put, a.putAsset name bytes)
  | .getAsset name => (.asset (a.getAsset name), a)
  | .load version => (.document (a.load version), a)
  | .loadAt index => (.document (a.loadAt index), a)
  | .loadLatest => (.document a.loadLatest, a)
  | .toBytes => (.file a.toBytes, a)

/-- Operations one after the other. -/
def performAll : List Operation → Archive → List Answer × Archive
  | [], a => ([], a)
  | op :: rest, a =>
    let now := a.perform op
    let later := performAll rest now.2
    (now.1 :: later.1, later.2)

/-- The operations do the same with both archives. -/
structure SameRun (ops : List Operation) (a b : Archive) : Prop where
  /-- The results. -/
  answers : (performAll ops a).1 = (performAll ops b).1
  /-- The number of saves. -/
  count : (performAll ops a).2.saves.length = (performAll ops b).2.saves.length
  /-- The bytes. -/
  bytes : (performAll ops a).2.toBytes = (performAll ops b).2.toBytes

/-- An archive that was built by saves and assets. -/
inductive Built : Archive → Prop
  /-- A fresh one. -/
  | fresh : Built {}
  /-- A save. -/
  | save {a a' : Archive} {state : Json} {label version : Bytes} (built : Built a)
    (done : a.save state label = .ok (version, a')) : Built a'
  /-- An asset. -/
  | asset {a : Archive} (built : Built a) (name bytes : Bytes) : Built (a.putAsset name bytes)

/-- The document of the last save is saved again; or one whose digest is all zeros, but not both. -/
def SavesAgain (a : Archive) (state : Json) : Prop :=
  ∃ content, contentDigest state (remainderOf state) = .ok content ∧
    a.savedLast content ≠ (!a.saves.isEmpty && content == List.replicate 32 0)

/-- Until an entry is added no document is saved again. -/
def NoneAgain : List Operation → Archive → Prop
  | [], _ => True
  | op :: rest, a =>
    (∀ state label, op = .save state label → ¬ SavesAgain a state) ∧
      ((a.perform op).2.saves.length = a.saves.length → NoneAgain rest (a.perform op).2)

/-! ### Archives that are alike -/

/-- Two saves are the same, their digests and what follows a NUL in the labels apart. -/
structure SameEntry (s t : Save) : Prop where
  /-- The name. -/
  version : s.version = t.version
  /-- The label. -/
  label : CString.ofBytes s.label = CString.ofBytes t.label
  /-- The time. -/
  time : s.when = t.when
  /-- The recipe. -/
  recipe : s.recipe = t.recipe

/-- Two archives are the same, the digests of the saves apart. -/
structure Alike (a b : Archive) : Prop where
  /-- The blocks. -/
  blocks : a.blocks = b.blocks
  /-- The saves. -/
  saves : List.Forall₂ SameEntry a.saves b.saves
  /-- The assets. -/
  assets : a.assets = b.assets

theorem SameEntry.refl (s : Save) : SameEntry s s := ⟨rfl, rfl, rfl, rfl⟩

theorem SameEntry.saveToJson {s t : Save} (h : SameEntry s t) : saveToJson s = saveToJson t := by
  rw [Archive.saveToJson, Archive.saveToJson, h.version, h.label, h.time, h.recipe]

/-- The first match of related lists. -/
theorem find?_of_forall₂ {α : Type} {R : α → α → Prop} {p : α → Bool} (hp : ∀ x y, R x y → p x = p y)
    {xs ys : List α} (h : List.Forall₂ R xs ys) : Option.Rel R (xs.find? p) (ys.find? p) := by
  induction h with
  | nil => exact .none
  | cons hxy _ ih =>
    rw [List.find?_cons, List.find?_cons, hp _ _ hxy]
    split
    · exact .some hxy
    · exact ih

section

variable {a b : Archive} (h : Alike a b)

include h

theorem Alike.length_eq : a.saves.length = b.saves.length := h.saves.length_eq

theorem Alike.toBytes : a.toBytes = b.toBytes := by
  have hsaves : a.saves.map saveToJson = b.saves.map saveToJson :=
    List.forall₂_eq_eq_eq ▸ List.forall₂_map_left_iff.mpr
      (List.forall₂_map_right_iff.mpr (h.saves.imp fun _ _ => SameEntry.saveToJson))
  have hindex : a.index = b.index := by rw [index, index, hsaves, h.assets]
  rw [Archive.toBytes, Archive.toBytes, hindex, h.blocks]

theorem Alike.getAsset (name : Bytes) : a.getAsset name = b.getAsset name := by
  rw [Archive.getAsset, Archive.getAsset, h.blocks, h.assets]

theorem Alike.loadManifest {s t : Save} (hst : SameEntry s t) : a.loadManifest s = b.loadManifest t := by
  rw [Archive.loadManifest, Archive.loadManifest, h.blocks, hst.recipe, hst.version]

theorem Alike.loadAt (i : ℕ) : a.loadAt i = b.loadAt i := by
  have hfound : Option.Rel SameEntry a.saves[i]? b.saves[i]? := by
    by_cases hi : i < a.saves.length
    · have hi' : i < b.saves.length := h.length_eq ▸ hi
      rw [List.getElem?_eq_getElem hi, List.getElem?_eq_getElem hi']
      exact .some (h.saves.get hi hi')
    · rw [List.getElem?_eq_none (by omega), List.getElem?_eq_none (by rw [← h.length_eq]; omega)]
      exact .none
  rw [Archive.loadAt, Archive.loadAt]
  generalize a.saves[i]? = s, b.saves[i]? = t at hfound ⊢
  cases hfound with
  | none => rfl
  | some hst => exact h.loadManifest hst

theorem Alike.isEmpty_eq : a.saves.isEmpty = b.saves.isEmpty := by
  rw [Bool.eq_iff_iff, List.isEmpty_iff_length_eq_zero, List.isEmpty_iff_length_eq_zero, h.length_eq]

theorem Alike.loadLatest : a.loadLatest = b.loadLatest := by
  rw [Archive.loadLatest, Archive.loadLatest, h.isEmpty_eq, h.length_eq, h.loadAt]

theorem Alike.load (version : Bytes) : a.load version = b.load version := by
  have hfound : Option.Rel SameEntry (a.saves.reverse.find? fun s => s.version == version)
      (b.saves.reverse.find? fun s => s.version == version) := by
    refine find?_of_forall₂ (fun s t hst => ?_) (List.forall₂_reverse_iff.mpr h.saves)
    rw [hst.version]
  rw [Archive.load, Archive.load]
  generalize (a.saves.reverse.find? fun s => s.version == version) = s,
    (b.saves.reverse.find? fun s => s.version == version) = t at hfound ⊢
  cases hfound with
  | none => rfl
  | some hst => exact h.loadManifest hst

theorem Alike.putAsset (name bytes : Bytes) : Alike (a.putAsset name bytes) (b.putAsset name bytes) := by
  rw [Archive.putAsset, Archive.putAsset, h.blocks, h.assets]
  exact ⟨rfl, h.saves, rfl⟩

/-- A save that both make. -/
theorem Alike.saved (s : Json) (version label content : Bytes) :
    Alike (a.saved s version label content) (b.saved s version label content) := by
  rw [Archive.saved, Archive.saved, h.blocks, h.assets]
  exact ⟨rfl, List.rel_append h.saves (.cons (.refl _) .nil), rfl⟩

end

/-! ### One operation -/

/-- What `save` computes before it looks at the archive. -/
theorem perform_save {a : Archive} {s : Json} {label version content : Bytes}
    (hversion : versionName s {} = .ok version) (hcontent : contentDigest s (remainderOf s) = .ok content) :
    a.perform (.save s label) =
      (.version (.ok version), if a.savedLast content then a else a.saved s version label content) := by
  have hsave := (@save_eq_ok a _ s label version).mpr ⟨content, hversion, hcontent, rfl⟩
  rw [perform, hsave]

/-- A save that throws does the same with every archive. -/
theorem perform_save_error {s : Json} (hcontent : ∀ content, contentDigest s (remainderOf s) ≠ .ok content)
    (label : Bytes) : ∃ e, ∀ a : Archive, a.perform (.save s label) = (.version (.error e), a) := by
  have herror : ∃ e, ∀ a : Archive, a.save s label = .error e := by
    unfold save
    cases versionName s {} with
    | error e => exact ⟨e, fun _ => rfl⟩
    | ok version =>
      cases hc : contentDigest s (remainderOf s) with
      | error e =>
        refine ⟨e, fun a => ?_⟩
        rw [remainderOf] at hc
        rw [hc]
        rfl
      | ok content => exact absurd hc (hcontent content)
  obtain ⟨e, he⟩ := herror
  exact ⟨e, fun a => by rw [perform, he]⟩

theorem savedLast_saved (a : Archive) (s : Json) (version label content c : Bytes) :
    (a.saved s version label content).savedLast c = (content == c) := by
  rw [savedLast, Archive.saved, List.getLast?_append_of_ne_nil _ (List.cons_ne_nil _ _)]
  rfl

theorem length_saved (a : Archive) (s : Json) (version label content : Bytes) :
    (a.saved s version label content).saves.length = a.saves.length + 1 := by
  rw [Archive.saved, List.length_append]
  rfl

/-- Two archives take the same document for the one that was saved last. -/
def SameLast (a b : Archive) : Prop := ∀ content, a.savedLast content = b.savedLast content

/-- **An operation that is no save, or one that both archives judge alike**, answers the same and leaves
them alike; when it adds an entry they take the same document for the last one after it. -/
theorem Alike.perform {a b : Archive} (h : Alike a b) {op : Operation}
    (hjudge : ∀ s label content, op = .save s label → contentDigest s (remainderOf s) = .ok content →
      a.savedLast content = b.savedLast content) :
    (a.perform op).1 = (b.perform op).1 ∧ Alike (a.perform op).2 (b.perform op).2 ∧
      (((a.perform op).2.saves = a.saves ∧ (b.perform op).2.saves = b.saves) ∨
        (a.perform op).2.saves.length = a.saves.length + 1 ∧ SameLast (a.perform op).2 (b.perform op).2) := by
  cases op with
  | save s label =>
    by_cases hc : ∃ content, contentDigest s (remainderOf s) = .ok content
    · obtain ⟨content, hc⟩ := hc
      obtain ⟨version, hv⟩ := versionName_of_contentDigest hc
      rw [perform_save hv hc, perform_save hv hc, ← hjudge s label content rfl hc]
      cases hlast : a.savedLast content with
      | true => exact ⟨rfl, h, .inl ⟨rfl, rfl⟩⟩
      | false =>
        refine ⟨rfl, h.saved s version label content, .inr ⟨length_saved _ _ _ _ _, fun c => ?_⟩⟩
        exact (savedLast_saved _ _ _ _ _ _).trans (savedLast_saved _ _ _ _ _ _).symm
    · obtain ⟨e, he⟩ := perform_save_error (fun content hcontent => hc ⟨content, hcontent⟩) label
      rw [he, he]
      exact ⟨rfl, h, .inl ⟨rfl, rfl⟩⟩
  | putAsset name bytes => exact ⟨rfl, h.putAsset name bytes, .inl ⟨rfl, rfl⟩⟩
  | getAsset name => exact ⟨congrArg Answer.asset (h.getAsset name), h, .inl ⟨rfl, rfl⟩⟩
  | load version => exact ⟨congrArg Answer.document (h.load version), h, .inl ⟨rfl, rfl⟩⟩
  | loadAt i => exact ⟨congrArg Answer.document (h.loadAt i), h, .inl ⟨rfl, rfl⟩⟩
  | loadLatest => exact ⟨congrArg Answer.document h.loadLatest, h, .inl ⟨rfl, rfl⟩⟩
  | toBytes => exact ⟨congrArg Answer.file h.toBytes, h, .inl ⟨rfl, rfl⟩⟩

/-! ### A run of operations -/

theorem sameRun_cons {op : Operation} {rest : List Operation} {a b : Archive} :
    SameRun (op :: rest) a b ↔
      (a.perform op).1 = (b.perform op).1 ∧ SameRun rest (a.perform op).2 (b.perform op).2 := by
  constructor
  · intro h
    obtain ⟨hnow, hlater⟩ := List.cons.inj h.answers
    exact ⟨hnow, hlater, h.count, h.bytes⟩
  · rintro ⟨hnow, h⟩
    exact ⟨congrArg₂ List.cons hnow h.answers, h.count, h.bytes⟩

theorem SameLast.of_saves {a b a' b' : Archive} (h : SameLast a b) (ha : a'.saves = a.saves)
    (hb : b'.saves = b.saves) : SameLast a' b' := by
  intro c
  have hc := h c
  rw [savedLast, savedLast] at hc ⊢
  rw [ha, hb, hc]

/-- Alike archives with the same last document stay so. -/
theorem Alike.sameRun {a b : Archive} (h : Alike a b) (hlast : SameLast a b) (ops : List Operation) :
    SameRun ops a b := by
  induction ops generalizing a b with
  | nil => exact ⟨rfl, h.length_eq, h.toBytes⟩
  | cons op rest ih =>
    obtain ⟨hnow, halike, hsaves⟩ := h.perform fun s label content (_ : op = .save s label) _ => hlast content
    refine sameRun_cons.mpr ⟨hnow, ih halike ?_⟩
    rcases hsaves with ⟨ha, hb⟩ | ⟨-, hnew⟩
    · exact hlast.of_saves ha hb
    · exact hnew

/-- Only a save changes the saves. -/
theorem saves_perform (a : Archive) {op : Operation} (h : ∀ s label, op ≠ .save s label) :
    (a.perform op).2.saves = a.saves := by
  cases op with
  | save s label => exact absurd rfl (h s label)
  | _ => rfl

/-- Archives with the same last document get the same number of entries from then on. -/
theorem count_of_sameLast {a b : Archive} (h : SameLast a b) (ops : List Operation) :
    (performAll ops a).2.saves.length + b.saves.length = (performAll ops b).2.saves.length + a.saves.length := by
  induction ops generalizing a b with
  | nil => exact Nat.add_comm _ _
  | cons op rest ih =>
    have hstep : SameLast (a.perform op).2 (b.perform op).2 ∧
        (a.perform op).2.saves.length + b.saves.length = (b.perform op).2.saves.length + a.saves.length := by
      by_cases hop : ∃ s label content, op = .save s label ∧ contentDigest s (remainderOf s) = .ok content
      · obtain ⟨s, label, content, rfl, hc⟩ := hop
        obtain ⟨version, hv⟩ := versionName_of_contentDigest hc
        rw [perform_save hv hc, perform_save hv hc, ← h content]
        cases hlast : a.savedLast content with
        | true => exact ⟨h, Nat.add_comm _ _⟩
        | false =>
          refine ⟨fun c => (savedLast_saved _ _ _ _ _ _).trans (savedLast_saved _ _ _ _ _ _).symm, ?_⟩
          have ha := length_saved a s version label content
          have hb := length_saved b s version label content
          simp only [Bool.false_eq_true, if_false]
          omega
      · have hsame : ∀ x : Archive, (x.perform op).2.saves = x.saves := by
          intro x
          by_cases hs : ∃ s label, op = .save s label
          · obtain ⟨s, label, rfl⟩ := hs
            obtain ⟨e, he⟩ := perform_save_error (fun c hc => hop ⟨s, label, c, rfl, hc⟩) label
            rw [he]
          · exact saves_perform x fun s label hop => hs ⟨s, label, hop⟩
        exact ⟨h.of_saves (hsame a) (hsame b), by rw [hsame, hsame]; exact Nat.add_comm _ _⟩
    have hlater := ih hstep.1
    change (performAll rest (a.perform op).2).2.saves.length + _ =
      (performAll rest (b.perform op).2).2.saves.length + _
    omega

/-- An archive with a document saved last, and one where it is saved just now. -/
theorem sameLast_saved {a : Archive} {content : Bytes} (ha : a.savedLast content = true) (b : Archive)
    (s : Json) (version label : Bytes) : SameLast a (b.saved s version label content) := by
  intro c
  rw [savedLast_saved]
  rw [savedLast] at ha ⊢
  cases hlast : a.saves.getLast? with
  | none =>
    rw [hlast] at ha
    cases ha
  | some sv =>
    rw [hlast] at ha
    rw [Option.any_some, beq_iff_eq] at ha
    rw [Option.any_some, ha]

/-- The digests of the saves of an archive that was read are all zeros. -/
def Undigested (a : Archive) : Prop :=
  ∀ content, a.savedLast content = (!a.saves.isEmpty && content == List.replicate 32 0)

theorem Undigested.of_saves {a a' : Archive} (h : Undigested a) (ha : a'.saves = a.saves) : Undigested a' := by
  intro c
  have hc := h c
  rw [savedLast] at hc ⊢
  rw [ha, hc]

/-- One of two alike archives has no digests: they do the same exactly when no document is saved again. -/
theorem Alike.sameRun_iff {a b : Archive} (h : Alike a b) (hb : Undigested b) (ops : List Operation) :
    SameRun ops a b ↔ NoneAgain ops a := by
  induction ops generalizing a b with
  | nil => exact ⟨fun _ => trivial, fun _ => ⟨rfl, h.length_eq, h.toBytes⟩⟩
  | cons op rest ih =>
    by_cases hagain : ∃ s label, op = .save s label ∧ SavesAgain a s
    · obtain ⟨s, label, rfl, content, hc, hjudge⟩ := hagain
      refine iff_of_false (fun hsame => ?_) fun hnone => hnone.1 s label rfl ⟨content, hc, hjudge⟩
      obtain ⟨version, hv⟩ := versionName_of_contentDigest hc
      -- One of them adds an entry, and then both have the same last document.
      rw [h.isEmpty_eq, ← hb content] at hjudge
      have hcount := hsame.count
      change (performAll rest (a.perform _).2).2.saves.length =
        (performAll rest (b.perform _).2).2.saves.length at hcount
      rw [perform_save hv hc, perform_save hv hc] at hcount
      have hlen := h.length_eq
      cases hla : a.savedLast content with
      | true =>
        have hlb : b.savedLast content = false := by simpa [hla] using hjudge
        rw [hla, hlb] at hcount
        simp only [if_true, Bool.false_eq_true, if_false] at hcount
        have hruns := count_of_sameLast (sameLast_saved hla b s version label) rest
        rw [length_saved] at hruns
        omega
      | false =>
        have hlb : b.savedLast content = true := by simpa [hla] using hjudge
        rw [hla, hlb] at hcount
        simp only [if_true, Bool.false_eq_true, if_false] at hcount
        have hruns := count_of_sameLast (sameLast_saved hlb a s version label) rest
        rw [length_saved] at hruns
        omega
    · have hjudge : ∀ s label content, op = .save s label → contentDigest s (remainderOf s) = .ok content →
          a.savedLast content = b.savedLast content := by
        intro s label content hop hc
        by_contra hne
        exact hagain ⟨s, label, hop, content, hc, by rwa [h.isEmpty_eq, ← hb content]⟩
      obtain ⟨hnow, halike, hsaves⟩ := h.perform hjudge
      have hfirst : ∀ s label, op = .save s label → ¬ SavesAgain a s :=
        fun s label hop hs => hagain ⟨s, label, hop, hs⟩
      rw [sameRun_cons, NoneAgain]
      rcases hsaves with ⟨ha, hb'⟩ | ⟨hadded, hnew⟩
      · rw [ih halike (hb.of_saves hb')]
        exact ⟨fun hsame => ⟨hfirst, fun _ => hsame.2⟩, fun hnone => ⟨hnow, hnone.2 (by rw [ha])⟩⟩
      · exact ⟨fun _ => ⟨hfirst, fun hsame => by omega⟩, fun _ => ⟨hnow, halike.sameRun hnew rest⟩⟩

/-! ### The archive that is read -/

/-- What an archive that was built is. -/
structure Sound (a : Archive) : Prop where
  /-- The blocks. -/
  blocks : a.blocks.ContentAddressed
  /-- The saves. -/
  saves : ∀ s ∈ a.saves, Plain s.version ∧ s.when = 0 ∧ Digests s.recipe
  /-- The assets. -/
  assets : ∀ (name : Bytes) r, a.assets[name]? = some r → Digests r

theorem Sound.saved {a : Archive} (h : Sound a) {s : Json} {version : Bytes}
    (hversion : versionName s {} = .ok version) (label content : Bytes) :
    Sound (a.saved s version label content) := by
  refine ⟨h.blocks.putAll _, fun sv hsv => ?_, h.assets⟩
  rcases List.mem_append.mp hsv with hsv | hsv
  · exact h.saves sv hsv
  · obtain rfl := List.mem_singleton.mp hsv
    exact ⟨plain_versionName hversion, rfl, digests_map_sha256 _⟩

theorem Sound.putAsset {a : Archive} (h : Sound a) (name bytes : Bytes) : Sound (a.putAsset name bytes) := by
  refine ⟨h.blocks.putAll _, h.saves, fun n r hr => ?_⟩
  rw [Archive.putAsset, Std.ExtTreeMap.getElem?_insert] at hr
  split at hr
  · cases hr
    rw [storeBlob, putAll_fst]
    exact digests_map_sha256 _
  · exact h.assets n r hr

theorem Built.sound {a : Archive} (h : Built a) : Sound a := by
  induction h with
  | fresh =>
    refine ⟨contentAddressed_empty, fun s hs => (by cases hs), fun name r h => ?_⟩
    rw [Std.ExtTreeMap.getElem?_empty] at h
    cases h
  | save _ done ih =>
    obtain ⟨content, hversion, -, rfl⟩ := save_eq_ok.mp done
    split
    · exact ih
    · exact ih.saved hversion _ _
  | asset _ name bytes ih => exact ih.putAsset name bytes

/-- What of a label is written. -/
def Save.trimmed (s : Save) : Save := { s with label := (CString.ofBytes s.label).bytes }

/-- The archive with the labels that are written. -/
def trimmed (a : Archive) : Archive := { a with saves := a.saves.map Save.trimmed }

theorem sameEntry_trimmed (s : Save) : SameEntry s (Save.trimmed s) :=
  ⟨rfl, (CString.ofBytes_bytes _).symm, rfl, rfl⟩

theorem alike_trimmed (a : Archive) : Alike a a.trimmed :=
  ⟨rfl, List.forall₂_map_right_iff.mpr (List.forall₂_same.mpr fun s _ => sameEntry_trimmed s), rfl⟩

/-- An archive that can be written is held by its file, what follows a NUL in a label apart. -/
theorem Sound.writable {a : Archive} (h : Sound a) (hnames : ∀ name ∈ a.assets, (0 : UInt8) ∉ name)
    (hform : HasForm a.index) : Writable a.trimmed := by
  obtain ⟨hmembers, -⟩ := hasForm_obj.mp hform
  simp only [List.forall_mem_cons] at hmembers
  obtain ⟨-, ⟨-, hsaves⟩, ⟨-, hassets⟩, -⟩ := hmembers
  have hname : ∀ (name : Bytes) r, a.assets[name]? = some r → (0 : UInt8) ∉ name := fun name r hr =>
    hnames name (Std.ExtTreeMap.mem_iff_isSome_getElem?.mpr (by rw [hr]; rfl))
  refine ⟨h.blocks, fun s hs => ?_, fun name r hr => ⟨⟨?_, ?_⟩, h.assets name r hr⟩⟩
  · obtain ⟨s, hmem, rfl⟩ := List.mem_map.mp hs
    obtain ⟨hversion, hwhen, hrecipe⟩ := h.saves s hmem
    obtain ⟨hmembers, -⟩ := hasForm_obj.mp (hasForm_arr.mp hsaves _ (List.mem_map_of_mem hmem))
    simp only [List.forall_mem_cons] at hmembers
    refine ⟨hversion, ⟨(CString.ofBytes s.label).noNul, hasForm_str.mp hmembers.2.1.2⟩, ?_, hrecipe⟩
    rw [Save.trimmed, hwhen]
    decide
  · exact hname name r hr
  · have hmem : (name, r) ∈ a.assets.toList := Std.ExtTreeMap.mem_toList_iff_getElem?_eq_some.mpr hr
    have hutf := ((hasForm_obj.mp hassets).1 _ (List.mem_map_of_mem hmem)).1
    rwa [show (CString.ofBytes name).bytes = name from
      congrArg CString.bytes (CString.ofBytes_bytes ⟨name, hname name r hr⟩)] at hutf

theorem undigested_asRead {a b : Archive} (h : b.saves = a.saves.map Save.asRead) : Undigested b := by
  intro content
  rw [savedLast, h, List.getLast?_map]
  cases hsaves : a.saves.getLast? with
  | none =>
    rw [List.getLast?_eq_none_iff.mp hsaves]
    rfl
  | some s =>
    have hne : a.saves ≠ [] := by
      rintro he
      rw [he] at hsaves
      cases hsaves
    rw [Option.map_some, Option.any_some, List.isEmpty_map, List.isEmpty_eq_false_iff.mpr hne, Bool.not_false,
      Bool.true_and]
    exact Bool.beq_comm

/-- **What is read is alike**, without the digests. -/
theorem Sound.reopened {a : Archive} (h : Sound a) (hnames : ∀ name ∈ a.assets, (0 : UInt8) ∉ name)
    {bytes : Bytes} (hb : a.toBytes = .ok bytes) (hlen : bytes.length < sizeT) :
    (fromBytes bytes {}).1 = true ∧ Alike a (fromBytes bytes {}).2 ∧ Undigested (fromBytes bytes {}).2 := by
  have hform : HasForm a.index := by
    obtain ⟨doc, hdoc, -⟩ := bind_eq_ok.mp hb
    exact ⟨doc, hdoc⟩
  have htrim := alike_trimmed a
  have hread := (h.writable hnames hform).fromBytes_toBytes (htrim.toBytes ▸ hb) hlen
  rw [hread]
  refine ⟨rfl, ⟨rfl, ?_, rfl⟩, undigested_asRead rfl⟩
  refine List.forall₂_map_right_iff.mpr (htrim.saves.imp fun s t hst => ?_)
  exact ⟨hst.version, hst.label, hst.time, hst.recipe⟩

end Archive

open Archive

/-! ### One save that is read -/

/-- An archive with one save that is written. -/
structure WrittenRed (a : Archive) (content bytes : Bytes) : Prop where
  /-- It was built. -/
  built : Built a
  /-- It has no assets. -/
  names : ∀ name ∈ a.assets, (0 : UInt8) ∉ name
  /-- The digest of the last save. -/
  last : ∀ c, a.savedLast c = (content == c)
  /-- There is a save. -/
  saves : a.saves.isEmpty = false
  /-- The digest of the state. -/
  digest : contentDigest (painted red) (remainderOf (painted red)) = .ok content
  /-- The digest of another one. -/
  other : ∃ c, contentDigest bare (remainderOf bare) = .ok c ∧ c ≠ content ∧ c ≠ List.replicate 32 0
  /-- It is not all zeros. -/
  nonzero : content ≠ List.replicate 32 0
  /-- The file. -/
  written : a.toBytes = .ok bytes
  /-- It fits. -/
  fits : bytes.length < sizeT

theorem exists_writtenRed : ∃ a content bytes, WrittenRed a content bytes := by
  have hversion : versionName (painted red) {} = .ok ((versionName (painted red) {}).toOption.getD []) := by
    decide +kernel
  have hcontent : contentDigest (painted red) (remainderOf (painted red)) =
      .ok ((contentDigest (painted red) (remainderOf (painted red))).toOption.getD []) := by decide +kernel
  have hother : contentDigest bare (remainderOf bare) =
      .ok ((contentDigest bare (remainderOf bare)).toOption.getD []) := by decide +kernel
  have hfile : ((Archive.saved {} (painted red) ((versionName (painted red) {}).toOption.getD []) []
      ((contentDigest (painted red) (remainderOf (painted red))).toOption.getD [])).toBytes.toOption.any
        fun b => decide (b.length < sizeT)) = true := by decide +kernel
  generalize hwritten : (Archive.saved {} (painted red) ((versionName (painted red) {}).toOption.getD []) []
    ((contentDigest (painted red) (remainderOf (painted red))).toOption.getD [])).toBytes = r at hfile
  cases r with
  | error e => cases hfile
  | ok bytes =>
    refine ⟨_, _, bytes, .save .fresh (save_eq_ok.mpr ⟨_, hversion, hcontent, rfl⟩), fun name h => ?_,
      fun c => savedLast_saved _ _ _ _ _ _, rfl, hcontent, ⟨_, hother, by decide +kernel, by decide +kernel⟩,
      by decide +kernel, hwritten, of_decide_eq_true hfile⟩
    exact absurd h Std.ExtTreeMap.not_mem_empty

/-- **An archive that was read goes on like the one that was written exactly when** no document is saved
again before an entry was added: for every archive that was built by saves and assets, whose names have
no NUL, and every sequence of operations. -/
theorem reopened_sameRun_iff {a : Archive} (hbuilt : Built a) (hnames : ∀ name ∈ a.assets, (0 : UInt8) ∉ name)
    {bytes : Bytes} (hb : a.toBytes = .ok bytes) (hlen : bytes.length < sizeT) (ops : List Operation) :
    (fromBytes bytes {}).1 = true ∧ (SameRun ops a (fromBytes bytes {}).2 ↔ NoneAgain ops a) := by
  obtain ⟨hread, halike, hzero⟩ := hbuilt.sound.reopened hnames hb hlen
  exact ⟨hread, halike.sameRun_iff hzero ops⟩

/-- Another document is saved after the archive was read. -/
theorem reopened_goes_on : ∃ a bytes, a.toBytes = .ok bytes ∧
    SameRun [.loadLatest, .save bare []] a (fromBytes bytes {}).2 := by
  obtain ⟨a, content, bytes, h⟩ := exists_writtenRed
  refine ⟨a, bytes, h.written,
    (reopened_sameRun_iff h.built h.names h.written h.fits [.loadLatest, .save bare []]).2.mpr ?_⟩
  refine ⟨fun _ _ he => (by cases he), fun _ => ⟨fun s label he => ?_, fun _ => trivial⟩⟩
  cases he
  rintro ⟨c, hc, hjudge⟩
  obtain ⟨c', hc', hne, hzero⟩ := h.other
  rw [hc'] at hc
  cases hc
  rw [show (a.perform .loadLatest).2 = a from rfl, h.last, h.saves, beq_eq_false_iff_ne.mpr (Ne.symm hne),
    beq_eq_false_iff_ne.mpr hzero] at hjudge
  exact hjudge rfl

/-- The latest document is saved again after the archive was read. -/
theorem reopened_saves_again : ∃ a bytes, Built a ∧ a.toBytes = .ok bytes ∧ bytes.length < sizeT ∧
    ¬ SameRun [.save (painted red) []] a (fromBytes bytes {}).2 := by
  obtain ⟨a, content, bytes, h⟩ := exists_writtenRed
  refine ⟨a, bytes, h.built, h.written, h.fits, fun hsame => ?_⟩
  obtain ⟨-, halike, hzero⟩ := h.built.sound.reopened h.names h.written h.fits
  refine ((halike.sameRun_iff hzero _).mp hsame).1 (painted red) [] rfl ⟨content, h.digest, ?_⟩
  rw [h.last, h.saves, beq_self_eq_true, beq_eq_false_iff_ne.mpr h.nonzero]
  decide

end VoidPalabra
