import VoidPalabra.Bytes
import VoidPalabra.Disk

/-!
# Writing an archive to a file

The bytes are written to a temporary beside the file, which then takes its place. The file is
removed before that, for there are systems that do not rename onto a file; nothing is at the
path until the renaming.
-/

namespace VoidPalabra

open Storage

/-- `describe_errno`; the text of the error comes from the system. -/
def describeErrno (what : String) (path : CString) (e : Bytes) : Bytes :=
  lit what ++ lit " '" ++ path.bytes ++ lit "': " ++ e

/-- The name of the temporary. -/
def tmpOf (path : CString) : CString := path ++ .ofLit ".tmp"

/-- A program of `write_file`; its result is the text left in `error`. -/
abbrev FileProg := Prog CString UInt8 Bytes (Except Bytes Unit)

/-- The end of `write_file` when something failed: the temporary is removed. -/
def giveUp (path : CString) (why : Bytes) : FileProg := .ask (.remove (tmpOf path)) fun _ => .done (.error why)

/-- The end of `write_file` when the bytes are in the temporary. -/
def replaceFile (path : CString) : FileProg :=
  .ask (.remove path) fun _ =>
    .ask (.rename (tmpOf path) path) fun
      | .ok () => .done (.ok ())
      | .error e => giveUp path (describeErrno "cannot rename onto" path e)

/-- The middle of `write_file`: the stream is flushed and closed. -/
def flushFile (path : CString) : FileProg :=
  .ask .flush fun
    | .ok () => .ask .close fun _ => replaceFile path
    | .error e => .ask .close fun _ => giveUp path (describeErrno "cannot flush" (tmpOf path) e)

/-- `Archive::write_file`, with the bytes of the archive. -/
def writeFile (bytes : Bytes) (path : CString) : FileProg :=
  .ask (.create (tmpOf path)) fun
    | .error e => .done (.error (describeErrno "cannot create" (tmpOf path) e))
    | .ok () =>
      if bytes.isEmpty then flushFile path
      else
        .ask (.write bytes) fun
          | .ok () => flushFile path
          | .error e => .ask .close fun _ => giveUp path (describeErrno "cannot write" (tmpOf path) e)

/-- The disk and the events of a run of `write_file`. -/
abbrev FileDisk := Disk CString UInt8

/-- An event of a run of `write_file`. -/
abbrev FileEvent := Event CString UInt8 Bytes

/-- What holds of a run that never loses the archive: at every point there is what was there before
or the new bytes, and the result says which. -/
structure NeverLost (path : CString) (prior : Option Bytes) (bytes : Bytes) (d : FileDisk)
    (t : List FileEvent) (r : Option (Except Bytes Unit)) : Prop where
  /-- At every point. -/
  points : ∀ x ∈ points d t, x.files path = prior ∨ x.files path = some bytes
  /-- After a failure. -/
  failed : ∀ why, r = some (.error why) → (left d t).files path = prior
  /-- After a success. -/
  succeeded : r = some (.ok ()) → (left d t).files path = some bytes

/-- The file at the path is removed. -/
def Removes (path : CString) (x : FileEvent) : Prop := x.op = .remove path ∧ x.report = .ok ()

variable {path : CString} {prior : Option Bytes} {bytes : Bytes} {d : FileDisk} {t : List FileEvent}
  {r : Option (Except Bytes Unit)}

theorem tmpOf_ne (path : CString) : path ≠ tmpOf path := by
  intro h
  have hlen := congrArg (fun s : CString => s.bytes.length) h
  simp [tmpOf, CString.ofLit, lit] at hlen

/-! ### One step after the other -/

/-- A run does not lose the archive exactly when it does not remove the file, which it cannot when
there is none. -/
structure Exact (path : CString) (prior : Option Bytes) (bytes : Bytes) (d : FileDisk) (t : List FileEvent)
    (r : Option (Except Bytes Unit)) : Prop where
  /-- What a run loses. -/
  iff : NeverLost path prior bytes d t r ↔ ∀ x ∈ t, ¬Removes path x
  /-- What cannot be removed. -/
  absent : prior = none → ∀ x ∈ t, ¬Removes path x

/-- A run that is over, and did not succeed. -/
theorem exact_nil (hd : d.files path = prior) (hr : r ≠ some (.ok ())) : Exact path prior bytes d [] r := by
  have hnone : ∀ x ∈ ([] : List FileEvent), ¬Removes path x := fun _ h => (nomatch h)
  refine ⟨⟨fun _ => hnone, fun _ => ⟨?_, fun _ _ => hd, fun h => absurd h hr⟩⟩, fun _ => hnone⟩
  intro x hx
  rw [List.mem_singleton.mp hx]
  exact Or.inl hd

/-- One step more that leaves the file alone. -/
theorem exact_cons {x : FileEvent} (hd : d.files path = prior) (hn : ¬Removes path x)
    (ht : Exact path prior bytes x.disk t r) : Exact path prior bytes d (x :: t) r := by
  have hsame : NeverLost path prior bytes d (x :: t) r ↔ NeverLost path prior bytes x.disk t r := by
    constructor
    · rintro ⟨hp, hf, hs⟩
      rw [left_cons] at hf hs
      exact ⟨fun y hy => hp y (List.mem_cons_of_mem _ hy), hf, hs⟩
    · rintro ⟨hp, hf, hs⟩
      refine ⟨?_, by rwa [left_cons], by rwa [left_cons]⟩
      intro y hy
      rcases List.mem_cons.mp hy with rfl | hy
      · exact Or.inl hd
      · exact hp y hy
  constructor
  · rw [hsame, ht.iff, List.forall_mem_cons]
    exact (and_iff_right hn).symm
  · intro hprior
    exact List.forall_mem_cons.mpr ⟨hn, ht.absent hprior⟩

/-- The file takes its new content, and nothing failed. -/
theorem exact_replaced {x : FileEvent} (hd : d.files path = prior) (hx : x.disk.files path = some bytes)
    (hn : ¬Removes path x) (hr : r = none ∨ r = some (.ok ())) : Exact path prior bytes d [x] r := by
  have hnever : NeverLost path prior bytes d [x] r := by
    refine ⟨?_, ?_, fun _ => hx⟩
    · intro y hy
      rcases List.mem_cons.mp hy with rfl | hy
      · exact Or.inl hd
      · rw [List.mem_singleton.mp hy]
        exact Or.inr hx
    · rintro why rfl
      rcases hr with hr | hr <;> cases hr
  have hkept : ∀ y ∈ [x], ¬Removes path y := List.forall_mem_singleton.mpr hn
  exact ⟨⟨fun _ => hkept, fun _ => hnever⟩, fun _ => hkept⟩

/-- The file is removed. -/
theorem exact_removed {x : FileEvent} (hprior : prior ≠ none) (hx : x.disk.files path = none)
    (hr : Removes path x) : Exact path prior bytes d (x :: t) r := by
  refine ⟨⟨fun hn => ?_, fun hn => absurd hr (hn x (List.mem_cons_self ..))⟩, fun h => absurd h hprior⟩
  rcases hn.points x.disk (List.mem_cons_of_mem _ (List.mem_cons_self ..)) with h | h
  · exact absurd (h.symm.trans hx) hprior
  · rw [hx] at h
    cases h

/-! ### The parts of the program -/

theorem exact_giveUp {why : Bytes} (hd : d.files path = prior) (hr : Runs (giveUp path why) d t r) :
    Exact path prior bytes d t r := by
  rcases hr.of_ask with ⟨rfl, rfl⟩ | ⟨report, d₁, t₁, hdoes, rfl, h₁⟩
  · exact exact_nil hd nofun
  · obtain ⟨rfl, hresult⟩ := h₁.of_done
    have hd₁ : d₁.files path = prior := (hdoes.spares (tmpOf_ne path)).trans hd
    refine exact_cons hd ?_ (exact_nil hd₁ ?_)
    · rintro ⟨hop, -⟩
      injection hop with hop
      exact tmpOf_ne path hop.symm
    · rcases hresult with rfl | rfl <;> nofun

theorem exact_replaceFile (hd : d.files path = prior) (htmp : d.files (tmpOf path) = some bytes)
    (hr : Runs (replaceFile path) d t r) : Exact path prior bytes d t r := by
  rcases hr.of_ask with ⟨rfl, rfl⟩ | ⟨report, d₁, t₁, hdoes, rfl, h₁⟩
  · exact exact_nil hd nofun
  cases hdoes with
  | removed hp =>
    refine exact_removed ?_ (d.put_self path none) ⟨rfl, rfl⟩
    rw [← hd, hp]
    exact Option.some_ne_none _
  | notRemoved e =>
    refine exact_cons hd (fun h => (nomatch h.2)) ?_
    rcases h₁.of_ask with ⟨rfl, rfl⟩ | ⟨report, d₂, t₂, hdoes, rfl, h₂⟩
    · exact exact_nil hd nofun
    cases hdoes with
    | renamed hp =>
      obtain ⟨rfl, hresult⟩ := h₂.of_done
      rw [htmp] at hp
      exact exact_replaced hd (by rw [Disk.put_self, hp]) (fun h => (nomatch h.1)) hresult
    | notRenamed e => exact exact_cons hd (fun h => (nomatch h.2)) (exact_giveUp hd h₂)

/-- The stream is not one on the file. -/
theorem spares_of_stream {w : Bytes} (hs : d.stream = some (tmpOf path, w)) : ∀ s ∈ d.stream, path ≠ s.1 := by
  intro s hm
  rw [hs] at hm
  cases hm
  exact tmpOf_ne path

/-- Closing a stream on the temporary when something failed. -/
theorem exact_closeAndGiveUp {why w : Bytes} (hd : d.files path = prior)
    (hs : d.stream = some (tmpOf path, w)) (hr : Runs (.ask .close fun _ => giveUp path why) d t r) :
    Exact path prior bytes d t r := by
  rcases hr.of_ask with ⟨rfl, rfl⟩ | ⟨report, d₁, t₁, hdoes, rfl, h₁⟩
  · exact exact_nil hd nofun
  · have hd₁ : d₁.files path = prior := (hdoes.spares (spares_of_stream hs)).trans hd
    exact exact_cons hd (fun h => (nomatch h.1)) (exact_giveUp hd₁ h₁)

/-- What was handed on in full stays so when the stream is closed. -/
theorem closed_content {p : CString} {w : Bytes} {report : Except Bytes Unit} {d' : FileDisk}
    (hs : d.stream = some (p, w)) (hp : d.files p = some w) (h : Does .close d report d') :
    d'.files p = some w := by
  have hpasses : ∀ {p' : CString} {w' handed : Bytes} {d'' : FileDisk}, d.stream = some (p', w') →
      Passes d p' w' handed d'' → d''.files p = some w := by
    intro p' w' handed d'' hs' hpass
    obtain ⟨rfl, rfl⟩ : p' = p ∧ w' = w := by
      rw [hs] at hs'
      cases hs'
      exact ⟨rfl, rfl⟩
    obtain ⟨content, hcontent, hbefore⟩ := hpass.before
    obtain rfl : content = w' := Option.some.inj (hcontent.symm.trans hp)
    have hall : handed = content := hpass.ordered.eq_of_length_le hbefore.length_le
    rw [hpass.files, Disk.put_self, hall]
  cases h with
  | closed hs' hpass =>
    have hfile := hpasses hs' hpass
    exact hfile
  | notClosed e hs' hpass =>
    have hfile := hpasses hs' hpass
    exact hfile

theorem exact_flushFile (hd : d.files path = prior) (hs : d.stream = some (tmpOf path, bytes))
    (hr : Runs (flushFile path) d t r) : Exact path prior bytes d t r := by
  rcases hr.of_ask with ⟨rfl, rfl⟩ | ⟨report, d₁, t₁, hdoes, rfl, h₁⟩
  · exact exact_nil hd nofun
  have hd₁ : d₁.files path = prior := (hdoes.spares (spares_of_stream hs)).trans hd
  refine exact_cons hd (fun h => (nomatch h.1)) ?_
  cases hdoes with
  | flushed hs' hpass =>
    cases hs.symm.trans hs'
    have htmp : d₁.files (tmpOf path) = some bytes := by rw [hpass.files, Disk.put_self]
    rcases h₁.of_ask with ⟨rfl, rfl⟩ | ⟨report, d₂, t₂, hdoes, rfl, h₂⟩
    · exact exact_nil hd₁ nofun
    have hd₂ : d₂.files path = prior := (hdoes.spares (spares_of_stream hpass.stream)).trans hd₁
    exact exact_cons hd₁ (fun h => (nomatch h.1))
      (exact_replaceFile hd₂ (closed_content hpass.stream htmp hdoes) h₂)
  | notFlushed e hs' hpass =>
    cases hs.symm.trans hs'
    exact exact_closeAndGiveUp hd₁ hpass.stream h₁

theorem exact_writeFile (hr : Runs (writeFile bytes path) d t r) :
    Exact path (d.files path) bytes d t r := by
  rcases hr.of_ask with ⟨rfl, rfl⟩ | ⟨report, d₁, t₁, hdoes, rfl, h₁⟩
  · exact exact_nil rfl nofun
  have hd₁ : d₁.files path = d.files path := hdoes.spares (tmpOf_ne path)
  refine exact_cons rfl (fun h => (nomatch h.1)) ?_
  cases hdoes with
  | notCreated e =>
    obtain ⟨rfl, hresult⟩ := h₁.of_done
    exact exact_nil rfl (by rcases hresult with rfl | rfl <;> nofun)
  | created =>
    have hstream : ({ d.put (tmpOf path) (some []) with stream := some (tmpOf path, []) } : FileDisk).stream =
        some (tmpOf path, []) := rfl
    dsimp only at h₁
    split_ifs at h₁ with hempty
    · obtain rfl : bytes = [] := List.isEmpty_iff.mp hempty
      exact exact_flushFile hd₁ hstream h₁
    · rcases h₁.of_ask with ⟨rfl, rfl⟩ | ⟨report, d₂, t₂, hdoes, rfl, h₂⟩
      · exact exact_nil hd₁ nofun
      have hd₂ : d₂.files path = d.files path := (hdoes.spares (spares_of_stream hstream)).trans hd₁
      refine exact_cons hd₁ (fun h => (nomatch h.1)) ?_
      cases hdoes with
      | written hs' hpass =>
        cases hstream.symm.trans hs'
        exact exact_flushFile hd₂ hpass.stream h₂
      | notWritten e hs' hn hpass =>
        cases hstream.symm.trans hs'
        exact exact_closeAndGiveUp hd₂ hpass.stream h₂

/-! ### What may be lost -/

/-- A stream hands on everything. -/
theorem passes_all {p : CString} {content w : Bytes} (hp : d.files p = some content) (hc : content <+: w) :
    Passes d p w w ⟨(d.put p (some w)).files, some (p, w)⟩ :=
  ⟨⟨content, hp, hc⟩, List.prefix_refl w, rfl, rfl⟩

/-- A run may come to the removal of a file that is there. -/
theorem exists_removes {content : Bytes} (hd : d.files path = some content) :
    ∃ t, Runs (writeFile bytes path) d t none ∧ ∃ x ∈ t, Removes path x := by
  -- From the flush on, the temporary and its stream are all that matters.
  have hflush : ∀ (d : FileDisk) (handed : Bytes), d.files path = some content →
      d.files (tmpOf path) = some handed → handed <+: bytes → d.stream = some (tmpOf path, bytes) →
      ∃ t, Runs (flushFile path) d t none ∧ ∃ x ∈ t, Removes path x := by
    intro d handed hd htmp hprefix hs
    have hflushed := passes_all htmp hprefix
    have hclosed := passes_all (d := ⟨(d.put (tmpOf path) (some bytes)).files, some (tmpOf path, bytes)⟩)
      (d.put_self (tmpOf path) (some bytes)) (List.prefix_refl bytes)
    refine ⟨_, .ask (.flushed hs hflushed) (.ask (.closed rfl hclosed)
      (.ask (@Does.removed _ _ _ _ _ _ content ?_) .interrupted)), _,
      List.mem_cons_of_mem _ (List.mem_cons_of_mem _ (List.mem_cons_self ..)), rfl, rfl⟩
    change Function.update (Function.update d.files _ _) _ _ path = _
    rw [Function.update_of_ne (tmpOf_ne path), Function.update_of_ne (tmpOf_ne path), hd]
  have hcreated : (d.put (tmpOf path) (some [])).files path = some content := by
    rw [d.put_other (tmpOf_ne path), hd]
  by_cases hempty : bytes.isEmpty = true
  · obtain ⟨t, ht, x, hx, hr⟩ := hflush { d.put (tmpOf path) (some []) with stream := some (tmpOf path, []) } []
      hcreated (d.put_self _ _) List.nil_prefix (by rw [List.isEmpty_iff.mp hempty])
    exact ⟨_, .ask .created (by dsimp only; rwa [if_pos hempty]), x, List.mem_cons_of_mem _ hx, hr⟩
  · have hwritten := passes_all (d := { d.put (tmpOf path) (some []) with stream := some (tmpOf path, []) })
      (d.put_self _ _) (List.nil_prefix (l := bytes))
    obtain ⟨t, ht, x, hx, hr⟩ := hflush
      ⟨(({ d.put (tmpOf path) (some []) with stream := some (tmpOf path, []) } : FileDisk).put (tmpOf path)
        (some bytes)).files, some (tmpOf path, bytes)⟩ bytes
      ((Disk.put_other _ (tmpOf_ne path) _).trans hcreated) (Disk.put_self _ _ _) (List.prefix_refl _) rfl
    refine ⟨_, .ask .created (by
      dsimp only
      rw [if_neg hempty]
      exact .ask (.written rfl hwritten) ht), x, List.mem_cons_of_mem _ (List.mem_cons_of_mem _ hx), hr⟩

theorem writeFile_neverLost_iff (bytes : Bytes) (path : CString) (d : FileDisk) :
    (∀ t r, Runs (writeFile bytes path) d t r →
      (NeverLost path (d.files path) bytes d t r ↔ ∀ x ∈ t, ¬Removes path x)) ∧
    ((∀ t r, Runs (writeFile bytes path) d t r → NeverLost path (d.files path) bytes d t r) ↔
      d.files path = none) := by
  refine ⟨fun t r hr => (exact_writeFile hr).iff, ⟨?_, ?_⟩⟩
  · intro hsafe
    cases hd : d.files path with
    | none => rfl
    | some content =>
      obtain ⟨t, hr, x, hx, hremoves⟩ := @exists_removes _ bytes _ _ hd
      exact absurd hremoves ((exact_writeFile hr).iff.mp (hsafe t none hr) x hx)
  · intro hd t r hr
    exact (exact_writeFile hr).iff.mpr ((exact_writeFile hr).absent hd)

/-- A disk with an archive on it. -/
def oldDisk : FileDisk := ⟨fun p => if p = .ofLit "a.vpal" then some (lit "old") else none, none⟩

/-- The archive is written over, and the run is interrupted between the removal and the renaming. -/
theorem writeFile_loses : ¬∀ t r, Runs (writeFile (lit "new") (.ofLit "a.vpal")) oldDisk t r →
    NeverLost (.ofLit "a.vpal") (some (lit "old")) (lit "new") oldDisk t r := by
  intro hsafe
  have hold : oldDisk.files (.ofLit "a.vpal") = some (lit "old") := rfl
  obtain ⟨t, hr, x, hx, hremoves⟩ := @exists_removes _ (lit "new") _ _ hold
  have hexact := exact_writeFile hr
  rw [hold] at hexact
  exact hexact.iff.mp (hsafe t none hr) x hx hremoves

end VoidPalabra
