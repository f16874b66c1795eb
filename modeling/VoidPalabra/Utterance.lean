import VoidPalabra.Addresses

/-!
# Utterances

A change and what it follows, and the address that both have together. Its sequence
number and its own address are not part of what is hashed, and its parents and the ids it
minted are sets.
-/

namespace VoidPalabra

/-- `Utterance`. -/
structure Utterance where
  /-- `"u:"` and the digest in hex, once it is sealed. -/
  hash : Bytes := []
  /-- The addresses of what it follows. -/
  parents : List Bytes := []
  /-- The canonical line. -/
  command : Bytes
  /-- The canonical verb. -/
  verb : Bytes
  /-- Who said it. -/
  who : Bytes := []
  /-- Whether anyone did. -/
  hasWho : Bool := false
  /-- The ids that came into being. -/
  minted : List Bytes := []
  /-- A label for people; empty for none. -/
  group : Bytes := []
  /-- The number in the journal it came from. -/
  seq : Int64 := 0
  deriving DecidableEq

/-- `encoded_or_null`. -/
def encodedOrNull (present : Bool) (s : Bytes) : Except CanonicalError Bytes :=
  if present then encodeStr s else .ok [0x00]

/-- `encoded_each`. -/
def encodedEach : List Bytes → Except CanonicalError (List Bytes)
  | [] => .ok []
  | s :: items => do
    let s ← encodeStr s
    let items ← encodedEach items
    pure (s :: items)

namespace Utterance

/-- The payload of `Utterance::digest`. -/
def payload (u : Utterance) : Except CanonicalError Bytes := do
  let command ← encodeStr u.command
  let verb ← encodeStr u.verb
  let who ← encodedOrNull u.hasWho u.who
  let group ← encodedOrNull (!u.group.isEmpty) u.group
  let parents ← encodedEach u.parents
  let minted ← encodedEach u.minted
  encodeMapOfEncoded [(lit "command", command), (lit "verb", verb), (lit "who", who),
    (lit "group", group), (lit "parents", encodeSet parents), (lit "minted", encodeSet minted)]

/-- `Utterance::digest`. -/
def digest (u : Utterance) : Except CanonicalError Bytes := do
  let payload ← u.payload
  pure (domainDigest "utterance" payload [])

/-- `Utterance::name`. -/
def name (u : Utterance) : Except CanonicalError Bytes := do
  let digest ← u.digest
  pure (lit "u:" ++ hexBytes digest)

/-- `Utterance::seal`. -/
def sealed (u : Utterance) : Except CanonicalError Utterance := do
  let u := { u with parents := sortUnique u.parents }
  let hash ← u.name
  pure { u with hash := hash }

/-! ### When there is an address -/

/-- Every string that is hashed is text. -/
structure Valid (u : Utterance) : Prop where
  /-- Its command. -/
  command : validUtf8 u.command = true
  /-- Its verb. -/
  verb : validUtf8 u.verb = true
  /-- Who said it, if anyone. -/
  who : u.hasWho = true → validUtf8 u.who = true
  /-- Its label. -/
  group : validUtf8 u.group = true
  /-- Its parents. -/
  parents : ∀ p ∈ u.parents, validUtf8 p = true
  /-- The ids it minted. -/
  minted : ∀ m ∈ u.minted, validUtf8 m = true

/-- A value that may be absent, without its check. -/
def orNull (present : Bool) (s : Bytes) : Bytes := if present then strBytes s else [0x00]

/-- The six fields with their names encoded, without their checks. -/
def fields (u : Utterance) : List (Bytes × Bytes) :=
  [(strBytes (lit "command"), strBytes u.command), (strBytes (lit "verb"), strBytes u.verb),
    (strBytes (lit "who"), orNull u.hasWho u.who),
    (strBytes (lit "group"), orNull (!u.group.isEmpty) u.group),
    (strBytes (lit "parents"), encodeSet (u.parents.map strBytes)),
    (strBytes (lit "minted"), encodeSet (u.minted.map strBytes))]

/-- What is hashed for an utterance. -/
def hashed (u : Utterance) : Bytes := Domain.utterance.hashed (mapBytes (sortPairs u.fields))

end Utterance

theorem encodedEach_eq_ok {items : List Bytes} : ∀ {bs : List Bytes},
    encodedEach items = .ok bs ↔ (∀ s ∈ items, validUtf8 s = true) ∧ bs = items.map strBytes := by
  induction items with
  | nil =>
    intro bs
    refine ⟨fun h => ⟨by simp, (Except.ok.inj h).symm⟩, fun h => ?_⟩
    rw [h.2]
    rfl
  | cons s items ih =>
    intro bs
    simp only [encodedEach, bind_eq_ok, encodeStr_eq_ok, ih, pure_eq_ok, List.forall_mem_cons,
      List.map_cons]
    constructor
    · rintro ⟨_, ⟨hs, rfl⟩, _, ⟨hitems, rfl⟩, rfl⟩
      exact ⟨⟨hs, hitems⟩, rfl⟩
    · rintro ⟨⟨hs, hitems⟩, rfl⟩
      exact ⟨_, ⟨hs, rfl⟩, _, ⟨hitems, rfl⟩, rfl⟩

theorem encodedOrNull_eq_ok {present : Bool} {s b : Bytes} :
    encodedOrNull present s = .ok b ↔
      (present = true → validUtf8 s = true) ∧ b = Utterance.orNull present s := by
  cases present with
  | false =>
    refine ⟨fun h => ⟨nofun, (Except.ok.inj h).symm⟩, fun h => ?_⟩
    rw [h.2]
    rfl
  | true => simp [encodedOrNull, Utterance.orNull, encodeStr_eq_ok]

/-- Names that are text are encoded with their values as they are. -/
theorem encodeKeys_of_text : ∀ {fields : List (Bytes × Bytes)},
    (∀ f ∈ fields, validUtf8 f.1 = true) →
      encodeKeys fields = .ok (fields.map fun f => (strBytes f.1, f.2))
  | [], _ => rfl
  | f :: fields, h => by
    obtain ⟨hf, hfields⟩ := List.forall_mem_cons.mp h
    exact bind_eq_ok.mpr ⟨_, encodeStr_eq_ok.mpr ⟨hf, rfl⟩,
      bind_eq_ok.mpr ⟨_, encodeKeys_of_text hfields, rfl⟩⟩

namespace Utterance

theorem names_text : ∀ n ∈ ["command", "verb", "who", "group", "parents", "minted"].map lit,
    validUtf8 n = true := by decide +kernel

/-- The names of the six fields are text. -/
theorem encodeMapOfEncoded_fields (c v w g p m : Bytes) :
    encodeMapOfEncoded [(lit "command", c), (lit "verb", v), (lit "who", w), (lit "group", g),
        (lit "parents", p), (lit "minted", m)] =
      .ok (mapBytes (sortPairs [(strBytes (lit "command"), c), (strBytes (lit "verb"), v),
        (strBytes (lit "who"), w), (strBytes (lit "group"), g), (strBytes (lit "parents"), p),
        (strBytes (lit "minted"), m)])) :=
  bind_eq_ok.mpr ⟨_, encodeKeys_of_text fun f hf =>
    names_text f.1 (@List.mem_map_of_mem _ _ _ f Prod.fst hf), rfl⟩

theorem group_text {u : Utterance} :
    ((!u.group.isEmpty) = true → validUtf8 u.group = true) ↔ validUtf8 u.group = true := by
  refine ⟨fun h => ?_, fun h _ => h⟩
  cases hg : u.group with
  | nil => rfl
  | cons c g => exact hg ▸ h (by simp [hg])

/-- An utterance has a payload when its strings are text, and then it is its six fields. -/
theorem payload_eq_ok {u : Utterance} {b : Bytes} :
    u.payload = .ok b ↔ u.Valid ∧ b = mapBytes (sortPairs u.fields) := by
  unfold payload
  constructor
  · intro h
    obtain ⟨_, hc, h⟩ := bind_eq_ok.mp h
    obtain ⟨_, hv, h⟩ := bind_eq_ok.mp h
    obtain ⟨_, hw, h⟩ := bind_eq_ok.mp h
    obtain ⟨_, hg, h⟩ := bind_eq_ok.mp h
    obtain ⟨_, hp, h⟩ := bind_eq_ok.mp h
    obtain ⟨_, hm, h⟩ := bind_eq_ok.mp h
    obtain ⟨command, rfl⟩ := encodeStr_eq_ok.mp hc
    obtain ⟨verb, rfl⟩ := encodeStr_eq_ok.mp hv
    obtain ⟨who, rfl⟩ := encodedOrNull_eq_ok.mp hw
    obtain ⟨group, rfl⟩ := encodedOrNull_eq_ok.mp hg
    obtain ⟨parents, rfl⟩ := encodedEach_eq_ok.mp hp
    obtain ⟨minted, rfl⟩ := encodedEach_eq_ok.mp hm
    rw [encodeMapOfEncoded_fields] at h
    exact ⟨⟨command, verb, who, group_text.mp group, parents, minted⟩, (Except.ok.inj h).symm⟩
  · rintro ⟨h, rfl⟩
    refine bind_eq_ok.mpr ⟨_, encodeStr_eq_ok.mpr ⟨h.command, rfl⟩, ?_⟩
    refine bind_eq_ok.mpr ⟨_, encodeStr_eq_ok.mpr ⟨h.verb, rfl⟩, ?_⟩
    refine bind_eq_ok.mpr ⟨_, encodedOrNull_eq_ok.mpr ⟨h.who, rfl⟩, ?_⟩
    refine bind_eq_ok.mpr ⟨_, encodedOrNull_eq_ok.mpr ⟨group_text.mpr h.group, rfl⟩, ?_⟩
    refine bind_eq_ok.mpr ⟨_, encodedEach_eq_ok.mpr ⟨h.parents, rfl⟩, ?_⟩
    refine bind_eq_ok.mpr ⟨_, encodedEach_eq_ok.mpr ⟨h.minted, rfl⟩, ?_⟩
    exact encodeMapOfEncoded_fields _ _ _ _ _ _

/-- An address is the digest of what is hashed. -/
theorem digest_eq_ok {u : Utterance} {d : Bytes} :
    u.digest = .ok d ↔ u.Valid ∧ d = sha256 u.hashed := by
  constructor
  · intro h
    obtain ⟨b, hb, hd⟩ := bind_eq_ok.mp h
    obtain ⟨hu, rfl⟩ := payload_eq_ok.mp hb
    exact ⟨hu, (Except.ok.inj hd).symm⟩
  · rintro ⟨hu, rfl⟩
    exact bind_eq_ok.mpr ⟨_, payload_eq_ok.mpr ⟨hu, rfl⟩, rfl⟩

theorem name_eq_ok {u : Utterance} {n : Bytes} :
    u.name = .ok n ↔ u.Valid ∧ n = lit "u:" ++ hexBytes (sha256 u.hashed) := by
  constructor
  · intro h
    obtain ⟨d, hd, hn⟩ := bind_eq_ok.mp h
    obtain ⟨hu, rfl⟩ := digest_eq_ok.mp hd
    exact ⟨hu, (Except.ok.inj hn).symm⟩
  · rintro ⟨hu, rfl⟩
    exact bind_eq_ok.mpr ⟨_, digest_eq_ok.mpr ⟨hu, rfl⟩, rfl⟩

/-! ### What an address says -/

/-- Two utterances that say the same happened after the same. -/
structure Same (u v : Utterance) : Prop where
  /-- Their commands. -/
  command : u.command = v.command
  /-- Their verbs. -/
  verb : u.verb = v.verb
  /-- Whether anyone said it. -/
  hasWho : u.hasWho = v.hasWho
  /-- Who did. -/
  who : u.hasWho = true → u.who = v.who
  /-- Their labels. -/
  group : u.group = v.group
  /-- Their parents, as a set. -/
  parents : ∀ p, p ∈ u.parents ↔ p ∈ v.parents
  /-- The ids they minted, as a set. -/
  minted : ∀ m, m ∈ u.minted ↔ m ∈ v.minted

theorem coded_orNull (present : Bool) (s : Bytes) : Coded Increasing (orNull present s) := by
  unfold orNull
  split
  · exact .str s
  · exact .atom (by decide)

theorem coded_strings (xs : List Bytes) : Coded Increasing (encodeSet (xs.map strBytes)) :=
  .set (List.forall_mem_map.mpr fun s _ => .str s)

theorem coded_fields (u : Utterance) :
    ∀ f ∈ u.fields, (∃ k, f.1 = strBytes k) ∧ Coded Increasing f.2 := by
  simp only [fields, List.forall_mem_cons, List.not_mem_nil, false_implies, implies_true, and_true]
  exact ⟨⟨⟨_, rfl⟩, .str _⟩, ⟨⟨_, rfl⟩, .str _⟩, ⟨⟨_, rfl⟩, coded_orNull _ _⟩,
    ⟨⟨_, rfl⟩, coded_orNull _ _⟩, ⟨⟨_, rfl⟩, coded_strings _⟩, ⟨⟨_, rfl⟩, coded_strings _⟩⟩

theorem fields_names (u : Utterance) : u.fields.map Prod.fst =
    (["command", "verb", "who", "group", "parents", "minted"].map lit).map strBytes := rfl

theorem fields_names_nodup (u : Utterance) : (u.fields.map Prod.fst).Nodup := by
  rw [fields_names]
  exact List.Nodup.map strBytes_injective (by decide +kernel)

theorem orNull_inj {p q : Bool} {s t : Bytes} :
    orNull p s = orNull q t ↔ p = q ∧ (p = true → s = t) := by
  have hne : ∀ r : Bytes, strBytes r ≠ [0x00] := by simp [strBytes]
  cases p <;> cases q <;> simp [orNull, strBytes_injective.eq_iff, hne, (hne _).symm]

theorem encodeSet_strings_inj {xs ys : List Bytes} :
    encodeSet (xs.map strBytes) = encodeSet (ys.map strBytes) ↔ ∀ s, s ∈ xs ↔ s ∈ ys := by
  rw [@encodeSet_inj Increasing Increasing _ _ (List.forall_mem_map.mpr fun s _ => .str s)
    (List.forall_mem_map.mpr fun s _ => .str s)]
  constructor
  · intro h s
    simpa [strBytes_injective.eq_iff] using h (strBytes s)
  · intro h b
    simp [h]

/-- The payload says what the utterance says. -/
theorem payload_inj {u v : Utterance} :
    mapBytes (sortPairs u.fields) = mapBytes (sortPairs v.fields) ↔ u.fields = v.fields := by
  refine ⟨fun h => ?_, fun h => by rw [h]⟩
  have hsorted : ∀ w : Utterance, ∀ f ∈ sortPairs w.fields,
      (∃ k, f.1 = strBytes k) ∧ Coded Increasing f.2 :=
    fun w f hf => coded_fields w f ((Sorting.sortOn_perm _ _).mem_iff.mp hf)
  have hpairs := Coded.map_inj (hsorted u) (hsorted v) h
  have hperm : u.fields.Perm v.fields :=
    (Sorting.sortOn_perm Prod.fst u.fields).symm.trans
      ((List.Perm.of_eq hpairs).trans (Sorting.sortOn_perm Prod.fst v.fields))
  exact pairs_eq_of_perm (by rw [fields_names, fields_names]) (fields_names_nodup u) hperm

theorem fields_eq_iff {u v : Utterance} : u.fields = v.fields ↔ u.Same v := by
  have hgroup : (!u.group.isEmpty) = (!v.group.isEmpty) ∧
      ((!u.group.isEmpty) = true → u.group = v.group) ↔ u.group = v.group := by
    refine ⟨fun h => ?_, fun h => by simp [h]⟩
    cases hu : u.group with
    | nil =>
      cases hv : v.group with
      | nil => rfl
      | cons c g => simp [hu, hv] at h
    | cons c g => exact hu ▸ h.2 (by simp [hu])
  simp only [fields, List.cons.injEq, Prod.mk.injEq, true_and, and_true,
    strBytes_injective.eq_iff, orNull_inj, hgroup, encodeSet_strings_inj]
  constructor
  · rintro ⟨hc, hv, ⟨hh, hw⟩, hg, hp, hm⟩
    exact ⟨hc, hv, hh, hw, hg, hp, hm⟩
  · intro h
    exact ⟨h.command, h.verb, ⟨h.hasWho, h.who⟩, h.group, h.parents, h.minted⟩

/-- What is hashed for two utterances is the same when they say the same. -/
theorem hashed_inj {u v : Utterance} : u.hashed = v.hashed ↔ u.Same v := by
  rw [hashed, hashed, hashed_eq_iff, payload_inj, fields_eq_iff]
  simp

/-- Sealing an utterance sorts its parents, which says the same, and names it. -/
theorem sealed_eq_ok {u w : Utterance} : u.sealed = .ok w ↔
    u.Valid ∧ w = { u with
      parents := sortUnique u.parents, hash := lit "u:" ++ hexBytes (sha256 u.hashed) } := by
  have hsame : ({ u with parents := sortUnique u.parents } : Utterance).Same u :=
    ⟨rfl, rfl, rfl, fun _ => rfl, rfl, fun _ => mem_sortUnique, fun _ => Iff.rfl⟩
  have hvalid : ({ u with parents := sortUnique u.parents } : Utterance).Valid ↔ u.Valid :=
    ⟨fun h => ⟨h.command, h.verb, h.who, h.group,
        fun p hp => h.parents p (mem_sortUnique.mpr hp), h.minted⟩,
      fun h => ⟨h.command, h.verb, h.who, h.group,
        fun p hp => h.parents p (mem_sortUnique.mp hp), h.minted⟩⟩
  have hname : ({ u with parents := sortUnique u.parents } : Utterance).name =
      .ok (lit "u:" ++ hexBytes (sha256 u.hashed)) ↔ u.Valid := by
    rw [name_eq_ok, hvalid, hashed_inj.mpr hsame]
    simp
  constructor
  · intro h
    obtain ⟨n, hn, hw⟩ := bind_eq_ok.mp h
    obtain ⟨hu, rfl⟩ := name_eq_ok.mp hn
    rw [hashed_inj.mpr hsame] at hw
    exact ⟨hvalid.mp hu, (Except.ok.inj hw).symm⟩
  · rintro ⟨hu, rfl⟩
    exact bind_eq_ok.mpr ⟨_, hname.mpr hu, rfl⟩

/-- **Names are exact.** Two utterances whose strings are text are hashed, their hashed
bytes are equal when they say that the same happened after the same, and what is hashed
under one kind or policy is never what is hashed under another. -/
theorem hashed_exact (u v : Utterance) (hu : u.Valid) (hv : v.Valid) :
    u.digest = .ok (sha256 u.hashed) ∧ v.digest = .ok (sha256 v.hashed) ∧
      (u.hashed = v.hashed ↔ u.Same v) ∧
      (∃ p, u.payload = .ok p ∧ u.hashed = Domain.utterance.hashed p) ∧
      ∀ (d e : Domain) (p q : Bytes), d ≠ e → d.hashed p ≠ e.hashed q :=
  ⟨digest_eq_ok.mpr ⟨hu, rfl⟩, digest_eq_ok.mpr ⟨hv, rfl⟩, hashed_inj,
    ⟨_, payload_eq_ok.mpr ⟨hu, rfl⟩, rfl⟩, fun _ _ _ _ hne h => hne (hashed_eq_iff.mp h).1⟩

/-- A move after two others. -/
def move : Utterance where
  command := lit "rune move a b"
  verb := lit "rune"
  parents := [lit "u:1", lit "u:2"]

/-- The same with its parents repeated and in another order, numbered by another peer. -/
def moveElsewhere : Utterance :=
  { move with parents := [lit "u:2", lit "u:1", lit "u:2"], seq := 7 }

/-- The same, said by the empty actor. -/
def moveByEmpty : Utterance := { move with hasWho := true }

/-- The strings of the three are text. -/
theorem move_valid : move.Valid ∧ moveElsewhere.Valid ∧ moveByEmpty.Valid := by
  have hcommand : validUtf8 move.command = true := by decide +kernel
  have hverb : validUtf8 move.verb = true := by decide +kernel
  have hempty : validUtf8 [] = true := rfl
  have hparents : ∀ p ∈ move.parents, validUtf8 p = true := by decide +kernel
  have helse : ∀ p ∈ moveElsewhere.parents, validUtf8 p = true := by decide +kernel
  exact ⟨⟨hcommand, hverb, nofun, hempty, hparents, nofun⟩,
    ⟨hcommand, hverb, nofun, hempty, helse, nofun⟩,
    ⟨hcommand, hverb, fun _ => hempty, hempty, hparents, nofun⟩⟩

theorem hashed_exact_move :
    (move.hashed = moveElsewhere.hashed) ∧ ¬ moveElsewhere.hashed = moveByEmpty.hashed := by
  obtain ⟨hmove, helse, hempty⟩ := move_valid
  constructor
  · refine (hashed_exact _ _ hmove helse).2.2.1.mpr ⟨rfl, rfl, rfl, nofun, rfl, fun p => ?_,
      fun _ => Iff.rfl⟩
    simp only [move, moveElsewhere, List.mem_cons, List.not_mem_nil, or_false]
    tauto
  · intro h
    exact absurd ((hashed_exact _ _ helse hempty).2.2.1.mp h).hasWho (by decide)

end Utterance

end VoidPalabra
