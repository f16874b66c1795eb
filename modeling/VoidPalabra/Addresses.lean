import VoidPalabra.Repeats

/-!
# What an address is an address of

Every address is the digest of a header and a payload. The header says the version of
the encoding, the kind of thing addressed and the policy it was encoded under, and ends
with a NUL byte, so that it is read off the front of what was hashed.
-/

namespace VoidPalabra

/-- What `domain_digest` hashes: the header, its terminator and the payload. -/
def domainBytes (kind : String) (payload policyTag : Bytes) : Bytes :=
  lit "voidpalabra/v" ++ decimal kCanonVersion ++ lit "/" ++ lit kind ++ lit "/" ++
    policyTag ++ [0] ++ payload

theorem domainDigest_eq (kind : String) (payload policyTag : Bytes) :
    domainDigest kind payload policyTag = sha256 (domainBytes kind payload policyTag) := rfl

/-- `rune_digest`. -/
def runeDigest (rune : Json) (policy : SlicePolicy) : Except CanonicalError Bytes := do
  let payload ← canonRune policy rune
  pure (domainDigest "rune" payload policy.tag)

/-- `mantle_digest`. -/
def mantleDigest (mantle : Json) (policy : SlicePolicy) : Except CanonicalError Bytes := do
  let payload ← canonMantle policy mantle
  pure (domainDigest "mantle" payload policy.tag)

/-- `slice_digest`. -/
def sliceDigest (state : Json) (policy : SlicePolicy) : Except CanonicalError Bytes := do
  let payload ← canonSlice state policy
  pure (domainDigest "slice" payload policy.tag)

/-- What stands before the first occurrence of a terminator is read off the front. -/
theorem terminated_inj {c : UInt8} : ∀ {a b p q : Bytes}, c ∉ a → c ∉ b →
    a ++ c :: p = b ++ c :: q → a = b ∧ p = q
  | [], [], _, _, _, _, h => ⟨rfl, (List.cons.inj h).2⟩
  | [], _ :: _, _, _, _, hb, h => absurd (List.cons.inj h).1 (List.ne_of_not_mem_cons hb)
  | _ :: _, [], _, _, ha, _, h => absurd (List.cons.inj h).1.symm (List.ne_of_not_mem_cons ha)
  | x :: a, y :: b, _, _, ha, hb, h => by
    obtain ⟨hxy, hrest⟩ := List.cons.inj h
    obtain ⟨hab, hpq⟩ := terminated_inj (List.not_mem_of_not_mem_cons ha)
      (List.not_mem_of_not_mem_cons hb) hrest
    exact ⟨by rw [hxy, hab], hpq⟩

/-- A header is read off the front of what was hashed: its kind ends at the separator and
its policy at the terminator. -/
theorem domainBytes_inj {k l : String} {s t p q : Bytes} (hk : (0x2F : UInt8) ∉ lit k)
    (hl : (0x2F : UInt8) ∉ lit l) (hs : 0 ∉ s) (ht : 0 ∉ t)
    (h : domainBytes k p s = domainBytes l q t) : lit k = lit l ∧ s = t ∧ p = q := by
  have hslash : lit "/" = [0x2F] := by decide
  simp only [domainBytes, hslash, List.append_assoc, List.append_cancel_left_eq,
    List.cons_append, List.nil_append, List.cons.injEq, true_and] at h
  obtain ⟨hkl, hrest⟩ := terminated_inj hk hl h
  obtain ⟨hst, hpq⟩ := terminated_inj hs ht hrest
  exact ⟨hkl, hst, hpq⟩

/-- The kinds of address, each with the policy its payload depends on. -/
inductive Domain
  /-- A rune. -/
  | rune (policy : SlicePolicy)
  /-- A mantle. -/
  | mantle (policy : SlicePolicy)
  /-- A slice. -/
  | slice (policy : SlicePolicy)
  /-- An utterance. -/
  | utterance
  /-- A cut. -/
  | cut
  /-- A conflict. -/
  | conflict
  /-- An anomaly. -/
  | anomaly
  /-- A violation of a link rule. -/
  | violation

/-- The kind a header names. -/
def Domain.kind : Domain → String
  | rune _ => "rune"
  | mantle _ => "mantle"
  | slice _ => "slice"
  | utterance => "utterance"
  | cut => "cut"
  | conflict => "conflict"
  | anomaly => "anomaly"
  | violation => "violation"

/-- The policy a header names, which most kinds leave empty. -/
def Domain.policyTag : Domain → Bytes
  | rune policy => policy.tag
  | mantle policy => policy.tag
  | slice policy => policy.tag
  | _ => []

/-- What is hashed for an address. -/
def Domain.hashed (d : Domain) (payload : Bytes) : Bytes :=
  domainBytes d.kind payload d.policyTag

/-- The kinds the code names. -/
def kinds : List String :=
  ["rune", "mantle", "slice", "utterance", "cut", "conflict", "anomaly", "violation"]

theorem kind_mem (d : Domain) : d.kind ∈ kinds := by
  cases d <;> simp [Domain.kind, kinds]

theorem kinds_separated : ∀ k ∈ kinds, (0x2F : UInt8) ∉ lit k := by decide +kernel

theorem kinds_distinct : ∀ k ∈ kinds, ∀ l ∈ kinds, lit k = lit l → k = l := by decide +kernel

theorem SlicePolicy.tag_inj {p q : SlicePolicy} (h : p.tag = q.tag) : p = q := by
  rcases p with ⟨_ | _⟩ <;> rcases q with ⟨_ | _⟩
  · rfl
  · exact absurd h (by decide)
  · exact absurd h (by decide)
  · rfl

theorem policyTag_terminated (d : Domain) : 0 ∉ d.policyTag := by
  have htag : ∀ p : SlicePolicy, 0 ∉ p.tag := by
    rintro ⟨_ | _⟩ <;> decide
  cases d with
  | rune p => exact htag p
  | mantle p => exact htag p
  | slice p => exact htag p
  | _ => exact List.not_mem_nil

theorem Domain.ext_of {d e : Domain} (hk : d.kind = e.kind) (ht : d.policyTag = e.policyTag) :
    d = e := by
  cases d <;> cases e <;>
    first
    | rfl
    | exact congrArg _ (SlicePolicy.tag_inj ht)
    | exact absurd hk (by simp [Domain.kind])

/-- **What is hashed says what it is.** Its kind, policy and payload are read off it. -/
theorem hashed_eq_iff {d e : Domain} {p q : Bytes} :
    d.hashed p = e.hashed q ↔ d = e ∧ p = q := by
  constructor
  · intro h
    obtain ⟨hk, ht, hp⟩ := domainBytes_inj (kinds_separated _ (kind_mem d))
      (kinds_separated _ (kind_mem e)) (policyTag_terminated d) (policyTag_terminated e) h
    exact ⟨Domain.ext_of (kinds_distinct _ (kind_mem d) _ (kind_mem e) hk) ht, hp⟩
  · rintro ⟨rfl, rfl⟩
    rfl

/-- The addresses of a rune, a mantle, a slice and a conflict, through their domains. -/
theorem digests_eq (policy : SlicePolicy) (j : Json) (c : Conflict) :
    runeDigest j policy = (canonRune policy j).map (fun b => sha256 ((Domain.rune policy).hashed b)) ∧
      mantleDigest j policy =
        (canonMantle policy j).map (fun b => sha256 ((Domain.mantle policy).hashed b)) ∧
      sliceDigest j policy =
        (canonSlice j policy).map (fun b => sha256 ((Domain.slice policy).hashed b)) ∧
      c.hash = (encode (conflictToJson c)).map (fun b => sha256 (Domain.conflict.hashed b)) :=
  ⟨rfl, rfl, rfl, rfl⟩

end VoidPalabra
