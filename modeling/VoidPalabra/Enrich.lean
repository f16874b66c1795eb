import VoidPalabra.Observe
import VoidPalabra.Digest
import VoidPalabra.Numerals

/-!
# A state becomes a document

`enrich` turns a state into a document in which every thing that is present has one tag
and every value one register of its own. The tags come from a mint, and only the number
of tags handed out so far is kept between two of them.
-/

namespace VoidPalabra

/-- `Mint`: a source of unique tags, none of them empty. -/
structure Mint where
  /-- The tags, in the order of handing out. -/
  tag : ℕ → Tag
  /-- No tag is handed out twice. -/
  distinct : Function.Injective tag
  /-- No tag is the empty text. -/
  named : ∀ n, (tag n).isEmpty = false

/-- An enrichment under way: how many tags the mint has handed out. -/
abbrev EnrichM := StateT ℕ (Except CanonicalError)

/-- `Mint::next`. -/
def Mint.next (mint : Mint) : EnrichM Tag := fun n => .ok (mint.tag n, n + 1)

/-- A conversion that may refuse, as a step of an enrichment. -/
def EnrichM.lift {α : Type} (x : Except CanonicalError α) : EnrichM α := fun n => do
  let v ← x
  pure (v, n)

/-- A loop that gathers what its rounds make. -/
def enrichEach {α β : Type} (f : α → EnrichM β) : List α → EnrichM (List β)
  | [] => pure []
  | x :: rest => do
    let y ← f x
    let ys ← enrichEach f rest
    pure (y :: ys)

section

variable (mint : Mint)

/-- A set with one add. -/
def enrichOne (value : Except CanonicalError Bytes) : EnrichM Json := do
  let tag ← mint.next
  let bytes ← EnrichM.lift value
  pure (orsetToJson (OrSet.empty.add tag bytes))

/-- `add_field`. -/
def addField (f : CString × Option Json) : EnrichM (CString × Json) := do
  let reg ← enrichOne mint (asText f.2)
  pure (f.1, reg)

/-- The loop over a rune's tags and over a mantle's edges: each item is one add. -/
def addValues : List Json → OrSet → EnrichM OrSet
  | [], s => pure s
  | v :: rest, s => do
    let tag ← mint.next
    let bytes ← EnrichM.lift (asText (some v))
    addValues rest (s.add tag bytes)

/-- The registers of an optional member: one, or none for its default. -/
def unlessDefault (k : CString) (v : Option Json) : List (CString × Option Json) :=
  match nonDefault v with
  | some v => [(k, some v)]
  | none => []

/-- The registers of a rune, in the order in which they are written. -/
def runeRegisters (r : Json) : List (CString × Option Json) :=
  [(Key.spiritName, get (r.get Key.spirit) Key.name), (Key.glyph, r.get Key.glyph)] ++
    kFacets.map (fun k => (Key.facetsDot ++ k, get (r.get Key.facets) k)) ++
    (match r.get Key.content with
      | some c => c.child.map fun m => (Key.contentDot ++ m.1.getD .empty, some m.2)
      | none => []) ++
    [(Key.placement, r.get Key.placement)] ++
    unlessDefault Key.relations (r.get Key.relations)

/-- The registers of a mantle, in the order in which they are written. -/
def mantleRegisters (m : Json) : List (CString × Option Json) :=
  [(Key.id, m.get Key.id), (Key.domain, m.get Key.domain)] ++
    (childMembers (m.get Key.tags)).map (fun t => (Key.tagsDot ++ t.1, some t.2)) ++
    unlessDefault Key.rules (m.get Key.rules)

/-- The rune of a state; one without an identity is passed over. -/
def enrichRune (r : Json) : EnrichM (List (CString × Json)) :=
  match runeId r with
  | none => pure []
  | some id => do
    let present ← enrichOne mint (.ok (lit "1"))
    let fields ← enrichEach (addField mint) (runeRegisters r)
    let tags ← addValues mint (childValues (r.get Key.tags)) .empty
    pure [(id, .obj [(Key.present, present), (Key.fields, .obj fields),
      (Key.tags, orsetToJson tags)])]

/-- The mantle of a state; one without a name is passed over. -/
def enrichMantle (m : Json) : EnrichM (List (CString × Json)) :=
  match mantleName m with
  | none => pure []
  | some name => do
    let present ← enrichOne mint (.ok (lit "1"))
    let fields ← enrichEach (addField mint) (mantleRegisters m)
    let runes ← enrichEach (enrichRune mint) (childValues (m.get Key.runes))
    let edges ← addValues mint (childValues (get (m.get Key.layout) Key.edges)) .empty
    pure [(name, .obj [(Key.present, present), (Key.fields, .obj fields),
      (Key.runes, .obj runes.flatten), (Key.edges, orsetToJson edges)])]

/-- The declaration of a glyph: one register holds the whole of it. -/
def enrichGlyph (g : CString × Json) : EnrichM (CString × Json) := do
  let present ← enrichOne mint (.ok [])
  let reg ← enrichOne mint (canonGlyphDescriptor g.2)
  pure (g.1, .obj [(Key.present, present), (Key.fields, .obj [(Key.descriptor, reg)])])

/-- The body of `enrich`. -/
def enrichState (state : Json) : EnrichM Json := do
  let mantles ← enrichEach (enrichMantle mint) (childValues (state.get Key.mantles))
  let glyphs ← enrichEach (enrichGlyph mint) (childMembers (state.get Key.glyphs))
  pure (.obj [(Key.palabra, .num Double.one), (Key.mantles, .obj mantles.flatten),
    (Key.glyphs, .obj glyphs)])

/-- `enrich`. -/
def enrich (state : Json) : Except CanonicalError Json := do
  let d ← enrichState mint state 0
  pure d.1

end

/-! ### A mint that counts -/

/-- `%04lu`. -/
def fourDigits (n : ℕ) : Bytes := List.replicate (4 - (decimal n).length) 0x30 ++ decimal n

/-- Zeros in front of a numeral do not change its value. -/
theorem digitRun_zeros (k n : ℕ) : (digitRun (List.replicate k 0x30 ++ decimal n)).1 = n := by
  induction k with
  | zero => rw [List.replicate_zero, List.nil_append, digitRun_decimal]
  | succ k ih =>
    rw [List.replicate_succ, List.cons_append, digitRun, if_pos (by decide)]
    simp [ih]

theorem digit_of_mem_fourDigits {n : ℕ} {c : UInt8} (h : c ∈ fourDigits n) : 0x30 ≤ c ∧ c ≤ 0x39 := by
  rcases List.mem_append.mp h with h | h
  · rw [List.eq_of_mem_replicate h]
    decide
  · exact digit_of_mem_decimal h

/-- `_%04lu`. -/
def countSuffix (n : ℕ) : CString where
  bytes := 0x5F :: fourDigits n
  noNul := by
    intro h
    rcases List.mem_cons.mp h with h | h
    · cases h
    · exact absurd (digit_of_mem_fourDigits h).1 (by decide)

theorem countSuffix_injective : Function.Injective countSuffix := by
  intro m n h
  have hd : fourDigits m = fourDigits n := (List.cons.inj (congrArg CString.bytes h)).2
  have hb := congrArg (fun b => (digitRun b).1) hd
  simpa only [fourDigits, digitRun_zeros] using hb

/-- `CounterMint`: a prefix and a number, which starts at 1. -/
def counterMint (pre : CString) : Mint where
  tag n := pre ++ countSuffix (n + 1)
  distinct := fun _ _ h => Nat.succ.inj (countSuffix_injective (CString.append_left_cancel h))
  named n := by
    cases hp : pre.bytes <;> simp [CString.isEmpty, countSuffix, hp]

end VoidPalabra
