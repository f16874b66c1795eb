import VoidPalabra.Conflict

/-!
# Rules that a merge broke

Two runes of a mantle with one name, a link to a rune that was removed or renamed
elsewhere, and a rune whose type was undeclared elsewhere. An index of every mantle
is built first, and the rules are checked against it.
-/

namespace VoidPalabra

/-- `AnomalyKind`. -/
inductive AnomalyKind where
  /-- Two runes have one name. -/
  | duplicateName
  /-- A link points to a rune that was removed or renamed. -/
  | linkBroken
  /-- A rune's glyph was undeclared. -/
  | typeRemoved
  deriving DecidableEq

/-- `Anomaly`. -/
structure Anomaly where
  /-- Which rule. -/
  kind : AnomalyKind
  /-- The mantle the rule is about. -/
  mantle : Bytes
  /-- The name, the link's end or the glyph. -/
  subject : Bytes
  /-- Why a link is broken; empty for the other rules. -/
  cause : Bytes := []
  /-- The runes involved. -/
  runes : List Bytes
  deriving DecidableEq

/-- `was_present_and_is_not`. -/
def wasPresentAndIsNot (n : Json) : Bool :=
  let p := orsetFromJson (n.get Key.present)
  p.isEmpty && !p.removes.isEmpty

/-- The text of canonical bytes that decode to a string. -/
def textOf (v : Bytes) : Option Bytes := ((decode v).bind Json.string?).map CString.bytes

/-- `shown`: the text `flatten` would show for a register, or nothing. -/
def shown (reg : Option Json) (field : CString) (policy : JoinPolicy) : Bytes :=
  match (resolve reg (policy.lookup field.bytes)).values with
  | [] => []
  | v :: _ => (textOf v).getD []

/-- `former_values`: the texts a register held and holds no longer. -/
def formerValues (reg : Option Json) : List Bytes :=
  let s := orsetFromJson reg
  sortUnique <| (s.entries.filter fun kv =>
    s.removes.contains kv.1 && !s.values.contains kv.2).filterMap fun kv => textOf kv.2

/-- A `std::map` from a text to the list of what was filed under it. -/
abbrev Filed := Std.ExtTreeMap Bytes (List Bytes) compare

/-- `map[name].push_back(id)`. -/
def Filed.push (d : Filed) (name id : Bytes) : Filed :=
  d.insert name ((d[name]?.getD []) ++ [id])

/-- `MantleIndex`. -/
structure MantleIndex where
  /-- A name to the live runes holding it. -/
  liveNames : Filed := ∅
  /-- A name to the removed runes that held it. -/
  removed : Filed := ∅
  /-- A former name to the live runes that held it. -/
  renamedFrom : Filed := ∅
  /-- A live rune to its glyph. -/
  glyphOf : Std.ExtTreeMap Bytes Bytes compare := ∅

/-- One rune of the index. -/
def indexRune (policy : JoinPolicy) (ix : MantleIndex) (r : CString × Json) : MantleIndex :=
  let f := r.2.get Key.fields
  let nameReg := get f Key.spiritName
  let name := shown nameReg Key.spiritName policy
  if alive r.2 then
    { ix with
      liveNames := ix.liveNames.push name r.1.bytes
      glyphOf := ix.glyphOf.insert r.1.bytes (shown (get f Key.glyph) Key.glyph policy)
      renamedFrom := ((formerValues nameReg).filter (· ≠ name)).foldl
        (fun d old => Filed.push d old r.1.bytes) ix.renamedFrom }
  else if wasPresentAndIsNot r.2 then { ix with removed := ix.removed.push name r.1.bytes }
  else ix

/-- `index_mantle`. -/
def indexMantle (policy : JoinPolicy) (m : Json) : MantleIndex :=
  (childMembers (m.get Key.runes)).foldl (indexRune policy) {}

/-- `endpoint`: the mantle and the rune that a link's end names. -/
def endpoint (e : Option Json) (own : Bytes) : Option (Bytes × Bytes) :=
  match e with
  | some (.str s) => some (own, s.bytes)
  | some (.obj ms) =>
    match Json.lookup (.ofLit "rune") ms with
    | some (.str r) =>
      match Json.lookup (.ofLit "mantle") ms with
      | some (.str m) => some (m.bytes, r.bytes)
      | _ => some (own, r.bytes)
    | _ => none
  | _ => none

/-- Why a link's end is broken, and the runes that broke it: nothing when the end
resolves, names a mantle that is not here, or dangles on purpose. -/
def brokenEnd (index : Std.ExtTreeMap Bytes MantleIndex compare) (mantle rune : Bytes) :
    Option (Bytes × List Bytes) := do
  let ix ← index[mantle]?
  if ix.liveNames.contains rune then none
  else
    match ix.removed[rune]? with
    | some who => some (lit "removed", who)
    | none => (ix.renamedFrom[rune]?).map fun who => (lit "renamed", who)

/-- One end of a link, filed under the subject and the cause. -/
def fileEnd (index : Std.ExtTreeMap Bytes MantleIndex compare) (own : Bytes)
    (found : Std.ExtTreeMap (List Bytes) (List Bytes) compare) (e : Option Json) :
    Std.ExtTreeMap (List Bytes) (List Bytes) compare :=
  match endpoint e own with
  | none => found
  | some (tm, tr) =>
    match brokenEnd index tm tr with
    | none => found
    | some (cause, who) =>
      let subject := if tm = own then tr else tm ++ lit "/" ++ tr
      found.insert [subject, cause] ((found[[subject, cause]]?.getD []) ++ who)

/-- Both ends of a link. -/
def fileEdge (index : Std.ExtTreeMap Bytes MantleIndex compare) (own : Bytes)
    (found : Std.ExtTreeMap (List Bytes) (List Bytes) compare) (bytes : Bytes) :
    Std.ExtTreeMap (List Bytes) (List Bytes) compare :=
  let edge := decode bytes
  [CString.ofLit "from", CString.ofLit "to"].foldl
    (fun found e => fileEnd index own found (get edge e)) found

/-- The broken links of a mantle. -/
def linkAnomalies (index : Std.ExtTreeMap Bytes MantleIndex compare) (m : CString × Json) :
    List Anomaly :=
  if !alive m.2 then []
  else
    let found := (orsetFromJson (m.2.get Key.edges)).values.foldl (fileEdge index m.1.bytes) ∅
    found.toList.map fun kv =>
      { kind := .linkBroken, mantle := m.1.bytes, subject := kv.1.getD 0 [],
        cause := kv.1.getD 1 [], runes := sortUnique kv.2 }

/-- The names that two live runes of a mantle hold. -/
def nameAnomalies (mantle : Bytes) (ix : MantleIndex) : List Anomaly :=
  (ix.liveNames.toList.filter fun kv => !(kv.2.length < 2 || kv.1.isEmpty)).map fun kv =>
    { kind := .duplicateName, mantle := mantle, subject := kv.1, runes := sortUnique kv.2 }

/-- The glyphs of a mantle's runes that were undeclared. -/
def typeAnomalies (removedGlyphs : ByteSet) (mantle : Bytes) (ix : MantleIndex) : List Anomaly :=
  let orphaned := (ix.glyphOf.toList.filter fun kv => removedGlyphs.contains kv.2).foldl
    (fun d kv => Filed.push d kv.2 kv.1) (∅ : Filed)
  orphaned.toList.map fun kv =>
    { kind := .typeRemoved, mantle := mantle, subject := kv.1, runes := sortUnique kv.2 }

/-- The order of a list of anomalies. -/
def Anomaly.sortKey (a : Anomaly) : List Bytes :=
  [match a.kind with
    | .duplicateName => [0]
    | .linkBroken => [1]
    | .typeRemoved => [2],
    a.mantle, a.subject, a.cause]

/-- The index of every mantle that is present. -/
def mantleIndex (root : Json) (policy : JoinPolicy) : Std.ExtTreeMap Bytes MantleIndex compare :=
  (childMembers (root.get Key.mantles)).foldl
    (fun index m =>
      if alive m.2 then index.insert m.1.bytes (indexMantle policy m.2) else index) ∅

/-- The names of the glyphs that were declared and are not. -/
def removedGlyphs (root : Json) : ByteSet :=
  Std.ExtTreeSet.ofList
    (((childMembers (root.get Key.glyphs)).filter fun g => wasPresentAndIsNot g.2).map
      fun g => g.1.bytes) compare

/-- `anomalies`. -/
def anomalies (root : Json) (policy : JoinPolicy) : List Anomaly :=
  let index := mantleIndex root policy
  Sorting.sortOn Anomaly.sortKey
    (index.toList.flatMap (fun kv =>
        nameAnomalies kv.1 kv.2 ++ typeAnomalies (removedGlyphs root) kv.1 kv.2) ++
      (childMembers (root.get Key.mantles)).flatMap (linkAnomalies index))

end VoidPalabra
