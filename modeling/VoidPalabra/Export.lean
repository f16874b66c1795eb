import VoidPalabra.Flatten

/-!
# What may leave a device

The shareable projection of a document. A first pass learns which mantles are withheld
and by which names the withheld runes of the others go; a second one copies what may
leave. Of something withheld that was removed only the removal travels, and an edge that
names something withheld stays behind.
-/

namespace VoidPalabra

/-- `ExportSet`: asked about a mantle, with no rune, and about a rune of a mantle. An empty
function withholds nothing. -/
abbrev ExportSet := Option (CString → CString → Bool)

/-- What may leave. -/
def ExportSet.allowed (share : ExportSet) (m r : CString) : Bool :=
  match share with
  | none => true
  | some f => f m r

/-- `share_everything`. -/
def shareEverything : ExportSet := some fun _ _ => true

/-- `was_removed`. -/
def wasRemoved (n : Json) : Bool :=
  let p := orsetFromJson (n.get Key.present)
  p.isEmpty && !p.removes.isEmpty

/-- `shown_name`. -/
def shownName (rune : Json) (policy : JoinPolicy) : CString :=
  match (resolve (get (rune.get Key.fields) Key.spiritName)
      (policy.lookup Key.spiritName.bytes)).values with
  | [] => .empty
  | v :: _ => strOr (decode v) .empty

/-- `removal_only`: the presence of a thing and nothing else about it. -/
def removalOnly (n : Json) : Json := .obj (member Key.present (n.get Key.present))

/-- The mantle and the name that an endpoint of an edge stands for, in a mantle of its
own. -/
def endpointTarget (own : CString) (endpoint : Option Json) : Option (CString × CString) :=
  match endpoint with
  | some (.str s) => some (own, s)
  | some (.obj ms) =>
    some (strOr (Json.lookup (.ofLit "mantle") ms) own, strOr (Json.lookup (.ofLit "rune") ms) .empty)
  | _ => none

/-- What the first pass learns. -/
structure Withheld where
  /-- The mantles that are withheld. -/
  mantles : NameSet
  /-- The names of the withheld runes of each mantle that is not. -/
  names : Dict NameSet

/-- `names_withheld`. -/
def namesWithheld (endpoint : Option Json) (own : CString) (w : Withheld) : Bool :=
  match endpointTarget own endpoint with
  | none => false
  | some (m, r) => w.mantles.contains m || (w.names[m]?).any fun names => names.contains r

/-- The names that the withheld runes of a mantle show. -/
def withheldNames (share : ExportSet) (policy : JoinPolicy) (m : CString × Json) : List CString :=
  ((childMembers (m.2.get Key.runes)).filter fun r => !share.allowed m.1 r.1).map fun r =>
    shownName r.2 policy

/-- One mantle in the first pass. -/
def withhold (share : ExportSet) (policy : JoinPolicy) (w : Withheld) (m : CString × Json) : Withheld :=
  if !share.allowed m.1 .empty then { w with mantles := w.mantles.insert m.1 }
  else { w with names := w.names.insert m.1 (((w.names[m.1]?).getD ∅).insertMany
    (withheldNames share policy m)) }

/-- The first pass. -/
def withheld (share : ExportSet) (policy : JoinPolicy) (mantles : List (CString × Json)) : Withheld :=
  mantles.foldl (withhold share policy) ⟨∅, ∅⟩

/-- An edge that names something withheld. -/
def leaks (w : Withheld) (own : CString) (edge : Bytes) : Bool :=
  match decode edge with
  | none => false
  | some e => namesWithheld (e.get (.ofLit "from")) own w || namesWithheld (e.get (.ofLit "to")) own w

/-- The edges that may leave; what was retired stays retired. -/
def keptEdges (w : Withheld) (own : CString) (edges : OrSet) : OrSet :=
  ⟨edges.adds.filter fun _ v => !leaks w own v, edges.removes⟩

/-- One rune in the second pass. -/
def exportRune (share : ExportSet) (own : CString) (r : CString × Json) : List (CString × Json) :=
  if share.allowed own r.1 then [(r.1, r.2)]
  else if wasRemoved r.2 then [(r.1, removalOnly r.2)]
  else []

/-- A mantle that may leave. -/
def exportedMantle (share : ExportSet) (w : Withheld) (m : CString × Json) : Json :=
  .obj (member Key.present (m.2.get Key.present) ++ member Key.fields (m.2.get Key.fields) ++
    [(Key.runes, .obj ((childMembers (m.2.get Key.runes)).flatMap (exportRune share m.1)))] ++
    member Key.edges ((m.2.get Key.edges).map fun edges =>
      orsetToJson (keptEdges w m.1 (orsetFromJson (some edges)))))

/-- One mantle in the second pass. -/
def exportMantle (share : ExportSet) (w : Withheld) (m : CString × Json) : List (CString × Json) :=
  if w.mantles.contains m.1 then
    if wasRemoved m.2 then [(m.1, removalOnly m.2)] else []
  else [(m.1, exportedMantle share w m)]

/-- `exportable`. -/
def exportable (root : Json) (share : ExportSet) (policy : JoinPolicy) : Json :=
  let mantles := childMembers (root.get Key.mantles)
  let w := withheld share policy mantles
  .obj ([(Key.palabra, .num Double.one), (Key.mantles, .obj (mantles.flatMap (exportMantle share w)))] ++
    member Key.glyphs (root.get Key.glyphs))

end VoidPalabra
