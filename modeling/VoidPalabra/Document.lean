import VoidPalabra.Print

/-!
# Joining documents

A document is a tree whose leaves are OR-sets and whose interior nodes are maps.
`joinNode` unites the maps and joins the leaves; between nodes of different kinds
a fixed ranking decides, and between two scalars their printed form.
-/

namespace VoidPalabra

/-- `node_rank`: the kind of a node, recomputed from its shape. -/
def nodeRank (n : Json) : ℕ :=
  if isOrset n then 2 else if n.isObject then 3 else 1

/-- The index of a map's members by name; of two members with one name it keeps
the first. -/
def inB (members : List (CString × Json)) : Dict Json :=
  members.foldl (fun index m => index.insertIfNew m.1 m.2) ∅

/-- The members of the second map that the first one does not name, in the order
of the index. -/
def notSeen (seen : NameSet) (index : Dict Json) : List (CString × Json) :=
  index.toList.filter fun kv => !seen.contains kv.1

/-- Comparing `std::string`s by unsigned bytes. -/
def bytesLt (a b : Bytes) : Bool := compare a b == .lt

mutual

/-- `join_node`. -/
def joinNode (a b : Json) : Json :=
  if nodeRank a ≠ nodeRank b then (if nodeRank b < nodeRank a then a else b)
  else if nodeRank a = 2 then
    orsetToJson ((orsetFromJson (some a)).join (orsetFromJson (some b)))
  else
    match a with
    | .obj members =>
      .obj (joinChildren (inB b.members) ∅ members ++
        notSeen (Std.ExtTreeSet.ofList (members.map Prod.fst) compare) (inB b.members))
    | a => if bytesLt (printed b) (printed a) then b else a

/-- The loop of `join_map` over the children of the first map; a name seen before
is skipped. -/
def joinChildren (index : Dict Json) (seen : NameSet) :
    List (CString × Json) → List (CString × Json)
  | [] => []
  | (k, v) :: rest =>
    if seen.contains k then joinChildren index seen rest
    else
      (k, match index[k]? with
        | some other => joinNode v other
        | none => v) :: joinChildren index (seen.insert k) rest

end

mutual

/-- `normalize_node`: every OR-set in the one spelling `orset_to_json` gives it. -/
def normalizeNode (n : Json) : Json :=
  if isOrset n then orsetToJson (orsetFromJson (some n))
  else
    match n with
    | .obj members => .obj (normalizeChildren members)
    | n => n

/-- `normalize_node` of each child. -/
def normalizeChildren : List (CString × Json) → List (CString × Json)
  | [] => []
  | (k, v) :: rest => (k, normalizeNode v) :: normalizeChildren rest

end

/-- `canon_doc`. -/
def canonDoc (root : Json) : Except CanonicalError Bytes := encode (normalizeNode root)

end VoidPalabra
