import VoidPalabra.Kahn
import VoidPalabra.Search
import VoidPalabra.Utterance

/-!
# Histories

The utterances a peer holds, each filed after those it follows, and an index from an
utterance to those that follow it.
-/

namespace VoidPalabra.Utterances

/-- `History`. -/
structure History where
  /-- `by_hash_`. -/
  byHash : Std.ExtTreeMap Bytes Utterance compare := ∅
  /-- `children_`. -/
  children : Std.ExtTreeMap Bytes (List Bytes) compare := ∅

/-- `History::Add`. -/
inductive Add
  /-- It is filed. -/
  | ok
  /-- It was held. -/
  | duplicate
  /-- A parent is not held. -/
  | missingParent
  /-- Its name is not the one of its content. -/
  | malformed
  deriving DecidableEq

namespace History

/-- `History::has`. -/
def has (h : History) (hash : Bytes) : Bool := h.byHash.contains hash

/-- A child is listed under one of its parents. -/
def listChild (hash : Bytes) (children : Std.ExtTreeMap Bytes (List Bytes) compare) (p : Bytes) :
    Std.ExtTreeMap Bytes (List Bytes) compare :=
  children.insert p (children.getD p [] ++ [hash])

/-- The end of `History::add`: the utterance is filed and listed under its parents. -/
def file (h : History) (u : Utterance) : History where
  byHash := h.byHash.insert u.hash u
  children := u.parents.foldl (listChild u.hash) h.children

/-- `History::add`. -/
def add (h : History) (u : Utterance) : Add × History :=
  if u.hash.isEmpty then (.malformed, h)
  else
    match u.name with
    | .error _ => (.malformed, h)
    | .ok recomputed =>
      if recomputed ≠ u.hash then (.malformed, h)
      else if h.has u.hash then (.duplicate, h)
      else if u.parents.any fun p => !h.has p then (.missingParent, h)
      else (.ok, h.file u)

/-- What an utterance follows; nothing for what is not held. -/
def parentsOf (h : History) (hash : Bytes) : List Bytes :=
  match h.byHash[hash]? with
  | some u => u.parents
  | none => []

/-- What is listed under an utterance. -/
def childrenOf (h : History) (hash : Bytes) : List Bytes := h.children.getD hash []

/-- `History::heads`. -/
def heads (h : History) : List Bytes :=
  Sorting.sortOn id (h.byHash.keys.filter fun hash => (h.childrenOf hash).isEmpty)

/-- `History::cut_name` of a list of heads. -/
def cutNameOf (heads : List Bytes) : Except CanonicalError Bytes := do
  let encoded ← encodedEach heads
  pure (lit "c:" ++ hexBytes (domainDigest "cut" (encodeSet encoded) []))

/-- `History::cut_name`. -/
def cutName (h : History) : Except CanonicalError Bytes := cutNameOf h.heads

/-- The number of parents that are named in a history. -/
def edges (h : History) : ℕ := (h.byHash.keys.map fun hash => (h.parentsOf hash).length).sum

/-- The walk of `History::ancestors` and `History::is_ancestor` from the parents of an
utterance. The last one is on top; no name is put on the stack more often than it is
named. -/
def walkFrom (h : History) (stop : Bytes → Bool) (hash : Bytes) :
    Bool × Std.ExtTreeSet Bytes compare :=
  Search.walk h.parentsOf stop ((h.parentsOf hash).length + h.edges) ∅ (h.parentsOf hash).reverse

/-- `History::ancestors`. -/
def ancestors (h : History) (hash : Bytes) : Std.ExtTreeSet Bytes compare :=
  if !h.has hash then ∅ else (h.walkFrom (fun _ => false) hash).2

/-- `History::is_ancestor`. -/
def isAncestor (h : History) (a b : Bytes) : Bool :=
  if a = b then false
  else if !h.has a || !h.has b then false
  else (h.walkFrom (fun hash => hash == a) b).1

/-- `History::concurrent`. -/
def concurrent (h : History) (a b : Bytes) : Bool :=
  if !h.has a || !h.has b then false
  else if a = b then false
  else !h.isAncestor a b && !h.isAncestor b a

/-- `History::linear_extension`. -/
def linearExtension (h : History) : List Bytes :=
  (Kahn.run h.childrenOf h.byHash.size
    (Kahn.start (h.byHash.toList.map fun kv => (kv.1, kv.2.parents.length)) :
      Kahn.State Bytes compare)).order

/-! ### Taking in many -/

/-- One pass of `History::receive`. -/
structure Pass where
  /-- The history after it. -/
  history : History
  /-- How many were filed. -/
  added : ℕ := 0
  /-- Whether one was filed or held. -/
  progress : Bool := false
  /-- What is left. -/
  still : List Utterance := []

/-- The pass over what is pending. -/
def pass (h : History) : List Utterance → Pass
  | [] => { history := h }
  | u :: pending =>
    match h.add u with
    | (.ok, h) =>
      let p := h.pass pending
      { p with added := p.added + 1, progress := true }
    | (.duplicate, h) => { h.pass pending with progress := true }
    | (_, h) =>
      let p := h.pass pending
      { p with still := u :: p.still }

/-- A pass leaves no more than was pending, and less if it got on. -/
theorem length_still (h : History) : ∀ pending : List Utterance,
    (h.pass pending).still.length ≤ pending.length ∧
      ((h.pass pending).progress = true → (h.pass pending).still.length < pending.length)
  | [] => ⟨le_rfl, fun hp => (nomatch hp)⟩
  | u :: pending => by
    rw [pass]
    split
    · rename_i h' _
      have hle := (h'.length_still pending).1
      exact ⟨Nat.le_succ_of_le hle, fun _ => Nat.lt_succ_of_le hle⟩
    · rename_i h' _
      have hle := (h'.length_still pending).1
      exact ⟨Nat.le_succ_of_le hle, fun _ => Nat.lt_succ_of_le hle⟩
    · rename_i h' _ _ _
      obtain ⟨hle, hlt⟩ := h'.length_still pending
      exact ⟨Nat.succ_le_succ hle, fun hp => Nat.succ_lt_succ (hlt hp)⟩

/-- What `History::receive` leaves behind. -/
structure Received where
  /-- The history after it. -/
  history : History
  /-- How many were filed. -/
  added : ℕ
  /-- What could not be placed. -/
  unplaceable : List Utterance

/-- `History::receive`. -/
def receive (h : History) (inbox : List Utterance) : Received :=
  if inbox.isEmpty then ⟨h, 0, inbox⟩
  else
    if (h.pass inbox).progress then
      let r := (h.pass inbox).history.receive (h.pass inbox).still
      { r with added := (h.pass inbox).added + r.added }
    else ⟨(h.pass inbox).history, (h.pass inbox).added, (h.pass inbox).still⟩
termination_by inbox.length
decreasing_by exact (length_still h inbox).2 ‹_›

/-- The utterances of a history in the order of their names. -/
def utterances (h : History) : List Utterance := h.byHash.toList.map Prod.snd

/-- `History::absorb`. -/
def absorb (h other : History) : ℕ × History :=
  let r := h.receive other.utterances
  (r.added, r.history)

end History

end VoidPalabra.Utterances
