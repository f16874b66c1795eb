import VoidPalabra.Conflict
import VoidPalabra.Tree

/-!
# The editor

Every local change loads an OR-set, changes it and stores it back, and records the
difference into a delta as it goes. An editor works on a copy of the document; the
counter it mints tags from is the replica's own, and keeps what it issued even when
the edit is given up.
-/

namespace VoidPalabra

/-! ### Tags -/

/-- `id_ + "_" + std::to_string(n)`. -/
def mintTag (id : CString) (n : ℕ) : Tag :=
  ⟨id.bytes ++ 0x5F :: decimal n, by
    intro h
    rcases List.mem_append.mp h with h | h
    · exact id.noNul h
    · rcases List.mem_cons.mp h with h | h
      · exact absurd h (by decide)
      · exact absurd (digit_of_mem_decimal h).1 (by decide)⟩

/-! ### Changing a tree in place -/

/-- `cJSON_DeleteItemFromObjectCaseSensitive` on a list of members: the first one of
that name goes. -/
def eraseMember (k : CString) : List (CString × Json) → List (CString × Json)
  | [] => []
  | (k', v) :: rest => if k' = k then rest else (k', v) :: eraseMember k rest

/-- Change the first member of that name in place, or add it at the end as what the
change makes of an empty object. -/
def changeMember (k : CString) (f : Json → Json) : List (CString × Json) → List (CString × Json)
  | [] => [(k, f (.obj []))]
  | (k', v) :: rest => if k' = k then (k', f v) :: rest else (k', v) :: changeMember k f rest

/-- `at_path` without creating: follow names, whatever the nodes are. -/
def atPath (root : Json) (p : Path) : Option Json := p.foldl get (some root)

/-- `at_path` of the parent, creating what is missing, and then the last name deleted
and added again at the end. The parents are objects. -/
def putAt : Path → Json → Json → Json
  | [], _, n => n
  | [k], v, .obj ms => .obj (eraseMember k ms ++ [(k, v)])
  | k :: p, v, .obj ms => .obj (changeMember k (putAt p v) ms)
  | _, _, n => n

/-! ### The editor's state -/

/-- What a store is for. -/
inductive Intent where
  /-- Something is added and nothing is taken away. -/
  | add
  /-- A register is given a value in place of all it held. -/
  | overwrite
  /-- A register is cleared, or a thing removed. -/
  | clear
  /-- A set is given some elements and loses the listed ones. -/
  | update (dropped : List Bytes)
  deriving DecidableEq

/-- One store: the set at a place before and after it, and what it was for. -/
structure Act where
  /-- The path of the set. -/
  place : Path
  /-- The set as it was loaded. -/
  before : OrSet
  /-- The set as it was stored. -/
  after : OrSet
  /-- What the store was for. -/
  intent : Intent
  /-- The document it was made in. -/
  doc : Json

/-- What an editor may change. The source keeps the number of its stores only; the
stores themselves are kept here to speak about them. -/
structure Editor where
  /-- The copy of the document. -/
  work : Json
  /-- Exactly what changed, as a document. -/
  delta : Json
  /-- The replica's counter. -/
  issued : ℕ
  /-- Registers and sets stored. -/
  changes : ℕ
  /-- The stores so far. -/
  log : List Act

/-- What an editor is given and never changes. -/
structure Author where
  /-- The replica's identity. -/
  id : CString
  /-- How the replica reads a field. -/
  policy : JoinPolicy

/-- A step of an edit may throw, and what it did before that stays done. -/
def EditM (α : Type) := Editor → Except CanonicalError α × Editor

instance : Monad EditM where
  pure a := fun e => (.ok a, e)
  bind x f := fun e =>
    match x e with
    | (.ok a, e') => f a e'
    | (.error c, e') => (.error c, e')

/-- What is not in one set and is in the other: the change a store records. -/
def OrSet.diff (before after : OrSet) : OrSet :=
  ⟨Std.ExtTreeMap.ofList (after.entries.filter fun kv => !before.adds.contains kv.1) compare,
    Std.ExtTreeSet.ofList (after.removes.toList.filter fun t => !before.removes.contains t) compare⟩

/-- What a delta holds at a set after another difference was recorded there. -/
def recorded (existing : Option Json) (diff : OrSet) : OrSet :=
  match existing with
  | some n => (orsetFromJson (some n)).join diff
  | none => diff

namespace Editor

/-- `node`. -/
def node (e : Editor) (p : Path) : Option Json := atPath e.work p

/-- `load`. -/
def load (e : Editor) (p : Path) : OrSet := orsetFromJson (e.node p)

/-- `live`. -/
def live (e : Editor) (p : Path) : Bool := !(e.load (p ++ [Key.present])).values.isEmpty

/-- `store`: the delta holds only what changed. -/
def store (e : Editor) (p : Path) (before after : OrSet) (intent : Intent) : Editor :=
  if before = after then e
  else
    { e with
      work := putAt p (orsetToJson after) e.work
      delta := putAt p (orsetToJson (recorded (atPath e.delta p) (before.diff after))) e.delta
      changes := e.changes + 1
      log := e.log ++ [⟨p, before, after, intent, e.work⟩] }

end Editor

namespace EditM

/-- The editor as it is now. -/
def current : EditM Editor := fun e => (.ok e, e)

/-- `throw CanonicalError`. -/
def refuse {α : Type} (what : Bytes) : EditM α := fun e => (.error ⟨what⟩, e)

/-- A computation that does not touch the editor. -/
def lift {α : Type} (x : Except CanonicalError α) : EditM α := fun e => (x, e)

end EditM

/-- `mint`. -/
def mint (a : Author) : EditM Tag := fun e =>
  (.ok (mintTag a.id (e.issued + 1)), { e with issued := e.issued + 1 })

/-- `store` as a step of an edit. -/
def storeAt (p : Path) (before after : OrSet) (intent : Intent) : EditM Unit := fun e =>
  (.ok (), e.store p before after intent)

/-- `sync_register`: a value equal to the one that is shown is not an edit. -/
def syncRegister (a : Author) (p : Path) (field : CString) (value : Option Bytes) :
    EditM Unit := do
  let e ← EditM.current
  let l := resolve (e.node p) (a.policy.lookup field.bytes)
  match value with
  | some v =>
    if l.values.head? = some v then pure ()
    else
      let t ← mint a
      storeAt p (e.load p) ((e.load p).write t v) .overwrite
  | none =>
    if l.values.isEmpty then pure ()
    else storeAt p (e.load p) (e.load p).removeAll .clear

/-- The loop of `sync_set` over the wanted values. -/
def addWanted (a : Author) (shown : List Bytes) : List Bytes → OrSet → EditM OrSet
  | [], after => pure after
  | v :: want, after =>
    if shown.contains v then addWanted a shown want after
    else do
      let t ← mint a
      addWanted a shown want (after.add t v)

/-- The loop of `sync_set` over the values that are there. -/
def dropUnwanted (want : List Bytes) (shown : List Bytes) (after : OrSet) : OrSet :=
  shown.foldl (fun after v => if want.contains v then after else after.removeValue v) after

/-- `sync_set`, of the wanted values in order and without repetition. -/
def syncSet (a : Author) (p : Path) (want : List Bytes) : EditM Unit := do
  let e ← EditM.current
  let before := e.load p
  let after ← addWanted a before.values want before
  storeAt p before (dropUnwanted want before.values after)
    (.update (before.values.filter fun v => !want.contains v))

/-- `make_present`. -/
def makePresent (a : Author) (p : Path) (value : Bytes) : EditM Unit := do
  let e ← EditM.current
  let before := e.load (p ++ [Key.present])
  if !before.values.isEmpty then pure ()
  else
    let t ← mint a
    storeAt (p ++ [Key.present]) before (before.add t value) .add

/-- `remove`: the thing's presence is retired, and so, there, is every live tag the
removal saw beneath it. -/
def removeThing (p : Path) (evenIfDead : Bool) : EditM Unit := do
  let e ← EditM.current
  match e.node p with
  | none => pure ()
  | some n =>
    let before := e.load (p ++ [Key.present])
    if before.values.isEmpty && !evenIfDead then pure ()
    else
      let after := before.removeAll
      let seen := collectLiveTags n true
      storeAt (p ++ [Key.present]) before ⟨after.adds, after.removes.insertMany seen⟩ .clear

/-! ### How each operation runs -/

theorem EditM.bind_apply {α β : Type} (x : EditM α) (f : α → EditM β) (e : Editor) :
    (x >>= f) e = match x e with
      | (.ok a, e') => f a e'
      | (.error c, e') => (.error c, e') := rfl

theorem EditM.pure_apply {α : Type} (x : α) (e : Editor) :
    (pure x : EditM α) e = (.ok x, e) := rfl

/-- A register is written when the value is not the one that is shown. -/
theorem syncRegister_some (a : Author) (p : Path) (field : CString) (v : Bytes) (e : Editor) :
    syncRegister a p field (some v) e =
      (.ok (), if (resolve (e.node p) (a.policy.lookup field.bytes)).values.head? = some v then e
        else ({ e with issued := e.issued + 1 } : Editor).store p (e.load p)
          ((e.load p).write (mintTag a.id (e.issued + 1)) v) .overwrite) := by
  unfold syncRegister
  rw [EditM.bind_apply]
  simp only [EditM.current]
  split <;> rfl

/-- A register is cleared when it shows something. -/
theorem syncRegister_none (a : Author) (p : Path) (field : CString) (e : Editor) :
    syncRegister a p field none e =
      (.ok (), if (resolve (e.node p) (a.policy.lookup field.bytes)).values.isEmpty = true then e
        else e.store p (e.load p) (e.load p).removeAll .clear) := by
  unfold syncRegister
  rw [EditM.bind_apply]
  simp only [EditM.current]
  split <;> rfl

/-- A thing that is not present is made so. -/
theorem makePresent_apply (a : Author) (p : Path) (value : Bytes) (e : Editor) :
    makePresent a p value e =
      (.ok (), if (e.load (p ++ [Key.present])).values.isEmpty = true then
        ({ e with issued := e.issued + 1 } : Editor).store (p ++ [Key.present])
          (e.load (p ++ [Key.present]))
          ((e.load (p ++ [Key.present])).add (mintTag a.id (e.issued + 1)) value) .add
        else e) := by
  unfold makePresent
  rw [EditM.bind_apply]
  simp only [EditM.current]
  cases (e.load (p ++ [Key.present])).values.isEmpty <;> rfl

/-- A removal: nothing at a thing that is not there, or is not present and need not be
removed again. -/
theorem removeThing_apply (p : Path) (evenIfDead : Bool) (e : Editor) :
    removeThing p evenIfDead e =
      (.ok (), match e.node p with
        | none => e
        | some n =>
          if ((e.load (p ++ [Key.present])).values.isEmpty && !evenIfDead) = true then e
          else e.store (p ++ [Key.present]) (e.load (p ++ [Key.present]))
            ⟨(e.load (p ++ [Key.present])).removeAll.adds,
              (e.load (p ++ [Key.present])).removeAll.removes.insertMany
                (collectLiveTags n true)⟩ .clear) := by
  unfold removeThing
  rw [EditM.bind_apply]
  simp only [EditM.current]
  cases e.node p with
  | none => rfl
  | some n =>
    dsimp only
    split <;> rfl

/-- A set gets what it lacks and loses what is not wanted. -/
theorem syncSet_apply {a : Author} {p : Path} {want : List Bytes} {e : Editor} {s : OrSet} {j : ℕ}
    (h : addWanted a (e.load p).values want (e.load p) e = (.ok s, { e with issued := j })) :
    syncSet a p want e =
      (.ok (), ({ e with issued := j } : Editor).store p (e.load p)
        (dropUnwanted want (e.load p).values s)
        (.update ((e.load p).values.filter fun v => !want.contains v))) := by
  unfold syncSet
  rw [EditM.bind_apply]
  simp only [EditM.current]
  rw [EditM.bind_apply, h]
  rfl

end VoidPalabra
