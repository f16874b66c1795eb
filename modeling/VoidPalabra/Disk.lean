import Mathlib

/-!
# A disk whose operations may fail

Files are lists of bytes under names, and one of them may be open as a stream. An operation
reports that it was done or why it was not. A stream hands on what was written to it in order
and when it likes, at the latest when it is flushed. A program asks for one operation after the
other and may be interrupted before each of them.
-/

namespace Storage

variable {P B E R : Type}

/-- An operation on a disk. -/
inductive Op (P B : Type) where
  /-- Opens a stream on an empty file. -/
  | create (p : P)
  /-- Writes to the stream. -/
  | write (bytes : List B)
  /-- Hands on what was written to the stream. -/
  | flush
  /-- Closes the stream. -/
  | close
  /-- Removes a file. -/
  | remove (p : P)
  /-- Renames a file; one that has the name already is replaced. -/
  | rename (p q : P)

/-- What a disk holds. -/
structure Disk (P B : Type) where
  /-- The files. -/
  files : P → Option (List B)
  /-- The file that is open, and what was written to it. -/
  stream : Option (P × List B) := none

section

variable [DecidableEq P]

/-- The disk with a file put in place. -/
def Disk.put (d : Disk P B) (p : P) (content : Option (List B)) : Disk P B :=
  { d with files := Function.update d.files p content }

@[simp] theorem Disk.put_self (d : Disk P B) (p : P) (content : Option (List B)) :
    (d.put p content).files p = content := by
  simp [Disk.put]

theorem Disk.put_other {p q : P} (d : Disk P B) (h : q ≠ p) (content : Option (List B)) :
    (d.put p content).files q = d.files q := by
  simp [Disk.put, h]

/-- The stream hands on some of what was written to it. -/
structure Passes (d : Disk P B) (p : P) (written handed : List B) (d' : Disk P B) : Prop where
  /-- The file has what was handed on before. -/
  before : ∃ content, d.files p = some content ∧ content <+: handed
  /-- No more is handed on than was written. -/
  ordered : handed <+: written
  /-- The file has it then. -/
  files : d'.files = (d.put p (some handed)).files
  /-- The stream stays open. -/
  stream : d'.stream = some (p, written)

/-- What an operation reports, and the disk after it. -/
inductive Does : Op P B → Disk P B → Except E Unit → Disk P B → Prop
  /-- A stream is opened. -/
  | created {p : P} {d : Disk P B} : Does (.create p) d (.ok ()) { d.put p (some []) with stream := some (p, []) }
  /-- Or it is not. -/
  | notCreated {p : P} {d : Disk P B} (e : E) : Does (.create p) d (.error e) d
  /-- Everything is written. -/
  | written {p : P} {before bytes handed : List B} {d d' : Disk P B} (hs : d.stream = some (p, before))
    (h : Passes d p (before ++ bytes) handed d') : Does (.write bytes) d (.ok ()) d'
  /-- Less is. -/
  | notWritten {p : P} {before bytes handed : List B} {n : ℕ} {d d' : Disk P B} (e : E)
    (hs : d.stream = some (p, before)) (hn : n < bytes.length)
    (h : Passes d p (before ++ bytes.take n) handed d') : Does (.write bytes) d (.error e) d'
  /-- Everything is handed on. -/
  | flushed {p : P} {before : List B} {d d' : Disk P B} (hs : d.stream = some (p, before))
    (h : Passes d p before before d') : Does .flush d (.ok ()) d'
  /-- Less is. -/
  | notFlushed {p : P} {before handed : List B} {d d' : Disk P B} (e : E)
    (hs : d.stream = some (p, before)) (h : Passes d p before handed d') : Does .flush d (.error e) d'
  /-- Everything is handed on, and the stream is closed. -/
  | closed {p : P} {before : List B} {d d' : Disk P B} (hs : d.stream = some (p, before))
    (h : Passes d p before before d') : Does .close d (.ok ()) { d' with stream := none }
  /-- Less is, and the stream is closed. -/
  | notClosed {p : P} {before handed : List B} {d d' : Disk P B} (e : E)
    (hs : d.stream = some (p, before)) (h : Passes d p before handed d') :
    Does .close d (.error e) { d' with stream := none }
  /-- A file is removed. -/
  | removed {p : P} {d : Disk P B} {content : List B} (hp : d.files p = some content) :
    Does (.remove p) d (.ok ()) (d.put p none)
  /-- Or it is not; one that is not there cannot be. -/
  | notRemoved {p : P} {d : Disk P B} (e : E) : Does (.remove p) d (.error e) d
  /-- A file is renamed. -/
  | renamed {p q : P} {d : Disk P B} {content : List B} (hp : d.files p = some content) :
    Does (.rename p q) d (.ok ()) ((d.put p none).put q (some content))
  /-- Or it is not. -/
  | notRenamed {p q : P} {d : Disk P B} (e : E) : Does (.rename p q) d (.error e) d

/-- A file that an operation has nothing to do with. -/
def Op.spares (q : P) (d : Disk P B) : Op P B → Prop
  | .create p => q ≠ p
  | .remove p => q ≠ p
  | .rename p p' => q ≠ p ∧ q ≠ p'
  | _ => ∀ s ∈ d.stream, q ≠ s.1

theorem Passes.spares {d d' : Disk P B} {p q : P} {written handed : List B}
    (h : Passes d p written handed d') (hq : q ≠ p) : d'.files q = d.files q := by
  rw [h.files, d.put_other hq]

/-- A file that an operation has nothing to do with stays as it is. -/
theorem Does.spares {op : Op P B} {d d' : Disk P B} {res : Except E Unit} {q : P}
    (h : Does op d res d') (hq : op.spares q d) : d'.files q = d.files q := by
  cases h with
  | created => exact d.put_other hq _
  | notCreated => rfl
  | written hs h => exact h.spares (hq _ hs)
  | notWritten e hs hn h => exact h.spares (hq _ hs)
  | flushed hs h => exact h.spares (hq _ hs)
  | notFlushed e hs h => exact h.spares (hq _ hs)
  | closed hs h => exact h.spares (hq _ hs)
  | notClosed e hs h => exact h.spares (hq _ hs)
  | removed hp => exact d.put_other hq _
  | notRemoved => rfl
  | renamed hp => rw [Disk.put_other _ hq.2, d.put_other hq.1]
  | notRenamed => rfl

/-! ### Programs -/

/-- A program: a result, or an operation and what follows when its report is known. -/
inductive Prog (P B E R : Type) where
  /-- The program ends. -/
  | done (result : R)
  /-- It asks for an operation. -/
  | ask (op : Op P B) (next : Except E Unit → Prog P B E R)

/-- One operation of a run. -/
structure Event (P B E : Type) where
  /-- The operation. -/
  op : Op P B
  /-- What it reported. -/
  report : Except E Unit
  /-- The disk after it. -/
  disk : Disk P B

/-- A run of a program: its operations, and its result if it was not interrupted. -/
inductive Runs : Prog P B E R → Disk P B → List (Event P B E) → Option R → Prop
  /-- The program is interrupted. -/
  | interrupted {g : Prog P B E R} {d : Disk P B} : Runs g d [] none
  /-- It ends. -/
  | done {result : R} {d : Disk P B} : Runs (.done result) d [] (some result)
  /-- It does one operation more. -/
  | ask {op : Op P B} {next : Except E Unit → Prog P B E R} {d d' : Disk P B} {report : Except E Unit}
    {t : List (Event P B E)} {r : Option R} (h : Does op d report d') (ht : Runs (next report) d' t r) :
    Runs (.ask op next) d (⟨op, report, d'⟩ :: t) r

/-- Every disk that a run passes through. -/
def points (d : Disk P B) (t : List (Event P B E)) : List (Disk P B) := d :: t.map Event.disk

/-- The disk that a run leaves. -/
def left (d : Disk P B) (t : List (Event P B E)) : Disk P B := (t.map Event.disk).getLastD d

omit [DecidableEq P] in
theorem left_cons (d : Disk P B) (x : Event P B E) (t : List (Event P B E)) :
    left d (x :: t) = left x.disk t := by
  cases t <;> rfl

theorem Runs.of_done {result : R} {d : Disk P B} {t : List (Event P B E)} {r : Option R}
    (h : Runs (.done result : Prog P B E R) d t r) : t = [] ∧ (r = none ∨ r = some result) := by
  cases h with
  | interrupted => exact ⟨rfl, Or.inl rfl⟩
  | done => exact ⟨rfl, Or.inr rfl⟩

theorem Runs.of_ask {op : Op P B} {next : Except E Unit → Prog P B E R} {d : Disk P B}
    {t : List (Event P B E)} {r : Option R} (h : Runs (.ask op next) d t r) :
    (t = [] ∧ r = none) ∨ ∃ report d' t', Does op d report d' ∧ t = ⟨op, report, d'⟩ :: t' ∧
      Runs (next report) d' t' r := by
  cases h with
  | interrupted => exact Or.inl ⟨rfl, rfl⟩
  | ask h ht => exact Or.inr ⟨_, _, _, h, rfl, ht⟩

end

end Storage
