import Mathlib

/-!
# Reading with a cursor

A reader goes over a buffer with a cursor of fixed width, fails or yields a value, and may
change what it reads into on its way. Beside the cursor it keeps which parts of the buffer it
looked at. What a reader does on a part of a buffer does not depend on what follows.
-/

namespace Cursor

variable {σ α β γ : Type}

/-! ### Numbers in bytes -/

/-- Bytes of a number, the least significant first. -/
def leBytes (w n : ℕ) : List UInt8 := (List.range w).map fun i => (n / 256 ^ i).toUInt8

/-- The number in bytes, the least significant first. -/
def leNat (b : List UInt8) : ℕ := b.foldr (fun c n => c.toNat + 256 * n) 0

@[simp] theorem length_leBytes (w n : ℕ) : (leBytes w n).length = w := by
  simp [leBytes]

theorem leBytes_succ (w n : ℕ) : leBytes (w + 1) n = n.toUInt8 :: leBytes w (n / 256) := by
  unfold leBytes
  rw [List.range_succ_eq_map, List.map_cons, List.map_map]
  simp only [Function.comp_def, pow_zero, Nat.div_one, pow_succ', Nat.div_div_eq_div_mul]

theorem leNat_leBytes (w : ℕ) : ∀ n, leNat (leBytes w n) = n % 256 ^ w := by
  induction w with
  | zero => intro n; simp [leBytes, leNat, Nat.mod_one]
  | succ w ih =>
    intro n
    have hrest : leNat (leBytes w (n / 256)) = n / 256 % 256 ^ w := ih (n / 256)
    rw [leBytes_succ]
    change (n.toUInt8).toNat + 256 * leNat (leBytes w (n / 256)) = _
    rw [hrest, pow_succ', Nat.mod_mul]
    rfl

/-! ### Readers -/

/-- Where a reader is. -/
structure Place (σ : Type) where
  /-- The cursor. -/
  pos : ℕ
  /-- The parts of the buffer that were looked at: where each begins, and how long it is. -/
  spans : List (ℕ × ℕ)
  /-- What is read into. -/
  out : σ

/-- A reader: a value, if it did not fail, and where it is then. -/
structure Reader (σ α : Type) where
  /-- What the reader does. -/
  run : Place σ → Option α × Place σ

instance : Monad (Reader σ) where
  pure a := ⟨fun p => (some a, p)⟩
  bind m f := ⟨fun p =>
    match m.run p with
    | (some a, p') => (f a).run p'
    | (none, p') => (none, p')⟩

/-- A reader that fails. -/
def fail : Reader σ α := ⟨fun p => (none, p)⟩

/-- Changes what is read into. -/
def store (f : σ → σ) : Reader σ Unit := ⟨fun p => (some (), { p with out := f p.out })⟩

/-- The next bytes of a buffer, with a cursor that wraps around at `size`. The room is computed as a
difference, so that no length makes the cursor wrap around. -/
def take (size : ℕ) (s : List β) (n : ℕ) : Reader σ (List β) := ⟨fun p =>
  if s.length < p.pos ∨ s.length - p.pos < n then (none, p)
  else (some ((s.drop p.pos).take n), { p with pos := (p.pos + n) % size, spans := p.spans ++ [(p.pos, n)] })⟩

theorem run_bind (m : Reader σ α) (f : α → Reader σ β) (p : Place σ) :
    (m >>= f).run p =
      match m.run p with
      | (some a, p') => (f a).run p'
      | (none, p') => (none, p') := rfl

theorem run_take (size : ℕ) (s : List β) (n : ℕ) (p : Place σ) : (take size s n).run p =
    if s.length < p.pos ∨ s.length - p.pos < n then (none, p)
    else (some ((s.drop p.pos).take n), { p with pos := (p.pos + n) % size, spans := p.spans ++ [(p.pos, n)] }) :=
  rfl

/-! ### What a reader keeps -/

/-- A reader keeps a property of where it is, also when it fails. -/
def Keeps (I : Place σ → Prop) (m : Reader σ α) : Prop := ∀ p, I p → I (m.run p).2

theorem keeps_pure (I : Place σ → Prop) (a : α) : Keeps I (pure a) := fun _ h => h

theorem keeps_fail (I : Place σ → Prop) : Keeps I (fail : Reader σ α) := fun _ h => h

theorem Keeps.bind {I : Place σ → Prop} {m : Reader σ α} {f : α → Reader σ β} (hm : Keeps I m)
    (hf : ∀ a, Keeps I (f a)) : Keeps I (m >>= f) := by
  intro p hp
  have hp' := hm p hp
  rw [run_bind]
  generalize m.run p = q at hp' ⊢
  obtain ⟨r, p'⟩ := q
  cases r with
  | none => exact hp'
  | some a => exact hf a p' hp'

/-- Parts that follow one another, from one place to another. -/
inductive Tiles (a : ℕ) : List (ℕ × ℕ) → ℕ → Prop
  /-- No part. -/
  | nil : Tiles a [] a
  /-- One part more, from where the others end. -/
  | snoc {l : List (ℕ × ℕ)} {b : ℕ} (n : ℕ) (h : Tiles a l b) : Tiles a (l ++ [(b, n)]) (b + n)

theorem Tiles.le {a b : ℕ} {l : List (ℕ × ℕ)} (h : Tiles a l b) : a ≤ b := by
  induction h with
  | nil => exact le_refl a
  | snoc n h ih => exact ih.trans (Nat.le_add_right _ n)

/-- A part ends before the last one does. -/
theorem Tiles.span_le {a b : ℕ} {l : List (ℕ × ℕ)} (h : Tiles a l b) : ∀ x ∈ l, x.1 + x.2 ≤ b := by
  induction h with
  | nil => exact fun _ hx => (nomatch hx)
  | snoc n h ih =>
    intro x hx
    rcases List.mem_append.mp hx with hx | hx
    · exact (ih x hx).trans (Nat.le_add_right _ n)
    · rw [List.mem_singleton.mp hx]

/-- A reader never is beyond the end of its buffer, and what it looked at is what is before its
cursor, each byte once and in order. -/
def Inside (s : List β) (p : Place σ) : Prop := p.pos ≤ s.length ∧ Tiles 0 p.spans p.pos

theorem keeps_take {size : ℕ} {s : List β} (hs : s.length < size) (n : ℕ) :
    Keeps (Inside (σ := σ) s) (take size s n) := by
  intro p hp
  rw [run_take]
  split_ifs with h
  · exact hp
  · have hroom : p.pos + n ≤ s.length := by omega
    have hpos : (p.pos + n) % size = p.pos + n := Nat.mod_eq_of_lt (by omega)
    change (p.pos + n) % size ≤ s.length ∧ Tiles 0 (p.spans ++ [(p.pos, n)]) ((p.pos + n) % size)
    rw [hpos]
    exact ⟨hroom, hp.2.snoc n⟩

/-! ### What follows does not matter -/

/-- A reader that does the same when the buffer goes on, whatever it reads into. -/
def ReadsOn (m : List β → Reader σ α) : Prop :=
  ∀ s t p q a p', q.pos = p.pos → (m s).run p = (some a, p') →
    ∃ q', (m (s ++ t)).run q = (some a, q') ∧ q'.pos = p'.pos

theorem readsOn_pure (a : α) : ReadsOn fun _ : List β => (pure a : Reader σ α) := by
  intro s t p q b p' hpos h
  cases h
  exact ⟨q, rfl, hpos⟩

theorem readsOn_fail : ReadsOn fun _ : List β => (fail : Reader σ α) := fun _ _ _ _ _ _ _ h => (nomatch h)

theorem readsOn_store (f : σ → σ) : ReadsOn fun _ : List β => store f := by
  intro s t p q b p' hpos h
  cases h
  exact ⟨_, rfl, hpos⟩

theorem ReadsOn.bind {m : List β → Reader σ α} {f : List β → α → Reader σ γ} (hm : ReadsOn m)
    (hf : ∀ a, ReadsOn fun s => f s a) : ReadsOn fun s => m s >>= f s := by
  intro s t p q b p' hpos h
  rw [run_bind] at h
  cases hms : (m s).run p with
  | mk r p₁ =>
    rw [hms] at h
    cases r with
    | none => cases h
    | some a =>
      obtain ⟨q₁, hq₁, hpos₁⟩ := hm s t p q a p₁ hpos hms
      rw [run_bind, hq₁]
      exact hf a s t p₁ q₁ b p' hpos₁ h

theorem readsOn_take (size n : ℕ) : ReadsOn fun s : List β => (take size s n : Reader σ (List β)) := by
  intro s t p q a p' hpos h
  rw [run_take] at h
  split_ifs at h with hc
  · cases h
  · have hroom : p.pos + n ≤ s.length := by omega
    cases h
    have hsame : ((s ++ t).drop p.pos).take n = (s.drop p.pos).take n := by
      rw [List.drop_append_of_le_length (by omega),
        List.take_append_of_le_length (by rw [List.length_drop]; omega)]
    rw [run_take, hpos, if_neg (by rw [List.length_append]; omega), hsame]
    exact ⟨_, rfl, rfl⟩

/-! ### What a reader makes of a part of the buffer -/

/-- A reader goes over a part of a buffer, yields a value and changes what is read into. -/
def Reads (size : ℕ) (m : List β → Reader σ α) (part : List β) (a : α) (f : σ → σ) : Prop :=
  ∀ before after p, p.pos = before.length → (before ++ (part ++ after)).length < size →
    ∃ spans, (m (before ++ (part ++ after))).run p = (some a, ⟨before.length + part.length, spans, f p.out⟩)

theorem reads_const {size : ℕ} {m : Reader σ α} {a : α} {f : σ → σ}
    (h : ∀ p, m.run p = (some a, { p with out := f p.out })) : Reads (β := β) size (fun _ => m) [] a f := by
  intro before after p hp _
  exact ⟨p.spans, by rw [h, hp]; rfl⟩

theorem Reads.bind {size : ℕ} {m : List β → Reader σ α} {k : List β → α → Reader σ γ} {part part' : List β}
    {a : α} {b : γ} {f g : σ → σ} (hm : Reads size m part a f) (hk : Reads size (fun s => k s a) part' b g) :
    Reads size (fun s => m s >>= k s) (part ++ part') b (g ∘ f) := by
  intro before after p hp hlen
  rw [List.append_assoc part] at hlen ⊢
  obtain ⟨spans, hms⟩ := hm before (part' ++ after) p hp hlen
  have hbuffer : before ++ (part ++ (part' ++ after)) = (before ++ part) ++ (part' ++ after) :=
    (List.append_assoc ..).symm
  rw [hbuffer] at hlen hms
  obtain ⟨spans', hks⟩ := hk (before ++ part) after ⟨(before ++ part).length, spans, f p.out⟩ rfl hlen
  refine ⟨spans', ?_⟩
  rw [hbuffer, run_bind, hms]
  dsimp only
  rw [← List.length_append, hks, List.length_append, List.length_append, Nat.add_assoc]
  rfl

theorem reads_take {size n : ℕ} {part : List β} (hn : part.length = n) :
    Reads (σ := σ) size (fun s => take size s n) part part id := by
  intro before after p hp hlen
  subst hn
  simp only [List.length_append] at hlen
  refine ⟨p.spans ++ [(p.pos, part.length)], ?_⟩
  rw [run_take, if_neg (by simp only [List.length_append]; omega), hp, List.drop_left, List.take_left,
    Nat.mod_eq_of_lt (by omega)]
  rfl

end Cursor
