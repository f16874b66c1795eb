import VoidPalabra.Digest
import VoidPalabra.Fips180

/-!
# The hash as it runs

The hash over the memory it reads and the buffer it writes, where a read outside the message or
the buffer, and a write outside the buffer, have no result. Every run has one: the blocks it
processes are those of the padded message, and the digest is the one of the standard.
-/

namespace VoidPalabra.Sha256

/-- The word at an address. -/
def wordAt (mem : Bytes) (p : ℕ) : Option UInt32 := do
  let b0 ← mem[p]?
  let b1 ← mem[p + 1]?
  let b2 ← mem[p + 2]?
  let b3 ← mem[p + 3]?
  pure ((b0.toUInt32 <<< 24) ||| (b1.toUInt32 <<< 16) ||| (b2.toUInt32 <<< 8) ||| b3.toUInt32)

/-- The first loop of `sha256_block`: the words of a block. -/
def loadWords (mem : Bytes) (p : ℕ) : Option (List UInt32) :=
  (List.range 16).mapM fun i => wordAt mem (p + i * 4)

/-- One round of the second loop: a word more. -/
def nextWord (w : List UInt32) (i : ℕ) : Option (List UInt32) := do
  let w15 ← w[i - 15]?
  let w2 ← w[i - 2]?
  let w16 ← w[i - 16]?
  let w7 ← w[i - 7]?
  let s0 := rotr w15 7 ^^^ rotr w15 18 ^^^ (w15 >>> 3)
  let s1 := rotr w2 17 ^^^ rotr w2 19 ^^^ (w2 >>> 10)
  pure (w ++ [w16 + s0 + w7 + s1])

/-- One round of the third loop, with the words moved on in place. -/
def roundAt (w : List UInt32) (s : State) (i : ℕ) : Option State := do
  let k ← kK[i]?
  let wi ← w[i]?
  let s1 := rotr s.e 6 ^^^ rotr s.e 11 ^^^ rotr s.e 25
  let ch := (s.e &&& s.f) ^^^ (~~~s.e &&& s.g)
  let t1 := s.h + s1 + ch + k + wi
  let s0 := rotr s.a 2 ^^^ rotr s.a 13 ^^^ rotr s.a 22
  let maj := (s.a &&& s.b) ^^^ (s.a &&& s.c) ^^^ (s.b &&& s.c)
  let t2 := s0 + maj
  let s := { s with h := s.g }
  let s := { s with g := s.f }
  let s := { s with f := s.e }
  let s := { s with e := s.d + t1 }
  let s := { s with d := s.c }
  let s := { s with c := s.b }
  let s := { s with b := s.a }
  pure { s with a := t1 + t2 }

/-- `sha256_block` on the bytes at an address. -/
def sha256Block (h : State) (mem : Bytes) (p : ℕ) : Option State := do
  let w ← loadWords mem p
  let w ← (List.range' 16 48).foldlM nextWord w
  let t ← (List.range 64).foldlM (roundAt w) h
  pure ⟨h.a + t.a, h.b + t.b, h.c + t.c, h.d + t.d, h.e + t.e, h.f + t.f, h.g + t.g, h.h + t.h⟩

/-- `tail[i] = b`. -/
def setByte (tail : Bytes) (i : ℕ) (b : UInt8) : Option Bytes :=
  if i < tail.length then some (tail.set i b) else none

/-- `memcpy` to the start of the buffer. -/
def copyBytes (data : Bytes) (p n : ℕ) (tail : Bytes) : Option Bytes :=
  (List.range n).foldlM (fun tail j => do
    let b ← data[p + j]?
    setByte tail j b) tail

/-- The number of bits, from the end of the tail. -/
def putLength (tailLen : ℕ) (bits : UInt64) (tail : Bytes) : Option Bytes :=
  (List.range 8).foldlM (fun tail i =>
    setByte tail (tailLen - 1 - i) ((bits >>> (UInt64.ofNat (i * 8))) &&& 0xFF).toUInt8) tail

/-- The tail buffer, and how much of it is used. -/
def tailOf (data : Bytes) : Option (Bytes × ℕ) := do
  let full := data.length / 64
  let rem := data.length - full * 64
  let tail ← copyBytes data (full * 64) rem (List.replicate 128 0)
  let tail ← setByte tail rem 0x80
  let tailLen := if rem < 56 then 64 else 128
  let bits := UInt64.ofNat data.length * 8
  let tail ← putLength tailLen bits tail
  pure (tail, tailLen)

/-- The calls of `sha256_block`: on the whole blocks of the message, then on those of the tail. -/
def absorb {σ : Type} (call : σ → Bytes → ℕ → Option σ) (s : σ) (data : Bytes) : Option σ := do
  let s ← (List.range (data.length / 64)).foldlM (fun s i => call s data (i * 64)) s
  let (tail, tailLen) ← tailOf data
  (List.range (tailLen / 64)).foldlM (fun s i => call s tail (i * 64)) s

/-- The bytes of a state. -/
def digestBytes (s : State) : Bytes := [s.a, s.b, s.c, s.d, s.e, s.f, s.g, s.h].flatMap wordBytes

/-- `sha256` on a message in memory. -/
def sha256Run (data : Bytes) : Option Bytes := do
  let s ← absorb sha256Block initial data
  pure (digestBytes s)

/-- A call that only keeps the 64 bytes it is about. -/
def keepBlock (seen : List Bytes) (mem : Bytes) (p : ℕ) : Option (List Bytes) := do
  let b ← (List.range 64).mapM fun j => mem[p + j]?
  pure (seen ++ [b])

/-! ### Memory -/

/-- The 64 bytes at an address. -/
def slice (mem : Bytes) (p : ℕ) : Bytes := (mem.drop p).take 64

theorem slice_getElem? {mem : Bytes} {p j : ℕ} (hj : j < 64) : (slice mem p)[j]? = mem[p + j]? := by
  rw [slice, List.getElem?_take_of_lt hj, List.getElem?_drop]

theorem length_slice {mem : Bytes} {p : ℕ} (h : p + 64 ≤ mem.length) : (slice mem p).length = 64 := by
  rw [slice, List.length_take, List.length_drop]
  omega

/-- Reads that all have a value, one after another. -/
theorem mapM_range {α : Type} {n : ℕ} {f : ℕ → Option α} {g : ℕ → α} (h : ∀ i < n, f i = some (g i)) :
    (List.range n).mapM f = some ((List.range n).map g) := by
  have : ∀ l : List ℕ, (∀ i ∈ l, i < n) → l.mapM f = some (l.map g) := by
    intro l
    induction l with
    | nil => exact fun _ => rfl
    | cons i l ih =>
      intro hl
      rw [List.mapM_cons, h i (hl i List.mem_cons_self), ih fun j hj => hl j (List.mem_cons_of_mem _ hj)]
      rfl
  exact this _ fun i hi => List.mem_range.mp hi

/-- Steps that all have a result, one after another. -/
theorem foldlM_some {α σ : Type} {l : List α} {f : σ → α → Option σ} {g : σ → α → σ}
    (h : ∀ a ∈ l, ∀ s, f s a = some (g s a)) (s : σ) : l.foldlM f s = some (l.foldl g s) := by
  induction l generalizing s with
  | nil => rfl
  | cons a l ih =>
    rw [List.foldlM_cons, h a List.mem_cons_self, List.foldl_cons]
    exact ih (fun b hb => h b (List.mem_cons_of_mem _ hb)) _

/-- A list is its items in order. -/
theorem map_getD_range (l : Bytes) : (List.range l.length).map (fun j => l.getD j 0) = l :=
  List.ext_getElem (by rw [List.length_map, List.length_range]) fun i _ hi => by
    rw [List.getElem_map, List.getElem_range, List.getD_eq_getElem l 0 hi]

/-- A byte of a block that is within the memory. -/
theorem getElem?_slice {mem : Bytes} {p j : ℕ} (h : p + 64 ≤ mem.length) (hj : j < 64) :
    mem[p + j]? = some ((slice mem p).getD j 0) := by
  have hlen : j < (slice mem p).length := by
    rw [length_slice h]
    exact hj
  rw [← slice_getElem? hj, List.getElem?_eq_getElem hlen, List.getD_eq_getElem _ 0 hlen]

/-- The bytes that a call keeps are there when it is within the memory. -/
theorem keepBlock_eq {mem : Bytes} {p : ℕ} (h : p + 64 ≤ mem.length) (seen : List Bytes) :
    keepBlock seen mem p = some (seen ++ [slice mem p]) := by
  have hall : (List.range 64).map (fun j => (slice mem p).getD j 0) = slice mem p := by
    have := map_getD_range (slice mem p)
    rwa [length_slice h] at this
  rw [keepBlock, mapM_range fun j hj => getElem?_slice h hj, hall]
  rfl

/-! ### Words -/

/-- Four bytes as a number. -/
def number (b0 b1 b2 b3 : UInt8) : ℕ :=
  ((b0.toNat * 256 + b1.toNat) * 256 + b2.toNat) * 256 + b3.toNat

theorem toNat_joined (b0 b1 b2 b3 : UInt8) :
    ((b0.toUInt32 <<< 24) ||| (b1.toUInt32 <<< 16) ||| (b2.toUInt32 <<< 8) ||| b3.toUInt32).toNat =
      number b0 b1 b2 b3 := by
  have h0 := b0.toNat_lt
  have h1 := b1.toNat_lt
  have h2 := b2.toNat_lt
  have h3 := b3.toNat_lt
  have e0 : (b0.toUInt32 <<< 24).toNat = 2 ^ 24 * b0.toNat := by
    rw [UInt32.toNat_shiftLeft, UInt8.toNat_toUInt32, Nat.shiftLeft_eq, Nat.mul_comm]
    exact Nat.mod_eq_of_lt (by simp; omega)
  have e1 : (b1.toUInt32 <<< 16).toNat = 2 ^ 16 * b1.toNat := by
    rw [UInt32.toNat_shiftLeft, UInt8.toNat_toUInt32, Nat.shiftLeft_eq, Nat.mul_comm]
    exact Nat.mod_eq_of_lt (by simp; omega)
  have e2 : (b2.toUInt32 <<< 8).toNat = 2 ^ 8 * b2.toNat := by
    rw [UInt32.toNat_shiftLeft, UInt8.toNat_toUInt32, Nat.shiftLeft_eq, Nat.mul_comm]
    exact Nat.mod_eq_of_lt (by simp; omega)
  rw [UInt32.toNat_or, UInt32.toNat_or, UInt32.toNat_or, e0, e1, e2, UInt8.toNat_toUInt32,
    ← Nat.two_pow_add_eq_or_of_lt (by omega : 2 ^ 16 * b1.toNat < 2 ^ 24),
    show 2 ^ 24 * b0.toNat + 2 ^ 16 * b1.toNat = 2 ^ 16 * (b0.toNat * 256 + b1.toNat) by omega,
    ← Nat.two_pow_add_eq_or_of_lt (by omega : 2 ^ 8 * b2.toNat < 2 ^ 16),
    show 2 ^ 16 * (b0.toNat * 256 + b1.toNat) + 2 ^ 8 * b2.toNat =
      2 ^ 8 * ((b0.toNat * 256 + b1.toNat) * 256 + b2.toNat) by omega,
    ← Nat.two_pow_add_eq_or_of_lt (by omega : b3.toNat < 2 ^ 8), number]
  omega

theorem toNat_append_byte {w : ℕ} (x : BitVec w) (b : UInt8) :
    (x ++ b.toBitVec).toNat = x.toNat * 256 + b.toNat := by
  rw [BitVec.toNat_append, ← Nat.shiftLeft_add_eq_or_of_lt b.toBitVec.isLt, Nat.shiftLeft_eq]
  rfl

/-- Shifted and joined, four bytes are their concatenation. -/
theorem joined_eq (b0 b1 b2 b3 : UInt8) :
    (b0.toUInt32 <<< 24) ||| (b1.toUInt32 <<< 16) ||| (b2.toUInt32 <<< 8) ||| b3.toUInt32 =
      ⟨b0.toBitVec ++ b1.toBitVec ++ b2.toBitVec ++ b3.toBitVec⟩ := by
  apply UInt32.toNat_inj.mp
  rw [toNat_joined]
  change number b0 b1 b2 b3 = (b0.toBitVec ++ b1.toBitVec ++ b2.toBitVec ++ b3.toBitVec).toNat
  rw [toNat_append_byte, toNat_append_byte, toNat_append_byte]
  rfl

/-- A byte is shifted into a word. -/
theorem shift_byte {w : UInt32} {c : UInt8} (h : w.toNat < 2 ^ 24) :
    ((w <<< 8) ||| c.toUInt32).toNat = w.toNat * 256 + c.toNat := by
  have hshift : (w <<< 8).toNat = w.toNat <<< 8 := by
    rw [UInt32.toNat_shiftLeft]
    refine Nat.mod_eq_of_lt ?_
    rw [Nat.shiftLeft_eq]
    simp
    omega
  rw [UInt32.toNat_or, hshift, UInt8.toNat_toUInt32, ← Nat.shiftLeft_add_eq_or_of_lt c.toNat_lt,
    Nat.shiftLeft_eq]

/-- The word of four bytes. -/
theorem word_four (b0 b1 b2 b3 : UInt8) : word [b0, b1, b2, b3] =
    ⟨b0.toBitVec ++ b1.toBitVec ++ b2.toBitVec ++ b3.toBitVec⟩ := by
  have h0 := b0.toNat_lt
  have h1 := b1.toNat_lt
  have h2 := b2.toNat_lt
  have e0 := shift_byte (w := 0) (c := b0) (by decide)
  have hw0 : ((0 : UInt32) <<< 8 ||| b0.toUInt32).toNat = b0.toNat := by
    rw [e0]
    exact Nat.zero_add _
  have e1 := shift_byte (c := b1) (lt_of_eq_of_lt hw0 (by omega))
  have e2 := shift_byte (c := b2) (lt_of_eq_of_lt e1 (by rw [hw0]; omega))
  have e3 := shift_byte (c := b3) (lt_of_eq_of_lt e2 (by rw [e1, hw0]; omega))
  rw [← joined_eq]
  apply UInt32.toNat_inj.mp
  rw [toNat_joined, word, List.foldl_cons, List.foldl_cons, List.foldl_cons, List.foldl_cons,
    List.foldl_nil, e3, e2, e1, hw0, number]

/-- The word that a read gives is the word of the block. -/
theorem wordAt_eq {mem : Bytes} {p i : ℕ} (h : p + 64 ≤ mem.length) (hi : i < 16) :
    wordAt mem (p + i * 4) = some (Fips180.schedule (slice mem p) i) := by
  have hget : ∀ j < 4, mem[p + i * 4 + j]? = some ((slice mem p).getD (4 * i + j) 0) := by
    intro j hj
    rw [Nat.add_assoc, Nat.mul_comm i 4]
    exact getElem?_slice h (by omega)
  have h0 := hget 0 (by decide)
  rw [Nat.add_zero, Nat.add_zero] at h0
  rw [Fips180.schedule_input hi, wordAt, h0, hget 1 (by decide), hget 2 (by decide),
    hget 3 (by decide), Fips180.word, ← joined_eq]
  rfl

/-- The words of a block are read. -/
theorem loadWords_eq {mem : Bytes} {p : ℕ} (h : p + 64 ≤ mem.length) :
    loadWords mem p = some ((List.range 16).map (Fips180.schedule (slice mem p))) :=
  mapM_range fun _ hi => wordAt_eq h hi

/-- The second loop goes on with the schedule of the standard. -/
theorem nextWord_eq (block : Bytes) {t : ℕ} (ht : 16 ≤ t) :
    nextWord ((List.range t).map (Fips180.schedule block)) t =
      some ((List.range (t + 1)).map (Fips180.schedule block)) := by
  have hget : ∀ j < t, ((List.range t).map (Fips180.schedule block))[j]? =
      some (Fips180.schedule block j) := by
    intro j hj
    rw [List.getElem?_map, List.getElem?_range hj]
    rfl
  rw [nextWord, hget _ (by omega), hget _ (by omega), hget _ (by omega), hget _ (by omega),
    List.range_succ, List.map_append, List.map_singleton, Fips180.schedule_rest ht]
  refine congrArg some (congrArg (_ ++ [·]) ?_)
  change Fips180.schedule block (t - 16) + Fips180.sigma0 (Fips180.schedule block (t - 15)) +
    Fips180.schedule block (t - 7) + Fips180.sigma1 (Fips180.schedule block (t - 2)) = _
  ac_rfl

/-- The words of a block after the second loop. -/
theorem fill_eq (block : Bytes) (n : ℕ) :
    (List.range' 16 n).foldlM nextWord ((List.range 16).map (Fips180.schedule block)) =
      some ((List.range (16 + n)).map (Fips180.schedule block)) := by
  induction n with
  | zero => rfl
  | succ n ih =>
    rw [List.range'_concat, List.foldlM_append, ih, Nat.one_mul, Option.bind_eq_bind,
      Option.bind_some, List.foldlM_cons, nextWord_eq block (Nat.le_add_right 16 n)]
    rfl

/-! ### Blocks -/

/-- A state is a hash value. -/
def State.hash (s : State) : Fips180.Hash := ⟨s.a, s.b, s.c, s.d, s.e, s.f, s.g, s.h⟩

/-- The table holds the constants of the standard. -/
theorem kK_getElem? {t : ℕ} (ht : t < 64) : kK[t]? = some (Fips180.K t) := by
  have h : ∀ t < 64, kK[t]? = some (Fips180.rootFraction 3 (Fips180.primes.getD t 0)) := by
    decide +kernel
  rw [h t ht, Fips180.K, Fips180.nth_prime_eq ht]

/-- The first state is the initial hash value of the standard. -/
theorem initial_hash : initial.hash = Fips180.H0 := by
  have h : ∀ t < 8, [initial.a, initial.b, initial.c, initial.d, initial.e, initial.f, initial.g,
      initial.h][t]? = some (Fips180.rootFraction 2 (Fips180.primes.getD t 0)) := by
    decide +kernel
  have hroot : ∀ t < 8, [initial.a, initial.b, initial.c, initial.d, initial.e, initial.f, initial.g,
      initial.h][t]? = some (Fips180.rootFraction 2 (Nat.nth Nat.Prime t)) := by
    intro t ht
    rw [h t ht, Fips180.nth_prime_eq (Nat.lt_trans ht (by decide))]
  rw [Fips180.H0, State.hash, Fips180.Hash.mk.injEq]
  exact ⟨Option.some.inj (hroot 0 (by decide)), Option.some.inj (hroot 1 (by decide)),
    Option.some.inj (hroot 2 (by decide)), Option.some.inj (hroot 3 (by decide)),
    Option.some.inj (hroot 4 (by decide)), Option.some.inj (hroot 5 (by decide)),
    Option.some.inj (hroot 6 (by decide)), Option.some.inj (hroot 7 (by decide))⟩

/-- A round is a step of the computation. -/
theorem round_hash (s : State) (k w : UInt32) : (round s (k, w)).hash = Fips180.step s.hash k w := rfl

/-- What the rounds make of a state. -/
def rounds (block : Bytes) (s : State) : State :=
  (kK.zip ((List.range 64).map (Fips180.schedule block))).foldl round s

/-- The table is the constants of the standard, in order. -/
theorem kK_eq : kK = (List.range 64).map Fips180.K := by
  refine List.ext_getElem? fun t => ?_
  by_cases ht : t < 64
  · rw [kK_getElem? ht, List.getElem?_map, List.getElem?_range ht]
    rfl
  · rw [List.getElem?_eq_none (Nat.not_lt.mp ht), List.getElem?_eq_none]
    rw [List.length_map, List.length_range]
    exact Nat.not_lt.mp ht

theorem rounds_eq (block : Bytes) (s : State) : rounds block s =
    (List.range 64).foldl (fun s t => round s (Fips180.K t, Fips180.schedule block t)) s := by
  rw [rounds, kK_eq, List.zip_map', List.foldl_map]

/-- The rounds are the steps of the computation. -/
theorem rounds_hash (block : Bytes) (s : State) : (rounds block s).hash =
    (List.range 64).foldl (fun s t => Fips180.step s (Fips180.K t) (Fips180.schedule block t))
      s.hash := by
  rw [rounds_eq]
  generalize List.range 64 = ts
  induction ts generalizing s with
  | nil => rfl
  | cons t ts ih => rw [List.foldl_cons, List.foldl_cons, ih, round_hash]

/-- The third loop runs through. -/
theorem roundAt_eq (block : Bytes) (s : State) :
    (List.range 64).foldlM (roundAt ((List.range 64).map (Fips180.schedule block))) s =
      some (rounds block s) := by
  rw [rounds_eq]
  refine foldlM_some (fun t ht s => ?_) s
  have ht := List.mem_range.mp ht
  rw [roundAt, kK_getElem? ht, List.getElem?_map, List.getElem?_range ht]
  rfl

/-- A schedule that is kept latest word first is the schedule of the standard. -/
theorem schedule_eq {block : Bytes} (h : block.length = 64) (n : ℕ) : schedule block n =
    ((List.range (16 + n)).map (Fips180.schedule block)).reverse := by
  induction n with
  | zero =>
    rw [schedule, Nat.add_zero]
    refine congrArg List.reverse (List.map_congr_left fun i hi => ?_)
    have hi := List.mem_range.mp hi
    have hfour : (block.drop (i * 4)).take 4 = [block.getD (4 * i) 0, block.getD (4 * i + 1) 0,
        block.getD (4 * i + 2) 0, block.getD (4 * i + 3) 0] := by
      refine List.ext_getElem? fun j => ?_
      by_cases hj : j < 4
      · rw [List.getElem?_take_of_lt hj, List.getElem?_drop, Nat.mul_comm i 4]
        have hget : block[4 * i + j]? = some (block.getD (4 * i + j) 0) := by
          rw [List.getD_eq_getElem block 0 (by omega), List.getElem?_eq_getElem (by omega)]
        rw [hget]
        interval_cases j <;> rfl
      · rw [List.getElem?_eq_none, List.getElem?_eq_none]
        · exact Nat.not_lt.mp hj
        · rw [List.length_take]
          omega
    rw [hfour, word_four, Fips180.schedule_input hi, Fips180.word]
  | succ n ih =>
    have hget : ∀ j < 16 + n, (schedule block n).getD j 0 = Fips180.schedule block (16 + n - 1 - j) := by
      intro j hj
      have hlen : j < ((List.range (16 + n)).map (Fips180.schedule block)).reverse.length := by
        simpa using hj
      rw [ih, List.getD_eq_getElem _ 0 hlen, List.getElem_reverse, List.getElem_map,
        List.getElem_range, List.length_map, List.length_range]
    rw [schedule, hget 14 (by omega), hget 1 (by omega), hget 15 (by omega), hget 6 (by omega), ih,
      ← Nat.add_assoc, List.range_succ, List.map_append, List.map_singleton, List.reverse_append,
      List.reverse_singleton, List.singleton_append, List.cons.injEq, and_iff_left rfl,
      Fips180.schedule_rest (Nat.le_add_right 16 n), show 16 + n - 1 - 14 = 16 + n - 15 by omega,
      show 16 + n - 1 - 1 = 16 + n - 2 by omega, show 16 + n - 1 - 15 = 16 + n - 16 by omega,
      show 16 + n - 1 - 6 = 16 + n - 7 by omega]
    change Fips180.schedule block (16 + n - 16) + Fips180.sigma0 (Fips180.schedule block (16 + n - 15)) +
      Fips180.schedule block (16 + n - 7) + Fips180.sigma1 (Fips180.schedule block (16 + n - 2)) = _
    ac_rfl

theorem block_eq {b : Bytes} (h : b.length = 64) (s : State) : block s b =
    ⟨s.a + (rounds b s).a, s.b + (rounds b s).b, s.c + (rounds b s).c, s.d + (rounds b s).d,
      s.e + (rounds b s).e, s.f + (rounds b s).f, s.g + (rounds b s).g, s.h + (rounds b s).h⟩ := by
  rw [block, schedule_eq h 48, List.reverse_reverse]
  rfl

/-- A block is compressed as the standard says. -/
theorem block_hash {b : Bytes} (h : b.length = 64) (s : State) :
    (block s b).hash = Fips180.compress s.hash b := by
  rw [block_eq h, Fips180.compress, ← rounds_hash, State.hash, Fips180.Hash.mk.injEq]
  exact ⟨UInt32.add_comm _ _, UInt32.add_comm _ _, UInt32.add_comm _ _, UInt32.add_comm _ _,
    UInt32.add_comm _ _, UInt32.add_comm _ _, UInt32.add_comm _ _, UInt32.add_comm _ _⟩

/-- A call within the memory finds its bytes. -/
theorem sha256Block_eq {mem : Bytes} {p : ℕ} (h : p + 64 ≤ mem.length) (s : State) :
    sha256Block s mem p = some (block s (slice mem p)) := by
  rw [block_eq (length_slice h), sha256Block, loadWords_eq h, Option.bind_eq_bind, Option.bind_some,
    fill_eq, Option.bind_eq_bind, Option.bind_some, roundAt_eq]
  rfl

/-! ### The tail -/

/-- Setting a byte behind others. -/
theorem setByte_append (a l : Bytes) {k : ℕ} (hk : k < l.length) (b : UInt8) :
    setByte (a ++ l) (a.length + k) b = some (a ++ l.set k b) := by
  rw [setByte, if_pos (by rw [List.length_append]; omega), List.set_append_right _ _ (by omega),
    Nat.add_sub_cancel_left]

/-- A copy within the message and the buffer. -/
theorem copyBytes_eq {data tail : Bytes} {p n : ℕ} (hp : p + n ≤ data.length) (hn : n ≤ tail.length) :
    copyBytes data p n tail = some ((data.drop p).take n ++ tail.drop n) := by
  rw [copyBytes]
  induction n with
  | zero => rfl
  | succ n ih =>
    have hlen : ((data.drop p).take n).length = n := by
      rw [List.length_take, List.length_drop]
      omega
    have hdata : n < (data.drop p).length := by
      rw [List.length_drop]
      omega
    obtain ⟨b, hb⟩ : ∃ b, (data.drop p)[n]? = some b := ⟨_, List.getElem?_eq_getElem hdata⟩
    have htake : (data.drop p).take (n + 1) = (data.drop p).take n ++ [b] := by
      rw [List.take_add_one, hb]
      rfl
    have hdrop : tail.drop n = tail[n] :: tail.drop (n + 1) := List.drop_eq_getElem_cons (by omega)
    have hset := setByte_append ((data.drop p).take n) (tail.drop n) (k := 0)
      (by rw [List.length_drop]; omega) b
    rw [hlen, Nat.add_zero, hdrop, List.set_cons_zero] at hset
    rw [List.getElem?_drop] at hb
    rw [List.range_succ, List.foldlM_append, ih (by omega) (by omega), Option.bind_eq_bind,
      Option.bind_some, List.foldlM_cons, hb, hdrop]
    simp only [Option.bind_eq_bind, Option.bind_some, hset, List.foldlM_nil]
    rw [htake, List.append_assoc, List.singleton_append]
    rfl

/-- A byte of the number of bits. -/
theorem lengthByte_eq {bits : UInt64} {i : ℕ} (hi : i < 8) :
    ((bits >>> (UInt64.ofNat (i * 8))) &&& 0xFF).toUInt8 = UInt8.ofNat (bits.toNat / 256 ^ i) := by
  have hshift : (bits >>> (UInt64.ofNat (i * 8))).toNat = bits.toNat / 256 ^ i := by
    have hn : (UInt64.ofNat (i * 8)).toNat = i * 8 :=
      UInt64.toNat_ofNat_of_lt (Nat.lt_of_lt_of_le (by omega : i * 8 < 64) (by decide))
    rw [UInt64.toNat_shiftRight, hn, Nat.mod_eq_of_lt (by omega), Nat.shiftRight_eq_div_pow,
      Nat.mul_comm, Nat.pow_mul]
  apply UInt8.toNat_inj.mp
  rw [UInt64.toNat_toUInt8, UInt64.toNat_and, hshift]
  change (bits.toNat / 256 ^ i &&& 255) % 256 = _
  rw [Nat.and_two_pow_sub_one_eq_mod _ 8]
  change bits.toNat / 256 ^ i % 256 % 256 = bits.toNat / 256 ^ i % 256
  exact Nat.mod_mod _ _

/-- The number of bits, written behind some bytes. -/
theorem putLength_eq (a b : Bytes) (bits : UInt64) :
    putLength (a.length + 8) bits (a ++ (List.replicate 8 0 ++ b)) =
      some (a ++ (Fips180.bits64 bits.toNat ++ b)) := by
  have hstep : ∀ (l : Bytes) (i : ℕ), i < 8 → 8 ≤ l.length →
      setByte (a ++ l) (a.length + 8 - 1 - i) ((bits >>> (UInt64.ofNat (i * 8))) &&& 0xFF).toUInt8 =
        some (a ++ l.set (7 - i) (UInt8.ofNat (bits.toNat / 256 ^ i))) := by
    intro l i hi hl
    rw [show a.length + 8 - 1 - i = a.length + (7 - i) by omega, lengthByte_eq hi]
    exact setByte_append a l (by omega) _
  rw [putLength, show List.range 8 = [0, 1, 2, 3, 4, 5, 6, 7] from rfl]
  simp only [List.foldlM_cons, List.foldlM_nil, Option.bind_eq_bind]
  rw [hstep _ 0 (by decide) (by simp), Option.bind_some, hstep _ 1 (by decide) (by simp),
    Option.bind_some, hstep _ 2 (by decide) (by simp), Option.bind_some,
    hstep _ 3 (by decide) (by simp), Option.bind_some, hstep _ 4 (by decide) (by simp),
    Option.bind_some, hstep _ 5 (by decide) (by simp), Option.bind_some,
    hstep _ 6 (by decide) (by simp), Option.bind_some, hstep _ 7 (by decide) (by simp),
    Option.bind_some]
  rfl

/-- What the tail holds: the rest of the message, padded. -/
structure IsTail (data tail : Bytes) (tailLen : ℕ) : Prop where
  /-- The buffer has its size. -/
  length : tail.length = 128
  /-- The part that is used fills the padded message. -/
  padded : (Fips180.pad data).length = data.length / 64 * 64 + tailLen
  /-- It is what follows the whole blocks. -/
  used : tail.take tailLen = (Fips180.pad data).drop (data.length / 64 * 64)

/-- The tail is built within its buffer. -/
theorem tailOf_eq {data : Bytes} (h : data.length < 2 ^ 61) :
    ∃ tail tailLen, tailOf data = some (tail, tailLen) ∧ tailLen ≤ 128 ∧ IsTail data tail tailLen := by
  obtain ⟨full, hfull⟩ : ∃ full, full = data.length / 64 := ⟨_, rfl⟩
  obtain ⟨rem, hrem⟩ : ∃ rem, rem = data.length - full * 64 := ⟨_, rfl⟩
  obtain ⟨tailLen, htailLen⟩ : ∃ tailLen, tailLen = if rem < 56 then 64 else 128 := ⟨_, rfl⟩
  have hrem64 : rem < 64 := by omega
  have hle : rem + 9 ≤ tailLen ∧ tailLen ≤ 128 := by
    rw [htailLen]
    split <;> omega
  have hzeros : Fips180.zeros data.length = tailLen - rem - 9 := by
    rw [Fips180.zeros, htailLen]
    split <;> omega
  obtain ⟨rest, hrest⟩ : ∃ rest, rest = data.drop (full * 64) := ⟨_, rfl⟩
  have hrestlen : rest.length = rem := by rw [hrest, List.length_drop, hrem]
  have hbits : (UInt64.ofNat data.length * 8).toNat = 8 * data.length := by
    have hn : (UInt64.ofNat data.length).toNat = data.length :=
      UInt64.toNat_ofNat_of_lt (Nat.lt_trans h (by decide))
    rw [UInt64.toNat_mul, hn, Nat.mul_comm]
    exact Nat.mod_eq_of_lt (by change 8 * data.length < 2 ^ 64; omega)
  have hcopy : copyBytes data (full * 64) rem (List.replicate 128 0) =
      some (rest ++ List.replicate (128 - rem) 0) := by
    rw [copyBytes_eq (by omega) (by simp; omega), ← hrest, List.take_of_length_le (by omega),
      List.drop_replicate]
  have hmark : setByte (rest ++ List.replicate (128 - rem) 0) rem 0x80 =
      some ((rest ++ 0x80 :: List.replicate (tailLen - rem - 9) 0) ++
        (List.replicate 8 0 ++ List.replicate (128 - tailLen) 0)) := by
    have hset := setByte_append rest (List.replicate (128 - rem) 0) (k := 0) (by simp; omega) 0x80
    rw [hrestlen, Nat.add_zero] at hset
    rw [hset, show 128 - rem = (tailLen - rem - 9) + 8 + (128 - tailLen) + 1 by omega,
      List.replicate_succ, List.set_cons_zero, List.replicate_add, List.replicate_add]
    simp only [List.append_assoc, List.cons_append]
  have hput := putLength_eq (rest ++ 0x80 :: List.replicate (tailLen - rem - 9) 0)
    (List.replicate (128 - tailLen) 0) (UInt64.ofNat data.length * 8)
  have hlen : (rest ++ 0x80 :: List.replicate (tailLen - rem - 9) 0).length + 8 = tailLen := by
    rw [List.length_append, List.length_cons, List.length_replicate, hrestlen]
    omega
  rw [hlen, hbits] at hput
  refine ⟨(rest ++ 0x80 :: List.replicate (tailLen - rem - 9) 0) ++
    (Fips180.bits64 (8 * data.length) ++ List.replicate (128 - tailLen) 0), tailLen, ?_, hle.2,
    ?_, ?_, ?_⟩
  · rw [tailOf, ← hfull, ← hrem, ← htailLen, hcopy, Option.bind_eq_bind, Option.bind_some, hmark]
    dsimp only [Option.bind_eq_bind, Option.bind_some]
    rw [hput]
    rfl
  · rw [List.length_append, @List.length_append _ (Fips180.bits64 _), Fips180.length_bits64,
      List.length_replicate]
    omega
  · rw [Fips180.length_pad, hzeros, ← hfull]
    omega
  · rw [← List.append_assoc, List.take_left' (by rw [List.length_append, Fips180.length_bits64, hlen]),
      Fips180.pad, hzeros, ← hfull, List.drop_append_of_le_length (by omega), ← hrest,
      List.append_assoc, List.cons_append]

/-! ### Runs -/

/-- The blocks of a padded message are those of the message and those of the tail. -/
theorem blocks_pad {data tail : Bytes} {tailLen : ℕ} (h : IsTail data tail tailLen) :
    Fips180.blocks (Fips180.pad data) =
      (List.range (data.length / 64)).map (fun i => slice data (i * 64)) ++
        (List.range (tailLen / 64)).map fun i => slice tail (i * 64) := by
  have hcount : (Fips180.pad data).length / 64 = data.length / 64 + tailLen / 64 := by
    rw [h.padded]
    omega
  rw [Fips180.blocks, hcount, List.range_add, List.map_append, List.map_map]
  refine congrArg₂ (· ++ ·) (List.map_congr_left fun i hi => ?_) (List.map_congr_left fun i hi => ?_)
  · have hi := List.mem_range.mp hi
    rw [slice, Fips180.pad, List.drop_append_of_le_length (by omega), List.take_append_of_le_length]
    rw [List.length_drop]
    omega
  · have hi := List.mem_range.mp hi
    have hlen := h.length
    rw [Function.comp_apply, Nat.add_mul, ← List.drop_drop, ← h.used, slice, List.drop_take,
      List.take_take, Nat.min_eq_left (by omega)]

/-- A run whose calls find their bytes goes through the blocks of the padded message. -/
theorem absorb_eq {σ : Type} {call : σ → Bytes → ℕ → Option σ} {f : σ → Bytes → σ}
    (hcall : ∀ s mem p, p + 64 ≤ mem.length → call s mem p = some (f s (slice mem p)))
    {data : Bytes} (h : data.length < 2 ^ 61) (s : σ) :
    absorb call s data = some ((Fips180.blocks (Fips180.pad data)).foldl f s) := by
  obtain ⟨tail, tailLen, htail, hle, his⟩ := tailOf_eq h
  have hlen := his.length
  have hwhole := foldlM_some (l := List.range (data.length / 64))
    (f := fun s i => call s data (i * 64)) (g := fun s i => f s (slice data (i * 64)))
    (fun i hi s => hcall s data _ (by have := List.mem_range.mp hi; omega)) s
  rw [absorb, hwhole, Option.bind_eq_bind, Option.bind_some, htail, Option.bind_eq_bind,
    Option.bind_some]
  dsimp only
  rw [foldlM_some (g := fun s i => f s (slice tail (i * 64))) fun i hi s =>
      hcall s tail _ (by have := List.mem_range.mp hi; omega),
    blocks_pad his, List.foldl_append, List.foldl_map, List.foldl_map]

theorem digestBytes_hash (s : State) : digestBytes s = Fips180.digest s.hash := rfl

/-- Compressing whole blocks, one after another. -/
theorem foldl_block_hash {bs : List Bytes} (h : ∀ b ∈ bs, b.length = 64) (s : State) :
    (bs.foldl block s).hash = bs.foldl Fips180.compress s.hash := by
  induction bs generalizing s with
  | nil => rfl
  | cons b bs ih =>
    rw [List.foldl_cons, List.foldl_cons, ih fun c hc => h c (List.mem_cons_of_mem _ hc),
      block_hash (h b List.mem_cons_self)]

/-- Going through a padded message by its front. -/
theorem blocks_eq (s : State) (n : ℕ) (p : Bytes) :
    blocks s n p = ((List.range n).map fun i => slice p (i * 64)).foldl block s := by
  induction n generalizing s p with
  | zero => rfl
  | succ n ih =>
    have hshift : ∀ i, slice (p.drop 64) (i * 64) = slice p ((i + 1) * 64) := by
      intro i
      rw [slice, slice, List.drop_drop, Nat.add_mul, Nat.one_mul, Nat.add_comm]
    rw [blocks, ih, List.range_succ_eq_map, List.map_cons, List.foldl_cons, List.map_map]
    simp only [hshift]
    rfl

/-- The padding by remainder is the padding of the standard. -/
theorem padded_eq (data : Bytes) : padded data = Fips180.pad data := by
  have hzeros : (if data.length % 64 < 56 then 64 else 128) - data.length % 64 - 9 =
      Fips180.zeros data.length := by
    rw [Fips180.zeros]
    split <;> omega
  have hbits : [7, 6, 5, 4, 3, 2, 1, 0].map (fun i => (data.length * 8 / 256 ^ i).toUInt8) =
      Fips180.bits64 (8 * data.length) := by
    rw [Nat.mul_comm]
    rfl
  rw [padded, hzeros, hbits, Fips180.pad, List.append_assoc, List.cons_append]

/-- The digest of the standard, by the state. -/
theorem digest_eq (data : Bytes) :
    digestBytes ((Fips180.blocks (Fips180.pad data)).foldl block initial) = Fips180.sha256 data := by
  rw [digestBytes_hash, foldl_block_hash fun _ => Fips180.length_of_mem_blocks, initial_hash]
  rfl

/-- The hash processes the blocks of the padded message, reads and writes nothing outside the
message and its buffer, and gives the digest of the standard. -/
theorem sha256_standard (data : Bytes) (h : data.length < 2 ^ 61) :
    absorb keepBlock [] data = some (Fips180.blocks (Fips180.pad data)) ∧
      IsLeast {k | (data.length + 1 + k) % 64 = 56} (Fips180.zeros data.length) ∧
      sha256Run data = some (Fips180.sha256 data) ∧ sha256 data = Fips180.sha256 data := by
  refine ⟨?_, Fips180.zeros_least _, ?_, ?_⟩
  · have hkeep : ∀ (bs seen : List Bytes), bs.foldl (fun seen b => seen ++ [b]) seen = seen ++ bs := by
      intro bs
      induction bs with
      | nil => exact fun seen => (List.append_nil seen).symm
      | cons b bs ih =>
        intro seen
        rw [List.foldl_cons, ih, List.append_assoc, List.singleton_append]
    rw [absorb_eq (f := fun seen b => seen ++ [b]) (fun s mem p hp => keepBlock_eq hp s) h, hkeep,
      List.nil_append]
  · rw [sha256Run, absorb_eq (fun s mem p hp => sha256Block_eq hp s) h, ← digest_eq]
    rfl
  · rw [← digest_eq, sha256, padded_eq, blocks_eq]
    rfl

/-- A message of three bytes. -/
theorem sha256_standard_abc : ([0x61, 0x62, 0x63] : Bytes).length < 2 ^ 61 ∧
    absorb keepBlock [] [0x61, 0x62, 0x63] = some (Fips180.blocks (Fips180.pad [0x61, 0x62, 0x63])) ∧
    IsLeast {k | (3 + 1 + k) % 64 = 56} (Fips180.zeros 3) ∧
    sha256Run [0x61, 0x62, 0x63] = some (Fips180.sha256 [0x61, 0x62, 0x63]) ∧
    sha256 [0x61, 0x62, 0x63] = Fips180.sha256 [0x61, 0x62, 0x63] :=
  ⟨by decide, sha256_standard [0x61, 0x62, 0x63] (by decide)⟩

end VoidPalabra.Sha256
