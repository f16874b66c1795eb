import Mathlib.Data.Nat.NthRoot.Defs
import Mathlib.Data.Nat.Nth
import Mathlib.Data.Nat.Prime.Defs
import Mathlib.Order.Nat
import Mathlib.Order.Bounds.Basic

/-!
# SHA-256 as the standard states it

The functions, constants, padding and computation of FIPS 180-4 for messages of whole bytes. The
constants are the fractional parts of roots of primes, a word of a block is the concatenation of
its bytes, and the message schedule is the recurrence of the standard.
-/

namespace Fips180

/-! ### Functions -/

/-- `ROTR`: a rotation to the right. -/
def rotr (n : ℕ) (x : UInt32) : UInt32 := ⟨x.toBitVec.rotateRight n⟩

/-- `Ch`. -/
def Ch (x y z : UInt32) : UInt32 := (x &&& y) ^^^ (~~~x &&& z)

/-- `Maj`. -/
def Maj (x y z : UInt32) : UInt32 := (x &&& y) ^^^ (x &&& z) ^^^ (y &&& z)

/-- The first of the great sigmas. -/
def Sigma0 (x : UInt32) : UInt32 := rotr 2 x ^^^ rotr 13 x ^^^ rotr 22 x

/-- The second of the great sigmas. -/
def Sigma1 (x : UInt32) : UInt32 := rotr 6 x ^^^ rotr 11 x ^^^ rotr 25 x

/-- The first of the small sigmas. -/
def sigma0 (x : UInt32) : UInt32 := rotr 7 x ^^^ rotr 18 x ^^^ (x >>> 3)

/-- The second of the small sigmas. -/
def sigma1 (x : UInt32) : UInt32 := rotr 17 x ^^^ rotr 19 x ^^^ (x >>> 10)

/-! ### Constants -/

/-- The first 32 bits of the fractional part of the `n`-th root of a number. -/
def rootFraction (n p : ℕ) : UInt32 := UInt32.ofNat (Nat.nthRoot n (p * 2 ^ (32 * n)))

/-- `K`: the round constants, from the cube roots of the first primes. -/
noncomputable def K (t : ℕ) : UInt32 := rootFraction 3 (Nat.nth Nat.Prime t)

/-- A hash value, which is also the working variables. -/
structure Hash where
  (a b c d e f g h : UInt32)

/-- The initial hash value, from the square roots of the first eight primes. -/
noncomputable def H0 : Hash :=
  let root := fun i => rootFraction 2 (Nat.nth Nat.Prime i)
  ⟨root 0, root 1, root 2, root 3, root 4, root 5, root 6, root 7⟩

/-! ### Padding -/

/-- How many zero bytes follow the set bit and its byte. -/
def zeros (length : ℕ) : ℕ := (119 - length % 64) % 64

/-- A number as 64 bits, most significant first. -/
def bits64 (n : ℕ) : List UInt8 := (List.range 8).map fun i => UInt8.ofNat (n / 256 ^ (7 - i))

/-- The padded message: a set bit, zero bits, and the number of bits. -/
def pad (message : List UInt8) : List UInt8 :=
  message ++ 0x80 :: (List.replicate (zeros message.length) 0 ++ bits64 (8 * message.length))

/-- The blocks of a padded message. -/
def blocks (padded : List UInt8) : List (List UInt8) :=
  (List.range (padded.length / 64)).map fun i => (padded.drop (i * 64)).take 64

/-! ### Computation -/

/-- Four bytes as a word. -/
def word (b : List UInt8) (i : ℕ) : UInt32 :=
  ⟨(b.getD i 0).toBitVec ++ (b.getD (i + 1) 0).toBitVec ++ (b.getD (i + 2) 0).toBitVec ++
    (b.getD (i + 3) 0).toBitVec⟩

/-- `W`: the message schedule of a block. -/
def schedule (block : List UInt8) (t : ℕ) : UInt32 :=
  if _h : t < 16 then word block (4 * t)
  else sigma1 (schedule block (t - 2)) + schedule block (t - 7) + sigma0 (schedule block (t - 15)) +
    schedule block (t - 16)

/-- One step of the computation, with its constant and its word of the schedule. -/
def step (s : Hash) (k w : UInt32) : Hash :=
  let t1 := s.h + Sigma1 s.e + Ch s.e s.f s.g + k + w
  let t2 := Sigma0 s.a + Maj s.a s.b s.c
  { h := s.g, g := s.f, f := s.e, e := s.d + t1, d := s.c, c := s.b, b := s.a, a := t1 + t2 }

/-- The hash value after a block. -/
noncomputable def compress (s : Hash) (block : List UInt8) : Hash :=
  let t := (List.range 64).foldl (fun s t => step s (K t) (schedule block t)) s
  { a := t.a + s.a, b := t.b + s.b, c := t.c + s.c, d := t.d + s.d
    e := t.e + s.e, f := t.f + s.f, g := t.g + s.g, h := t.h + s.h }

/-- A word as four bytes. -/
def wordBytes (w : UInt32) : List UInt8 :=
  [w.toBitVec.extractLsb' 24 8, w.toBitVec.extractLsb' 16 8, w.toBitVec.extractLsb' 8 8,
    w.toBitVec.extractLsb' 0 8].map UInt8.ofBitVec

/-- The message digest that a hash value is. -/
def digest (s : Hash) : List UInt8 :=
  [s.a, s.b, s.c, s.d, s.e, s.f, s.g, s.h].flatMap wordBytes

/-- The message digest of a message. -/
noncomputable def sha256 (message : List UInt8) : List UInt8 :=
  digest ((blocks (pad message)).foldl compress H0)

/-! ### Padding fills whole blocks -/

theorem zeros_spec (length : ℕ) : (length + 1 + zeros length) % 64 = 56 := by
  rw [zeros]
  omega

/-- No fewer zero bytes would do. -/
theorem zeros_least (length : ℕ) : IsLeast {k | (length + 1 + k) % 64 = 56} (zeros length) := by
  refine ⟨zeros_spec length, fun k hk => ?_⟩
  have hk : (length + 1 + k) % 64 = 56 := hk
  rw [zeros]
  omega

@[simp] theorem length_bits64 (n : ℕ) : (bits64 n).length = 8 := by
  rw [bits64, List.length_map, List.length_range]

theorem length_pad (message : List UInt8) :
    (pad message).length = message.length + 1 + zeros message.length + 8 := by
  rw [pad, List.length_append, List.length_cons, List.length_append, List.length_replicate,
    length_bits64]
  omega

/-- The padded message is whole blocks. -/
theorem length_pad_mod (message : List UInt8) : (pad message).length % 64 = 0 := by
  have := zeros_spec message.length
  rw [length_pad]
  omega

/-- Every block is whole. -/
theorem length_of_mem_blocks {padded b : List UInt8} (h : b ∈ blocks padded) : b.length = 64 := by
  obtain ⟨i, hi, rfl⟩ := List.mem_map.mp h
  have hi := List.mem_range.mp hi
  rw [List.length_take, List.length_drop]
  omega

theorem schedule_input {t : ℕ} (h : t < 16) (block : List UInt8) :
    schedule block t = word block (4 * t) := by
  rw [schedule, dif_pos h]

theorem schedule_rest {t : ℕ} (h : 16 ≤ t) (block : List UInt8) :
    schedule block t = sigma1 (schedule block (t - 2)) + schedule block (t - 7) +
      sigma0 (schedule block (t - 15)) + schedule block (t - 16) := by
  rw [schedule, dif_neg (Nat.not_lt.mpr h)]

/-! ### Constants as numbers -/

/-- The prime at a place, when that many primes are less. -/
theorem nth_prime {p t : ℕ} (hp : p.Prime) (ht : Nat.count Nat.Prime p = t) :
    Nat.nth Nat.Prime t = p := by
  rw [← ht, Nat.nth_count hp]

/-- The first 64 primes. -/
def primes : List ℕ := [
  2, 3, 5, 7, 11, 13, 17, 19, 23, 29, 31, 37, 41, 43, 47, 53, 59, 61, 67, 71, 73, 79, 83, 89, 97,
  101, 103, 107, 109, 113, 127, 131, 137, 139, 149, 151, 157, 163, 167, 173, 179, 181, 191, 193,
  197, 199, 211, 223, 227, 229, 233, 239, 241, 251, 257, 263, 269, 271, 277, 281, 283, 293, 307, 311]

/-- They are all of them, in order. -/
theorem nth_prime_eq {t : ℕ} (ht : t < 64) : Nat.nth Nat.Prime t = primes.getD t 0 := by
  have h : ∀ t < 64, (primes.getD t 0).Prime ∧ Nat.count Nat.Prime (primes.getD t 0) = t := by
    decide +kernel
  exact nth_prime (h t ht).1 (h t ht).2

end Fips180
