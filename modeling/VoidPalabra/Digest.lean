import VoidPalabra.Bytes

/-!
# Content addresses

SHA-256 over lists of bytes, and the domain header every address goes through.
-/

namespace VoidPalabra

namespace Sha256

/-- `kK`, the round constants. -/
def kK : List UInt32 := [
  0x428a2f98, 0x71374491, 0xb5c0fbcf, 0xe9b5dba5, 0x3956c25b, 0x59f111f1,
  0x923f82a4, 0xab1c5ed5, 0xd807aa98, 0x12835b01, 0x243185be, 0x550c7dc3,
  0x72be5d74, 0x80deb1fe, 0x9bdc06a7, 0xc19bf174, 0xe49b69c1, 0xefbe4786,
  0x0fc19dc6, 0x240ca1cc, 0x2de92c6f, 0x4a7484aa, 0x5cb0a9dc, 0x76f988da,
  0x983e5152, 0xa831c66d, 0xb00327c8, 0xbf597fc7, 0xc6e00bf3, 0xd5a79147,
  0x06ca6351, 0x14292967, 0x27b70a85, 0x2e1b2138, 0x4d2c6dfc, 0x53380d13,
  0x650a7354, 0x766a0abb, 0x81c2c92e, 0x92722c85, 0xa2bfe8a1, 0xa81a664b,
  0xc24b8b70, 0xc76c51a3, 0xd192e819, 0xd6990624, 0xf40e3585, 0x106aa070,
  0x19a4c116, 0x1e376c08, 0x2748774c, 0x34b0bcb5, 0x391c0cb3, 0x4ed8aa4a,
  0x5b9cca4f, 0x682e6ff3, 0x748f82ee, 0x78a5636f, 0x84c87814, 0x8cc70208,
  0x90befffa, 0xa4506ceb, 0xbef9a3f7, 0xc67178f2]

/-- `rotr`. -/
def rotr (x n : UInt32) : UInt32 := (x >>> n) ||| (x <<< (32 - n))

/-- A big-endian word. -/
def word (p : Bytes) : UInt32 :=
  p.foldl (fun w c => (w <<< 8) ||| c.toUInt32) 0

/-- The message schedule, latest word first. -/
def schedule (block : Bytes) : ℕ → List UInt32
  | 0 => (((List.range 16).map fun i => word ((block.drop (i * 4)).take 4))).reverse
  | n + 1 =>
    let w := schedule block n
    let w15 := w.getD 14 0
    let w2 := w.getD 1 0
    let s0 := rotr w15 7 ^^^ rotr w15 18 ^^^ (w15 >>> 3)
    let s1 := rotr w2 17 ^^^ rotr w2 19 ^^^ (w2 >>> 10)
    (w.getD 15 0 + s0 + w.getD 6 0 + s1) :: w

/-- The eight working words. -/
structure State where
  (a b c d e f g h : UInt32)
  deriving DecidableEq

/-- One round. -/
def round (s : State) (kw : UInt32 × UInt32) : State :=
  let s1 := rotr s.e 6 ^^^ rotr s.e 11 ^^^ rotr s.e 25
  let ch := (s.e &&& s.f) ^^^ (~~~s.e &&& s.g)
  let t1 := s.h + s1 + ch + kw.1 + kw.2
  let s0 := rotr s.a 2 ^^^ rotr s.a 13 ^^^ rotr s.a 22
  let maj := (s.a &&& s.b) ^^^ (s.a &&& s.c) ^^^ (s.b &&& s.c)
  ⟨t1 + (s0 + maj), s.a, s.b, s.c, s.d + t1, s.e, s.f, s.g⟩

/-- `sha256_block`. -/
def block (s : State) (p : Bytes) : State :=
  let t := (kK.zip (schedule p 48).reverse).foldl round s
  ⟨s.a + t.a, s.b + t.b, s.c + t.c, s.d + t.d, s.e + t.e, s.f + t.f, s.g + t.g, s.h + t.h⟩

/-- The blocks of a padded message. -/
def blocks (s : State) : ℕ → Bytes → State
  | 0, _ => s
  | n + 1, p => blocks (block s (p.take 64)) n (p.drop 64)

/-- The state before the first block. -/
def initial : State :=
  ⟨0x6a09e667, 0xbb67ae85, 0x3c6ef372, 0xa54ff53a, 0x510e527f, 0x9b05688c, 0x1f83d9ab, 0x5be0cd19⟩

/-- The tail of a message: a set bit, zeros, and its length in bits. -/
def padded (data : Bytes) : Bytes :=
  let rem := data.length % 64
  let zeros := (if rem < 56 then 64 else 128) - rem - 9
  data ++ 0x80 :: List.replicate zeros 0 ++
    [7, 6, 5, 4, 3, 2, 1, 0].map fun i => (data.length * 8 / 256 ^ i).toUInt8

/-- The four bytes of a word. -/
def wordBytes (w : UInt32) : Bytes :=
  [(w >>> 24).toUInt8, (w >>> 16).toUInt8, (w >>> 8).toUInt8, w.toUInt8]

end Sha256

/-- `sha256`. -/
def sha256 (data : Bytes) : Bytes :=
  let p := Sha256.padded data
  let s := Sha256.blocks Sha256.initial (p.length / 64) p
  [s.a, s.b, s.c, s.d, s.e, s.f, s.g, s.h].flatMap Sha256.wordBytes

theorem length_sha256 (b : Bytes) : (sha256 b).length = 32 := by
  simp [sha256, Sha256.wordBytes]

/-- `kCanonVersion`. -/
def kCanonVersion : ℕ := 3

/-- `domain_digest`. -/
def domainDigest (kind : String) (payload policyTag : Bytes) : Bytes :=
  sha256 (lit "voidpalabra/v" ++ decimal kCanonVersion ++ lit "/" ++ lit kind ++ lit "/" ++
    policyTag ++ [0] ++ payload)

end VoidPalabra
