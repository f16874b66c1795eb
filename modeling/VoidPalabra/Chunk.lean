import VoidPalabra.Gear
import VoidPalabra.Bytes

/-!
# Content-defined chunks

A blob is cut where a rolling hash of its bytes says so: not before `minSize` bytes, at `maxSize`
at the latest, with a stricter test before `avgSize` bytes than after. The hash is primed over the
bytes before the first place a cut may fall, so that it is the same at a byte of the blob whatever
chunk the byte is in.

Every read of the blob can fail here, and so can a loop that never ends; that neither happens is a
theorem (`exists_cuts`). What the two loops of one chunk come to is a single search for the first
cut (`cutAt_eq`), and a run over the blob is the relation `Cuts`.
-/

namespace VoidPalabra

open Gear

/-- A hash, `std::uint64_t` in the source. -/
abbrev Hash := BitVec 64

/-- Chunk sizes. -/
structure ChunkParams where
  /-- No cut before this many bytes. -/
  minSize : ℕ := 2 * 1024
  /-- The size aimed at. -/
  avgSize : ℕ := 8 * 1024
  /-- A cut after this many bytes at the latest. -/
  maxSize : ℕ := 64 * 1024
  deriving DecidableEq

/-! ### The gear table -/

/-- The step of the generator, and its seed. -/
def golden : Hash := 0x9E3779B97F4A7C15

/-- What the generator makes of its state. -/
def splitMix (x : Hash) : Hash :=
  let z := (x ^^^ (x >>> 30)) * 0xBF58476D1CE4E5B9
  let z := (z ^^^ (z >>> 27)) * 0x94D049BB133111EB
  z ^^^ (z >>> 31)

/-- The next `n` values of the generator in state `x`. -/
def gearFrom : ℕ → Hash → List Hash
  | 0, _ => []
  | n + 1, x => splitMix (x + golden) :: gearFrom n (x + golden)

/-- One value for each byte. -/
def gearTable : List Hash := gearFrom 256 golden

/-- The weight of a byte. -/
def gear (b : UInt8) : Hash := gearTable.getD b.toNat 0

/-! ### The test for a cut -/

/-- The least `bits` with `2 ^ bits ≥ avg`, from `bits` on; none where the shift would be by 64. -/
def bitsFrom (avg : ℕ) : ℕ → ℕ → Option ℕ
  | 0, _ => none
  | n + 1, bits => if 2 ^ bits < avg then bitsFrom avg n (bits + 1) else some bits

/-- How many of the high bits must be zero for a cut. -/
def cutBits (avg : ℕ) (extra : ℤ) : Option ℕ := do
  let bits ← bitsFrom avg 64 0
  let bits : ℤ := bits + extra
  let bits := if bits < 1 then 1 else bits
  let bits := if 40 < bits then 40 else bits
  pure bits.toNat

/-- The high bits are zero. -/
def isCut (h : Hash) (bits : ℕ) : Bool := h >>> (64 - bits) == 0

/-- The bytes the hash is primed over. -/
def kWindow : ℕ := 64

/-! ### The loops -/

/-- A place tested for a cut. -/
structure Test where
  /-- Its byte, from the start of the chunk. -/
  offset : ℕ
  /-- The hash that was tested. -/
  hash : Hash
  deriving DecidableEq

/-- Where a loop stands, and what it has tested. -/
structure Scan where
  /-- The loop's index. -/
  i : ℕ
  /-- The hash. -/
  h : Hash
  /-- The places tested. -/
  tests : List Test
  deriving DecidableEq

/-- A chunk. -/
structure Cut where
  /-- Its length. -/
  size : ℕ
  /-- The places tested for its end. -/
  tests : List Test
  deriving DecidableEq

/-- The hash over the next `n` bytes. -/
def rollOver (data : Bytes) : ℕ → ℕ → Hash → Option Hash
  | 0, _, h => some h
  | n + 1, j, h => do
    let b ← data[j]?
    rollOver data n (j + 1) (roll gear h b)

/-- A loop over the next `n` bytes of a chunk, which stops at a cut. -/
def scan (data : Bytes) (start bits : ℕ) : ℕ → ℕ → Hash → Option Scan
  | 0, i, h => some ⟨i, h, []⟩
  | n + 1, i, h => do
    let b ← data[start + i]?
    let h := roll gear h b
    if isCut h bits then pure ⟨i, h, [⟨i, h⟩]⟩
    else do
      let later ← scan data start bits n (i + 1) h
      pure { later with tests := ⟨i, h⟩ :: later.tests }

/-- Where priming begins. -/
def ChunkParams.primeFrom (p : ChunkParams) : ℕ :=
  if kWindow < p.minSize then p.minSize - kWindow else 0

/-- The chunk that begins at `start`, where more than `minSize` bytes are left. -/
def cutAt (data : Bytes) (p : ChunkParams) (strict loose start : ℕ) : Option Cut := do
  let remaining := data.length - start
  let limit := if remaining < p.maxSize then remaining else p.maxSize
  let normal := if remaining < p.avgSize then remaining else p.avgSize
  let h ← rollOver data (p.minSize - p.primeFrom) (start + p.primeFrom) 0
  -- never cut before `minSize`
  let below ← scan data start strict (normal - p.minSize) p.minSize h
  let found ←
    if normal ≤ below.i then do
      let above ← scan data start loose (limit - below.i) below.i below.h
      pure { above with tests := below.tests ++ above.tests }
    else pure below
  let size := if found.i < limit then found.i + 1 else limit
  let size := if data.length < start + size then data.length - start else size
  pure ⟨size, found.tests⟩

/-- The chunks from `start` on, at most `n` of them. -/
def chunkFrom (data : Bytes) (p : ChunkParams) (strict loose : ℕ) : ℕ → ℕ → Option (List ℕ)
  | 0, _ => none
  | n + 1, start =>
    if start < data.length then
      if data.length - start ≤ p.minSize then some [data.length - start]
      else do
        let c ← cutAt data p strict loose start
        let later ← chunkFrom data p strict loose n (start + c.size)
        pure (c.size :: later)
    else some []

/-- The lengths of the chunks; none where the source would not return. -/
def chunk (data : Bytes) (p : ChunkParams) : Option (List ℕ) := do
  let strict ← cutBits p.avgSize 2
  let loose ← cutBits p.avgSize (-2)
  chunkFrom data p strict loose (data.length + 1) 0

/-! ### One chunk -/

/-- The hash over the bytes of a chunk from `a` up to `i`. -/
def hashAt (data : Bytes) (start a i : ℕ) : Hash :=
  windowSum gear (fun j => data.getD j 0) (start + i) (i - a)

/-- The test at a byte of a chunk, for a hash that begins at `a`. -/
def hits (data : Bytes) (start a bits j : ℕ) : Bool := isCut (hashAt data start a (j + 1)) bits

/-- The test at a byte of a chunk: the strict one before the average. -/
def stops (data : Bytes) (p : ChunkParams) (strict loose start j : ℕ) : Bool :=
  hits data start p.primeFrom (if j < p.avgSize then strict else loose) j

/-- The length of the chunk that begins at `start`: up to the first cut. -/
def cutSize (data : Bytes) (p : ChunkParams) (strict loose start : ℕ) : ℕ :=
  let limit := min (data.length - start) p.maxSize
  let i := firstHit (stops data p strict loose start) (limit - p.minSize) p.minSize
  if i < limit then i + 1 else limit

section
variable {data : Bytes} {p : ChunkParams} {strict loose start : ℕ}

theorem primeFrom_le (p : ChunkParams) : p.primeFrom ≤ p.minSize := by
  unfold ChunkParams.primeFrom
  split <;> omega

@[simp] theorem hashAt_self (data : Bytes) (start a : ℕ) : hashAt data start a a = 0 := by
  rw [hashAt, Nat.sub_self, windowSum_zero]

/-- Rolling over the next byte of the chunk. -/
theorem roll_hashAt {a i : ℕ} {b : UInt8} (ha : a ≤ i) (hb : data[start + i]? = some b) :
    roll gear (hashAt data start a i) b = hashAt data start a (i + 1) := by
  have hget : data.getD (start + i) 0 = b := by rw [List.getD_eq_getElem?_getD, hb]; rfl
  have hlen : i + 1 - a = i - a + 1 := by omega
  rw [hashAt, hashAt, hlen, ← Nat.add_assoc, ← roll_windowSum, hget]

theorem rollOver_eq {a : ℕ} : ∀ {n i : ℕ}, a ≤ i → start + i + n ≤ data.length →
    rollOver data n (start + i) (hashAt data start a i) = some (hashAt data start a (i + n)) := by
  intro n
  induction n with
  | zero => exact fun _ _ => rfl
  | succ n ih =>
    intro i ha hlen
    obtain ⟨b, hb⟩ : ∃ b, data[start + i]? = some b := ⟨_, List.getElem?_eq_getElem (by omega)⟩
    have hsum : i + 1 + n = i + (n + 1) := by omega
    rw [rollOver, hb]
    change rollOver data n (start + i + 1) (roll gear _ b) = _
    rw [roll_hashAt ha hb, Nat.add_assoc, ih (by omega) (by omega), hsum]

/-- What is known of the tests of a loop over the bytes from `i` up to `e`. -/
def Tested (data : Bytes) (start a i e : ℕ) (tests : List Test) : Prop :=
  ∀ t ∈ tests, i ≤ t.offset ∧ t.offset < e ∧ t.hash = hashAt data start a (t.offset + 1)

/-- **A loop finds the first cut**, and the hash it tests a byte with is that of the bytes up to
it. -/
theorem scan_eq {a bits : ℕ} : ∀ {n i : ℕ}, a ≤ i → start + i + n ≤ data.length →
    ∃ h tests, scan data start bits n i (hashAt data start a i) =
        some ⟨firstHit (hits data start a bits) n i, h, tests⟩ ∧
      (firstHit (hits data start a bits) n i = i + n → h = hashAt data start a (i + n)) ∧
      Tested data start a i (i + n) tests := by
  intro n
  induction n with
  | zero => exact fun _ _ => ⟨_, _, rfl, fun _ => rfl, List.forall_mem_nil _⟩
  | succ n ih =>
    intro i ha hlen
    obtain ⟨b, hb⟩ : ∃ b, data[start + i]? = some b := ⟨_, List.getElem?_eq_getElem (by omega)⟩
    have hroll := roll_hashAt ha hb
    rw [scan, hb, Option.bind_eq_bind, Option.bind_some, hroll, firstHit]
    change ∃ h tests, (if hits data start a bits i = true then _ else _) = _ ∧ _
    by_cases hhit : hits data start a bits i = true
    · rw [if_pos hhit, if_pos hhit]
      refine ⟨_, _, rfl, by omega, ?_⟩
      intro t ht
      rw [List.mem_singleton.mp ht]
      exact ⟨le_rfl, by dsimp only; omega, rfl⟩
    · obtain ⟨h, tests, hscan, hh, htests⟩ := @ih (i + 1) (by omega) (by omega)
      have hsum : i + 1 + n = i + (n + 1) := by omega
      rw [if_neg hhit, if_neg hhit, hscan]
      refine ⟨_, _, rfl, hsum ▸ hh, ?_⟩
      intro t ht
      rcases List.mem_cons.mp ht with rfl | ht
      · exact ⟨le_rfl, by dsimp only; omega, rfl⟩
      · obtain ⟨hlow, hhigh, hhash⟩ := htests t ht
        exact ⟨by omega, by omega, hhash⟩

theorem cutSize_le : cutSize data p strict loose start ≤ min (data.length - start) p.maxSize := by
  unfold cutSize
  dsimp only
  split <;> omega

/-- The two loops as one search: what each of them finds, and what that makes of the chunk. -/
theorem size_eq {i : ℕ} (hi : p.minSize ≤ i)
    (hfirst : ∀ j, p.minSize ≤ j → j < i → j < min (data.length - start) p.maxSize →
      stops data p strict loose start j = false)
    (hstop : i < min (data.length - start) p.maxSize → stops data p strict loose start i = true) :
    (if i < min (data.length - start) p.maxSize then i + 1
      else min (data.length - start) p.maxSize) = cutSize data p strict loose start := by
  unfold cutSize
  dsimp only
  generalize hlimit : min (data.length - start) p.maxSize = limit at hfirst hstop ⊢
  by_cases hlt : i < limit
  · have hfound := firstHit_eq hi (by omega : i < p.minSize + (limit - p.minSize)) (hstop hlt)
      fun j hj hji => hfirst j hj hji (by omega)
    rw [hfound]
  · rw [if_neg hlt, if_neg]
    intro hbefore
    have hhit := hit_firstHit (hbefore.trans_le (by omega : limit ≤ p.minSize + (limit - p.minSize)))
    rw [hfirst _ firstHit_bounds.1 (by omega) hbefore] at hhit
    cases hhit

/-- **A chunk reads only inside the data**, ends at the first cut, and tests every place with the
hash of the bytes up to it. -/
theorem cutAt_eq (hrem : p.minSize < data.length - start) :
    ∃ tests, cutAt data p strict loose start = some ⟨cutSize data p strict loose start, tests⟩ ∧
      Tested data start p.primeFrom p.minSize (data.length - start) tests := by
  have hprime := primeFrom_le p
  have hlimit : (if data.length - start < p.maxSize then data.length - start else p.maxSize) =
      min (data.length - start) p.maxSize := by split <;> omega
  have hnormal : (if data.length - start < p.avgSize then data.length - start else p.avgSize) =
      min (data.length - start) p.avgSize := by split <;> omega
  have hh : rollOver data (p.minSize - p.primeFrom) (start + p.primeFrom) 0 =
      some (hashAt data start p.primeFrom p.minSize) := by
    have := @rollOver_eq data start p.primeFrom (p.minSize - p.primeFrom) p.primeFrom le_rfl
      (by omega)
    rwa [hashAt_self, Nat.add_sub_cancel' hprime] at this
  obtain ⟨h, tests, hscan, hend, htests⟩ := @scan_eq data start p.primeFrom strict
    (min (data.length - start) p.avgSize - p.minSize) p.minSize hprime (by omega)
  have hbound := @firstHit_bounds (hits data start p.primeFrom strict)
    (min (data.length - start) p.avgSize - p.minSize) p.minSize
  have hbefore := @not_hit_of_lt_firstHit (hits data start p.primeFrom strict)
    (min (data.length - start) p.avgSize - p.minSize) p.minSize
  have hat := @hit_firstHit (hits data start p.primeFrom strict)
    (min (data.length - start) p.avgSize - p.minSize) p.minSize
  unfold cutAt
  dsimp only
  rw [hlimit, hnormal, hh, Option.bind_eq_bind, Option.bind_some, hscan]
  generalize firstHit (hits data start p.primeFrom strict)
    (min (data.length - start) p.avgSize - p.minSize) p.minSize = i at *
  rw [Option.bind_eq_bind, Option.bind_some]
  dsimp only
  have hsize : ∀ r, (if r < min (data.length - start) p.maxSize then r + 1
      else min (data.length - start) p.maxSize) = cutSize data p strict loose start →
      (if data.length < start + (if r < min (data.length - start) p.maxSize then r + 1
        else min (data.length - start) p.maxSize) then data.length - start
      else if r < min (data.length - start) p.maxSize then r + 1
        else min (data.length - start) p.maxSize) = cutSize data p strict loose start := by
    intro r hr
    have := @cutSize_le data p strict loose start
    rw [hr, if_neg (by omega)]
  by_cases hbelow : min (data.length - start) p.avgSize ≤ i
  · -- the strict loop found nothing
    rw [if_pos hbelow]
    have hi : i = p.minSize + (min (data.length - start) p.avgSize - p.minSize) := by omega
    obtain ⟨h', tests', hscan', -, htests'⟩ := @scan_eq data start p.primeFrom loose
      (min (data.length - start) p.maxSize - i) i (by omega) (by omega)
    have hbound' := @firstHit_bounds (hits data start p.primeFrom loose)
      (min (data.length - start) p.maxSize - i) i
    have hbefore' := @not_hit_of_lt_firstHit (hits data start p.primeFrom loose)
      (min (data.length - start) p.maxSize - i) i
    have hat' := @hit_firstHit (hits data start p.primeFrom loose)
      (min (data.length - start) p.maxSize - i) i
    rw [hend hi, ← hi, hscan']
    generalize firstHit (hits data start p.primeFrom loose)
      (min (data.length - start) p.maxSize - i) i = r at *
    refine ⟨tests ++ tests', congrArg some (congrArg₂ Cut.mk (hsize r (size_eq (by omega) ?_ ?_))
      rfl), ?_⟩
    · intro j hj hjr hjl
      unfold stops
      by_cases hji : j < i
      · rw [if_pos (by omega)]
        exact hbefore hj hji
      · rw [if_neg (by omega)]
        exact hbefore' (by omega) hjr
    · intro hr
      unfold stops
      rw [if_neg (by omega)]
      exact hat' (by omega)
    · intro t ht
      rcases List.mem_append.mp ht with ht | ht
      · obtain ⟨hlow, hhigh, hhash⟩ := htests t ht
        exact ⟨hlow, by omega, hhash⟩
      · obtain ⟨hlow, hhigh, hhash⟩ := htests' t ht
        exact ⟨by omega, by omega, hhash⟩
  · -- it found a cut
    rw [if_neg hbelow]
    refine ⟨tests, congrArg some (congrArg₂ Cut.mk (hsize i (size_eq hbound.1 ?_ ?_)) rfl), ?_⟩
    · intro j hj hji hjl
      unfold stops
      rw [if_pos (by omega)]
      exact hbefore hj hji
    · intro hr
      unfold stops
      rw [if_pos (by omega)]
      exact hat (by omega)
    · intro t ht
      obtain ⟨hlow, hhigh, hhash⟩ := htests t ht
      exact ⟨hlow, by omega, hhash⟩

/-! ### A run over the blob -/

end

/-- The chunks of the data from `start` on. -/
inductive Cuts (data : Bytes) (p : ChunkParams) (strict loose : ℕ) : ℕ → List ℕ → Prop
  /-- Nothing is left. -/
  | done {start : ℕ} (h : data.length ≤ start) : Cuts data p strict loose start []
  /-- What is left is too short to be cut. -/
  | last {start : ℕ} (h : start < data.length) (hmin : data.length - start ≤ p.minSize) :
      Cuts data p strict loose start [data.length - start]
  /-- A chunk is cut off. -/
  | next {start : ℕ} {later : List ℕ} (hmin : p.minSize < data.length - start)
      (hl : Cuts data p strict loose (start + cutSize data p strict loose start) later) :
      Cuts data p strict loose start (cutSize data p strict loose start :: later)

section
variable {data : Bytes} {p : ChunkParams} {strict loose start : ℕ} {sizes sizes' : List ℕ}

theorem cuts_of_chunkFrom : ∀ {n start : ℕ} {sizes : List ℕ},
    chunkFrom data p strict loose n start = some sizes → Cuts data p strict loose start sizes := by
  intro n
  induction n with
  | zero => exact nofun
  | succ n ih =>
    intro start sizes h
    rw [chunkFrom] at h
    split_ifs at h with hlt hmin
    · cases h
      exact .last hlt hmin
    · obtain ⟨tests, hcut, -⟩ := @cutAt_eq data p strict loose start (by omega)
      rw [hcut, Option.bind_eq_bind, Option.bind_some, Option.bind_eq_bind,
        Option.bind_eq_some_iff] at h
      obtain ⟨later, hlater, hsizes⟩ := h
      cases hsizes
      exact .next (by omega) (ih hlater)
    · cases h
      exact .done (by omega)

/-- A chunk is never empty, so the loop ends. -/
theorem cutSize_pos (hmax : 1 ≤ p.maxSize) (hrem : p.minSize < data.length - start) :
    0 < cutSize data p strict loose start := by
  unfold cutSize
  dsimp only
  split <;> omega

theorem exists_chunkFrom (hmax : 1 ≤ p.maxSize) : ∀ {n start : ℕ}, start ≤ data.length →
    data.length < start + n → ∃ sizes, chunkFrom data p strict loose n start = some sizes := by
  intro n
  induction n with
  | zero =>
    intro start hle hlt
    omega
  | succ n ih =>
    intro start hle hfuel
    rw [chunkFrom]
    split_ifs with hlt hmin
    · exact ⟨_, rfl⟩
    · obtain ⟨tests, hcut, -⟩ := @cutAt_eq data p strict loose start (by omega)
      have hpos := @cutSize_pos data p strict loose start hmax (by omega)
      have hsize := @cutSize_le data p strict loose start
      obtain ⟨later, hlater⟩ := @ih (start + cutSize data p strict loose start) (by omega) (by omega)
      rw [hcut, Option.bind_eq_bind, Option.bind_some, Option.bind_eq_bind, hlater]
      exact ⟨_, rfl⟩
    · exact ⟨_, rfl⟩

theorem exists_bitsFrom {avg : ℕ} : ∀ {n bits : ℕ}, avg ≤ 2 ^ (bits + n) →
    ∃ found, bitsFrom avg (n + 1) bits = some found := by
  intro n
  induction n with
  | zero =>
    intro bits h
    rw [bitsFrom, if_neg (Nat.not_lt.mpr (by rwa [Nat.add_zero] at h))]
    exact ⟨_, rfl⟩
  | succ n ih =>
    intro bits h
    rw [bitsFrom]
    split
    · exact ih (by rwa [Nat.add_right_comm, Nat.add_assoc])
    · exact ⟨_, rfl⟩

theorem exists_cutBits {avg : ℕ} (h : avg ≤ 2 ^ 63) (extra : ℤ) :
    ∃ bits, cutBits avg extra = some bits := by
  have hzero : avg ≤ 2 ^ (0 + 63) := h
  obtain ⟨found, hfound⟩ := exists_bitsFrom hzero
  rw [cutBits, hfound]
  exact ⟨_, rfl⟩

/-- **The chunker returns.** -/
theorem exists_chunk (hmax : 1 ≤ p.maxSize) (havg : p.avgSize ≤ 2 ^ 63) (data : Bytes) :
    ∃ sizes, chunk data p = some sizes := by
  obtain ⟨strict, hstrict⟩ := exists_cutBits havg 2
  obtain ⟨loose, hloose⟩ := exists_cutBits havg (-2)
  obtain ⟨sizes, hsizes⟩ := @exists_chunkFrom data p strict loose hmax (data.length + 1) 0
    (Nat.zero_le _) (by omega)
  rw [chunk, hstrict, hloose]
  exact ⟨sizes, hsizes⟩

/-- What the chunker returns is a run, with the same tests whatever the data. -/
theorem cuts_of_chunk (h : chunk data p = some sizes) : ∃ strict loose,
    cutBits p.avgSize 2 = some strict ∧ cutBits p.avgSize (-2) = some loose ∧
      Cuts data p strict loose 0 sizes := by
  rw [chunk, Option.bind_eq_bind, Option.bind_eq_some_iff] at h
  obtain ⟨strict, hstrict, h⟩ := h
  rw [Option.bind_eq_some_iff] at h
  obtain ⟨loose, hloose, h⟩ := h
  exact ⟨strict, loose, hstrict, hloose, cuts_of_chunkFrom h⟩

/-- The chunks are the data from `start` on. -/
theorem Cuts.sum (h : Cuts data p strict loose start sizes) (hle : start ≤ data.length) :
    start + sizes.sum = data.length := by
  induction h with
  | done h => rw [List.sum_nil]; omega
  | last h hmin => rw [List.sum_singleton]; omega
  | @next start later hmin hl ih =>
    have := @cutSize_le data p strict loose start
    rw [List.sum_cons, ← Nat.add_assoc]
    exact ih (by omega)

/-- No chunk is empty or longer than the maximum. -/
theorem Cuts.bounds (h : Cuts data p strict loose start sizes) (hmax : 1 ≤ p.maxSize)
    (hle : p.minSize ≤ p.maxSize) : ∀ n ∈ sizes, 0 < n ∧ n ≤ p.maxSize := by
  induction h with
  | done h => exact List.forall_mem_nil _
  | last h hmin =>
    intro n hn
    rw [List.mem_singleton.mp hn]
    omega
  | next hmin hl ih =>
    refine List.forall_mem_cons.mpr ⟨⟨cutSize_pos hmax hmin, ?_⟩, ih⟩
    exact cutSize_le.trans (Nat.min_le_right _ _)

/-- Every chunk but the last is at least the minimum. -/
theorem Cuts.dropLast (h : Cuts data p strict loose start sizes) (hle : p.minSize ≤ p.maxSize) :
    ∀ n ∈ sizes.dropLast, p.minSize ≤ n := by
  induction h with
  | done h => exact List.forall_mem_nil _
  | last h hmin => exact List.forall_mem_nil _
  | @next start later hmin hl ih =>
    intro n hn
    cases later with
    | nil => cases hn
    | cons m later =>
      rw [List.dropLast_cons_cons, List.mem_cons] at hn
      rcases hn with rfl | hn
      · have := @firstHit_bounds (stops data p strict loose start)
          (min (data.length - start) p.maxSize - p.minSize) p.minSize
        unfold cutSize
        dsimp only
        split <;> omega
      · exact ih n hn

/-- A run is determined by where it starts. -/
theorem Cuts.unique (h : Cuts data p strict loose start sizes)
    (h' : Cuts data p strict loose start sizes') : sizes = sizes' := by
  induction h generalizing sizes' with
  | done h => cases h' <;> first | rfl | omega
  | last h hmin => cases h' <;> first | rfl | omega
  | next hmin hl ih =>
    cases h' with
    | done h => omega
    | last h hmin => omega
    | next hmin' hl' => rw [ih hl']

/-- The rest of a run is the run from where it stands. -/
theorem Cuts.rest : ∀ {before : List ℕ} {start : ℕ},
    Cuts data p strict loose start (before ++ sizes) →
      Cuts data p strict loose (start + before.sum) sizes := by
  intro before
  induction before with
  | nil => exact fun h => h
  | cons n before ih =>
    intro start h
    rw [List.cons_append] at h
    rw [List.sum_cons, ← Nat.add_assoc]
    generalize hall : n :: (before ++ sizes) = all at h
    cases h with
    | done h => cases hall
    | last h hmin =>
      rw [List.cons.injEq, List.append_eq_nil_iff] at hall
      obtain ⟨rfl, rfl, rfl⟩ := hall
      exact .done (by rw [List.sum_nil]; omega)
    | next hmin hl =>
      rw [List.cons.injEq] at hall
      obtain ⟨rfl, rfl⟩ := hall
      exact ih hl

/-! ### What a chunk depends on -/

theorem hashAt_suffix (u s : Bytes) (k a i : ℕ) :
    hashAt (u ++ s) (u.length + k) a i = hashAt s k a i := by
  refine windowSum_congr gear fun d hd => ?_
  have hpos : u.length + k + i - 1 - d = u.length + (k + i - 1 - d) := by omega
  rw [hpos, List.getD_append_right _ _ _ _ (by omega), Nat.add_sub_cancel_left]

/-- **What comes before a chunk does not matter.** -/
theorem cutSize_suffix (u s : Bytes) (k : ℕ) :
    cutSize (u ++ s) p strict loose (u.length + k) = cutSize s p strict loose k := by
  have hlen : (u ++ s).length - (u.length + k) = s.length - k := by
    rw [List.length_append]
    omega
  have hstops : stops (u ++ s) p strict loose (u.length + k) = stops s p strict loose k := by
    funext j
    rw [stops, stops, hits, hits, hashAt_suffix]
  rw [cutSize, cutSize, hlen, hstops]

theorem Cuts.suffix {u s : Bytes} {k : ℕ}
    (h : Cuts (u ++ s) p strict loose (u.length + k) sizes) : Cuts s p strict loose k sizes := by
  generalize hat : u.length + k = at' at h
  induction h generalizing k with
  | done h =>
    rw [List.length_append] at h
    exact .done (by omega)
  | @last start h hmin =>
    subst hat
    have hlen : (u ++ s).length - (u.length + k) = s.length - k := by
      rw [List.length_append]
      omega
    rw [hlen] at hmin ⊢
    exact .last (by omega) hmin
  | next hmin hl ih =>
    subst hat
    have hlen : (u ++ s).length - (u.length + k) = s.length - k := by
      rw [List.length_append]
      omega
    rw [hlen] at hmin
    rw [cutSize_suffix] at ih ⊢
    exact .next hmin (ih (by omega))

theorem hashAt_append {more : Bytes} {a i : ℕ} (h : start + i ≤ data.length) :
    hashAt (data ++ more) start a i = hashAt data start a i := by
  refine windowSum_congr gear fun d hd => ?_
  exact List.getD_append _ _ _ _ (by omega)

/-- **What comes after a chunk does not matter.** -/
theorem cutSize_append (more : Bytes) (h : start + cutSize data p strict loose start < data.length) :
    cutSize (data ++ more) p strict loose start = cutSize data p strict loose start := by
  have hlen : (data ++ more).length - start = data.length - start + more.length := by
    rw [List.length_append]
    omega
  have hsame : firstHit (stops (data ++ more) p strict loose start)
      (min (data.length - start) p.maxSize - p.minSize) p.minSize =
      firstHit (stops data p strict loose start)
        (min (data.length - start) p.maxSize - p.minSize) p.minSize :=
    firstHit_congr fun j hj hlt => by
      rw [stops, stops, hits, hits, hashAt_append (by omega)]
  unfold cutSize at h ⊢
  dsimp only at h ⊢
  rw [hlen]
  rw [← hsame] at h ⊢
  generalize stops (data ++ more) p strict loose start = hit at h ⊢
  have hb := @firstHit_bounds hit (min (data.length - start) p.maxSize - p.minSize) p.minSize
  by_cases hcut : firstHit hit (min (data.length - start) p.maxSize - p.minSize) p.minSize <
      min (data.length - start) p.maxSize
  · have hext := @firstHit_extend hit (min (data.length - start) p.maxSize - p.minSize)
      (min (data.length - start + more.length) p.maxSize - p.minSize) p.minSize
      (by omega) (by omega)
    rw [hext, if_pos hcut, if_pos (by omega)]
  · rw [if_neg hcut] at h
    have hmax : min (data.length - start + more.length) p.maxSize =
        min (data.length - start) p.maxSize := by omega
    rw [hmax]

/-- Every chunk but the last stays when bytes are appended. -/
theorem Cuts.append {more : Bytes} (h : Cuts data p strict loose start sizes)
    (h' : Cuts (data ++ more) p strict loose start sizes') : sizes.dropLast <+: sizes' := by
  induction h generalizing sizes' with
  | done h => exact List.nil_prefix
  | last h hmin => exact List.nil_prefix
  | @next start later hmin hl ih =>
    cases later with
    | nil => exact List.nil_prefix
    | cons n later =>
      have hlt : start + cutSize data p strict loose start < data.length := by
        generalize hall : n :: later = all at hl
        cases hl with
        | done h => cases hall
        | last h hmin => exact h
        | next hmin hl => omega
      rw [List.dropLast_cons_cons]
      cases h' with
      | done h' =>
        rw [List.length_append] at h'
        omega
      | last h' hmin' =>
        rw [List.length_append] at hmin'
        omega
      | next hmin' hl' =>
        rw [cutSize_append more hlt] at hl' ⊢
        exact List.cons_prefix_cons.mpr ⟨rfl, ih hl'⟩

end

/-! ### Boundaries -/

/-- The sum over the last 64 bytes, each shifted by its distance. -/
def windowHash (data : Bytes) (pos : ℕ) : Hash :=
  ∑ d ∈ Finset.range kWindow, gear (data.getD (pos - d) 0) <<< d

/-- A hash that began 64 bytes ago is that sum. -/
theorem hashAt_eq_windowHash (data : Bytes) (start : ℕ) {a i : ℕ} (h : a + kWindow ≤ i + 1) :
    hashAt data start a (i + 1) = windowHash data (start + i) := by
  have hlen : kWindow ≤ i + 1 - a := by omega
  rw [hashAt, windowSum_of_le gear _ hlen]
  rfl

end VoidPalabra
