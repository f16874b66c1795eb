import VoidPalabra.Cursor
import VoidPalabra.Digest

/-!
# The container

A version, a document and the blocks of a store, each behind its length. A block is taken only
when its bytes hash to its key, and the file ends with the last block.
-/

namespace VoidPalabra

open Cursor

/-- `BlockStore`: blocks under the bytes of their keys. -/
abbrev BlockStore := Std.ExtTreeMap Bytes Bytes compare

/-- `BlockStore::insert_raw`: what is there already stays. -/
def BlockStore.insertRaw (blocks : BlockStore) (key block : Bytes) : BlockStore := blocks.insertIfNew key block

/-- `Container`. -/
structure Container where
  /-- The document's bytes. -/
  doc : Bytes := []
  /-- The blocks. -/
  blocks : BlockStore := ∅

/-- `kContainerVersion`. -/
def kContainerVersion : ℕ := 1

/-- The number of values of a `size_t`. -/
def sizeT : ℕ := 2 ^ 64

/-! ### Writing -/

/-- `put_u32`. -/
def putU32 (v : ℕ) : Bytes := leBytes 4 v

/-- `put_u64`. -/
def putU64 (v : ℕ) : Bytes := leBytes 8 v

/-- One block in a file. -/
def writeBlock (kv : Bytes × Bytes) : Bytes := kv.1 ++ (putU64 kv.2.length ++ kv.2)

/-- `container_write`. -/
def containerWrite (c : Container) : Bytes :=
  lit "VPAL" ++ (putU32 kContainerVersion ++ (putU64 c.doc.length ++ (c.doc ++
    (putU64 c.blocks.size ++ c.blocks.toList.flatMap writeBlock))))

/-! ### Reading -/

/-- A reader of a container; it reads into one. -/
abbrev ContainerReader := Reader Container

/-- `take`. -/
def takeBytes (s : Bytes) (n : ℕ) : ContainerReader Bytes := take sizeT s n

/-- `take_u32`. -/
def takeU32 (s : Bytes) : ContainerReader ℕ := do
  let b ← take sizeT s 4
  pure (leNat b)

/-- `take_u64`. -/
def takeU64 (s : Bytes) : ContainerReader ℕ := do
  let b ← take sizeT s 8
  pure (leNat b)

/-- A check of `container_read`. -/
def require (p : Bool) : ContainerReader Unit := if p then pure () else fail

/-- One round of the loop of `container_read`. -/
def readBlock (s : Bytes) : ContainerReader Unit := do
  let key ← takeBytes s 32
  let len ← takeU64 s
  let block ← takeBytes s len
  require (sha256 block == key)
  store fun c => { c with blocks := c.blocks.insertRaw key block }

/-- The loop of `container_read`. -/
def readBlocks (s : Bytes) : ℕ → ContainerReader Unit
  | 0 => pure ()
  | n + 1 => do
    readBlock s
    readBlocks s n

/-- `container_read` up to the end of the file. -/
def readContainer (s : Bytes) : ContainerReader Unit := do
  let magic ← takeBytes s 4
  require (magic == lit "VPAL")
  let version ← takeU32 s
  require (version == kContainerVersion)
  let len ← takeU64 s
  let doc ← takeBytes s len
  store fun c => { c with doc := doc }
  let count ← takeU64 s
  readBlocks s count

/-- Where `container_read` ends. -/
def containerEnd (s : Bytes) (out : Container) : Option Unit × Place Container :=
  (readContainer s).run ⟨0, [], out⟩

/-- `container_read`: whether it is a container, and what was read into. -/
def containerRead (s : Bytes) (out : Container) : Bool × Container :=
  let e := containerEnd s out
  (e.1.isSome && e.2.pos == s.length, e.2.out)

/-! ### Where the reader looks -/

theorem keeps_require {I : Place Container → Prop} (p : Bool) : Keeps I (require p) := by
  unfold require
  split_ifs
  · exact keeps_pure I ()
  · exact keeps_fail I

section

variable {s : Bytes}

theorem keeps_takeU32 (hs : s.length < sizeT) : Keeps (Inside s) (takeU32 s) :=
  (keeps_take hs 4).bind fun _ => keeps_pure _ _

theorem keeps_takeU64 (hs : s.length < sizeT) : Keeps (Inside s) (takeU64 s) :=
  (keeps_take hs 8).bind fun _ => keeps_pure _ _

theorem keeps_store (f : Container → Container) : Keeps (Inside s) (store f) := fun _ h => h

theorem keeps_readBlock (hs : s.length < sizeT) : Keeps (Inside s) (readBlock s) :=
  (keeps_take hs 32).bind fun _ => (keeps_takeU64 hs).bind fun _ => (keeps_take hs _).bind fun _ =>
    (keeps_require _).bind fun _ => keeps_store _

theorem keeps_readBlocks (hs : s.length < sizeT) (n : ℕ) : Keeps (Inside s) (readBlocks s n) := by
  induction n with
  | zero => exact keeps_pure _ _
  | succ n ih => exact (keeps_readBlock hs).bind fun _ => ih

/-- The reader goes forward over its file and never beyond the end. -/
theorem keeps_readContainer (hs : s.length < sizeT) : Keeps (Inside s) (readContainer s) :=
  (keeps_take hs 4).bind fun _ => (keeps_require _).bind fun _ => (keeps_takeU32 hs).bind fun _ =>
    (keeps_require _).bind fun _ => (keeps_takeU64 hs).bind fun _ => (keeps_take hs _).bind fun _ =>
      (keeps_store _).bind fun _ => (keeps_takeU64 hs).bind fun _ => keeps_readBlocks hs _

/-! ### What is taken -/

/-- Every block is under its hash, but for those that were there. -/
def Verified (out : Container) (p : Place Container) : Prop :=
  ∀ k b, p.out.blocks[k]? = some b → out.blocks[k]? = some b ∨ sha256 b = k

theorem verified_take {out : Container} {n : ℕ} : Keeps (Verified out) (take sizeT s n) := by
  intro p hp
  rw [run_take]
  split_ifs
  · exact hp
  · exact hp

theorem verified_takeU64 {out : Container} : Keeps (Verified out) (takeU64 s) :=
  verified_take.bind fun _ => keeps_pure _ _

theorem verified_readBlock {out : Container} : Keeps (Verified out) (readBlock s) := by
  refine verified_take.bind fun key => verified_takeU64.bind fun len => verified_take.bind fun block => ?_
  intro p hp
  by_cases hkey : (sha256 block == key) = true
  · rw [run_bind, require, if_pos hkey]
    intro k b hb
    change (p.out.blocks.insertIfNew key block)[k]? = some b at hb
    rw [Std.ExtTreeMap.getElem?_insertIfNew] at hb
    split_ifs at hb with hnew
    · cases hb
      exact Or.inr ((beq_iff_eq.mp hkey).trans (Std.LawfulEqCmp.compare_eq_iff_eq.mp hnew.1))
    · exact hp k b hb
  · rw [run_bind, require, if_neg hkey]
    exact hp

theorem verified_readBlocks {out : Container} (n : ℕ) : Keeps (Verified out) (readBlocks s n) := by
  induction n with
  | zero => exact keeps_pure _ _
  | succ n ih => exact verified_readBlock.bind fun _ => ih

theorem verified_readContainer {out : Container} : Keeps (Verified out) (readContainer s) :=
  verified_take.bind fun _ => (keeps_require _).bind fun _ =>
    (verified_take.bind fun _ => keeps_pure _ _).bind fun _ => (keeps_require _).bind fun _ =>
      verified_takeU64.bind fun _ => verified_take.bind fun _ =>
        Keeps.bind (fun _ h => h) fun _ => verified_takeU64.bind fun _ => verified_readBlocks _

end

/-! ### What follows the last block -/

theorem readsOn_require (p : Bool) : ReadsOn fun _ : Bytes => require p := by
  unfold require
  split_ifs
  · exact readsOn_pure ()
  · exact readsOn_fail

theorem readsOn_takeU32 : ReadsOn takeU32 := (readsOn_take sizeT 4).bind fun _ => readsOn_pure _

theorem readsOn_takeU64 : ReadsOn takeU64 := (readsOn_take sizeT 8).bind fun _ => readsOn_pure _

theorem readsOn_readBlock : ReadsOn readBlock :=
  (readsOn_take sizeT 32).bind fun _ => readsOn_takeU64.bind fun _ => (readsOn_take sizeT _).bind fun _ =>
    (readsOn_require _).bind fun _ => readsOn_store _

theorem readsOn_readBlocks (n : ℕ) : ReadsOn fun s => readBlocks s n := by
  induction n with
  | zero => exact readsOn_pure ()
  | succ n ih => exact readsOn_readBlock.bind fun _ => ih

/-- What follows a container does not change how it is read. -/
theorem readsOn_readContainer : ReadsOn readContainer :=
  (readsOn_take sizeT 4).bind fun _ => (readsOn_require _).bind fun _ => readsOn_takeU32.bind fun _ =>
    (readsOn_require _).bind fun _ => readsOn_takeU64.bind fun _ => (readsOn_take sizeT _).bind fun _ =>
      (readsOn_store _).bind fun _ => readsOn_takeU64.bind fun _ => readsOn_readBlocks _

/-- A container that goes on is not one. -/
theorem containerRead_append {s t : Bytes} {out out' : Container} (h : (containerRead s out).1 = true)
    (ht : t ≠ []) : (containerRead (s ++ t) out').1 = false := by
  unfold containerRead containerEnd at h ⊢
  cases hrun : (readContainer s).run ⟨0, [], out⟩ with
  | mk r p =>
    rw [hrun] at h
    cases r with
    | none => cases h
    | some a =>
      obtain ⟨q, hq, hpos⟩ := readsOn_readContainer s t ⟨0, [], out⟩ ⟨0, [], out'⟩ a p rfl hrun
      rw [hq]
      have hlen : 0 < t.length := List.length_pos_of_ne_nil ht
      simp only [Option.isSome_some, Bool.true_and, beq_iff_eq] at h
      simp only [Option.isSome_some, Bool.true_and, beq_eq_false_iff_ne, hpos, h, List.length_append]
      omega

/-! ### Reading what was written -/

theorem leNat_putU64 {n : ℕ} (h : n < sizeT) : leNat (putU64 n) = n := by
  rw [putU64, leNat_leBytes]
  exact Nat.mod_eq_of_lt (h.trans_eq (by norm_num [sizeT]))

theorem reads_takeU64 {n : ℕ} (h : n < sizeT) : Reads sizeT takeU64 (putU64 n) n id := by
  have hreads : Reads sizeT takeU64 (putU64 n ++ []) (leNat (putU64 n)) (id ∘ id) :=
    (reads_take (σ := Container) (length_leBytes 8 n)).bind
      (k := fun _ b => pure (leNat b)) (reads_const fun _ => rfl)
  rwa [List.append_nil, leNat_putU64 h] at hreads

theorem reads_require {p : Bool} (h : p = true) : Reads sizeT (fun _ : Bytes => require p) [] () id :=
  reads_const fun _ => by rw [require, if_pos h]; rfl

theorem reads_store (f : Container → Container) : Reads sizeT (fun _ : Bytes => store f) [] () f :=
  reads_const fun _ => rfl

/-- A block that is read. -/
def Container.withBlock (c : Container) (kv : Bytes × Bytes) : Container :=
  { c with blocks := c.blocks.insertRaw kv.1 kv.2 }

theorem reads_readBlock {kv : Bytes × Bytes} (hkey : sha256 kv.2 = kv.1) (h : kv.2.length < sizeT) :
    Reads sizeT readBlock (writeBlock kv) () (·.withBlock kv) := by
  have hlen : kv.1.length = 32 := hkey ▸ length_sha256 kv.2
  have hreads : Reads sizeT readBlock (kv.1 ++ (putU64 kv.2.length ++ (kv.2 ++ ([] ++ [])))) ()
      (((((fun c => c.withBlock kv) ∘ id) ∘ id) ∘ id) ∘ id) := by
    unfold readBlock
    refine Reads.bind (reads_take hlen) (Reads.bind (reads_takeU64 h) (Reads.bind (reads_take rfl) ?_))
    exact Reads.bind (reads_require (beq_iff_eq.mpr hkey)) (reads_store _)
  simpa [writeBlock] using hreads

theorem reads_readBlocks {kvs : List (Bytes × Bytes)} (hkeys : ∀ kv ∈ kvs, sha256 kv.2 = kv.1)
    (h : ∀ kv ∈ kvs, kv.2.length < sizeT) :
    Reads sizeT (fun s => readBlocks s kvs.length) (kvs.flatMap writeBlock) ()
      (fun c => kvs.foldl Container.withBlock c) := by
  induction kvs with
  | nil => exact reads_const fun _ => rfl
  | cons kv kvs ih =>
    have hrest := ih (fun x hx => hkeys x (List.mem_cons_of_mem _ hx))
      (fun x hx => h x (List.mem_cons_of_mem _ hx))
    exact Reads.bind (k := fun s _ => readBlocks s kvs.length)
      (reads_readBlock (hkeys kv (List.mem_cons_self ..)) (h kv (List.mem_cons_self ..))) hrest

/-- Blocks under distinct keys are all put into a store. -/
theorem getElem?_withBlocks {kvs : List (Bytes × Bytes)} (hkeys : (kvs.map Prod.fst).Nodup) :
    ∀ {c : Container}, (∀ kv ∈ kvs, c.blocks[kv.1]? = none) → ∀ k b,
      (kvs.foldl Container.withBlock c).blocks[k]? = some b ↔ c.blocks[k]? = some b ∨ (k, b) ∈ kvs := by
  induction kvs with
  | nil => simp
  | cons kv kvs ih =>
    intro c hnew k b
    obtain ⟨hkey, hrest⟩ := List.nodup_cons.mp hkeys
    have hget : ∀ k', (c.withBlock kv).blocks[k']? = if kv.1 = k' then some kv.2 else c.blocks[k']? := by
      intro k'
      change (c.blocks.insertIfNew kv.1 kv.2)[k']? = _
      rw [Std.ExtTreeMap.getElem?_insertIfNew]
      have habsent : ¬kv.1 ∈ c.blocks := by
        rw [Std.ExtTreeMap.mem_iff_isSome_getElem?, hnew kv (List.mem_cons_self ..)]
        exact Bool.false_ne_true
      simp only [Std.LawfulEqCmp.compare_eq_iff_eq, habsent, not_false_eq_true, and_true]
    rw [List.foldl_cons, ih hrest]
    · rw [hget, List.mem_cons]
      by_cases hk : kv.1 = k
      · rw [if_pos hk, ← hk, hnew kv (List.mem_cons_self ..), Option.some_inj]
        constructor
        · rintro (rfl | hm)
          · exact Or.inr (Or.inl rfl)
          · exact Or.inr (Or.inr hm)
        · rintro (h | h | hm)
          · cases h
          · exact Or.inl (congrArg Prod.snd h).symm
          · exact Or.inr hm
      · rw [if_neg hk]
        constructor
        · rintro (h | hm)
          · exact Or.inl h
          · exact Or.inr (Or.inr hm)
        · rintro (h | h | hm)
          · exact Or.inl h
          · exact absurd (congrArg Prod.fst h).symm hk
          · exact Or.inr hm
    · intro kv' hkv'
      rw [hget, if_neg, hnew kv' (List.mem_cons_of_mem _ hkv')]
      intro he
      exact hkey (List.mem_map.mpr ⟨kv', hkv', he.symm⟩)

/-- A fresh store that takes all blocks of a container has its blocks. -/
theorem withBlocks_toList (c : Container) :
    (c.blocks.toList.foldl Container.withBlock { doc := c.doc }) = c := by
  have hdoc : ∀ (kvs : List (Bytes × Bytes)) (c : Container), (kvs.foldl Container.withBlock c).doc = c.doc := by
    intro kvs
    induction kvs with
    | nil => exact fun c => rfl
    | cons kv kvs ih => exact fun c => ih _
  have hblocks : (c.blocks.toList.foldl Container.withBlock { doc := c.doc }).blocks = c.blocks := by
    apply Std.ExtTreeMap.ext_getElem?
    intro k
    apply Option.ext
    intro b
    rw [getElem?_withBlocks]
    · simp [Std.ExtTreeMap.mem_toList_iff_getElem?_eq_some]
    · refine List.pairwise_map.mpr (c.blocks.distinct_keys_toList.imp fun h he => h ?_)
      rw [he]
      exact Std.ReflCmp.compare_self
    · simp
  obtain ⟨doc, blocks⟩ := c
  exact congrArg₂ Container.mk (hdoc _ _) hblocks

/-- A file whose lengths fit is read back. -/
theorem reads_readContainer {c : Container} (hkeys : ∀ k b : Bytes, c.blocks[k]? = some b → sha256 b = k)
    (hlen : (containerWrite c).length < sizeT) :
    Reads sizeT readContainer (containerWrite c) ()
      fun out => c.blocks.toList.foldl Container.withBlock { out with doc := c.doc } := by
  have hlength : (containerWrite c).length = 4 + (4 + (8 + (c.doc.length + (8 +
      (c.blocks.toList.flatMap writeBlock).length)))) := by
    simp only [containerWrite, List.length_append, putU32, putU64, length_leBytes]
    rfl
  have hblock : ∀ kv ∈ c.blocks.toList, sha256 kv.2 = kv.1 ∧ kv.2.length < sizeT := by
    intro kv hkv
    have hle : (writeBlock kv).length ≤ (c.blocks.toList.flatMap writeBlock).length := by
      rw [List.flatMap_def]
      exact (List.sublist_flatten_of_mem (List.mem_map_of_mem hkv)).length_le
    rw [writeBlock, List.length_append, List.length_append] at hle
    refine ⟨hkeys kv.1 kv.2 ?_, by omega⟩
    exact Std.ExtTreeMap.mem_toList_iff_getElem?_eq_some.mp hkv
  have hcount : c.blocks.size < sizeT := by
    have hle : c.blocks.toList.length ≤ (c.blocks.toList.flatMap writeBlock).length := by
      rw [List.length_flatMap, ← List.length_map (fun kv => (writeBlock kv).length)]
      refine List.length_le_sum_of_one_le _ fun n hn => ?_
      obtain ⟨kv, -, rfl⟩ := List.mem_map.mp hn
      simp only [writeBlock, List.length_append, putU64, length_leBytes]
      omega
    rw [Std.ExtTreeMap.length_toList] at hle
    omega
  have hblocks := @reads_readBlocks c.blocks.toList (fun kv hkv => (hblock kv hkv).1)
    (fun kv hkv => (hblock kv hkv).2)
  rw [Std.ExtTreeMap.length_toList] at hblocks
  have hversion : Reads sizeT takeU32 (putU32 kContainerVersion ++ []) kContainerVersion (id ∘ id) :=
    Reads.bind (k := fun _ b => pure (leNat b)) (reads_take (length_leBytes 4 kContainerVersion))
      (reads_const fun _ => rfl)
  rw [List.append_nil] at hversion
  have hreads : Reads sizeT readContainer (lit "VPAL" ++ ([] ++ (putU32 kContainerVersion ++ ([] ++
      (putU64 c.doc.length ++ (c.doc ++ ([] ++ (putU64 c.blocks.size ++
        c.blocks.toList.flatMap writeBlock)))))))) ()
      ((((((((((fun out => c.blocks.toList.foldl Container.withBlock out) ∘ id) ∘
        fun out => { out with doc := c.doc }) ∘ id) ∘ id) ∘ id) ∘ id) ∘ id) ∘ id)) := by
    unfold readContainer
    refine Reads.bind (reads_take rfl) (Reads.bind (reads_require rfl) (Reads.bind hversion
      (Reads.bind (reads_require rfl) (Reads.bind (reads_takeU64 (by omega)) (Reads.bind (reads_take rfl) ?_)))))
    exact Reads.bind (reads_store _) (Reads.bind (reads_takeU64 hcount) hblocks)
  rw [containerWrite]
  simp only [List.nil_append, Function.comp_id] at hreads
  exact hreads

/-- A container is what a fresh container reads from its file. -/
theorem containerRead_write {c : Container} (hkeys : ∀ k b : Bytes, c.blocks[k]? = some b → sha256 b = k)
    (hlen : (containerWrite c).length < sizeT) : containerRead (containerWrite c) {} = (true, c) := by
  obtain ⟨spans, hrun⟩ := reads_readContainer hkeys hlen [] [] ⟨0, [], {}⟩ rfl (by simpa using hlen)
  rw [List.nil_append, List.append_nil] at hrun
  unfold containerRead containerEnd
  rw [hrun]
  simp [withBlocks_toList]

/-! ### The format -/

/-- What the format promises. -/
structure ContainerFormat : Prop where
  /-- What is written is read back. -/
  roundTrip : ∀ c : Container, (∀ k b : Bytes, c.blocks[k]? = some b → sha256 b = k) →
    (containerWrite c).length < sizeT → containerRead (containerWrite c) {} = (true, c)
  /-- The same content is the same file. -/
  canonical : ∀ c c' : Container, c.doc = c'.doc → (∀ k : Bytes, c.blocks[k]? = c'.blocks[k]?) →
    containerWrite c = containerWrite c'
  /-- No file makes the reader look beyond its end or go back. -/
  inside : ∀ (s : Bytes) (out : Container), s.length < sizeT →
    Inside s (containerEnd s out).2 ∧ ∀ x ∈ (containerEnd s out).2.spans, x.1 + x.2 ≤ s.length
  /-- What is accepted is verified. -/
  verified : ∀ (s : Bytes) (out : Container), (containerRead s out).1 = true →
    ∀ k b : Bytes, (containerRead s out).2.blocks[k]? = some b → out.blocks[k]? = some b ∨ sha256 b = k
  /-- What is accepted is not accepted when it is cut off, -/
  truncated : ∀ (s t : Bytes) (out out' : Container), t ≠ [] → (containerRead (s ++ t) out).1 = true →
    (containerRead s out').1 = false
  /-- or when it goes on. -/
  extended : ∀ (s t : Bytes) (out out' : Container), t ≠ [] → (containerRead s out).1 = true →
    (containerRead (s ++ t) out').1 = false

theorem containerFormat : ContainerFormat where
  roundTrip := fun _ => containerRead_write
  canonical := by
    intro c c' hdoc hblocks
    have hsame : c.blocks = c'.blocks := Std.ExtTreeMap.ext_getElem? fun {k} => hblocks k
    rw [containerWrite, containerWrite, hdoc, hsame]
  inside := by
    intro s out hs
    have hinside := keeps_readContainer hs ⟨0, [], out⟩ ⟨Nat.zero_le _, .nil⟩
    exact ⟨hinside, fun x hx => (hinside.2.span_le x hx).trans hinside.1⟩
  verified := by
    intro s out _ k b hb
    exact verified_readContainer ⟨0, [], out⟩ (fun _ _ h => Or.inl h) k b hb
  truncated := by
    intro s t out out' ht h
    by_contra hs
    rw [Bool.not_eq_false] at hs
    rw [containerRead_append hs ht] at h
    cases h
  extended := fun s t out out' ht h => containerRead_append h ht

end VoidPalabra
