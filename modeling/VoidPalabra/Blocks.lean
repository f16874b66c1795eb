import VoidPalabra.Chunk
import VoidPalabra.Container

/-!
# Blobs in a block store

A blob is stored as its chunks, each under the hash of its bytes, and read back from the list of
those hashes. Storing never replaces a block, so what a recipe names stays what it was
(`getBlob_mono`); that it is the blob needs the store to be content addressed and the hash not to
collide on the blocks it holds.
-/

namespace VoidPalabra

namespace BlockStore

/-- `BlockStore::put`: the address, and the store with the block. -/
def put (blocks : BlockStore) (bytes : Bytes) : Bytes × BlockStore :=
  (sha256 bytes, blocks.insertRaw (sha256 bytes) bytes)

/-- `BlockStore::get`. -/
def get (blocks : BlockStore) (key : Bytes) : Option Bytes := blocks[key]?

/-- The parts of `bytes` from `off` on, of these lengths. -/
def pieces (bytes : Bytes) : ℕ → List ℕ → List Bytes
  | _, [] => []
  | off, n :: rest => (bytes.drop off).take n :: pieces bytes (off + n) rest

/-- Every block put in turn: the addresses, and the store. -/
def putAll (blocks : BlockStore) : List Bytes → List Bytes × BlockStore
  | [] => ([], blocks)
  | b :: rest =>
    let k := blocks.put b
    let later := putAll k.2 rest
    (k.1 :: later.1, later.2)

/-- `BlockStore::put_blob`: the recipe, and the store; none where the chunker does not return. -/
def putBlob (blocks : BlockStore) (bytes : Bytes) (p : ChunkParams) :
    Option (List Bytes × BlockStore) :=
  (chunk bytes p).map fun sizes => blocks.putAll (pieces bytes 0 sizes)

/-- `BlockStore::get_blob`. -/
def getBlob (blocks : BlockStore) : List Bytes → Option Bytes
  | [] => some []
  | k :: rest => do
    let part ← blocks.get k
    let later ← getBlob blocks rest
    pure (part ++ later)

/-- Every block is under the hash of its bytes. -/
def ContentAddressed (blocks : BlockStore) : Prop :=
  ∀ k b : Bytes, blocks.get k = some b → sha256 b = k

/-- The blocks of a store. -/
def stored (blocks : BlockStore) : Set Bytes := {b | ∃ k, blocks.get k = some b}

section
variable {blocks blocks' : BlockStore} {k b : Bytes}

theorem get_insertRaw (k b k' : Bytes) :
    (blocks.insertRaw k b).get k' = if k = k' ∧ blocks.get k = none then some b else blocks.get k' := by
  unfold get insertRaw
  rw [Std.ExtTreeMap.getElem?_insertIfNew]
  by_cases hk : k = k'
  · subst hk
    by_cases hm : k ∈ blocks
    · simp [hm]
    · simp [hm]
  · simp [hk]

/-- **Storing never replaces a block.** -/
theorem get_insertRaw_of_some (h : blocks.get k = some b) (k' b' : Bytes) :
    (blocks.insertRaw k' b').get k = some b := by
  rw [get_insertRaw, if_neg]
  · exact h
  · rintro ⟨rfl, hnone⟩
    rw [hnone] at h
    cases h

theorem get_putAll_of_some {rest : List Bytes} (h : blocks.get k = some b) :
    (blocks.putAll rest).2.get k = some b := by
  induction rest generalizing blocks with
  | nil => exact h
  | cons c rest ih => exact ih (get_insertRaw_of_some h _ _)

theorem ContentAddressed.put (h : blocks.ContentAddressed) (b : Bytes) :
    (blocks.put b).2.ContentAddressed := by
  intro k c hc
  change (blocks.insertRaw (sha256 b) b).get k = some c at hc
  rw [get_insertRaw] at hc
  split_ifs at hc with hk
  · cases hc
    exact hk.1
  · exact h k c hc

/-- A block that is put is there, where no other block of the store has its hash. -/
theorem get_put (h : blocks.ContentAddressed) (hinj : ∀ c ∈ blocks.stored, sha256 c = sha256 b → c = b) :
    (blocks.put b).2.get (sha256 b) = some b := by
  change (blocks.insertRaw (sha256 b) b).get (sha256 b) = some b
  rw [get_insertRaw]
  cases hc : blocks.get (sha256 b) with
  | none => rw [if_pos ⟨rfl, rfl⟩]
  | some c =>
    rw [if_neg nofun, hinj c ⟨_, hc⟩ (h _ c hc)]

theorem stored_put (b : Bytes) : (blocks.put b).2.stored ⊆ insert b blocks.stored := by
  rintro c ⟨k, hc⟩
  change (blocks.insertRaw (sha256 b) b).get k = some c at hc
  rw [get_insertRaw] at hc
  split_ifs at hc
  · cases hc
    exact Set.mem_insert _ _
  · exact Set.mem_insert_of_mem _ ⟨k, hc⟩

/-- A recipe keeps its meaning in every store that holds what this one does. -/
theorem getBlob_mono (h : ∀ k b, blocks.get k = some b → blocks'.get k = some b) {bytes : Bytes} :
    ∀ {recipe : List Bytes}, blocks.getBlob recipe = some bytes →
      blocks'.getBlob recipe = some bytes := by
  intro recipe
  induction recipe generalizing bytes with
  | nil => exact fun hr => hr
  | cons k rest ih =>
    intro hr
    rw [getBlob, Option.bind_eq_bind, Option.bind_eq_some_iff] at hr
    obtain ⟨part, hpart, hr⟩ := hr
    rw [Option.bind_eq_some_iff] at hr
    obtain ⟨later, hlater, hbytes⟩ := hr
    rw [getBlob, h k part hpart, ih hlater]
    exact hbytes

/-- **What is put in turn is read back in turn.** -/
theorem getBlob_putAll : ∀ {parts : List Bytes} {blocks : BlockStore}, blocks.ContentAddressed →
    Set.InjOn sha256 (blocks.stored ∪ {b | b ∈ parts}) →
      (blocks.putAll parts).2.getBlob (blocks.putAll parts).1 = some parts.flatten := by
  intro parts
  induction parts with
  | nil => exact fun _ _ => rfl
  | cons b rest ih =>
    intro blocks hca hinj
    have hb : (blocks.put b).2.get (sha256 b) = some b :=
      get_put hca fun c hc hcb => hinj (.inl hc) (.inr (List.mem_cons_self ..)) hcb
    have hlater := ih (hca.put b) <| hinj.mono <| Set.union_subset
      ((stored_put b).trans (Set.insert_subset (.inr (List.mem_cons_self ..)) Set.subset_union_left))
      fun c hc => .inr (List.mem_cons_of_mem _ hc)
    change ((blocks.put b).2.putAll rest).2.getBlob
      (sha256 b :: ((blocks.put b).2.putAll rest).1) = _
    rw [getBlob, get_putAll_of_some hb, hlater]
    rfl

/-- What is put in turn is filed under the hashes. -/
theorem putAll_fst (parts : List Bytes) (blocks : BlockStore) :
    (blocks.putAll parts).1 = parts.map sha256 := by
  induction parts generalizing blocks with
  | nil => rfl
  | cons b rest ih => exact congrArg _ (ih _)

theorem putAll_append (parts more : List Bytes) (blocks : BlockStore) :
    (blocks.putAll (parts ++ more)).2 = ((blocks.putAll parts).2.putAll more).2 := by
  induction parts generalizing blocks with
  | nil => rfl
  | cons b rest ih => exact ih _

theorem ContentAddressed.putAll (h : blocks.ContentAddressed) (parts : List Bytes) :
    (blocks.putAll parts).2.ContentAddressed := by
  induction parts generalizing blocks with
  | nil => exact h
  | cons b rest ih => exact ih (h.put b)

theorem stored_putAll (parts : List Bytes) (blocks : BlockStore) :
    (blocks.putAll parts).2.stored ⊆ blocks.stored ∪ {b | b ∈ parts} := by
  induction parts generalizing blocks with
  | nil => exact Set.subset_union_left
  | cons b rest ih =>
    refine (ih _).trans (Set.union_subset ((stored_put b).trans ?_) fun c hc => .inr (List.mem_cons_of_mem _ hc))
    exact Set.insert_subset (.inr List.mem_cons_self) Set.subset_union_left

/-- Each block that was put in turn is there. -/
theorem get_putAll {parts : List Bytes} (h : blocks.ContentAddressed)
    (hinj : Set.InjOn sha256 (blocks.stored ∪ {b | b ∈ parts})) (hb : b ∈ parts) :
    (blocks.putAll parts).2.get (sha256 b) = some b := by
  obtain ⟨before, after, rfl⟩ := List.append_of_mem hb
  have hput : ((blocks.putAll before).2.put b).2.get (sha256 b) = some b := by
    refine get_put (h.putAll before) fun c hc hcb => hinj ?_ (.inr hb) hcb
    rcases stored_putAll before blocks hc with hc | hc
    · exact .inl hc
    · exact .inr (List.mem_append_left _ hc)
  rw [putAll_append]
  change (((blocks.putAll before).2.put b).2.putAll after).2.get (sha256 b) = some b
  exact get_putAll_of_some hput

/-- The pieces are the bytes. -/
theorem flatten_pieces {bytes : Bytes} : ∀ {sizes : List ℕ} {off : ℕ},
    off + sizes.sum = bytes.length → (pieces bytes off sizes).flatten = bytes.drop off := by
  intro sizes
  induction sizes with
  | nil =>
    intro off h
    rw [List.sum_nil] at h
    rw [pieces, List.flatten_nil, List.drop_eq_nil_of_le (by omega)]
  | cons n rest ih =>
    intro off h
    rw [List.sum_cons] at h
    rw [pieces, List.flatten_cons, ih (by omega), ← List.drop_drop, List.take_append_drop]

end

end BlockStore

open BlockStore

end VoidPalabra
