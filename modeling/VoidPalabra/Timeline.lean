import VoidPalabra.HistoryFile
import VoidPalabra.Journal

/-!
# The timeline

However a history was built, its linear extension lists what is held once, each after what
it follows and the least first of what may come next; so it depends on what is held only.
-/

namespace VoidPalabra.Utterances.History

variable {h k : History}

/-- A history that was built by any of the calls that build one. -/
inductive Built : History → Prop
  /-- The empty one. -/
  | empty : Built {}
  /-- One utterance is added. -/
  | add {h : History} (before : Built h) (u : Utterance) : Built (h.add u).2
  /-- A bag of utterances arrives. -/
  | receive {h : History} (before : Built h) (inbox : List Utterance) :
    Built (h.receive inbox).history
  /-- Another history is taken in. -/
  | absorb {h other : History} (before : Built h) (from_ : Built other) : Built (h.absorb other).2
  /-- A journal is recorded. -/
  | record {h : History} (before : Built h) (entries : List JournalEntry)
    (options : IngestOptions) : Built (h.record entries options).2
  /-- A file is read. -/
  | fromJson (obj : Option Json) : Built (fromJson obj).2

theorem adds_addAll : ∀ (us : List Utterance) (h : History), Adds Set.univ h (h.addAll us)
  | [], _ => .refl
  | u :: us, h => Adds.trans (Adds.refl.add trivial) (adds_addAll us (h.add u).2)

/-- Everything that builds a history adds to it. -/
theorem Built.reachable (hb : Built h) : h.Reachable := by
  have hbag : ∀ {l : History} (inbox : List Utterance), l.Reachable →
      (l.receive inbox).history.Reachable := fun inbox hl => hl.adds (taken _ inbox).adds
  induction hb with
  | empty => exact .refl
  | add _ u ih => exact Adds.add ih trivial
  | receive _ inbox ih => exact hbag inbox ih
  | absorb _ _ ih _ => exact hbag _ ih
  | @record h _ entries options ih =>
    rw [History.record]
    split
    · exact ih.adds (adds_addAll _ h)
    · exact ih
  | fromJson obj =>
    rcases fromJson_cases obj with ⟨reason, he⟩ | ⟨parsed, -, -, he⟩
    · rw [he]
      exact .refl
    · rw [he]
      exact hbag parsed .refl

/-- The nodes that the loop of `linear_extension` runs on. -/
def nodes (h : History) : List (Bytes × ℕ) :=
  h.byHash.toList.map fun kv => (kv.1, kv.2.parents.length)

/-- The one reading of the order of a history. -/
structure OneReading (h : History) : Prop where
  /-- After as many rounds as there are utterances none is ready, so the loop ends. -/
  ends : (Kahn.run h.childrenOf h.byHash.size
    (Kahn.start h.nodes : Kahn.State Bytes compare)).ready = ∅
  /-- It lists all the names, each once, -/
  perm : h.linearExtension.Perm h.byHash.keys
  /-- each after those it follows, -/
  after : ∀ pre n post, h.linearExtension = pre ++ n :: post → ∀ p ∈ h.parentsOf n, p ∈ pre
  /-- and the least of those that could have come at its place. -/
  least : ∀ pre n post, h.linearExtension = pre ++ n :: post → ∀ m ∈ h.names, m ∉ pre →
    (∀ p ∈ h.parentsOf m, p ∈ pre) → (compare n m).isLE = true

theorem Filed.oneReading (hf : h.Filed) : h.OneReading where
  ends := by
    obtain ⟨rank, hi⟩ := hf.indexed
    have hlength : h.nodes.length = h.byHash.size := by
      rw [nodes, List.length_map, Std.ExtTreeMap.length_toList]
    exact hlength ▸ (Kahn.counted_run hi h.nodes.length _ (Kahn.counted_start hi)
      (Nat.le_add_left _ _)).2
  perm := (List.perm_ext_iff_of_nodup hf.reading.nodup Std.ExtTreeMap.nodup_keys).mpr
    hf.reading.mem
  after _ _ _ hsplit := hf.reading.after hsplit
  least pre n post hsplit m hm hnot hparents :=
    (hf.reading.least pre n post hsplit).2 m ⟨Std.ExtTreeMap.mem_keys.mpr hm, hnot, hparents⟩

/-- Histories that hold the same utterances are read the same. -/
theorem linearExtension_congr (hf : h.Filed) (hk : k.Filed)
    (hsame : ∀ u, (∃ n, h.get n = some u) ↔ ∃ n, k.get n = some u) :
    h.linearExtension = k.linearExtension := by
  have hget : ∀ n u, h.get n = some u ↔ k.get n = some u := by
    intro n u
    constructor
    · intro hu
      obtain ⟨n', hu'⟩ := (hsame u).mp ⟨n, hu⟩
      have he : n' = n := (hk.named hu').1.symm.trans (hf.named hu).1
      exact he ▸ hu'
    · intro hu
      obtain ⟨n', hu'⟩ := (hsame u).mpr ⟨n, hu⟩
      have he : n' = n := (hf.named hu').1.symm.trans (hk.named hu).1
      exact he ▸ hu'
  have hparents : ∀ c, h.parentsOf c = k.parentsOf c := fun c => by
    have heq : h.byHash[c]? = k.byHash[c]? := Option.ext fun u => hget c u
    rw [parentsOf, parentsOf, heq]
  have hnames : h.names = k.names := by
    ext n
    change n ∈ h.byHash ↔ n ∈ k.byHash
    rw [← Std.ExtTreeMap.isSome_getElem?_iff_mem, ← Std.ExtTreeMap.isSome_getElem?_iff_mem,
      Option.isSome_iff_exists, Option.isSome_iff_exists]
    exact exists_congr fun u => hget n u
  exact (readers_agree_of_follows hf hk hnames fun c p => by
    rw [Follows, Follows, hparents]).2.2

/-- **The linear extension is the one reading of the order.** It lists what is held, each
after what it follows and the least first, and histories that hold the same utterances are
read the same. -/
theorem reads_the_order (h k : History) (hh : Built h) (hk : Built k) :
    h.OneReading ∧ ((∀ u, (∃ n, h.get n = some u) ↔ ∃ n, k.get n = some u) →
      h.linearExtension = k.linearExtension) :=
  ⟨hh.reachable.filed.oneReading, linearExtension_congr hh.reachable.filed hk.reachable.filed⟩

/-- A parent that is named twice is no obstacle. -/
theorem reads_the_order_repeating : repeating.OneReading :=
  (reads_the_order repeating {} (.add (.add .empty _) _) .empty).1

end VoidPalabra.Utterances.History
