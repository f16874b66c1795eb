import VoidPalabra.Recorded
import VoidPalabra.Numerals

/-!
# Saving a replica and reading it back

`Replica::to_bytes` prints the identity, the counter and the document; `from_bytes` parses
the text and checks each of them. What is printed of a document of the right shape is
parsed as that document.
-/

namespace VoidPalabra

/-- `kMaxCounter`. -/
def kMaxCounter : Double := .ofInt (2 ^ 53)

namespace Key

def palabraReplica : CString := .ofLit "palabra_replica"
def issued : CString := .ofLit "issued"
def doc : CString := .ofLit "doc"

end Key

namespace Replica

/-- What `to_bytes` prints. -/
def toJson (r : Replica) : Json :=
  .obj [(Key.palabraReplica, .num Double.one), (Key.id, .str r.id),
    (Key.issued, .num (.ofInt r.issued)), (Key.doc, r.doc)]

/-- `to_bytes`. -/
def toBytes (r : Replica) : Bytes := printed r.toJson

/-- The number that marks the shape. -/
def marksOne (n : Option Json) : Bool :=
  match n with
  | some (.num d) => d.eq Double.one
  | _ => false

/-- A counter that is a whole number in range. -/
def counterOf (n : Option Json) : Option ℕ :=
  match n with
  | some (.num d) =>
    if d.lt (.ofInt 0) || kMaxCounter.lt d || !d.eq (.ofInt d.floor) then none else some d.floor
  | _ => none

/-- The document holds a tag of an identity past a counter. -/
def behind (doc : Json) (id : CString) (counter : ℕ) : Bool :=
  (allTags doc).toList.any fun t => (ownCounter t.bytes id.bytes).any fun n => decide (counter < n)

/-- The checks of `from_bytes` on what was parsed. -/
def ofJson (o : Json) : Except Bytes Replica :=
  if !marksOne (o.get Key.palabraReplica) then .error (lit "not a replica, or a newer shape")
  else
    match (o.get Key.id).bind Json.string? with
    | none => .error []
    | some id => do
      validId id
      match counterOf (o.get Key.issued) with
      | none => .error (lit "the counter is not a whole number in range")
      | some counter => do
        let doc := (o.get Key.doc).getD .null
        validate doc
        if behind doc id counter then
          .error (lit "the counter is behind the document; fork to a new id")
        else pure { id := id, issued := counter, doc := doc }

/-- `from_bytes`. -/
def fromBytes (bytes : Bytes) : Except Bytes Replica :=
  match parseJson bytes with
  | none => .error (lit "not JSON")
  | some o => ofJson o

end Replica

/-- A whole number below 2^53 is ordered as a double below 2^53. -/
theorem Double.key_ofInt {n : ℕ} (h : n < 2 ^ 53) :
    0 ≤ (Double.ofInt n).key ∧ (Double.ofInt n).key ≤ 1076 * 2 ^ 52 := by
  have hround : Double.roundNat n ≤ 1076 * 2 ^ 52 := by
    by_cases h0 : n = 0
    · subst h0
      decide
    have hl : n.log2 < 53 := (Nat.log2_lt h0).mpr h
    have hhigh : n * 2 ^ (52 - n.log2) < 2 ^ 53 := by
      calc _ < 2 ^ (n.log2 + 1) * 2 ^ (52 - n.log2) :=
            (Nat.mul_lt_mul_right (Nat.two_pow_pos _)).mpr Nat.lt_log2_self
        _ = 2 ^ 53 := by rw [← pow_add]; congr 1; omega
    rw [Double.roundNat_small h0 h]
    omega
  have hpos : ¬(n : ℤ) < 0 := by omega
  have hbits : (Double.ofInt n).bits.toNat = Double.roundNat n := by
    simp only [Double.ofInt, hpos, if_false, Nat.add_zero, Int.natAbs_natCast, UInt64.toNat_ofNat']
    omega
  have hneg : (Double.ofInt n).negative = false := by
    rw [Double.negative, hbits, decide_eq_false_iff_not]
    omega
  rw [Double.key, hneg, if_neg Bool.false_ne_true, hbits]
  omega

/-! ### What is printed of a document -/

theorem readsBack_one : Double.one.ReadsBack := readsBack_ofInt (n := 1) (by decide)

/-- More nesting is no obstacle. -/
theorem Printable.mono {j : Json} : ∀ {m n : ℕ}, m ≤ n → Printable m j → Printable n j := by
  induction j using Json.induct with
  | null => exact fun _ _ => by simp [Printable]
  | bool b => exact fun _ _ => by simp [Printable]
  | str s => exact fun _ _ => by simp [Printable]
  | num d =>
    intro m n _ h
    simpa [Printable] using h
  | arr xs ih =>
    intro m n hmn h
    cases m with
    | zero => exact absurd h (by simp [Printable])
    | succ m =>
      obtain ⟨n, rfl⟩ : ∃ k, n = k + 1 := ⟨n - 1, by omega⟩
      rw [Printable] at h ⊢
      exact fun v hv => ih v hv (Nat.le_of_succ_le_succ hmn) (h v hv)
  | obj ms ih =>
    intro m n hmn h
    cases m with
    | zero => exact absurd h (by simp [Printable])
    | succ m =>
      obtain ⟨n, rfl⟩ : ∃ k, n = k + 1 := ⟨n - 1, by omega⟩
      rw [Printable] at h ⊢
      exact fun v hv => ih v hv (Nat.le_of_succ_le_succ hmn) (h v hv)

/-- An OR-set holds strings only. -/
theorem SpelledOrset.printable {n : Json} (h : SpelledOrset n) : Printable 2 n := by
  obtain ⟨ms, rfl⟩ : ∃ ms, n = .obj ms := by
    cases n with
    | obj ms => exact ⟨ms, rfl⟩
    | _ => exact absurd h.wellFormed (by simp [orsetJsonWellFormed])
  have hw := h.wellFormed
  unfold orsetJsonWellFormed at hw
  dsimp only at hw
  split at hw
  · rename_i adds removes ha hr
    rw [Bool.and_eq_true, Bool.and_eq_true, beq_iff_eq, List.all_eq_true, List.all_eq_true] at hw
    obtain ⟨⟨hlen, hadds⟩, hremoves⟩ := hw
    have hadd : Printable 1 (.obj adds) := by
      rw [Printable]
      intro m hm
      obtain ⟨⟨t, v⟩, he⟩ := Option.isSome_iff_exists.mp (hadds m hm)
      rw [(addOf_eq_some.mp he).1]
      simp [Printable]
    have hremove : Printable 1 (.arr removes) := by
      rw [Printable]
      intro v hv
      obtain ⟨t, he⟩ := Option.isSome_iff_exists.mp (hremoves v hv)
      rw [(removeOf_eq_some.mp he).1]
      simp [Printable]
    -- with two members there is no other than these
    have hsub : [Key.a, Key.r] ⊆ ms.map Prod.fst := by
      simp only [List.cons_subset, List.nil_subset, and_true]
      exact ⟨List.mem_map_of_mem (Json.mem_of_lookup ha), List.mem_map_of_mem (Json.mem_of_lookup hr)⟩
    have hperm : [Key.a, Key.r].Perm (ms.map Prod.fst) :=
      (List.subperm_of_subset (by decide) hsub).perm_of_length_le (by simp [hlen])
    rw [Printable]
    intro m hm
    have hl : Json.lookup m.1 ms = some m.2 := Json.lookup_of_mem h.nodup hm
    have hname := hperm.mem_iff.mpr (List.mem_map_of_mem (f := Prod.fst) hm)
    simp only [List.mem_cons, List.not_mem_nil, or_false] at hname
    rcases hname with hname | hname
    · rw [hname, ha, Option.some.injEq] at hl
      rwa [← hl]
    · rw [hname, hr, Option.some.injEq] at hl
      rwa [← hl]
  · cases hw

/-- A tree is no deeper than its kinds are. -/
theorem Everywhere.printable {h : ℕ} : ∀ {K : Path → Option Kind} {n : Json},
    (∀ p, (K p).isSome = true → p.length ≤ h) → Everywhere K NodeShape n → Printable (h + 2) n := by
  induction h with
  | zero =>
    intro K n hK he
    obtain ⟨k, -, hs⟩ := he [] n rfl
    cases k with
    | set rule => exact SpelledOrset.printable hs
    | marker =>
      rw [show n = .num Double.one from hs]
      simpa [Printable] using readsBack_one
    | map =>
      obtain ⟨ms, rfl⟩ := exists_members_of_rank hs.1
      rw [Printable]
      intro m hm
      have hl : (Json.obj ms).get m.1 = some m.2 := Json.lookup_of_mem hs.2 hm
      obtain ⟨k', hk', -⟩ := ((everywhere_of_rank hs.1).mp he).2 m.1 m.2 hl [] m.2 rfl
      exact absurd (hK [m.1] (Option.isSome_iff_exists.mpr ⟨k', hk'⟩)) (by simp)
  | succ h ih =>
    intro K n hK he
    obtain ⟨k, -, hs⟩ := he [] n rfl
    cases k with
    | set rule => exact (SpelledOrset.printable hs).mono (by omega)
    | marker =>
      rw [show n = .num Double.one from hs]
      simpa [Printable] using readsBack_one
    | map =>
      obtain ⟨ms, rfl⟩ := exists_members_of_rank hs.1
      rw [Printable]
      intro m hm
      have hl : (Json.obj ms).get m.1 = some m.2 := Json.lookup_of_mem hs.2 hm
      refine ih (fun p hp => ?_) (((everywhere_of_rank hs.1).mp he).2 m.1 m.2 hl)
      exact Nat.le_of_succ_le_succ (hK (m.1 :: p) hp)

theorem setKind_length {rule : ValueRule} {p : Path} (h : (setKind rule p).isSome = true) :
    p.length ≤ 0 := by
  unfold setKind at h
  split at h
  · rename_i hp
    rw [hp]
    exact le_rfl
  · cases h

theorem fieldsKind_length {allowed : CString → Bool} {rule : ValueRule} {p : Path}
    (h : (fieldsKind allowed rule p).isSome = true) : p.length ≤ 1 := by
  cases p with
  | nil => exact Nat.zero_le _
  | cons f p =>
    rw [fieldsKind] at h
    split at h
    · exact Nat.succ_le_succ (setKind_length h)
    · cases h

theorem namedKind_length {below : Path → Option Kind} {h : ℕ}
    (hb : ∀ p, (below p).isSome = true → p.length ≤ h) {p : Path}
    (hp : (namedKind below p).isSome = true) : p.length ≤ h + 1 := by
  cases p with
  | nil => exact Nat.zero_le _
  | cons k p =>
    rw [namedKind] at hp
    split at hp
    · cases hp
    · exact Nat.succ_le_succ (hb p hp)

theorem runeKind_length {p : Path} (h : (runeKind p).isSome = true) : p.length ≤ 2 := by
  cases p with
  | nil => exact Nat.zero_le _
  | cons x p =>
    rw [runeKind] at h
    split_ifs at h
    · exact Nat.succ_le_succ ((setKind_length h).trans (by decide))
    · exact Nat.succ_le_succ (fieldsKind_length h)
    · exact Nat.succ_le_succ ((setKind_length h).trans (by decide))
    · cases h

theorem mantleKind_length {p : Path} (h : (mantleKind p).isSome = true) : p.length ≤ 4 := by
  cases p with
  | nil => exact Nat.zero_le _
  | cons x p =>
    rw [mantleKind] at h
    split_ifs at h
    · exact Nat.succ_le_succ ((setKind_length h).trans (by decide))
    · exact Nat.succ_le_succ ((fieldsKind_length h).trans (by decide))
    · exact Nat.succ_le_succ (namedKind_length (fun _ => runeKind_length) h)
    · exact Nat.succ_le_succ ((setKind_length h).trans (by decide))
    · cases h

theorem glyphKind_length {p : Path} (h : (glyphKind p).isSome = true) : p.length ≤ 4 := by
  cases p with
  | nil => exact Nat.zero_le _
  | cons x p =>
    rw [glyphKind] at h
    split_ifs at h
    · exact Nat.succ_le_succ ((setKind_length h).trans (by decide))
    · exact Nat.succ_le_succ ((fieldsKind_length h).trans (by decide))
    · cases h

theorem kindOf_length {p : Path} (h : (kindOf p).isSome = true) : p.length ≤ 6 := by
  cases p with
  | nil => exact Nat.zero_le _
  | cons x p =>
    rw [kindOf] at h
    split_ifs at h with h1 h2
    · rw [h2]
      exact Nat.succ_le_succ (Nat.zero_le _)
    · cases h
    · exact Nat.succ_le_succ (namedKind_length (fun _ => mantleKind_length) h)
    · exact Nat.succ_le_succ (namedKind_length (fun _ => glyphKind_length) h)
    · cases h

/-- A document is printed and parsed. -/
theorem Shaped.printable {d : Json} (h : Shaped d) : Printable 8 d :=
  Everywhere.printable (fun _ hp => kindOf_length hp) h.kinds

namespace Replica

theorem printable_toJson {r : Replica} (h : Shaped r.doc) (hn : (Double.ofInt r.issued).ReadsBack) :
    Printable nestingLimit r.toJson := by
  have hd : Printable 999 r.doc := h.printable.mono (by decide)
  have hone : Printable 999 (.num Double.one) := by simpa [Printable] using readsBack_one
  have hnum : Printable 999 (.num (.ofInt r.issued)) := by simpa [Printable] using hn
  have hid : Printable 999 (.str r.id) := by simp [Printable]
  change Printable (999 + 1) (.obj _)
  rw [Printable]
  simp only [List.forall_mem_cons, List.not_mem_nil, false_imp_iff, implies_true, and_true]
  exact ⟨hone, hid, hnum, hd⟩

/-- A counter below 2^53 is a whole number in range. -/
theorem counterOf_ofInt {n : ℕ} (h : n < 2 ^ 53) : counterOf (some (.num (.ofInt n))) = some n := by
  have hfloor : (Double.ofInt n).floor = n := by
    by_cases h0 : n = 0
    · subst h0
      decide +kernel
    · rw [Double.floor, Double.ratio_ofInt h0 h]
      exact Nat.mul_div_cancel _ (Nat.two_pow_pos _)
  have hnan := (Double.whole?_finite (Double.whole?_ofInt (n := n) (by simpa using h))).1
  obtain ⟨hlow, hhigh⟩ := Double.key_ofInt h
  have hmax : kMaxCounter.key = 1076 * 2 ^ 52 := by decide +kernel
  have hzero : (Double.ofInt 0).key = 0 := by decide +kernel
  unfold counterOf
  dsimp only
  rw [hfloor, Double.lt, Double.lt, Double.eq, hnan, hmax, hzero, decide_eq_false (by omega),
    decide_eq_false (by omega)]
  simp

theorem behind_eq_true {doc : Json} {id : CString} {counter : ℕ} : behind doc id counter = true ↔
    ∃ t ∈ collectAllTags doc, ∃ n, ownCounter t.bytes id.bytes = some n ∧ counter < n := by
  simp only [behind, List.any_eq_true, Std.ExtTreeSet.mem_toList, mem_allTags, Option.any_eq_true,
    decide_eq_true_eq]

/-- What was saved is read back as it was. -/
theorem fromBytes_toBytes {r : Replica} (hd : Shaped r.doc) (hn : (Double.ofInt r.issued).ReadsBack)
    (h53 : r.issued < 2 ^ 53) {out : Replica} : fromBytes r.toBytes = .ok out ↔
      validId r.id = .ok () ∧ validate r.doc = .ok () ∧ behind r.doc r.id r.issued = false ∧
        out = { id := r.id, issued := r.issued, doc := r.doc } := by
  have hparse : parseJson r.toBytes = some r.toJson := parseJson_printed (printable_toJson hd hn)
  have hone : marksOne (r.toJson.get Key.palabraReplica) = true :=
    show Double.one.eq Double.one = true by decide +kernel
  have hid : (r.toJson.get Key.id).bind Json.string? = some r.id := rfl
  have hissued : r.toJson.get Key.issued = some (.num (.ofInt r.issued)) := rfl
  have hdoc : (r.toJson.get Key.doc).getD .null = r.doc := rfl
  rw [fromBytes, hparse]
  dsimp only
  rw [ofJson, hone, if_neg (by decide), hid, hissued, hdoc]
  dsimp only
  rw [counterOf_ofInt h53]
  dsimp only
  constructor
  · intro he
    obtain ⟨_, hvalid, he⟩ := bind_eq_ok.mp he
    obtain ⟨_, hv, he⟩ := bind_eq_ok.mp he
    split at he
    · cases he
    · rename_i hb
      exact ⟨hvalid, hv, by simpa using hb, pure_eq_ok.mp he⟩
  · rintro ⟨hvalid, hv, hb, rfl⟩
    rw [hvalid, hv, hb]
    rfl

end Replica

end VoidPalabra
