import VoidPalabra.OrSet
import VoidPalabra.Decode

/-!
# Declared joins, applied when a register is read

A register that two concurrent writes both survived in holds several values. What
a policy does about that is decided when the register is read, never when two
documents are joined.
-/

namespace VoidPalabra

/-- `FieldJoin`: how a field with several values is read. -/
inductive FieldJoin where
  /-- Every value stands. -/
  | conflict
  /-- The first value in canonical order. -/
  | pick
  /-- The numeric maximum. -/
  | max
  /-- The value under the highest stamp. -/
  | latest
  deriving DecidableEq

/-- `Live`: what a register shows. -/
@[ext] structure Live where
  /-- Canonical bytes, canonically ordered. -/
  values : List Bytes
  /-- More than one value survived and no policy chose. -/
  conflicted : Bool
  deriving DecidableEq

/-- `Stamp`: what a tag `<writer>_<n>` says about its write. -/
structure Stamp where
  /-- The Lamport counter. -/
  n : ℕ
  /-- The replica that wrote. -/
  writer : Bytes
  /-- The whole tag. -/
  tag : Bytes
  deriving DecidableEq

/-- `operator<` of stamps: by counter, then writer, then tag. -/
def Stamp.lt (a b : Stamp) : Bool :=
  if a.n ≠ b.n then decide (a.n < b.n)
  else if a.writer ≠ b.writer then compare a.writer b.writer == .lt
  else compare a.tag b.tag == .lt

/-- What follows the last occurrence of a byte, and what stands before it. -/
def splitLast (c : UInt8) (b : Bytes) : Option (Bytes × Bytes) :=
  let tail := b.reverse.takeWhile (· ≠ c)
  if tail.length = b.length then none
  else some (b.take (b.length - tail.length - 1), tail.reverse)

/-- `stamp_of`. -/
def stampOf (tag : Bytes) : Stamp :=
  match splitLast 0x5F tag with
  | none => ⟨0, [], tag⟩
  | some (writer, digits) => ⟨(readDecimal 0 digits).getD 0, writer, tag⟩

/-- One round of the `Max` loop: the first greatest number so far. -/
def maxStep (best : Option (Double × Bytes)) (v : Bytes) : Option (Double × Bytes) :=
  match decode v, best with
  | some (.num d), none => some (d, v)
  | some (.num d), some (b, w) => if b.lt d then some (d, v) else some (b, w)
  | _, best => best

/-- The value decodes to a number. -/
def isNumeric (v : Bytes) : Bool :=
  match decode v with
  | some (.num _) => true
  | _ => false

/-- One round of the `Latest` loop over the live adds. -/
def latestStep (best : Option (Stamp × Bytes)) (kv : Tag × Bytes) : Option (Stamp × Bytes) :=
  match best with
  | none => some (stampOf kv.1.bytes, kv.2)
  | some (stamp, value) =>
    if stamp.lt (stampOf kv.1.bytes) ||
        (!(stampOf kv.1.bytes).lt stamp && compare value kv.2 == .lt) then
      some (stampOf kv.1.bytes, kv.2)
    else some (stamp, value)

namespace OrSet

/-- `live_of`, of the set that was read. -/
def live (s : OrSet) : Live := ⟨s.values, decide (1 < s.values.length)⟩

/-- `resolve`, of the set that was read. -/
def resolve (s : OrSet) (how : FieldJoin) : Live :=
  if !s.live.conflicted then s.live
  else
    match how with
    | .conflict => s.live
    | .pick => ⟨s.values.take 1, false⟩
    | .max =>
      match s.values.foldl maxStep none with
      | some (_, best) => if s.values.all isNumeric then ⟨[best], false⟩ else s.live
      | none => s.live
    | .latest =>
      match s.liveEntries.foldl latestStep none with
      | some (_, best) => ⟨[best], false⟩
      | none => s.live

end OrSet

/-- `live_of`. -/
def liveOf (reg : Option Json) : Live := (orsetFromJson reg).live

/-- `resolve`: the declared join of a field, applied to its register. -/
def resolve (reg : Option Json) (how : FieldJoin) : Live := (orsetFromJson reg).resolve how

/-- `first_or_null`: the first value shown. A value that does not decode gives a
null pointer, which the callers add to nothing. -/
def firstOrNull (l : Live) : Option Json :=
  match l.values with
  | [] => some .null
  | v :: _ => decode v

/-- `JoinPolicy`. -/
structure JoinPolicy where
  /-- Field name, or a prefix ending in `*`, to how the field is read. -/
  fields : Std.ExtTreeMap Bytes FieldJoin compare := ∅
  /-- What an undeclared field gets. -/
  fallback : FieldJoin := .conflict

namespace JoinPolicy

/-- One round of the prefix loop of `lookup`; the rule kept so far is compared with
its `*`. -/
def prefixStep (field : Bytes) (best : Option (Bytes × FieldJoin)) (kv : Bytes × FieldJoin) :
    Option (Bytes × FieldJoin) :=
  if kv.1.length < 2 ∨ kv.1.getLast? ≠ some 0x2A then best
  else if !kv.1.dropLast.isPrefixOf field then best
  else
    match best with
    | none => some kv
    | some (rule, how) => if rule.length < kv.1.dropLast.length then some kv else some (rule, how)

/-- `JoinPolicy::lookup`. -/
def lookup (p : JoinPolicy) (field : Bytes) : FieldJoin :=
  match p.fields[field]? with
  | some how => how
  | none =>
    match p.fields.toList.foldl (prefixStep field) none with
    | some (_, how) => how
    | none => p.fallback

/-- `JoinPolicy::core_defaults`. -/
def coreDefaults : JoinPolicy where
  fields := Std.ExtTreeMap.ofList [(lit "placement", .latest), (lit "id", .pick)] compare

end JoinPolicy

/-! ### What a resolved register shows -/

namespace OrSet

theorem live_conflicted {s : OrSet} : s.live.conflicted = true ↔ 1 < s.values.length := by
  simp [live]

/-- A register with one value, or none, is read the same under every policy. -/
theorem resolve_of_length_le {s : OrSet} (h : s.values.length ≤ 1) (how : FieldJoin) :
    s.resolve how = s.live := by
  have hc : s.live.conflicted = false := by
    simp only [live, decide_eq_false_iff_not]
    omega
  unfold OrSet.resolve
  rw [hc]
  rfl

theorem foldl_maxStep_some {vs : List Bytes} {best : Option (Double × Bytes)}
    {d : Double} {v : Bytes} (h : vs.foldl maxStep best = some (d, v)) :
    v ∈ vs ∨ ∃ d', best = some (d', v) := by
  induction vs generalizing best with
  | nil => exact .inr ⟨d, h⟩
  | cons w vs ih =>
    rcases ih h with h | ⟨d', h⟩
    · exact .inl (List.mem_cons_of_mem _ h)
    · unfold maxStep at h
      split at h
      · cases h
        exact .inl List.mem_cons_self
      · split at h
        · cases h
          exact .inl List.mem_cons_self
        · cases h
          exact .inr ⟨_, rfl⟩
      · exact .inr ⟨d', h⟩

theorem latestStep_some (best : Option (Stamp × Bytes)) (kv : Tag × Bytes) :
    ∃ stamp v, latestStep best kv = some (stamp, v) ∧
      (v = kv.2 ∨ ∃ old, best = some (old, v)) := by
  unfold latestStep
  split
  · exact ⟨_, _, rfl, .inl rfl⟩
  · split
    · exact ⟨_, _, rfl, .inl rfl⟩
    · exact ⟨_, _, rfl, .inr ⟨_, rfl⟩⟩

theorem foldl_latestStep {es : List (Tag × Bytes)} (best : Option (Stamp × Bytes)) :
    (es = [] ∧ es.foldl latestStep best = best) ∨
      ∃ stamp v, es.foldl latestStep best = some (stamp, v) ∧
        (v ∈ es.map Prod.snd ∨ ∃ old, best = some (old, v)) := by
  induction es generalizing best with
  | nil => exact .inl ⟨rfl, rfl⟩
  | cons e es ih =>
    right
    obtain ⟨stamp, v, hs, hv⟩ := latestStep_some best e
    rcases ih (latestStep best e) with ⟨rfl, h⟩ | ⟨stamp', v', h, hv'⟩
    · refine ⟨stamp, v, by rw [List.foldl_cons, h, hs], ?_⟩
      exact hv.imp_left fun h => by simp [h]
    · refine ⟨stamp', v', by rw [List.foldl_cons, h], ?_⟩
      rcases hv' with hm | ⟨old, ho⟩
      · exact .inl (List.mem_cons_of_mem _ hm)
      · rw [hs] at ho
        cases ho
        exact hv.imp_left fun h => by simp [h]

/-- Every shown value is a live one. -/
theorem mem_values_of_resolve {s : OrSet} {how : FieldJoin} {v : Bytes}
    (h : v ∈ (s.resolve how).values) : v ∈ s.values := by
  unfold resolve at h
  split at h
  · exact h
  · split at h
    · exact h
    · exact List.mem_of_mem_take h
    · split at h
      · rename_i d best hb
        split at h
        · rw [List.mem_singleton] at h
          subst h
          rcases foldl_maxStep_some hb with hm | ⟨d', hd⟩
          · exact hm
          · cases hd
        · exact h
      · exact h
    · split at h
      · rename_i stamp best hb
        rw [List.mem_singleton] at h
        subst h
        rcases @foldl_latestStep s.liveEntries none with ⟨-, hn⟩ | ⟨st, w, hw, hm⟩
        · rw [hn] at hb
          cases hb
        · rw [hw] at hb
          cases hb
          rcases hm with hm | ⟨old, ho⟩
          · exact mem_sortUnique.mpr hm
          · cases ho
      · exact h

/-- A register shows nothing exactly when no value is live. -/
theorem resolve_values_eq_nil {s : OrSet} {how : FieldJoin} :
    (s.resolve how).values = [] ↔ s.values = [] := by
  constructor
  · intro h
    unfold resolve at h
    split at h
    · exact h
    · rename_i hc
      have hlen : 1 < s.values.length := by
        simpa [live] using hc
      split at h
      · exact h
      · have hl := congrArg List.length h
        simp only [List.length_take, List.length_nil] at hl
        omega
      · split at h
        · split at h
          · cases h
          · exact h
        · exact h
      · split at h
        · cases h
        · exact h
  · intro h
    rw [List.eq_nil_iff_forall_not_mem]
    intro v hv
    have hm := mem_values_of_resolve hv
    rw [h] at hm
    cases hm

/-- A conflict that stands shows every value. -/
theorem resolve_conflicted {s : OrSet} {how : FieldJoin}
    (h : (s.resolve how).conflicted = true) : s.resolve how = s.live := by
  unfold resolve at h ⊢
  split
  · rfl
  · rename_i hc
    rw [if_neg hc] at h
    cases how with
    | conflict => rfl
    | pick => cases h
    | max =>
      dsimp only at h ⊢
      split
      · rename_i hb
        rw [hb] at h
        dsimp only at h
        split
        · rename_i hn
          rw [if_pos hn] at h
          cases h
        · rfl
      · rfl
    | latest =>
      dsimp only at h ⊢
      split
      · rename_i hb
        rw [hb] at h
        cases h
      · rfl

/-- A register is reported as a conflict exactly when the policy leaves more than one
value. -/
theorem resolve_conflicted_iff {s : OrSet} {how : FieldJoin} :
    (s.resolve how).conflicted = true ↔ 1 < (s.resolve how).values.length := by
  constructor
  · intro h
    have he := resolve_conflicted h
    rw [he] at h ⊢
    exact live_conflicted.mp h
  · intro h
    by_contra hc
    unfold resolve at h hc
    split at h
    · rename_i hl
      rw [if_pos hl] at hc
      exact hc (live_conflicted.mpr h)
    · rename_i hl
      rw [if_neg hl] at hc
      cases how with
      | conflict => exact hc (live_conflicted.mpr h)
      | pick =>
        simp only [List.length_take] at h
        omega
      | max =>
        dsimp only at h hc
        split at h
        · rename_i hb
          rw [hb] at hc
          dsimp only at hc
          split at h
          · simp at h
          · rename_i hn
            rw [if_neg hn] at hc
            exact hc (live_conflicted.mpr h)
        · rename_i hb
          rw [hb] at hc
          exact hc (live_conflicted.mpr h)
      | latest =>
        dsimp only at h hc
        split at h
        · simp at h
        · rename_i hb
          rw [hb] at hc
          exact hc (live_conflicted.mpr h)

end OrSet

example : JoinPolicy.coreDefaults.lookup (lit "placement") = .latest ∧
    JoinPolicy.coreDefaults.lookup (lit "domain") = .conflict := by decide +kernel

end VoidPalabra
