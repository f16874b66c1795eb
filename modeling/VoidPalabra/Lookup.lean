import VoidPalabra.Longest
import VoidPalabra.Policy
import VoidPalabra.References

/-!
# Which rule a field gets

A policy of joins and a policy of references are keyed alike: a field's own name, or a prefix
and a star. Both look for the longest prefix with a loop of their own.
-/

namespace VoidPalabra

open Longest

/-- A key that is a prefix of the field and a star. -/
def Covers (field key : Bytes) : Prop :=
  2 ≤ key.length ∧ key.getLast? = some 0x2A ∧ key.dropLast <+: field

instance (field key : Bytes) : Decidable (Covers field key) := instDecidableAnd

/-- The tests of both loops. -/
theorem covers_iff {field key : Bytes} : Covers field key ↔
    ¬(key.length < 2 ∨ key.getLast? ≠ some 0x2A) ∧ key.dropLast.isPrefixOf field = true := by
  rw [Covers, List.isPrefixOf_iff_prefix, not_or, not_lt, not_not, and_assoc]

/-- The keys that cover a field differ in length. -/
theorem Covers.eq {field key key' : Bytes} (h : Covers field key) (h' : Covers field key')
    (hl : key.length = key'.length) : key = key' := by
  have hdrop : key.dropLast = key'.dropLast := by
    rw [List.prefix_iff_eq_take.mp h.2.2, List.prefix_iff_eq_take.mp h'.2.2, List.length_dropLast,
      List.length_dropLast, hl]
  have hlast : ∀ {k : Bytes}, Covers field k → k = k.dropLast ++ [0x2A] := fun hk =>
    (List.dropLast_append_getLast? _ hk.2.1).symm
  rw [hlast h, hlast h', hdrop]

/-- The length of the key of an entry. -/
def ruleLength {α : Type} (kv : Bytes × α) : ℕ := kv.1.length

namespace JoinPolicy

theorem prefixStep_eq (field : Bytes) (best : Option (Bytes × FieldJoin)) (kv : Bytes × FieldJoin) :
    prefixStep field best kv =
      if Covers field kv.1 then keep ruleLength 1 best kv else best := by
  unfold prefixStep
  simp only [covers_iff]
  by_cases hshape : kv.1.length < 2 ∨ kv.1.getLast? ≠ some 0x2A
  · rw [if_pos hshape, if_neg fun h => h.1 hshape]
  rw [if_neg hshape]
  cases hp : kv.1.dropLast.isPrefixOf field with
  | false => simp
  | true =>
    rw [if_neg (by decide), if_pos ⟨hshape, rfl⟩]
    cases best with
    | none => rfl
    | some b =>
      have hlen : kv.1.length = kv.1.dropLast.length + 1 := by
        rw [List.length_dropLast]
        omega
      have hiff : b.1.length < kv.1.dropLast.length ↔ ruleLength b + 1 < ruleLength kv := by
        unfold ruleLength
        omega
      simp only [keep, hiff]

/-- The key that `lookup` ends with, when the prefix loop visits the entries in some order. -/
def selected (p : JoinPolicy) (field : Bytes) (entries : List (Bytes × FieldJoin)) : Option Bytes :=
  match p.fields[field]? with
  | some _ => some field
  | none => (entries.foldl (prefixStep field) none).map Prod.fst

theorem foldl_prefixStep (field : Bytes) (entries : List (Bytes × FieldJoin)) :
    entries.foldl (prefixStep field) none =
      longest ruleLength 1 (entries.filter fun kv => Covers field kv.1) := by
  rw [longest, List.foldl_filter]
  congr 1
  funext best kv
  simp only [prefixStep_eq, decide_eq_true_eq]

end JoinPolicy

namespace ReferencePolicy

/-- The key that `lookup` ends with, when the prefix loop visits the entries in some order. -/
def selected (p : ReferencePolicy) (field : Bytes) (entries : List (Bytes × AddressFinder)) :
    Option Bytes :=
  match p.fields[field]? with
  | some _ => some field
  | none => (entries.foldl (prefixStep field) none).map fun b => field.take b.1 ++ [0x2A]

/-- What this loop remembers of an entry. -/
def remembered (kv : Bytes × AddressFinder) : ℕ × AddressFinder := (kv.1.dropLast.length, kv.2)

theorem prefixStep_eq {field : Bytes} {best : Option (Bytes × AddressFinder)}
    (hbest : ∀ b ∈ best, Covers field b.1) (kv : Bytes × AddressFinder) :
    prefixStep field (best.map remembered) kv =
      (if Covers field kv.1 then keep ruleLength 0 best kv else best).map remembered := by
  unfold prefixStep
  simp only [covers_iff]
  by_cases hshape : kv.1.length < 2 ∨ kv.1.getLast? ≠ some 0x2A
  · rw [if_pos hshape, if_neg fun h => h.1 hshape]
  rw [if_neg hshape]
  cases hp : kv.1.dropLast.isPrefixOf field with
  | false => simp
  | true =>
    rw [if_neg (by decide), if_pos ⟨hshape, rfl⟩]
    cases best with
    | none => rfl
    | some b =>
      have hb := (hbest b rfl).1
      have hiff : b.1.dropLast.length < kv.1.dropLast.length ↔ ruleLength b + 0 < ruleLength kv := by
        rw [List.length_dropLast, List.length_dropLast, ruleLength, ruleLength]
        omega
      simp only [Option.map_some, remembered, keep, hiff]
      split_ifs <;> rfl

theorem foldl_prefixStep (field : Bytes) (entries : List (Bytes × AddressFinder)) :
    entries.foldl (prefixStep field) none =
      (longest ruleLength 0 (entries.filter fun kv => Covers field kv.1)).map remembered := by
  have hfold : ∀ (entries : List (Bytes × AddressFinder)) (best : Option (Bytes × AddressFinder)),
      (∀ b ∈ best, Covers field b.1) →
        entries.foldl (prefixStep field) (best.map remembered) =
          ((entries.filter fun kv => Covers field kv.1).foldl (keep ruleLength 0) best).map
            remembered := by
    intro entries
    induction entries with
    | nil => exact fun _ _ => rfl
    | cons kv entries ih =>
      intro best hbest
      rw [List.foldl_cons, prefixStep_eq hbest]
      by_cases hc : Covers field kv.1
      · rw [if_pos hc, List.filter_cons_of_pos (by simpa using hc), List.foldl_cons]
        refine ih _ fun b hb => ?_
        unfold keep at hb
        cases best with
        | none =>
          obtain rfl : kv = b := by simpa using hb
          exact hc
        | some d =>
          dsimp only at hb
          split_ifs at hb
          · obtain rfl : kv = b := by simpa using hb
            exact hc
          · exact hbest b hb
      · rw [if_neg hc, List.filter_cons_of_neg (by simpa using hc)]
        exact ih best hbest
  exact hfold entries none (fun _ h => nomatch h)

end ReferencePolicy

/-! ### The longest rule -/

/-- What `lookup` should do with a field: its own rule, else that of the longest prefix, else the
fallback; and the key it ends with is the one that a policy of references with the same keys ends
with, in whatever order the keys are visited. -/
structure LooksUp (p : JoinPolicy) (field : Bytes) : Prop where
  /-- A field with a rule of its own gets that. -/
  own : ∀ how, p.fields[field]? = some how → p.lookup field = how
  /-- Another gets the rule of the longest prefix, -/
  longest : p.fields[field]? = none → ∀ key how, p.fields[key]? = some how → Covers field key →
    (∀ key' ∈ p.fields, Covers field key' → key'.length ≤ key.length) → p.lookup field = how
  /-- or the fallback when there is none. -/
  fallback : p.fields[field]? = none → (∀ key ∈ p.fields, ¬Covers field key) →
    p.lookup field = p.fallback
  /-- The two lookups agree on the key. -/
  agrees : ∀ refs : ReferencePolicy, (∀ key, key ∈ refs.fields ↔ key ∈ p.fields) →
    ∀ entries entries', entries.Perm p.fields.toList → entries'.Perm refs.fields.toList →
      p.selected field entries = refs.selected field entries'

/-- Two keys cover a field, one of them the longest that does and the other one byte shorter. -/
def Crowded (p : JoinPolicy) (field : Bytes) : Prop :=
  ∃ key ∈ p.fields, ∃ key' ∈ p.fields, Covers field key ∧ Covers field key' ∧
    key'.length = key.length + 1 ∧ ∀ other ∈ p.fields, Covers field other → other.length ≤ key'.length

section

variable {α : Type} {fields : Std.ExtTreeMap Bytes α compare} {field : Bytes} {entries : List (Bytes × α)}

theorem mem_of_entry {key : Bytes} {v : α} (h : fields[key]? = some v) : key ∈ fields :=
  Std.ExtTreeMap.mem_iff_isSome_getElem?.mpr (by rw [h]; rfl)

theorem mem_covering (he : entries.Perm fields.toList) (kv : Bytes × α) :
    kv ∈ entries.filter (fun kv => Covers field kv.1) ↔ fields[kv.1]? = some kv.2 ∧ Covers field kv.1 := by
  rw [List.mem_filter, he.mem_iff, Std.ExtTreeMap.mem_toList_iff_getElem?_eq_some, decide_eq_true_eq]

/-- Without slack the loop ends with a longest key. -/
theorem longest_covering (he : entries.Perm fields.toList) {c : Bytes × α}
    (hc : longest ruleLength 0 (entries.filter fun kv => Covers field kv.1) = some c) :
    fields[c.1]? = some c.2 ∧ Covers field c.1 ∧
      ∀ key ∈ fields, Covers field key → key.length ≤ c.1.length := by
  obtain ⟨hmem, hall⟩ := longest_spec hc
  obtain ⟨hget, hcovers⟩ := (mem_covering he c).mp hmem
  refine ⟨hget, hcovers, fun key hkey hk => ?_⟩
  have hentry := Std.ExtTreeMap.getElem?_eq_some_getElem hkey
  exact hall (key, fields[key]) ((mem_covering he _).mpr ⟨hentry, hk⟩)

/-- An order that begins with a given entry. -/
theorem exists_order {key : Bytes} (hkey : key ∈ fields) :
    ∃ rest, ((key, fields[key]) :: rest).Perm fields.toList := by
  have hmem : (key, fields[key]) ∈ fields.toList :=
    Std.ExtTreeMap.mem_toList_iff_getElem?_eq_some.mpr (Std.ExtTreeMap.getElem?_eq_some_getElem hkey)
  obtain ⟨pre, post, hsplit⟩ := List.append_of_mem hmem
  exact ⟨pre ++ post, hsplit ▸ List.perm_middle.symm⟩

end

section

variable {p : JoinPolicy} {field : Bytes} {entries : List (Bytes × FieldJoin)}

/-- So does the loop with slack, when the policy is not crowded. -/
theorem JoinPolicy.longest_covering (hp : ¬Crowded p field) (he : entries.Perm p.fields.toList)
    {c : Bytes × FieldJoin}
    (hc : longest ruleLength 1 (entries.filter fun kv => Covers field kv.1) = some c) :
    p.fields[c.1]? = some c.2 ∧ Covers field c.1 ∧
      ∀ key ∈ p.fields, Covers field key → key.length ≤ c.1.length := by
  obtain ⟨hmem, -⟩ := longest_spec hc
  obtain ⟨hget, hcovers⟩ := (mem_covering he c).mp hmem
  cases hm : longest ruleLength 0 (entries.filter fun kv => Covers field kv.1) with
  | none =>
    rw [longest_eq_none.mp hm] at hmem
    cases hmem
  | some m =>
    obtain ⟨hgetm, hcoversm, hmax⟩ := VoidPalabra.longest_covering he hm
    obtain ⟨hmemm, hall⟩ := longest_spec hm
    have hlength : ruleLength c = ruleLength m := by
      refine longest_of_gap hc hmemm hall fun x hx hgap => hp ?_
      obtain ⟨hgetx, hcoversx⟩ := (mem_covering he _).mp hx
      exact ⟨x.1, mem_of_entry hgetx, m.1,
        mem_of_entry hgetm, hcoversx, hcoversm,
        hgap.symm, hmax⟩
    obtain heq : c.1 = m.1 := hcovers.eq hcoversm hlength
    exact ⟨hget, hcovers, heq ▸ hmax⟩

/-- The key of the other loop is the one it stopped at. -/
theorem ReferencePolicy.selected_eq {refs : ReferencePolicy} {entries : List (Bytes × AddressFinder)}
    (ho : refs.fields[field]? = none) :
    refs.selected field entries =
      (longest ruleLength 0 (entries.filter fun kv => Covers field kv.1)).map Prod.fst := by
  rw [ReferencePolicy.selected, ho]
  dsimp only
  rw [foldl_prefixStep, Option.map_map]
  cases hl : longest ruleLength 0 (entries.filter fun kv => Covers field kv.1) with
  | none => rfl
  | some c =>
    have hc : Covers field c.1 := by simpa using (List.mem_filter.mp (longest_spec hl).1).2
    rw [Option.map_some, Option.map_some, Function.comp, remembered,
      ← List.prefix_iff_eq_take.mp hc.2.2, List.dropLast_append_getLast? _ hc.2.1]

theorem JoinPolicy.selected_eq (ho : p.fields[field]? = none) :
    p.selected field entries =
      (longest ruleLength 1 (entries.filter fun kv => Covers field kv.1)).map Prod.fst := by
  rw [JoinPolicy.selected, ho, ← foldl_prefixStep]

/-- **Lookup.** A field gets its longest rule, and both lookups agree on it in every order, when it
has a rule of its own or the longest key that covers it is not one byte longer than another; and
only then. -/
theorem looksUp_iff (p : JoinPolicy) (field : Bytes) :
    LooksUp p field ↔ field ∈ p.fields ∨ ¬Crowded p field := by
  constructor
  · intro h
    by_contra hn
    obtain ⟨hown, hcrowded⟩ := not_or.mp hn
    obtain ⟨key, hkey, key', hkey', hk, hk', hlength, hmax⟩ := not_not.mp hcrowded
    have ho : p.fields[field]? = none := Std.ExtTreeMap.getElem?_eq_none hown
    obtain ⟨rest, horder⟩ := exists_order hkey
    let refs : ReferencePolicy := ⟨p.fields.map fun _ _ => none⟩
    have hkeys : ∀ k, k ∈ refs.fields ↔ k ∈ p.fields := fun k => Std.ExtTreeMap.mem_map
    have hagree := h.agrees refs hkeys _ _ horder (List.Perm.refl _)
    have horefs : refs.fields[field]? = none :=
      Std.ExtTreeMap.getElem?_eq_none fun hf => hown ((hkeys field).mp hf)
    rw [JoinPolicy.selected_eq ho, ReferencePolicy.selected_eq horefs,
      List.filter_cons_of_pos (by simpa using hk), longest_cons] at hagree
    · -- The loop that came to the shorter key first stays there.
      obtain ⟨c, hc, heq⟩ := Option.map_eq_some_iff.mp hagree.symm
      obtain ⟨-, -, hlongest⟩ := longest_covering (List.Perm.refl _) hc
      have hle := hlongest key' ((hkeys key').mpr hkey') hk'
      rw [heq] at hle
      dsimp only at hle
      omega
    · intro y hy
      have hy' := (mem_covering horder _).mp
        (List.filter_cons_of_pos (p := fun kv : Bytes × FieldJoin => decide (Covers field kv.1))
          (a := (key, p.fields[key])) (l := rest) (by simpa using hk) ▸ List.mem_cons_of_mem _ hy)
      have hle := hmax y.1 (mem_of_entry hy'.1) hy'.2
      change y.1.length ≤ key.length + 1
      omega
  · intro h
    have hgap : p.fields[field]? = none → ¬Crowded p field := fun ho =>
      h.resolve_left fun hf => by
        rw [Std.ExtTreeMap.getElem?_eq_some_getElem hf] at ho
        cases ho
    have hlookup : p.fields[field]? = none → p.lookup field =
        ((longest ruleLength 1 (p.fields.toList.filter fun kv => Covers field kv.1)).map
          Prod.snd).getD p.fallback := by
      intro ho
      rw [JoinPolicy.lookup, ho]
      dsimp only
      rw [JoinPolicy.foldl_prefixStep]
      cases longest ruleLength 1 (p.fields.toList.filter fun kv => Covers field kv.1) <;> rfl
    refine ⟨fun how ho => by rw [JoinPolicy.lookup, ho], fun ho key how hkey hk hmax => ?_,
      fun ho hnone => ?_, fun refs hkeys entries entries' he he' => ?_⟩
    · rw [hlookup ho]
      cases hl : longest ruleLength 1 (p.fields.toList.filter fun kv => Covers field kv.1) with
      | none =>
        have := (mem_covering (List.Perm.refl p.fields.toList) (key, how)).mpr ⟨hkey, hk⟩
        rw [longest_eq_none.mp hl] at this
        cases this
      | some c =>
        obtain ⟨hget, hcovers, hlongest⟩ := JoinPolicy.longest_covering (hgap ho) (List.Perm.refl _) hl
        have hle := hlongest key (mem_of_entry hkey) hk
        have hge := hmax c.1 (mem_of_entry hget) hcovers
        rw [hcovers.eq hk (le_antisymm hge hle), hkey] at hget
        exact (Option.some.inj hget).symm
    · rw [hlookup ho, longest_eq_none.mpr]
      · rfl
      · refine List.filter_eq_nil_iff.mpr fun kv hkv => ?_
        have hget := Std.ExtTreeMap.mem_toList_iff_getElem?_eq_some.mp hkv
        simpa using hnone kv.1 (mem_of_entry hget)
    · by_cases hown : field ∈ p.fields
      · rw [JoinPolicy.selected, ReferencePolicy.selected,
          Std.ExtTreeMap.getElem?_eq_some_getElem hown,
          Std.ExtTreeMap.getElem?_eq_some_getElem ((hkeys field).mpr hown)]
      have ho : p.fields[field]? = none := Std.ExtTreeMap.getElem?_eq_none hown
      have horefs : refs.fields[field]? = none :=
        Std.ExtTreeMap.getElem?_eq_none fun hf => hown ((hkeys field).mp hf)
      rw [JoinPolicy.selected_eq ho, ReferencePolicy.selected_eq horefs]
      cases hl : longest ruleLength 1 (entries.filter fun kv => Covers field kv.1) with
      | none =>
        rw [longest_eq_none.mpr]
        · rfl
        · refine List.filter_eq_nil_iff.mpr fun kv hkv hk => ?_
          have hk' : Covers field kv.1 := by simpa using hk
          have hkey := (hkeys kv.1).mp (mem_of_entry
            (Std.ExtTreeMap.mem_toList_iff_getElem?_eq_some.mp (he'.mem_iff.mp hkv)))
          have hmem := (mem_covering he (kv.1, p.fields[kv.1])).mpr
            ⟨Std.ExtTreeMap.getElem?_eq_some_getElem hkey, hk'⟩
          rw [longest_eq_none.mp hl] at hmem
          cases hmem
      | some c =>
        obtain ⟨hget, hcovers, hlongest⟩ := JoinPolicy.longest_covering (hgap ho) he hl
        cases hr : longest ruleLength 0 (entries'.filter fun kv => Covers field kv.1) with
        | none =>
          have hkey := (hkeys c.1).mpr (mem_of_entry hget)
          have hmem := (mem_covering he' (c.1, refs.fields[c.1])).mpr
            ⟨Std.ExtTreeMap.getElem?_eq_some_getElem hkey, hcovers⟩
          rw [longest_eq_none.mp hr] at hmem
          cases hmem
        | some d =>
          obtain ⟨hget', hcovers', hlongest'⟩ := longest_covering he' hr
          have hle := hlongest d.1 ((hkeys d.1).mp (mem_of_entry hget')) hcovers'
          have hge := hlongest' c.1 ((hkeys c.1).mpr (mem_of_entry hget)) hcovers
          rw [Option.map_some, Option.map_some, hcovers.eq hcovers' (le_antisymm hge hle)]

/-- Two rules for one field, the longer one by a byte. -/
def twoRules : JoinPolicy where
  fields := Std.ExtTreeMap.ofList [(lit "c*", .pick), (lit "co*", .max)] compare

/-- The longer of two prefixes is passed over. -/
theorem longer_rule_passed_over : ¬LooksUp twoRules (lit "content") := by
  intro h
  have hlookup := h.longest (by decide) (lit "co*") .max (by decide) (by decide) fun key hkey hk => by
    have hkeys : ∀ k ∈ twoRules.fields.keys, k.length ≤ (lit "co*").length := by decide
    exact hkeys key (Std.ExtTreeMap.mem_keys.mpr hkey)
  revert hlookup
  decide

end

end VoidPalabra
