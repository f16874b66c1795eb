import VoidPalabra.Canonical

/-!
# Decoding what was encoded

`norm` is the value a canonical form stands for: whole numbers in the spelling the
decoder gives them, members in the order of their encoded keys. Two values have
one encoding exactly when they have one normal form, and the decoder returns the
normal form of every value that is nested no deeper than its limit.
-/

namespace VoidPalabra

open Sorting

mutual

/-- The value that comes back from the canonical form. -/
def norm : Json → Json
  | .null => .null
  | .bool b => .bool b
  | .num d =>
    match d.whole? with
    | some n => .num (Double.ofInt n)
    | none => .num d
  | .str s => .str s
  | .arr items => .arr (normItems items)
  | .obj members => .obj (sortMembers (normMembers members))

/-- `norm` of each item. -/
def normItems : List Json → List Json
  | [] => []
  | v :: rest => norm v :: normItems rest

/-- `norm` of each member's value. -/
def normMembers : List (CString × Json) → List (CString × Json)
  | [] => []
  | (k, v) :: rest => (k, norm v) :: normMembers rest

end

/-- One member with its value in normal form. -/
def normMember (m : CString × Json) : CString × Json := (m.1, norm m.2)

theorem normItems_eq_map (xs : List Json) : normItems xs = xs.map norm := by
  induction xs with
  | nil => rfl
  | cons x xs ih => rw [normItems, ih, List.map_cons]

theorem normMembers_eq_map (ms : List (CString × Json)) :
    normMembers ms = ms.map normMember := by
  induction ms with
  | nil => rfl
  | cons m ms ih =>
    obtain ⟨k, v⟩ := m
    rw [normMembers, ih, List.map_cons, normMember]

theorem norm_arr (xs : List Json) : norm (.arr xs) = .arr (xs.map norm) := by
  rw [norm, normItems_eq_map]

/-- The normal form of an object has the normal forms of its values. -/
theorem norm_obj {ms : List (CString × Json)} (h : (ms.map Prod.fst).Nodup) :
    norm (.obj ms) = .obj ((sortMembers ms).map normMember) := by
  rw [norm, normMembers_eq_map]
  exact congrArg _ (sortOn_map (fun _ _ => rfl) (keys_nodup h))

/-- The members of a normal form are named once. -/
theorem norm_obj_nodup {ms : List (CString × Json)} (h : (ms.map Prod.fst).Nodup) :
    (((sortMembers ms).map normMember).map Prod.fst).Nodup := by
  have hk : ((sortMembers ms).map normMember).map Prod.fst = (sortMembers ms).map Prod.fst := by
    simp [normMember]
  rw [hk]
  exact ((sortMembers_perm ms).map Prod.fst).nodup_iff.mpr h

/-! ### Equal encodings -/

/-- The first byte of a canonical form. -/
def tagByte : Json → UInt8
  | .null => 0x00
  | .bool b => if b then 0x02 else 0x01
  | .num d => if d.whole?.isSome then 0x03 else 0x04
  | .str _ => 0x05
  | .arr _ => 0x07
  | .obj _ => 0x08

theorem form_bool (b : Bool) : form (.bool b) = [if b then 0x02 else 0x01] := rfl

theorem form_str {s : CString} (h : HasForm (.str s)) : form (.str s) = keyForm s := by
  obtain ⟨b, hb⟩ := h
  rw [form_of_encode hb]
  exact (encodeStr_eq_ok.mp hb).2

theorem form_num {d : Double} (h : HasForm (.num d)) :
    form (.num d) = match d.whole? with
      | some n => encodeInt n
      | none => 0x04 :: bigEndian d.bits := by
  obtain ⟨b, hb⟩ := h
  rw [form_of_encode hb]
  rw [encode, encodeNumber] at hb
  split at hb
  · cases hb
  · cases hw : d.whole? with
    | none =>
      simp only [hw] at hb
      exact (Except.ok.inj hb).symm
    | some n =>
      simp only [hw] at hb
      exact (Except.ok.inj hb).symm

/-- A form starts with its tag byte. -/
theorem form_eq_cons {j : Json} (h : HasForm j) : ∃ p, form j = tagByte j :: p := by
  cases j with
  | null => exact ⟨[], rfl⟩
  | bool b => exact ⟨[], rfl⟩
  | num d =>
    rw [form_num h, tagByte]
    cases d.whole? with
    | none => exact ⟨_, rfl⟩
    | some n => exact ⟨_, rfl⟩
  | str s => exact ⟨_, form_str h⟩
  | arr xs => exact ⟨_, form_arr h⟩
  | obj ms => exact ⟨_, form_obj h⟩

theorem form_length_pos {j : Json} (h : HasForm j) : 0 < (form j).length := by
  obtain ⟨p, hp⟩ := form_eq_cons h
  simp [hp]

/-- No element of the one list is a proper prefix of an element of the other. -/
def PrefixFree (x y : Bytes) : Prop := ∀ r s : Bytes, x ++ r = y ++ s → x = y

theorem keyForm_prefixFree (k l : CString) : PrefixFree (keyForm k) (keyForm l) := by
  intro r s h
  simp only [keyForm, strBytes, List.cons_append, List.append_assoc, List.cons.injEq,
    true_and] at h
  obtain ⟨hl, hb⟩ := putUvarint_inj h
  have hk := (List.append_inj hb hl).1
  rw [CString.ext hk]

/-- As many elements, none a proper prefix of another: the concatenation tells
them apart. -/
theorem flatten_inj {xs ys : List Bytes} {r s : Bytes} (hl : xs.length = ys.length)
    (hp : ∀ x ∈ xs, ∀ y ∈ ys, PrefixFree x y) (h : xs.flatten ++ r = ys.flatten ++ s) :
    xs = ys ∧ r = s := by
  induction xs generalizing ys with
  | nil =>
    obtain rfl := List.length_eq_zero_iff.mp hl.symm
    exact ⟨rfl, h⟩
  | cons x xs ih =>
    cases ys with
    | nil => cases hl
    | cons y ys =>
      rw [List.flatten_cons, List.flatten_cons, List.append_assoc, List.append_assoc] at h
      obtain rfl := hp x List.mem_cons_self y List.mem_cons_self _ _ h
      obtain ⟨rfl, hr⟩ := ih (Nat.succ.inj hl)
        (fun a ha b hb => hp a (List.mem_cons_of_mem _ ha) b (List.mem_cons_of_mem _ hb))
        (List.append_cancel_left h)
      exact ⟨rfl, hr⟩

/-- The same for keys followed by values. -/
theorem flatMap_pairs_inj {ps qs : List (Bytes × Bytes)} {r s : Bytes}
    (hl : ps.length = qs.length)
    (hk : ∀ p ∈ ps, ∀ q ∈ qs, PrefixFree p.1 q.1) (hv : ∀ p ∈ ps, ∀ q ∈ qs, PrefixFree p.2 q.2)
    (h : ps.flatMap (fun kv => kv.1 ++ kv.2) ++ r = qs.flatMap (fun kv => kv.1 ++ kv.2) ++ s) :
    ps = qs ∧ r = s := by
  induction ps generalizing qs with
  | nil =>
    obtain rfl := List.length_eq_zero_iff.mp hl.symm
    exact ⟨rfl, h⟩
  | cons p ps ih =>
    cases qs with
    | nil => cases hl
    | cons q qs =>
      simp only [List.flatMap_cons, List.append_assoc] at h
      have h1 := hk p List.mem_cons_self q List.mem_cons_self _ _ h
      rw [h1] at h
      have h' := List.append_cancel_left h
      have h2 := hv p List.mem_cons_self q List.mem_cons_self _ _ h'
      rw [h2] at h'
      obtain ⟨rfl, hr⟩ := ih (Nat.succ.inj hl)
        (fun a ha b hb => hk a (List.mem_cons_of_mem _ ha) b (List.mem_cons_of_mem _ hb))
        (fun a ha b hb => hv a (List.mem_cons_of_mem _ ha) b (List.mem_cons_of_mem _ hb))
        (List.append_cancel_left h')
      exact ⟨by rw [Prod.ext h1 h2], hr⟩

/-- A number's form is not a proper prefix of another number's. -/
theorem form_num_prefixFree {d e : Double} (hd : HasForm (.num d)) (he : HasForm (.num e)) :
    PrefixFree (form (.num d)) (form (.num e)) := by
  intro r s h
  rw [form_num hd, form_num he] at h ⊢
  cases hdw : d.whole? with
  | none =>
    cases hew : e.whole? with
    | none =>
      simp only [hdw, hew, List.cons_append, List.cons.injEq, true_and] at h ⊢
      exact (List.append_inj h rfl).1
    | some n =>
      simp [hdw, hew, encodeInt] at h
  | some m =>
    cases hew : e.whole? with
    | none =>
      simp [hdw, hew, encodeInt] at h
    | some n =>
      simp only [hdw, hew, encodeInt, List.cons_append, List.cons.injEq, true_and] at h ⊢
      rw [(putUvarint_inj h).1]

/-- Values of one kind, and of one truth value. -/
def sameKind : Json → Json → Prop
  | .null, .null | .num _, .num _ | .str _, .str _ | .arr _, .arr _ | .obj _, .obj _ => True
  | .bool a, .bool b => a = b
  | _, _ => False

/-- Values whose forms start with one byte are of one kind. -/
theorem sameKind_of_tagByte {i j : Json} (h : tagByte i = tagByte j) : sameKind i j := by
  have hb : ∀ a : Bool, (if a then 0x02 else 0x01 : UInt8) = 0x02 ∨
      (if a then 0x02 else 0x01 : UInt8) = 0x01 := by decide
  have hn : ∀ a : Bool, (if a then 0x03 else 0x04 : UInt8) = 0x03 ∨
      (if a then 0x03 else 0x04 : UInt8) = 0x04 := by decide
  cases i <;> cases j <;> simp only [tagByte, sameKind] at h ⊢ <;> grind

theorem sameKind_of_form {i j : Json} (hi : HasForm i) (hj : HasForm j) {r s : Bytes}
    (h : form i ++ r = form j ++ s) : sameKind i j := by
  obtain ⟨p, hp⟩ := form_eq_cons hi
  obtain ⟨q, hq⟩ := form_eq_cons hj
  rw [hp, hq] at h
  exact sameKind_of_tagByte (List.cons.inj h).1

/-- No canonical form is a proper prefix of another one. -/
theorem form_prefixFree {i j : Json} (hi : HasForm i) (hj : HasForm j) :
    PrefixFree (form i) (form j) := by
  induction i using Json.induct generalizing j with
  | null =>
    intro r s h
    have hk := sameKind_of_form hi hj h
    cases j <;> first | rfl | cases hk
  | bool a =>
    intro r s h
    have hk := sameKind_of_form hi hj h
    cases j with
    | bool b => rw [show a = b from hk]
    | _ => cases hk
  | num d =>
    intro r s h
    have hk := sameKind_of_form hi hj h
    cases j with
    | num e => exact form_num_prefixFree hi hj _ _ h
    | _ => cases hk
  | str a =>
    intro r s h
    have hk := sameKind_of_form hi hj h
    cases j with
    | str b =>
      rw [form_str hi, form_str hj] at h ⊢
      exact keyForm_prefixFree a b _ _ h
    | _ => cases hk
  | arr xs ih =>
    intro r s h
    have hk := sameKind_of_form hi hj h
    cases j with
    | arr ys =>
      have hxs := hasForm_arr.mp hi
      have hys := hasForm_arr.mp hj
      rw [form_arr hi, form_arr hj] at h ⊢
      simp only [encodeSeq, List.cons_append, List.append_assoc, List.cons.injEq, true_and] at h
      obtain ⟨hl, hf⟩ := putUvarint_inj h
      rw [(flatten_inj hl ?_ hf).1]
      intro p hp q hq
      obtain ⟨x, hx, rfl⟩ := List.mem_map.mp hp
      obtain ⟨y, hy, rfl⟩ := List.mem_map.mp hq
      exact ih x hx (hxs x hx) (hys y hy)
    | _ => cases hk
  | obj ms ih =>
    intro r s h
    have hk := sameKind_of_form hi hj h
    cases j with
    | obj ns =>
      have hms := (hasForm_obj.mp hi).1
      have hns := (hasForm_obj.mp hj).1
      rw [form_obj hi, form_obj hj] at h ⊢
      simp only [mapBytes, List.cons_append, List.append_assoc, List.cons.injEq, true_and] at h
      obtain ⟨hl, hf⟩ := putUvarint_inj h
      rw [(flatMap_pairs_inj hl ?_ ?_ hf).1]
      · intro p hp q hq
        obtain ⟨m, -, rfl⟩ := List.mem_map.mp hp
        obtain ⟨n, -, rfl⟩ := List.mem_map.mp hq
        exact keyForm_prefixFree m.1 n.1
      · intro p hp q hq
        obtain ⟨m, hm, rfl⟩ := List.mem_map.mp hp
        obtain ⟨n, hn, rfl⟩ := List.mem_map.mp hq
        have hm' := (sortMembers_perm ms).mem_iff.mp hm
        have hn' := (sortMembers_perm ns).mem_iff.mp hn
        exact ih m hm' (hms m hm').2 (hns n hn').2
    | _ => cases hk

/-- What one function tells apart, the other does too. -/
theorem map_eq_map_of_imp {α β γ : Type} {f : α → β} {g : α → γ} {xs ys : List α}
    (h : ∀ x ∈ xs, ∀ y ∈ ys, f x = f y → g x = g y) (he : xs.map f = ys.map f) :
    xs.map g = ys.map g := by
  induction xs generalizing ys with
  | nil =>
    cases ys with
    | nil => rfl
    | cons y ys => cases he
  | cons x xs ih =>
    cases ys with
    | nil => cases he
    | cons y ys =>
      obtain ⟨h1, h2⟩ := List.cons.inj he
      rw [List.map_cons, List.map_cons, h x List.mem_cons_self y List.mem_cons_self h1,
        ih (fun a ha b hb => h a (List.mem_cons_of_mem _ ha) b (List.mem_cons_of_mem _ hb)) h2]

/-- Equal forms are forms of values with one normal form. -/
theorem norm_eq_of_form_eq {i j : Json} (hi : HasForm i) (hj : HasForm j)
    (h : form i = form j) : norm i = norm j := by
  have hk := sameKind_of_form (r := []) (s := []) hi hj (by rw [h])
  induction i using Json.induct generalizing j with
  | null => cases j <;> first | rfl | cases hk
  | bool a =>
    cases j with
    | bool b => rw [show a = b from hk]
    | _ => cases hk
  | num d =>
    cases j with
    | num e =>
      rw [form_num hi, form_num hj] at h
      rw [norm, norm]
      cases hdw : d.whole? with
      | none =>
        cases hew : e.whole? with
        | none =>
          simp only [hdw, hew, List.cons.injEq, true_and] at h
          have hb := congrArg readWord h
          rw [readWord_bigEndian, readWord_bigEndian] at hb
          cases d
          cases e
          simp_all
        | some n => simp [hdw, hew, encodeInt] at h
      | some m =>
        cases hew : e.whole? with
        | none => simp [hdw, hew, encodeInt] at h
        | some n =>
          simp only [hdw, hew, encodeInt, List.cons.injEq, true_and] at h
          have hz : zigzag m = zigzag n := (putUvarint_inj (r := []) (s := []) (by rw [h])).1
          simp only [zigzag_injective hz]
    | _ => cases hk
  | str a =>
    cases j with
    | str b =>
      rw [form_str hi, form_str hj] at h
      rw [keyForm_injective h]
    | _ => cases hk
  | arr xs ih =>
    cases j with
    | arr ys =>
      have hxs := hasForm_arr.mp hi
      have hys := hasForm_arr.mp hj
      rw [form_arr hi, form_arr hj] at h
      simp only [encodeSeq, List.cons_append, List.cons.injEq, true_and] at h
      obtain ⟨hl, hf⟩ := putUvarint_inj h
      have hlist : xs.map form = ys.map form := by
        refine (flatten_inj (r := []) (s := []) hl ?_ (by rw [hf])).1
        intro p hp q hq
        obtain ⟨x, hx, rfl⟩ := List.mem_map.mp hp
        obtain ⟨y, hy, rfl⟩ := List.mem_map.mp hq
        exact form_prefixFree (hxs x hx) (hys y hy)
      rw [norm_arr, norm_arr]
      refine congrArg _ (map_eq_map_of_imp (fun x hx y hy hxy => ?_) hlist)
      exact ih x hx (hxs x hx) (hys y hy) hxy
        (sameKind_of_form (r := []) (s := []) (hxs x hx) (hys y hy) (by rw [hxy]))
    | _ => cases hk
  | obj ms ih =>
    cases j with
    | obj ns =>
      obtain ⟨hms, hdm⟩ := hasForm_obj.mp hi
      obtain ⟨hns, hdn⟩ := hasForm_obj.mp hj
      have hms' : ∀ m ∈ sortMembers ms, HasForm m.2 := fun m hm =>
        (hms m ((sortMembers_perm ms).mem_iff.mp hm)).2
      have hns' : ∀ n ∈ sortMembers ns, HasForm n.2 := fun n hn =>
        (hns n ((sortMembers_perm ns).mem_iff.mp hn)).2
      rw [form_obj hi, form_obj hj] at h
      simp only [mapBytes, List.cons_append, List.cons.injEq, true_and] at h
      obtain ⟨hl, hf⟩ := putUvarint_inj h
      have hlist : (sortMembers ms).map memberForm = (sortMembers ns).map memberForm := by
        refine (flatMap_pairs_inj (r := []) (s := []) hl ?_ ?_ (by rw [hf])).1
        · intro p hp q hq
          obtain ⟨m, -, rfl⟩ := List.mem_map.mp hp
          obtain ⟨n, -, rfl⟩ := List.mem_map.mp hq
          exact keyForm_prefixFree m.1 n.1
        · intro p hp q hq
          obtain ⟨m, hm, rfl⟩ := List.mem_map.mp hp
          obtain ⟨n, hn, rfl⟩ := List.mem_map.mp hq
          exact form_prefixFree (hms' m hm) (hns' n hn)
      rw [norm_obj hdm, norm_obj hdn]
      refine congrArg _ (map_eq_map_of_imp (fun m hm n hn hmn => ?_) hlist)
      obtain ⟨h1, h2⟩ := Prod.mk.inj hmn
      have hm' := (sortMembers_perm ms).mem_iff.mp hm
      exact Prod.ext (keyForm_injective h1) (ih m hm' (hms' m hm) (hns' n hn) h2
        (sameKind_of_form (r := []) (s := []) (hms' m hm) (hns' n hn) (by rw [h2])))
    | _ => cases hk

/-! ### The normal form keeps the encoding -/

/-- The normal form of a value has the encoding of the value. -/
theorem encode_norm {j : Json} (h : HasForm j) : encode (norm j) = .ok (form j) := by
  induction j using Json.induct with
  | null | bool | str => exact encode_of_hasForm h
  | num d =>
    rw [norm]
    cases hw : d.whole? with
    | none => exact encode_of_hasForm h
    | some n =>
      have hb := Double.whole?_ofInt (Double.whole?_lt hw)
      obtain ⟨hn, hi⟩ := Double.whole?_finite hb
      simp [encode, encodeNumber, hn, hi, hb, form_num h, hw]
  | arr xs ih =>
    have hxs := hasForm_arr.mp h
    have hform : ∀ x ∈ xs, form (norm x) = form x := fun x hx =>
      form_of_encode (ih x hx (hxs x hx))
    rw [norm_arr, form_arr h]
    refine encode_arr_eq_ok.mpr ⟨?_, ?_⟩
    · intro y hy
      obtain ⟨x, hx, rfl⟩ := List.mem_map.mp hy
      exact ⟨_, ih x hx (hxs x hx)⟩
    · rw [List.map_map]
      exact congrArg _ (List.map_congr_left fun x hx => (hform x hx).symm)
  | obj ms ih =>
    obtain ⟨hms, hd⟩ := hasForm_obj.mp h
    have hsm : ∀ m ∈ sortMembers ms, m ∈ ms := fun m hm => (sortMembers_perm ms).mem_iff.mp hm
    have hds := norm_obj_nodup hd
    rw [norm_obj hd, form_obj h]
    refine encode_obj_eq_ok.mpr ⟨?_, hds, ?_⟩
    · intro m hm
      obtain ⟨n, hn, rfl⟩ := List.mem_map.mp hm
      obtain ⟨hu, hv⟩ := hms n (hsm n hn)
      exact ⟨hu, _, ih n (hsm n hn) hv⟩
    · have hsort : sortMembers ((sortMembers ms).map normMember) =
          (sortMembers ms).map normMember := by
        refine sortOn_of_pairwise (List.pairwise_map.mpr ?_)
        exact sortOn_pairwise (fun m => keyForm m.1) ms
      rw [hsort, List.map_map]
      refine congrArg _ (List.map_congr_left fun m hm => ?_)
      have hf := form_of_encode (ih m (hsm m hm) (hms m (hsm m hm)).2)
      simp [memberForm, normMember, hf]

theorem hasForm_norm {j : Json} (h : HasForm j) : HasForm (norm j) := ⟨_, encode_norm h⟩

theorem form_norm {j : Json} (h : HasForm j) : form (norm j) = form j :=
  form_of_encode (encode_norm h)

/-- Two values with a form have one form exactly when they have one normal form. -/
theorem form_eq_iff {i j : Json} (hi : HasForm i) (hj : HasForm j) :
    form i = form j ↔ norm i = norm j := by
  constructor
  · exact norm_eq_of_form_eq hi hj
  · intro h
    rw [← form_norm hi, h, form_norm hj]

/-! ### Decoding -/

mutual

/-- How many levels lie below a value: none below a value without children. -/
def depth : Json → ℕ
  | .arr items => depthItems items
  | .obj members => depthMembers members
  | _ => 0

/-- One more than the deepest item. -/
def depthItems : List Json → ℕ
  | [] => 0
  | v :: rest => max (depth v + 1) (depthItems rest)

/-- One more than the deepest member. -/
def depthMembers : List (CString × Json) → ℕ
  | [] => 0
  | (_, v) :: rest => max (depth v + 1) (depthMembers rest)

end

/-- A length that a `std::size_t` of 64 bits holds. -/
def Fits (n : ℕ) : Prop := n < 2 ^ 64

mutual

/-- Every length inside a value is one that a machine can hold. -/
def Sized : Json → Prop
  | .str s => Fits s.bytes.length
  | .arr items => Fits items.length ∧ SizedItems items
  | .obj members => Fits members.length ∧ SizedMembers members
  | _ => True

/-- `Sized` of each item. -/
def SizedItems : List Json → Prop
  | [] => True
  | v :: rest => Sized v ∧ SizedItems rest

/-- `Sized` of each member. -/
def SizedMembers : List (CString × Json) → Prop
  | [] => True
  | (k, v) :: rest => Fits k.bytes.length ∧ Sized v ∧ SizedMembers rest

end

theorem depthItems_le {n : ℕ} {xs : List Json} :
    depthItems xs ≤ n ↔ ∀ x ∈ xs, depth x + 1 ≤ n := by
  induction xs with
  | nil => simp [depthItems]
  | cons x xs ih => rw [depthItems, max_le_iff, ih, List.forall_mem_cons]

theorem depthMembers_le {n : ℕ} {ms : List (CString × Json)} :
    depthMembers ms ≤ n ↔ ∀ m ∈ ms, depth m.2 + 1 ≤ n := by
  induction ms with
  | nil => simp [depthMembers]
  | cons m ms ih =>
    obtain ⟨k, v⟩ := m
    rw [depthMembers, max_le_iff, ih, List.forall_mem_cons]

theorem sizedItems_iff {xs : List Json} : SizedItems xs ↔ ∀ x ∈ xs, Sized x := by
  induction xs with
  | nil => simp [SizedItems]
  | cons x xs ih => rw [SizedItems, ih, List.forall_mem_cons]

theorem sizedMembers_iff {ms : List (CString × Json)} :
    SizedMembers ms ↔ ∀ m ∈ ms, Fits m.1.bytes.length ∧ Sized m.2 := by
  induction ms with
  | nil => simp [SizedMembers]
  | cons m ms ih =>
    obtain ⟨k, v⟩ := m
    rw [SizedMembers, ih, List.forall_mem_cons, and_assoc]

/-- A loop that reads back each thing reads back all of them. -/
theorem readMany_eq {α β : Type} {read : Bytes → Option (β × Bytes)} {enc : α → Bytes}
    {val : α → β} {xs : List α} (rest : Bytes)
    (h : ∀ x ∈ xs, ∀ rest, read (enc x ++ rest) = some (val x, rest)) :
    readMany read xs.length (xs.flatMap enc ++ rest) = some (xs.map val, rest) := by
  induction xs with
  | nil => rfl
  | cons x xs ih =>
    rw [List.length_cons, readMany, List.flatMap_cons, List.append_assoc,
      h x List.mem_cons_self]
    simp only [Option.bind_eq_bind, Option.bind_some]
    rw [ih fun y hy => h y (List.mem_cons_of_mem _ hy)]
    rfl

/-- A string is read back from its bytes. -/
theorem decodeAt_keyForm {levels : ℕ} {s : CString} (rest : Bytes) (h : Fits s.bytes.length) :
    decodeAt (levels + 1) (keyForm s ++ rest) = some (.str s, rest) := by
  have hr := readVarint_putUvarint (s.bytes ++ rest) h
  simp [keyForm, strBytes, decodeAt, List.append_assoc, hr]

/-- Every element takes a byte. -/
theorem length_le_flatMap {α : Type} {enc : α → Bytes} {xs : List α} (c : ℕ)
    (h : ∀ x ∈ xs, c ≤ (enc x).length) : c * xs.length ≤ (xs.flatMap enc).length := by
  induction xs with
  | nil => simp
  | cons x xs ih =>
    have h1 := h x List.mem_cons_self
    have h2 := ih fun y hy => h y (List.mem_cons_of_mem _ hy)
    rw [List.flatMap_cons, List.length_append, List.length_cons, Nat.mul_succ]
    omega

theorem flatten_map {α : Type} (enc : α → Bytes) (xs : List α) :
    (xs.map enc).flatten = xs.flatMap enc := List.flatMap_def.symm

theorem bigEndian_length (w : UInt64) : (bigEndian w).length = 8 := rfl

/-- A key takes a tag and a length at least. -/
theorem keyForm_length (k : CString) : 2 ≤ (keyForm k).length := by
  have h := putUvarint_length_pos k.bytes.length
  simp only [keyForm, strBytes, List.length_append, List.length_cons]
  omega

/-- A sequence is its count and its items. -/
theorem decodeAt_seq {levels n : ℕ} {b b' rest : Bytes} {items : List Json}
    (hr : readVarint b = some (n, b')) (hfit : n ≤ b'.length)
    (hm : readMany (decodeAt levels) n b' = some (items, rest)) :
    decodeAt (levels + 1) (0x07 :: b) = some (.arr items, rest) := by
  have hfit' : ¬b'.length < n := by omega
  simp [decodeAt, hr, hfit', hm]

/-- A map is its count and its members. -/
theorem decodeAt_map {levels n : ℕ} {b b' rest : Bytes} {members : List (CString × Json)}
    (hr : readVarint b = some (n, b')) (hfit : n ≤ b'.length / 2)
    (hm : readMany (readMember (decodeAt levels)) n b' = some (members, rest)) :
    decodeAt (levels + 1) (0x08 :: b) = some (.obj members, rest) := by
  have hfit' : ¬b'.length / 2 < n := by omega
  simp [decodeAt, hr, hfit', hm]

/-- A value within the limit is read back, whatever follows it. -/
theorem decodeAt_form {j : Json} (hf : HasForm j) (hs : Sized j) {levels : ℕ}
    (hd : depth j ≤ levels) (rest : Bytes) :
    decodeAt (levels + 1) (form j ++ rest) = some (norm j, rest) := by
  induction j using Json.induct generalizing levels rest with
  | null => rfl
  | bool b => cases b <;> rfl
  | num d =>
    rw [form_num hf, norm]
    cases hw : d.whole? with
    | none =>
      have ht : (bigEndian d.bits ++ rest).take 8 = bigEndian d.bits := List.take_left' rfl
      have hr : (bigEndian d.bits ++ rest).drop 8 = rest := List.drop_left' rfl
      simp [decodeAt, ht, hr, readWord_bigEndian, bigEndian_length]
    | some n =>
      have hr := readVarint_putUvarint rest (zigzag_lt (Double.whole?_lt hw))
      simp [encodeInt, decodeAt, hr, unzigzag_zigzag]
  | str s =>
    rw [form_str hf]
    exact decodeAt_keyForm rest hs
  | arr xs ih =>
    have hxs := hasForm_arr.mp hf
    obtain ⟨hlen, hsx⟩ := hs
    rw [sizedItems_iff] at hsx
    rw [depth, depthItems_le] at hd
    have hread : ∀ x ∈ xs, ∀ rest, decodeAt levels (form x ++ rest) = some (norm x, rest) := by
      intro x hx rest
      obtain ⟨l, rfl⟩ : ∃ l, levels = l + 1 := ⟨levels - 1, by have := hd x hx; omega⟩
      exact ih x hx (hxs x hx) (hsx x hx) (Nat.le_of_succ_le_succ (hd x hx)) rest
    have hcount : 1 * xs.length ≤ (xs.flatMap form).length :=
      length_le_flatMap 1 fun x hx => form_length_pos (hxs x hx)
    have hr := readVarint_putUvarint (xs.flatMap form ++ rest) hlen
    have hfit : xs.length ≤ (xs.flatMap form ++ rest).length := by
      rw [List.length_append]
      omega
    rw [form_arr hf, norm_arr]
    simp only [encodeSeq, flatten_map, List.length_map, List.cons_append, List.append_assoc]
    exact decodeAt_seq hr hfit (readMany_eq rest hread)
  | obj ms ih =>
    obtain ⟨hms, hnd⟩ := hasForm_obj.mp hf
    obtain ⟨hlen, hsm⟩ := hs
    rw [sizedMembers_iff] at hsm
    rw [depth, depthMembers_le] at hd
    have hmem : ∀ m ∈ sortMembers ms, m ∈ ms := fun m hm => (sortMembers_perm ms).mem_iff.mp hm
    have hread : ∀ m ∈ sortMembers ms, ∀ rest,
        readMember (decodeAt levels) ((keyForm m.1 ++ form m.2) ++ rest) =
          some (normMember m, rest) := by
      intro m hm rest
      have hm' := hmem m hm
      obtain ⟨l, rfl⟩ : ∃ l, levels = l + 1 := ⟨levels - 1, by have := hd m hm'; omega⟩
      have hk := @decodeAt_keyForm l m.1 (form m.2 ++ rest) (hsm m hm').1
      have hv := ih m hm' (hms m hm').2 (hsm m hm').2 (Nat.le_of_succ_le_succ (hd m hm')) rest
      simp [readMember, List.append_assoc, hk, hv, Json.string?, normMember]
    have hlen' : (sortMembers ms).length = ms.length := (sortMembers_perm ms).length_eq
    have hcount : 2 * ms.length ≤
        ((sortMembers ms).flatMap fun m => keyForm m.1 ++ form m.2).length := by
      rw [← hlen']
      refine length_le_flatMap 2 fun m hm => ?_
      have := keyForm_length m.1
      rw [List.length_append]
      omega
    have hr := readVarint_putUvarint
      (((sortMembers ms).flatMap fun m => keyForm m.1 ++ form m.2) ++ rest) hlen
    have hmany := readMany_eq rest hread
    rw [hlen'] at hmany
    have hfit : ms.length ≤
        (((sortMembers ms).flatMap fun m => keyForm m.1 ++ form m.2) ++ rest).length / 2 := by
      rw [List.length_append]
      omega
    have hbody : ((sortMembers ms).map memberForm).flatMap (fun kv => kv.1 ++ kv.2) =
        (sortMembers ms).flatMap fun m => keyForm m.1 ++ form m.2 := by
      rw [List.flatMap_map]
      rfl
    rw [form_obj hf, norm_obj hnd]
    simp only [mapBytes, hbody, List.length_map, hlen', List.cons_append, List.append_assoc]
    exact decodeAt_map hr hfit hmany

/-- Nested no deeper than the decoder's limit, with lengths a machine can hold. -/
structure Decodable (j : Json) : Prop where
  /-- The canonical form exists. -/
  hasForm : HasForm j
  /-- The nesting limit. -/
  depth_le : depth j ≤ nestingLimit
  /-- The lengths. -/
  sized : Sized j

/-- The decoder returns the normal form of every such value. -/
theorem decode_form {j : Json} (h : Decodable j) : decode (form j) = some (norm j) := by
  have hd := decodeAt_form h.hasForm h.sized h.depth_le []
  rw [List.append_nil] at hd
  rw [decode, hd]

/-- Such a value passes the check that a document's values go through. -/
theorem isCanonical_form {j : Json} (h : Decodable j) : isCanonical (form j) = true :=
  isCanonical_iff.mpr ⟨norm j, decode_form h, encode_norm h.hasForm⟩

end VoidPalabra
