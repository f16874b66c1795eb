import VoidPalabra.RoundTrip

/-!
# The canonical form as a code

Two values have one form exactly when they differ in the order of members and in the
spelling of whole numbers only. The decoder builds no more values than it has bytes, and
what it accepts and encodes back is what some value of bounded nesting is encoded to.
-/

namespace VoidPalabra

/-! ### Equal values -/

mutual

/-- Two values are equal up to the order of members and the spelling of whole numbers. -/
inductive SameValue : Json → Json → Prop
  /-- Null. -/
  | null : SameValue .null .null
  /-- A truth value. -/
  | bool (b : Bool) : SameValue (.bool b) (.bool b)
  /-- Numbers that are one whole number, or one double. -/
  | num {d e : Double} (whole : d.whole? = e.whole?) (other : d.whole? = none → d = e) :
    SameValue (.num d) (.num e)
  /-- A text. -/
  | str (s : CString) : SameValue (.str s) (.str s)
  /-- Lists, item by item. -/
  | arr {xs ys : List Json} (items : SameItems xs ys) : SameValue (.arr xs) (.arr ys)
  /-- Objects, member by member in some order of each. -/
  | obj {ms ns ks ls : List (CString × Json)} (left : ms.Perm ks) (members : SameMembers ks ls)
    (right : ls.Perm ns) : SameValue (.obj ms) (.obj ns)

/-- Lists of equal values. -/
inductive SameItems : List Json → List Json → Prop
  /-- No items. -/
  | nil : SameItems [] []
  /-- One item more. -/
  | cons {v w : Json} {xs ys : List Json} (head : SameValue v w) (tail : SameItems xs ys) :
    SameItems (v :: xs) (w :: ys)

/-- Lists of members with equal names and equal values. -/
inductive SameMembers : List (CString × Json) → List (CString × Json) → Prop
  /-- No members. -/
  | nil : SameMembers [] []
  /-- One member more. -/
  | cons {k : CString} {v w : Json} {ms ns : List (CString × Json)} (head : SameValue v w)
    (tail : SameMembers ms ns) : SameMembers ((k, v) :: ms) ((k, w) :: ns)

end

theorem sameItems_of_map {xs : List Json}
    (ih : ∀ x ∈ xs, ∀ w, HasForm w → norm x = norm w → SameValue x w) :
    ∀ {ys : List Json}, (∀ y ∈ ys, HasForm y) → xs.map norm = ys.map norm → SameItems xs ys := by
  induction xs with
  | nil =>
    intro ys _ h
    cases ys with
    | nil => exact .nil
    | cons y ys => cases h
  | cons x xs ihx =>
    intro ys hy h
    cases ys with
    | nil => cases h
    | cons y ys =>
      obtain ⟨h1, h2⟩ := List.cons.inj h
      refine .cons (ih x List.mem_cons_self y (hy y List.mem_cons_self) h1) ?_
      exact ihx (fun z hz => ih z (List.mem_cons_of_mem _ hz))
        (fun z hz => hy z (List.mem_cons_of_mem _ hz)) h2

theorem sameMembers_of_map {ms : List (CString × Json)}
    (ih : ∀ m ∈ ms, ∀ w, HasForm w → norm m.2 = norm w → SameValue m.2 w) :
    ∀ {ns : List (CString × Json)}, (∀ n ∈ ns, HasForm n.2) →
      ms.map normMember = ns.map normMember → SameMembers ms ns := by
  induction ms with
  | nil =>
    intro ns _ h
    cases ns with
    | nil => exact .nil
    | cons n ns => cases h
  | cons m ms ihm =>
    intro ns hn h
    cases ns with
    | nil => cases h
    | cons n ns =>
      obtain ⟨h1, h2⟩ := List.cons.inj h
      obtain ⟨k, v⟩ := m
      obtain ⟨k', w⟩ := n
      obtain ⟨rfl, hv⟩ := Prod.mk.inj h1
      refine .cons (ih (k, v) List.mem_cons_self w (hn (k, w) List.mem_cons_self) hv) ?_
      exact ihm (fun z hz => ih z (List.mem_cons_of_mem _ hz))
        (fun z hz => hn z (List.mem_cons_of_mem _ hz)) h2

theorem SameItems.map_norm {xs ys : List Json} (h : SameItems xs ys)
    (ih : ∀ x ∈ xs, ∀ y ∈ ys, SameValue x y → norm x = norm y) : xs.map norm = ys.map norm := by
  induction xs generalizing ys with
  | nil =>
    cases h
    rfl
  | cons x xs ihx =>
    cases h with
    | cons head tail =>
      rw [List.map_cons, List.map_cons, ih x List.mem_cons_self _ List.mem_cons_self head,
        ihx tail fun z hz y hy => ih z (List.mem_cons_of_mem _ hz) y (List.mem_cons_of_mem _ hy)]

theorem SameMembers.map_norm {ms ns : List (CString × Json)} (h : SameMembers ms ns)
    (ih : ∀ m ∈ ms, ∀ n ∈ ns, SameValue m.2 n.2 → norm m.2 = norm n.2) :
    ms.map normMember = ns.map normMember := by
  induction ms generalizing ns with
  | nil =>
    cases h
    rfl
  | cons m ms ihm =>
    cases h with
    | @cons k v w _ ns head tail =>
      rw [List.map_cons, List.map_cons, normMember, normMember,
        ih _ List.mem_cons_self _ List.mem_cons_self head,
        ihm tail fun z hz y hy => ih z (List.mem_cons_of_mem _ hz) y (List.mem_cons_of_mem _ hy)]

/-- The normal form of a number. -/
theorem norm_num_eq {d e : Double} : norm (.num d) = norm (.num e) ↔
    d.whole? = e.whole? ∧ (d.whole? = none → d = e) := by
  have hofInt : ∀ {d : Double} {n : ℤ}, d.whole? = some n → (Double.ofInt n).whole? = some n :=
    fun h => Double.whole?_ofInt (Double.whole?_lt h)
  rw [norm, norm]
  cases hd : d.whole? with
  | some n =>
    cases he : e.whole? with
    | some m =>
      simp only [Json.num.injEq, Option.some.injEq, reduceCtorEq, false_imp_iff, and_true]
      refine ⟨fun h => ?_, fun h => by rw [h]⟩
      have hm := hofInt he
      rw [← h, hofInt hd] at hm
      exact Option.some.inj hm
    | none =>
      simp only [Json.num.injEq, reduceCtorEq, false_and, iff_false]
      rintro rfl
      rw [hofInt hd] at he
      cases he
  | none =>
    cases he : e.whole? with
    | some m =>
      simp only [Json.num.injEq, reduceCtorEq, false_and, iff_false]
      rintro rfl
      rw [hofInt he] at hd
      cases hd
    | none => simp

/-- The normal form of an object. -/
theorem norm_obj_eq (ms : List (CString × Json)) : norm (.obj ms) = .obj (sortMembers (ms.map normMember)) := by
  rw [norm, normMembers_eq_map]

theorem map_normMember_names (ms : List (CString × Json)) :
    (ms.map normMember).map Prod.fst = ms.map Prod.fst := by
  rw [List.map_map]
  rfl

/-- Values of one normal form are equal values, and equal values have one normal form. -/
theorem norm_eq_iff {v w : Json} (hv : HasForm v) (hw : HasForm w) : norm v = norm w ↔ SameValue v w := by
  constructor
  · intro h
    have hk := sameKind_of_form hv hw (r := []) (s := []) (by rw [(form_eq_iff hv hw).mpr h])
    induction v using Json.induct generalizing w with
    | null =>
      cases w <;> first | exact .null | exact hk.elim
    | bool b =>
      cases w with
      | bool c =>
        rw [show b = c from hk]
        exact .bool c
      | _ => exact hk.elim
    | num d =>
      cases w with
      | num e =>
        obtain ⟨h1, h2⟩ := norm_num_eq.mp h
        exact .num h1 h2
      | _ => exact hk.elim
    | str s =>
      cases w with
      | str t =>
        rw [norm, norm, Json.str.injEq] at h
        rw [h]
        exact .str t
      | _ => exact hk.elim
    | arr xs ih =>
      cases w with
      | arr ys =>
        rw [norm_arr, norm_arr, Json.arr.injEq] at h
        refine .arr (sameItems_of_map (fun x hx w hw he => ?_) (hasForm_arr.mp hw) h)
        have hxf := hasForm_arr.mp hv x hx
        exact ih x hx hxf hw he (sameKind_of_form hxf hw (r := []) (s := []) (by rw [(form_eq_iff hxf hw).mpr he]))
      | _ => exact hk.elim
    | obj ms ih =>
      cases w with
      | obj ns =>
        obtain ⟨hms, hmd⟩ := hasForm_obj.mp hv
        obtain ⟨hns, hnd⟩ := hasForm_obj.mp hw
        rw [norm_obj hmd, norm_obj hnd, Json.obj.injEq] at h
        have hmem : ∀ m ∈ sortMembers ms, m ∈ ms := fun m hm => (sortMembers_perm ms).mem_iff.mp hm
        refine .obj (sortMembers_perm ms).symm (sameMembers_of_map (fun m hm w hw he => ?_)
          (fun n hn => (hns n ((sortMembers_perm ns).mem_iff.mp hn)).2) h) (sortMembers_perm ns)
        have hmf := (hms m (hmem m hm)).2
        exact ih m (hmem m hm) hmf hw he
          (sameKind_of_form hmf hw (r := []) (s := []) (by rw [(form_eq_iff hmf hw).mpr he]))
      | _ => exact hk.elim
  · intro h
    induction v using Json.induct generalizing w with
    | null => cases h; rfl
    | bool b => cases h; rfl
    | num d =>
      cases h with
      | num whole other => exact norm_num_eq.mpr ⟨whole, other⟩
    | str s => cases h; rfl
    | arr xs ih =>
      cases h with
      | arr items =>
        rw [norm_arr, norm_arr, items.map_norm fun x hx y hy =>
          ih x hx (hasForm_arr.mp hv x hx) (hasForm_arr.mp hw y hy)]
    | obj ms ih =>
      cases h with
      | @obj _ ns ks ls left members right =>
        obtain ⟨hms, hmd⟩ := hasForm_obj.mp hv
        obtain ⟨hns, -⟩ := hasForm_obj.mp hw
        have hmap := members.map_norm fun m hm n hn =>
          ih m (left.mem_iff.mpr hm) (hms m (left.mem_iff.mpr hm)).2 (hns n (right.mem_iff.mp hn)).2
        have hperm : (ms.map normMember).Perm (ns.map normMember) :=
          (left.map _).trans (hmap ▸ right.map _)
        rw [norm_obj_eq, norm_obj_eq, sortMembers_eq_of_perm (by rwa [map_normMember_names]) hperm]

/-! ### The decoder -/

theorem readVarintLoop_length {left shift v n : ℕ} {b rest : Bytes}
    (h : readVarintLoop left shift v b = some (n, rest)) : rest.length + 1 ≤ b.length := by
  induction left generalizing shift v b with
  | zero => cases h
  | succ left ih =>
    cases b with
    | nil => cases h
    | cons c b =>
      rw [readVarintLoop] at h
      split_ifs at h
      · cases h
        exact le_rfl
      · have := ih h
        rw [List.length_cons]
        omega

/-- A varint takes a byte at least. -/
theorem readVarint_length {n : ℕ} {b rest : Bytes} (h : readVarint b = some (n, rest)) :
    rest.length + 1 ≤ b.length := readVarintLoop_length h

/-- How many values a loop of the decoder builds, those of an item that fails among them. -/
def builtMany {α : Type} (read : Bytes → Option (α × Bytes)) (built : Bytes → ℕ) : ℕ → Bytes → ℕ
  | 0, _ => 0
  | n + 1, b => built b +
    match read b with
    | none => 0
    | some (_, b) => builtMany read built n b

/-- How many values are built for one member: its name, and its value if the name is text. -/
def builtMember (read : Bytes → Option (Json × Bytes)) (built : Bytes → ℕ) (b : Bytes) : ℕ :=
  built b +
    match read b with
    | none => 0
    | some (key, b) => if key.string?.isSome then built b else 0

/-- How many values `decode_at` builds, whether it succeeds or not. -/
def builtAt : ℕ → Bytes → ℕ
  | 0, _ => 0
  | _ + 1, [] => 0
  | levels + 1, tag :: b =>
    if tag = 0x00 ∨ tag = 0x01 ∨ tag = 0x02 then 1
    else if tag = 0x03 then (if (readVarint b).isSome then 1 else 0)
    else if tag = 0x04 then (if b.length < 8 then 0 else 1)
    else if tag = 0x05 then
      match readVarint b with
      | none => 0
      | some (n, b) => if b.length < n then 0 else 1
    else if tag = 0x07 ∨ tag = 0x09 then
      match readVarint b with
      | none => 0
      | some (n, b) =>
        if b.length < n then 0 else 1 + builtMany (decodeAt levels) (builtAt levels) n b
    else if tag = 0x08 then
      match readVarint b with
      | none => 0
      | some (n, b) =>
        if b.length / 2 < n then 0
        else 1 + builtMany (readMember (decodeAt levels)) (builtMember (decodeAt levels) (builtAt levels)) n b
    else 0

/-- What a reader builds is paid for by the bytes it takes. -/
def Paid {α : Type} (read : Bytes → Option (α × Bytes)) (built : Bytes → ℕ) : Prop :=
  ∀ b, built b ≤ b.length ∧ ∀ x rest, read b = some (x, rest) → built b + rest.length ≤ b.length

/-- Nothing is paid for where nothing is read. -/
theorem paid_none {α : Type} {P : α → Bytes → Prop} (n : ℕ) :
    0 ≤ n ∧ ∀ x rest, (none : Option (α × Bytes)) = some (x, rest) → P x rest := by
  refine ⟨Nat.zero_le n, ?_⟩
  intro x rest hx
  cases hx

theorem paid_many {α : Type} {read : Bytes → Option (α × Bytes)} {built : Bytes → ℕ} (h : Paid read built)
    (n : ℕ) : Paid (readMany read n) (builtMany read built n) := by
  induction n with
  | zero =>
    intro b
    refine ⟨Nat.zero_le _, fun x rest hx => ?_⟩
    cases hx
    simp [builtMany]
  | succ n ih =>
    intro b
    rw [builtMany, readMany]
    cases hr : read b with
    | none =>
      refine ⟨(h b).1, fun x rest hx => ?_⟩
      cases hx
    | some y =>
      obtain ⟨y, b'⟩ := y
      have h1 := (h b).2 y b' hr
      have h2 := ih b'
      refine ⟨by have := h2.1; dsimp only; omega, fun x rest hx => ?_⟩
      dsimp only at hx ⊢
      cases hm : readMany read n b' with
      | none =>
        simp [hm] at hx
      | some z =>
        obtain ⟨zs, b''⟩ := z
        have h3 := h2.2 zs b'' hm
        simp only [Option.bind_eq_bind, Option.bind_some, hm, Option.pure_def, Option.some.injEq,
          Prod.mk.injEq] at hx
        obtain ⟨-, rfl⟩ := hx
        omega

theorem paid_member {read : Bytes → Option (Json × Bytes)} {built : Bytes → ℕ} (h : Paid read built) :
    Paid (readMember read) (builtMember read built) := by
  intro b
  rw [builtMember, readMember]
  cases hr : read b with
  | none =>
    refine ⟨(h b).1, fun x rest hx => ?_⟩
    cases hx
  | some y =>
    obtain ⟨key, b'⟩ := y
    have h1 := (h b).2 key b' hr
    cases hk : key.string? with
    | none =>
      refine ⟨by simp only [hk, Option.isSome_none, Bool.false_eq_true, if_false]; omega, fun x rest hx => ?_⟩
      simp [hk] at hx
    | some k =>
      simp only [hk, Option.isSome_some, if_true, Option.bind_eq_bind, Option.bind_some]
      refine ⟨by have := (h b').1; omega, fun x rest hx => ?_⟩
      cases hv : read b' with
      | none =>
        simp [hv] at hx
      | some z =>
        obtain ⟨v, b''⟩ := z
        have h2 := (h b').2 v b'' hv
        simp only [hv, Option.bind_some, Option.pure_def, Option.some.injEq, Prod.mk.injEq] at hx
        obtain ⟨-, rfl⟩ := hx
        omega

/-- The decoder builds no more values than it takes bytes. -/
theorem paid_decodeAt (levels : ℕ) : Paid (decodeAt levels) (builtAt levels) := by
  induction levels with
  | zero => exact fun b => paid_none _
  | succ levels ih =>
    intro b
    cases b with
    | nil => exact paid_none _
    | cons tag b =>
      rw [decodeAt, builtAt, List.length_cons]
      by_cases h0 : tag = 0x00
      · rw [if_pos h0, if_pos (.inl h0)]
        exact ⟨by omega, fun x rest hx => by cases hx; omega⟩
      by_cases h1 : tag = 0x01
      · rw [if_neg h0, if_pos h1, if_pos (.inr (.inl h1))]
        exact ⟨by omega, fun x rest hx => by cases hx; omega⟩
      by_cases h2 : tag = 0x02
      · rw [if_neg h0, if_neg h1, if_pos h2, if_pos (.inr (.inr h2))]
        exact ⟨by omega, fun x rest hx => by cases hx; omega⟩
      rw [if_neg h0, if_neg h1, if_neg h2, if_neg (by simp [h0, h1, h2])]
      by_cases h3 : tag = 0x03
      · rw [if_pos h3, if_pos h3]
        cases hr : readVarint b with
        | none => exact paid_none _
        | some y =>
          have hl := readVarint_length hr
          refine ⟨by simp, fun x rest hx => ?_⟩
          cases hx
          simp only [Option.isSome_some, if_true]
          omega
      rw [if_neg h3, if_neg h3]
      by_cases h4 : tag = 0x04
      · rw [if_pos h4, if_pos h4]
        split
        · exact paid_none _
        · refine ⟨by omega, fun x rest hx => ?_⟩
          cases hx
          rw [List.length_drop]
          omega
      rw [if_neg h4, if_neg h4]
      by_cases h5 : tag = 0x05
      · rw [if_pos h5, if_pos h5]
        cases hr : readVarint b with
        | none => exact paid_none _
        | some y =>
          obtain ⟨n, b'⟩ := y
          have hl := readVarint_length hr
          simp only [Option.bind_eq_bind, Option.bind_some]
          split
          · exact paid_none _
          · refine ⟨by omega, fun x rest hx => ?_⟩
            cases hx
            rw [List.length_drop]
            omega
      rw [if_neg h5, if_neg h5]
      by_cases h7 : tag = 0x07 ∨ tag = 0x09
      · rw [if_pos h7, if_pos h7]
        cases hr : readVarint b with
        | none => exact paid_none _
        | some y =>
          obtain ⟨n, b'⟩ := y
          have hl := readVarint_length hr
          simp only [Option.bind_eq_bind, Option.bind_some]
          split
          · exact paid_none _
          · obtain ⟨h1, h2⟩ := paid_many ih n b'
            refine ⟨by omega, fun x rest hx => ?_⟩
            cases hm : readMany (decodeAt levels) n b' with
            | none => simp [hm] at hx
            | some z =>
              have h3 := h2 z.1 z.2 hm
              rw [hm] at hx
              cases hx
              omega
      rw [if_neg h7, if_neg h7]
      by_cases h8 : tag = 0x08
      · rw [if_pos h8, if_pos h8]
        cases hr : readVarint b with
        | none => exact paid_none _
        | some y =>
          obtain ⟨n, b'⟩ := y
          have hl := readVarint_length hr
          simp only [Option.bind_eq_bind, Option.bind_some]
          split
          · exact paid_none _
          · obtain ⟨h1, h2⟩ := paid_many (paid_member ih) n b'
            refine ⟨by omega, fun x rest hx => ?_⟩
            cases hm : readMany (readMember (decodeAt levels)) n b' with
            | none => simp [hm] at hx
            | some z =>
              have h3 := h2 z.1 z.2 hm
              rw [hm] at hx
              cases hx
              omega
      · rw [if_neg h8, if_neg h8]
        exact paid_none _

/-- A loop gives what its reader gives. -/
theorem readMany_forall {α : Type} {read : Bytes → Option (α × Bytes)} {P : α → Prop}
    (h : ∀ b x rest, read b = some (x, rest) → P x) : ∀ {n : ℕ} {b : Bytes} {xs : List α} {rest : Bytes},
      readMany read n b = some (xs, rest) → ∀ x ∈ xs, P x := by
  intro n
  induction n with
  | zero =>
    intro b xs rest hm
    cases hm
    exact fun x hx => nomatch hx
  | succ n ih =>
    intro b xs rest hm
    rw [readMany] at hm
    obtain ⟨⟨y, b'⟩, hr, hm⟩ := Option.bind_eq_some_iff.mp hm
    obtain ⟨⟨ys, b''⟩, hrs, hm⟩ := Option.bind_eq_some_iff.mp hm
    cases hm
    exact List.forall_mem_cons.mpr ⟨h b y b' hr, ih hrs⟩

/-- What the decoder gives is nested no deeper than its levels. -/
theorem depth_of_decodeAt {levels : ℕ} : ∀ {b rest : Bytes} {v : Json},
    decodeAt levels b = some (v, rest) → depth v + 1 ≤ levels := by
  induction levels with
  | zero => exact fun h => nomatch h
  | succ levels ih =>
    intro b rest v h
    cases b with
    | nil => cases h
    | cons tag b =>
      rw [decodeAt] at h
      have hleaf : ∀ {w : Json} {r : Bytes}, some (w, r) = some (v, rest) → depth w = 0 → depth v + 1 ≤ levels + 1 := by
        intro w r he hd
        cases he
        omega
      split_ifs at h with h0 h1 h2 h3 h4 hshort h5 h7 h8
      · exact hleaf h rfl
      · exact hleaf h rfl
      · exact hleaf h rfl
      · obtain ⟨y, -, h⟩ := Option.bind_eq_some_iff.mp h
        exact hleaf h rfl
      · exact hleaf h rfl
      · obtain ⟨y, -, h⟩ := Option.bind_eq_some_iff.mp h
        dsimp only at h
        split at h
        · cases h
        · exact hleaf h rfl
      · obtain ⟨y, -, h⟩ := Option.bind_eq_some_iff.mp h
        dsimp only at h
        split at h
        · cases h
        · obtain ⟨⟨items, r⟩, hm, h⟩ := Option.bind_eq_some_iff.mp h
          cases h
          rw [depth]
          exact Nat.succ_le_succ (depthItems_le.mpr (readMany_forall (fun _ _ _ hx => ih hx) hm))
      · obtain ⟨y, -, h⟩ := Option.bind_eq_some_iff.mp h
        dsimp only at h
        split at h
        · cases h
        · obtain ⟨⟨members, r⟩, hm, h⟩ := Option.bind_eq_some_iff.mp h
          cases h
          rw [depth]
          refine Nat.succ_le_succ (depthMembers_le.mpr (readMany_forall (fun b x rest hx => ?_) hm))
          obtain ⟨⟨key, b'⟩, -, hx⟩ := Option.bind_eq_some_iff.mp hx
          obtain ⟨k, -, hx⟩ := Option.bind_eq_some_iff.mp hx
          obtain ⟨⟨w, b''⟩, hw, hx⟩ := Option.bind_eq_some_iff.mp hx
          cases hx
          exact ih hw

/-- A loop gives at least what a reader that gives less would. -/
theorem readMany_mono {α : Type} {read read' : Bytes → Option (α × Bytes)}
    (h : ∀ b x, read b = some x → read' b = some x) : ∀ {n : ℕ} {b : Bytes} {x : List α × Bytes},
      readMany read n b = some x → readMany read' n b = some x := by
  intro n
  induction n with
  | zero => exact fun hm => hm
  | succ n ih =>
    intro b x hm
    rw [readMany] at hm ⊢
    obtain ⟨⟨y, b'⟩, hr, hm⟩ := Option.bind_eq_some_iff.mp hm
    obtain ⟨⟨ys, b''⟩, hrs, hm⟩ := Option.bind_eq_some_iff.mp hm
    refine Option.bind_eq_some_iff.mpr ⟨_, h b _ hr, ?_⟩
    exact Option.bind_eq_some_iff.mpr ⟨_, ih hrs, hm⟩

/-- What is decoded within some levels is decoded within one more. -/
theorem decodeAt_succ {levels : ℕ} : ∀ {b : Bytes} {x : Json × Bytes},
    decodeAt levels b = some x → decodeAt (levels + 1) b = some x := by
  induction levels with
  | zero => exact fun h => nomatch h
  | succ levels ih =>
    intro b x h
    cases b with
    | nil => cases h
    | cons tag b =>
      rw [decodeAt] at h ⊢
      split_ifs at h ⊢ with h0 h1 h2 h3 h4 hshort h5 h7 h8
      any_goals exact h
      · obtain ⟨y, hy, h⟩ := Option.bind_eq_some_iff.mp h
        refine Option.bind_eq_some_iff.mpr ⟨y, hy, ?_⟩
        dsimp only at h ⊢
        split_ifs at h ⊢
        obtain ⟨z, hz, h⟩ := Option.bind_eq_some_iff.mp h
        exact Option.bind_eq_some_iff.mpr ⟨z, readMany_mono (fun _ _ hx => ih hx) hz, h⟩
      · obtain ⟨y, hy, h⟩ := Option.bind_eq_some_iff.mp h
        refine Option.bind_eq_some_iff.mpr ⟨y, hy, ?_⟩
        dsimp only at h ⊢
        split_ifs at h ⊢
        obtain ⟨z, hz, h⟩ := Option.bind_eq_some_iff.mp h
        refine Option.bind_eq_some_iff.mpr ⟨z, readMany_mono (fun b x hx => ?_) hz, h⟩
        obtain ⟨key, hk, hx⟩ := Option.bind_eq_some_iff.mp hx
        obtain ⟨k, hs, hx⟩ := Option.bind_eq_some_iff.mp hx
        obtain ⟨w, hw, hx⟩ := Option.bind_eq_some_iff.mp hx
        refine Option.bind_eq_some_iff.mpr ⟨key, ih hk, ?_⟩
        exact Option.bind_eq_some_iff.mpr ⟨k, hs, Option.bind_eq_some_iff.mpr ⟨w, ih hw, hx⟩⟩

theorem decodeAt_mono {levels levels' : ℕ} (h : levels ≤ levels') {b : Bytes} {x : Json × Bytes}
    (hx : decodeAt levels b = some x) : decodeAt levels' b = some x := by
  induction levels', h using Nat.le_induction with
  | base => exact hx
  | succ n _ ih => exact decodeAt_succ ih

/-! ### Lengths -/

theorem length_le_flatMap_of_mem {α : Type} {enc : α → Bytes} {xs : List α} {x : α} (h : x ∈ xs) :
    (enc x).length ≤ (xs.flatMap enc).length := by
  induction xs with
  | nil => cases h
  | cons y xs ih =>
    rw [List.flatMap_cons, List.length_append]
    rcases List.mem_cons.mp h with rfl | h
    · omega
    · have := ih h
      omega

/-- Every length inside a value is at most that of its form. -/
theorem sized_of_form {j : Json} (h : HasForm j) (hl : Fits (form j).length) : Sized j := by
  induction j using Json.induct with
  | null => trivial
  | bool b => trivial
  | num d => trivial
  | str s =>
    rw [form_str h, keyForm, strBytes, List.length_append] at hl
    exact Nat.lt_of_le_of_lt (Nat.le_add_left _ _) hl
  | arr xs ih =>
    have hxs := hasForm_arr.mp h
    rw [form_arr h, encodeSeq, List.length_append, flatten_map] at hl
    have hcount : 1 * xs.length ≤ (xs.flatMap form).length :=
      length_le_flatMap 1 fun x hx => form_length_pos (hxs x hx)
    refine ⟨Nat.lt_of_le_of_lt (by omega) hl, sizedItems_iff.mpr fun x hx => ih x hx (hxs x hx) ?_⟩
    have hone : (form x).length ≤ (xs.flatMap form).length := length_le_flatMap_of_mem hx
    exact Nat.lt_of_le_of_lt (by omega) hl
  | obj ms ih =>
    obtain ⟨hms, -⟩ := hasForm_obj.mp h
    have hlen : (sortMembers ms).length = ms.length := (sortMembers_perm ms).length_eq
    rw [form_obj h, mapBytes, List.length_append, List.flatMap_map] at hl
    have hcount : 1 * (sortMembers ms).length ≤
        ((sortMembers ms).flatMap fun m => (memberForm m).1 ++ (memberForm m).2).length :=
      length_le_flatMap 1 fun m _ => by
        have := keyForm_length m.1
        rw [memberForm, List.length_append]
        dsimp only
        omega
    refine ⟨Nat.lt_of_le_of_lt (by omega) hl, sizedMembers_iff.mpr fun m hm => ?_⟩
    have hmem : ((memberForm m).1 ++ (memberForm m).2).length ≤
        ((sortMembers ms).flatMap fun m => (memberForm m).1 ++ (memberForm m).2).length :=
      @length_le_flatMap_of_mem _ (fun m => (memberForm m).1 ++ (memberForm m).2) _ _
        ((sortMembers_perm ms).mem_iff.mpr hm)
    rw [memberForm, List.length_append, keyForm, strBytes, List.length_append] at hmem
    dsimp only at hmem
    exact ⟨Nat.lt_of_le_of_lt (by omega) hl, ih m hm (hms m hm).2 (Nat.lt_of_le_of_lt (by omega) hl)⟩

theorem decodable_of_form {j : Json} (h : HasForm j) (hd : depth j ≤ nestingLimit)
    (hl : Fits (form j).length) : Decodable j := ⟨h, hd, sized_of_form h hl⟩

/-! ### Depth -/

/-- The normal form nests as deep as the value. -/
theorem depth_norm (v : Json) : depth (norm v) = depth v := by
  have hle : ∀ n, depth (norm v) ≤ n ↔ depth v ≤ n := by
    induction v using Json.induct with
    | null | bool _ | str _ => exact fun n => Iff.rfl
    | num d =>
      intro n
      rw [norm]
      cases d.whole? <;> exact Iff.rfl
    | arr xs ih =>
      intro n
      rw [norm_arr, depth, depth, depthItems_le, depthItems_le]
      simp only [List.forall_mem_map]
      refine forall₂_congr fun x hx => ?_
      cases n with
      | zero => simp
      | succ n => rw [Nat.add_le_add_iff_right, Nat.add_le_add_iff_right, ih x hx n]
    | obj ms ih =>
      intro n
      rw [norm_obj_eq, depth, depth, depthMembers_le, depthMembers_le]
      have hperm := sortMembers_perm (ms.map normMember)
      have hmem : ∀ m, m ∈ sortMembers (ms.map normMember) ↔ m ∈ ms.map normMember :=
        fun m => hperm.mem_iff
      simp only [hmem, List.forall_mem_map]
      refine forall₂_congr fun m hm => ?_
      cases n with
      | zero => simp
      | succ n =>
        rw [Nat.add_le_add_iff_right, Nat.add_le_add_iff_right]
        exact ih m hm n
  exact Nat.le_antisymm ((hle _).mpr le_rfl) ((hle _).mp le_rfl)

/-- A value's form is canonical when the value nests no deeper than the limit. -/
theorem isCanonical_form_iff {v : Json} (h : HasForm v) (hl : Fits (form v).length) :
    isCanonical (form v) = true ↔ depth v ≤ nestingLimit := by
  constructor
  · intro hc
    obtain ⟨w, hw, he⟩ := isCanonical_iff.mp hc
    have hd : depth w ≤ nestingLimit := by
      rw [decode] at hw
      split at hw
      · rename_i u hu
        cases hw
        exact Nat.le_of_succ_le_succ (depth_of_decodeAt hu)
      · cases hw
    have hn := (form_eq_iff ⟨_, he⟩ h).mp (form_of_encode he)
    rwa [← depth_norm, hn, depth_norm] at hd
  · exact fun hd => isCanonical_form (decodable_of_form h hd hl)

/-- What nests deeper than the limit is not read back at all. -/
theorem decode_form_deep {j : Json} (h : HasForm j) (hl : Fits (form j).length)
    (hd : nestingLimit < depth j) : decode (form j) = none := by
  cases hw : decodeAt (nestingLimit + 1) (form j) with
  | none => rw [decode, hw]
  | some x =>
    have hdeep := decodeAt_form h (sized_of_form h hl) (Nat.le_refl (depth j)) []
    rw [List.append_nil, decodeAt_mono (by omega) hw] at hdeep
    cases hdeep
    have hle := depth_of_decodeAt hw
    rw [depth_norm] at hle
    omega

/-- The canonical form is a code. What is encoded within the nesting limit is decoded to a
value that is encoded so again; two values are encoded alike exactly when they are equal up
to the order of members and the spelling of whole numbers; no encoding goes on after
another; decoding takes all of its input when it succeeds and never builds more values than
the input has bytes; and the canonical byte strings are the encodings of the values within
the limit. Every length is one that a `std::size_t` holds. -/
theorem canonical_code :
    (∀ v b, encode v = .ok b → depth v ≤ nestingLimit → Fits b.length →
      ∃ w, decode b = some w ∧ encode w = .ok b) ∧
    (∀ v w b c, encode v = .ok b → encode w = .ok c → (b = c ↔ SameValue v w)) ∧
    (∀ v w b c r, encode v = .ok b → encode w = .ok c → b ++ r = c → r = []) ∧
    (∀ b v, decode b = some v → decodeAt (nestingLimit + 1) b = some (v, [])) ∧
    (∀ b, builtAt (nestingLimit + 1) b ≤ b.length) ∧
    ∀ b, Fits b.length → (isCanonical b = true ↔ ∃ v, depth v ≤ nestingLimit ∧ encode v = .ok b) := by
  refine ⟨fun v b hb hd hl => ?_, fun v w b c hb hc => ?_, fun v w b c r hb hc he => ?_, fun b v hv => ?_,
    fun b => (paid_decodeAt _ b).1, fun b hl => ⟨fun h => ?_, fun ⟨v, hd, hb⟩ => ?_⟩⟩
  · obtain ⟨hf, rfl⟩ := encode_eq_ok.mp hb
    exact ⟨norm v, decode_form (decodable_of_form hf hd hl), encode_norm hf⟩
  · obtain ⟨hv, rfl⟩ := encode_eq_ok.mp hb
    obtain ⟨hw, rfl⟩ := encode_eq_ok.mp hc
    rw [form_eq_iff hv hw, norm_eq_iff hv hw]
  · obtain ⟨hv, rfl⟩ := encode_eq_ok.mp hb
    obtain ⟨hw, rfl⟩ := encode_eq_ok.mp hc
    have heq := form_prefixFree hv hw r [] (by rw [he, List.append_nil])
    rw [heq] at he
    exact List.append_right_eq_self.mp he
  · rw [decode] at hv
    split at hv
    · rename_i w hw
      cases hv
      exact hw
    · cases hv
  · obtain ⟨v, hv, hb⟩ := isCanonical_iff.mp h
    refine ⟨v, ?_, hb⟩
    rw [decode] at hv
    split at hv
    · rename_i w hw
      cases hv
      exact Nat.le_of_succ_le_succ (depth_of_decodeAt hw)
    · cases hv
  · obtain ⟨hf, rfl⟩ := encode_eq_ok.mp hb
    exact isCanonical_form (decodable_of_form hf hd hl)

/-- A list of one number. -/
theorem canonical_code_list : (∃ w, decode [7, 1, 3, 2] = some w ∧ encode w = .ok [7, 1, 3, 2]) ∧
    isCanonical [7, 1, 3, 2] = true := by
  have he : encode (.arr [.num Double.one]) = .ok [7, 1, 3, 2] := by decide +kernel
  have hl : Fits ([7, 1, 3, 2] : Bytes).length := show 4 < 2 ^ 64 by decide
  exact ⟨canonical_code.1 _ _ he (by decide) hl, (canonical_code.2.2.2.2.2 _ hl).mpr ⟨_, by decide, he⟩⟩

end VoidPalabra
