import VoidPalabra.Codec
import VoidPalabra.Bindings

/-!
# A grammar of canonical bytes

What the naming layer writes is not always the encoding of one value: a slice holds
sets. The grammar here has the set beside the other tags, no string of it is a proper
prefix of another, and so a record gives back its fields, a map its members and a set
its elements.
-/

namespace VoidPalabra

/-! ### Lists that are sets -/

/-- Each element of one list has a related one in the other. -/
def Setwise {α β : Type} (R : α → β → Prop) (xs : List α) (ys : List β) : Prop :=
  (∀ x ∈ xs, ∃ y ∈ ys, R x y) ∧ ∀ y ∈ ys, ∃ x ∈ xs, R x y

theorem Setwise.imp {α β : Type} {R S : α → β → Prop} {xs : List α} {ys : List β}
    (h : Setwise R xs ys) (hi : ∀ x ∈ xs, ∀ y ∈ ys, R x y → S x y) : Setwise S xs ys := by
  constructor
  · intro x hx
    obtain ⟨y, hy, hr⟩ := h.1 x hx
    exact ⟨y, hy, hi x hx y hy hr⟩
  · intro y hy
    obtain ⟨x, hx, hr⟩ := h.2 y hy
    exact ⟨x, hx, hi x hx y hy hr⟩

theorem Setwise.congr {α β : Type} {R S : α → β → Prop} {xs : List α} {ys : List β}
    (h : ∀ x ∈ xs, ∀ y ∈ ys, R x y ↔ S x y) : Setwise R xs ys ↔ Setwise S xs ys :=
  ⟨fun hr => hr.imp fun x hx y hy => (h x hx y hy).mp,
    fun hs => hs.imp fun x hx y hy => (h x hx y hy).mpr⟩

theorem Setwise.refl {α : Type} {R : α → α → Prop} {xs : List α} (h : ∀ x ∈ xs, R x x) :
    Setwise R xs xs :=
  ⟨fun x hx => ⟨x, hx, h x hx⟩, fun x hx => ⟨x, hx, h x hx⟩⟩

/-- Sets of images are equal when the lists are, element by element. -/
theorem setwise_map_iff {α β γ : Type} {f : α → γ} {g : β → γ} {xs : List α} {ys : List β} :
    (∀ c, c ∈ xs.map f ↔ c ∈ ys.map g) ↔ Setwise (fun x y => f x = g y) xs ys := by
  constructor
  · intro h
    constructor
    · intro x hx
      obtain ⟨y, hy, he⟩ := List.mem_map.mp ((h _).mp (List.mem_map_of_mem hx))
      exact ⟨y, hy, he.symm⟩
    · intro y hy
      exact List.mem_map.mp ((h _).mpr (List.mem_map_of_mem hy))
  · intro h c
    constructor
    · intro hc
      obtain ⟨x, hx, rfl⟩ := List.mem_map.mp hc
      obtain ⟨y, hy, he⟩ := h.1 x hx
      exact List.mem_map.mpr ⟨y, hy, he.symm⟩
    · intro hc
      obtain ⟨y, hy, rfl⟩ := List.mem_map.mp hc
      obtain ⟨x, hx, he⟩ := h.2 y hy
      exact List.mem_map.mpr ⟨x, hx, he⟩

/-- Two lists of pairs with one list of names, each name once, and with the same pairs
are one list. -/
theorem pairs_eq_of_perm {κ β : Type} {ps qs : List (κ × β)} (hk : ps.map Prod.fst = qs.map Prod.fst)
    (hd : (ps.map Prod.fst).Nodup) (h : ps.Perm qs) : ps = qs := by
  induction ps generalizing qs with
  | nil => exact (List.perm_nil.mp h.symm).symm
  | cons p ps ih =>
    cases qs with
    | nil => cases hk
    | cons q qs =>
      obtain ⟨-, hks⟩ := List.cons.inj hk
      obtain ⟨hp, hd⟩ := List.nodup_cons.mp hd
      have hpq : p = q := by
        rcases List.mem_cons.mp (h.mem_iff.mp List.mem_cons_self) with he | hmem
        · exact he
        · exact absurd (hks ▸ List.mem_map_of_mem hmem) hp
      subst hpq
      rw [ih hks hd ((List.perm_cons p).mp h)]

/-! ### The grammar -/

/-- The byte strings of the grammar; `Keys` says which lists of encoded keys a map of
it may have. -/
inductive Coded (Keys : List Bytes → Prop) : Bytes → Prop
  /-- Null, false or true. -/
  | atom {tag : UInt8} (h : tag < 0x03) : Coded Keys [tag]
  /-- A whole number. -/
  | int (n : ℤ) : Coded Keys (encodeInt n)
  /-- Another number. -/
  | float (w : UInt64) : Coded Keys (0x04 :: bigEndian w)
  /-- A text. -/
  | str (s : Bytes) : Coded Keys (strBytes s)
  /-- A list. -/
  | seq {items : List Bytes} (coded : ∀ x ∈ items, Coded Keys x) : Coded Keys (encodeSeq items)
  /-- A map. -/
  | map {pairs : List (Bytes × Bytes)} (text : ∀ p ∈ pairs, ∃ k, p.1 = strBytes k)
    (coded : ∀ p ∈ pairs, Coded Keys p.2) (keys : Keys (pairs.map Prod.fst)) :
    Coded Keys (mapBytes pairs)
  /-- A set. -/
  | set {items : List Bytes} (coded : ∀ x ∈ items, Coded Keys x) : Coded Keys (encodeSet items)

theorem strBytes_prefixFree (a b : Bytes) : PrefixFree (strBytes a) (strBytes b) := by
  intro r s h
  simp only [strBytes, List.cons_append, List.append_assoc, List.cons.injEq, true_and] at h
  obtain ⟨hl, hr⟩ := putUvarint_inj h
  rw [(List.append_inj hr hl).1]

theorem strBytes_injective : Function.Injective strBytes := by
  intro a b h
  simp only [strBytes, List.cons_append, List.cons.injEq, true_and] at h
  exact (putUvarint_inj h).2

/-- The tag of a string of the grammar tells which rule made it. -/
theorem Coded.head_ne {a b : UInt8} {x y r s : Bytes} (h : (a :: x) ++ r = (b :: y) ++ s)
    (hne : a ≠ b) : False := hne (List.cons.inj h).1

/-- The three tags without a body are below the others. -/
theorem Coded.atom_ne {a b : UInt8} {x y r s : Bytes} (h : (a :: x) ++ r = (b :: y) ++ s)
    (ha : a < 0x03) (hb : ¬ b < 0x03) : False := hb ((List.cons.inj h).1 ▸ ha)

/-- A counted run of items, after its tag. -/
theorem counted_prefixFree {tag : UInt8} {xs ys : List Bytes}
    (hp : ∀ x ∈ xs, ∀ y ∈ ys, PrefixFree x y) :
    ∀ r s : Bytes, (tag :: putUvarint xs.length ++ xs.flatten) ++ r =
      (tag :: putUvarint ys.length ++ ys.flatten) ++ s → xs = ys := by
  intro r s h
  simp only [List.cons_append, List.append_assoc, List.cons.injEq, true_and] at h
  obtain ⟨hl, hf⟩ := putUvarint_inj h
  exact (flatten_inj hl hp hf).1

/-- The same for a run of members. -/
theorem mapBytes_inj {ps qs : List (Bytes × Bytes)}
    (hk : ∀ p ∈ ps, ∀ q ∈ qs, PrefixFree p.1 q.1) (hv : ∀ p ∈ ps, ∀ q ∈ qs, PrefixFree p.2 q.2)
    {r s : Bytes} (h : mapBytes ps ++ r = mapBytes qs ++ s) : ps = qs := by
  simp only [mapBytes, List.cons_append, List.append_assoc, List.cons.injEq, true_and] at h
  obtain ⟨hl, hf⟩ := putUvarint_inj h
  exact (flatMap_pairs_inj hl hk hv hf).1

/-- No string of the grammar is a proper prefix of another one. -/
theorem Coded.prefixFree {K L : List Bytes → Prop} {x y : Bytes} (hx : Coded K x) (hy : Coded L y) :
    PrefixFree x y := by
  induction hx generalizing y with
  | @atom tag ht =>
    intro r s h
    cases hy with
    | @atom tag' ht' => rw [show tag = tag' from (List.cons.inj h).1]
    | _ => exact (atom_ne h ht (by decide)).elim
  | int m =>
    intro r s h
    cases hy with
    | atom ht' => exact (atom_ne h.symm ht' (by decide)).elim
    | int n =>
      simp only [encodeInt, List.cons_append, List.cons.injEq, true_and] at h ⊢
      rw [(putUvarint_inj h).1]
    | _ => exact (head_ne h (by decide)).elim
  | float v =>
    intro r s h
    cases hy with
    | atom ht' => exact (atom_ne h.symm ht' (by decide)).elim
    | float w => exact (List.append_inj h rfl).1
    | _ => exact (head_ne h (by decide)).elim
  | str a =>
    intro r s h
    cases hy with
    | atom ht' => exact (atom_ne h.symm ht' (by decide)).elim
    | str b => exact strBytes_prefixFree a b r s h
    | _ => exact (head_ne h (by decide)).elim
  | seq _ ih =>
    intro r s h
    cases hy with
    | atom ht' => exact (atom_ne h.symm ht' (by decide)).elim
    | seq hys => rw [counted_prefixFree (fun a ha b hb => ih a ha (hys b hb)) r s h]
    | _ => exact (head_ne h (by decide)).elim
  | map htext _ _ ih =>
    intro r s h
    cases hy with
    | atom ht' => exact (atom_ne h.symm ht' (by decide)).elim
    | map htext' hvs _ =>
      refine congrArg mapBytes (mapBytes_inj ?_ (fun p hp q hq => ih p hp (hvs q hq)) h)
      intro p hp q hq
      obtain ⟨k, hk⟩ := htext p hp
      obtain ⟨l, hl⟩ := htext' q hq
      rw [hk, hl]
      exact strBytes_prefixFree k l
    | _ => exact (head_ne h (by decide)).elim
  | set _ ih =>
    intro r s h
    cases hy with
    | atom ht' => exact (atom_ne h.symm ht' (by decide)).elim
    | set hys =>
      have he := counted_prefixFree (fun a ha b hb =>
        ih a (mem_sortUnique.mp ha) (hys b (mem_sortUnique.mp hb))) r s h
      unfold encodeSet
      rw [he]
    | _ => exact (head_ne h (by decide)).elim

/-- Sets are equal when they have the same elements. -/
theorem encodeSet_inj {K L : List Bytes → Prop} {xs ys : List Bytes} (hx : ∀ x ∈ xs, Coded K x)
    (hy : ∀ y ∈ ys, Coded L y) : encodeSet xs = encodeSet ys ↔ ∀ b, b ∈ xs ↔ b ∈ ys := by
  constructor
  · intro h b
    have he := counted_prefixFree (fun a ha c hc =>
      (hx a (mem_sortUnique.mp ha)).prefixFree (hy c (mem_sortUnique.mp hc))) [] []
      (congrArg (· ++ []) h)
    rw [← mem_sortUnique, he, mem_sortUnique]
  · intro h
    unfold encodeSet
    rw [sortUnique_congr h]

/-- Maps are equal when they have the same members in the same order. -/
theorem Coded.map_inj {K L : List Bytes → Prop} {ps qs : List (Bytes × Bytes)}
    (hp : ∀ p ∈ ps, (∃ k, p.1 = strBytes k) ∧ Coded K p.2)
    (hq : ∀ q ∈ qs, (∃ k, q.1 = strBytes k) ∧ Coded L q.2) (h : mapBytes ps = mapBytes qs) :
    ps = qs := by
  refine mapBytes_inj ?_ (fun p hp' q hq' => (hp p hp').2.prefixFree (hq q hq').2) (congrArg (· ++ []) h)
  intro p hp' q hq'
  obtain ⟨k, hk⟩ := (hp p hp').1
  obtain ⟨l, hl⟩ := (hq q hq').1
  rw [hk, hl]
  exact strBytes_prefixFree k l

theorem Coded.mono {K L : List Bytes → Prop} (hkl : ∀ l, K l → L l) {b : Bytes} (h : Coded K b) :
    Coded L b := by
  induction h with
  | atom ht => exact .atom ht
  | int n => exact .int n
  | float w => exact .float w
  | str s => exact .str s
  | seq _ ih => exact .seq ih
  | map htext _ hkeys ih => exact .map htext ih (hkl _ hkeys)
  | set _ ih => exact .set ih

/-! ### What the encoder writes -/

/-- Keys in strictly increasing order. -/
def Increasing (keys : List Bytes) : Prop := keys.Pairwise fun a b => compare a b = .lt

/-- Sorted keys, each once, are strictly increasing. -/
theorem increasing_sortPairs {ps : List (Bytes × Bytes)} (hd : (ps.map Prod.fst).Nodup) :
    Increasing ((sortPairs ps).map Prod.fst) := by
  have hle : (sortPairs ps).Pairwise (Sorting.KeyLe Prod.fst) := Sorting.sortOn_pairwise _ _
  have hne : (sortPairs ps).Pairwise fun p q => p.1 ≠ q.1 := by
    have hperm : (sortPairs ps).Perm ps := Sorting.sortOn_perm _ _
    exact List.pairwise_map.mp ((hperm.map Prod.fst).nodup_iff.mpr hd)
  refine List.pairwise_map.mpr ((hle.and hne).imp ?_)
  rintro p q ⟨hle, hne⟩
  cases hc : compare p.1 q.1 with
  | lt => rfl
  | eq => exact absurd (Std.LawfulEqCmp.eq_of_compare hc) hne
  | gt =>
    rw [Sorting.KeyLe, hc] at hle
    cases hle

/-- What `encode_map` writes is in the grammar when its values are. -/
theorem coded_encodeMap {ps : List (Bytes × Bytes)} {b : Bytes} (h : encodeMap ps = .ok b)
    (hp : ∀ p ∈ ps, (∃ k, p.1 = strBytes k) ∧ Coded Increasing p.2) : Coded Increasing b := by
  obtain ⟨hd, rfl⟩ := encodeMap_eq_ok.mp h
  have hmem : ∀ p, p ∈ sortPairs ps ↔ p ∈ ps := fun p => Sorting.mem_sortOn
  exact .map (fun p hps => (hp p ((hmem p).mp hps)).1) (fun p hps => (hp p ((hmem p).mp hps)).2)
    (increasing_sortPairs hd)

/-- What `encode_number` writes is in the grammar. -/
theorem coded_number {K : List Bytes → Prop} {d : Double} {b : Bytes} (h : encodeNumber d = .ok b) :
    Coded K b := by
  unfold encodeNumber at h
  split at h
  · cases h
  · cases hw : d.whole? with
    | some n =>
      rw [hw] at h
      cases h
      exact .int n
    | none =>
      rw [hw] at h
      cases h
      exact .float d.bits

/-- The canonical form of a value is in the grammar, with its keys increasing. -/
theorem coded_form {j : Json} (h : HasForm j) : Coded Increasing (form j) := by
  induction j using Json.induct with
  | null => exact .atom (by decide)
  | bool b => cases b <;> exact .atom (by decide)
  | num d => exact coded_number (encode_of_hasForm h)
  | str s =>
    rw [form_str h]
    exact .str s.bytes
  | arr xs ih =>
    rw [form_arr h]
    refine .seq fun x hx => ?_
    obtain ⟨j, hj, rfl⟩ := List.mem_map.mp hx
    exact ih j hj (hasForm_arr.mp h j hj)
  | obj ms ih =>
    obtain ⟨b, hb⟩ := h
    have hm := hasForm_obj.mp ⟨b, hb⟩
    rw [form_of_encode hb]
    rw [encode] at hb
    obtain ⟨ps, hps, hb⟩ := bind_eq_ok.mp hb
    refine coded_encodeMap hb fun p hp => ?_
    rw [(encodeMembers_eq_ok.mp hps).2] at hp
    obtain ⟨m, hmem, rfl⟩ := List.mem_map.mp hp
    exact ⟨⟨_, rfl⟩, ih m hmem (hm.1 m hmem).2⟩

/-- The values of a record's fields. -/
theorem encodeFields_values {fields : List (CString × Except CanonicalError Bytes)} :
    ∀ {ps : List (Bytes × Bytes)}, encodeFields fields = .ok ps →
      fields.map Prod.snd = ps.map (fun p => .ok p.2) ∧
        fields.map (fun f => strBytes f.1.bytes) = ps.map Prod.fst := by
  induction fields with
  | nil =>
    intro ps h
    cases h
    exact ⟨rfl, rfl⟩
  | cons f fields ih =>
    intro ps h
    obtain ⟨k, v⟩ := f
    rw [encodeFields] at h
    obtain ⟨kb, hk, h⟩ := bind_eq_ok.mp h
    obtain ⟨b, hb, h⟩ := bind_eq_ok.mp h
    obtain ⟨rest, hrest, h⟩ := bind_eq_ok.mp h
    cases h
    obtain ⟨hvals, hkeys⟩ := ih hrest
    rw [List.map_cons, List.map_cons, List.map_cons, List.map_cons, hvals, hkeys, hb,
      (encodeStr_eq_ok.mp hk).2]
    exact ⟨rfl, rfl⟩

/-- The fields of a record are in the grammar. -/
def FieldsCoded (fields : List (CString × Except CanonicalError Bytes)) : Prop :=
  ∀ f ∈ fields, ∀ b, f.2 = .ok b → Coded Increasing b

theorem FieldsCoded.pairs {fields : List (CString × Except CanonicalError Bytes)}
    (h : FieldsCoded fields) {ps : List (Bytes × Bytes)} (hps : encodeFields fields = .ok ps) :
    ∀ p ∈ ps, (∃ k, p.1 = strBytes k) ∧ Coded Increasing p.2 := by
  obtain ⟨hvals, hkeys⟩ := encodeFields_values hps
  intro p hp
  constructor
  · have hk : p.1 ∈ fields.map fun f => strBytes f.1.bytes := hkeys ▸ List.mem_map_of_mem hp
    obtain ⟨f, -, hf⟩ := List.mem_map.mp hk
    exact ⟨_, hf.symm⟩
  · have hv : (.ok p.2 : Except CanonicalError Bytes) ∈ fields.map Prod.snd :=
      hvals ▸ List.mem_map_of_mem hp
    obtain ⟨f, hf, hfv⟩ := List.mem_map.mp hv
    exact h f hf p.2 hfv

theorem coded_encodeRecord {fields : List (CString × Except CanonicalError Bytes)} {b : Bytes}
    (h : encodeRecord fields = .ok b) (hc : FieldsCoded fields) : Coded Increasing b := by
  obtain ⟨ps, hps, h⟩ := bind_eq_ok.mp h
  exact coded_encodeMap h (hc.pairs hps)

/-- Two records with the same names are equal when their fields are. -/
theorem encodeRecord_inj {fs gs : List (CString × Except CanonicalError Bytes)} {b c : Bytes}
    (hnames : fs.map Prod.fst = gs.map Prod.fst) (hf : encodeRecord fs = .ok b)
    (hg : encodeRecord gs = .ok c) (hfc : FieldsCoded fs) (hgc : FieldsCoded gs) :
    b = c ↔ fs.map Prod.snd = gs.map Prod.snd := by
  obtain ⟨ps, hps, hb⟩ := bind_eq_ok.mp hf
  obtain ⟨qs, hqs, hc⟩ := bind_eq_ok.mp hg
  obtain ⟨hpd, rfl⟩ := encodeMap_eq_ok.mp hb
  obtain ⟨hqd, rfl⟩ := encodeMap_eq_ok.mp hc
  obtain ⟨hpv, hpk⟩ := encodeFields_values hps
  obtain ⟨hqv, hqk⟩ := encodeFields_values hqs
  have hkeys : ps.map Prod.fst = qs.map Prod.fst := by
    have hk := congrArg (List.map fun k : CString => strBytes k.bytes) hnames
    simp only [List.map_map, Function.comp_def] at hk
    rwa [hpk, hqk] at hk
  constructor
  · intro h
    have hmem : ∀ rs : List (Bytes × Bytes), ∀ p, p ∈ sortPairs rs ↔ p ∈ rs :=
      fun rs p => Sorting.mem_sortOn
    have hsorted := Coded.map_inj (fun p hp => hfc.pairs hps p ((hmem ps p).mp hp))
      (fun q hq => hgc.pairs hqs q ((hmem qs q).mp hq)) h
    have hperm : ps.Perm qs := by
      have hl : (sortPairs ps).Perm ps := Sorting.sortOn_perm _ _
      have hr : (sortPairs qs).Perm qs := Sorting.sortOn_perm _ _
      exact hl.symm.trans (hsorted ▸ hr)
    rw [hpv, hqv, pairs_eq_of_perm hkeys hpd hperm]
  · intro h
    have hvals : ps.map Prod.snd = qs.map Prod.snd := by
      have he : ∀ rs : List (Bytes × Bytes), (rs.map Prod.snd).map
          (Except.ok : Bytes → Except CanonicalError Bytes) = rs.map fun p => .ok p.2 := by
        intro rs
        rw [List.map_map]
        rfl
      rw [hpv, hqv, ← he, ← he] at h
      exact List.map_injective_iff.mpr (fun _ _ h => Except.ok.inj h) h
    rw [List.zip_of_prod hkeys hvals, ← List.zip_of_prod rfl rfl]

/-- The items of a list under an encoder, one by one. -/
theorem encodeEach_map {enc : Json → Except CanonicalError Bytes} {xs : List Json} :
    ∀ {bs : List Bytes}, encodeEach enc xs = .ok bs → xs.map enc = bs.map .ok := by
  induction xs with
  | nil =>
    intro bs h
    cases h
    rfl
  | cons x xs ih =>
    intro bs h
    rw [encodeEach] at h
    obtain ⟨b, hb, h⟩ := bind_eq_ok.mp h
    obtain ⟨rest, hrest, h⟩ := bind_eq_ok.mp h
    cases h
    rw [List.map_cons, List.map_cons, ih hrest, hb]

/-- Only what becomes of the items counts. -/
theorem encodeEach_congr {enc enc' : Json → Except CanonicalError Bytes} {xs : List Json} :
    ∀ {ys : List Json}, xs.map enc = ys.map enc' → encodeEach enc xs = encodeEach enc' ys := by
  induction xs with
  | nil =>
    intro ys h
    rw [List.map_eq_nil_iff.mp h.symm]
    rfl
  | cons x xs ih =>
    intro ys h
    cases ys with
    | nil => cases h
    | cons y ys =>
      obtain ⟨hx, hxs⟩ := List.cons.inj h
      rw [encodeEach, encodeEach, hx, ih hxs]

/-- One item more. -/
theorem encodeEach_append {enc : Json → Except CanonicalError Bytes} {xs : List Json} {x : Json}
    {b : Bytes} (hx : enc x = .ok b) :
    ∀ {bs : List Bytes}, encodeEach enc xs = .ok bs → encodeEach enc (xs ++ [x]) = .ok (bs ++ [b]) := by
  induction xs with
  | nil =>
    intro bs h
    cases h
    rw [List.nil_append, encodeEach, hx]
    rfl
  | cons y ys ih =>
    intro bs h
    rw [encodeEach] at h
    obtain ⟨c, hc, h⟩ := bind_eq_ok.mp h
    obtain ⟨rest, hrest, h⟩ := bind_eq_ok.mp h
    cases h
    rw [List.cons_append, encodeEach, hc, ih hrest]
    rfl

theorem encodeEach_mem {enc : Json → Except CanonicalError Bytes} {xs : List Json} {bs : List Bytes}
    (h : encodeEach enc xs = .ok bs) {b : Bytes} : b ∈ bs ↔ ∃ x ∈ xs, enc x = .ok b := by
  rw [← List.mem_map, encodeEach_map h]
  exact (List.mem_map_of_injective fun _ _ h => Except.ok.inj h).symm

/-- Sets of encoded items are equal when the items are, taken as sets. -/
theorem encodeSet_each_inj {enc : Json → Except CanonicalError Bytes} {xs ys : List Json}
    {bs cs : List Bytes} (hx : encodeEach enc xs = .ok bs) (hy : encodeEach enc ys = .ok cs)
    (hbs : ∀ b ∈ bs, Coded Increasing b) (hcs : ∀ c ∈ cs, Coded Increasing c) :
    encodeSet bs = encodeSet cs ↔ Setwise (fun x y => enc x = enc y) xs ys := by
  rw [encodeSet_inj hbs hcs, ← setwise_map_iff, encodeEach_map hx, encodeEach_map hy]
  constructor
  · intro h r
    simp only [List.mem_map, h]
  · intro h b
    have hb := h (.ok b)
    simpa using hb

end VoidPalabra
