import VoidPalabra.Repeats
import VoidPalabra.Validate

/-!
# A state comes back

Each field of a thing that was enriched is read back from its own register, as the normal
form of the value it was written with; a set comes back as the normal forms of its items.
-/

namespace VoidPalabra

/-- What a list gives one after another, as a set of what some of its items give. -/
theorem setwise_flatten {α β : Type} {P : α → List β → Prop} {Q : α → β → Prop} {xs ys : List α}
    {outs : List (List β)} (h : List.Forall₂ P ys outs) (hsub : ∀ x ∈ xs, x ∈ ys)
    (hone : ∀ x ∈ xs, ∀ out, P x out → ∃ o, out = [o] ∧ Q x o)
    (hback : ∀ y ∈ ys, ∀ out, P y out → out ≠ [] → y ∈ xs) : Setwise Q xs outs.flatten := by
  constructor
  · intro x hx
    obtain ⟨out, hout, hp⟩ := forall₂_left h (hsub x hx)
    obtain ⟨o, rfl, hq⟩ := hone x hx out hp
    exact ⟨o, List.mem_flatten.mpr ⟨_, hout, List.mem_singleton.mpr rfl⟩, hq⟩
  · intro o ho
    obtain ⟨out, hout, ho⟩ := List.mem_flatten.mp ho
    obtain ⟨y, hy, hp⟩ := forall₂_right h hout
    have hx := hback y hy out hp (List.ne_nil_of_mem ho)
    obtain ⟨o', rfl, hq⟩ := hone y hx out hp
    exact ⟨y, hx, by rwa [List.mem_singleton.mp ho]⟩

/-! ### Registers with one value -/

section

variable {b : Bytes} {reg : Json}

theorem Holds.values (h : Holds b reg) : (orsetFromJson (some reg)).values = [b] := by
  have hadds : ∀ c, (∃ t : Tag, (orsetFromJson (some reg)).adds[t]? = some c) ↔ c = b :=
    fun c => adds_of_holds h
  obtain ⟨t, ht, rfl⟩ := h
  rw [orsetFromJson_orsetToJson (named_one ht b)] at hadds ⊢
  have hlive : sortUnique ((OrSet.empty.add t b).liveEntries.map Prod.snd) = sortUnique [b] := by
    refine sortUnique_congr fun c => ?_
    rw [← mem_sortUnique, List.mem_singleton, ← hadds c]
    exact OrSet.mem_values.trans (exists_congr fun u =>
      and_iff_left (OrSet.not_mem_empty_removes u))
  rw [OrSet.values, hlive]
  rfl

theorem Holds.live (h : Holds b reg) : (orsetFromJson (some reg)).live = ⟨[b], false⟩ := by
  rw [OrSet.live, h.values]
  rfl

theorem Holds.liveOf (h : Holds b reg) : VoidPalabra.liveOf (some reg) = ⟨[b], false⟩ := h.live

theorem Holds.resolve (h : Holds b reg) (how : FieldJoin) :
    VoidPalabra.resolve (some reg) how = ⟨[b], false⟩ := by
  rw [VoidPalabra.resolve, OrSet.resolve.eq_def, h.live]
  rfl

theorem Holds.not_isEmpty (h : Holds b reg) : (orsetFromJson (some reg)).isEmpty = false := by
  rw [OrSet.isEmpty, h.values]
  rfl

end

theorem firstOrNull_single (b : Bytes) (c : Bool) : firstOrNull ⟨[b], c⟩ = decode b := rfl

/-! ### Fields -/

/-- What a value that was encoded is decoded to. -/
theorem decode_asText {v : Option Json} {b : Bytes} (h : asText v = .ok b)
    (hd : Decodable (v.getD .null)) : decode b = some (norm (v.getD .null)) := by
  have hb : form (v.getD .null) = b := form_of_encode h
  rw [← hb, decode_form hd]

/-- A field of a list of registers. -/
theorem lookup_fields {fs : List (CString × Option Json)} {out : List (CString × Json)}
    (h : List.Forall₂ FieldEnriched fs out) {k : CString} {v : Option Json}
    (hf : fs.find? (fun f => f.1 = k) = some (k, v)) :
    ∃ reg b, Json.lookup k out = some reg ∧ asText v = .ok b ∧ Holds b reg := by
  induction h with
  | nil => cases hf
  | @cons f o _ _ hp _ ih =>
    obtain ⟨hname, b, hb, hh⟩ := hp
    obtain ⟨o1, o2⟩ := o
    simp only at hname hh
    rw [Json.lookup_cons, hname]
    by_cases hk : f.1 = k
    · rw [List.find?_cons_of_pos (by simpa using hk)] at hf
      cases hf
      exact ⟨o2, b, if_pos rfl, hb, hh⟩
    · rw [List.find?_cons_of_neg (by simpa using hk)] at hf
      rw [if_neg hk]
      exact ih hf

theorem lookup_fields_none {fs : List (CString × Option Json)} {out : List (CString × Json)}
    (h : List.Forall₂ FieldEnriched fs out) {k : CString} (hf : ∀ f ∈ fs, f.1 ≠ k) :
    Json.lookup k out = none := by
  rw [Json.lookup_eq_none_iff]
  intro hk
  obtain ⟨o, ho, rfl⟩ := List.mem_map.mp hk
  obtain ⟨f, hfm, hname, -⟩ := forall₂_right h ho
  exact hf f hfm hname.symm

section

variable (policy : JoinPolicy) {fs : List (CString × Option Json)} {out : List (CString × Json)}
  (h : List.Forall₂ FieldEnriched fs out)

include h

/-- A field that was written is shown as the normal form of its value. -/
theorem shownField_enriched {k : CString} {v : Option Json}
    (hf : fs.find? (fun f => f.1 = k) = some (k, v)) (hd : Decodable (v.getD .null)) :
    shownField policy (some (.obj out)) k = some (norm (v.getD .null)) := by
  obtain ⟨reg, b, hl, hb, hh⟩ := lookup_fields h hf
  rw [shownField, get_some, Json.get_obj, hl, hh.resolve, firstOrNull_single, decode_asText hb hd]

/-- An optional field is shown as its value, or as its default. -/
theorem shownList_enriched {k : CString} {v : Option Json}
    (hf : ∀ w, nonDefault v = some w → fs.find? (fun f => f.1 = k) = some (k, some w))
    (hn : nonDefault v = none → ∀ f ∈ fs, f.1 ≠ k)
    (hd : ∀ w, nonDefault v = some w → Decodable w) :
    encode (shownList policy (some (.obj out)) k) = encode (v.getD (.arr [])) := by
  unfold shownList
  cases hv : nonDefault v with
  | none =>
    rw [get_some, Json.get_obj, lookup_fields_none h (hn hv)]
    have hval : v.getD (.arr []) = .arr [] := by
      unfold nonDefault at hv
      split at hv
      · rfl
      · rw [hv]
        rfl
    rw [hval]
    rfl
  | some w =>
    have hvw : v = some w := by
      unfold nonDefault at hv
      split at hv
      · cases hv
      · exact hv
    obtain ⟨reg, b, hl, hb, hh⟩ := lookup_fields h (hf w hv)
    rw [get_some, Json.get_obj, hl, hh.resolve, hvw]
    have hdec : decode b = some (norm w) := decode_asText hb (hd w hv)
    simp only [hdec, Option.getD_some]
    rw [encode_norm (hd w hv).hasForm, encode_of_hasForm (hd w hv).hasForm]

end

/-- The members that the registers under a prefix are read back as. -/
def returned (pre : CString) (f : CString × Option Json) : List (CString × Json) :=
  if f.1.startsWith pre then [(f.1.drop pre.bytes.length, norm (f.2.getD .null))] else []

/-- The members of a rune's content come back. -/
theorem flatMap_contentMember (policy : JoinPolicy) {fs : List (CString × Option Json)}
    {out : List (CString × Json)} (h : List.Forall₂ FieldEnriched fs out)
    (hd : ∀ v ∈ fs.map (fun f => f.2.getD .null), Decodable v) :
    out.flatMap (contentMember policy) = fs.flatMap (returned Key.contentDot) := by
  induction h with
  | nil => rfl
  | @cons f o _ _ hp _ ih =>
    obtain ⟨hname, b, hb, hh⟩ := hp
    obtain ⟨hdf, hd⟩ := List.forall_mem_cons.mp hd
    rw [List.flatMap_cons, List.flatMap_cons, ih hd, contentMember, returned, hname,
      hh.liveOf, hh.resolve, firstOrNull_single, decode_asText hb hdf]
    cases f.1.startsWith Key.contentDot <;> rfl

/-- The members of a mantle's tags come back. -/
theorem flatMap_tagMember (policy : JoinPolicy) {fs : List (CString × Option Json)}
    {out : List (CString × Json)} (h : List.Forall₂ FieldEnriched fs out)
    (hd : ∀ v ∈ fs.map (fun f => f.2.getD .null), Decodable v) :
    out.flatMap (tagMember policy) = fs.flatMap (returned Key.tagsDot) := by
  induction h with
  | nil => rfl
  | @cons f o _ _ hp _ ih =>
    obtain ⟨hname, b, hb, hh⟩ := hp
    obtain ⟨hdf, hd⟩ := List.forall_mem_cons.mp hd
    rw [List.flatMap_cons, List.flatMap_cons, ih hd, tagMember, returned, hname, hh.resolve]
    dsimp only
    rw [decode_asText hb hdf]
    cases f.1.startsWith Key.tagsDot <;> rfl

/-- The items of a set come back, in some order and once each. -/
theorem mem_shownSet {vs : List Json} {s : OrSet} (h : Lists vs s) (hd : ∀ v ∈ vs, Decodable v)
    {w : Json} : w ∈ shownSet (some (orsetToJson s)) ↔ ∃ v ∈ vs, w = norm v := by
  unfold shownSet
  rw [orsetFromJson_orsetToJson h.named, List.mem_filterMap]
  have hvals : ∀ b, b ∈ s.values ↔ ∃ v ∈ vs, encode v = .ok b := by
    intro b
    rw [OrSet.mem_values, ← h.values b]
    exact exists_congr fun t => and_iff_left (h.removes t)
  constructor
  · rintro ⟨b, hb, hw⟩
    obtain ⟨v, hv, he⟩ := (hvals b).mp hb
    refine ⟨v, hv, ?_⟩
    rw [← form_of_encode he, decode_form (hd v hv)] at hw
    exact (Option.some.inj hw).symm
  · rintro ⟨v, hv, rfl⟩
    exact ⟨form v, (hvals _).mpr ⟨v, hv, encode_of_hasForm (hd v hv).hasForm⟩, decode_form (hd v hv)⟩

/-! ### The registers of a thing, by name -/

/-- A name without the prefix is no name with it. -/
theorem append_ne {pre k : CString} (h : k.startsWith pre = false) (x : CString) : pre ++ x ≠ k := by
  rintro rfl
  rw [CString.startsWith_append] at h
  cases h

theorem find_append_left {xs ys : List (CString × Option Json)} {k : CString} {f : CString × Option Json}
    (h : xs.find? (fun f => f.1 = k) = some f) : (xs ++ ys).find? (fun f => f.1 = k) = some f := by
  rw [List.find?_append, h]
  rfl

theorem find_append_right {xs ys : List (CString × Option Json)} {k : CString}
    (h : ∀ f ∈ xs, f.1 ≠ k) : (xs ++ ys).find? (fun f => f.1 = k) = ys.find? fun f => f.1 = k := by
  rw [List.find?_append, List.find?_eq_none.mpr fun f hf => by simpa using h f hf]
  rfl

theorem find_head {k : CString} {v : Option Json} {fs : List (CString × Option Json)} :
    ((k, v) :: fs).find? (fun f => f.1 = k) = some (k, v) :=
  List.find?_cons_of_pos (by simp)

theorem find_cons_ne {k l : CString} {v : Option Json} {fs : List (CString × Option Json)} (h : l ≠ k) :
    ((l, v) :: fs).find? (fun f => f.1 = k) = fs.find? fun f => f.1 = k :=
  List.find?_cons_of_neg (by simpa using h)

theorem find_prefixed {pre : CString} {g : CString → Option Json} {ks : List CString} {k : CString}
    (h : k ∈ ks) : (ks.map fun k => (pre ++ k, g k)).find? (fun f => f.1 = pre ++ k) =
      some (pre ++ k, g k) := by
  induction ks with
  | nil => cases h
  | cons l ks ih =>
    rw [List.map_cons]
    by_cases hl : l = k
    · subst hl
      exact find_head
    · rw [List.find?_cons_of_neg]
      · exact ih ((List.mem_cons.mp h).resolve_left fun he => hl he.symm)
      · simpa using fun he => hl (CString.append_left_cancel he)

/-- The registers of a rune's content. -/
def contentRegisters (r : Json) : List (CString × Option Json) :=
  match r.get Key.content with
  | some c => c.child.map fun m => (Key.contentDot ++ m.1.getD .empty, some m.2)
  | none => []

theorem runeRegisters_eq (r : Json) : runeRegisters r =
    [(Key.spiritName, get (r.get Key.spirit) Key.name), (Key.glyph, r.get Key.glyph)] ++
      (kFacets.map (fun k => (Key.facetsDot ++ k, get (r.get Key.facets) k)) ++
        (contentRegisters r ++ ((Key.placement, r.get Key.placement) ::
          unlessDefault Key.relations (r.get Key.relations)))) := by
  have h : runeRegisters r =
      [(Key.spiritName, get (r.get Key.spirit) Key.name), (Key.glyph, r.get Key.glyph)] ++
        kFacets.map (fun k => (Key.facetsDot ++ k, get (r.get Key.facets) k)) ++
        contentRegisters r ++ [(Key.placement, r.get Key.placement)] ++
        unlessDefault Key.relations (r.get Key.relations) := rfl
  rw [h]
  simp only [List.append_assoc, List.cons_append, List.nil_append]

theorem facet_ne {r : Json} {k : CString} (h : k.startsWith Key.facetsDot = false) :
    ∀ f ∈ kFacets.map (fun k => (Key.facetsDot ++ k, get (r.get Key.facets) k)), f.1 ≠ k := by
  intro f hf
  obtain ⟨x, -, rfl⟩ := List.mem_map.mp hf
  exact append_ne h x

theorem content_ne {r : Json} {k : CString} (h : k.startsWith Key.contentDot = false) :
    ∀ f ∈ contentRegisters r, f.1 ≠ k := by
  intro f hf
  unfold contentRegisters at hf
  split at hf
  · obtain ⟨x, -, rfl⟩ := List.mem_map.mp hf
    exact append_ne h _
  · cases hf

theorem unlessDefault_ne {k l : CString} {v : Option Json} (h : l ≠ k) :
    ∀ f ∈ unlessDefault l v, f.1 ≠ k := by
  intro f hf
  unfold unlessDefault at hf
  split at hf
  · rw [List.mem_singleton.mp hf]
    exact h
  · cases hf

theorem unlessDefault_find {k : CString} {v : Option Json} {w : Json} (h : nonDefault v = some w) :
    (unlessDefault k v).find? (fun f => f.1 = k) = some (k, some w) := by
  rw [unlessDefault, h]
  exact find_head

section

variable (r : Json)

theorem find_spiritName : (runeRegisters r).find? (fun f => f.1 = Key.spiritName) =
    some (Key.spiritName, get (r.get Key.spirit) Key.name) := find_head

theorem find_glyph : (runeRegisters r).find? (fun f => f.1 = Key.glyph) =
    some (Key.glyph, r.get Key.glyph) := by
  rw [runeRegisters_eq, List.cons_append, find_cons_ne (by decide)]
  exact find_head

theorem runeHead_ne {k : CString} (h1 : Key.spiritName ≠ k) (h2 : Key.glyph ≠ k) :
    ∀ f ∈ [(Key.spiritName, get (r.get Key.spirit) Key.name), (Key.glyph, r.get Key.glyph)],
      f.1 ≠ k := by
  simp only [List.forall_mem_cons, List.not_mem_nil, false_implies, implies_true, and_true]
  exact ⟨h1, h2⟩

theorem find_facet {k : CString} (hk : k ∈ kFacets) :
    (runeRegisters r).find? (fun f => f.1 = Key.facetsDot ++ k) =
      some (Key.facetsDot ++ k, get (r.get Key.facets) k) := by
  rw [runeRegisters_eq, find_append_right (runeHead_ne r
    (fun h => append_ne (by decide) k h.symm) fun h => append_ne (by decide) k h.symm)]
  exact find_append_left (find_prefixed (g := fun k => get (r.get Key.facets) k) hk)

theorem find_placement : (runeRegisters r).find? (fun f => f.1 = Key.placement) =
    some (Key.placement, r.get Key.placement) := by
  rw [runeRegisters_eq, find_append_right (runeHead_ne r (by decide) (by decide)),
    find_append_right (facet_ne (by decide)), find_append_right (content_ne (by decide))]
  exact find_head

theorem find_relations {w : Json} (h : nonDefault (r.get Key.relations) = some w) :
    (runeRegisters r).find? (fun f => f.1 = Key.relations) = some (Key.relations, some w) := by
  rw [runeRegisters_eq, find_append_right (runeHead_ne r (by decide) (by decide)),
    find_append_right (facet_ne (by decide)), find_append_right (content_ne (by decide)),
    find_cons_ne (by decide)]
  exact unlessDefault_find h

theorem relations_ne (h : nonDefault (r.get Key.relations) = none) :
    ∀ f ∈ runeRegisters r, f.1 ≠ Key.relations := by
  rw [runeRegisters_eq, unlessDefault, h]
  refine List.forall_mem_append.mpr ⟨runeHead_ne r (by decide) (by decide),
    List.forall_mem_append.mpr ⟨facet_ne (by decide), List.forall_mem_append.mpr
      ⟨content_ne (by decide), ?_⟩⟩⟩
  exact List.forall_mem_singleton.mpr (show Key.placement ≠ Key.relations by decide)

/-- What comes back of a rune's content, when that is an object. -/
theorem returned_content (h : ∀ c, r.get Key.content = some c → c.isObject = true) :
    (runeRegisters r).flatMap (returned Key.contentDot) =
      (childMembers (r.get Key.content)).map normMember := by
  have hnone : ∀ {fs : List (CString × Option Json)},
      (∀ f ∈ fs, f.1.startsWith Key.contentDot = false) → fs.flatMap (returned Key.contentDot) = [] := by
    intro fs hfs
    refine List.flatMap_eq_nil_iff.mpr fun f hf => ?_
    rw [returned, hfs f hf]
    rfl
  have hfacets : ∀ f ∈ kFacets.map (fun k => (Key.facetsDot ++ k, get (r.get Key.facets) k)),
      f.1.startsWith Key.contentDot = false := by
    intro f hf
    obtain ⟨k, hk, rfl⟩ := List.mem_map.mp hf
    have hall : ∀ k ∈ kFacets, (Key.facetsDot ++ k).startsWith Key.contentDot = false := by decide
    exact hall k hk
  have htail : ∀ f ∈ (Key.placement, r.get Key.placement) ::
      unlessDefault Key.relations (r.get Key.relations), f.1.startsWith Key.contentDot = false := by
    refine List.forall_mem_cons.mpr ⟨show Key.placement.startsWith Key.contentDot = false by decide,
      fun f hf => ?_⟩
    unfold unlessDefault at hf
    split at hf
    · rw [List.mem_singleton.mp hf]
      exact show Key.relations.startsWith Key.contentDot = false by decide
    · cases hf
  have hhead : ∀ f ∈ [(Key.spiritName, get (r.get Key.spirit) Key.name), (Key.glyph, r.get Key.glyph)],
      f.1.startsWith Key.contentDot = false :=
    List.forall_mem_cons.mpr ⟨show Key.spiritName.startsWith Key.contentDot = false by decide,
      List.forall_mem_singleton.mpr (show Key.glyph.startsWith Key.contentDot = false by decide)⟩
  rw [runeRegisters_eq, List.flatMap_append, List.flatMap_append, List.flatMap_append,
    hnone hhead, hnone hfacets, hnone htail, List.nil_append, List.nil_append, List.append_nil,
    contentRegisters]
  cases hc : r.get Key.content with
  | none => rfl
  | some c =>
    cases c with
    | obj ms =>
      simp only [Json.child, List.map_map, childMembers, Json.members_obj]
      rw [List.flatMap_map]
      have hone : ∀ m : CString × Json, returned Key.contentDot
          (Key.contentDot ++ m.1, some m.2) = [normMember m] := by
        intro m
        rw [returned, CString.startsWith_append, if_pos rfl, CString.append_drop]
        rfl
      have hall : ∀ ms : List (CString × Json), ms.flatMap (fun m => returned Key.contentDot
          (Key.contentDot ++ m.1, some m.2)) = ms.map normMember := by
        intro ms
        induction ms with
        | nil => rfl
        | cons m ms ih => rw [List.flatMap_cons, List.map_cons, ih, hone]; rfl
      exact hall ms
    | _ => exact absurd (h _ hc) (by simp [Json.isObject])

end

/-! ### Runes -/

theorem textOr_norm (n : Option Json) : textOr (some (norm (n.getD .null))) = textOr n := by
  rcases n with _ | v
  · rfl
  · cases v with
    | num d =>
      rw [Option.getD_some, norm]
      cases d.whole? <;> rfl
    | _ => rfl

theorem encodeStrOr_norm (n : Option Json) :
    encodeStrOr (some (norm (n.getD .null))) = encodeStrOr n :=
  congrArg (fun s : CString => encodeStr s.bytes) (textOr_norm n)

theorem lookup_facets {g : CString → Json} {ks : List CString} {k : CString} (h : k ∈ ks) :
    Json.lookup k (ks.map fun k => (k, g k)) = some (g k) := by
  induction ks with
  | nil => cases h
  | cons l ks ih =>
    rw [List.map_cons, Json.lookup_cons]
    by_cases hl : l = k
    · rw [if_pos hl, hl]
    · rw [if_neg hl]
      exact ih ((List.mem_cons.mp h).resolve_left fun he => hl he.symm)

/-- An object and the same with its members in normal form are encoded alike. -/
theorem encode_normMembers {ms : List (CString × Json)} (h : HasForm (.obj ms)) :
    encode (.obj (ms.map normMember)) = encode (.obj ms) := by
  obtain ⟨hm, hd⟩ := hasForm_obj.mp h
  have hnames : (ms.map normMember).map Prod.fst = ms.map Prod.fst := map_normMember_names ms
  have hpairs : encodeMembers (ms.map normMember) = .ok (ms.map memberForm) := by
    refine encodeMembers_eq_ok.mpr ⟨?_, ?_⟩
    · refine List.forall_mem_map.mpr fun m hmem => ?_
      exact ⟨(hm m hmem).1, hasForm_norm (hm m hmem).2⟩
    · rw [List.map_map]
      refine List.map_congr_left fun m hmem => ?_
      exact (congrArg (keyForm m.1, ·) (form_norm (hm m hmem).2)).symm
  have hpairs' : encodeMembers ms = .ok (ms.map memberForm) := encodeMembers_eq_ok.mpr ⟨hm, rfl⟩
  rw [encode, encode, hpairs, hpairs']

/-- Lists with the same items, as sets, give one set when one of them can be encoded. -/
theorem encodeEach_set {enc : Json → Except CanonicalError Bytes} {xs ys : List Json}
    {bs : List Bytes} (hx : encodeEach enc xs = .ok bs)
    (h : Setwise (fun x y => enc x = enc y) xs ys) :
    ∃ cs, encodeEach enc ys = .ok cs ∧ encodeSet cs = encodeSet bs := by
  obtain ⟨cs, hy⟩ : ∃ cs, encodeEach enc ys = .ok cs := by
    refine encodeEach_ok.mpr fun y hy => ?_
    obtain ⟨x, hxm, he⟩ := h.2 y hy
    obtain ⟨b, hb⟩ := encodeEach_item hx hxm
    exact ⟨b, by rw [← he, hb]⟩
  refine ⟨cs, hy, ?_⟩
  unfold encodeSet
  rw [sortUnique_congr fun c => ?_]
  rw [encodeEach_mem hx, encodeEach_mem hy]
  constructor
  · rintro ⟨y, hym, hc⟩
    obtain ⟨x, hxm, he⟩ := h.2 y hym
    exact ⟨x, hxm, by rw [he, hc]⟩
  · rintro ⟨x, hxm, hc⟩
    obtain ⟨y, hym, he⟩ := h.1 x hxm
    exact ⟨y, hym, by rw [← he, hc]⟩

/-- What a rune must be for its tags and content to come back. -/
structure CarriedRune (r : Json) : Prop where
  /-- Content that is there is an object. -/
  content : ∀ c, r.get Key.content = some c → c.isObject = true
  /-- Tags that are there are a list, or have nothing in them. -/
  tags : childValues (r.get Key.tags) = arrayItems (r.get Key.tags)

section

variable {policy : JoinPolicy} {r : Json} {id : CString} {present : Json}
  {fields : List (CString × Json)} {tags : OrSet}

/-- A rune that comes back, written out. -/
def returnedRune (r : Json) (id : CString) (tags : List Json) (relations : Json) : Json :=
  .obj [(Key.spirit, .obj [(Key.id, .str id),
      (Key.name, norm ((get (r.get Key.spirit) Key.name).getD .null))]),
    (Key.glyph, norm ((r.get Key.glyph).getD .null)),
    (Key.facets, .obj (kFacets.map fun k =>
      (k, norm ((get (r.get Key.facets) k).getD .null)))),
    (Key.content, .obj ((childMembers (r.get Key.content)).map normMember)),
    (Key.tags, .arr tags),
    (Key.placement, norm ((r.get Key.placement).getD .null)),
    (Key.relations, relations)]

theorem mem_written {fs : List (CString × Option Json)} {k : CString} {v : Option Json}
    (h : fs.find? (fun f => f.1 = k) = some (k, v)) :
    v.getD .null ∈ fs.map fun f => f.2.getD .null :=
  List.mem_map.mpr ⟨(k, v), List.mem_of_find?_eq_some h, rfl⟩

theorem flattenRune_eq (hf : List.Forall₂ FieldEnriched (runeRegisters r) fields)
    (hd : ∀ v ∈ (runeRegisters r).map (fun f => f.2.getD .null), Decodable v)
    (hc : ∀ c, r.get Key.content = some c → c.isObject = true) :
    flattenRune policy id (.obj [(Key.present, present), (Key.fields, .obj fields),
      (Key.tags, orsetToJson tags)]) =
        returnedRune r id (shownSet (some (orsetToJson tags)))
          (shownList policy (some (.obj fields)) Key.relations) := by
  have hshown : ∀ {k v}, (runeRegisters r).find? (fun f => f.1 = k) = some (k, v) →
      shownField policy (some (.obj fields)) k = some (norm (v.getD .null)) :=
    fun h => shownField_enriched policy hf h (hd _ (mem_written h))
  have hfacets : (kFacets.flatMap fun k => member k
      (shownField policy (some (.obj fields)) (Key.facetsDot ++ k))) =
      kFacets.map fun k => (k, norm ((get (r.get Key.facets) k).getD .null)) := by
    rw [List.map_eq_flatMap]
    refine List.flatMap_congr fun k hk => ?_
    rw [hshown (find_facet r hk)]
    rfl
  have hcontent : (childMembers (some (.obj fields))).flatMap (contentMember policy) =
      (childMembers (r.get Key.content)).map normMember := by
    rw [childMembers, Json.members_obj, flatMap_contentMember policy hf hd, returned_content r hc]
  have hfget : (Json.obj [(Key.present, present), (Key.fields, .obj fields),
      (Key.tags, orsetToJson tags)]).get Key.fields = some (.obj fields) := rfl
  have htget : (Json.obj [(Key.present, present), (Key.fields, .obj fields),
      (Key.tags, orsetToJson tags)]).get Key.tags = some (orsetToJson tags) := rfl
  unfold flattenRune
  dsimp only
  rw [hfget, htget, hfacets, hcontent, hshown (find_spiritName r), hshown (find_glyph r),
    hshown (find_placement r)]
  rfl

/-- A rune that was enriched comes back with its canonical form. -/
theorem canonRune_returned {b : Bytes} (hid : runeId r = some id)
    (hf : List.Forall₂ FieldEnriched (runeRegisters r) fields)
    (ht : Lists (childValues (r.get Key.tags)) tags) (hd : ∀ v ∈ writtenRune r, Decodable v)
    (hc : CarriedRune r) (hb : canonRune {} r = .ok b) :
    canonRune {} (flattenRune policy id (.obj [(Key.present, present), (Key.fields, .obj fields),
      (Key.tags, orsetToJson tags)])) = .ok b := by
  rw [writtenRune, hid] at hd
  obtain ⟨hdf, hdt⟩ := List.forall_mem_append.mp hd
  rw [flattenRune_eq hf hdf hc.content]
  obtain ⟨hne, hb⟩ := canonRune_eq_ok.mp hb
  have htext : textOr (get (r.get Key.spirit) Key.id) = id := by
    rw [textOr, strOr, show (get (r.get Key.spirit) Key.id).bind Json.string? = some id from hid]
    rfl
  rw [htext] at hne
  have hv := encodeRecord_fields hb
  simp only [runeFields, List.forall_mem_append, List.forall_mem_cons, List.not_mem_nil,
    false_implies, implies_true, and_true] at hv
  obtain ⟨⟨-, -, -, ⟨tb, htb⟩, ⟨_, hcb⟩, -⟩, -⟩ := hv
  refine canonRune_eq_ok.mpr ⟨hne, ?_⟩
  rw [← hb]
  -- The fields one by one.
  have hfacets : (kFacets.map fun k => (k, encodeStrOr (some (norm
      ((get (r.get Key.facets) k).getD .null))))) =
      kFacets.map fun k => (k, encodeStrOr (get (r.get Key.facets) k)) :=
    List.map_congr_left fun k _ => by rw [encodeStrOr_norm]
  have htags : canonTags (some (.arr (shownSet (some (orsetToJson tags))))) =
      canonTags (r.get Key.tags) := by
    rw [htb]
    obtain ⟨ts, hts, htb⟩ := bind_eq_ok.mp htb
    cases htb
    have hset : Setwise (fun t u => encodeStrOr (some t) = encodeStrOr (some u))
        (arrayItems (r.get Key.tags)) (shownSet (some (orsetToJson tags))) := by
      rw [← hc.tags]
      constructor
      · intro t htm
        exact ⟨norm t, (mem_shownSet ht hdt).mpr ⟨t, htm, rfl⟩, (encodeStrOr_norm (some t)).symm⟩
      · intro u hu
        obtain ⟨t, htm, rfl⟩ := (mem_shownSet ht hdt).mp hu
        exact ⟨t, htm, (encodeStrOr_norm (some t)).symm⟩
    obtain ⟨us, hus, he⟩ := encodeEach_set hts hset
    exact bind_eq_ok.mpr ⟨us, hus, by rw [he]; rfl⟩
  have hcontent : encodeOr (some (.obj ((childMembers (r.get Key.content)).map normMember)))
      (.obj []) = encodeOr (r.get Key.content) (.obj []) := by
    unfold encodeOr at hcb ⊢
    cases hcc : r.get Key.content with
    | none => rfl
    | some c =>
      rw [hcc] at hcb
      cases c with
      | obj ms => exact encode_normMembers ⟨_, hcb⟩
      | _ => exact absurd (hc.content _ hcc) (by simp [Json.isObject])
  have hrel : encodeOr (some (shownList policy (some (.obj fields)) Key.relations)) (.arr []) =
      encodeOr (r.get Key.relations) (.arr []) :=
    shownList_enriched policy hf (fun w hw => find_relations r hw) (relations_ne r)
      fun w hw => hdf _ (mem_written (find_relations r hw))
  have hplace : asText (some (norm ((r.get Key.placement).getD .null))) =
      asText (r.get Key.placement) := by
    have hp := hdf _ (mem_written (find_placement r))
    exact (encode_norm hp.hasForm).trans (encode_of_hasForm hp.hasForm).symm
  have hfields : runeFields {} (returnedRune r id (shownSet (some (orsetToJson tags)))
      (shownList policy (some (.obj fields)) Key.relations)) = runeFields {} r := by
    have hfget : ∀ k ∈ kFacets, get ((returnedRune r id (shownSet (some (orsetToJson tags)))
        (shownList policy (some (.obj fields)) Key.relations)).get Key.facets) k =
          some (norm ((get (r.get Key.facets) k).getD .null)) := fun k hk => lookup_facets hk
    have hfm : (kFacets.map fun k => (k, encodeStrOr (get ((returnedRune r id
        (shownSet (some (orsetToJson tags)))
        (shownList policy (some (.obj fields)) Key.relations)).get Key.facets) k))) =
        kFacets.map fun k => (k, encodeStrOr (get (r.get Key.facets) k)) := by
      rw [← hfacets]
      exact List.map_congr_left fun k hk => by rw [hfget k hk]
    unfold runeFields
    rw [hfm, ← htags, ← hcontent, ← hrel, ← hplace, ← encodeStrOr_norm (r.get Key.glyph),
      ← encodeStrOr_norm (get (r.get Key.spirit) Key.name), htext]
    rfl
  rw [hfields]

end

/-! ### Mantles -/

section

variable (m : Json)

theorem mantleRegisters_eq : mantleRegisters m =
    [(Key.id, m.get Key.id), (Key.domain, m.get Key.domain)] ++
      ((childMembers (m.get Key.tags)).map (fun t => (Key.tagsDot ++ t.1, some t.2)) ++
        unlessDefault Key.rules (m.get Key.rules)) := by
  unfold mantleRegisters
  rw [List.append_assoc]

theorem tag_ne {k : CString} (h : k.startsWith Key.tagsDot = false) :
    ∀ f ∈ (childMembers (m.get Key.tags)).map (fun t => (Key.tagsDot ++ t.1, some t.2)), f.1 ≠ k := by
  intro f hf
  obtain ⟨x, -, rfl⟩ := List.mem_map.mp hf
  exact append_ne h x.1

theorem mantleHead_ne {k : CString} (h1 : Key.id ≠ k) (h2 : Key.domain ≠ k) :
    ∀ f ∈ [(Key.id, m.get Key.id), (Key.domain, m.get Key.domain)], f.1 ≠ k := by
  simp only [List.forall_mem_cons, List.not_mem_nil, false_implies, implies_true, and_true]
  exact ⟨h1, h2⟩

theorem find_id : (mantleRegisters m).find? (fun f => f.1 = Key.id) =
    some (Key.id, m.get Key.id) := find_head

theorem find_domain : (mantleRegisters m).find? (fun f => f.1 = Key.domain) =
    some (Key.domain, m.get Key.domain) := by
  rw [mantleRegisters_eq, List.cons_append, find_cons_ne (by decide)]
  exact find_head

theorem find_rules {w : Json} (h : nonDefault (m.get Key.rules) = some w) :
    (mantleRegisters m).find? (fun f => f.1 = Key.rules) = some (Key.rules, some w) := by
  rw [mantleRegisters_eq, find_append_right (mantleHead_ne m (by decide) (by decide)),
    find_append_right (tag_ne m (by decide))]
  exact unlessDefault_find h

theorem rules_ne (h : nonDefault (m.get Key.rules) = none) :
    ∀ f ∈ mantleRegisters m, f.1 ≠ Key.rules := by
  rw [mantleRegisters_eq, unlessDefault, h, List.append_nil]
  exact List.forall_mem_append.mpr ⟨mantleHead_ne m (by decide) (by decide), tag_ne m (by decide)⟩

/-- What comes back of a mantle's tags. -/
theorem returned_tags : (mantleRegisters m).flatMap (returned Key.tagsDot) =
    (childMembers (m.get Key.tags)).map normMember := by
  have hnone : ∀ {fs : List (CString × Option Json)},
      (∀ f ∈ fs, f.1.startsWith Key.tagsDot = false) → fs.flatMap (returned Key.tagsDot) = [] := by
    intro fs hfs
    refine List.flatMap_eq_nil_iff.mpr fun f hf => ?_
    rw [returned, hfs f hf]
    rfl
  have hhead : ∀ f ∈ [(Key.id, m.get Key.id), (Key.domain, m.get Key.domain)],
      f.1.startsWith Key.tagsDot = false :=
    List.forall_mem_cons.mpr ⟨show Key.id.startsWith Key.tagsDot = false by decide,
      List.forall_mem_singleton.mpr (show Key.domain.startsWith Key.tagsDot = false by decide)⟩
  have htail : ∀ f ∈ unlessDefault Key.rules (m.get Key.rules),
      f.1.startsWith Key.tagsDot = false := by
    intro f hf
    unfold unlessDefault at hf
    split at hf
    · rw [List.mem_singleton.mp hf]
      exact show Key.rules.startsWith Key.tagsDot = false by decide
    · cases hf
  have hone : ∀ t : CString × Json, returned Key.tagsDot (Key.tagsDot ++ t.1, some t.2) =
      [normMember t] := by
    intro t
    rw [returned, CString.startsWith_append, if_pos rfl, CString.append_drop]
    rfl
  rw [mantleRegisters_eq, List.flatMap_append, List.flatMap_append, hnone hhead, hnone htail,
    List.nil_append, List.append_nil, List.flatMap_map, List.map_eq_flatMap]
  exact List.flatMap_congr fun t _ => hone t

end

/-- What a mantle must be for everything in it to come back. -/
structure CarriedMantle (m : Json) : Prop where
  /-- Tags that are there are an object. -/
  tags : ∀ t, m.get Key.tags = some t → t.isObject = true
  /-- Runes are items of a list. -/
  runes : ∀ r ∈ childValues (m.get Key.runes), (runeId r).isSome = true →
    r ∈ arrayItems (m.get Key.runes)
  /-- Each of them comes back. -/
  each : ∀ r ∈ arrayItems (m.get Key.runes), CarriedRune r
  /-- Edges that are there are a list, or have nothing in them. -/
  edges : childValues (get (m.get Key.layout) Key.edges) =
    arrayItems (get (m.get Key.layout) Key.edges)

/-- An edge and its normal form are encoded alike. -/
theorem canonEdge_norm {e : Json} (h : HasForm e) : canonEdge (norm e) = canonEdge e := by
  have hget : ∀ k, (norm e).get k = (e.get k).map norm := fun k => get_norm h k
  have htext : ∀ k, textOr ((norm e).get k) = textOr (e.get k) := by
    intro k
    rw [hget]
    cases hk : e.get k with
    | none => rfl
    | some v => exact textOr_norm (some v)
  have hweight : encodeNumber (edgeWeight (norm e)) = encodeNumber (edgeWeight e) := by
    unfold edgeWeight
    rw [hget]
    cases hw : e.get (.ofLit "weight") with
    | none => rfl
    | some v =>
      cases v with
      | num d =>
        have hd : HasForm (.num d) := hasForm_get h hw
        have hn : encode (norm (.num d)) = encode (.num d) :=
          (encode_norm hd).trans (encode_of_hasForm hd).symm
        rw [Option.map_some, norm] at *
        cases hwh : d.whole? with
        | none => rfl
        | some n =>
          rw [hwh] at hn
          exact hn
      | _ => rfl
  have hdir : edgeDirected (norm e) = edgeDirected e := by
    unfold edgeDirected
    rw [hget]
    cases hd : e.get (.ofLit "directed") with
    | none => rfl
    | some v =>
      cases v with
      | num d =>
        rw [Option.map_some, norm]
        cases d.whole? <;> rfl
      | _ => rfl
  have hends : edgeEnds textOr (norm e) = edgeEnds textOr e := by rw [edgeEnds, edgeEnds, htext, htext]
  have hwritten : writtenEnds (norm e) = writtenEnds e := by rw [writtenEnds, writtenEnds, hends, hdir]
  have hrel : encodeStrOr ((norm e).get (.ofLit "relation")) = encodeStrOr (e.get (.ofLit "relation")) :=
    congrArg (fun s : CString => encodeStr s.bytes) (htext _)
  rw [canonEdge_eq, canonEdge_eq, edgeFields, edgeFields, hwritten, hweight, hdir, hrel]

/-- A mantle that comes back, written out. -/
def returnedMantle (m : Json) (name : CString) (runes edges : List Json) (rules : Json) : Json :=
  .obj [(Key.id, norm ((m.get Key.id).getD .null)), (Key.name, .str name),
    (Key.domain, norm ((m.get Key.domain).getD .null)),
    (Key.runes, .arr runes),
    (Key.tags, .obj ((childMembers (m.get Key.tags)).map normMember)),
    (Key.layout, .obj [(Key.edges, .arr edges)]),
    (Key.rules, rules)]

section

variable {policy : JoinPolicy} {m : Json} {name : CString} {present : Json}
  {fields : List (CString × Json)} {runes : List (List (CString × Json))} {edges : OrSet}

/-- The runes of a mantle that was enriched, as they are shown. -/
def shownRunes (policy : JoinPolicy) (runes : List (List (CString × Json))) : List Json :=
  (shownMembers (some (.obj runes.flatten))).map fun r => flattenRune policy r.1 r.2

theorem flattenMantle_eq (hf : List.Forall₂ FieldEnriched (mantleRegisters m) fields)
    (hd : ∀ v ∈ (mantleRegisters m).map (fun f => f.2.getD .null), Decodable v) :
    flattenMantle policy name (.obj [(Key.present, present), (Key.fields, .obj fields),
      (Key.runes, .obj runes.flatten), (Key.edges, orsetToJson edges)]) =
        returnedMantle m name (shownRunes policy runes) (shownSet (some (orsetToJson edges)))
          (shownList policy (some (.obj fields)) Key.rules) := by
  have hshown : ∀ {k v}, (mantleRegisters m).find? (fun f => f.1 = k) = some (k, v) →
      shownField policy (some (.obj fields)) k = some (norm (v.getD .null)) :=
    fun h => shownField_enriched policy hf h (hd _ (mem_written h))
  have htags : (childMembers (some (.obj fields))).flatMap (tagMember policy) =
      (childMembers (m.get Key.tags)).map normMember := by
    rw [childMembers, Json.members_obj, flatMap_tagMember policy hf hd, returned_tags]
  have hfget : (Json.obj [(Key.present, present), (Key.fields, .obj fields),
      (Key.runes, .obj runes.flatten), (Key.edges, orsetToJson edges)]).get Key.fields =
        some (.obj fields) := rfl
  have hrget : (Json.obj [(Key.present, present), (Key.fields, .obj fields),
      (Key.runes, .obj runes.flatten), (Key.edges, orsetToJson edges)]).get Key.runes =
        some (.obj runes.flatten) := rfl
  have heget : (Json.obj [(Key.present, present), (Key.fields, .obj fields),
      (Key.runes, .obj runes.flatten), (Key.edges, orsetToJson edges)]).get Key.edges =
        some (orsetToJson edges) := rfl
  unfold flattenMantle
  dsimp only
  rw [hfget, hrget, heget, htags, hshown (find_id m), hshown (find_domain m)]
  rfl

/-- A thing that was enriched is there. -/
theorem Holds.alive {b : Bytes} {present : Json} (h : Holds b present)
    {rest : List (CString × Json)} :
    (!(orsetFromJson ((Json.obj ((Key.present, present) :: rest)).get Key.present)).isEmpty) =
      true := by
  rw [Json.get_obj, Json.lookup_cons, if_pos rfl, h.not_isEmpty]
  rfl

theorem RuneEnriched.alive {r : Json} {out : List (CString × Json)} (h : RuneEnriched r out) :
    ∀ ro ∈ out, (!(orsetFromJson (ro.2.get Key.present)).isEmpty) = true := by
  cases h with
  | skipped _ => exact fun ro hro => (List.not_mem_nil hro).elim
  | rune _ hp _ _ _ => exact List.forall_mem_singleton.mpr hp.alive

/-- What is shown of the things that were enriched: all of them. -/
theorem mem_shownRunes {rs : List Json} (h : List.Forall₂ RuneEnriched rs runes) {y : Json} :
    y ∈ shownRunes policy runes ↔ ∃ ro ∈ runes.flatten, y = flattenRune policy ro.1 ro.2 := by
  unfold shownRunes shownMembers
  simp only [List.mem_map, List.mem_filter, Sorting.mem_sortOn, childMembers, Json.members_obj]
  constructor
  · rintro ⟨ro, ⟨hmem, -⟩, rfl⟩
    exact ⟨ro, hmem, rfl⟩
  · rintro ⟨ro, hmem, rfl⟩
    obtain ⟨out, hout, hro⟩ := List.mem_flatten.mp hmem
    obtain ⟨r, -, hre⟩ := forall₂_right h hout
    exact ⟨ro, ⟨hmem, hre.alive ro hro⟩, rfl⟩

/-- A rune of a list has the identity its canonical form asks for. -/
theorem runeId_of_canonRune {spec : SlicePolicy} {r : Json} {b : Bytes}
    (h : canonRune spec r = .ok b) : ∃ id, runeId r = some id ∧ id.isEmpty = false := by
  obtain ⟨hne, -⟩ := canonRune_eq_ok.mp h
  cases hid : runeId r with
  | some id =>
    refine ⟨id, rfl, ?_⟩
    rwa [textOr, strOr, show (get (r.get Key.spirit) Key.id).bind Json.string? = some id from hid]
      at hne
  | none =>
    rw [textOr, strOr, show (get (r.get Key.spirit) Key.id).bind Json.string? = none from hid] at hne
    cases hne

theorem mantleName_of_canonMantle {spec : SlicePolicy} {m : Json} {b : Bytes}
    (h : canonMantle spec m = .ok b) :
    ∃ name, mantleName m = some name ∧ name.isEmpty = false := by
  obtain ⟨hne, -⟩ := canonMantle_eq_ok.mp h
  cases hn : mantleName m with
  | some name =>
    refine ⟨name, rfl, ?_⟩
    rwa [textOr, strOr, show (m.get Key.name).bind Json.string? = some name from hn] at hne
  | none =>
    rw [textOr, strOr, show (m.get Key.name).bind Json.string? = none from hn] at hne
    cases hne

/-- The runes of a mantle come back as a set. -/
theorem runes_returned {bs : List Bytes} (hr : List.Forall₂ RuneEnriched (childValues (m.get Key.runes)) runes)
    (hd : ∀ v ∈ (childValues (m.get Key.runes)).flatMap writtenRune, Decodable v)
    (hc : CarriedMantle m) (hb : encodeEach (canonRune {}) (arrayItems (m.get Key.runes)) = .ok bs) :
    Setwise (fun r s => canonRune {} r = canonRune {} s) (arrayItems (m.get Key.runes))
      (shownRunes policy runes) := by
  have hset : Setwise (fun r ro => canonRune {} r = canonRune {} (flattenRune policy ro.1 ro.2))
      (arrayItems (m.get Key.runes)) runes.flatten := by
    refine setwise_flatten hr (fun r => mem_childValues_of_arrayItems) (fun r hrm out hout => ?_)
      fun r hrm out hout hne => hc.runes r hrm ?_
    · obtain ⟨b, hbr⟩ := encodeEach_item hb hrm
      have hdr : ∀ v ∈ writtenRune r, Decodable v := fun v hv =>
        hd v (List.mem_flatMap.mpr ⟨r, mem_childValues_of_arrayItems hrm, hv⟩)
      obtain ⟨id, hid, -⟩ := runeId_of_canonRune hbr
      cases hout with
      | skipped hn => rw [hn] at hid; cases hid
      | rune hn hp hf ht hl =>
        exact ⟨_, rfl, hbr.trans (canonRune_returned hn hf hl hdr (hc.each r hrm) hbr).symm⟩
    · cases hout with
      | skipped _ => exact absurd rfl hne
      | rune hn _ _ _ _ => rw [hn]; rfl
  constructor
  · intro r hrm
    obtain ⟨ro, hro, he⟩ := hset.1 r hrm
    exact ⟨_, (mem_shownRunes hr).mpr ⟨ro, hro, rfl⟩, he⟩
  · intro y hy
    obtain ⟨ro, hro, rfl⟩ := (mem_shownRunes hr).mp hy
    exact hset.2 ro hro

/-- A mantle that was enriched comes back with its canonical form. -/
theorem canonMantle_returned {b : Bytes} (hname : mantleName m = some name)
    (hf : List.Forall₂ FieldEnriched (mantleRegisters m) fields)
    (hr : List.Forall₂ RuneEnriched (childValues (m.get Key.runes)) runes)
    (hl : Lists (childValues (get (m.get Key.layout) Key.edges)) edges)
    (hd : ∀ v ∈ writtenMantle m, Decodable v) (hc : CarriedMantle m)
    (hb : canonMantle {} m = .ok b) :
    canonMantle {} (flattenMantle policy name (.obj [(Key.present, present),
      (Key.fields, .obj fields), (Key.runes, .obj runes.flatten), (Key.edges, orsetToJson edges)])) =
        .ok b := by
  rw [writtenMantle, hname] at hd
  obtain ⟨hd, hde⟩ := List.forall_mem_append.mp hd
  obtain ⟨hdf, hdr⟩ := List.forall_mem_append.mp hd
  rw [flattenMantle_eq hf hdf]
  obtain ⟨hne, rs, es, hrs, hes, hb⟩ := canonMantle_eq_ok.mp hb
  have htext : textOr (m.get Key.name) = name := by
    rw [textOr, strOr, show (m.get Key.name).bind Json.string? = some name from hname]
    rfl
  rw [htext] at hne
  -- The runes, the edges and the other fields.
  obtain ⟨rs', hrs', hrset⟩ := encodeEach_set hrs
    (@runes_returned policy m runes rs hr hdr hc hrs)
  have hedges : Setwise (fun e f => canonEdge e = canonEdge f)
      (arrayItems (get (m.get Key.layout) Key.edges)) (shownSet (some (orsetToJson edges))) := by
    rw [← hc.edges]
    constructor
    · intro e hem
      exact ⟨norm e, (mem_shownSet hl hde).mpr ⟨e, hem, rfl⟩, (canonEdge_norm (hde e hem).hasForm).symm⟩
    · intro f hfm
      obtain ⟨e, hem, rfl⟩ := (mem_shownSet hl hde).mp hfm
      exact ⟨e, hem, (canonEdge_norm (hde e hem).hasForm).symm⟩
  obtain ⟨es', hes', heset⟩ := encodeEach_set hes hedges
  refine canonMantle_eq_ok.mpr ⟨hne, rs', es', hrs', hes', ?_⟩
  rw [← hb]
  have hv := encodeRecord_fields hb
  simp only [mantleFields, List.forall_mem_cons, List.not_mem_nil, false_implies, implies_true,
    and_true] at hv
  obtain ⟨-, -, -, -, ⟨_, htb⟩, -, -⟩ := hv
  have htags : encodeOr (some (.obj ((childMembers (m.get Key.tags)).map normMember))) (.obj []) =
      encodeOr (m.get Key.tags) (.obj []) := by
    unfold encodeOr at htb ⊢
    cases htt : m.get Key.tags with
    | none => rfl
    | some t =>
      rw [htt] at htb
      cases t with
      | obj ms => exact encode_normMembers ⟨_, htb⟩
      | _ => exact absurd (hc.tags _ htt) (by simp [Json.isObject])
  have hrules : encodeOr (some (shownList policy (some (.obj fields)) Key.rules)) (.arr []) =
      encodeOr (m.get Key.rules) (.arr []) :=
    shownList_enriched policy hf (fun w hw => find_rules m hw) (rules_ne m)
      fun w hw => hdf _ (mem_written (find_rules m hw))
  have hdomain : asText (some (norm ((m.get Key.domain).getD .null))) = asText (m.get Key.domain) := by
    have hp := hdf _ (mem_written (find_domain m))
    exact (encode_norm hp.hasForm).trans (encode_of_hasForm hp.hasForm).symm
  unfold mantleFields
  rw [← hrset, ← heset, ← htags, ← hrules, ← hdomain, ← encodeStrOr_norm (m.get Key.id), htext]
  rfl

end

end VoidPalabra
