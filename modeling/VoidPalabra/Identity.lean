import VoidPalabra.Replica

/-!
# Which reused identities a merge catches

A merge gathers the adds of a document into a map by tag, so of several adds under
one tag only the last one in document order is compared, and a set is named by its
path written with slashes. `Caught` says which collisions that leaves to be seen.
-/

namespace VoidPalabra

/-- A path as `collect_adds` writes it. -/
def slashed (p : Path) : Bytes := p.flatMap fun k => 0x2F :: k.bytes

theorem slashed_append (p : Path) (k : CString) : slashed (p ++ [k]) = slashed p ++ 0x2F :: k.bytes := by
  simp [slashed]

theorem slashed_noNul (p : Path) : (0 : UInt8) ∉ slashed p := by
  intro h
  obtain ⟨k, -, hk⟩ := List.mem_flatMap.mp h
  rcases List.mem_cons.mp hk with hk | hk
  · exact absurd hk (by decide)
  · exact k.noNul hk

/-- A path and a value are told apart by the NUL between them. -/
theorem eq_of_append_nul {a b x y : Bytes} (ha : (0 : UInt8) ∉ a) (hb : (0 : UInt8) ∉ b)
    (h : a ++ 0 :: x = b ++ 0 :: y) : a = b ∧ x = y := by
  induction a generalizing b with
  | nil =>
    cases b with
    | nil => exact ⟨rfl, (List.cons.inj h).2⟩
    | cons c b =>
      exact absurd (List.cons.inj h).1 (by
        rintro rfl
        exact hb List.mem_cons_self)
  | cons c a ih =>
    cases b with
    | nil =>
      exact absurd (List.cons.inj h).1 (by
        rintro rfl
        exact ha List.mem_cons_self)
    | cons c' b =>
      obtain ⟨hc, ht⟩ := List.cons.inj h
      obtain ⟨hab, hxy⟩ := ih (fun h => ha (List.mem_cons_of_mem _ h))
        (fun h => hb (List.mem_cons_of_mem _ h)) ht
      exact ⟨by rw [hc, hab], hxy⟩

/-! ### The adds of a tree -/

mutual

/-- Every add of a tree in document order: its tag, the path of its set and its value. -/
def addsIn (n : Json) (p : Path) : List (Tag × Path × Bytes) :=
  if isOrset n then (orsetFromJson (some n)).entries.map fun kv => (kv.1, p, kv.2)
  else
    match n with
    | .obj members => addsBelow members p
    | _ => []

/-- The adds below the members of a map. -/
def addsBelow : List (CString × Json) → Path → List (Tag × Path × Bytes)
  | [], _ => []
  | (k, v) :: rest, p => addsIn v (p ++ [k]) ++ addsBelow rest p

end

/-- The last add under a tag in document order. -/
def lastAdd (n : Json) (t : Tag) : Option (Path × Bytes) :=
  (((addsIn n []).filter fun x => x.1 = t).getLast?).map Prod.snd

/-- One add put into the map that a merge gathers. -/
def gatherAdd (out : Dict Bytes) (x : Tag × Path × Bytes) : Dict Bytes :=
  out.insert x.1 (slashed x.2.1 ++ 0 :: x.2.2)

/-- `collect_adds` puts the adds of a tree into its map, one after another. -/
theorem collectAdds_eq_foldl (n : Json) : ∀ (p : Path) (out : Dict Bytes),
    collectAdds n (slashed p) out = (addsIn n p).foldl gatherAdd out := by
  induction n using Json.induct with
  | obj ms ih =>
    have hbelow : ∀ (p : Path) (out : Dict Bytes),
        collectAddsBelow ms (slashed p) out = (addsBelow ms p).foldl gatherAdd out := by
      intro p
      induction ms with
      | nil => intro out; rfl
      | cons m ms ihs =>
        intro out
        obtain ⟨k, v⟩ := m
        rw [collectAddsBelow, addsBelow, List.foldl_append, ← slashed_append,
          ih (k, v) List.mem_cons_self]
        exact ihs (fun m hm => ih m (List.mem_cons_of_mem _ hm)) _
    intro p out
    rw [collectAdds, addsIn]
    split
    · rw [List.foldl_map]
      rfl
    · exact hbelow p out
  | _ => exact fun p out => rfl

/-- A map that is filled from a list holds the last value of each key. -/
theorem foldl_gatherAdd (xs : List (Tag × Path × Bytes)) (out : Dict Bytes) (t : Tag) :
    (xs.foldl gatherAdd out)[t]? =
      (((xs.filter fun x => x.1 = t).getLast?).map fun x => slashed x.2.1 ++ 0 :: x.2.2).or out[t]? := by
  induction xs generalizing out with
  | nil => simp
  | cons x xs ih =>
    rw [List.foldl_cons, ih, List.filter_cons]
    by_cases hx : x.1 = t
    · subst hx
      rw [if_pos (by simp), List.getLast?_cons]
      cases (xs.filter fun y => y.1 = x.1).getLast? <;> simp [gatherAdd]
    · rw [if_neg (by simpa using hx)]
      have hne : compare x.1 t ≠ .eq := fun he => hx (Std.LawfulEqCmp.eq_of_compare he)
      simp [gatherAdd, Std.ExtTreeMap.getElem?_insert, hne]

/-- What a merge gathers for a tag is the last add under it. -/
theorem collectAdds_getElem? (n : Json) (t : Tag) :
    (collectAdds n [] ∅)[t]? = (lastAdd n t).map fun x => slashed x.1 ++ 0 :: x.2 := by
  have h := collectAdds_eq_foldl n [] ∅
  change collectAdds n [] ∅ = _ at h
  rw [h, foldl_gatherAdd, lastAdd]
  cases ((addsIn n []).filter fun x => x.1 = t).getLast? <;> simp

/-! ### What a merge refuses -/

/-- The document betrays that the replica's identity is used elsewhere: it holds a tag
of the replica's own that the replica does not hold, or an add under one of its own
tags that the replica did not make. -/
def Collides (r : Replica) (d : Json) : Prop :=
  ∃ n < 2 ^ 53, (mintTag r.id n ∈ collectAllTags d ∧ mintTag r.id n ∉ collectAllTags r.doc) ∨
    ∃ p v, (mintTag r.id n, p, v) ∈ addsIn d [] ∧ (mintTag r.id n, p, v) ∉ addsIn r.doc []

/-- Some own tag of the document is unknown to the replica, or the last add under it is
not, by its slashed path and its value, the replica's last add under it. -/
def Caught (r : Replica) (d : Json) : Prop :=
  ∃ t ∈ collectAllTags d, (ownCounter t.bytes r.id.bytes).isSome = true ∧
    (t ∉ collectAllTags r.doc ∨
      ∃ x, lastAdd d t = some x ∧
        ∀ y, lastAdd r.doc t = some y → ¬(slashed y.1 = slashed x.1 ∧ y.2 = x.2))

theorem mem_allTags {n : Json} {t : Tag} : t ∈ allTags n ↔ t ∈ collectAllTags n := by
  rw [allTags, Std.ExtTreeSet.mem_ofList, List.contains_iff_mem]

/-- A tag is refused when it is unknown, or when the last adds under it differ. -/
theorem collision_isSome_iff {doc d : Json} {t : Tag} :
    (Replica.collision (allTags doc) (collectAdds doc [] ∅) (collectAdds d [] ∅) t).isSome = true ↔
      t ∉ collectAllTags doc ∨
        ∃ x, lastAdd d t = some x ∧
          ∀ y, lastAdd doc t = some y → ¬(slashed y.1 = slashed x.1 ∧ y.2 = x.2) := by
  unfold Replica.collision
  by_cases hm : t ∈ collectAllTags doc
  · have hc : (!(allTags doc).contains t) = false := by
      rw [Bool.not_eq_false', Std.ExtTreeSet.contains_iff_mem]
      exact mem_allTags.mpr hm
    rw [hc, collectAdds_getElem?, collectAdds_getElem?]
    simp only [Bool.false_eq_true, if_false, hm, not_true, false_or]
    cases hx : lastAdd d t with
    | none => simp
    | some x =>
      simp only [Option.map_some, Option.some.injEq, exists_eq_left']
      cases hy : lastAdd doc t with
      | none => simp
      | some y =>
        simp only [Option.map_some, Option.some.injEq, forall_eq']
        by_cases he : slashed y.1 = slashed x.1 ∧ y.2 = x.2
        · rw [he.1, he.2]
          simp
        · rw [if_neg fun h => he (eq_of_append_nul (slashed_noNul _) (slashed_noNul _) h)]
          simp [he]
  · have hc : (!(allTags doc).contains t) = true := by
      rw [Bool.not_eq_true', ← Bool.not_eq_true, Std.ExtTreeSet.contains_iff_mem]
      exact fun h => hm (mem_allTags.mp h)
    simp [hc, hm]

/-- The loop of a merge stops at the first own tag that is refused. -/
theorem firstCollision_isSome_iff {id : CString} {mine : NameSet} {myAdds theirAdds : Dict Bytes}
    {tags : List Tag} :
    (Replica.firstCollision id mine myAdds theirAdds tags).isSome = true ↔
      ∃ t ∈ tags, (ownCounter t.bytes id.bytes).isSome = true ∧
        (Replica.collision mine myAdds theirAdds t).isSome = true := by
  induction tags with
  | nil => simp [Replica.firstCollision]
  | cons t tags ih =>
    rw [Replica.firstCollision, List.exists_mem_cons_iff, ← ih]
    cases ho : ownCounter t.bytes id.bytes with
    | none => simp
    | some n =>
      cases hc : Replica.collision mine myAdds theirAdds t with
      | none => simp
      | some problem => simp

/-- Of a document that `validate` accepts, a merge reports a collision exactly when one
is caught, and then the replica is what it was. -/
theorem merge_identityCollision_iff {r : Replica} {d : Json} (hd : validate d = .ok ()) :
    (∃ why, r.merge d = (.identityCollision why, r)) ↔ Caught r d := by
  have hf := @firstCollision_isSome_iff r.id (allTags r.doc) (collectAdds r.doc [] ∅)
    (collectAdds d [] ∅) (allTags d).toList
  simp only [Std.ExtTreeSet.mem_toList, mem_allTags, collision_isSome_iff] at hf
  rw [Caught, ← hf]
  unfold Replica.merge
  rw [hd]
  cases Replica.firstCollision r.id (allTags r.doc) (collectAdds r.doc [] ∅)
      (collectAdds d [] ∅) (allTags d).toList with
  | none => simp
  | some why => simp

/-- A document that betrays a reused identity is refused, and leaves the replica as it
was, exactly when the collision is caught. -/
theorem merge_refuses_collision_iff {r : Replica} {d : Json} (hd : validate d = .ok ()) :
    (Collides r d → ∃ why, r.merge d = (.identityCollision why, r)) ↔
      (Collides r d → Caught r d) := by
  rw [merge_identityCollision_iff hd]

/-! ### When every collision is caught -/

/-- A tag that was minted is read back as the replica's own. -/
theorem ownCounter_mintTag {id : CString} {n : ℕ} (h : n ≤ digitGuard * 10 + 9) :
    ownCounter (mintTag id n).bytes id.bytes = some n := by
  have hlen : (mintTag id n).bytes.length = id.bytes.length + 1 + (decimal n).length := by
    simp [mintTag]
    omega
  have hpos := List.length_pos_of_ne_nil (decimal_ne_nil n)
  have hpre : id.bytes.isPrefixOf (mintTag id n).bytes = true :=
    List.isPrefixOf_iff_prefix.mpr (List.prefix_append _ _)
  have hsep : (mintTag id n).bytes[id.bytes.length]? = some 0x5F := by
    simp [mintTag]
  have hdrop : (mintTag id n).bytes.drop (id.bytes.length + 1) = decimal n := by
    simp [mintTag, List.drop_append]
  unfold ownCounter
  rw [if_neg, hdrop, readDecimal_decimal h]
  rw [hpre, hsep]
  simp only [Bool.not_true, Bool.false_eq_true, ne_eq, not_true, or_false, not_le]
  omega

/-- Every added tag is among the tags of a tree. -/
theorem mem_collectAllTags {n : Json} : ∀ {p : Path} {t : Tag} {x : Path × Bytes},
    (t, x) ∈ addsIn n p → t ∈ collectAllTags n := by
  have hset : ∀ {s : OrSet} {p : Path} {t : Tag} {x : Path × Bytes},
      (t, x) ∈ s.entries.map (fun kv => (kv.1, p, kv.2)) → t ∈ s.adds.keys ++ s.removes.toList := by
    intro s p t x h
    obtain ⟨⟨u, v⟩, hm, he⟩ := List.mem_map.mp h
    cases he
    refine List.mem_append.mpr (.inl ?_)
    rw [← Std.ExtTreeMap.map_fst_toList_eq_keys]
    exact List.mem_map.mpr ⟨_, hm, rfl⟩
  induction n using Json.induct with
  | obj ms ih =>
    have hbelow : ∀ {p : Path} {t : Tag} {x : Path × Bytes},
        (t, x) ∈ addsBelow ms p → t ∈ collectAllTagsBelow ms := by
      induction ms with
      | nil => intro p t x h; cases h
      | cons m ms ihs =>
        intro p t x h
        obtain ⟨k, v⟩ := m
        rw [addsBelow, List.mem_append] at h
        rw [collectAllTagsBelow, List.mem_append]
        rcases h with h | h
        · exact .inl (ih (k, v) List.mem_cons_self h)
        · exact .inr (ihs (fun m hm {p t x} => ih m (List.mem_cons_of_mem _ hm)) h)
    intro p t x h
    rw [addsIn] at h
    rw [collectAllTags]
    split
    · rename_i ho
      rw [if_pos ho] at h
      exact hset h
    · rename_i ho
      rw [if_neg ho] at h
      exact hbelow h
  | _ =>
    intro p t x h
    cases h

/-- Without slashes in the names a slashed path is the path. -/
theorem slashed_injective {p q : Path} (hp : ∀ k ∈ p, (0x2F : UInt8) ∉ k.bytes)
    (hq : ∀ k ∈ q, (0x2F : UInt8) ∉ k.bytes) (h : slashed p = slashed q) : p = q := by
  induction p generalizing q with
  | nil =>
    cases q with
    | nil => rfl
    | cons k q => cases h
  | cons k p ih =>
    cases q with
    | nil => cases h
    | cons l q =>
      have hcut : ∀ {k l : Bytes} {p q : Path}, (0x2F : UInt8) ∉ k → (0x2F : UInt8) ∉ l →
          k ++ slashed p = l ++ slashed q → k = l ∧ slashed p = slashed q := by
        intro k
        induction k with
        | nil =>
          intro l p q _ hl he
          cases l with
          | nil => exact ⟨rfl, he⟩
          | cons c l =>
            cases p with
            | nil => cases he
            | cons m p =>
              exact absurd (List.cons.inj he).1 (by
                rintro rfl
                exact hl List.mem_cons_self)
        | cons c k ihk =>
          intro l p q hk hl he
          cases l with
          | nil =>
            cases q with
            | nil => cases he
            | cons m q =>
              exact absurd (List.cons.inj he).1 (by
                rintro rfl
                exact hk List.mem_cons_self)
          | cons d l =>
            obtain ⟨hc, ht⟩ := List.cons.inj he
            obtain ⟨hkl, hpq⟩ := ihk (fun h => hk (List.mem_cons_of_mem _ h))
              (fun h => hl (List.mem_cons_of_mem _ h)) ht
            exact ⟨by rw [hc, hkl], hpq⟩
      simp only [slashed, List.flatMap_cons, List.cons_append, List.cons.injEq, true_and] at h
      obtain ⟨hkl, hpq⟩ := hcut (hp k List.mem_cons_self) (hq l List.mem_cons_self) h
      rw [CString.ext hkl, ih (fun m hm => hp m (List.mem_cons_of_mem _ hm))
        (fun m hm => hq m (List.mem_cons_of_mem _ hm)) hpq]

/-- The only add under a tag is the last one. -/
theorem lastAdd_eq_some {n : Json} {t : Tag} {x : Path × Bytes} (hx : (t, x) ∈ addsIn n [])
    (h1 : ∀ y, (t, y) ∈ addsIn n [] → y = x) : lastAdd n t = some x := by
  have hm : (t, x) ∈ (addsIn n []).filter fun y => y.1 = t := by
    simp [hx]
  unfold lastAdd
  cases hl : ((addsIn n []).filter fun y => y.1 = t).getLast? with
  | none =>
    rw [List.getLast?_eq_none_iff] at hl
    rw [hl] at hm
    cases hm
  | some y =>
    have hy := List.mem_of_getLast? hl
    simp only [List.mem_filter, decide_eq_true_eq] at hy
    obtain ⟨u, z⟩ := y
    obtain ⟨hy, rfl⟩ := hy
    exact congrArg some (h1 z hy)

/-- When the document adds no tag twice and no name has a slash in it, every collision
is caught. -/
theorem Collides.caught {r : Replica} {d : Json} (h : Collides r d)
    (hd : ∀ t x y, (t, x) ∈ addsIn d [] → (t, y) ∈ addsIn d [] → x = y)
    (hs : ∀ y ∈ addsIn d [] ++ addsIn r.doc [], ∀ k ∈ y.2.1, (0x2F : UInt8) ∉ k.bytes) :
    Caught r d := by
  have hguard : 2 ^ 53 ≤ digitGuard * 10 + 9 := by decide
  obtain ⟨n, hn, ⟨hin, hout⟩ | ⟨p, v, hin, hout⟩⟩ := h
  · have ho := @ownCounter_mintTag r.id n (by omega)
    exact ⟨_, hin, by rw [ho]; rfl, .inl hout⟩
  · have ho := @ownCounter_mintTag r.id n (by omega)
    refine ⟨_, mem_collectAllTags hin, by rw [ho]; rfl, .inr ⟨(p, v), ?_, ?_⟩⟩
    · exact lastAdd_eq_some hin fun y hy => hd _ _ _ hy hin
    · rintro ⟨q, w⟩ hy ⟨hpq, rfl⟩
      have hmem : (mintTag r.id n, q, w) ∈ addsIn r.doc [] := by
        unfold lastAdd at hy
        obtain ⟨z, hz, hzy⟩ := Option.map_eq_some_iff.mp hy
        have hz' := List.mem_of_getLast? hz
        simp only [List.mem_filter, decide_eq_true_eq] at hz'
        obtain ⟨u, z⟩ := z
        obtain ⟨hz', rfl⟩ := hz'
        exact hzy ▸ hz'
      have hp := hs _ (List.mem_append.mpr (.inl hin))
      have hq := hs _ (List.mem_append.mpr (.inr hmem))
      have he : q = p := slashed_injective hq hp hpq
      subst he
      exact hout hmem

/-- A document whose mantles of the given names are all present under one tag. -/
def presentUnder (names : List String) (tag : Tag) : Json :=
  .obj [(Key.palabra, .num Double.one), (Key.mantles, .obj (names.map fun name =>
    (.ofBytes (lit name),
      .obj [(Key.present, orsetToJson (OrSet.empty.add tag (lit "1")))])))]

/-- A replica that made one mantle present. -/
def oneMantle : Replica where
  id := .ofLit "aaaaaaaaaaaaaaaa"
  issued := 1
  doc := presentUnder ["b"] (.ofLit "aaaaaaaaaaaaaaaa_1")

/-- A tag of the replica's own that it never minted is caught. -/
theorem merge_refuses_collision_iff_unknown :
    (Collides oneMantle (presentUnder ["b"] (.ofLit "aaaaaaaaaaaaaaaa_2")) →
        ∃ why, oneMantle.merge (presentUnder ["b"] (.ofLit "aaaaaaaaaaaaaaaa_2")) =
          (.identityCollision why, oneMantle)) ↔
      (Collides oneMantle (presentUnder ["b"] (.ofLit "aaaaaaaaaaaaaaaa_2")) →
        Caught oneMantle (presentUnder ["b"] (.ofLit "aaaaaaaaaaaaaaaa_2"))) :=
  merge_refuses_collision_iff (by decide +kernel)

/-- A tag that stands in two sets is compared in the last one only: the add in the set
that the replica did not make goes unseen, and the document is merged. -/
theorem merge_misses_collision :
    validate (presentUnder ["a", "b"] (.ofLit "aaaaaaaaaaaaaaaa_1")) = .ok () ∧
      Collides oneMantle (presentUnder ["a", "b"] (.ofLit "aaaaaaaaaaaaaaaa_1")) ∧
      (oneMantle.merge (presentUnder ["a", "b"] (.ofLit "aaaaaaaaaaaaaaaa_1"))).1 = .ok := by
  refine ⟨by decide +kernel, ⟨1, by decide, .inr ⟨[Key.mantles, .ofLit "a", Key.present], lit "1",
    ?_, ?_⟩⟩, by decide +kernel⟩
  · decide +kernel
  · decide +kernel

end VoidPalabra
