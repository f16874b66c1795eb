import VoidPalabra.Editor
import VoidPalabra.Facts

/-!
# What a store does to a document

A store replaces the set at one path and creates the maps above it. Nothing else of
the document changes: the new document has the facts of the old one, the maps on the
way, and what the new set adds to the old one.
-/

namespace VoidPalabra

/-! ### One level -/

theorem lookup_eraseMember {ms : List (CString × Json)} (hd : (ms.map Prod.fst).Nodup)
    (k j : CString) :
    Json.lookup j (eraseMember k ms) = if j = k then none else Json.lookup j ms := by
  induction ms with
  | nil => simp [eraseMember]
  | cons m ms ih =>
    obtain ⟨l, v⟩ := m
    rw [List.map_cons, List.nodup_cons] at hd
    rw [eraseMember]
    by_cases hl : l = k
    · subst hl
      rw [if_pos rfl, Json.lookup_cons]
      by_cases hj : j = l
      · subst hj
        rw [if_pos rfl]
        exact Json.lookup_eq_none_iff.mpr hd.1
      · rw [if_neg hj, if_neg (Ne.symm hj)]
    · rw [if_neg hl, Json.lookup_cons, Json.lookup_cons, ih hd.2]
      by_cases hj : l = j
      · subst hj
        rw [if_pos rfl, if_pos rfl, if_neg hl]
      · rw [if_neg hj, if_neg hj]

theorem eraseMember_sublist (k : CString) (ms : List (CString × Json)) :
    (eraseMember k ms).Sublist ms := by
  induction ms with
  | nil => exact List.Sublist.refl _
  | cons m ms ih =>
    obtain ⟨l, v⟩ := m
    rw [eraseMember]
    split
    · exact List.sublist_cons_self _ _
    · exact ih.cons_cons _

theorem lookup_changeMember (k j : CString) (f : Json → Json) (ms : List (CString × Json)) :
    Json.lookup j (changeMember k f ms) =
      if j = k then some (f ((Json.lookup k ms).getD (.obj []))) else Json.lookup j ms := by
  induction ms with
  | nil =>
    by_cases hj : j = k
    · subst hj
      simp [changeMember, Json.lookup_cons]
    · simp [changeMember, Json.lookup_cons, hj, Ne.symm hj]
  | cons m ms ih =>
    obtain ⟨l, v⟩ := m
    rw [changeMember]
    by_cases hl : l = k
    · subst hl
      rw [if_pos rfl, Json.lookup_cons, Json.lookup_cons, Json.lookup_cons, if_pos rfl]
      by_cases hj : j = l
      · subst hj
        rw [if_pos rfl, if_pos rfl]
        rfl
      · rw [if_neg hj, if_neg (Ne.symm hj), if_neg (Ne.symm hj)]
    · rw [if_neg hl, Json.lookup_cons, Json.lookup_cons, Json.lookup_cons, if_neg hl, ih]
      by_cases hj : l = j
      · subst hj
        rw [if_pos rfl, if_pos rfl, if_neg hl]
      · rw [if_neg hj, if_neg hj]

theorem changeMember_names (k : CString) (f : Json → Json) (ms : List (CString × Json)) :
    (changeMember k f ms).map Prod.fst =
      if k ∈ ms.map Prod.fst then ms.map Prod.fst else ms.map Prod.fst ++ [k] := by
  induction ms with
  | nil => rfl
  | cons m ms ih =>
    obtain ⟨l, v⟩ := m
    rw [changeMember]
    by_cases hl : l = k
    · subst hl
      simp
    · rw [if_neg hl, List.map_cons, ih]
      simp only [List.map_cons, List.mem_cons, Ne.symm hl, false_or]
      split <;> rfl

theorem names_nodup_concat {names : List CString} {k : CString} (hd : names.Nodup)
    (hk : k ∉ names) : (names ++ [k]).Nodup :=
  List.nodup_append'.mpr ⟨hd, List.nodup_singleton k, fun j hj hs => by
    rw [List.mem_singleton] at hs
    exact hk (hs ▸ hj)⟩

/-- A member deleted and added again at the end. -/
theorem lookup_replaced {ms : List (CString × Json)} (hd : (ms.map Prod.fst).Nodup) (k j : CString)
    (v : Json) :
    Json.lookup j (eraseMember k ms ++ [(k, v)]) = if j = k then some v else Json.lookup j ms := by
  rw [Json.lookup_append, lookup_eraseMember hd, Json.lookup_cons]
  by_cases hj : j = k
  · subst hj
    simp
  · rw [if_neg hj, if_neg (Ne.symm hj), if_neg hj]
    simp

/-- It is the only one of its name then. -/
theorem nodup_replaced {ms : List (CString × Json)} (hd : (ms.map Prod.fst).Nodup) (k : CString)
    (v : Json) : ((eraseMember k ms ++ [(k, v)]).map Prod.fst).Nodup := by
  rw [List.map_append]
  refine names_nodup_concat (hd.sublist ((eraseMember_sublist k ms).map Prod.fst)) ?_
  rw [← Json.lookup_eq_none_iff, lookup_eraseMember hd, if_pos rfl]

/-- A map that differs from a map of a shape in one member of that shape. -/
theorem everywhere_setMember {K : Path → Option Kind} {ms ms' : List (CString × Json)} {k : CString}
    {c : Json} (hK : K [] = some .map) (he : Everywhere K NodeShape (.obj ms))
    (hr : nodeRank (.obj ms) = 3) (hc : Everywhere (fun p => K (k :: p)) NodeShape c)
    (hd : (ms'.map Prod.fst).Nodup)
    (hl : ∀ j, Json.lookup j ms' = if j = k then some c else Json.lookup j ms) :
    Everywhere K NodeShape (.obj ms') ∧ nodeRank (.obj ms') = 3 ∧
      ∀ j q, cellAt (.obj ms') (j :: q) = if j = k then cellAt c q else cellAt (.obj ms) (j :: q) := by
  have hchild : ∀ j v, Json.lookup j ms' = some v → Everywhere (fun p => K (j :: p)) NodeShape v := by
    intro j v hv
    rw [hl] at hv
    split at hv
    · rename_i hj
      cases hv
      exact hj ▸ hc
    · exact ((everywhere_of_rank hr).mp he).2 j v hv
  have hr' : nodeRank (.obj ms') = 3 := by
    refine nodeRank_of_members fun m hm => ?_
    obtain ⟨kind, -, hs⟩ := hchild m.1 m.2 (Json.lookup_of_mem hd hm) [] m.2 rfl
    exact hs.notArray
  refine ⟨(everywhere_of_rank hr').mpr ⟨⟨.map, hK, hr', hd⟩, hchild⟩, hr', fun j q => ?_⟩
  rw [cellAt_cons hr', cellAt_cons hr, Json.get_obj, Json.get_obj, hl]
  split <;> rfl

/-! ### Paths of kinds -/

theorem setKind_append (rule : ValueRule) (p : Path) (x : CString) : setKind rule (p ++ [x]) = none := by
  simp [setKind]

theorem fieldsKind_append {allowed : CString → Bool} {rule : ValueRule} {p : Path} {x : CString}
    (h : (fieldsKind allowed rule (p ++ [x])).isSome = true) :
    fieldsKind allowed rule p = some .map := by
  cases p with
  | nil => rfl
  | cons y p =>
    simp only [List.cons_append, fieldsKind, setKind_append, ite_self, Option.isSome_none] at h
    cases h

theorem namedKind_append {below : Path → Option Kind} {p : Path} {x : CString}
    (hb : ∀ p, (below (p ++ [x])).isSome = true → below p = some .map)
    (h : (namedKind below (p ++ [x])).isSome = true) : namedKind below p = some .map := by
  cases p with
  | nil => rfl
  | cons y p =>
    simp only [List.cons_append, namedKind] at h ⊢
    split at h
    · cases h
    · rename_i hy
      rw [if_neg hy]
      exact hb p h

theorem runeKind_append {p : Path} {x : CString} (h : (runeKind (p ++ [x])).isSome = true) :
    runeKind p = some .map := by
  cases p with
  | nil => rfl
  | cons y p =>
    simp only [List.cons_append, runeKind, setKind_append] at h ⊢
    split at h
    · cases h
    · rename_i hy
      rw [if_neg hy]
      split at h
      · rename_i hf
        rw [if_pos hf]
        exact fieldsKind_append h
      · split at h <;> cases h

theorem mantleKind_append {p : Path} {x : CString} (h : (mantleKind (p ++ [x])).isSome = true) :
    mantleKind p = some .map := by
  cases p with
  | nil => rfl
  | cons y p =>
    simp only [List.cons_append, mantleKind, setKind_append] at h ⊢
    split at h
    · cases h
    · rename_i hy
      rw [if_neg hy]
      split at h
      · rename_i hf
        rw [if_pos hf]
        exact fieldsKind_append h
      · rename_i hf
        rw [if_neg hf]
        split at h
        · rename_i hr
          rw [if_pos hr]
          exact namedKind_append (fun _ => runeKind_append) h
        · split at h <;> cases h

theorem glyphKind_append {p : Path} {x : CString} (h : (glyphKind (p ++ [x])).isSome = true) :
    glyphKind p = some .map := by
  cases p with
  | nil => rfl
  | cons y p =>
    simp only [List.cons_append, glyphKind, setKind_append] at h ⊢
    split at h
    · cases h
    · rename_i hy
      rw [if_neg hy]
      split at h
      · rename_i hf
        rw [if_pos hf]
        exact fieldsKind_append h
      · cases h

/-- What stands above any node of a document is a map. -/
theorem kindOf_append {p : Path} {x : CString} (h : (kindOf (p ++ [x])).isSome = true) :
    kindOf p = some .map := by
  cases p with
  | nil => rfl
  | cons y p =>
    have hne : p ++ [x] ≠ [] := by simp
    simp only [List.cons_append, kindOf, hne, if_false] at h ⊢
    split at h
    · cases h
    · rename_i hy
      rw [if_neg hy]
      split at h
      · rename_i hm
        rw [if_pos hm]
        exact namedKind_append (fun _ => mantleKind_append) h
      · rename_i hm
        rw [if_neg hm]
        split at h
        · rename_i hg
          rw [if_pos hg]
          exact namedKind_append (fun _ => glyphKind_append) h
        · cases h

/-- What stands anywhere above a node of a document is a map. -/
theorem kindOf_prefix {q r : Path} (hr : r ≠ []) (h : (kindOf (q ++ r)).isSome = true) :
    kindOf q = some .map := by
  induction r using List.reverseRecOn with
  | nil => exact absurd rfl hr
  | append_singleton r x ih =>
    have hm : kindOf (q ++ r) = some .map := kindOf_append (by rwa [List.append_assoc])
    by_cases hr' : r = []
    · subst hr'
      rwa [List.append_nil] at hm
    · exact ih hr' (by rw [hm]; rfl)

/-! ### A whole path -/

theorem everywhere_emptyMap {K : Path → Option Kind} (hK : K [] = some .map) :
    Everywhere K NodeShape (.obj []) := by
  have hr : nodeRank (.obj []) = 3 := by decide
  refine (everywhere_of_rank hr).mpr ⟨⟨.map, hK, hr, List.nodup_nil⟩, fun x v hv => ?_⟩
  cases hv

theorem cellAt_emptyMap (k : CString) (q : Path) : cellAt (.obj []) (k :: q) = none := by
  rw [cellAt_cons (by decide)]
  rfl

theorem everywhere_orsetToJson {K : Path → Option Kind} {rule : ValueRule} {s : OrSet}
    (hK : K [] = some (.set rule)) (hs : s.Named) : Everywhere K NodeShape (orsetToJson s) := by
  have hr : nodeRank (orsetToJson s) ≠ 3 := by
    rw [nodeRank_orsetToJson]
    decide
  exact (everywhere_of_rank_ne hr).mpr ⟨_, hK, spelledOrset_orsetToJson hs⟩

/-- The cell at a path after a set was put at another one. -/
def putCell (p : Path) (s : OrSet) (old : Option Cell) (q : Path) : Option Cell :=
  if q = p then some (.set s) else if q <+: p then some .map else old

theorem cellAt_orsetToJson {s : OrSet} (hs : s.Named) (q : Path) :
    cellAt (orsetToJson s) q = if q = [] then some (.set s) else none := by
  cases q with
  | nil =>
    rw [cellAt_nil, cellOf_orsetToJson hs]
    rfl
  | cons k q =>
    rw [cellAt_cons_none]
    · rfl
    · rw [nodeRank_orsetToJson]
      decide

/-- Putting a set at the path of a set keeps the shape, and changes only the cell there
and the maps on the way. -/
theorem putAt_spec {s : OrSet} (hs : s.Named) {rule : ValueRule} (p : Path) :
    ∀ {K : Path → Option Kind} {n : Json}, p ≠ [] → K p = some (.set rule) →
      (∀ q r, r ≠ [] → q ++ r = p → K q = some .map) → Everywhere K NodeShape n →
      Everywhere K NodeShape (putAt p (orsetToJson s) n) ∧
        ∀ q, cellAt (putAt p (orsetToJson s) n) q = putCell p s (cellAt n q) q := by
  induction p with
  | nil => exact fun h => absurd rfl h
  | cons k p ih =>
    intro K n _ hp hpre he
    have hK : K [] = some .map := hpre [] (k :: p) (by simp) rfl
    obtain ⟨kind, hk, hsh⟩ := he [] n rfl
    rw [hK] at hk
    cases hk
    obtain ⟨hr, hd⟩ := hsh
    obtain ⟨ms, rfl⟩ := exists_members_of_rank hr
    replace hd : (ms.map Prod.fst).Nodup := hd
    by_cases hp0 : p = []
    · subst hp0
      obtain ⟨hev, hrank, hcell⟩ := everywhere_setMember hK he hr
        (everywhere_orsetToJson (K := fun p => K (k :: p)) hp hs) (nodup_replaced hd k _)
        fun j => lookup_replaced hd k j _
      refine ⟨hev, fun q => ?_⟩
      cases q with
      | nil =>
        change cellAt (.obj _) [] = _
        rw [cellAt_nil, cellOf_map hrank, putCell, if_neg (by simp), if_pos (List.nil_prefix)]
      | cons j q =>
        change cellAt (.obj _) (j :: q) = _
        rw [hcell, putCell]
        by_cases hj : j = k
        · subst hj
          rw [if_pos rfl, cellAt_orsetToJson hs]
          by_cases hq : q = []
          · subst hq
            simp
          · rw [if_neg hq, if_neg (by simpa using hq), if_neg (by simpa using hq)]
            cases hv : Json.lookup j ms with
            | none =>
              rw [cellAt_cons hr, Json.get_obj, hv]
              rfl
            | some v =>
              obtain ⟨kind, hkind, hsv⟩ := ((everywhere_of_rank hr).mp he).2 j v hv [] v rfl
              cases hkind.symm.trans hp
              have hrv : nodeRank v = 2 :=
                nodeRank_eq_two.mpr (isOrset_of_wellFormed (SpelledOrset.wellFormed hsv))
              obtain ⟨x, q, rfl⟩ := List.exists_cons_of_ne_nil hq
              rw [cellAt_cons hr, Json.get_obj, hv, Option.bind_some, cellAt_cons_none (by omega)]
        · rw [if_neg hj, if_neg (by simp [hj]), if_neg]
          simp [List.cons_prefix_cons, hj]
    · have hchild : Everywhere (fun q => K (k :: q)) NodeShape ((Json.lookup k ms).getD (.obj [])) := by
        cases hv : Json.lookup k ms with
        | none => exact everywhere_emptyMap (hpre [k] p hp0 rfl)
        | some v => exact ((everywhere_of_rank hr).mp he).2 k v hv
      obtain ⟨hev', hcell'⟩ := ih (K := fun q => K (k :: q)) hp0 hp
        (fun q r hr hq => hpre (k :: q) r hr (by rw [← hq]; rfl)) hchild
      have hput : putAt (k :: p) (orsetToJson s) (.obj ms) =
          .obj (changeMember k (putAt p (orsetToJson s)) ms) := by
        obtain ⟨x, p, rfl⟩ := List.exists_cons_of_ne_nil hp0
        rfl
      have hd' : ((changeMember k (putAt p (orsetToJson s)) ms).map Prod.fst).Nodup := by
        rw [changeMember_names]
        split
        · exact hd
        · rename_i hk
          exact names_nodup_concat hd hk
      obtain ⟨hev, hrank, hcell⟩ := everywhere_setMember hK he hr hev' hd'
        (fun j => lookup_changeMember k j _ ms)
      rw [hput]
      refine ⟨hev, fun q => ?_⟩
      cases q with
      | nil => rw [cellAt_nil, cellOf_map hrank, putCell, if_neg (by simp), if_pos (List.nil_prefix)]
      | cons j q =>
        rw [hcell]
        by_cases hj : j = k
        · subst hj
          rw [if_pos rfl, hcell', putCell, putCell, cellAt_cons hr, Json.get_obj]
          simp only [List.cons.injEq, true_and, List.cons_prefix_cons]
          by_cases hq : q = p
          · rw [if_pos hq, if_pos hq]
          · rw [if_neg hq, if_neg hq]
            by_cases hpq : q <+: p
            · rw [if_pos hpq, if_pos hpq]
            · rw [if_neg hpq, if_neg hpq]
              cases Json.lookup j ms with
              | none =>
                cases q with
                | nil => exact absurd List.nil_prefix hpq
                | cons x q => exact cellAt_emptyMap x q
              | some v => rfl
        · rw [if_neg hj, putCell, if_neg (by simp [hj]), if_neg]
          simp [List.cons_prefix_cons, hj]

/-! ### Sets and nodes of a document -/

/-- The path of a set of a document. -/
def IsSetPath (p : Path) : Prop := ∃ rule, kindOf p = some (.set rule)

theorem IsSetPath.ne_nil {p : Path} (h : IsSetPath p) : p ≠ [] := by
  rintro rfl
  obtain ⟨rule, hr⟩ := h
  cases hr

theorem IsSetPath.prefix_map {p q r : Path} (h : IsSetPath p) (hr : r ≠ []) (hq : q ++ r = p) :
    kindOf q = some .map := by
  obtain ⟨rule, hk⟩ := h
  exact kindOf_prefix hr (by rw [hq, hk]; rfl)

/-- A proper prefix of the path of a set is the path of a map. -/
theorem IsSetPath.map_of_prefix {p q : Path} (h : IsSetPath p) (hq : q <+: p) (hne : q ≠ p) :
    kindOf q = some .map := by
  obtain ⟨r, rfl⟩ := hq
  refine h.prefix_map (r := r) ?_ rfl
  rintro rfl
  simp at hne

/-- Where the kind is no set there is no set. -/
theorem setAt_of_kind {root : Json} (h : Shaped root) {p : Path} (hp : ¬IsSetPath p) :
    setAt root p = .empty := by
  cases hn : nodeAt root p with
  | none => exact setAt_eq_empty hn
  | some n =>
    obtain ⟨k, hk, hc⟩ := h.cellAt_eq hn
    cases k with
    | set rule => exact absurd ⟨rule, hk⟩ hp
    | map => exact setAt_of_cell (k := .map) hc
    | marker => exact setAt_of_cell (k := .marker) hc

/-- Following names and entering maps only are the same above a set. -/
theorem atPath_eq_nodeAt {K : Path → Option Kind} {n : Json} {p : Path}
    (hpre : ∀ q r, r ≠ [] → q ++ r = p → K q = some .map) (he : Everywhere K NodeShape n) :
    atPath n p = nodeAt n p := by
  induction p generalizing K n with
  | nil => rfl
  | cons k p ih =>
    have hK := hpre [] (k :: p) (by simp) rfl
    obtain ⟨kind, hk, hs⟩ := he [] n rfl
    cases hk.symm.trans hK
    rw [nodeAt_cons, if_pos hs.1]
    change p.foldl get (n.get k) = _
    cases hv : n.get k with
    | none =>
      clear ih hpre
      induction p with
      | nil => rfl
      | cons j p ihp => exact ihp
    | some v =>
      exact ih (fun q r hr hq => hpre (k :: q) r hr (by rw [← hq]; rfl))
        (((everywhere_of_rank hs.1).mp he).2 k v hv)

/-- What a load reads is the set at the path. -/
theorem orsetFromJson_atPath {root : Json} (h : Shaped root) {p : Path} (hp : IsSetPath p) :
    orsetFromJson (atPath root p) = setAt root p := by
  rw [atPath_eq_nodeAt (fun q r hr hq => hp.prefix_map hr hq) h.kinds]
  cases hn : nodeAt root p with
  | none => rw [setAt_eq_empty hn, orsetFromJson_none]
  | some n =>
    obtain ⟨rule, hk⟩ := hp
    obtain ⟨k, hk', hs⟩ := h.kinds p n hn
    cases hk.symm.trans hk'
    have hr : nodeRank n = 2 :=
      nodeRank_eq_two.mpr (isOrset_of_wellFormed (SpelledOrset.wellFormed hs))
    rw [setAt_of_nodeAt hn hr]

variable {root : Json} {p : Path} {s : OrSet}

theorem cellAt_putAt (h : Shaped root) (hp : IsSetPath p) (hs : s.Named) (q : Path) :
    cellAt (putAt p (orsetToJson s) root) q = putCell p s (cellAt root q) q := by
  obtain ⟨rule, hk⟩ := id hp
  exact (putAt_spec hs p hp.ne_nil hk (fun q r hr hq => hp.prefix_map hr hq) h.kinds).2 q

/-- The sets of a document after one of them was put. -/
theorem setAt_putAt (h : Shaped root) (hp : IsSetPath p) (hs : s.Named) (q : Path) :
    setAt (putAt p (orsetToJson s) root) q = if q = p then s else setAt root q := by
  rw [setAt, cellAt_putAt h hp hs, putCell]
  by_cases hq : q = p
  · rw [if_pos hq, if_pos hq]
  · rw [if_neg hq, if_neg hq]
    by_cases hpre : q <+: p
    · rw [if_pos hpre, setAt_of_kind h]
      rintro ⟨rule, hr⟩
      cases (hp.map_of_prefix hpre hq).symm.trans hr
    · rw [if_neg hpre]
      rfl

theorem hasNode_iff_cellAt {n : Json} {q : Path} : HasNode n q ↔ (cellAt n q).isSome = true := by
  rw [HasNode, cellAt, Option.isSome_map]

/-- The nodes of a document after a set was put. -/
theorem hasNode_putAt (h : Shaped root) (hp : IsSetPath p) (hs : s.Named) (q : Path) :
    HasNode (putAt p (orsetToJson s) root) q ↔ q <+: p ∨ HasNode root q := by
  rw [hasNode_iff_cellAt, hasNode_iff_cellAt, cellAt_putAt h hp hs, putCell]
  by_cases hq : q = p
  · subst hq
    simp
  · rw [if_neg hq]
    by_cases hpre : q <+: p
    · simp [hpre]
    · simp [hpre]

/-- Putting a set where a set belongs keeps the shape. -/
theorem Shaped.putAt (h : Shaped root) (hp : IsSetPath p) (hs : s.Named) :
    Shaped (putAt p (orsetToJson s) root) where
  kinds := by
    obtain ⟨rule, hk⟩ := id hp
    exact (putAt_spec hs p hp.ne_nil hk (fun q r hr hq => hp.prefix_map hr hq) h.kinds).1
  marker := by
    have hmark : kindOf [Key.palabra] = some .marker := by decide
    have hne : [Key.palabra] ≠ p := by
      rintro rfl
      obtain ⟨rule, hk⟩ := hp
      rw [hmark] at hk
      cases hk
    have hpre : ¬[Key.palabra] <+: p := by
      intro hpre
      have := hp.map_of_prefix hpre hne
      rw [hmark] at this
      cases this
    have hc := cellAt_putAt h hp hs [Key.palabra]
    rw [putCell, if_neg hne, if_neg hpre, cellAt_cons h.rank, h.marker, Option.bind_some,
      cellAt_nil, cellOf_leaf (n := .num Double.one) (nodeRank_eq_one.mpr rfl)] at hc
    have hr : nodeRank (VoidPalabra.putAt p (orsetToJson s) root) = 3 := by
      obtain ⟨rule, hk⟩ := id hp
      obtain ⟨kind, hk', hsh⟩ := (putAt_spec hs p hp.ne_nil hk
        (fun q r hr hq => hp.prefix_map hr hq) h.kinds).1 [] _ rfl
      cases hk'
      exact hsh.1
    rw [cellAt_cons hr] at hc
    cases hg : (VoidPalabra.putAt p (orsetToJson s) root).get Key.palabra with
    | none =>
      rw [hg] at hc
      cases hc
    | some m =>
      rw [hg, Option.bind_some, cellAt_nil] at hc
      have hc' := Option.some.inj hc
      have hrm : nodeRank m = 1 := by
        rw [← cellOf_rank, hc']
        rfl
      rw [cellOf_leaf hrm] at hc'
      cases hc'
      rfl

/-! ### The facts a store adds -/

/-- A set that keeps every add and every retired tag of another. -/
structure OrSet.Extends (before after : OrSet) : Prop where
  /-- Adds are kept. -/
  adds : ∀ (t : Tag) (v : Bytes), before.adds[t]? = some v → after.adds[t]? = some v
  /-- Retired tags are kept. -/
  removes : ∀ t ∈ before.removes, t ∈ after.removes

/-- What a document says after the set at a path was extended, and did not say before. -/
def changeFacts (p : Path) (before after : OrSet) : Set Fact := fun f =>
  match f with
  | .node q => q <+: p
  | .add q t v => q = p ∧ before.adds[t]? = none ∧ after.adds[t]? = some v
  | .retire q t => q = p ∧ t ∉ before.removes ∧ t ∈ after.removes

/-- The document says what it said, and what the new set adds. -/
theorem facts_putAt (h : Shaped root) (hp : IsSetPath p) (hs : s.Named)
    (hx : (setAt root p).Extends s) :
    facts (putAt p (orsetToJson s) root) = facts root ∪ changeFacts p (setAt root p) s := by
  ext f
  cases f with
  | node q => exact (hasNode_putAt h hp hs q).trans or_comm
  | add q t v =>
    rw [Set.mem_union, add_mem_facts, add_mem_facts, setAt_putAt h hp hs]
    change _ ↔ _ ∨ (q = p ∧ (setAt root p).adds[t]? = none ∧ s.adds[t]? = some v)
    by_cases hq : q = p
    · subst hq
      rw [if_pos rfl]
      constructor
      · intro hv
        cases ho : (setAt root q).adds[t]? with
        | none => exact .inr ⟨rfl, rfl, hv⟩
        | some w => exact .inl (by rw [← hv, hx.adds t w ho])
      · rintro (hv | ⟨-, -, hv⟩)
        · exact hx.adds t v hv
        · exact hv
    · rw [if_neg hq]
      simp [hq]
  | retire q t =>
    rw [Set.mem_union, retire_mem_facts, retire_mem_facts, setAt_putAt h hp hs]
    change _ ↔ _ ∨ (q = p ∧ t ∉ (setAt root p).removes ∧ t ∈ s.removes)
    by_cases hq : q = p
    · subst hq
      rw [if_pos rfl]
      constructor
      · intro ht
        by_cases ho : t ∈ (setAt root q).removes
        · exact .inl ho
        · exact .inr ⟨rfl, ho, ht⟩
      · rintro (ht | ⟨-, -, ht⟩)
        · exact hx.removes t ht
        · exact ht
    · rw [if_neg hq]
      simp [hq]

theorem OrSet.diff_adds (before after : OrSet) (t : Tag) :
    (before.diff after).adds[t]? = if before.adds[t]? = none then after.adds[t]? else none := by
  have hkeys : ((after.entries.filter fun kv => !before.adds.contains kv.1).map Prod.fst).Nodup :=
    (dict_keys_nodup after.adds).sublist (List.filter_sublist.map Prod.fst)
  refine Option.ext fun v => ?_
  rw [OrSet.diff, getElem?_ofList hkeys, List.mem_filter, OrSet.mem_entries, Bool.not_eq_true',
    Std.ExtTreeMap.contains_eq_isSome_getElem?]
  cases before.adds[t]? <;> simp

theorem OrSet.mem_diff_removes {before after : OrSet} {t : Tag} :
    t ∈ (before.diff after).removes ↔ t ∈ after.removes ∧ t ∉ before.removes := by
  rw [OrSet.diff, Std.ExtTreeSet.mem_ofList, List.contains_iff_mem, List.mem_filter,
    Std.ExtTreeSet.mem_toList, Bool.not_eq_true', ← Bool.not_eq_true, Std.ExtTreeSet.contains_iff_mem]

theorem OrSet.Named.diff {before after : OrSet} (h : after.Named) : (before.diff after).Named where
  adds := by
    intro t v hv
    rw [OrSet.diff_adds] at hv
    split at hv
    · exact h.adds t v hv
    · cases hv
  removes := by
    intro t ht
    exact h.removes t (OrSet.mem_diff_removes.mp ht).1

theorem OrSet.Extends.refl (s : OrSet) : s.Extends s := ⟨fun _ _ h => h, fun _ h => h⟩

/-- A recorded difference keeps what the delta had. -/
theorem extends_recorded {d before after : OrSet} (hd : d.Extends before) :
    d.Extends (d.join (before.diff after)) where
  adds := by
    intro t v hv
    rw [OrSet.join_adds, OrSet.diff_adds, if_neg (by rw [hd.adds t v hv]; simp), Option.none_or, hv]
  removes := fun t ht => OrSet.mem_join_removes.mpr (.inl ht)

/-- A recorded difference adds to the delta what the change adds to the document. -/
theorem changeFacts_recorded {d before after : OrSet} (hd : d.Extends before) :
    changeFacts p d (d.join (before.diff after)) = changeFacts p before after := by
  have hnone : ∀ t : Tag, before.adds[t]? = none → d.adds[t]? = none := by
    intro t ht
    cases hv : d.adds[t]? with
    | none => rfl
    | some v => rw [hd.adds t v hv] at ht; cases ht
  ext f
  cases f with
  | node q => exact Iff.rfl
  | add q t v =>
    change (q = p ∧ _ ∧ _) ↔ (q = p ∧ _ ∧ _)
    refine and_congr_right fun _ => ?_
    rw [OrSet.join_adds, OrSet.diff_adds]
    constructor
    · rintro ⟨hn, hv⟩
      rw [hn, Option.or_none] at hv
      split at hv
      · rename_i hb
        exact ⟨hb, hv⟩
      · cases hv
    · rintro ⟨hb, hv⟩
      rw [if_pos hb, hv]
      exact ⟨hnone t hb, rfl⟩
  | retire q t =>
    change (q = p ∧ _ ∧ _) ↔ (q = p ∧ _ ∧ _)
    refine and_congr_right fun _ => ?_
    rw [OrSet.mem_join_removes, OrSet.mem_diff_removes]
    constructor
    · rintro ⟨hn, hd' | ⟨ha, hb⟩⟩
      · exact absurd hd' hn
      · exact ⟨hb, ha⟩
    · rintro ⟨hb, ha⟩
      exact ⟨fun h => hb (hd.removes t h), .inr ⟨ha, hb⟩⟩

end VoidPalabra
