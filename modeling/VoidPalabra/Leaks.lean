import VoidPalabra.Export
import VoidPalabra.Raced
import VoidPalabra.Shown

/-!
# What the projection leaks

Of a refused mantle or rune the projection keeps the removal at most, and everything else
of what is allowed leaves unchanged. An edge is left out when it names something refused
by what it shows, so a name that a refused rune holds and does not show may leave.
-/

namespace VoidPalabra

/-! ### Looking into the projection -/

/-- A member of a list made member by member is found where it came from. -/
theorem lookup_flatMap_named {f : CString × Json → List (CString × Json)}
    (hf : ∀ m, ∀ x ∈ f m, x.1 = m.1) {ms : List (CString × Json)} (hd : (ms.map Prod.fst).Nodup)
    (k : CString) :
    Json.lookup k (ms.flatMap f) = (Json.lookup k ms).bind fun v => Json.lookup k (f (k, v)) := by
  induction ms with
  | nil => rfl
  | cons m ms ih =>
    obtain ⟨j, v⟩ := m
    rw [List.map_cons, List.nodup_cons] at hd
    rw [List.flatMap_cons, Json.lookup_append, ih hd.2, Json.lookup_cons]
    by_cases hj : j = k
    · subst hj
      have hnone : Json.lookup j ms = none := Json.lookup_eq_none_iff.mpr hd.1
      rw [hnone, if_pos rfl]
      simp
    · have hnone : Json.lookup k (f (j, v)) = none := by
        refine Json.lookup_eq_none_iff.mpr fun hk => ?_
        obtain ⟨x, hx, hxk⟩ := List.mem_map.mp hk
        exact hj ((hf (j, v) x hx).symm.trans hxk)
      rw [hnone, if_neg hj]
      simp

/-- A mantle of a document. -/
def mantleOf (d : Json) (m : CString) : Option Json := get (d.get Key.mantles) m

/-- A rune of a document. -/
def runeOf (d : Json) (m r : CString) : Option Json := get ((mantleOf d m).bind fun n => n.get Key.runes) r

/-- Of something that is refused, what leaves. -/
def removalOf (n : Option Json) : Option Json :=
  n.bind fun n => if wasRemoved n then some (removalOnly n) else none

section

variable {share : ExportSet} {policy : JoinPolicy}

theorem get_eq_lookup (n : Option Json) (k : CString) : get n k = Json.lookup k (childMembers n) := by
  cases n with
  | none => rfl
  | some v => cases v <;> rfl

theorem exportRune_name (own : CString) (r : CString × Json) : ∀ x ∈ exportRune share own r, x.1 = r.1 := by
  unfold exportRune
  split
  · simp
  · split <;> simp

theorem exportMantle_name (w : Withheld) (m : CString × Json) : ∀ x ∈ exportMantle share w m, x.1 = m.1 := by
  unfold exportMantle
  split
  · split <;> simp
  · simp

theorem mem_withhold_mantles (w : Withheld) (m : CString × Json) (k : CString) :
    k ∈ (withhold share policy w m).mantles ↔
      k ∈ w.mantles ∨ k = m.1 ∧ share.allowed m.1 .empty = false := by
  unfold withhold
  cases share.allowed m.1 .empty with
  | true => simp
  | false =>
    rw [Bool.not_false, if_pos rfl, Std.ExtTreeSet.mem_insert, Std.LawfulEqCmp.compare_eq_iff_eq]
    simp only [and_true]
    rw [or_comm, eq_comm]

/-- A name is withheld in a mantle. -/
def Withheld.Hides (w : Withheld) (k r : CString) : Prop := ∃ names, w.names[k]? = some names ∧ r ∈ names

theorem withhold_hides (w : Withheld) (m : CString × Json) (k r : CString) :
    (withhold share policy w m).Hides k r ↔
      w.Hides k r ∨ k = m.1 ∧ share.allowed m.1 .empty = true ∧ r ∈ withheldNames share policy m := by
  unfold withhold Withheld.Hides
  cases share.allowed m.1 .empty with
  | false => simp
  | true =>
    rw [Bool.not_true, if_neg (by simp)]
    dsimp only
    by_cases hk : m.1 = k
    · subst hk
      simp only [Std.ExtTreeMap.getElem?_insert_self, Option.some.injEq, exists_eq_left',
        Std.ExtTreeSet.mem_insertMany_list, true_and]
      refine or_congr ?_ (by simp)
      cases w.names[m.1]? with
      | none => simp
      | some names => simp
    · have hne : k ≠ m.1 := fun h => hk h.symm
      simp only [hne, false_and, or_false]
      rw [Std.ExtTreeMap.getElem?_insert, if_neg]
      rwa [Std.LawfulEqCmp.compare_eq_iff_eq]

/-- What the first pass learns of the mantles. -/
theorem mem_withheld_mantles {ms : List (CString × Json)} {k : CString} :
    k ∈ (withheld share policy ms).mantles ↔
      k ∈ ms.map Prod.fst ∧ share.allowed k .empty = false := by
  have hfold : ∀ w : Withheld, k ∈ (ms.foldl (withhold share policy) w).mantles ↔
      k ∈ w.mantles ∨ k ∈ ms.map Prod.fst ∧ share.allowed k .empty = false := by
    induction ms with
    | nil => simp
    | cons m ms ih =>
      intro w
      rw [List.foldl_cons, ih, mem_withhold_mantles, List.map_cons, List.mem_cons, or_and_right, or_assoc]
      refine or_congr_right (or_congr_left (and_congr_right ?_))
      rintro rfl
      rfl
  rw [withheld, hfold]
  simp

/-- What it learns of the names. -/
theorem withheld_hides {ms : List (CString × Json)} {k r : CString} :
    (withheld share policy ms).Hides k r ↔
      share.allowed k .empty = true ∧ ∃ n, (k, n) ∈ ms ∧ r ∈ withheldNames share policy (k, n) := by
  have hfold : ∀ w : Withheld, (ms.foldl (withhold share policy) w).Hides k r ↔
      w.Hides k r ∨ share.allowed k .empty = true ∧
        ∃ n, (k, n) ∈ ms ∧ r ∈ withheldNames share policy (k, n) := by
    induction ms with
    | nil => simp
    | cons m ms ih =>
      obtain ⟨j, v⟩ := m
      intro w
      rw [List.foldl_cons, ih, withhold_hides, or_assoc]
      refine or_congr_right ?_
      constructor
      · rintro (⟨rfl, ha, hr⟩ | ⟨ha, n, hn, hr⟩)
        · exact ⟨ha, v, List.mem_cons_self, hr⟩
        · exact ⟨ha, n, List.mem_cons_of_mem _ hn, hr⟩
      · rintro ⟨ha, n, hn, hr⟩
        rcases List.mem_cons.mp hn with he | hn
        · cases he
          exact .inl ⟨rfl, ha, hr⟩
        · exact .inr ⟨ha, n, hn, hr⟩
  rw [withheld, hfold, or_iff_right]
  rintro ⟨names, hn, -⟩
  simp at hn

theorem get_exportable_mantles (d : Json) : (exportable d share policy).get Key.mantles =
    some (.obj ((childMembers (d.get Key.mantles)).flatMap
      (exportMantle share (withheld share policy (childMembers (d.get Key.mantles)))))) := by
  rw [exportable, Json.get_obj, Json.lookup_append]
  rfl

theorem exportedMantle_present (w : Withheld) (m : CString) (n : Json) :
    (exportedMantle share w (m, n)).get Key.present = n.get Key.present := by
  simp +decide only [exportedMantle, Json.get_obj, Json.lookup_append, lookup_member, Json.lookup_cons,
    Json.lookup_nil, if_true, if_false, Option.or_none]

theorem exportedMantle_fields (w : Withheld) (m : CString) (n : Json) :
    (exportedMantle share w (m, n)).get Key.fields = n.get Key.fields := by
  simp +decide only [exportedMantle, Json.get_obj, Json.lookup_append, lookup_member, Json.lookup_cons,
    Json.lookup_nil, if_true, if_false, Option.or_none, Option.none_or]

theorem exportedMantle_runes (w : Withheld) (m : CString) (n : Json) :
    (exportedMantle share w (m, n)).get Key.runes =
      some (.obj ((childMembers (n.get Key.runes)).flatMap (exportRune share m))) := by
  simp +decide only [exportedMantle, Json.get_obj, Json.lookup_append, lookup_member, Json.lookup_cons,
    Json.lookup_nil, if_true, if_false, Option.or_none, Option.none_or]

theorem exportedMantle_edges (w : Withheld) (m : CString) (n : Json) :
    (exportedMantle share w (m, n)).get Key.edges = (n.get Key.edges).map fun edges =>
      orsetToJson (keptEdges w m (orsetFromJson (some edges))) := by
  simp +decide only [exportedMantle, Json.get_obj, Json.lookup_append, lookup_member, Json.lookup_cons,
    Json.lookup_nil, if_true, if_false, Option.or_none, Option.none_or]

/-- The edges of a mantle of the projection. -/
theorem orsetFromJson_keptEdges (w : Withheld) (m : CString) (edges : Option Json) :
    orsetFromJson (edges.map fun edges => orsetToJson (keptEdges w m (orsetFromJson (some edges)))) =
      keptEdges w m (orsetFromJson edges) := by
  cases edges with
  | none =>
    rw [Option.map_none, orsetFromJson_none]
    refine OrSet.ext_tags (fun t => ?_) fun t => Iff.rfl
    simp [keptEdges, OrSet.empty]
  | some edges =>
    rw [Option.map_some, orsetFromJson_orsetToJson]
    have h := named_orsetFromJson (some edges)
    refine ⟨fun t v hv => ?_, h.removes⟩
    rw [keptEdges, Std.ExtTreeMap.getElem?_filter', Option.filter_eq_some_iff] at hv
    exact h.adds t v hv.1

variable {d : Json} (hs : Shaped d)

include hs

theorem mantleOf_eq (m : CString) : mantleOf d m = nodeAt d [Key.mantles, m] := by
  rw [mantleOf, hs.get_of_nodeAt (p := []) rfl rfl, hs.get_node rfl]
  rfl

theorem nodup_mantles : ((childMembers (d.get Key.mantles)).map Prod.fst).Nodup := by
  rw [hs.get_of_nodeAt (p := []) rfl rfl]
  exact hs.namesAt_nodup rfl

theorem nodup_runes {m : CString} {n : Json} (hn : mantleOf d m = some n) :
    ((childMembers (n.get Key.runes)).map Prod.fst).Nodup := by
  rw [mantleOf_eq hs] at hn
  have hm := hs.name_ne_empty (p := [Key.mantles]) (k := m) namedAt_mantles hn
  rw [hs.get_of_nodeAt hn (atKind_mantle hm).mantle_thing.map]
  exact hs.namesAt_nodup ((atKind_mantle hm) [Key.runes])

/-- A mantle of the projection. -/
theorem mantleOf_exportable (m : CString) :
    mantleOf (exportable d share policy) m =
      if share.allowed m .empty = true then
        (mantleOf d m).map fun n =>
          exportedMantle share (withheld share policy (childMembers (d.get Key.mantles))) (m, n)
      else removalOf (mantleOf d m) := by
  rw [mantleOf, get_exportable_mantles, get_some, Json.get_obj,
    lookup_flatMap_named (exportMantle_name _) (nodup_mantles hs), ← get_eq_lookup, ← mantleOf]
  cases hn : mantleOf d m with
  | none => cases share.allowed m .empty <;> rfl
  | some n =>
    have hmem : m ∈ (childMembers (d.get Key.mantles)).map Prod.fst := by
      rw [mantleOf, get_eq_lookup] at hn
      exact List.mem_map.mpr ⟨_, Json.mem_of_lookup hn, rfl⟩
    have hiff := @mem_withheld_mantles share policy (childMembers (d.get Key.mantles)) m
    rw [and_iff_right hmem, Std.ExtTreeSet.mem_iff_contains] at hiff
    rw [Option.bind_some, exportMantle]
    cases ha : share.allowed m .empty with
    | true =>
      rw [if_neg (by rw [hiff, ha]; simp), if_pos rfl, Json.lookup_cons, if_pos rfl]
      rfl
    | false =>
      rw [if_pos (hiff.mpr ha), if_neg Bool.false_ne_true, removalOf, Option.bind_some]
      dsimp only
      cases wasRemoved n <;> simp [Json.lookup_cons]

/-- A rune of a mantle that may leave. -/
theorem runeOf_exportable {m : CString} (ha : share.allowed m .empty = true) (r : CString) :
    runeOf (exportable d share policy) m r =
      if share.allowed m r = true then runeOf d m r else removalOf (runeOf d m r) := by
  rw [runeOf, mantleOf_exportable hs, if_pos ha, runeOf]
  cases hn : mantleOf d m with
  | none => cases share.allowed m r <;> rfl
  | some n =>
    rw [Option.map_some, Option.bind_some, Option.bind_some, exportedMantle_runes, get_some, Json.get_obj,
      lookup_flatMap_named (exportRune_name m) (nodup_runes hs hn), ← get_eq_lookup]
    cases get (n.get Key.runes) r with
    | none => cases share.allowed m r <;> rfl
    | some rune =>
      rw [Option.bind_some, exportRune, removalOf, Option.bind_some]
      cases share.allowed m r with
      | true => simp [Json.lookup_cons]
      | false =>
        rw [if_neg Bool.false_ne_true, if_neg Bool.false_ne_true]
        dsimp only
        cases wasRemoved rune <;> simp [Json.lookup_cons]

end

/-! ### Names that are withheld -/

/-- A mantle that is refused. -/
def RefusedMantle (d : Json) (share : ExportSet) (m : CString) : Prop :=
  share.allowed m .empty = false ∧ (mantleOf d m).isSome = true

/-- A rune that is refused in a mantle that is not. -/
def RefusedRune (d : Json) (share : ExportSet) (m r : CString) (rune : Json) : Prop :=
  share.allowed m .empty = true ∧ share.allowed m r = false ∧ runeOf d m r = some rune

/-- A rune holds a name: it is a live value of the register of its name. -/
def HoldsName (rune : Json) (name : CString) : Prop :=
  ∃ v ∈ (liveOf (get (rune.get Key.fields) Key.spiritName)).values, decode v = some (.str name)

/-- An edge, in a mantle of its own, has an endpoint that stands for something. -/
def EdgeNames (own : CString) (edge : Bytes) (P : CString → CString → Prop) : Prop :=
  ∃ e, decode edge = some e ∧ ∃ end_ ∈ [.ofLit "from", .ofLit "to"], ∃ m r,
    endpointTarget own (e.get end_) = some (m, r) ∧ P m r

theorem EdgeNames.mono {own : CString} {edge : Bytes} {P Q : CString → CString → Prop}
    (h : EdgeNames own edge P) (hPQ : ∀ m r, P m r → Q m r) : EdgeNames own edge Q := by
  obtain ⟨e, he, k, hk, m, r, ht, hP⟩ := h
  exact ⟨e, he, k, hk, m, r, ht, hPQ m r hP⟩

theorem EdgeNames.or {own : CString} {edge : Bytes} {P Q : CString → CString → Prop}
    (h : EdgeNames own edge fun m r => P m r ∨ Q m r) : EdgeNames own edge P ∨ EdgeNames own edge Q := by
  obtain ⟨e, he, k, hk, m, r, ht, hP | hQ⟩ := h
  · exact .inl ⟨e, he, k, hk, m, r, ht, hP⟩
  · exact .inr ⟨e, he, k, hk, m, r, ht, hQ⟩

/-- A refused rune holds a name. -/
def HeldByRefused (d : Json) (share : ExportSet) (m name : CString) : Prop :=
  ∃ r rune, RefusedRune d share m r rune ∧ HoldsName rune name

/-- What refused things are named by. -/
def NameOfRefused (d : Json) (share : ExportSet) (m name : CString) : Prop :=
  RefusedMantle d share m ∨ HeldByRefused d share m name

/-- What the projection knows them by. -/
def ShownOfRefused (d : Json) (share : ExportSet) (policy : JoinPolicy) (m name : CString) : Prop :=
  RefusedMantle d share m ∨ ∃ r rune, RefusedRune d share m r rune ∧ shownName rune policy = name

section

variable {share : ExportSet} {policy : JoinPolicy} {d : Json} (hs : Shaped d)

include hs

theorem mem_mantles_iff {m : CString} {n : Json} :
    (m, n) ∈ childMembers (d.get Key.mantles) ↔ mantleOf d m = some n := by
  rw [mantleOf, get_eq_lookup]
  exact ⟨fun h => Json.lookup_of_mem (nodup_mantles hs) h, Json.mem_of_lookup⟩

/-- An edge is left out when it names something refused by what that shows. -/
theorem leaks_iff {own : CString} {edge : Bytes} :
    leaks (withheld share policy (childMembers (d.get Key.mantles))) own edge = true ↔
      EdgeNames own edge (ShownOfRefused d share policy) := by
  have htarget : ∀ endpoint, namesWithheld endpoint own
      (withheld share policy (childMembers (d.get Key.mantles))) = true ↔
        ∃ m r, endpointTarget own endpoint = some (m, r) ∧ ShownOfRefused d share policy m r := by
    intro endpoint
    unfold namesWithheld
    cases endpointTarget own endpoint with
    | none => simp
    | some t =>
      obtain ⟨m, r⟩ := t
      have hm : Std.ExtTreeSet.contains (withheld share policy (childMembers (d.get Key.mantles))).mantles m =
          true ↔ RefusedMantle d share m := by
        rw [← Std.ExtTreeSet.mem_iff_contains, mem_withheld_mantles, RefusedMantle, and_comm, List.mem_map,
          Option.isSome_iff_exists]
        refine and_congr_right fun _ => ?_
        constructor
        · rintro ⟨⟨k, n⟩, hk, rfl⟩
          exact ⟨n, (mem_mantles_iff hs).mp hk⟩
        · rintro ⟨n, hn⟩
          exact ⟨(m, n), (mem_mantles_iff hs).mpr hn, rfl⟩
      have hr : (((withheld share policy (childMembers (d.get Key.mantles))).names[m]?).any
          fun names => names.contains r) = true ↔
            ∃ k rune, RefusedRune d share m k rune ∧ shownName rune policy = r := by
        have hh := @withheld_hides share policy (childMembers (d.get Key.mantles)) m r
        have hany : (((withheld share policy (childMembers (d.get Key.mantles))).names[m]?).any
            fun names => names.contains r) = true ↔
              (withheld share policy (childMembers (d.get Key.mantles))).Hides m r := by
          unfold Withheld.Hides
          cases (withheld share policy (childMembers (d.get Key.mantles))).names[m]? with
          | none => simp
          | some names => simp
        have hnames : ∀ n, mantleOf d m = some n → (r ∈ withheldNames share policy (m, n) ↔
            ∃ k rune, (share.allowed m k = false ∧ runeOf d m k = some rune) ∧ shownName rune policy = r) := by
          intro n hn
          have hrune : ∀ k rune, (k, rune) ∈ childMembers (n.get Key.runes) ↔ runeOf d m k = some rune := by
            intro k rune
            rw [runeOf, hn, Option.bind_some, get_eq_lookup]
            exact ⟨fun h => Json.lookup_of_mem (nodup_runes hs hn) h, Json.mem_of_lookup⟩
          rw [withheldNames, List.mem_map]
          constructor
          · rintro ⟨⟨k, rune⟩, hk, rfl⟩
            obtain ⟨hk, ha⟩ := List.mem_filter.mp hk
            exact ⟨k, rune, ⟨by simpa using ha, (hrune k rune).mp hk⟩, rfl⟩
          · rintro ⟨k, rune, ⟨ha, hk⟩, rfl⟩
            exact ⟨(k, rune), List.mem_filter.mpr ⟨(hrune k rune).mpr hk, by simp [ha]⟩, rfl⟩
        rw [hany, hh]
        constructor
        · rintro ⟨ha, n, hn, hr⟩
          obtain ⟨k, rune, hk, hr⟩ := (hnames n ((mem_mantles_iff hs).mp hn)).mp hr
          exact ⟨k, rune, ⟨ha, hk⟩, hr⟩
        · rintro ⟨k, rune, ⟨ha, hk⟩, hr⟩
          have hn := hk.2
          rw [runeOf] at hn
          obtain ⟨x, hx, -⟩ := Option.bind_eq_some_iff.mp hn
          obtain ⟨n, hn, -⟩ := Option.bind_eq_some_iff.mp hx
          exact ⟨ha, n, (mem_mantles_iff hs).mpr hn, (hnames n hn).mpr ⟨k, rune, hk, hr⟩⟩
      rw [Bool.or_eq_true, hm, hr]
      simp [ShownOfRefused]
  unfold leaks EdgeNames
  cases decode edge with
  | none => simp
  | some e =>
    rw [Bool.or_eq_true, htarget, htarget]
    simp

end

/-- Of a document, the projection has no refused mantle or rune but those that were
removed, and of these the removal only; what is allowed leaves as it is. No edge that
leaves names a refused mantle or a name that a refused rune holds, exactly when every edge
that names one that is not shown names one that is. -/
theorem exportable_leak_free_iff {d : Json} (valid : validate d = .ok ()) (share : ExportSet)
    (policy : JoinPolicy) :
    (∀ m, share.allowed m .empty = false →
      mantleOf (exportable d share policy) m = removalOf (mantleOf d m)) ∧
    (∀ m r, share.allowed m .empty = true → share.allowed m r = false →
      runeOf (exportable d share policy) m r = removalOf (runeOf d m r)) ∧
    (∀ m n, share.allowed m .empty = true → mantleOf d m = some n →
      ∃ n', mantleOf (exportable d share policy) m = some n' ∧
        n'.get Key.present = n.get Key.present ∧ n'.get Key.fields = n.get Key.fields ∧
        ∀ r, share.allowed m r = true → get (n'.get Key.runes) r = get (n.get Key.runes) r) ∧
    ((∀ (m : CString) (n' : Json) (t : Tag) (v : Bytes),
        mantleOf (exportable d share policy) m = some n' →
        (orsetFromJson (n'.get Key.edges)).adds[t]? = some v →
        ¬EdgeNames m v (NameOfRefused d share)) ↔
      ∀ (m : CString) (n : Json) (t : Tag) (v : Bytes), share.allowed m .empty = true →
        mantleOf d m = some n → (orsetFromJson (n.get Key.edges)).adds[t]? = some v →
        EdgeNames m v (HeldByRefused d share) → EdgeNames m v (ShownOfRefused d share policy)) := by
  have hs := (validate_iff.mp valid).1
  refine ⟨fun m ha => ?_, fun m r ha hr => ?_, fun m n ha hn => ?_, ?_⟩
  · rw [mantleOf_exportable hs, if_neg (by simp [ha])]
  · rw [runeOf_exportable hs ha, if_neg (by simp [hr])]
  · refine ⟨_, by rw [mantleOf_exportable hs, if_pos ha, hn, Option.map_some],
      exportedMantle_present .., exportedMantle_fields .., fun r hr => ?_⟩
    have h := @runeOf_exportable share policy d hs m ha r
    rw [if_pos hr, runeOf, runeOf, mantleOf_exportable hs, if_pos ha, hn] at h
    exact h
  · have hkept : ∀ (m : CString) (t : Tag) (v : Bytes),
        (∃ n', mantleOf (exportable d share policy) m = some n' ∧
          (orsetFromJson (n'.get Key.edges)).adds[t]? = some v) ↔
        ∃ n, share.allowed m .empty = true ∧ mantleOf d m = some n ∧
          (orsetFromJson (n.get Key.edges)).adds[t]? = some v ∧
          ¬EdgeNames m v (ShownOfRefused d share policy) := by
      intro m t v
      rw [mantleOf_exportable hs]
      cases ha : share.allowed m .empty with
      | false =>
        refine iff_of_false ?_ fun ⟨_, h, _⟩ => (nomatch h)
        rintro ⟨n', hn', hv⟩
        rw [if_neg Bool.false_ne_true, removalOf] at hn'
        obtain ⟨n, -, hn'⟩ := Option.bind_eq_some_iff.mp hn'
        split at hn'
        · cases hn'
          rw [removalOnly, Json.get_obj, lookup_member, if_neg (by decide), orsetFromJson_none] at hv
          cases hv
        · cases hn'
      | true =>
        rw [if_pos rfl]
        cases mantleOf d m with
        | none => simp
        | some n =>
          simp only [Option.map_some, Option.some.injEq, exists_eq_left', true_and]
          rw [exportedMantle_edges, orsetFromJson_keptEdges, keptEdges, Std.ExtTreeMap.getElem?_filter',
            Option.filter_eq_some_iff, Bool.not_eq_true', ← Bool.not_eq_true, leaks_iff hs]
    constructor
    · intro h m n t v ha hn hv hheld
      by_contra hshown
      obtain ⟨n', hn', hv'⟩ := (hkept m t v).mpr ⟨n, ha, hn, hv, hshown⟩
      refine h m n' t v hn' hv' (hheld.mono fun m r => .inr)
    · intro h m n' t v hn' hv' hnames
      obtain ⟨n, ha, hn, hv, hshown⟩ := (hkept m t v).mp ⟨n', hn', hv'⟩
      rcases hnames.or with hm | hheld
      · exact hshown (hm.mono fun m r => .inl)
      · exact hshown (h m n t v ha hn hv hheld)

/-! ### A name that is not shown -/

/-- A set with the given values, each under a tag of its own. -/
def setOf (values : List (CString × Json)) : Json :=
  orsetToJson ⟨Std.ExtTreeMap.ofList (values.map fun v => (v.1, form v.2)) compare, ∅⟩

/-- An edge between two runes of a mantle. -/
def edgeBetween (source target : CString) : Json :=
  .obj [(.ofLit "from", .str source), (.ofLit "to", .str target)]

/-- A rune that is called `a` and `b` at once. -/
def twoNames : Json :=
  .obj [(Key.fields, .obj [(Key.spiritName,
    setOf [(.ofLit "x_1", .str (.ofLit "a")), (.ofLit "y_1", .str (.ofLit "b"))])])]

/-- A mantle with the rune and an edge that calls it `b`. -/
def twoNamesDoc : Json :=
  .obj [(Key.palabra, .num Double.one), (Key.mantles, .obj [(.ofLit "m", .obj [
    (Key.runes, .obj [(.ofLit "r", twoNames)]),
    (Key.edges, setOf [(.ofLit "x_2", edgeBetween (.ofLit "b") (.ofLit "c"))])])])]

/-- The mantle may leave and its rune may not. -/
def runesRefused : ExportSet := some fun _ r => r.isEmpty

theorem validate_twoNamesDoc : validate twoNamesDoc = .ok () := by decide +kernel

/-- The edge leaves, and names a rune that may not. -/
theorem edge_leaks : validate twoNamesDoc = .ok () ∧
    ∃ (n' : Json) (t : Tag) (v : Bytes),
      mantleOf (exportable twoNamesDoc runesRefused {}) (.ofLit "m") = some n' ∧
      (orsetFromJson (n'.get Key.edges)).adds[t]? = some v ∧
      EdgeNames (.ofLit "m") v (NameOfRefused twoNamesDoc runesRefused) := by
  have hout : (orsetFromJson ((mantleOf (exportable twoNamesDoc runesRefused {}) (.ofLit "m")).bind
      fun n => n.get Key.edges)).adds[(.ofLit "x_2" : Tag)]? =
        some (form (edgeBetween (.ofLit "b") (.ofLit "c"))) := by
    decide +kernel
  have hedge : ((decode (form (edgeBetween (.ofLit "b") (.ofLit "c")))).bind fun e =>
      endpointTarget (.ofLit "m") (e.get (.ofLit "from"))) = some (.ofLit "m", .ofLit "b") := by
    decide +kernel
  have hname : form (.str (.ofLit "b")) ∈
      (liveOf (get (twoNames.get Key.fields) Key.spiritName)).values ∧
        (decode (form (.str (.ofLit "b")))).bind Json.string? = some (.ofLit "b") := by
    decide +kernel
  have hheld : HoldsName twoNames (.ofLit "b") := by
    obtain ⟨j, hj, hs⟩ := Option.bind_eq_some_iff.mp hname.2
    cases j with
    | str s =>
      cases hs
      exact ⟨_, hname.1, hj⟩
    | _ => cases hs
  obtain ⟨e, he, htarget⟩ := Option.bind_eq_some_iff.mp hedge
  refine ⟨validate_twoNamesDoc, ?_⟩
  cases hn : mantleOf (exportable twoNamesDoc runesRefused {}) (.ofLit "m") with
  | none =>
    rw [hn] at hout
    cases hout
  | some n' =>
    rw [hn] at hout
    exact ⟨n', _, _, rfl, hout, e, he, _, List.mem_cons_self, .ofLit "m", .ofLit "b", htarget,
      .inr ⟨.ofLit "r", twoNames, ⟨rfl, rfl, rfl⟩, hheld⟩⟩

theorem exportable_leak_free_iff_twoNamesDoc :
    runeOf (exportable twoNamesDoc runesRefused {}) (.ofLit "m") (.ofLit "r") = none := by
  have h := (exportable_leak_free_iff validate_twoNamesDoc runesRefused {}).2.1 (.ofLit "m") (.ofLit "r")
    rfl rfl
  rw [h]
  rfl

end VoidPalabra
