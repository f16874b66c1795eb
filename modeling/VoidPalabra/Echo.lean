import VoidPalabra.Carried
import VoidPalabra.Honest

/-!
# What is shown, said back

A host that hands back what it is shown says nothing, unless something that is shown is not in the document
as an observation would put it there: a register without a value is shown as `null`, an empty list counts as
no list, and a declaration is shown whatever the policy says of it. Each step of an observation is followed
with the condition under which it leaves everything as it is.
-/

namespace VoidPalabra

/-! ### What an observation would have told -/

/-- The canonical form of an empty list. -/
def emptyList : Bytes := form (.arr [])

/-- A rune as an observation leaves it: what is written in any case has a value, and no empty list is. -/
structure RuneTold (root : Json) (policy : JoinPolicy) (base : Path) : Prop where
  /-- The name of its spirit. -/
  name : (registerAt root policy base Key.spiritName).values ≠ []
  /-- Its glyph. -/
  glyph : (registerAt root policy base Key.glyph).values ≠ []
  /-- Its facets. -/
  facets : ∀ k ∈ kFacets, (registerAt root policy base (Key.facetsDot ++ k)).values ≠ []
  /-- Its placement. -/
  placement : (registerAt root policy base Key.placement).values ≠ []
  /-- Its relations. -/
  relations : (registerAt root policy base Key.relations).values.head? ≠ some emptyList

/-- A mantle as an observation leaves it, with the runes that are shown. -/
structure MantleTold (root : Json) (policy : JoinPolicy) (base : Path) : Prop where
  /-- Its identity. -/
  id : (registerAt root policy base Key.id).values ≠ []
  /-- Its domain. -/
  domain : (registerAt root policy base Key.domain).values ≠ []
  /-- Its rules. -/
  rules : (registerAt root policy base Key.rules).values.head? ≠ some emptyList
  /-- Its runes. -/
  runes : ∀ r ∈ shownNames root (base ++ [Key.runes]), RuneTold root policy (base ++ [Key.runes, r])

/-- A declaration as an observation leaves it: the policy shows what is shown, and no `source`. -/
def GlyphTold (root : Json) (policy : JoinPolicy) (base : Path) : Prop :=
  ∃ v j, (setAt root (base ++ [Key.fields, Key.descriptor])).values.head? = some v ∧ decode v = some j ∧
    (registerAt root policy base Key.descriptor).values.head? = some (form (declared j))

/-- A document as an observation leaves it. -/
structure Told (root : Json) (policy : JoinPolicy) : Prop where
  /-- The mantles that are shown. -/
  mantles : ∀ m ∈ shownNames root [Key.mantles], MantleTold root policy [Key.mantles, m]
  /-- The declarations that are shown. -/
  glyphs : ∀ g ∈ shownNames root [Key.glyphs], GlyphTold root policy [Key.glyphs, g]

/-! ### Steps that do nothing -/

/-- Whatever a step does, the log only grows. -/
abbrev Appends {α : Type} (m : EditM α) : Prop := Logs (fun _ => True) m

theorem Logs.grows {S : Path → Prop} {α : Type} {m : EditM α} (h : Logs S m) : Appends m :=
  h.mono fun _ _ => trivial

/-- A step that never fails, and that does nothing at all exactly under a condition. -/
structure Idle (m : EditM Unit) (e : Editor) (P : Prop) : Prop where
  /-- It does nothing. -/
  still : P → m e = (.ok (), e)
  /-- And nothing else does nothing. -/
  told : (m e).2.log = e.log → P
  /-- What it stores is logged. -/
  grows : Appends m
  /-- It succeeds. -/
  succeeds : ∀ e, (m e).1 = .ok ()

theorem Decides.succeeds {m : EditM Unit} (h : Decides m True) (e : Editor) : (m e).1 = .ok () :=
  ((h.iff e).mpr trivial).elim fun _ hx => hx

section

variable {e : Editor} {P Q : Prop}

theorem Idle.congr {m : EditM Unit} (h : Idle m e P) (hPQ : P ↔ Q) : Idle m e Q :=
  ⟨fun hq => h.still (hPQ.mpr hq), fun hlog => hPQ.mp (h.told hlog), h.grows, h.succeeds⟩

theorem idle_pure : Idle (pure ()) e True := ⟨fun _ => rfl, fun _ => trivial, logs_pure (), fun _ => rfl⟩

/-- One step after another. -/
theorem Idle.bind {x y : EditM Unit} (hx : Idle x e P) (hy : Idle y e Q) :
    Idle (x >>= fun _ => y) e (P ∧ Q) := by
  have hrun : ∀ e, (x >>= fun _ => y) e = y (x e).2 := by
    intro e
    rw [EditM.bind_apply, show x e = (.ok (), (x e).2) from Prod.ext (hx.succeeds e) rfl]
  refine ⟨fun ⟨hp, hq⟩ => ?_, fun hlog => ?_, hx.grows.bind fun _ => hy.grows, fun e => ?_⟩
  · rw [hrun, hx.still hp]
    exact hy.still hq
  · obtain ⟨l, hl, -⟩ := hx.grows e
    obtain ⟨l', hl', -⟩ := hy.grows (x e).2
    rw [hrun] at hlog
    have hall : e.log ++ (l ++ l') = e.log := by
      rw [← List.append_assoc, ← hl, ← hl', hlog]
    have hnil : l = [] := (List.append_eq_nil_iff.mp (List.append_right_eq_self.mp hall)).1
    have hp : P := hx.told (by rw [hl, hnil, List.append_nil])
    rw [hx.still hp] at hlog
    exact ⟨hp, hy.told hlog⟩
  · rw [hrun]
    exact hy.succeeds _

/-- A loop of steps. -/
theorem idle_each {α : Type} {f : α → EditM Unit} {xs : List α} {P : α → Prop}
    (h : ∀ x ∈ xs, Idle (f x) e (P x)) : Idle (EditM.each f xs) e (∀ x ∈ xs, P x) := by
  induction xs with
  | nil => exact idle_pure.congr (by simp)
  | cons x xs ih =>
    have hrest := ih fun y hy => h y (List.mem_cons_of_mem _ hy)
    exact ((h x List.mem_cons_self).bind hrest).congr List.forall_mem_cons.symm

/-- A step that is run on what a computation returns. -/
theorem idle_lift_bind {α : Type} {x : Except CanonicalError α} {v : α} {f : α → EditM Unit} (hx : x = .ok v)
    (h : Idle (f v) e P) : Idle (EditM.lift x >>= f) e P := by
  subst hx
  exact ⟨h.still, h.told, h.grows, h.succeeds⟩

/-- A step that first looks at the editor. -/
theorem idle_current_bind {f : Editor → EditM Unit} (h : Idle (f e) e P) (g : ∀ e, Appends (f e))
    (s : ∀ e, (f e e).1 = .ok ()) : Idle (EditM.current >>= f) e P :=
  ⟨h.still, h.told, logs_current_bind g, s⟩

end

/-! ### The operations of the editor -/

theorem log_store_of_ne (e : Editor) (p : Path) {before after : OrSet} (intent : Intent) (h : before ≠ after) :
    (e.store p before after intent).log ≠ e.log := by
  rw [Editor.store, if_neg h]
  exact fun he => absurd (List.append_right_eq_self.mp he) (List.cons_ne_nil _ _)

theorem hasNode_of_shownAt {root : Json} {base : Path} (hs : shownAt root base = true) : HasNode root base := by
  by_contra hnone
  rw [shownAt, setAt_of_not_hasNode fun hn => hnone (hasNode_of_append hn)] at hs
  exact absurd hs (by decide)

theorem OrSet.ne_of_adds {s s' : OrSet} (t : Tag) (h : s.adds[t]? ≠ s'.adds[t]?) : s ≠ s' :=
  fun he => h (by rw [he])

section

variable {a : Author} {d₀ : Json} {i₀ : ℕ} {e : Editor} (h : Inv a d₀ i₀ e) {p : Path}

include h

theorem Inv.resolve_node (hp : IsSetPath p) (how : FieldJoin) :
    resolve (e.node p) how = (setAt e.work p).resolve how := by
  rw [← h.load hp]
  rfl

/-- A register is not written when it shows the value. -/
theorem idle_syncRegister_some (hp : IsSetPath p) (field : CString) (v : Bytes) :
    Idle (syncRegister a p field (some v)) e
      (((setAt e.work p).resolve (a.policy.lookup field.bytes)).values.head? = some v) := by
  refine ⟨fun hv => ?_, fun hlog => ?_, (logs_syncRegister p field _).grows,
    (decides_syncRegister p field _).succeeds⟩
  · rw [syncRegister_some, h.resolve_node hp, if_pos hv]
  · by_contra hv
    rw [syncRegister_some, h.resolve_node hp, if_neg hv, h.load hp] at hlog
    refine log_store_of_ne { e with issued := e.issued + 1 } p .overwrite ?_ hlog
    refine OrSet.ne_of_adds (mintTag a.id (e.issued + 1)) ?_
    rw [h.fresh_tag p (Nat.lt_succ_self _), OrSet.write_adds, if_pos rfl]
    exact fun he => nomatch he

/-- A register is not cleared when it shows nothing. -/
theorem idle_syncRegister_none (hp : IsSetPath p) (field : CString) :
    Idle (syncRegister a p field none) e ((setAt e.work p).values = []) := by
  have hempty : (resolve (e.node p) (a.policy.lookup field.bytes)).values.isEmpty = true ↔
      (setAt e.work p).values = [] := by
    rw [h.resolve_node hp, List.isEmpty_iff, OrSet.resolve_values_eq_nil]
  refine ⟨fun hv => ?_, fun hlog => ?_, (logs_syncRegister p field _).grows,
    (decides_syncRegister p field _).succeeds⟩
  · rw [syncRegister_none, if_pos (hempty.mpr hv)]
  · by_contra hv
    rw [syncRegister_none, if_neg fun he => hv (hempty.mp he), h.load hp] at hlog
    refine log_store_of_ne e p .clear (fun he => hv ?_) hlog
    refine OrSet.values_eq_nil_iff.mpr fun t v hl => hl.2 ?_
    rw [he]
    exact OrSet.mem_removeAll.mpr (.inr ⟨v, hl.1⟩)

/-- A thing that is present is not made so. -/
theorem idle_makePresent (hp : IsSetPath (p ++ [Key.present])) (value : Bytes) :
    Idle (makePresent a p value) e (shownAt e.work p = true) := by
  have hempty : (e.load (p ++ [Key.present])).values.isEmpty = true ↔ ¬shownAt e.work p = true := by
    rw [h.load hp, shownAt, OrSet.isEmpty]
    simp
  refine ⟨fun hs => ?_, fun hlog => ?_, (logs_makePresent p value).grows,
    (decides_makePresent p value).succeeds⟩
  · rw [makePresent_apply, if_neg fun he => hempty.mp he hs]
  · by_contra hs
    rw [makePresent_apply, if_pos (hempty.mpr hs), h.load hp] at hlog
    refine log_store_of_ne { e with issued := e.issued + 1 } _ .add ?_ hlog
    refine OrSet.ne_of_adds (mintTag a.id (e.issued + 1)) ?_
    rw [h.fresh_tag _ (Nat.lt_succ_self _), OrSet.add_adds, if_pos rfl]
    intro he
    cases he

/-- A thing that is present does not go without a store. -/
theorem idle_removeThing (hp : IsSetPath (p ++ [Key.present])) (hs : shownAt e.work p = true) :
    Idle (removeThing p false) e False := by
  refine ⟨False.elim, fun hlog => ?_, (logs_removeThing p false).grows,
    (decides_removeThing p false).succeeds⟩
  have hlive : (setAt e.work (p ++ [Key.present])).values ≠ [] := by
    rw [shownAt, OrSet.isEmpty] at hs
    simpa using hs
  obtain ⟨t, v, hl⟩ : ∃ t v, (setAt e.work (p ++ [Key.present])).IsLive t v := by
    by_contra hnone
    exact hlive (OrSet.values_eq_nil_iff.mpr fun t v hl => hnone ⟨t, v, hl⟩)
  obtain ⟨n, hn⟩ : ∃ n, e.node p = some n := by
    rw [h.node hp]
    refine Option.ne_none_iff_exists'.mp fun hnone => ?_
    rw [setAt_eq_empty (nodeAt_none_append hnone _)] at hl
    exact OrSet.values_eq_nil_iff.mp OrSet.values_empty t v hl
  rw [removeThing_apply, hn, h.load hp] at hlog
  dsimp only at hlog
  rw [if_neg (by simpa using hlive)] at hlog
  refine log_store_of_ne e _ .clear (fun he => hl.2 ?_) hlog
  rw [he, Std.ExtTreeSet.mem_insertMany_list]
  exact .inl (OrSet.mem_removeAll.mpr (.inr ⟨v, hl.1⟩))

theorem Inv.live_eq (hp : IsSetPath (p ++ [Key.present])) : e.live p = shownAt e.work p := by
  rw [Editor.live, h.load hp]
  rfl

/-- What goes at the end of a level is what is shown and not among the observed. -/
theorem Inv.mem_gone {base : Path} (hb : NamedAt base) (observed : CString → Bool) {k : CString} :
    k ∈ ((childMembers (e.node base)).filter fun m =>
      !observed m.1 && e.live (base ++ [m.1])).map Prod.fst ↔
        shownAt e.work (base ++ [k]) = true ∧ observed k = false := by
  have hpresent : ∀ k, HasNode e.work (base ++ [k]) → IsSetPath (base ++ [k] ++ [Key.present]) := fun k hk =>
    hb.present k (hb.named k (h.work.kindOf_isSome hk))
  rw [h.node_map hb.map, List.mem_map]
  constructor
  · rintro ⟨m, hm, rfl⟩
    obtain ⟨hm, hcond⟩ := List.mem_filter.mp hm
    have hnode := (h.work.mem_childMembers hb.map).mp hm
    have hset := hpresent m.1 (by rw [HasNode, hnode]; rfl)
    rw [Bool.and_eq_true, Bool.not_eq_true', h.live_eq hset] at hcond
    exact ⟨hcond.2, hcond.1⟩
  · rintro ⟨hs, hk⟩
    obtain ⟨n, hn⟩ := Option.isSome_iff_exists.mp (hasNode_of_shownAt hs)
    have hset := hpresent k (by rw [HasNode, hn]; rfl)
    refine ⟨(k, n), List.mem_filter.mpr ⟨(h.work.mem_childMembers hb.map).mpr hn, ?_⟩, rfl⟩
    rw [h.live_eq hset, hs, hk]
    rfl

/-- Nothing goes when everything that is shown is among the observed. -/
theorem idle_removeGone {base : Path} (hb : NamedAt base) (observed : CString → Bool) :
    Idle (removeGone base observed) e (∀ k, shownAt e.work (base ++ [k]) = true → observed k = true) := by
  have hgone := fun k => h.mem_gone hb observed (k := k)
  refine idle_current_bind ((idle_each (P := fun _ => False) fun name hname => ?_).congr ?_)
    (fun e => logs_each fun name _ => (logs_removeThing _ _).grows) (decides_removeGone base observed).succeeds
  · obtain ⟨hs, -⟩ := (hgone name).mp hname
    exact idle_removeThing h (hb.present name (hb.named name (h.work.kindOf_isSome (hasNode_of_shownAt hs)))) hs
  · constructor
    · intro hnone k hs
      by_contra hk
      exact hnone k ((hgone k).mpr ⟨hs, by simpa using hk⟩)
    · intro hall k hk
      obtain ⟨hs, hobs⟩ := (hgone k).mp hk
      rw [hall k hs] at hobs
      cases hobs

omit h in
theorem addWanted_shown (shown : List Bytes) : ∀ (want : List Bytes) (s : OrSet) (e : Editor),
    (∀ v ∈ want, v ∈ shown) → addWanted a shown want s e = (.ok s, e)
  | [], _, _, _ => rfl
  | v :: want, s, e, hw => by
    rw [addWanted, if_pos (List.contains_iff_mem.mpr (hw v List.mem_cons_self))]
    exact addWanted_shown shown want s e fun u hu => hw u (List.mem_cons_of_mem _ hu)

omit h in
theorem dropUnwanted_shown (want : List Bytes) : ∀ (shown : List Bytes) (s : OrSet), (∀ v ∈ shown, v ∈ want) →
    dropUnwanted want shown s = s
  | [], _, _ => rfl
  | v :: shown, s, hs => by
    have hstep : dropUnwanted want (v :: shown) s =
        dropUnwanted want shown (if want.contains v then s else s.removeValue v) := rfl
    rw [hstep, if_pos (List.contains_iff_mem.mpr (hs v List.mem_cons_self))]
    exact dropUnwanted_shown want shown s fun u hu => hs u (List.mem_cons_of_mem _ hu)

/-- A set that holds the values already is left alone. -/
theorem idle_syncSet (hp : IsSetPath p) : Idle (syncSet a p (setAt e.work p).values) e True := by
  refine ⟨fun _ => ?_, fun _ => trivial, (logs_syncSet p _).grows, (decides_syncSet p _).succeeds⟩
  have hadd : addWanted a (e.load p).values (setAt e.work p).values (e.load p) e = (.ok (e.load p), e) := by
    rw [h.load hp]
    exact addWanted_shown _ _ _ _ fun v hv => hv
  rw [syncSet_apply (j := e.issued) hadd, h.load hp, dropUnwanted_shown _ _ _ fun v hv => hv, Editor.store,
    if_pos rfl]

end

/-! ### What is shown of a register -/

theorem encode_emptyList : encode (.arr []) = .ok emptyList := by decide +kernel

theorem decode_emptyList : decode emptyList = some (.arr []) := by rfl

/-- A canonical value is encoded to itself. -/
theorem asText_decoded {v : Bytes} (hv : isCanonical v = true) {j : Json} (hj : decode v = some j) :
    asText (some j) = .ok v := by
  obtain ⟨j', hj', he⟩ := isCanonical_iff.mp hv
  rw [hj] at hj'
  cases hj'
  exact he

/-- What a register shows is one of its values, or nothing. -/
theorem decode_shown {root : Json} (policy : JoinPolicy) {base : Path} {f : CString}
    (hc : CanonicalAt root (base ++ [Key.fields, f])) {v : Bytes} {vs : List Bytes}
    (hv : (registerAt root policy base f).values = v :: vs) :
    isCanonical v = true ∧ ∃ j, decode v = some j := by
  have hshown : v ∈ (registerAt root policy base f).values := by
    rw [hv]
    exact List.mem_cons_self
  have hmem : v ∈ (setAt root (base ++ [Key.fields, f])).values := OrSet.mem_values_of_resolve hshown
  obtain ⟨j, hj, -⟩ := isCanonical_iff.mp (hc v hmem)
  exact ⟨hc v hmem, j, hj⟩

section

variable {a : Author} {d₀ : Json} {i₀ : ℕ} {e : Editor} (h : Inv a d₀ i₀ e) {base : Path} {f : CString}

include h

theorem idle_register (hf : IsSetPath (base ++ [Key.fields] ++ [f])) (v : Bytes) :
    Idle (syncRegister a (base ++ [Key.fields] ++ [f]) f (some v)) e
      ((registerAt e.work a.policy base f).values.head? = some v) := by
  have hidle := idle_syncRegister_some h hf f v
  rw [List.append_assoc] at hidle ⊢
  exact hidle

/-- A field is shown as `null` when it has no value, and then it is written. -/
theorem idle_fixedField (hf : IsSetPath (base ++ [Key.fields] ++ [f]))
    (hc : CanonicalAt e.work (base ++ [Key.fields, f])) :
    Idle (fixedField a (base ++ [Key.fields]) f (firstOrNull (registerAt e.work a.policy base f))) e
      ((registerAt e.work a.policy base f).values ≠ []) := by
  unfold fixedField firstOrNull
  cases hv : (registerAt e.work a.policy base f).values with
  | nil =>
    have hnull : asText (some .null) = .ok [0x00] := rfl
    refine idle_lift_bind hnull ((idle_register h hf _).congr ?_)
    rw [hv]
    simp
  | cons v vs =>
    obtain ⟨hcan, j, hj⟩ := decode_shown _ hc hv
    dsimp only
    rw [hj]
    refine idle_lift_bind (asText_decoded hcan hj) ((idle_register h hf _).congr ?_)
    rw [hv]
    simp

/-- A list is shown as empty when there is none, and an empty one is cleared. -/
theorem idle_optionalField (k : CString) (hf : IsSetPath (base ++ [Key.fields] ++ [f]))
    (hc : CanonicalAt e.work (base ++ [Key.fields, f])) :
    Idle (optionalField a (base ++ [Key.fields]) f (some ((thingAt e.work a.policy base k).list f))) e
      ((registerAt e.work a.policy base f).values.head? ≠ some emptyList) := by
  have hclear : Idle (syncRegister a (base ++ [Key.fields] ++ [f]) f none) e
      ((registerAt e.work a.policy base f).values = []) := by
    have hidle := idle_syncRegister_none h hf f
    rw [List.append_assoc] at hidle ⊢
    exact hidle.congr OrSet.resolve_values_eq_nil.symm
  have hread : (thingAt e.work a.policy base k).register f = registerAt e.work a.policy base f := rfl
  unfold optionalField Thing.list
  rw [hread]
  cases hv : (registerAt e.work a.policy base f).values with
  | nil =>
    dsimp only [nonDefault]
    exact hclear.congr (by rw [hv]; simp)
  | cons v vs =>
    obtain ⟨hcan, j, hj⟩ := decode_shown _ hc hv
    dsimp only
    rw [hj, Option.getD_some]
    by_cases hempty : j = .arr []
    · subst hempty
      obtain rfl : v = emptyList := by
        have htext := asText_decoded hcan hj
        rw [asText, Option.getD_some, encode_emptyList] at htext
        exact (Except.ok.inj htext).symm
      dsimp only [nonDefault]
      exact hclear.congr (by rw [hv]; simp)
    · have hne : v ≠ emptyList := by
        rintro rfl
        rw [decode_emptyList] at hj
        exact hempty (Option.some.inj hj).symm
      have hnd : nonDefault (some j) = some j := by
        cases j with
        | arr xs =>
          cases xs with
          | nil => exact absurd rfl hempty
          | cons x xs => rfl
        | _ => rfl
      rw [hnd]
      refine idle_lift_bind (asText_decoded hcan hj) ((idle_register h hf _).congr ?_)
      rw [hv]
      simp [hne]

/-- The fields that are shown with a prefix are those that have it and a value. -/
theorem Inv.mem_shownWithPrefix {allowed : CString → Bool} (hfields : FieldsAt (base ++ [Key.fields]) allowed)
    {pre : CString} : f ∈ shownWithPrefix e (base ++ [Key.fields]) pre ↔
      f.startsWith pre = true ∧ (setAt e.work (base ++ [Key.fields, f])).values ≠ [] := by
  have hread : ∀ {v : Json}, nodeAt e.work (base ++ [Key.fields] ++ [f]) = some v →
      orsetFromJson (some v) = setAt e.work (base ++ [Key.fields, f]) := by
    intro v hv
    have hn : HasNode e.work (base ++ [Key.fields] ++ [f]) := by
      rw [HasNode, hv]
      rfl
    rw [← hv, h.work.orsetFromJson_set (hfields.only _ (h.work.kindOf_isSome hn)), List.append_assoc]
    rfl
  unfold shownWithPrefix
  rw [h.node_map hfields.map, List.mem_map]
  constructor
  · rintro ⟨m, hm, rfl⟩
    obtain ⟨hm, hcond⟩ := List.mem_filter.mp hm
    rw [Bool.and_eq_true, Bool.not_eq_true', liveOf, OrSet.live,
      hread ((h.work.mem_childMembers hfields.map).mp hm)] at hcond
    exact ⟨hcond.1, by simpa using hcond.2⟩
  · rintro ⟨hpre, hv⟩
    obtain ⟨n, hn⟩ : ∃ n, nodeAt e.work (base ++ [Key.fields] ++ [f]) = some n := by
      refine Option.ne_none_iff_exists'.mp fun hnone => hv ?_
      rw [List.append_assoc] at hnone
      rw [show base ++ [Key.fields, f] = base ++ ([Key.fields] ++ [f]) from rfl, setAt_eq_empty hnone]
      exact OrSet.values_empty
    refine ⟨(f, n), List.mem_filter.mpr ⟨(h.work.mem_childMembers hfields.map).mpr hn, ?_⟩, rfl⟩
    rw [Bool.and_eq_true, Bool.not_eq_true', liveOf, OrSet.live, hread hn]
    exact ⟨hpre, by simpa using hv⟩

/-- The keys that are shown are the keys that there are. -/
theorem idle_keyedFields {allowed : CString → Bool} (hfields : FieldsAt (base ++ [Key.fields]) allowed)
    {pre : CString} (hpre : kindOf (base ++ [Key.fields] ++ [pre]) = none) (k : CString)
    (hc : ∀ f, CanonicalAt e.work (base ++ [Key.fields, f])) :
    Idle (keyedFields a (base ++ [Key.fields]) pre ((thingAt e.work a.policy base k).keyed pre)) e True := by
  have hnode : ∀ f, f ∈ namesAt e.work (base ++ [Key.fields]) ↔ HasNode e.work (base ++ [Key.fields] ++ [f]) :=
    fun f => h.work.mem_namesAt hfields.map
  have hnamed : ∀ k : CString, HasNode e.work (base ++ [Key.fields] ++ [pre ++ k]) → k.isEmpty = false := by
    intro k hn
    by_contra hempty
    rw [Bool.not_eq_false, CString.isEmpty_iff] at hempty
    have hnil : pre ++ CString.empty = pre := CString.ext (List.append_nil pre.bytes)
    rw [hempty, hnil, HasNode, h.work.nodeAt_of_kind_none hpre] at hn
    cases hn
  have hmember : ∀ m ∈ (thingAt e.work a.policy base k).keyed pre,
      Idle (keyedField a (base ++ [Key.fields]) pre m) e True := by
    rintro ⟨key, value⟩ hm
    obtain ⟨f, hf, rfl, v, vs, hv, hj⟩ := Thing.mem_keyed.mp hm
    have hn := (hnode _).mp hf
    unfold keyedField
    rw [hnamed key hn, if_neg Bool.false_ne_true]
    obtain ⟨hcan, -⟩ := decode_shown a.policy (hc _) hv
    refine idle_lift_bind (asText_decoded hcan hj)
      ((idle_register h (hfields.only _ (h.work.kindOf_isSome hn)) _).congr ?_)
    exact iff_of_true (congrArg List.head? hv) trivial
  have hgone : ((shownWithPrefix e (base ++ [Key.fields]) pre).filter fun name =>
      !(keyedNames pre ((thingAt e.work a.policy base k).keyed pre)).contains name) = [] := by
    refine List.filter_eq_nil_iff.mpr fun name hname => ?_
    rw [Bool.not_eq_true', Bool.not_eq_false, List.contains_iff_mem]
    obtain ⟨hpre, hlive⟩ := (h.mem_shownWithPrefix hfields).mp hname
    obtain ⟨key, hkey⟩ : ∃ key, name = pre ++ key := ⟨_, CString.eq_append_of_startsWith hpre⟩
    have hn : HasNode e.work (base ++ [Key.fields] ++ [name]) := by
      by_contra hnone
      rw [List.append_assoc] at hnone
      exact hlive (by rw [show base ++ [Key.fields, name] = base ++ ([Key.fields] ++ [name]) from rfl,
        setAt_of_not_hasNode hnone, OrSet.values_empty])
    obtain ⟨v, vs, hv⟩ : ∃ v vs, (registerAt e.work a.policy base name).values = v :: vs :=
      List.exists_cons_of_ne_nil fun hnone => hlive (OrSet.resolve_values_eq_nil.mp hnone)
    obtain ⟨-, j, hj⟩ := decode_shown _ (hc _) hv
    rw [hkey] at hn hv ⊢
    refine List.mem_map.mpr ⟨(key, j), List.mem_filter.mpr ⟨?_, ?_⟩, rfl⟩
    · exact Thing.mem_keyed.mpr ⟨_, (hnode _).mpr hn, rfl, v, vs, hv, hj⟩
    · rw [hnamed key hn]
      rfl
  refine ((idle_each hmember).bind (idle_current_bind (P := True) ?_
    (fun e => logs_each fun name _ => (logs_syncRegister _ _ _).grows) fun e =>
      (decides_each_true fun name _ => decides_syncRegister _ _ _).succeeds e)).congr (by simp)
  rw [hgone]
  exact idle_pure

omit h in
theorem asTexts_shown : ∀ {values : List Bytes}, (∀ v ∈ values, isCanonical v = true) →
    asTexts (values.filterMap decode) = .ok values
  | [], _ => rfl
  | v :: values, hc => by
    obtain ⟨j, hj, he⟩ := isCanonical_iff.mp (hc v List.mem_cons_self)
    have hrest := asTexts_shown fun u hu => hc u (List.mem_cons_of_mem _ hu)
    rw [List.filterMap_cons_some hj, asTexts, show asText (some j) = .ok v from he, hrest]
    rfl

/-- The elements that are shown are the elements that there are. -/
theorem idle_syncValues {p : Path} (hp : IsSetPath p) (hc : CanonicalAt e.work p) :
    Idle (syncValues a p ((setAt e.work p).values.filterMap decode)) e True := by
  refine idle_lift_bind (asTexts_shown hc) ?_
  have hsorted : sortUnique (setAt e.work p).values = (setAt e.work p).values :=
    sortUnique_congr fun _ => mem_sortUnique
  rw [hsorted]
  exact idle_syncSet h hp

omit h in
theorem childValues_arr (xs : List Json) : childValues (some (.arr xs)) = xs := by
  rw [childValues, Json.child, List.map_map]
  exact List.map_id _

/-- A rune that is shown, said back. -/
theorem idle_observeRune (hv : ValuesAccepted e.work) (hb : AtKind base runeKind)
    (hs : shownAt e.work base = true) (id : CString) :
    Idle (observeRune a base ((thingAt e.work a.policy base Key.tags).rune id)) e
      (RuneTold e.work a.policy base) := by
  have hc : ∀ f, CanonicalAt e.work (base ++ [Key.fields, f]) := fun f =>
    hv.canonicalAt h.work (hb.rune_field_ne_any f)
  have hset : ∀ {f : CString}, runeFieldAllowed f = true → IsSetPath (base ++ [Key.fields] ++ [f]) :=
    hb.rune_field
  have hcontent : kindOf (base ++ [Key.fields] ++ [Key.contentDot]) = none := by
    rw [List.append_assoc, hb]
    decide
  have htags : CanonicalAt e.work (base ++ [Key.tags]) :=
    fun v hm => (rune_canonical h.work hv a.policy hb).elements v hm
  have hfacets : ∀ k ∈ kFacets, Idle (fixedField a (base ++ [Key.fields]) (Key.facetsDot ++ k)
      (get (((thingAt e.work a.policy base Key.tags).rune id).get Key.facets) k)) e
      ((registerAt e.work a.policy base (Key.facetsDot ++ k)).values ≠ []) := by
    intro k hk
    rw [Thing.facet_lookup _ _ hk]
    exact idle_fixedField h (hset (runeFieldAllowed_facet hk)) (hc _)
  have hname : get (((thingAt e.work a.policy base Key.tags).rune id).get Key.spirit) Key.name =
      firstOrNull (registerAt e.work a.policy base Key.spiritName) := by
    rw [Thing.rune_spirit, get_some, Json.get_obj]
    simp +decide only [Json.lookup_cons, lookup_member]
    rfl
  unfold observeRune
  simp only [hname, Thing.rune_glyph, Thing.rune_content, Thing.rune_tags, Thing.rune_placement,
    Thing.rune_relations, childValues_arr]
  rw [if_neg (show ¬((some (Json.obj ((thingAt e.work a.policy base Key.tags).keyed Key.contentDot))).any fun c =>
    !c.isObject) = true from Bool.false_ne_true)]
  have hfixed : ∀ f, runeFieldAllowed f = true → Idle (fixedField a (base ++ [Key.fields]) f
      (firstOrNull (registerAt e.work a.policy base f))) e ((registerAt e.work a.policy base f).values ≠ []) :=
    fun f hf => idle_fixedField h (hset hf) (hc f)
  have hrelations := idle_optionalField h (f := Key.relations) Key.tags (hset (by decide)) (hc _)
  refine ((idle_makePresent h hb.present_rune _).bind ((hfixed Key.spiritName (by decide)).bind
    ((hfixed Key.glyph (by decide)).bind ((idle_each hfacets).bind ((hfixed Key.placement (by decide)).bind
    (hrelations.bind ((idle_keyedFields h hb.rune_fieldsAt hcontent Key.tags hc).bind
    (idle_syncValues h hb.rune_tags htags)))))))).congr ?_
  constructor
  · rintro ⟨-, hname, hglyph, hfacets, hplacement, hrelations, -, -⟩
    exact ⟨hname, hglyph, hfacets, hplacement, hrelations⟩
  · intro ht
    exact ⟨hs, ht.name, ht.glyph, ht.facets, ht.placement, ht.relations, trivial, trivial⟩

omit h in
/-- What a document shows has a name of its own each. -/
theorem gather_shown {nameOf : Json → Option CString} (missing duplicate : String) {names : List CString}
    {f : CString → Json} (hd : names.Nodup) (hn : ∀ k ∈ names, k.isEmpty = false)
    (hf : ∀ k ∈ names, nameOf (f k) = some k) :
    ∃ d, gather nameOf missing duplicate (names.map f) ∅ = .ok d ∧
      ∀ k v, d[k]? = some v ↔ k ∈ names ∧ v = f k := by
  have hnames : (names.map f).map nameOf = names.map some := by
    rw [List.map_map]
    exact List.map_congr_left hf
  have hapart : NamedApart nameOf (names.map f) := by
    refine ⟨fun v hv => ?_, hnames ▸ hd.map (Option.some_injective _)⟩
    obtain ⟨k, hk, rfl⟩ := List.mem_map.mp hv
    exact ⟨k, hf k hk, hn k hk⟩
  obtain ⟨d, hgather⟩ : ∃ d, gather nameOf missing duplicate (names.map f) ∅ = .ok d :=
    gather_iff.mpr ⟨hapart, fun _ _ k _ => Std.ExtTreeMap.not_mem_empty⟩
  refine ⟨d, hgather, fun k v => ⟨fun hk => ?_, fun ⟨hk, he⟩ => ?_⟩⟩
  · rcases gather_mem hgather k v hk with hout | ⟨hv, hname⟩
    · simp at hout
    · obtain ⟨k', hk', rfl⟩ := List.mem_map.mp hv
      rw [hf k' hk', Option.some_inj] at hname
      exact hname ▸ ⟨hk', rfl⟩
  · subst he
    obtain ⟨k', hk'⟩ := (gather_find hgather).2 (f k) (List.mem_map_of_mem hk)
    rcases gather_mem hgather k' (f k) hk' with hout | ⟨-, hname⟩
    · simp at hout
    · rw [hf k hk, Option.some_inj] at hname
      exact hname ▸ hk'

omit h in
theorem Shaped.mem_shownNames {root : Json} (hroot : Shaped root) {p : Path} (hk : kindOf p = some .map)
    {k : CString} : k ∈ shownNames root p ↔ shownAt root (p ++ [k]) = true := by
  rw [shownNames, List.mem_filter, (Sorting.sortOn_perm _ _).mem_iff, hroot.mem_namesAt hk]
  exact and_iff_right_of_imp hasNode_of_shownAt

omit h in
theorem Shaped.shownNames_nodup {root : Json} (hroot : Shaped root) {p : Path} (hk : kindOf p = some .map) :
    (shownNames root p).Nodup :=
  (((Sorting.sortOn_perm _ _).nodup_iff).mpr (hroot.namesAt_nodup hk)).filter _

omit h in
/-- The things that are shown below a map, said back one by one. -/
theorem idle_eachNamed {β : Type} {names : List CString} {f : CString → β} {d : Dict β}
    (hd : ∀ k v, d[k]? = some v ↔ k ∈ names ∧ v = f k) {observe : CString → β → EditM Unit} {P : CString → Prop}
    (hP : ∀ k ∈ names, Idle (observe k (f k)) e (P k)) :
    Idle (EditM.each (fun m => observe m.1 m.2) d.toList) e (∀ k ∈ names, P k) := by
  refine (idle_each (P := fun m => P m.1) fun m hm => ?_).congr ⟨fun hall k hk => ?_, fun hall m hm => ?_⟩
  · obtain ⟨hk, he⟩ := (hd _ _).mp (getElem?_of_mem_toList hm)
    rw [he]
    exact hP _ hk
  · exact hall (k, f k) (Std.ExtTreeMap.mem_toList_iff_getElem?_eq_some.mpr ((hd _ _).mpr ⟨hk, rfl⟩))
  · exact hall _ ((hd _ _).mp (getElem?_of_mem_toList hm)).1

/-- None of them goes. -/
theorem idle_goneNamed {β : Type} {names : List CString} {f : CString → β} {d : Dict β}
    (hd : ∀ k v, d[k]? = some v ↔ k ∈ names ∧ v = f k) (hb : NamedAt base) :
    Idle (removeGone base d.contains) e (∀ k, shownAt e.work (base ++ [k]) = true → k ∈ names) := by
  refine (idle_removeGone h hb d.contains).congr (forall_congr' fun k => imp_congr_right fun _ => ?_)
  rw [Std.ExtTreeMap.contains_eq_isSome_getElem?, Option.isSome_iff_exists]
  simp only [hd, exists_and_left, exists_eq, and_true]

omit h in
theorem runeId_rune (t : Thing) (id : CString) : runeId (t.rune id) = some id := by
  rw [runeId, Thing.rune_spirit, get_some, Json.get_obj, Json.lookup_cons, if_pos rfl]
  rfl

/-- A mantle that is shown, said back. -/
theorem idle_observeMantle (hv : ValuesAccepted e.work) {name : CString} (hname : name.isEmpty = false)
    (hs : shownAt e.work [Key.mantles, name] = true) :
    Idle (observeMantle a [Key.mantles, name] (shownMantle e.work a.policy name)) e
      (MantleTold e.work a.policy [Key.mantles, name]) := by
  have hb := atKind_mantle hname
  have hc : ∀ f, CanonicalAt e.work ([Key.mantles, name] ++ [Key.fields, f]) := fun f =>
    hv.canonicalAt h.work (hb.mantle_field_ne_any f)
  have hset : ∀ {f : CString}, mantleFieldAllowed f = true →
      IsSetPath ([Key.mantles, name] ++ [Key.fields] ++ [f]) := hb.mantle_field
  have htags : kindOf ([Key.mantles, name] ++ [Key.fields] ++ [Key.tagsDot]) = none := by
    rw [List.append_assoc, hb]
    decide
  have hedges : CanonicalAt e.work ([Key.mantles, name] ++ [Key.edges]) :=
    fun v hm => (mantle_canonical h.work hv a.policy hb).elements v hm
  have hfixed : ∀ f, mantleFieldAllowed f = true → Idle (fixedField a ([Key.mantles, name] ++ [Key.fields]) f
      (firstOrNull (registerAt e.work a.policy [Key.mantles, name] f))) e
      ((registerAt e.work a.policy [Key.mantles, name] f).values ≠ []) :=
    fun f hf => idle_fixedField h (hset hf) (hc f)
  have hrules := idle_optionalField h (f := Key.rules) Key.edges (hset (by decide)) (hc _)
  -- The runes are gathered as they are shown.
  have hmap : kindOf ([Key.mantles, name] ++ [Key.runes]) = some .map := hb [Key.runes]
  have hshown := fun id => h.work.mem_shownNames (k := id) hmap
  have hrune : ∀ id ∈ shownNames e.work ([Key.mantles, name] ++ [Key.runes]), id.isEmpty = false := by
    intro id hid
    obtain ⟨n, hn⟩ := Option.isSome_iff_exists.mp (hasNode_of_shownAt ((hshown id).mp hid))
    exact h.work.name_ne_empty hb.namedAt_runes hn
  obtain ⟨runes, hgather, hruns⟩ := gather_shown "a rune has no spirit.id" "duplicate rune id "
    (f := fun id => (thingAt e.work a.policy [Key.mantles, name, Key.runes, id] Key.tags).rune id)
    (h.work.shownNames_nodup hmap) hrune fun id _ => runeId_rune _ id
  have heach : ∀ id ∈ shownNames e.work ([Key.mantles, name] ++ [Key.runes]),
      Idle (observeRune a ([Key.mantles, name] ++ [Key.runes, id])
        ((thingAt e.work a.policy [Key.mantles, name, Key.runes, id] Key.tags).rune id)) e
        (RuneTold e.work a.policy ([Key.mantles, name] ++ [Key.runes, id])) := fun id hid =>
    idle_observeRune h hv (hb.rune (hrune id hid)) ((hshown id).mp hid) id
  unfold observeMantle shownMantle
  simp only [Thing.mantle_id, Thing.mantle_domain, Thing.mantle_tags, Thing.mantle_rules, Thing.mantle_runes,
    Thing.mantle_edges, childValues_arr]
  rw [if_neg (show ¬((some (Json.obj
    ((thingAt e.work a.policy [Key.mantles, name] Key.edges).keyed Key.tagsDot))).any fun t =>
      !t.isObject && !t.isNull) = true from Bool.false_ne_true)]
  have hbelow := (idle_eachNamed hruns heach).bind
    ((idle_goneNamed h hruns hb.namedAt_runes).bind (idle_syncValues h hb.mantle_edges hedges))
  have hkeyed := idle_keyedFields h hb.mantle_fieldsAt htags Key.edges hc
  refine ((idle_makePresent h hb.present_mantle _).bind ((hfixed Key.id (by decide)).bind
    ((hfixed Key.domain (by decide)).bind (hkeyed.bind (hrules.bind (idle_lift_bind hgather hbelow)))))).congr ?_
  constructor
  · rintro ⟨-, hid, hdomain, -, hrules, hruns, -, -⟩
    exact ⟨hid, hdomain, hrules, hruns⟩
  · intro ht
    exact ⟨hs, ht.id, ht.domain, trivial, ht.rules, ht.runes, fun id => (hshown id).mpr, trivial⟩

omit h in
theorem descriptorFields_ok {ms : List (CString × Json)} (hf : ∀ m ∈ ms, HasForm m.2) :
    descriptorFields ms = .ok ((declared (.obj ms)).members.map fun m => (m.1.bytes, form m.2)) := by
  induction ms with
  | nil => rfl
  | cons m ms ih =>
    obtain ⟨k, v⟩ := m
    obtain ⟨hv, hf⟩ := List.forall_mem_cons.mp hf
    rw [declared, Json.members_obj, Json.members_obj] at ih ⊢
    by_cases hk : k = Key.source
    · rw [descriptorFields, if_pos hk, ih hf, List.filter_cons_of_neg (by simpa using hk)]
    · rw [descriptorFields, if_neg hk, ih hf, encode_of_hasForm hv, List.filter_cons_of_pos (by simpa using hk)]
      rfl

omit h in
/-- What is read off a declaration that was stored is declared again, less its `source`. -/
theorem canonGlyphDescriptor_of_hasForm {ms : List (CString × Json)} (hf : HasForm (.obj ms)) :
    canonGlyphDescriptor (.obj ms) = .ok (form (declared (.obj ms))) := by
  obtain ⟨hforms, hnodup⟩ := hasForm_obj.mp hf
  have hdeclared : HasForm (declared (.obj ms)) := by
    refine hasForm_obj.mpr ⟨fun m hm => hforms m (List.mem_of_mem_filter hm), ?_⟩
    exact hnodup.sublist ((List.filter_sublist ..).map _)
  obtain ⟨b, hb⟩ : ∃ b, canonGlyphDescriptor (.obj ms) = .ok b := by
    rw [canonGlyphDescriptor, descriptorFields_ok fun m hm => (hforms m hm).2]
    refine encodeMapOfEncoded_ok.mpr (List.forall_mem_map.mpr fun m hm => ?_)
    exact (hforms m (List.mem_of_mem_filter hm)).1
  rw [hb, canonGlyphDescriptor_form hb hdeclared]

omit h in
/-- The declarations of a state, when what each name declares is known. -/
theorem gatherGlyphs_of (value : CString → Bytes) {members : List (CString × Json)} (out : Dict Bytes)
    (hm : ∀ g ∈ members, g.1.isEmpty = false ∧ canonGlyphDescriptor g.2 = .ok (value g.1)) :
    ∃ d, gatherGlyphs members out = .ok d ∧ ∀ k v, d[k]? = some v ↔
      k ∈ members.map Prod.fst ∧ v = value k ∨ k ∉ members.map Prod.fst ∧ out[k]? = some v := by
  induction members generalizing out with
  | nil => exact ⟨out, rfl, fun k v => by simp⟩
  | cons g members ih =>
    obtain ⟨name, g⟩ := g
    obtain ⟨⟨hname, hg⟩, hm⟩ := List.forall_mem_cons.mp hm
    obtain ⟨d, hd, hfind⟩ := ih (out.insert name (value name)) hm
    refine ⟨d, ?_, fun k v => ?_⟩
    · rw [gatherGlyphs, hname, if_neg Bool.false_ne_true, hg]
      exact hd
    · rw [hfind, Std.ExtTreeMap.getElem?_insert]
      by_cases hk : name = k
      · subst hk
        by_cases hin : name ∈ members.map Prod.fst
        · simp [hin]
        · simp [hin, eq_comm]
      · have hne : compare name k ≠ .eq := fun he => hk (Std.LawfulEqCmp.eq_of_compare he)
        have hcons : k ∈ ((name, g) :: members).map Prod.fst ↔ k ∈ members.map Prod.fst := by
          rw [List.map_cons, List.mem_cons, or_iff_right fun he => hk he.symm]
        rw [if_neg hne, hcons]

/-- A declaration that is shown, said back. -/
theorem idle_observeGlyph (hb : AtKind base glyphKind) (hs : shownAt e.work base = true) (descriptor : Bytes) :
    Idle (observeGlyph a base descriptor) e
      ((registerAt e.work a.policy base Key.descriptor).values.head? = some descriptor) :=
  ((idle_makePresent h hb.present_glyph []).bind
    (idle_syncRegister_some h hb.glyph_field Key.descriptor descriptor)).congr (and_iff_right hs)

omit h in
theorem mantleName_shownMantle (root : Json) (policy : JoinPolicy) (name : CString) :
    mantleName (shownMantle root policy name) = some name := by
  rw [mantleName, shownMantle, Thing.mantle_name]
  rfl

omit h in
/-- The declarations that are shown are those with a value that is read. -/
theorem mem_shownGlyphs {root : Json} {g : CString × Json} :
    g ∈ (shownNames root [Key.glyphs]).flatMap (shownGlyph root) ↔ g.1 ∈ shownNames root [Key.glyphs] ∧
      ∃ v, (setAt root [Key.glyphs, g.1, Key.fields, Key.descriptor]).values.head? = some v ∧
        decode v = some g.2 := by
  have hone : ∀ name, g ∈ shownGlyph root name ↔ g.1 = name ∧
      ∃ v, (setAt root [Key.glyphs, name, Key.fields, Key.descriptor]).values.head? = some v ∧
        decode v = some g.2 := by
    intro name
    unfold shownGlyph
    cases (setAt root [Key.glyphs, name, Key.fields, Key.descriptor]).values with
    | nil => simp
    | cons v vs =>
      cases hj : decode v with
      | none => simp [member, hj]
      | some j => simp [member, hj, Prod.ext_iff, eq_comm]
  simp only [List.mem_flatMap, hone]
  constructor
  · rintro ⟨name, hname, rfl, hv⟩
    exact ⟨hname, hv⟩
  · rintro ⟨hname, hv⟩
    exact ⟨g.1, hname, rfl, hv⟩

/-- What a name declares, as it is declared again. -/
def redeclared (root : Json) (g : CString) : Bytes :=
  ((setAt root [Key.glyphs, g, Key.fields, Key.descriptor]).values.head?.bind decode).elim [] fun j =>
    form (declared j)

omit h in
theorem redeclared_eq {root : Json} {g : CString} {v : Bytes} {j : Json}
    (hv : (setAt root [Key.glyphs, g, Key.fields, Key.descriptor]).values.head? = some v)
    (hj : decode v = some j) : redeclared root g = form (declared j) := by
  rw [redeclared, hv, Option.bind_some, hj]
  rfl

omit h in
/-- A declaration that is shown is an object, and is declared again less its `source`. -/
theorem canonGlyphDescriptor_shown {root : Json} (hroot : Shaped root) (hv : ValuesAccepted root)
    {g : CString × Json} (hg : g ∈ (shownNames root [Key.glyphs]).flatMap (shownGlyph root)) :
    g.1.isEmpty = false ∧ canonGlyphDescriptor g.2 = .ok (redeclared root g.1) := by
  obtain ⟨hname, v, hhead, hj⟩ := mem_shownGlyphs.mp hg
  have hshown := (hroot.mem_shownNames (p := [Key.glyphs]) (by decide)).mp hname
  obtain ⟨n, hn⟩ := Option.isSome_iff_exists.mp (hasNode_of_shownAt hshown)
  have hnamed := hroot.name_ne_empty namedAt_glyphs hn
  have hkind : kindOf [Key.glyphs, g.1, Key.fields, Key.descriptor] = some (.set .declaration) :=
    (atKind_glyph hnamed [Key.fields, Key.descriptor]).trans (by decide)
  obtain ⟨t, hlive⟩ := OrSet.mem_values.mp (List.mem_of_mem_head? hhead)
  obtain ⟨hcan, hfirst⟩ := hv.setAt hroot hkind t v hlive.1
  obtain ⟨j, hj', he⟩ := isCanonical_iff.mp hcan
  obtain rfl : j = g.2 := Option.some.inj (hj'.symm.trans hj)
  refine ⟨hnamed, ?_⟩
  rw [redeclared_eq hhead hj]
  have hobj := isObject_of_head he hfirst
  cases hobject : g.2 with
  | obj ms => exact canonGlyphDescriptor_of_hasForm ⟨v, hobject ▸ he⟩
  | _ =>
    rw [hobject] at hobj
    cases hobj

omit h in
/-- The names that are declared again, and the declarations as an observation leaves them. -/
theorem glyphTold_iff {root : Json} (hroot : Shaped root) {policy : JoinPolicy} :
    ((∀ g ∈ ((shownNames root [Key.glyphs]).flatMap (shownGlyph root)).map Prod.fst,
        (registerAt root policy [Key.glyphs, g] Key.descriptor).values.head? = some (redeclared root g)) ∧
      ∀ g, shownAt root [Key.glyphs, g] = true →
        g ∈ ((shownNames root [Key.glyphs]).flatMap (shownGlyph root)).map Prod.fst) ↔
    ∀ g ∈ shownNames root [Key.glyphs], GlyphTold root policy [Key.glyphs, g] := by
  have hshown := fun g => hroot.mem_shownNames (p := [Key.glyphs]) (k := g) (by decide)
  have hnames : ∀ g, g ∈ ((shownNames root [Key.glyphs]).flatMap (shownGlyph root)).map Prod.fst ↔
      g ∈ shownNames root [Key.glyphs] ∧ ∃ j v,
        (setAt root [Key.glyphs, g, Key.fields, Key.descriptor]).values.head? = some v ∧ decode v = some j := by
    refine fun g => List.mem_map.trans ⟨?_, fun ⟨hg, j, v, hv, hj⟩ => ⟨(g, j), mem_shownGlyphs.mpr ?_, rfl⟩⟩
    · rintro ⟨m, hm, rfl⟩
      obtain ⟨hg, v, hv, hj⟩ := mem_shownGlyphs.mp hm
      exact ⟨hg, m.2, v, hv, hj⟩
    · exact ⟨hg, v, hv, hj⟩
  constructor
  · rintro ⟨htold, hall⟩ g hg
    have hin := hall g ((hshown g).mp hg)
    obtain ⟨-, j, v, hv, hj⟩ := (hnames g).mp hin
    exact ⟨v, j, hv, hj, redeclared_eq hv hj ▸ htold g hin⟩
  · refine fun htold => ⟨fun g hg => ?_, fun g hg => ?_⟩
    · obtain ⟨v, j, hv, hj, hr⟩ := htold g ((hnames g).mp hg).1
      rw [redeclared_eq hv hj]
      exact hr
    · obtain ⟨v, j, hv, hj, -⟩ := htold g ((hshown g).mpr hg)
      exact (hnames g).mpr ⟨(hshown g).mpr hg, j, v, hv, hj⟩

/-- What is shown, said back. -/
theorem idle_observeInto (hv : ValuesAccepted e.work) :
    Idle (observeInto a (some (flatten e.work a.policy))) e (Told e.work a.policy) := by
  -- The mantles are gathered as they are shown.
  have hmantle := fun k => h.work.mem_shownNames (p := [Key.mantles]) (k := k) (by decide)
  have hnamed : ∀ m ∈ shownNames e.work [Key.mantles], m.isEmpty = false := by
    intro m hm
    obtain ⟨n, hn⟩ := Option.isSome_iff_exists.mp (hasNode_of_shownAt ((hmantle m).mp hm))
    exact h.work.name_ne_empty namedAt_mantles hn
  obtain ⟨mantles, hgather, hmantles⟩ := gather_shown "a mantle has no name"
    "duplicate mantle name " (f := shownMantle e.work a.policy)
    (h.work.shownNames_nodup (by decide)) hnamed fun m _ => mantleName_shownMantle _ _ m
  have heach : ∀ m ∈ shownNames e.work [Key.mantles], Idle (observeMantle a [Key.mantles, m]
      (shownMantle e.work a.policy m)) e (MantleTold e.work a.policy [Key.mantles, m]) := fun m hm =>
    idle_observeMantle h hv (hnamed m hm) ((hmantle m).mp hm)
  -- So are the declarations.
  obtain ⟨glyphs, hdeclared, hfind⟩ := gatherGlyphs_of (redeclared e.work) ∅ fun g hg =>
    canonGlyphDescriptor_shown (g := g) h.work hv hg
  have hglyphs : ∀ k v, glyphs[k]? = some v ↔
      k ∈ ((shownNames e.work [Key.glyphs]).flatMap (shownGlyph e.work)).map Prod.fst ∧
        v = redeclared e.work k := by
    intro k v
    simpa using hfind k v
  have hdecl : ∀ g ∈ ((shownNames e.work [Key.glyphs]).flatMap (shownGlyph e.work)).map Prod.fst,
      Idle (observeGlyph a [Key.glyphs, g] (redeclared e.work g)) e
        ((registerAt e.work a.policy [Key.glyphs, g] Key.descriptor).values.head? =
          some (redeclared e.work g)) := by
    intro g hg
    obtain ⟨m, hm, rfl⟩ := List.mem_map.mp hg
    exact idle_observeGlyph h (atKind_glyph (canonGlyphDescriptor_shown h.work hv hm).1)
      ((h.work.mem_shownNames (p := [Key.glyphs]) (by decide)).mp (mem_shownGlyphs.mp hm).1) _
  -- The members of the state.
  rw [h.work.flatten_eq]
  generalize hstate : ((Key.mantles, Json.arr ((shownNames e.work [Key.mantles]).map
    (shownMantle e.work a.policy))) :: _) = members
  have hlist : Json.lookup Key.mantles members =
      some (.arr ((shownNames e.work [Key.mantles]).map (shownMantle e.work a.policy))) := by
    rw [← hstate, Json.lookup_cons, if_pos rfl]
  have hobject : ((Json.lookup Key.glyphs members).any fun g => !g.isObject && !g.isNull) = false ∧
      childMembers (Json.lookup Key.glyphs members) =
        (shownNames e.work [Key.glyphs]).flatMap (shownGlyph e.work) := by
    rw [← hstate, Json.lookup_cons, if_neg (by decide)]
    split
    · next hnone => exact ⟨rfl, by rw [hnone]; rfl⟩
    · rw [Json.lookup_cons, if_pos rfl]
      exact ⟨rfl, rfl⟩
  unfold observeInto
  dsimp only
  rw [hlist, hobject.1, hobject.2, childValues_arr, if_neg Bool.false_ne_true,
    if_neg (show ¬((some (Json.arr ((shownNames e.work [Key.mantles]).map (shownMantle e.work a.policy)))).any
      fun m => !m.isArray) = true from Bool.false_ne_true)]
  refine (idle_lift_bind hgather ((idle_eachNamed hmantles heach).bind
    ((idle_goneNamed h hmantles namedAt_mantles).bind (idle_lift_bind hdeclared
    ((idle_eachNamed hglyphs hdecl).bind (idle_goneNamed h hglyphs namedAt_glyphs)))))).congr ?_
  constructor
  · rintro ⟨hm, -, hg⟩
    exact ⟨hm, (glyphTold_iff h.work).mp hg⟩
  · intro ht
    exact ⟨ht.mantles, fun m => (hmantle m).mpr, (glyphTold_iff h.work).mpr ht.glyphs⟩

end

/-! ### A replica that observes what it shows -/

/-- A replica of such a run starts an edit in a sound editor. -/
theorem Peer.Honest.editor {said : Set Fact} {id : CString} {p : Peer} (h : p.Honest said id) :
    Inv p.replica.author p.replica.doc p.replica.issued p.replica.editor := by
  have hid : p.replica.author.id = id := h.filed
  constructor
  · exact h.vouched.shaped
  · exact (validate_iff.mp (show validate emptyDelta = .ok () by decide +kernel)).1
  · exact le_rfl
  · exact fun q n v hf => (h.own q n v (hid ▸ h.vouched.adds q _ v hf)).2
  · exact facts_emptyDelta_subset.trans h.base
  · simp [Replica.editor, said_nil]
  · simp [Replica.editor, said_nil, emptyDelta]
  · exact List.forall_mem_nil _
  · exact List.forall_mem_nil _
  · exact List.forall_mem_nil _
  · rfl

end VoidPalabra
