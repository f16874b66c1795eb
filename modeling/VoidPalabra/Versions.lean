import VoidPalabra.Naming

/-!
# Version names and meaning

A version name stands for a canonical form, so two states share one exactly when the form
does not tell them apart. The form reads the endpoint of an edge as a text; links are
resolved through endpoints that are a name or a mantle and a rune, and there the two
readings part.
-/

namespace VoidPalabra

/-! ### States as Core shapes them -/

/-- An endpoint as it is written: a rune of the edge's own mantle, or a mantle and a rune. -/
inductive Endpoint where
  /-- A name. -/
  | name (rune : CString)
  /-- An object. -/
  | elsewhere (mantle rune : CString)
  deriving DecidableEq

/-- The endpoint that a member of an edge writes. -/
def endpointOf : Option Json → Endpoint
  | some (.obj ms) => .elsewhere (textOr (Json.lookup (.ofLit "mantle") ms))
      (textOr (Json.lookup (.ofLit "rune") ms))
  | n => .name (textOr n)

/-- A member that is absent or a text. -/
def TextField (n : Option Json) : Prop := ∀ v, n = some v → ∃ s, v = .str s

/-- A member that is absent or a list of things of one shape. -/
def ListField (P : Json → Prop) (n : Option Json) : Prop :=
  ∀ v, n = some v → ∃ xs, v = .arr xs ∧ ∀ x ∈ xs, P x

/-- A name, or an object with a mantle and a rune. -/
def CoreEndpoint (n : Option Json) : Prop :=
  (∃ s, n = some (.str s)) ∨ ∃ ms m r, n = some (.obj ms) ∧
    Json.lookup (.ofLit "mantle") ms = some (.str m) ∧ Json.lookup (.ofLit "rune") ms = some (.str r)

/-- An edge. -/
structure CoreEdge (e : Json) : Prop where
  /-- An object. -/
  object : ∃ ms, e = .obj ms
  /-- Where it starts. -/
  start : CoreEndpoint (e.get (.ofLit "from"))
  /-- Where it leads. -/
  finish : CoreEndpoint (e.get (.ofLit "to"))
  /-- What it says. -/
  relation : TextField (e.get (.ofLit "relation"))
  /-- How much. -/
  weight : ∀ v, e.get (.ofLit "weight") = some v → ∃ d, v = .num d
  /-- Whether it has a direction. -/
  directed : ∀ v, e.get (.ofLit "directed") = some v → ∃ b, v = .bool b

/-- A rune; its content, relations and placement are opaque. -/
structure CoreRune (r : Json) : Prop where
  /-- An object. -/
  object : ∃ ms, r = .obj ms
  /-- Its spirit. -/
  spirit : ∃ ms, r.get Key.spirit = some (.obj ms) ∧ TextField (Json.lookup Key.id ms) ∧
    TextField (Json.lookup Key.name ms)
  /-- Its glyph. -/
  glyph : TextField (r.get Key.glyph)
  /-- Its facets. -/
  facets : ∀ v, r.get Key.facets = some v → ∃ ms, v = .obj ms ∧
    ∀ k ∈ kFacets, TextField (Json.lookup k ms)
  /-- Its tags. -/
  tags : ListField (fun t => ∃ s, t = .str s) (r.get Key.tags)

/-- A mantle; its domain, tags and rules are opaque. -/
structure CoreMantle (m : Json) : Prop where
  /-- An object. -/
  object : ∃ ms, m = .obj ms
  /-- Its identity. -/
  id : TextField (m.get Key.id)
  /-- Its name. -/
  name : TextField (m.get Key.name)
  /-- Its runes. -/
  runes : ListField CoreRune (m.get Key.runes)
  /-- Its layout, which holds the edges. -/
  layout : ∀ v, m.get Key.layout = some v → ∃ ms, v = .obj ms ∧
    ListField CoreEdge (Json.lookup Key.edges ms)

/-- A state document; the declarations are maps, so each names a member once. -/
structure CoreState (s : Json) : Prop where
  /-- An object. -/
  object : ∃ ms, s = .obj ms
  /-- Its mantles. -/
  mantles : ListField CoreMantle (s.get Key.mantles)
  /-- Its declarations. -/
  glyphs : ∀ v, s.get Key.glyphs = some v → ∃ ms, v = .obj ms ∧ (ms.map Prod.fst).Nodup ∧
    ∀ g ∈ ms, ∃ ds, g.2 = .obj ds ∧ (ds.map Prod.fst).Nodup

/-- One state: equal up to the order of mantles, runes, tags and edges and repetition among
them, the order of members, the spelling of whole numbers, defaults, the orientation of an
undirected edge, a placement the policy leaves out and the `source` of a declaration. -/
def SameState (policy : SlicePolicy) (s t : Json) : Prop := SameStateBy endpointOf policy s t

/-- The edges of a mantle. -/
def mantleEdges (m : Json) : List Json := arrayItems (get (m.get Key.layout) Key.edges)

/-- A name that is not empty. -/
def Named (n : Option Json) : Prop := ∃ k : CString, n = some (.str k) ∧ k.isEmpty = false

/-- Both endpoints of every edge are names that are not empty. -/
def EdgesNamed (s : Json) : Prop :=
  ∀ m ∈ arrayItems (s.get Key.mantles), ∀ e ∈ mantleEdges m,
    Named (e.get (.ofLit "from")) ∧ Named (e.get (.ofLit "to"))

/-- Maps name their members once. -/
theorem CoreState.declaredOnce {s : Json} (h : CoreState s) : DeclaredOnce s := by
  unfold DeclaredOnce declarationsOf
  cases hg : s.get Key.glyphs with
  | none => exact ⟨List.nodup_nil, fun d hd => by cases hd⟩
  | some g =>
    obtain ⟨ms, rfl, hnd, hdecl⟩ := h.glyphs g hg
    rw [childMembers, Json.members_obj, List.map_map]
    refine ⟨hnd, fun d hd => ?_⟩
    obtain ⟨m, hm, rfl⟩ := List.mem_map.mp hd
    obtain ⟨ds, hds, hnd⟩ := hdecl m hm
    rw [declared, hds, Json.members_obj, Json.members_obj]
    exact hnd.sublist (List.filter_sublist.map Prod.fst)

/-! ### The two readings -/

/-- What the canonical form reads of an endpoint. -/
def Endpoint.text : Endpoint → CString
  | .name k => k
  | .elsewhere _ _ => .empty

theorem textOr_eq_text (n : Option Json) : textOr n = (endpointOf n).text := by
  rcases n with _ | v
  · rfl
  · cases v <;> rfl

/-- An endpoint that reads as a text that is not empty is that name. -/
theorem named_of_textOr {n : Option Json} {k : CString} (h : textOr n = k) (hk : k.isEmpty = false) :
    n = some (.str k) := by
  rcases n with _ | v
  · subst h
    cases hk
  · cases v with
    | str s => rw [show k = s from h.symm]
    | _ =>
      subst h
      cases hk

/-- What is one edge for one reading is one edge for a coarser one. -/
theorem SameEdgeBy.coarser {ε ζ : Type} {read : Option Json → ε} {coarse : Option Json → ζ}
    (g : ε → ζ) (hg : ∀ n, coarse n = g (read n)) {e f : Json} (h : SameEdgeBy read e f) :
    SameEdgeBy coarse e f := by
  have hends : ∀ x, edgeEnds coarse x = (edgeEnds read x).map g g := fun x => by
    simp only [edgeEnds, hg, Prod.map]
  refine ⟨h.relation, h.weight, h.directed, ?_⟩
  rw [hends, hends]
  rcases h.ends with he | ⟨hd, he⟩
  · exact .inl (by rw [he])
  · exact .inr ⟨hd, by rw [he]; rfl⟩

/-- Only the edges of a state depend on the reading. -/
theorem SameStateBy.imp_edges {ε ζ : Type} {read : Option Json → ε} {read' : Option Json → ζ}
    {policy : SlicePolicy} {s t : Json} (h : SameStateBy read policy s t)
    (hi : ∀ m ∈ arrayItems (s.get Key.mantles), ∀ e ∈ mantleEdges m, ∀ f,
      SameEdgeBy read e f → SameEdgeBy read' e f) : SameStateBy read' policy s t := by
  refine ⟨h.mantles.imp fun m hm n _ hmn => ?_, h.glyphs⟩
  exact ⟨hmn.id, hmn.name, hmn.domain, hmn.runes, hmn.tags,
    hmn.edges.imp fun e he f _ hef => hi m hm e he f hef, hmn.rules⟩

/-- An edge between two names is one edge for either reading. -/
theorem SameEdgeBy.of_named {e f : Json} (he : Named (e.get (.ofLit "from")) ∧
    Named (e.get (.ofLit "to"))) (h : SameEdgeBy textOr e f) : SameEdgeBy endpointOf e f := by
  obtain ⟨⟨k, hk, hke⟩, ⟨l, hl, hle⟩⟩ := he
  refine ⟨h.relation, h.weight, h.directed, ?_⟩
  have htexts : edgeEnds textOr e = (k, l) := by
    rw [edgeEnds, hk, hl]
    rfl
  have hends : ∀ {x y : CString}, edgeEnds textOr f = (x, y) → x.isEmpty = false →
      y.isEmpty = false → edgeEnds endpointOf f = (.name x, .name y) := by
    intro x y hxy hx hy
    obtain ⟨h1, h2⟩ := Prod.ext_iff.mp hxy
    rw [edgeEnds, named_of_textOr h1 hx, named_of_textOr h2 hy]
    rfl
  have hown : edgeEnds endpointOf e = (.name k, .name l) := by
    rw [edgeEnds, hk, hl]
    rfl
  rcases h.ends with hf | ⟨hd, hf⟩
  · rw [hown, hends (hf.symm.trans htexts) hke hle]
    exact .inl rfl
  · have hswap : edgeEnds textOr f = (l, k) := by
      rw [← Prod.swap_swap (edgeEnds textOr f), ← hf, htexts]
      rfl
    rw [hown, hends hswap hle hke]
    exact .inr ⟨hd, rfl⟩

/-! ### A second edge that reads the same -/

/-- `cJSON_ReplaceItemInObject`: the member under a key becomes the given one. -/
def setMember (k : CString) (v : Json) (ms : List (CString × Json)) : List (CString × Json) :=
  (k, v) :: ms.filter fun m => m.1 ≠ k

theorem lookup_setMember (k : CString) (v : Json) (ms : List (CString × Json)) :
    Json.lookup k (setMember k v ms) = some v := by
  rw [setMember, Json.lookup_cons, if_pos rfl]

theorem lookup_setMember_ne {k l : CString} (v : Json) (ms : List (CString × Json)) (h : k ≠ l) :
    Json.lookup l (setMember k v ms) = Json.lookup l ms := by
  rw [setMember, Json.lookup_cons, if_neg h]
  induction ms with
  | nil => rfl
  | cons m ms ih =>
    by_cases hm : m.1 = k
    · rw [List.filter_cons_of_neg (by simpa using hm), ih, Json.lookup_cons,
        if_neg (fun he => h (hm.symm.trans he))]
    · rw [List.filter_cons_of_pos (by simpa using hm), Json.lookup_cons, Json.lookup_cons, ih]

/-- Endpoints without an end. -/
def farEndpoint (n : ℕ) : Json :=
  .obj [(.ofLit "mantle", .str (.ofLit "n")), (.ofLit "rune", .str ⟨List.replicate n 0x61, by simp⟩)]

/-- There is always an endpoint that no edge of a list has. -/
theorem exists_fresh_endpoint (es : List Json) : ∃ n, ∀ e ∈ es,
    (edgeEnds endpointOf e).1 ≠ endpointOf (some (farEndpoint n)) ∧
      (edgeEnds endpointOf e).2 ≠ endpointOf (some (farEndpoint n)) := by
  have hinj : Function.Injective fun n => endpointOf (some (farEndpoint n)) := by
    intro m n h
    have hr : textOr (some (.str ⟨List.replicate m 0x61, by simp⟩)) =
        textOr (some (.str ⟨List.replicate n 0x61, by simp⟩)) := (Endpoint.elsewhere.inj h).2
    have hl := congrArg (fun s : CString => s.bytes.length) hr
    simpa [textOr, strOr, Json.string?] using hl
  let used := es.flatMap fun e => [(edgeEnds endpointOf e).1, (edgeEnds endpointOf e).2]
  obtain ⟨x, ⟨n, rfl⟩, hn⟩ := (Set.infinite_range_of_injective hinj).exists_notMem_finite
    (List.finite_toSet used)
  refine ⟨n, fun e he => ⟨fun h => hn ?_, fun h => hn ?_⟩⟩
  · exact List.mem_flatMap.mpr ⟨e, he, List.mem_cons.mpr (.inl h.symm)⟩
  · exact List.mem_flatMap.mpr ⟨e, he, List.mem_cons_of_mem _ (List.mem_cons.mpr (.inl h.symm))⟩

theorem coreEndpoint_far (n : ℕ) : CoreEndpoint (some (farEndpoint n)) :=
  .inr ⟨_, _, _, rfl, rfl, rfl⟩

/-- An endpoint that is no name reads as the empty text. -/
theorem textOr_eq_empty {n : Option Json} (h : CoreEndpoint n) (hn : ¬ Named n) :
    textOr n = .empty := by
  rcases h with ⟨s, rfl⟩ | ⟨ms, m, r, rfl, -, -⟩
  · cases hs : s.isEmpty with
    | true => exact (CString.isEmpty_iff s).mp hs
    | false => exact absurd ⟨s, rfl, hs⟩ hn
  · rfl

/-- What `canon_edge` reads of an edge. -/
theorem canonEdge_congr {e f : Json}
    (hfrom : textOr (f.get (.ofLit "from")) = textOr (e.get (.ofLit "from")))
    (hto : textOr (f.get (.ofLit "to")) = textOr (e.get (.ofLit "to")))
    (hr : f.get (.ofLit "relation") = e.get (.ofLit "relation"))
    (hw : f.get (.ofLit "weight") = e.get (.ofLit "weight"))
    (hd : f.get (.ofLit "directed") = e.get (.ofLit "directed")) : canonEdge f = canonEdge e := by
  have hends : edgeEnds textOr f = edgeEnds textOr e := by rw [edgeEnds, edgeEnds, hfrom, hto]
  have hdir : edgeDirected f = edgeDirected e := by rw [edgeDirected, edgeDirected, hd]
  have hwritten : writtenEnds f = writtenEnds e := by rw [writtenEnds, writtenEnds, hends, hdir]
  have hweight : edgeWeight f = edgeWeight e := by rw [edgeWeight, edgeWeight, hw]
  rw [canonEdge_eq, canonEdge_eq, edgeFields, edgeFields, hwritten, hweight, hdir, hr]

/-- An endpoint that reads as nothing can be led elsewhere without the form seeing it. -/
theorem reads_same {e : Json} (h : CoreEdge e) {k : CString}
    (hk : k = .ofLit "from" ∨ k = .ofLit "to") (hempty : textOr (e.get k) = .empty) (n : ℕ) :
    ∃ f, CoreEdge f ∧ canonEdge f = canonEdge e ∧ f.get k = some (farEndpoint n) := by
  obtain ⟨ms, rfl⟩ := h.object
  have hsame : ∀ l, k ≠ l → (Json.obj (setMember k (farEndpoint n) ms)).get l = (Json.obj ms).get l :=
    fun l hl => lookup_setMember_ne _ _ hl
  have hset : (Json.obj (setMember k (farEndpoint n) ms)).get k = some (farEndpoint n) :=
    lookup_setMember k _ _
  have htext : ∀ l, textOr ((Json.obj (setMember k (farEndpoint n) ms)).get l) =
      textOr ((Json.obj ms).get l) := by
    intro l
    by_cases hl : k = l
    · subst hl
      rw [hset, hempty]
      rfl
    · rw [hsame l hl]
  have hend : ∀ l, CoreEndpoint ((Json.obj ms).get l) →
      CoreEndpoint ((Json.obj (setMember k (farEndpoint n) ms)).get l) := by
    intro l hc
    by_cases hl : k = l
    · subst hl
      rw [hset]
      exact coreEndpoint_far n
    · rwa [hsame l hl]
  have hother : ∀ l ∈ [CString.ofLit "relation", .ofLit "weight", .ofLit "directed"], k ≠ l := by
    rcases hk with rfl | rfl <;> decide
  have hr := hsame _ (hother _ List.mem_cons_self)
  have hw := hsame _ (hother _ (List.mem_cons_of_mem _ List.mem_cons_self))
  have hd := hsame _ (hother _ (List.mem_cons_of_mem _ (List.mem_cons_of_mem _ List.mem_cons_self)))
  refine ⟨_, ⟨⟨_, rfl⟩, hend _ h.start, hend _ h.finish, ?_, ?_, ?_⟩,
    canonEdge_congr (htext _) (htext _) hr hw hd, hset⟩
  · rw [hr]
    exact h.relation
  · rw [hw]
    exact h.weight
  · rw [hd]
    exact h.directed

/-- An edge with an endpoint that is no name has a twin that connects something else. -/
theorem exists_reads_same {e : Json} (h : CoreEdge e)
    (hn : ¬ (Named (e.get (.ofLit "from")) ∧ Named (e.get (.ofLit "to")))) (n : ℕ) :
    ∃ f, CoreEdge f ∧ canonEdge f = canonEdge e ∧
      ((edgeEnds endpointOf f).1 = endpointOf (some (farEndpoint n)) ∨
        (edgeEnds endpointOf f).2 = endpointOf (some (farEndpoint n))) := by
  rcases not_and_or.mp hn with hn | hn
  · obtain ⟨f, hf, he, hget⟩ := reads_same h (.inl rfl) (textOr_eq_empty h.start hn) n
    exact ⟨f, hf, he, .inl (by rw [edgeEnds, hget])⟩
  · obtain ⟨f, hf, he, hget⟩ := reads_same h (.inr rfl) (textOr_eq_empty h.finish hn) n
    exact ⟨f, hf, he, .inr (by rw [edgeEnds, hget])⟩

/-- A mantle with one more edge. -/
def withEdge (f : Json) (m : Json) : Json :=
  .obj (setMember Key.layout (.obj (setMember Key.edges (.arr (mantleEdges m ++ [f]))
    (childMembers (m.get Key.layout)))) m.members)

theorem mantleEdges_withEdge (f m : Json) : mantleEdges (withEdge f m) = mantleEdges m ++ [f] := by
  unfold mantleEdges withEdge
  rw [Json.get_obj, lookup_setMember, get_some, Json.get_obj, lookup_setMember]
  rfl

theorem get_withEdge (f m : Json) {k : CString} (hk : Key.layout ≠ k) :
    (withEdge f m).get k = m.get k := by
  rw [withEdge, Json.get_obj, lookup_setMember_ne _ _ hk, Json.get_eq_lookup_members]

/-- An edge that is encoded like one that is there changes nothing. -/
theorem canonMantle_withEdge {policy : SlicePolicy} {m e f : Json} {b : Bytes}
    (hm : canonMantle policy m = .ok b) (he : e ∈ mantleEdges m) (hf : canonEdge f = canonEdge e) :
    canonMantle policy (withEdge f m) = .ok b := by
  obtain ⟨hname, runes, edges, hrunes, hedges, h⟩ := canonMantle_eq_ok.mp hm
  obtain ⟨eb, heb⟩ := encodeEach_item hedges he
  have hmem : eb ∈ edges := (encodeEach_mem hedges).mpr ⟨e, he, heb⟩
  have hget : ∀ k ∈ [Key.id, Key.name, Key.domain, Key.runes, Key.tags, Key.rules],
      (withEdge f m).get k = m.get k := by
    intro k hk
    refine get_withEdge f m ?_
    rintro rfl
    revert hk
    decide
  simp only [List.forall_mem_cons, List.not_mem_nil, false_implies, implies_true, and_true] at hget
  obtain ⟨h1, h2, h3, h4, h5, h6⟩ := hget
  have hset : encodeSet (edges ++ [eb]) = encodeSet edges := by
    unfold encodeSet
    rw [sortUnique_congr fun x => ?_]
    rw [List.mem_append, List.mem_singleton]
    exact ⟨fun hx => hx.elim id fun hx => hx ▸ hmem, .inl⟩
  have hfields : mantleFields (withEdge f m) runes (edges ++ [eb]) = mantleFields m runes edges := by
    unfold mantleFields
    rw [h1, h2, h3, h5, h6, hset]
  refine canonMantle_eq_ok.mpr ⟨by rwa [h2], runes, edges ++ [eb], by rwa [h4], ?_, by rwa [hfields]⟩
  rw [show arrayItems (get ((withEdge f m).get Key.layout) Key.edges) = mantleEdges m ++ [f] from
    mantleEdges_withEdge f m]
  exact encodeEach_append (hf.trans heb) hedges

theorem ListField.mem {P : Json → Prop} {n : Option Json} (h : ListField P n) {x : Json}
    (hx : x ∈ arrayItems n) : P x := by
  unfold arrayItems at hx
  split at hx
  · obtain ⟨xs, he, hxs⟩ := h _ rfl
    cases he
    exact hxs x hx
  · cases hx

theorem CoreMantle.edge {m e : Json} (h : CoreMantle m) (he : e ∈ mantleEdges m) : CoreEdge e := by
  unfold mantleEdges at he
  cases hl : m.get Key.layout with
  | none =>
    rw [hl] at he
    cases he
  | some v =>
    obtain ⟨ms, rfl, hedges⟩ := h.layout v hl
    rw [hl] at he
    exact hedges.mem he

theorem CoreMantle.withEdge {m f : Json} (h : CoreMantle m) (hf : CoreEdge f) :
    CoreMantle (withEdge f m) := by
  refine ⟨⟨_, rfl⟩, ?_, ?_, ?_, ?_⟩
  · rw [get_withEdge f m (by decide)]
    exact h.id
  · rw [get_withEdge f m (by decide)]
    exact h.name
  · rw [get_withEdge f m (by decide)]
    exact h.runes
  · intro v hv
    rw [VoidPalabra.withEdge, Json.get_obj, lookup_setMember] at hv
    cases hv
    refine ⟨_, rfl, fun v hv => ?_⟩
    rw [lookup_setMember] at hv
    cases hv
    refine ⟨_, rfl, fun x hx => ?_⟩
    rcases List.mem_append.mp hx with hx | hx
    · exact h.edge hx
    · rw [List.mem_singleton.mp hx]
      exact hf

/-- A state whose list of mantles is another one. -/
def withMantles (mantles : List Json) (s : Json) : Json :=
  .obj (setMember Key.mantles (.arr mantles) s.members)

theorem mantles_withMantles (mantles : List Json) (s : Json) :
    arrayItems ((withMantles mantles s).get Key.mantles) = mantles := by
  rw [withMantles, Json.get_obj, lookup_setMember]
  rfl

theorem glyphs_withMantles (mantles : List Json) (s : Json) :
    (withMantles mantles s).get Key.glyphs = s.get Key.glyphs := by
  rw [withMantles, Json.get_obj, lookup_setMember_ne _ _ (by decide), Json.get_eq_lookup_members]

/-- The slice of a state in which a mantle is replaced by one that encodes alike. -/
theorem canonSlice_replace {policy : SlicePolicy} {s m m' : Json} {b : Bytes} {before after : List Json}
    (hs : canonSlice s policy = .ok b)
    (hm : arrayItems (s.get Key.mantles) = before ++ m :: after)
    (he : canonMantle policy m' = canonMantle policy m) (hname : m'.get Key.name = m.get Key.name) :
    canonSlice (withMantles (before ++ m' :: after) s) policy = .ok b := by
  obtain ⟨mantles, glyphs, hmantles, hnd, hglyphs, h⟩ := canonSlice_eq_ok.mp hs
  rw [hm] at hmantles hnd
  refine canonSlice_eq_ok.mpr ⟨mantles, glyphs, ?_, ?_, ?_, h⟩
  · rw [mantles_withMantles, ← hmantles]
    refine encodeEach_congr ?_
    rw [List.map_append, List.map_append, List.map_cons, List.map_cons, he]
  · rw [mantles_withMantles]
    rw [List.map_append, List.map_cons] at hnd ⊢
    rwa [hname]
  · rw [canonGlyphs, glyphs_withMantles]
    exact hglyphs

/-- The versions of a state that Core shapes are told apart by the canonical form exactly when
they differ, as long as both endpoints of each of its edges are names; an endpoint that is a
mantle and a rune is read as no text at all, so an edge that leads there has the version name
of every other such edge. -/
theorem version_iff {policy : SlicePolicy} {s : Json} {b : Bytes} (hs : CoreState s)
    (hb : canonSlice s policy = .ok b) :
    (∀ t c, CoreState t → canonSlice t policy = .ok c → (b = c ↔ SameState policy s t)) ↔
      EdgesNamed s := by
  constructor
  · intro h
    by_contra hnamed
    unfold EdgesNamed at hnamed
    push Not at hnamed
    obtain ⟨m, hm, e, he, hn⟩ := hnamed
    have hmc : CoreMantle m := hs.mantles.mem hm
    obtain ⟨n, hfresh⟩ := exists_fresh_endpoint
      ((arrayItems (s.get Key.mantles)).flatMap mantleEdges)
    obtain ⟨f, hfc, hfe, hfar⟩ := exists_reads_same (hmc.edge he) (fun hh => hn hh.1 hh.2) n
    obtain ⟨before, after, hsplit⟩ := List.append_of_mem hm
    -- The state with a twin of the edge, which leads where no edge of the state does.
    let t := withMantles (before ++ withEdge f m :: after) s
    obtain ⟨mantles, -, hmantles, -, -, -⟩ := canonSlice_eq_ok.mp hb
    obtain ⟨mb, hmb⟩ := encodeEach_item hmantles hm
    have ht : canonSlice t policy = .ok b := canonSlice_replace hb hsplit
      ((canonMantle_withEdge hmb he hfe).trans hmb.symm) (get_withEdge f m (by decide))
    have htc : CoreState t := by
      refine ⟨⟨_, rfl⟩, fun v hv => ?_, ?_⟩
      · rw [show t.get Key.mantles = _ from lookup_setMember _ _ _] at hv
        cases hv
        refine ⟨_, rfl, fun x hx => ?_⟩
        have hall : ∀ y ∈ before ++ m :: after, CoreMantle y := fun y hy =>
          hs.mantles.mem (hsplit ▸ hy)
        rcases List.mem_append.mp hx with hx | hx
        · exact hall x (List.mem_append_left _ hx)
        · rcases List.mem_cons.mp hx with rfl | hx
          · exact hmc.withEdge hfc
          · exact hall x (List.mem_append_right _ (List.mem_cons_of_mem _ hx))
      · rw [glyphs_withMantles]
        exact hs.glyphs
    obtain ⟨hmantles, -⟩ := (h t b htc ht).mp rfl
    have hmt : withEdge f m ∈ arrayItems (t.get Key.mantles) := by
      rw [mantles_withMantles]
      exact List.mem_append_right _ List.mem_cons_self
    obtain ⟨m₀, hm₀, hsame⟩ := hmantles.2 _ hmt
    have hft : f ∈ mantleEdges (withEdge f m) := by
      rw [mantleEdges_withEdge]
      exact List.mem_append_right _ (List.mem_singleton_self f)
    obtain ⟨e₀, he₀, hse⟩ := hsame.edges.2 f hft
    obtain ⟨h1, h2⟩ := hfresh e₀ (List.mem_flatMap.mpr ⟨m₀, hm₀, he₀⟩)
    rcases hse.ends with hends | ⟨-, hends⟩
    · rcases hfar with hfar | hfar
      · exact h1 (by rw [hends, hfar])
      · exact h2 (by rw [hends, hfar])
    · rcases hfar with hfar | hfar
      · exact h2 (by rw [hends, Prod.snd_swap, hfar])
      · exact h1 (by rw [hends, Prod.fst_swap, hfar])
  · intro hnamed t c ht hc
    rw [canonSlice_inj hb hc hs.declaredOnce ht.declaredOnce]
    constructor
    · intro h
      exact h.imp_edges fun m hm e he f hef => hef.of_named (hnamed m hm e he)
    · intro h
      exact h.imp_edges fun m _ e _ f hef => hef.coarser Endpoint.text textOr_eq_text

/-- A state with one mantle and, in it, one edge that starts at `start` and leads to `b`. -/
def linked (start : Json) : Json :=
  .obj [(Key.mantles, .arr [.obj [(Key.name, .str (.ofLit "m")), (Key.layout, .obj [(Key.edges,
    .arr [.obj [(.ofLit "from", start), (.ofLit "to", .str (.ofLit "b"))]])])]])]

theorem coreState_linked {start : Json} (h : CoreEndpoint (some start)) : CoreState (linked start) := by
  refine ⟨⟨_, rfl⟩, ?_, fun v hv => by cases hv⟩
  rintro _ ⟨⟩
  refine ⟨_, rfl, List.forall_mem_singleton.mpr ⟨⟨_, rfl⟩, fun v hv => (by cases hv), ?_, fun v hv => (by cases hv), ?_⟩⟩
  · rintro _ ⟨⟩
    exact ⟨_, rfl⟩
  · rintro _ ⟨⟩
    refine ⟨_, rfl, ?_⟩
    rintro _ ⟨⟩
    exact ⟨_, rfl, List.forall_mem_singleton.mpr ⟨⟨_, rfl⟩, h, .inl ⟨_, rfl⟩,
      fun v hv => (by cases hv), fun v hv => (by cases hv), fun v hv => by cases hv⟩⟩

/-- An edge between two names is told apart from everything else. -/
theorem version_linked : ∃ b, canonSlice (linked (.str (.ofLit "a"))) {} = .ok b ∧
    ∀ t c, CoreState t → canonSlice t {} = .ok c →
      (b = c ↔ SameState {} (linked (.str (.ofLit "a"))) t) := by
  have hb : canonSlice (linked (.str (.ofLit "a"))) {} =
      .ok ((canonSlice (linked (.str (.ofLit "a"))) {}).toOption.getD []) := by decide +kernel
  refine ⟨_, hb, (version_iff (coreState_linked (.inl ⟨_, rfl⟩)) hb).mpr ?_⟩
  refine List.forall_mem_singleton.mpr (List.forall_mem_singleton.mpr ?_)
  exact ⟨⟨_, rfl, by decide⟩, ⟨_, rfl, by decide⟩⟩

/-- Two states whose edges start at different runes of another mantle share a version name. -/
theorem version_collision :
    ∃ b, canonSlice (linked (farEndpoint 1)) {} = .ok b ∧ canonSlice (linked (farEndpoint 2)) {} = .ok b ∧
      CoreState (linked (farEndpoint 1)) ∧ CoreState (linked (farEndpoint 2)) ∧
      ¬ SameState {} (linked (farEndpoint 1)) (linked (farEndpoint 2)) := by
  refine ⟨(canonSlice (linked (farEndpoint 1)) {}).toOption.getD [], by decide +kernel,
    by decide +kernel, coreState_linked (coreEndpoint_far 1), coreState_linked (coreEndpoint_far 2),
    fun h => ?_⟩
  obtain ⟨n, hn, hmn⟩ := h.mantles.1 _ List.mem_cons_self
  obtain rfl := List.mem_singleton.mp hn
  obtain ⟨f, hf, hef⟩ := hmn.edges.1 _ List.mem_cons_self
  obtain rfl := List.mem_singleton.mp hf
  rcases hef.ends with hends | ⟨hd, -⟩
  · exact absurd hends (by decide)
  · cases hd

end VoidPalabra
