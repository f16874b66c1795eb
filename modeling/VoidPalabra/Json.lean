import VoidPalabra.Bytes
import VoidPalabra.Double

/-!
# The cJSON tree

States, documents and deltas are all cJSON trees. A null pointer is `none`, so
every reader that the source calls on a possibly missing item takes an `Option`.
Objects are member lists in order, and may name a member twice: cJSON keeps both
and its lookup returns the first.
-/

namespace VoidPalabra

/-- A cJSON item. Raw items, which no parser produces and nothing here builds,
have no constructor. -/
inductive Json where
  | null
  | bool (b : Bool)
  | num (d : Double)
  | str (s : CString)
  | arr (items : List Json)
  | obj (members : List (CString × Json))

namespace Json

/-- Induction with the children of a container as hypotheses. -/
theorem induct {P : Json → Prop} (null : P .null) (bool : ∀ b, P (.bool b))
    (num : ∀ d, P (.num d)) (str : ∀ s, P (.str s))
    (arr : ∀ xs, (∀ x ∈ xs, P x) → P (.arr xs))
    (obj : ∀ ms, (∀ m ∈ ms, P m.2) → P (.obj ms)) (j : Json) : P j := by
  refine @Json.rec P (fun xs => ∀ x ∈ xs, P x) (fun ms => ∀ m ∈ ms, P m.2) (fun m => P m.2)
    null bool num str (fun xs h => arr xs h) (fun ms h => obj ms h) ?_ ?_ ?_ ?_ ?_ j
  · simp
  · rintro x xs hx hxs y hy
    rcases List.mem_cons.mp hy with rfl | hy
    · exact hx
    · exact hxs y hy
  · simp
  · rintro m ms hm hms n hn
    rcases List.mem_cons.mp hn with rfl | hn
    · exact hm
    · exact hms n hn
  · intro k j h
    exact h

/-- The value of the first member of that name in a member list. -/
def lookup (k : CString) : List (CString × Json) → Option Json
  | [] => none
  | (k', v) :: rest => if k' = k then some v else lookup k rest

/-- `cJSON_GetObjectItemCaseSensitive`: only an object's children have names. -/
def get (j : Json) (k : CString) : Option Json :=
  match j with
  | .obj ms => lookup k ms
  | _ => none

/-- The children of an item with their names, in order: the loop
`for (it = j->child; it; it = it->next)`. -/
def child (j : Json) : List (Option CString × Json) :=
  match j with
  | .arr xs => xs.map fun x => (none, x)
  | .obj ms => ms.map fun m => (some m.1, m.2)
  | _ => []

/-- The members of an object, none for any other item. -/
def members (j : Json) : List (CString × Json) :=
  match j with
  | .obj ms => ms
  | _ => []

/-- `cJSON_IsObject`. -/
def isObject : Json → Bool
  | .obj _ => true
  | _ => false

/-- `cJSON_IsArray`. -/
def isArray : Json → Bool
  | .arr _ => true
  | _ => false

/-- `cJSON_IsNull`. -/
def isNull : Json → Bool
  | .null => true
  | _ => false

/-- `valuestring` of an item that is a string. -/
def string? : Json → Option CString
  | .str s => some s
  | _ => none

@[simp] theorem get_obj (ms : List (CString × Json)) (k : CString) :
    (Json.obj ms).get k = lookup k ms := rfl

@[simp] theorem members_obj (ms : List (CString × Json)) : (Json.obj ms).members = ms := rfl

@[simp] theorem lookup_nil (k : CString) : lookup k [] = none := rfl

theorem lookup_cons (k k' : CString) (v : Json) (rest : List (CString × Json)) :
    lookup k ((k', v) :: rest) = if k' = k then some v else lookup k rest := rfl

/-- Lookup reads the members of an object. -/
theorem get_eq_lookup_members (j : Json) (k : CString) : j.get k = lookup k j.members := by
  cases j <;> rfl

/-- What lookup finds is a member. -/
theorem mem_of_lookup {k : CString} {v : Json} {ms : List (CString × Json)}
    (h : lookup k ms = some v) : (k, v) ∈ ms := by
  induction ms with
  | nil => cases h
  | cons m rest ih =>
    obtain ⟨k', w⟩ := m
    rw [lookup_cons] at h
    split at h
    · rename_i hk
      cases h
      exact hk ▸ List.mem_cons_self
    · exact List.mem_cons_of_mem _ (ih h)

/-- Among members named once, lookup finds each of them. -/
theorem lookup_of_mem {k : CString} {v : Json} {ms : List (CString × Json)}
    (hd : (ms.map Prod.fst).Nodup) (h : (k, v) ∈ ms) : lookup k ms = some v := by
  induction ms with
  | nil => cases h
  | cons m rest ih =>
    obtain ⟨k', w⟩ := m
    rw [List.map_cons, List.nodup_cons] at hd
    rw [lookup_cons]
    rcases List.mem_cons.mp h with he | hm
    · cases he
      rw [if_pos rfl]
    · have hne : k' ≠ k := by
        rintro rfl
        exact hd.1 (List.mem_map.mpr ⟨_, hm, rfl⟩)
      rw [if_neg hne]
      exact ih hd.2 hm

/-- Lookup fails exactly on the names that are not there. -/
theorem lookup_eq_none_iff {k : CString} {ms : List (CString × Json)} :
    lookup k ms = none ↔ k ∉ ms.map Prod.fst := by
  induction ms with
  | nil => simp
  | cons m rest ih =>
    obtain ⟨k', w⟩ := m
    rw [lookup_cons, List.map_cons, List.mem_cons, not_or, ← ih]
    by_cases hk : k' = k
    · simp [hk]
    · simp [hk, Ne.symm hk]

theorem lookup_append (k : CString) (ms ns : List (CString × Json)) :
    lookup k (ms ++ ns) = (lookup k ms).or (lookup k ns) := by
  induction ms with
  | nil => rfl
  | cons m rest ih =>
    obtain ⟨k', w⟩ := m
    rw [List.cons_append, lookup_cons, lookup_cons]
    split
    · rfl
    · exact ih

/-- A found member is strictly smaller than the member list. -/
theorem sizeOf_lookup {k : CString} {v : Json} {ms : List (CString × Json)}
    (h : lookup k ms = some v) : sizeOf v < sizeOf ms := by
  have hm := List.sizeOf_lt_of_mem (mem_of_lookup h)
  have : sizeOf (k, v) = 1 + sizeOf k + sizeOf v := rfl
  omega

end Json

/-- `get` on an item that may be missing. -/
def get (j : Option Json) (k : CString) : Option Json := j.bind fun v => v.get k

@[simp] theorem get_none (k : CString) : get none k = none := rfl

@[simp] theorem get_some (j : Json) (k : CString) : get (some j) k = j.get k := rfl

/-- `str_or`: the text of a string item, or the fallback. -/
def strOr (j : Option Json) (fallback : CString) : CString :=
  (j.bind Json.string?).getD fallback

/-! ### The names of the source -/

namespace Key

/-- The member holding an OR-set's adds. -/
def a : CString := .ofLit "a"
/-- The member holding an OR-set's retired tags. -/
def r : CString := .ofLit "r"
/-- The document shape marker. -/
def palabra : CString := .ofLit "palabra"
/-- The mantles of a document or a state. -/
def mantles : CString := .ofLit "mantles"
/-- The glyph declarations of a document or a state. -/
def glyphs : CString := .ofLit "glyphs"
/-- The set that says a thing exists. -/
def present : CString := .ofLit "present"
/-- The registers of a thing. -/
def fields : CString := .ofLit "fields"
/-- The runes of a mantle. -/
def runes : CString := .ofLit "runes"
/-- The links of a mantle. -/
def edges : CString := .ofLit "edges"
/-- A rune's tags, or a mantle's. -/
def tags : CString := .ofLit "tags"
/-- A mantle's identity field, or a spirit's. -/
def id : CString := .ofLit "id"
/-- A mantle's domain. -/
def domain : CString := .ofLit "domain"
/-- A mantle's rules. -/
def rules : CString := .ofLit "rules"
/-- A mantle's or a spirit's name. -/
def name : CString := .ofLit "name"
/-- A rune's identity. -/
def spirit : CString := .ofLit "spirit"
/-- The register of a rune's name. -/
def spiritName : CString := .ofLit "spirit.name"
/-- A rune's glyph. -/
def glyph : CString := .ofLit "glyph"
/-- A rune's facets. -/
def facets : CString := .ofLit "facets"
/-- A rune's content. -/
def content : CString := .ofLit "content"
/-- A rune's placement. -/
def placement : CString := .ofLit "placement"
/-- A rune's relations. -/
def relations : CString := .ofLit "relations"
/-- A mantle's layout. -/
def layout : CString := .ofLit "layout"
/-- The register of a glyph declaration. -/
def descriptor : CString := .ofLit "descriptor"
/-- The peer-local member of a declaration. -/
def source : CString := .ofLit "source"
/-- The prefix of a facet's register. -/
def facetsDot : CString := .ofLit "facets."
/-- The prefix of a content key's register. -/
def contentDot : CString := .ofLit "content."
/-- The prefix of a mantle tag's register. -/
def tagsDot : CString := .ofLit "tags."

end Key

/-- The six facets of a rune. -/
def kFacets : List CString :=
  [.ofLit "who", .ofLit "what", .ofLit "when", .ofLit "where", .ofLit "why", .ofLit "how"]

end VoidPalabra
