import VoidPalabra.Readable
import VoidPalabra.Replica

/-!
# What a reason is made of

A reason for refusing a document is written with names of the document and with literals, so
there is no NUL in it, and a frame takes it whole.
-/

namespace VoidPalabra

/-! ### Checks -/

/-- A check whose reason for refusing has no NUL. -/
def Plain (x : Except Bytes Unit) : Prop := ∀ why, x = .error why → (0 : UInt8) ∉ why

theorem noNul_append {a b : Bytes} (ha : (0 : UInt8) ∉ a) (hb : (0 : UInt8) ∉ b) :
    (0 : UInt8) ∉ a ++ b := fun h => (List.mem_append.mp h).elim ha hb

namespace Plain

variable {x : Except Bytes Unit} {path : Bytes} {reason : String}

theorem ok : Plain (.ok ()) := fun _ h => nomatch h

theorem fail (hp : (0 : UInt8) ∉ path) (hr : (0 : UInt8) ∉ lit reason) : Plain (Check.fail path reason) := by
  rintro _ ⟨⟩
  exact noNul_append (noNul_append hp (by decide)) hr

theorem demand {holds : Bool} (hp : (0 : UInt8) ∉ path) (hr : (0 : UInt8) ∉ lit reason) :
    Plain (Check.demand holds path reason) := by
  unfold Check.demand
  split
  · exact ok
  · exact fail hp hr

theorem onlyIf {c : Bool} (h : Plain x) : Plain (Check.onlyIf c x) := by
  unfold Check.onlyIf
  split
  · exact h
  · exact ok

theorem present {n : Json} {k : CString} {check : Json → Except Bytes Unit} (h : ∀ v, Plain (check v)) :
    Plain (Check.present n k check) := by
  unfold Check.present
  split
  · exact h _
  · exact ok

theorem bind {f : Unit → Except Bytes Unit} (hx : Plain x) (hf : Plain (f ())) : Plain (x >>= f) := by
  intro why h
  cases x with
  | error e =>
    cases h
    exact hx _ rfl
  | ok v => exact hf why h

theorem forM {α : Type} {f : α → Except Bytes Unit} {l : List α} (h : ∀ a ∈ l, Plain (f a)) :
    Plain (l.forM f) := by
  induction l with
  | nil => exact ok
  | cons a l ih =>
    rw [List.forM]
    exact (h a List.mem_cons_self).bind (ih fun b hb => h b (List.mem_cons_of_mem _ hb))

theorem noDuplicates {n : Json} (hp : (0 : UInt8) ∉ path) : Plain (noDuplicates n path) := by
  have hloop : ∀ (ms : List (CString × Json)) (seen : NameSet), Plain (noDuplicatesLoop path seen ms) := by
    intro ms
    induction ms with
    | nil => exact fun _ => ok
    | cons m rest ih =>
      intro seen
      unfold noDuplicatesLoop
      split
      · exact fail (noNul_append (noNul_append hp (by decide)) m.1.noNul) (by decide)
      · exact ih _
  exact hloop _ _

theorem checkOrset {n : Json} {rule : Values} (hp : (0 : UInt8) ∉ path) : Plain (checkOrset n path rule) :=
  (onlyIf (noDuplicates hp)).bind <|
    (present fun _ => onlyIf (noDuplicates (noNul_append hp (by decide)))).bind <|
      (demand hp (by decide)).bind <| onlyIf <| forM fun kv _ =>
        demand (noNul_append (noNul_append hp (by decide)) kv.1.noNul) (by decide)

theorem checkMembers {n : Json} {allowed : CString → Bool} (hp : (0 : UInt8) ∉ path) :
    Plain (checkMembers n path allowed) :=
  (demand hp (by decide)).bind <| (noDuplicates hp).bind <| forM fun m _ =>
    demand (noNul_append (noNul_append hp (by decide)) m.1.noNul) (by decide)

theorem fieldsOf {allowed : CString → Bool} {f : Json} (hp : (0 : UInt8) ∉ path) :
    Plain (fieldsOf allowed f path) :=
  (checkMembers hp).bind <| forM fun m _ =>
    checkOrset (noNul_append (noNul_append hp (by decide)) m.1.noNul)

theorem checkName {k : CString} (hp : (0 : UInt8) ∉ path) : Plain (checkName k path) :=
  demand hp (by decide)

theorem checkNamed {n : Json} {check : CString → Json → Bytes → Except Bytes Unit}
    (hp : (0 : UInt8) ∉ path) (h : ∀ k v p, (0 : UInt8) ∉ p → Plain (check k v p)) :
    Plain (checkNamed n path check) :=
  (demand hp (by decide)).bind <| (noDuplicates hp).bind <| forM fun m _ =>
    h m.1 m.2 _ (noNul_append (noNul_append hp (by decide)) m.1.noNul)

theorem checkRune {name : CString} {r : Json} (hp : (0 : UInt8) ∉ path) : Plain (checkRune name r path) :=
  (checkName hp).bind <| (checkMembers hp).bind <|
    (present fun _ => checkOrset (noNul_append hp (by decide))).bind <|
      (present fun _ => fieldsOf (noNul_append hp (by decide))).bind <|
        present fun _ => checkOrset (noNul_append hp (by decide))

theorem checkMantle {name : CString} {m : Json} (hp : (0 : UInt8) ∉ path) :
    Plain (checkMantle name m path) :=
  (checkName hp).bind <| (checkMembers hp).bind <|
    (present fun _ => checkOrset (noNul_append hp (by decide))).bind <|
      (present fun _ => fieldsOf (noNul_append hp (by decide))).bind <|
        (present fun _ => checkOrset (noNul_append hp (by decide))).bind <|
          present fun _ => checkNamed (noNul_append hp (by decide)) fun _ _ _ => checkRune

theorem checkDescriptor {d : Json} (hp : (0 : UInt8) ∉ path) : Plain (checkDescriptor d path) :=
  (checkOrset hp).bind <| forM fun kv _ =>
    demand (noNul_append (noNul_append hp (by decide)) kv.1.noNul) (by decide)

theorem checkGlyph {name : CString} {g : Json} (hp : (0 : UInt8) ∉ path) : Plain (checkGlyph name g path) :=
  (checkName hp).bind <| (checkMembers hp).bind <|
    (present fun _ => checkOrset (noNul_append hp (by decide))).bind <| present fun _ =>
      (checkMembers (noNul_append hp (by decide))).bind <|
        present fun _ => checkDescriptor (noNul_append hp (by decide))

/-- So has every reason of `validate`. -/
theorem validate {root : Json} : Plain (validate root) :=
  (demand (by decide) (by decide)).bind <| (checkMembers (by decide)).bind <|
    (demand (by decide) (by decide)).bind <|
      (present fun _ => checkNamed (by decide) fun _ _ _ => checkMantle).bind <|
        present fun _ => checkNamed (by decide) fun _ _ _ => checkGlyph

end Plain

/-! ### Collisions -/

theorem noNul_collision {mine : NameSet} {myAdds theirAdds : Dict Bytes} {tag : Tag} {problem : Bytes}
    (h : Replica.collision mine myAdds theirAdds tag = some problem) : (0 : UInt8) ∉ problem := by
  unfold Replica.collision at h
  split at h
  · cases h
    decide
  · split at h
    · split at h
      · cases h
      · cases h
        decide
    · cases h

theorem noNul_firstCollision {id : CString} {mine : NameSet} {myAdds theirAdds : Dict Bytes} {why : Bytes} :
    ∀ tags : List Tag, Replica.firstCollision id mine myAdds theirAdds tags = some why →
      (0 : UInt8) ∉ why
  | [], h => nomatch h
  | tag :: rest, h => by
    unfold Replica.firstCollision at h
    split at h
    · exact noNul_firstCollision rest h
    · split at h
      · rename_i problem hproblem
        cases h
        exact noNul_append (noNul_append (noNul_append (noNul_append (by decide) tag.noNul) (by decide))
          (noNul_collision hproblem)) (by decide)
      · exact noNul_firstCollision rest h

/-- Why a document was not merged. -/
theorem noNul_merge {r : Replica} {remote : Json} {why : Bytes}
    (h : (r.merge remote).1 = .invalid why ∨ (r.merge remote).1 = .identityCollision why) :
    (0 : UInt8) ∉ why := by
  unfold Replica.merge at h
  split at h
  · rename_i e he
    rcases h with h | h
    · cases h
      exact Plain.validate _ he
    · cases h
  · split at h
    · rename_i why' hw
      rcases h with h | h
      · cases h
      · cases h
        exact noNul_firstCollision _ hw
    · rcases h with h | h <;> cases h

end VoidPalabra
