import TypedRecords.Class.Definition
import TypedRecords.Proofs.Value.WellFormed

/-! # What checking sees

Checking a value does not look into objects, and of a record it sees the class alone.
-/

namespace TypedRecords

namespace Value

mutual

/-- What checking sees of a value: records by their classes, and nothing inside of objects. -/
def sketch : Value → Value
  | .record r => .record (.made 0 r.cls)
  | .array items => .array (sketchItems items)
  | .object _ => .object []
  | v => v

def sketchItems : List Value → List Value
  | [] => []
  | v :: rest => sketch v :: sketchItems rest

end

theorem sketchItems_eq_map (items : List Value) : sketchItems items = items.map sketch := by
  induction items with
  | nil => rfl
  | cons v rest ih => rw [sketchItems, ih, List.map_cons]

theorem typeName_sketch (v : Value) : v.sketch.typeName = v.typeName := by
  cases v <;> rfl

theorem sketch_eq_undefined_iff {v : Value} : v.sketch = .undefined ↔ v = .undefined := by
  cases v <;> simp [sketch]

/-- A value that can identify a record. -/
def IsKey (v : Value) : Prop := (∃ s, v = .string s) ∨ ∃ x, v = .number x

theorem IsKey.of_beq {v w : Value} (hv : v.IsKey) (h : w.beq v = true) :
    w.IsKey := by
  rcases hv with ⟨s, rfl⟩ | ⟨x, rfl⟩
  · cases w with
    | string s' => exact .inl ⟨s', rfl⟩
    | _ => simp [beq] at h
  · cases w with
    | number x' => exact .inr ⟨x', rfl⟩
    | _ => simp [beq] at h

theorem IsKey.beq_comm {v : Value} (hv : v.IsKey) (w : Value) : v.beq w = w.beq v := by
  rcases hv with ⟨s, rfl⟩ | ⟨x, rfl⟩
  · cases w with
    | string s' =>
      simp only [beq]
      exact BEq.comm
    | _ => rfl
  · cases w with
    | number y =>
      simp only [beq]
      exact Number.beq_comm x y
    | _ => rfl

/-- Keys that are equal are equal to the same values. -/
theorem IsKey.beq_congr {u v : Value} (hv : v.IsKey) (h : u.beq v = true) (w : Value) :
    u.beq w = v.beq w := by
  rcases hv with ⟨s, rfl⟩ | ⟨x, rfl⟩
  · cases u with
    | string s' =>
      have heq : s' = s := by simpa [beq] using h
      rw [heq]
    | _ => simp [beq] at h
  · cases u with
    | number y =>
      have hyx : y.beq x = true := by simpa [beq] using h
      cases w with
      | number z =>
        simp only [beq]
        rw [Bool.eq_iff_iff]
        exact ⟨Number.beq_trans ((Number.beq_comm x y).trans hyx), Number.beq_trans hyx⟩
      | _ => rfl
    | _ => simp [beq] at h

theorem IsKey.ne_undefined {v : Value} (h : v.IsKey) : v ≠ .undefined := by
  rcases h with ⟨s, rfl⟩ | ⟨x, rfl⟩ <;> simp

end Value

namespace ValueType

variable {site : Site}

theorem check_scalar {kind : ScalarKind} (hkind : kind ≠ .any) (traits : Traits) (v : Value)
    (hv : v ≠ .undefined) :
    check site (.scalar kind traits) v =
      if kind.accepts v then pure () else throw ((ValueType.scalar kind traits).mismatch site v) := by
  cases kind with
  | any => exact absurd rfl hkind
  | _ => cases v <;> first | rfl | exact absurd rfl hv

theorem accepts_sketch (kind : ScalarKind) (v : Value) :
    kind.accepts v.sketch = kind.accepts v := by
  cases kind <;> cases v <;> rfl

theorem mismatch_sketch (t : ValueType) (v : Value) :
    t.mismatch site v.sketch = t.mismatch site v := by
  simp only [mismatch, Value.typeName_sketch]

theorem check_sketch (t : ValueType) (v : Value) : t.check site v.sketch = t.check site v := by
  induction t generalizing v with
  | scalar kind traits =>
    by_cases hkind : kind = .any
    · subst hkind
      rfl
    · by_cases hv : v = .undefined
      · subst hv
        rfl
      · have hsketch : v.sketch ≠ .undefined := fun h => hv (Value.sketch_eq_undefined_iff.1 h)
        rw [check_scalar hkind traits _ hsketch, check_scalar hkind traits _ hv, accepts_sketch,
          mismatch_sketch]
  | array item traits ih =>
    cases v with
    | array items =>
      simp only [Value.sketch, Value.sketchItems_eq_map, check]
      induction items with
      | nil => rfl
      | cons v rest ihRest =>
        rw [List.map_cons, List.forM, List.forM, ih v, ihRest]
    | _ => rfl
  | reference name toClass traits => cases toClass <;> cases v <;> rfl

theorem check_undefined {t : ValueType} (h : t.allowsUndefined = true) :
    t.check site .undefined = .ok () := by
  rcases Bool.or_eq_true_iff.1 h with hoptional | hany
  · cases t with
    | scalar kind traits =>
      have htraits : traits.optional = true := hoptional
      cases kind <;> simp [check, isOptional, ValueType.traits, htraits] <;> rfl
    | array item traits =>
      simp only [check, hoptional, if_true]
      rfl
    | reference name toClass traits =>
      simp only [check, hoptional, if_true]
      rfl
  · cases t with
    | scalar kind traits =>
      cases kind with
      | any => rfl
      | _ => cases hany
    | _ => cases hany

theorem check_undefined_iff {t : ValueType} :
    t.check site .undefined = .ok () ↔ t.allowsUndefined = true := by
  refine ⟨fun h => ?_, check_undefined⟩
  by_contra hnot
  obtain ⟨hoptional, hany⟩ := Bool.or_eq_false_iff.1 (Bool.eq_false_iff.2 hnot)
  cases t with
  | scalar kind traits =>
    cases kind with
    | any => cases hany
    | _ =>
      simp only [check, hoptional] at h
      cases h
  | array item traits =>
    simp only [check, hoptional] at h
    cases h
  | reference name toClass traits =>
    simp only [check, hoptional] at h
    cases h

/-- What an identifier accepts is a key, unless it is undefined. -/
theorem isKey_of_check {t : ValueType} (ht : ClassDeclaration.canIdentify t = true) {v : Value}
    (h : t.check site v = .ok ()) (hv : v ≠ .undefined) : v.IsKey := by
  cases t with
  | scalar kind traits =>
    cases kind with
    | string =>
      rw [check_scalar (by decide) _ _ hv] at h
      cases v with
      | string s => exact .inl ⟨s, rfl⟩
      | _ => cases h
    | number =>
      rw [check_scalar (by decide) _ _ hv] at h
      cases v with
      | number x => exact .inr ⟨x, rfl⟩
      | _ => cases h
    | _ => cases ht
  | array item traits => cases ht
  | reference name toClass traits => cases ht

end ValueType

end TypedRecords
