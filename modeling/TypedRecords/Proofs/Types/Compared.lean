import TypedRecords.Proofs.Results
import TypedRecords.Proofs.Types.Check

/-! # What checking compares

Where a value is checked matters only for the classes in it that a type compares with the class it
names. Sanitizing a value that is accepted leaves it accepted, and all of these classes in it.
-/

namespace TypedRecords

namespace ValueType

variable {site site' : Site} {t : ValueType} {v : Value} {name : String} {toClass : Bool}

/-- The classes in a value that a type compares with the one that it names, looking through arrays. -/
def compared : ValueType → Value → List ClassRef
  | .array item _, .array items => items.flatMap fun v => compared item v
  | .reference _ true _, .classRef c => [c]
  | .reference _ false _, .record r => [r.cls]
  | _, _ => []

theorem compared_sketch (t : ValueType) (v : Value) : t.compared v.sketch = t.compared v := by
  induction t generalizing v with
  | scalar kind traits => rfl
  | array item traits ih =>
    cases v with
    | array items =>
      simp only [Value.sketch, Value.sketchItems_eq_map, compared, List.flatMap_map, ih]
    | _ => rfl
  | reference name toClass traits => cases toClass <;> cases v <;> rfl

/-! ### Sites -/

theorem check_scalar_site {kind : ScalarKind} {traits : Traits}
    (h : check site (.scalar kind traits) v = .ok ()) :
    check site' (.scalar kind traits) v = .ok () := by
  by_cases hkind : kind = .any
  · subst hkind
    rfl
  · by_cases hv : v = .undefined
    · subst hv
      exact check_undefined (check_undefined_iff.1 h)
    · rw [check_scalar hkind traits v hv] at h ⊢
      split at h
      · next haccepts =>
        rw [if_pos haccepts]
        rfl
      · cases h

theorem check_undefined_site (hplace : site'.place = site.place) (t : ValueType) :
    t.check site' .undefined = t.check site .undefined := by
  cases t with
  | scalar kind traits => cases kind <;> simp only [check, mismatch, hplace]
  | array item traits => simp only [check, mismatch, hplace]
  | reference name toClass traits => simp only [check, mismatch, hplace]

/-- What is accepted at one place is accepted at another that admits the classes in it. -/
theorem check_of_admits (h : t.check site v = .ok ())
    (hadmits : ∀ name toClass, t.reference? = some (name, toClass) → ∀ c ∈ t.compared v,
      site.admits name c = true → site'.admits name c = true) : t.check site' v = .ok () := by
  induction t generalizing v with
  | scalar kind traits => exact check_scalar_site h
  | array item traits ih =>
    cases v with
    | undefined => exact check_undefined (check_undefined_iff.1 h)
    | array items =>
      refine forM_of_ok fun v hv => ih (forM_eq_ok h hv) fun name toClass hname c hc => ?_
      exact hadmits name toClass hname c (List.mem_flatMap.2 ⟨v, hv, hc⟩)
    | _ => cases h
  | reference name toClass traits =>
    have hsame := hadmits name toClass rfl
    cases toClass with
    | true =>
      cases v with
      | undefined => exact check_undefined (check_undefined_iff.1 h)
      | classRef c =>
        simp only [check] at h ⊢
        split at h
        · next hc =>
          rw [if_pos (hsame c (List.mem_singleton.2 rfl) hc)]
          rfl
        · cases h
      | _ => cases h
    | false =>
      cases v with
      | undefined => exact check_undefined (check_undefined_iff.1 h)
      | record r =>
        simp only [check] at h ⊢
        split at h
        · next hc =>
          rw [if_pos (hsame r.cls (List.mem_singleton.2 rfl) hc)]
          rfl
        · cases h
      | _ => cases h

/-- The classes in a value that is accepted are admitted. -/
theorem admits_compared (h : t.check site v = .ok ()) (hname : t.reference? = some (name, toClass)) :
    ∀ c ∈ t.compared v, site.admits name c = true := by
  induction t generalizing v with
  | scalar kind traits => cases hname
  | array item traits ih =>
    cases v with
    | array items =>
      intro c hc
      obtain ⟨v, hv, hc⟩ := List.mem_flatMap.1 hc
      exact ih (forM_eq_ok h hv) hname c hc
    | _ => exact fun c hc => by cases hc
  | reference name' toClass' traits =>
    cases hname
    intro c hc
    cases toClass with
    | true =>
      cases v with
      | classRef c' =>
        obtain rfl := List.mem_singleton.1 hc
        simp only [check] at h
        split at h
        · assumption
        · cases h
      | _ => cases hc
    | false =>
      cases v with
      | record r =>
        obtain rfl := List.mem_singleton.1 hc
        simp only [check] at h
        split at h
        · assumption
        · cases h
      | _ => cases hc

/-! ### Sanitizing -/

theorem check_apply (sanitizer : Sanitizer) (h : t.check site v = .ok ()) :
    t.check site (sanitizer.apply v) = .ok () := by
  cases sanitizer with
  | trim =>
    cases v with
    | string s =>
      cases t with
      | scalar kind traits => cases kind <;> first | rfl | cases h
      | array item traits => cases h
      | reference name toClass traits => cases toClass <;> cases h
    | _ => exact h
  | compact =>
    cases v with
    | array items =>
      cases t with
      | scalar kind traits => cases kind <;> first | rfl | cases h
      | array item traits =>
        exact forM_of_ok fun v hv => forM_eq_ok h (List.mem_of_mem_filter hv)
      | reference name toClass traits => cases toClass <;> cases h
    | _ => exact h

/-- What is compacted away has no class to compare. -/
theorem compared_of_not_isSubstantial (t : ValueType) (h : Sanitizer.isSubstantial v = false) :
    t.compared v = [] := by
  cases v with
  | undefined => cases t with
    | reference name toClass traits => cases toClass <;> rfl
    | _ => rfl
  | null => cases t with
    | reference name toClass traits => cases toClass <;> rfl
    | _ => rfl
  | string s => cases t with
    | reference name toClass traits => cases toClass <;> rfl
    | _ => rfl
  | _ => cases h

theorem compared_apply (sanitizer : Sanitizer) (t : ValueType) (v : Value) :
    t.compared (sanitizer.apply v) = t.compared v := by
  cases sanitizer with
  | trim =>
    cases v with
    | string s => cases t with
      | reference name toClass traits => cases toClass <;> rfl
      | _ => rfl
    | _ => rfl
  | compact =>
    cases v with
    | array items =>
      cases t with
      | array item traits =>
        simp only [Sanitizer.apply, compared]
        induction items with
        | nil => rfl
        | cons v rest ih =>
          rw [List.filter_cons, List.flatMap_cons]
          split
          · rw [List.flatMap_cons, ih]
          · next hv =>
            rw [ih, compared_of_not_isSubstantial item (Bool.eq_false_iff.2 hv), List.nil_append]
      | scalar kind traits => rfl
      | reference name toClass traits => cases toClass <;> rfl
    | _ => rfl

/-- What every sanitizer keeps of a value, those of a type keep one after the other. -/
theorem finish_keeps {P : Value → Prop} (happly : ∀ (s : Sanitizer) v, P v → P (s.apply v))
    (t : ValueType) (h : P v) : P (sanitize.finish t v) := by
  unfold sanitize.finish
  generalize t.traits.sanitizers = sanitizers
  induction sanitizers generalizing v with
  | nil => exact h
  | cons sanitizer rest ih => exact ih (happly sanitizer v h)

/-- A value that is accepted is accepted when it is sanitized. -/
theorem check_sanitize (h : t.check site v = .ok ()) : t.check site (t.sanitize v) = .ok () := by
  have hfinish : ∀ (t : ValueType) {v : Value}, t.check site v = .ok () →
      t.check site (sanitize.finish t v) = .ok () :=
    fun t _ => finish_keeps (P := fun v => t.check site v = .ok ()) (fun s v => check_apply s) t
  induction t generalizing v with
  | array item traits ih =>
    cases v with
    | array items =>
      refine hfinish _ (forM_of_ok fun w hw => ?_)
      obtain ⟨v, hv, rfl⟩ := List.mem_map.1 hw
      exact ih (forM_eq_ok h hv)
    | _ => exact hfinish _ h
  | _ => exact hfinish _ h

theorem compared_sanitize (t : ValueType) (v : Value) : t.compared (t.sanitize v) = t.compared v := by
  have hfinish : ∀ (t : ValueType) (w : Value), t.compared (sanitize.finish t w) = t.compared w :=
    fun t w => finish_keeps (P := fun v => t.compared v = t.compared w)
      (fun s v h => (compared_apply s t v).trans h) t rfl
  induction t generalizing v with
  | array item traits ih =>
    cases v with
    | array items =>
      rw [sanitize, hfinish]
      simp only [compared, List.flatMap_map, ih]
    | _ => exact hfinish _ _
  | _ => exact hfinish _ _

end ValueType

end TypedRecords
