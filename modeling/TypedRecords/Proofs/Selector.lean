import TypedRecords.Selector
import TypedRecords.Proofs.Fields

/-! # Laws of selectors

What normal forms, writing and unions select of an attribute.
-/

namespace TypedRecords.Selector

/-- Whether something of an attribute is selected. -/
def Selects (s : Selector) (name : String) : Prop := (s.get name).isNone = false

theorem selects_all (name : String) : Selects .all name := rfl

/-- What a list selects something of is listed. -/
theorem mem_of_get {fields : List (String × Selector)} {name : String} {s : Selector}
    (h : (Selector.only fields).get name = s) (hs : s.isNone = false) : (name, s) ∈ fields := by
  rw [get] at h
  cases hf : Fields.get? name fields with
  | none =>
    rw [hf] at h
    subst h
    cases hs
  | some t =>
    rw [hf, Option.getD_some] at h
    subst h
    exact Fields.mem_of_get? hf

theorem isNone_get {s : Selector} (h : s.isNone = true) (name : String) :
    (s.get name).isNone = true := by
  cases s with
  | none => rfl
  | all => cases h
  | only fields => cases h

/-! ### Normal forms -/

theorem isNone_normalize (s : Selector) : s.normalize.isNone = s.isNone := by
  cases s <;> rfl

/-- A listed name that selects something stays in the normal form. -/
theorem get?_normalizeFields {fields : List (String × Selector)} {name : String} {s : Selector}
    (h : Fields.get? name fields = some s) (hs : s.isNone = false) :
    Fields.get? name (normalizeFields fields) = some s.normalize := by
  induction fields with
  | nil => cases h
  | cons entry rest ih =>
    obtain ⟨key, t⟩ := entry
    by_cases hkey : key = name
    · simp only [Fields.get?, hkey, if_true, Option.some.injEq] at h
      subst h
      cases t with
      | none => cases hs
      | all => simp [normalizeFields, normalize, Fields.get?, hkey]
      | only fields => simp [normalizeFields, normalize, Fields.get?, hkey]
    · simp only [Fields.get?, hkey, if_false] at h
      cases t with
      | none => simpa [normalizeFields, normalize] using ih h
      | all => simpa [normalizeFields, normalize, Fields.get?, hkey] using ih h
      | only fields => simpa [normalizeFields, normalize, Fields.get?, hkey] using ih h

theorem get_normalize {s : Selector} {name : String} (h : s.Selects name) :
    s.normalize.get name = (s.get name).normalize := by
  cases s with
  | all => rfl
  | none => rfl
  | only fields =>
    unfold Selects at h
    simp only [get] at h ⊢
    cases hf : Fields.get? name fields with
    | none => simp [hf, isNone] at h
    | some s =>
      rw [hf] at h
      simp only [normalize, get?_normalizeFields hf h, Option.getD_some]

theorem Selects.normalize {s : Selector} {name : String} (h : s.Selects name) :
    s.normalize.Selects name := by
  rw [Selects, get_normalize h, isNone_normalize]
  exact h

/-! ### Writing -/

theorem set_only {fields : List (String × Selector)} {name : String} {value : Selector}
    (h : value.isNone = false) :
    (Selector.only fields).set name value = .only (Fields.insert name value.normalize fields) := by
  simp [set, h]

theorem get_set_self {fields : List (String × Selector)} {name : String} {value : Selector}
    (h : value.isNone = false) :
    ((Selector.only fields).set name value).get name = value.normalize := by
  simp [set_only h, get]

theorem get_set_of_ne {fields : List (String × Selector)} {name other : String} {value : Selector}
    (h : value.isNone = false) (hne : other ≠ name) :
    ((Selector.only fields).set name value).get other = (Selector.only fields).get other := by
  simp [set_only h, get, Fields.get?_insert_of_ne hne]

/-! ### Unions -/

theorem isNone_merge {s : Selector} (h : s.isNone = false) (other : Selector) :
    (s.merge other).isNone = false := by
  cases s with
  | all => rfl
  | none => cases h
  | only fields => cases other <;> rfl

theorem merge_all (s : Selector) : s.merge .all = .all := by
  cases s <;> rfl

theorem none_merge (s : Selector) : Selector.none.merge s = s.normalize := by
  cases s <;> rfl

theorem merge_none (s : Selector) : s.merge .none = s.normalize := by
  cases s <;> rfl

theorem isNone_merge_right {s : Selector} (h : s.isNone = false) (other : Selector) :
    (other.merge s).isNone = false := by
  cases other with
  | all => rfl
  | none => rw [none_merge, isNone_normalize, h]
  | only fields =>
    cases s with
    | all => rfl
    | none => cases h
    | only _ => rfl

theorem get?_entry_of_ne {key name : String} (h : key ≠ name) (s : Selector) :
    Fields.get? name (entry key s) = Option.none := by
  unfold entry
  split
  · rfl
  · simp [Fields.get?, h]

/-- What two lists select of a name that the first one lists. -/
def mergeEntry (s : Selector) : Option Selector → Selector
  | some t => s.merge t
  | Option.none => s.normalize

theorem get?_mergeFields {fields other : List (String × Selector)} {name : String} {s : Selector}
    (h : Fields.get? name fields = some s)
    (hs : (mergeEntry s (Fields.get? name other)).isNone = false) :
    Fields.get? name (mergeFields fields other) =
      some (mergeEntry s (Fields.get? name other)) := by
  induction fields with
  | nil => cases h
  | cons e rest ih =>
    obtain ⟨key, t⟩ := e
    have hunfold : mergeFields ((key, t) :: rest) other =
        entry key (mergeEntry t (Fields.get? key other)) ++ mergeFields rest other := by
      rw [mergeFields]
      cases Fields.get? key other <;> rfl
    rw [hunfold, Fields.get?_append]
    by_cases hkey : key = name
    · subst hkey
      simp only [Fields.get?, if_true, Option.some.injEq] at h
      subst h
      simp [entry, hs, Fields.get?]
    · simp only [Fields.get?, hkey, if_false] at h
      rw [get?_entry_of_ne hkey, Option.none_or, ih h]

theorem get?_mergeFields_of_none {fields other : List (String × Selector)} {name : String}
    (h : Fields.get? name fields = Option.none) :
    Fields.get? name (mergeFields fields other) = Option.none := by
  induction fields with
  | nil => rfl
  | cons e rest ih =>
    obtain ⟨key, t⟩ := e
    by_cases hkey : key = name
    · simp [Fields.get?, hkey] at h
    · simp only [Fields.get?, hkey, if_false] at h
      rw [mergeFields, Fields.get?_append, get?_entry_of_ne hkey, Option.none_or, ih h]

/-- A union selects of each attribute what one of the two selects of it. -/
theorem get_merge {s t : Selector} {name : String} (h : s.Selects name ∨ t.Selects name) :
    (s.merge t).get name = (s.get name).merge (t.get name) := by
  cases s with
  | all => rfl
  | none =>
    have ht : t.Selects name := by
      rcases h with h | h
      · cases h
      · exact h
    rw [none_merge, get_normalize ht, ← none_merge]
    rfl
  | only fields =>
    cases t with
    | all => exact (merge_all _).symm
    | none =>
      have hs : (Selector.only fields).Selects name := by
        rcases h with h | h
        · exact h
        · cases h
      rw [merge_none, get_normalize hs, ← merge_none]
      rfl
    | only other =>
      simp only [Selects, get] at h
      simp only [merge, get, Fields.get?_append]
      cases hs : Fields.get? name fields with
      | some s₁ =>
        have hmerged : (mergeEntry s₁ (Fields.get? name other)).isNone = false := by
          rw [hs] at h
          cases ht : Fields.get? name other with
          | some t₁ =>
            rw [ht] at h
            rcases h with h | h
            · exact isNone_merge h t₁
            · exact isNone_merge_right h s₁
          | none =>
            rw [ht] at h
            rcases h with h | h
            · rwa [mergeEntry, isNone_normalize]
            · cases h
        rw [get?_mergeFields hs hmerged]
        cases ht : Fields.get? name other with
        | some t₁ => rfl
        | none => exact (merge_none s₁).symm
      | none =>
        rw [get?_mergeFields_of_none hs, Option.none_or]
        cases ht : Fields.get? name other with
        | none =>
          rw [hs, ht] at h
          rcases h with h | h <;> cases h
        | some t₁ =>
          have hsome : t₁.isNone = false := by
            rw [hs, ht] at h
            rcases h with h | h
            · cases h
            · exact h
          have hkept : Fields.get? name (other.filter fun e => !Fields.contains e.1 fields) =
              some t₁ := by
            rw [Fields.get?_filter, ht]
            intro value
            simp [Fields.contains, hs]
          rw [addedBy, get?_normalizeFields hkept hsome]
          exact (none_merge t₁).symm

end TypedRecords.Selector
