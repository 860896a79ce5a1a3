import TypedRecords.Proofs.Document.Remnants

/-! # Gaps

Undefined fields can be left out of an object, but an undefined item has a place in its array: there
it is stored as null, which is another value.
-/

namespace TypedRecords.Value

mutual

/-- No array in the value has an undefined item. -/
def Gapless : Value → Prop
  | .array items => ItemsGapless items
  | .object fields => FieldsGapless fields
  | _ => True

def ItemsGapless : List Value → Prop
  | [] => True
  | v :: rest => v ≠ .undefined ∧ Gapless v ∧ ItemsGapless rest

def FieldsGapless : List (String × Value) → Prop
  | [] => True
  | (_, v) :: rest => Gapless v ∧ FieldsGapless rest

end

theorem gapless_array {items : List Value} :
    (Value.array items).Gapless ↔ ∀ v ∈ items, v ≠ .undefined ∧ v.Gapless := by
  simp only [Gapless]
  induction items with
  | nil => simp [ItemsGapless]
  | cons v rest ih => simp [ItemsGapless, ih, and_assoc]

theorem gapless_object {fields : Object} :
    (Value.object fields).Gapless ↔ ∀ entry ∈ fields, entry.2.Gapless := by
  simp only [Gapless]
  induction fields with
  | nil => simp [FieldsGapless]
  | cons entry rest ih => simp [FieldsGapless, ih]

theorem Gapless.of_defined {v : Value} (h : v ≠ .undefined → v.Gapless) : v.Gapless := by
  by_cases hdefined : v = .undefined
  · rw [hdefined]
    trivial
  · exact h hdefined

theorem gapless_of_fields {fields : Object} (hdistinct : Fields.Distinct fields)
    (h : ∀ name v, Fields.get? name fields = some v → v.Gapless) : (Value.object fields).Gapless :=
  gapless_object.2 fun entry hentry => h entry.1 entry.2 (Fields.get?_of_mem hdistinct hentry)

/-- A tag has no gaps, so only the other fields can have any. -/
theorem gapless_of_tagged {fields : Object} (hdistinct : Fields.Distinct fields) {tag text : String}
    (htag : Fields.get? tag fields = some (.string text))
    (h : ∀ name v, Fields.get? name fields = some v → name ≠ tag → v.Gapless) :
    (Value.object fields).Gapless := by
  refine gapless_of_fields hdistinct fun name v hv => ?_
  by_cases hname : name = tag
  · rw [hname, htag] at hv
    cases hv
    trivial
  · exact h name v hv hname

theorem Gapless.item {items : List Value} (h : (Value.array items).Gapless) {i : Nat} {v : Value}
    (hv : items[i]? = some v) : v ≠ .undefined ∧ v.Gapless :=
  gapless_array.1 h v (List.mem_of_getElem? hv)

theorem Gapless.field {fields : Object} (h : (Value.object fields).Gapless) {name : String}
    {v : Value} (hv : Fields.get? name fields = some v) : v.Gapless :=
  gapless_object.1 h (name, v) (Fields.mem_of_get? hv)

/-! ### Stripped parts -/

theorem stripItems_eq_map (items : List Value) :
    stripItems items = items.map fun v => if v.isUndefined then .null else v.strip := by
  induction items with
  | nil => rfl
  | cons v rest ih => rw [stripItems, ih, List.map_cons]

theorem strip_of_isUndefined {v : Value} (h : v.isUndefined = false) :
    (if v.isUndefined then .null else v.strip) = v.strip := by
  simp [h]

theorem get?_stripFields_eq_some_iff {fields : Object} (h : Fields.Distinct fields) {name : String}
    {t : Value} : Fields.get? name (stripFields fields) = some t ↔
      ∃ v, Fields.get? name fields = some v ∧ v ≠ .undefined ∧ t = v.strip := by
  constructor
  · intro ht
    obtain ⟨v, hmem, hne, heq⟩ := mem_stripFields.1 (Fields.mem_of_get? ht)
    exact ⟨v, Fields.get?_of_mem h hmem, hne, heq⟩
  · rintro ⟨v, hv, hne, heq⟩
    exact Fields.get?_of_mem (distinct_stripFields h)
      (mem_stripFields.2 ⟨v, Fields.mem_of_get? hv, hne, heq⟩)

theorem get?_stripFields_eq_none {fields : Object} {name : String}
    (h : Fields.get? name fields = none) : Fields.get? name (stripFields fields) = none := by
  rw [Fields.get?_eq_none_iff] at h ⊢
  exact fun hmem => h ((keys_stripFields_sublist fields).subset hmem)

end TypedRecords.Value
