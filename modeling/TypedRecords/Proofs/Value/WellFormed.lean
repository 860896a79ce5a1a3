import TypedRecords.Value
import TypedRecords.Proofs.Fields

/-! # Well-formed values

Objects name each of their fields once, at every level. Among such values equality is symmetric.
-/

namespace TypedRecords.Value

/-- A value without parts that a document can hold. -/
def isLeaf : Value → Bool
  | .null => true
  | .boolean _ => true
  | .number _ => true
  | .string _ => true
  | .date _ => true
  | .pattern _ => true
  | _ => false

theorem records_of_isLeaf {v : Value} (h : v.isLeaf = true) : v.records = [] := by
  cases v <;> first | rfl | cases h

/-! ### Induction -/

/-- Induction on values, where the hypotheses speak of the members of arrays and objects. -/
theorem induction {motive : Value → Prop}
    (array : ∀ items, (∀ v ∈ items, motive v) → motive (.array items))
    (object : ∀ fields : Object, (∀ entry ∈ fields, motive entry.2) → motive (.object fields))
    (other : ∀ v, v.asArray? = none → v.asObject? = none → motive v) (v : Value) : motive v := by
  refine Value.rec (motive_1 := motive) (motive_2 := fun items => ∀ v ∈ items, motive v)
    (motive_3 := fun fields => ∀ entry ∈ fields, motive entry.2)
    (motive_4 := fun entry => motive entry.2)
    (other _ rfl rfl) (other _ rfl rfl) (fun _ => other _ rfl rfl) (fun _ => other _ rfl rfl)
    (fun _ => other _ rfl rfl) (fun _ => other _ rfl rfl) (fun _ => other _ rfl rfl)
    array object (fun _ => other _ rfl rfl) (fun _ => other _ rfl rfl) ?_ ?_ ?_ ?_ ?_ v
  · intro v hv
    cases hv
  · intro head tail hhead htail v hv
    rcases List.mem_cons.1 hv with rfl | hv
    · exact hhead
    · exact htail v hv
  · intro entry hentry
    cases hentry
  · intro head tail hhead htail entry hentry
    rcases List.mem_cons.1 hentry with rfl | hentry
    · exact hhead
    · exact htail entry hentry
  · intro name v hv
    exact hv

/-! ### Well-formedness -/

mutual

/-- No object within the value names a field twice. -/
def WellFormed : Value → Prop
  | .array items => ItemsWellFormed items
  | .object fields => Fields.Distinct fields ∧ FieldsWellFormed fields
  | _ => True

def ItemsWellFormed : List Value → Prop
  | [] => True
  | v :: rest => WellFormed v ∧ ItemsWellFormed rest

def FieldsWellFormed : List (String × Value) → Prop
  | [] => True
  | (_, v) :: rest => WellFormed v ∧ FieldsWellFormed rest

end

theorem itemsWellFormed_iff {items : List Value} :
    ItemsWellFormed items ↔ ∀ v ∈ items, v.WellFormed := by
  induction items with
  | nil => simp [ItemsWellFormed]
  | cons v rest ih => simp [ItemsWellFormed, ih]

theorem fieldsWellFormed_iff {fields : Object} :
    FieldsWellFormed fields ↔ ∀ entry ∈ fields, entry.2.WellFormed := by
  induction fields with
  | nil => simp [FieldsWellFormed]
  | cons entry rest ih => simp [FieldsWellFormed, ih]

theorem wellFormed_array {items : List Value} :
    (Value.array items).WellFormed ↔ ∀ v ∈ items, v.WellFormed := by
  rw [WellFormed, itemsWellFormed_iff]

theorem wellFormed_object {fields : Object} :
    (Value.object fields).WellFormed ↔
      Fields.Distinct fields ∧ ∀ entry ∈ fields, entry.2.WellFormed := by
  rw [WellFormed, fieldsWellFormed_iff]

theorem hasReferences_array {items : List Value} :
    (Value.array items).hasReferences = false ↔ ∀ v ∈ items, v.hasReferences = false := by
  simp [hasReferences, itemsHaveReferences_eq_any]

theorem hasReferences_object {fields : Object} :
    (Value.object fields).hasReferences = false ↔
      ∀ entry ∈ fields, entry.2.hasReferences = false := by
  rw [hasReferences]
  induction fields with
  | nil => simp [fieldsHaveReferences]
  | cons entry rest ih =>
    rw [fieldsHaveReferences, Bool.or_eq_false_iff, ih, List.forall_mem_cons]

/-! ### Equality -/

theorem beqItems_iff {as bs : List Value} :
    beqItems as bs = true ↔ List.Forall₂ (fun a b => a.beq b = true) as bs := by
  induction as generalizing bs with
  | nil => cases bs <;> simp [beqItems]
  | cons a as ih => cases bs <;> simp [beqItems, ih]

theorem beqFields_iff {as bs : Object} :
    beqFields as bs = true ↔
      ∀ entry ∈ as, ∃ b, Fields.get? entry.1 bs = some b ∧ entry.2.beq b = true := by
  induction as with
  | nil => simp [beqFields]
  | cons entry rest ih =>
    obtain ⟨name, a⟩ := entry
    cases hb : Fields.get? name bs <;> simp [beqFields, ih, hb]

theorem beq_symm {a : Value} : ∀ {b : Value}, a.WellFormed → b.WellFormed →
    a.beq b = true → b.beq a = true := by
  induction a using Value.induction with
  | array items ih =>
    intro b ha hb h
    cases b with
    | array others =>
      have ha := wellFormed_array.1 ha
      have hb := wellFormed_array.1 hb
      rw [beq, beqItems_iff] at h ⊢
      clear * - ih ha hb h
      induction h with
      | nil => exact .nil
      | cons hab _ ih' =>
        simp only [List.mem_cons, forall_eq_or_imp] at ih ha hb
        exact .cons (ih.1 ha.1 hb.1 hab) (ih' ih.2 ha.2 hb.2)
    | _ => simp [beq] at h
  | object fields ih =>
    intro b ha hb h
    cases b with
    | object others =>
      obtain ⟨hda, ha⟩ := wellFormed_object.1 ha
      obtain ⟨hdb, hb⟩ := wellFormed_object.1 hb
      simp only [beq, Bool.and_eq_true, beq_iff_eq, beqFields_iff] at h ⊢
      obtain ⟨hlength, hfields⟩ := h
      refine ⟨hlength.symm, ?_⟩
      have hsub : Fields.keys fields ⊆ Fields.keys others := by
        intro name hname
        obtain ⟨v, hv⟩ := Fields.mem_keys_iff.1 hname
        obtain ⟨w, hw, -⟩ := hfields _ (Fields.mem_of_get? hv)
        exact Fields.mem_keys_iff.2 ⟨w, hw⟩
      rintro ⟨name, w⟩ hw
      have hname := Fields.mem_keys_of_length_eq hda hlength hsub (Fields.mem_keys_of_mem hw)
      obtain ⟨v, hv⟩ := Fields.mem_keys_iff.1 hname
      have hmem := Fields.mem_of_get? hv
      obtain ⟨w', hw', heq⟩ := hfields _ hmem
      have hsame : w' = w := by
        simpa [Fields.get?_of_mem hdb hw] using hw'.symm
      subst hsame
      exact ⟨v, hv, ih _ hmem (ha _ hmem) (hb _ hw) heq⟩
    | _ => simp [beq] at h
  | other v harray hobject =>
    intro b _ _ h
    cases v <;> cases b <;> simp_all [beq, asArray?, asObject?, Number.beq_comm]

theorem beq_trans {a : Value} : ∀ {b c : Value}, a.beq b = true → b.beq c = true →
    a.beq c = true := by
  induction a using Value.induction with
  | array items ih =>
    intro b c hab hbc
    cases b with
    | array others =>
      cases c with
      | array more =>
        rw [beq, beqItems_iff] at hab hbc ⊢
        induction hab generalizing more with
        | nil => exact hbc
        | cons hab _ ih' =>
          cases hbc with
          | cons hbc hmore =>
            obtain ⟨hfirst, hrest⟩ := List.forall_mem_cons.1 ih
            exact .cons (hfirst hab hbc) (ih' hrest _ hmore)
      | _ => simp [beq] at hbc
    | _ => simp [beq] at hab
  | object fields ih =>
    intro b c hab hbc
    cases b with
    | object others =>
      cases c with
      | object more =>
        simp only [beq, Bool.and_eq_true, beq_iff_eq, beqFields_iff] at hab hbc ⊢
        refine ⟨hab.1.trans hbc.1, fun entry hentry => ?_⟩
        obtain ⟨b, hb, hab⟩ := hab.2 entry hentry
        obtain ⟨c, hc, hbc⟩ := hbc.2 _ (Fields.mem_of_get? hb)
        exact ⟨c, hc, ih entry hentry hab hbc⟩
      | _ => simp [beq] at hbc
    | _ => simp [beq] at hab
  | other v harray hobject =>
    intro b c hab hbc
    cases v with
    | array items => cases harray
    | object fields => cases hobject
    | number x =>
      cases b <;> cases c <;> simp only [beq, Bool.false_eq_true] at hab hbc ⊢
      exact Number.beq_trans hab hbc
    | _ =>
      cases b <;> simp only [beq, beq_iff_eq, Bool.false_eq_true] at hab
      simpa [hab] using hbc

theorem beq_comm {a b : Value} (ha : a.WellFormed) (hb : b.WellFormed) : a.beq b = b.beq a := by
  rw [Bool.eq_iff_iff]
  exact ⟨beq_symm ha hb, beq_symm hb ha⟩

theorem beqItems_comm {as bs : List Value} (ha : ∀ a ∈ as, a.WellFormed)
    (hb : ∀ b ∈ bs, b.WellFormed) : beqItems as bs = beqItems bs as := by
  have h := beq_comm (wellFormed_array.2 ha) (wellFormed_array.2 hb)
  simpa only [beq] using h

theorem isUndefined_eq_of_beq {a b : Value} (h : a.beq b = true) :
    a.isUndefined = b.isUndefined := by
  cases a <;> cases b <;> simp_all [beq, isUndefined]

end TypedRecords.Value
