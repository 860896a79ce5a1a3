import TypedRecords.Proofs.Record.Legible

/-! # Corresponding values

When a value in one graph stands for a value in another: plain values are the same, arrays correspond
item by item, embedded records attribute by attribute, and references name the same record.
-/

namespace TypedRecords

open TypedRecords.Graph (Leaves)

/-- A value and one that stands for it. `Refers` says when a reference stands for another, `New` which
embedded records may stand for others, and `gap` what stands for an undefined item. Undefined fields
may be missing, and an undefined attribute of an embedded record is as good as one that is unset. -/
inductive Corresponds (d : Directory) (Refers : RecordRef → RecordRef → Prop)
    (New : RecordRef → Prop) (gap : Value) (g g' : Graph) : Value → Value → Prop
  | leaf {v : Value} (h : v.isLeaf = true) : Corresponds d Refers New gap g g' v v
  | gap : Corresponds d Refers New gap g g' .undefined gap
  | array {items items' : List Value} (length : items.length = items'.length)
    (h : ∀ (i : Nat) v v', items[i]? = some v → items'[i]? = some v' →
      Corresponds d Refers New gap g g' v v') :
    Corresponds d Refers New gap g g' (.array items) (.array items')
  | object {fields fields' : Object} (distinct : Fields.Distinct fields')
    (defined : ∀ name, (∃ v', Fields.get? name fields' = some v' ∧ v' ≠ .undefined) ↔
      ∃ v, Fields.get? name fields = some v ∧ v ≠ .undefined)
    (h : ∀ name v v', Fields.get? name fields = some v → v ≠ .undefined →
      Fields.get? name fields' = some v' → Corresponds d Refers New gap g g' v v') :
    Corresponds d Refers New gap g g' (.object fields) (.object fields')
  | classRef (c : ClassRef) : Corresponds d Refers New gap g g' (.classRef c) (.classRef c)
  | reference {r r' : RecordRef} (cls : r'.cls = r.cls)
    (referenceable : (d.definition r.cls).referenceable = true) (h : Refers r r') :
    Corresponds d Refers New gap g g' (.record r) (.record r')
  | embedded {r r' : RecordRef} (cls : r'.cls = r.cls)
    (embedded : (d.definition r.cls).referenceable = false) (new : New r')
    (defined : ∀ a ∈ d.attributes r.cls, (∃ v', g'.value? r' a.name = some v' ∧ v' ≠ .undefined) ↔
      ∃ v, g.seen? r a.name = some v ∧ v ≠ .undefined)
    (h : ∀ a ∈ d.attributes r.cls, ∀ v v', g.seen? r a.name = some v → v ≠ .undefined →
      g'.value? r' a.name = some v' → Corresponds d Refers New gap g g' v v') :
    Corresponds d Refers New gap g g' (.record r) (.record r')

namespace Corresponds

variable {d : Directory} {Refers Refers' : RecordRef → RecordRef → Prop}
  {New New' : RecordRef → Prop} {gap : Value} {g g₁ g₂ : Graph} {v v' : Value}

/-- Graphs may change elsewhere than in the embedded records. -/
theorem keep (h : Corresponds d Refers New gap g g₁ v v')
    (hrefers : ∀ r r', Refers r r' → Refers' r r')
    (hnew : ∀ r', New r' → (d.definition r'.cls).referenceable = false →
      New' r' ∧ ∀ name, g₂.value? r' name = g₁.value? r' name) :
    Corresponds d Refers' New' gap g g₂ v v' := by
  induction h with
  | leaf hleaf => exact .leaf hleaf
  | gap => exact .gap
  | array hlength _ ih => exact .array hlength ih
  | object hdistinct hdefined _ ih => exact .object hdistinct hdefined ih
  | classRef c => exact .classRef c
  | reference hcls hreferenceable hr => exact .reference hcls hreferenceable (hrefers _ _ hr)
  | @embedded r r' hcls hembedded hnew' hdefined _ ih =>
    obtain ⟨hkept, hvalue⟩ := hnew r' hnew' (hcls ▸ hembedded)
    refine .embedded hcls hembedded hkept ?_ ?_
    · intro a ha
      rw [hvalue]
      exact hdefined a ha
    · intro a ha v v' hv hne hv'
      rw [hvalue] at hv'
      exact ih a ha v v' hv hne hv'

theorem ne_undefined (h : Corresponds d Refers New gap g g₁ v v') (hgap : gap ≠ .undefined) :
    v' ≠ .undefined := by
  cases h with
  | leaf hleaf => exact Value.isLeaf_ne_undefined hleaf
  | gap => exact hgap
  | _ => simp

theorem eq_of_undefined (h : Corresponds d Refers New gap g g₁ .undefined v') : v' = gap := by
  cases h with
  | leaf hleaf => cases hleaf
  | gap => rfl

theorem records (h : Corresponds d Refers New gap g g₁ v v') (hgap : gap.records = [])
    {r' : RecordRef} (hr' : r' ∈ v'.records) : (∃ r, Refers r r') ∨ New r' := by
  induction h with
  | leaf hleaf =>
    rw [Value.records_of_isLeaf hleaf] at hr'
    cases hr'
  | gap =>
    rw [hgap] at hr'
    cases hr'
  | @array items items' hlength _ ih =>
    obtain ⟨v', hv', hmem⟩ := Value.mem_records_array.1 hr'
    obtain ⟨i, hi, rfl⟩ := List.getElem_of_mem hv'
    have hi' : i < items.length := by omega
    exact ih i _ _ (List.getElem?_eq_getElem hi') (List.getElem?_eq_getElem hi) hmem
  | @object fields fields' hdistinct hdefined _ ih =>
    obtain ⟨⟨name, v'⟩, hentry, hmem⟩ := Value.mem_records_object.1 hr'
    have hread := Fields.get?_of_mem hdistinct hentry
    have hne : v' ≠ .undefined := by
      rintro rfl
      cases hmem
    obtain ⟨v, hv, hvdefined⟩ := (hdefined name).1 ⟨v', hread, hne⟩
    exact ih name v v' hv hvdefined hread hmem
  | classRef c => cases hr'
  | reference _ _ hr =>
    rw [Value.records, List.mem_singleton] at hr'
    exact .inl ⟨_, hr' ▸ hr⟩
  | embedded _ _ hnew _ _ _ =>
    rw [Value.records, List.mem_singleton] at hr'
    exact .inr (hr' ▸ hnew)

end Corresponds

end TypedRecords
