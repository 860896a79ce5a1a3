import TypedRecords.Proofs.Document.Overlay
import TypedRecords.Proofs.Document.WellFormed

/-! # Remnants

A value laid over a stored one comes to the value itself, without what is undefined in it, exactly if
it names every field of the stored objects over which its tagged objects are laid. Otherwise something
of the stored value shows through.
-/

namespace TypedRecords.Value

/-- Equality of values without regard to the order of names. -/
inductive Same : Value → Value → Prop
  | refl (v : Value) : Same v v
  | object {a b : Object} (names : ∀ name, name ∈ Fields.keys a ↔ name ∈ Fields.keys b)
    (fields : ∀ name v w, Fields.get? name a = some v → Fields.get? name b = some w → Same v w) :
    Same (.object a) (.object b)

theorem same_object_iff {a b : Object} :
    Same (.object a) (.object b) ↔ (∀ name, name ∈ Fields.keys a ↔ name ∈ Fields.keys b) ∧
      ∀ name v w, Fields.get? name a = some v → Fields.get? name b = some w → Same v w := by
  constructor
  · intro h
    cases h with
    | refl =>
      refine ⟨fun _ => Iff.rfl, ?_⟩
      intro name v w hv hw
      rw [hv] at hw
      cases hw
      exact .refl v
    | object names fields => exact ⟨names, fields⟩
  · rintro ⟨names, fields⟩
    exact .object names fields

mutual

/-- Whether the tagged objects of a value name every field of the stored objects in their place. -/
def Covers : Value → (stored : Option Value) → Prop
  | .object fields, stored =>
    Tree.isTagged fields = true →
      (∀ name ∈ Fields.keys (fieldsOf stored), name ∈ Fields.keys fields) ∧
        FieldsCover fields (fieldsOf stored)
  | _, _ => True

def FieldsCover : List (String × Value) → (stored : Object) → Prop
  | [], _ => True
  | (name, v) :: rest, stored => Covers v (Fields.get? name stored) ∧ FieldsCover rest stored

end

theorem fieldsCover_iff {fields stored : Object} :
    FieldsCover fields stored ↔
      ∀ entry ∈ fields, entry.2.Covers (Fields.get? entry.1 stored) := by
  induction fields with
  | nil => simp [FieldsCover]
  | cons entry rest ih => simp [FieldsCover, ih]

/-! ### Reading overlays -/

theorem overlay_eq_none_iff {v : Value} {stored : Option Value} :
    overlay v stored = none ↔ v = .undefined := by
  cases v with
  | object fields =>
    simp only [overlay]
    split <;> simp
  | _ => simp [overlay]

theorem mem_stripFields {name : String} {w : Value} {fields : Object} :
    (name, w) ∈ stripFields fields ↔ ∃ v, (name, v) ∈ fields ∧ v ≠ .undefined ∧ w = v.strip := by
  induction fields with
  | nil => simp [stripFields]
  | cons entry rest ih =>
    obtain ⟨key, v⟩ := entry
    simp only [stripFields, List.mem_cons]
    split
    · next hv =>
      rw [ih]
      have hundefined := (isUndefined_iff v).1 hv
      constructor
      · rintro ⟨v', hmem, hv'⟩
        exact ⟨v', .inr hmem, hv'⟩
      · rintro ⟨v', heq | hmem, hne, hw⟩
        · cases heq
          exact absurd hundefined hne
        · exact ⟨v', hmem, hne, hw⟩
    · next hv =>
      rw [List.mem_cons, ih]
      have hdefined : v ≠ .undefined := fun e => hv ((isUndefined_iff v).2 e)
      constructor
      · rintro (heq | ⟨v', hmem, hv'⟩)
        · cases heq
          exact ⟨v, .inl rfl, hdefined, rfl⟩
        · exact ⟨v', .inr hmem, hv'⟩
      · rintro ⟨v', heq | hmem, hne, hw⟩
        · cases heq
          exact .inl (by rw [hw])
        · exact .inr ⟨v', hmem, hne, hw⟩

theorem keys_stripFields_sublist (fields : Object) :
    (Fields.keys (stripFields fields)).Sublist (Fields.keys fields) := by
  induction fields with
  | nil => exact .slnil
  | cons entry rest ih =>
    obtain ⟨key, v⟩ := entry
    simp only [stripFields]
    split
    · exact ih.cons key
    · exact ih.cons_cons key

theorem distinct_stripFields {fields : Object} (h : Fields.Distinct fields) :
    Fields.Distinct (stripFields fields) :=
  h.sublist (keys_stripFields_sublist fields)

theorem mem_keys_overlayFields {name : String} {v : Value} {fields document : Object}
    (hfields : Fields.Distinct fields) (hdocument : Fields.Distinct document)
    (h : (name, v) ∈ fields) :
    name ∈ Fields.keys (overlayFields fields document) ↔ v ≠ .undefined := by
  rw [← not_iff_not, ← Fields.get?_eq_none_iff, get?_overlayFields_of_mem hfields hdocument h,
    overlay_eq_none_iff, not_not]

theorem mem_keys_stripFields {name : String} {v : Value} {fields : Object}
    (hfields : Fields.Distinct fields) (h : (name, v) ∈ fields) :
    name ∈ Fields.keys (stripFields fields) ↔ v ≠ .undefined := by
  constructor
  · intro hname
    obtain ⟨⟨_, w⟩, hw, rfl⟩ := List.mem_map.1 hname
    obtain ⟨v', hmem, hne, -⟩ := mem_stripFields.1 hw
    have hv := Fields.get?_of_mem hfields h
    rw [Fields.get?_of_mem hfields hmem] at hv
    cases hv
    exact hne
  · intro hne
    exact Fields.mem_keys_of_mem (mem_stripFields.2 ⟨v, h, hne, rfl⟩)

/-- An overlay has the names of what is left of the fields that are laid over others exactly if the fields
have all names of the others: a name that they do not list keeps what was stored under it. -/
theorem keys_overlayFields_iff {fields document : Object} (hfields : Fields.Distinct fields)
    (hdocument : Fields.Distinct document) :
    (∀ name, name ∈ Fields.keys (overlayFields fields document) ↔
        name ∈ Fields.keys (stripFields fields)) ↔
      ∀ name ∈ Fields.keys document, name ∈ Fields.keys fields := by
  constructor
  · intro hsame name hname
    by_contra hmissing
    obtain ⟨v, hv⟩ := Fields.mem_keys_iff.1 hname
    rw [← get?_overlayFields_of_not_mem hmissing] at hv
    have hkept := (hsame name).1 (Fields.mem_keys_iff.2 ⟨v, hv⟩)
    exact hmissing ((keys_stripFields_sublist fields).subset hkept)
  · intro hall name
    by_cases hname : name ∈ Fields.keys fields
    · obtain ⟨v, hv⟩ := Fields.mem_keys_iff.1 hname
      have hmem := Fields.mem_of_get? hv
      rw [mem_keys_overlayFields hfields hdocument hmem, mem_keys_stripFields hfields hmem]
    · refine iff_of_false ?_ fun h => hname ((keys_stripFields_sublist fields).subset h)
      rw [← Fields.get?_eq_none_iff, get?_overlayFields_of_not_mem hname, Fields.get?_eq_none_iff]
      exact fun h => hname (hall name h)

/-! ### Overlays and stripped values -/

theorem fieldsOf_wellFormed {stored : Option Value} (h : ∀ v ∈ stored, v.WellFormed) :
    Document.WellFormed (fieldsOf stored) := by
  cases stored with
  | none => exact Document.WellFormed.empty
  | some v =>
    cases v with
    | object fields => exact h _ rfl
    | _ => exact Document.WellFormed.empty

/-- A value shows nothing of the stored one over which it is laid exactly if it covers it. -/
theorem same_overlay_iff {v : Value} (hv : v.Patchable) {stored : Option Value}
    (hstored : ∀ w ∈ stored, w.WellFormed) {w : Value} (hw : overlay v stored = some w) :
    Same w v.strip ↔ v.Covers stored := by
  induction v using Value.induction generalizing stored w with
  | object fields ih =>
    by_cases htag : Tree.isTagged fields = true
    · obtain ⟨hdistinct, -, hfields⟩ := hv htag
      have hfields := fieldsPatchable_iff.1 hfields
      have hinner := fieldsOf_wellFormed hstored
      obtain rfl : .object (overlayFields fields (fieldsOf stored)) = w := by
        simpa [overlay, htag] using hw
      simp only [strip, Covers, htag, forall_const, same_object_iff, fieldsCover_iff]
      constructor
      · rintro ⟨hnames, hsame⟩
        refine ⟨(keys_overlayFields_iff hdistinct hinner.distinct).1 hnames, ?_⟩
        rintro ⟨name, v⟩ hmem
        by_cases hundefined : v = .undefined
        · subst hundefined
          trivial
        · have hread := get?_overlayFields_of_mem hdistinct hinner.distinct hmem
          cases hover : overlay v (Fields.get? name (fieldsOf stored)) with
          | none => exact absurd (overlay_eq_none_iff.1 hover) hundefined
          | some w =>
            have hstripped : Fields.get? name (stripFields fields) = some v.strip :=
              Fields.get?_of_mem (distinct_stripFields hdistinct)
                (mem_stripFields.2 ⟨v, hmem, hundefined, rfl⟩)
            exact (ih _ hmem (hfields _ hmem).2 (fun w hw => hinner.field hw) hover).1
              (hsame name w v.strip (hread.trans hover) hstripped)
      · rintro ⟨hnames, hcover⟩
        refine ⟨(keys_overlayFields_iff hdistinct hinner.distinct).2 hnames, ?_⟩
        intro name w w' hw hw'
        obtain ⟨v, hmem, hne, rfl⟩ := mem_stripFields.1 (Fields.mem_of_get? hw')
        rw [get?_overlayFields_of_mem hdistinct hinner.distinct hmem] at hw
        exact (ih _ hmem (hfields _ hmem).2 (fun w hw => hinner.field hw) hw).2 (hcover _ hmem)
    · obtain rfl : .object (stripFields fields) = w := by
        simpa [overlay, htag] using hw
      exact iff_of_true (.refl _) fun h => absurd h htag
  | array items =>
    cases hw
    simp only [Covers, iff_true]
    exact .refl _
  | other v harray hobject =>
    cases v with
    | array items => cases harray
    | object fields => cases hobject
    | undefined => cases hw
    | _ =>
      cases hw
      simp only [Covers, iff_true]
      exact .refl _

end TypedRecords.Value
