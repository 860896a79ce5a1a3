import TypedRecords.Proofs.Document.Gapless

/-! # Stored trees

What is stored of a tree has none of the fields that are undefined in it, whether the tree was stored
anew or laid over what was stored before.
-/

namespace TypedRecords.Value

/-- A tree, and what is stored of it. Its undefined fields are left out, at any depth; fields that it does
not name may be there. What stands for an undefined item of an array is left open. -/
inductive StoredAs : Value → Value → Prop
  | other {t : Value} (noArray : t.asArray? = none) (noObject : t.asObject? = none) : StoredAs t t
  | array {trees stored : List Value} (length : trees.length = stored.length)
    (h : ∀ (i : Nat) t w, trees[i]? = some t → t ≠ .undefined → stored[i]? = some w → StoredAs t w) :
    StoredAs (.array trees) (.array stored)
  | object {trees stored : Object} (distinct : Fields.Distinct stored)
    (untagged : Fields.get? Tree.classTag trees = none → Fields.get? Tree.classTag stored = none)
    (omitted : ∀ name, Fields.get? name trees = some .undefined → Fields.get? name stored = none)
    (kept : ∀ name t, Fields.get? name trees = some t → t ≠ .undefined →
      name ∈ Fields.keys stored)
    (h : ∀ name t w, Fields.get? name trees = some t → t ≠ .undefined →
      Fields.get? name stored = some w → StoredAs t w) :
    StoredAs (.object trees) (.object stored)

/-- An object of which every field that is defined was stored. -/
structure FieldsStoredAs (trees stored : Object) : Prop where
  distinct : Fields.Distinct stored
  untagged : Fields.get? Tree.classTag trees = none → Fields.get? Tree.classTag stored = none
  omitted : ∀ name, Fields.get? name trees = some .undefined → Fields.get? name stored = none
  kept : ∀ name t, Fields.get? name trees = some t → t ≠ .undefined →
    ∃ w, Fields.get? name stored = some w ∧ StoredAs t w

theorem FieldsStoredAs.object {trees stored : Object} (h : FieldsStoredAs trees stored) :
    StoredAs (.object trees) (.object stored) := by
  refine .object h.distinct h.untagged h.omitted (fun name t ht hdefined => ?_)
    fun name t w ht hdefined hw => ?_
  · obtain ⟨w, hw, -⟩ := h.kept name t ht hdefined
    exact Fields.mem_keys_iff.2 ⟨w, hw⟩
  · obtain ⟨w', hw', hstored⟩ := h.kept name t ht hdefined
    rw [hw] at hw'
    cases hw'
    exact hstored

theorem StoredAs.ne_undefined {t w : Value} (h : StoredAs t w) (ht : t ≠ .undefined) :
    w ≠ .undefined := by
  cases h with
  | other => exact ht
  | array => exact nofun
  | object => exact nofun

theorem StoredAs.array_inv {trees : List Value} {w : Value} (h : StoredAs (.array trees) w) :
    ∃ stored, w = .array stored ∧ trees.length = stored.length ∧
      ∀ (i : Nat) t w, trees[i]? = some t → t ≠ .undefined → stored[i]? = some w → StoredAs t w := by
  cases h with
  | other noArray => cases noArray
  | array length h => exact ⟨_, rfl, length, h⟩

theorem StoredAs.object_inv {trees : Object} {w : Value} (h : StoredAs (.object trees) w) :
    ∃ stored, w = .object stored ∧ FieldsStoredAs trees stored := by
  cases h with
  | other _ noObject => cases noObject
  | object distinct untagged omitted kept h =>
    refine ⟨_, rfl, distinct, untagged, omitted, fun name t ht hdefined => ?_⟩
    obtain ⟨w, hw⟩ := Fields.mem_keys_iff.1 (kept name t ht hdefined)
    exact ⟨w, hw, h name t w ht hdefined hw⟩

theorem StoredAs.string_inv {s : String} {w : Value} (h : StoredAs (.string s) w) : w = .string s := by
  cases h
  rfl

/-! ### Trees that are stored anew -/

theorem fieldsStoredAs_strip {trees : Object} (hdistinct : Fields.Distinct trees)
    (h : ∀ name t, Fields.get? name trees = some t → StoredAs t t.strip) :
    FieldsStoredAs trees (stripFields trees) where
  distinct := distinct_stripFields hdistinct
  untagged := get?_stripFields_eq_none
  omitted name hname := by
    rw [Fields.get?_eq_none_iff, mem_keys_stripFields hdistinct (Fields.mem_of_get? hname)]
    exact not_not.2 rfl
  kept name t ht hdefined :=
    ⟨t.strip, (get?_stripFields_eq_some_iff hdistinct).2 ⟨t, ht, hdefined, rfl⟩, h name t ht⟩

theorem storedAs_strip {t : Value} (ht : t.WellFormed) : StoredAs t t.strip := by
  induction t using Value.induction with
  | array items ih =>
    rw [strip, stripItems_eq_map]
    refine .array (List.length_map _).symm fun i t w hi hdefined hw => ?_
    rw [List.getElem?_map, hi, Option.map_some, Option.some.injEq] at hw
    have hitem : t.isUndefined = false := by
      rw [← Bool.not_eq_true, isUndefined_iff]
      exact hdefined
    rw [← hw, strip_of_isUndefined hitem]
    have hmem := List.mem_of_getElem? hi
    exact ih t hmem (wellFormed_array.1 ht t hmem)
  | object fields ih =>
    obtain ⟨hdistinct, hfields⟩ := wellFormed_object.1 ht
    refine (fieldsStoredAs_strip hdistinct fun name t hname => ?_).object
    have hmem := Fields.mem_of_get? hname
    exact ih _ hmem (hfields _ hmem)
  | other t harray hobject =>
    have hsame : t.strip = t := by
      cases t with
      | array items => cases harray
      | object fields => cases hobject
      | _ => rfl
    rw [hsame]
    exact .other harray hobject

/-! ### Trees that are laid over stored ones -/

theorem fieldsStoredAs_overlay {trees document : Object} (hdistinct : Fields.Distinct trees)
    (hdocument : Fields.Distinct document) (htag : Fields.get? Tree.classTag trees ≠ none)
    (h : ∀ name t w, Fields.get? name trees = some t →
      t.overlay (Fields.get? name document) = some w → StoredAs t w) :
    FieldsStoredAs trees (overlayFields trees document) where
  distinct := distinct_overlayFields hdocument
  untagged hnone := absurd hnone htag
  omitted name hname :=
    (get?_overlayFields_of_mem hdistinct hdocument (Fields.mem_of_get? hname)).trans
      (overlay_eq_none_iff.2 rfl)
  kept name t ht hdefined := by
    have hoverlay : t.overlay (Fields.get? name document) ≠ none := mt overlay_eq_none_iff.1 hdefined
    obtain ⟨w, hw⟩ := Option.ne_none_iff_exists'.1 hoverlay
    exact ⟨w, (get?_overlayFields_of_mem hdistinct hdocument (Fields.mem_of_get? ht)).trans hw,
      h name t w ht hw⟩

theorem storedAs_overlay {t : Value} (ht : t.WellFormed) {stored : Option Value}
    (hstored : ∀ w ∈ stored, w.WellFormed) {w : Value} (hw : t.overlay stored = some w) :
    StoredAs t w := by
  induction t using Value.induction generalizing stored w with
  | array items _ =>
    cases hw
    exact storedAs_strip ht
  | object fields ih =>
    by_cases htag : Tree.isTagged fields = true
    · rw [overlay, if_pos htag] at hw
      cases hw
      obtain ⟨hdistinct, hfields⟩ := wellFormed_object.1 ht
      have hbefore : Document.WellFormed (fieldsOf stored) := fieldsOf_wellFormed hstored
      refine (fieldsStoredAs_overlay hdistinct hbefore.distinct ?_ fun name t w hname hw => ?_).object
      · obtain ⟨tag, hget⟩ := Fields.mem_keys_iff.1 (Fields.contains_iff.1 htag)
        rw [hget]
        exact nofun
      · have hmem := Fields.mem_of_get? hname
        exact ih _ hmem (hfields _ hmem) (fun w hw => hbefore.field hw) hw
    · rw [overlay, if_neg htag] at hw
      cases hw
      exact storedAs_strip ht
  | other t harray hobject =>
    have hsame : w = t := by
      cases t with
      | array items => cases harray
      | object fields => cases hobject
      | undefined => cases hw
      | _ => exact (Option.some.inj hw).symm
    rw [hsame]
    exact .other harray hobject

end TypedRecords.Value
