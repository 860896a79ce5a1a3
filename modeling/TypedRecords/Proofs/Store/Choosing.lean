import TypedRecords.Store.Session
import TypedRecords.Proofs.Record.Selection

/-! # What a load selects

A load reads a record with a selector that lists attributes of the record. All that was asked for is in
it, and so are the identifiers of the record; of a reference that is to be read in part the identifiers
are added to what is listed.
-/

namespace TypedRecords

namespace Selector

theorem get_ofNames_of_mem {names : List String} {name : String} (h : name ∈ names) :
    (ofNames names).get name = .all := by
  have hmem : name ∈ Fields.keys (Fields.ofEntries (names.map fun name => (name, Selector.all))) := by
    rw [Fields.ofEntries, Fields.mem_keys_insertAll]
    exact .inr (List.mem_map.2 ⟨(name, .all), List.mem_map_of_mem h, rfl⟩)
  obtain ⟨s, hs⟩ := Fields.mem_keys_iff.1 hmem
  have hentry := (Fields.mem_insertAll (Fields.mem_of_get? hs)).resolve_left (by simp)
  obtain ⟨other, -, hother⟩ := List.mem_map.1 hentry
  rw [ofNames, get, hs]
  exact (Prod.mk.inj hother).2.symm

end Selector

namespace Store

variable {d : Directory} {c : ClassRef} {fields : Fields Selector}

/-! ### References that are read in part -/

/-- What is read of an attribute of a class: the identifiers of a reference are added to what is listed
for it. -/
def completed (d : Directory) (c : ClassRef) (a : Attribute) : Selector → Selector
  | .only fields =>
    match a.type.recordClass?.bind (d.component? c) with
    | some other =>
      if (d.definition other).referenceable then
        ((Selector.only fields).merge (d.definition other).identifierSelector).normalize
      else .only fields
    | none => .only fields
  | s => s

theorem isNone_completed (a : Attribute) (s : Selector) : (completed d c a s).isNone = s.isNone := by
  cases s with
  | only fields =>
    rw [completed]
    split
    · split
      · rw [Selector.isNone_normalize, Selector.isNone_merge rfl]
        rfl
      · rfl
    · rfl
  | _ => rfl

/-- Completes what a selector lists for one attribute. -/
def completeAttribute (d : Directory) (c : ClassRef) (s : Selector) (a : Attribute) : Selector :=
  match s.get a.name, a.type.recordClass?.bind (d.component? c) with
  | .only fields, some other =>
    if (d.definition other).referenceable then
      s.set a.name ((Selector.only fields).merge (d.definition other).identifierSelector)
    else s
  | _, _ => s

/-- A selector that lists the same names, with other selectors for some. -/
structure Relisted (fields fields' : Fields Selector) (changed : String → Prop) : Prop where
  keys : Fields.keys fields' = Fields.keys fields
  other : ∀ name, ¬changed name → (Selector.only fields').get name = (Selector.only fields).get name

theorem completeAttribute_only (a : Attribute) (fields : Fields Selector) :
    ∃ fields', completeAttribute d c (.only fields) a = .only fields' ∧
      Relisted fields fields' (· = a.name) ∧
      (Selector.only fields').get a.name = completed d c a ((Selector.only fields).get a.name) := by
  unfold completeAttribute
  split
  · next inner other hget hother =>
    have hcompleted : completed d c a (.only inner) = if (d.definition other).referenceable then
        ((Selector.only inner).merge (d.definition other).identifierSelector).normalize
        else .only inner := by
      simp only [completed, hother]
    rw [hget, hcompleted]
    split
    · have hsome : ((Selector.only inner).merge
          (d.definition other).identifierSelector).isNone = false := Selector.isNone_merge rfl _
      have hmem : a.name ∈ Fields.keys fields := by
        rw [Fields.mem_keys_iff]
        cases hread : Fields.get? a.name fields with
        | none =>
          rw [Selector.get, hread] at hget
          cases hget
        | some s => exact ⟨s, rfl⟩
      refine ⟨_, Selector.set_only hsome, ⟨Fields.keys_insert_of_mem hmem _, fun name hne => ?_⟩, ?_⟩
      · rw [← Selector.set_only hsome, Selector.get_set_of_ne hsome hne]
      · rw [← Selector.set_only hsome, Selector.get_set_self hsome]
    · exact ⟨fields, rfl, ⟨rfl, fun _ _ => rfl⟩, hget⟩
  · next hother =>
    refine ⟨fields, rfl, ⟨rfl, fun _ _ => rfl⟩, ?_⟩
    cases hget : (Selector.only fields).get a.name with
    | only inner =>
      rw [completed]
      split
      · next other hcomponent => exact absurd hcomponent (hother inner other hget)
      · rfl
    | _ => rfl

theorem foldl_completeAttribute {attributes : List Attribute}
    (hnodup : (attributes.map Attribute.name).Nodup) (fields : Fields Selector) :
    ∃ fields', attributes.foldl (completeAttribute d c) (.only fields) = .only fields' ∧
      Relisted fields fields' (· ∈ attributes.map Attribute.name) ∧
      ∀ a ∈ attributes, (Selector.only fields').get a.name =
        completed d c a ((Selector.only fields).get a.name) := by
  induction attributes generalizing fields with
  | nil => exact ⟨fields, rfl, ⟨rfl, fun _ _ => rfl⟩, by simp⟩
  | cons a rest ih =>
    obtain ⟨hname, hnodupRest⟩ := List.nodup_cons.1 hnodup
    obtain ⟨fields₁, hstep, hfirst, hget⟩ := completeAttribute_only (d := d) (c := c) a fields
    obtain ⟨fields₂, hfold, hrest, hgets⟩ := ih hnodupRest fields₁
    refine ⟨fields₂, ?_, ⟨hrest.keys.trans hfirst.keys, fun name hunlisted => ?_⟩,
      List.forall_mem_cons.2 ⟨?_, fun b hb => ?_⟩⟩
    · rw [List.foldl_cons, hstep, hfold]
    · obtain ⟨hne, hlater⟩ := not_or.1 (List.mem_cons.not.1 hunlisted)
      rw [hrest.other name hlater, hfirst.other name hne]
    · rw [hrest.other a.name hname, hget]
    · have hne : b.name ≠ a.name := fun heq => hname (heq ▸ List.mem_map_of_mem hb)
      rw [hgets b hb, hfirst.other b.name hne]

/-! ### The selector of a load -/

/-- Attributes of a record that are read, each with what is read of it. -/
structure Chosen (d : Directory) (r : RecordRef) (asked : Selector) (fields : Fields Selector) :
    Prop where
  distinct : Fields.Distinct fields
  names : ∀ name ∈ Fields.keys fields, ∃ a ∈ d.attributes r.cls, a.name = name
  selects : ∀ a ∈ d.attributes r.cls, asked.Selects a.name →
    (Selector.only fields).Selects a.name
  whole : ∀ a ∈ d.attributes r.cls, asked.Selects a.name → a.type.recordClass? = none →
    (Selector.only fields).get a.name = .all
  identifiers : ∀ a ∈ (d.definition r.cls).identifiers, (Selector.only fields).get a.name = .all

/-- The selector that a load starts from. -/
def toRead (d : Directory) (c : ClassRef) (s : Selector) : Selector :=
  (d.definition c).identifierSelector.merge s

theorem toRead_isNone (s : Selector) : (toRead d c s).isNone = false :=
  Selector.isNone_merge rfl s

theorem toRead_selects {s : Selector} {name : String} (h : s.Selects name) :
    (toRead d c s).Selects name ∧ (toRead d c s).get name =
      ((d.definition c).identifierSelector.get name).merge (s.get name) := by
  have hget := Selector.get_merge (s := (d.definition c).identifierSelector) (.inr h)
  refine ⟨?_, hget⟩
  rw [Selector.Selects, toRead, hget]
  exact Selector.isNone_merge_right h _

theorem toRead_identifier (s : Selector) {a : Attribute} (ha : a ∈ (d.definition c).identifiers) :
    (toRead d c s).get a.name = .all := by
  have hall : (d.definition c).identifierSelector.get a.name = .all :=
    Selector.get_ofNames_of_mem (List.mem_map_of_mem ha)
  have hselects : (d.definition c).identifierSelector.Selects a.name := by
    rw [Selector.Selects, hall]
    rfl
  rw [toRead, Selector.get_merge (.inl hselects), hall]
  rfl

open Record in
/-- What is read of a record that is not being resolved. -/
theorem readSelector_eq_ok (hd : d.Lawful) {r : RecordRef} (hr : r.base? = none) {s s' : Selector}
    {g g' : Graph} (hcalm : g.isResolving r = false) {J : Graph → Prop}
    (hJ : ∀ steps, ∀ a ∈ d.attributes r.cls, ∀ acc g acc' g', J g →
      narrowAttribute {} (resolveInner d {} steps) r (toRead d r.cls s).normalize acc a g =
        (.ok acc', g') → J g')
    (hg : J (g.markResolving r true)) (h : readSelector d r s g = (.ok s', g')) :
    ∃ steps g₁ narrowed fields, s' = .only fields ∧ J g₁ ∧ g' = g₁.markResolving r false ∧
      Chosen d r s fields ∧
      Narrowed {} (resolveInner d {} steps) J r (toRead d r.cls s).normalize (d.attributes r.cls)
        narrowed ∧
      ∀ a ∈ d.attributes r.cls, (Selector.only fields).get a.name =
        completed d r.cls a ((Selector.only narrowed).get a.name) := by
  obtain ⟨resolved, g₂, hresolve, hpure⟩ := Stateful.bind_eq_ok h
  cases hpure
  obtain ⟨steps, g₁, narrowed, rfl, hg₁, hg', hnarrowed⟩ := resolve_eq_ok hd rfl rfl hr
    (toRead_isNone s) hcalm hJ hg hresolve
  obtain ⟨fields, hfields, hrelisted, hget⟩ :=
    foldl_completeAttribute (d := d) (c := r.cls) (hd.definition r.cls).names_nodup narrowed
  refine ⟨steps, g₁, narrowed, fields, hfields, hg₁, hg', ?_, hnarrowed, hget⟩
  have hselected : ∀ a ∈ d.attributes r.cls, (toRead d r.cls s).Selects a.name →
      (Selector.only fields).Selects a.name := by
    intro a ha hs
    obtain ⟨g₀, g₀', t, -, hnarrow, hnarrowedGet⟩ := hnarrowed.get a ha hs.normalize
    rw [Selector.Selects, hget a ha, isNone_completed, hnarrowedGet, Selector.isNone_normalize]
    exact narrow_isNone (fun _ _ _ _ _ => resolveInner_isNone) hs.normalize hnarrow
  have hwhole : ∀ a ∈ d.attributes r.cls, (toRead d r.cls s).Selects a.name →
      a.type.recordClass? = none → (Selector.only fields).get a.name = .all := by
    intro a ha hs hplain
    obtain ⟨g₀, g₀', t, -, hnarrow, hnarrowedGet⟩ := hnarrowed.get a ha hs.normalize
    rw [hget a ha, hnarrowedGet, narrow_of_recordClass?_none hplain hs.normalize hnarrow]
    rfl
  refine ⟨?_, fun name hname => hnarrowed.names name (hrelisted.keys ▸ hname), ?_, ?_, ?_⟩
  · rw [Fields.Distinct, hrelisted.keys]
    exact hnarrowed.distinct
  · exact fun a ha hs => hselected a ha (toRead_selects hs).1
  · exact fun a ha hs => hwhole a ha (toRead_selects hs).1
  · intro a ha
    have hmem := Definition.mem_attributeList_of_identifier ha
    refine hwhole a hmem ?_ ?_
    · rw [Selector.Selects, toRead_identifier s ha]
      rfl
    · exact ValueType.recordClass?_of_canIdentify ((hd.definition r.cls).identifies a hmem
        (Definition.isIdentifier_of_mem_identifiers ha))

theorem readSelector_chosen (hd : d.Lawful) {r : RecordRef} (hr : r.base? = none) {s s' : Selector}
    {g g' : Graph} (hcalm : g.isResolving r = false) (h : readSelector d r s g = (.ok s', g')) :
    ∃ fields, s' = .only fields ∧ Chosen d r s fields := by
  obtain ⟨-, -, -, fields, hfields, -, -, hchosen, -⟩ := readSelector_eq_ok hd hr hcalm
    (J := fun _ => True) (fun _ _ _ _ _ _ _ _ _ => trivial) trivial h
  exact ⟨fields, hfields, hchosen⟩

end Store

end TypedRecords
