import TypedRecords.Proofs.Store.Updating
import TypedRecords.Proofs.Record.Legible

/-! # What a save prepares

The descriptor that a save works out is the first identifier of the record, and the document has a
tree for each selected attribute.
-/

namespace TypedRecords

open TypedRecords.Graph (Stands Viewed)

variable {d : Directory} {registry : RegistryRef} {known₀ known : Set RecordRef} {r : RecordRef}
  {g₀ g g' : Graph} {name : String}

namespace Record

theorem validate_allows (hmade : r.base? = none) (hr : r ∈ known₀) (hg : Viewed g₀ known₀ known g)
    {s : Selector} {a : Attribute} (ha : a ∈ d.attributes r.cls) (hselects : s.Selects a.name)
    (hv : g₀.seen? r a.name = some .undefined) (h : validate d r s g = (.ok (), g')) :
    a.type.allowsUndefined = true := by
  have hreading : AllowsReading (Viewed g₀ known₀) := Graph.viewed_allowsReading g₀ known₀
  obtain ⟨slot, hset⟩ := hg.set hmade hr hv
  obtain ⟨all, g₁, hall, hdone⟩ := Stateful.bind_eq_ok h
  obtain ⟨steps, g₂, hsteps, hwithin⟩ := Stateful.bind_eq_ok hall
  cases hsteps
  obtain ⟨resolved, g₃, hresolved, hrest⟩ := Stateful.bind_eq_ok hwithin
  obtain ⟨lists, g₄, hlists, hpure⟩ := Stateful.bind_eq_ok hrest
  cases hpure
  have hselected : resolved.Selects a.name :=
    resolve_selects rfl hmade ha hselects hset hresolved
  obtain ⟨known₃, -, hg₃, -⟩ :=
    (hreading.resolve validated (hg.more hr) s).of_run subset_rfl hg hresolved
  -- Validating the attributes before this one may have forked further records.
  obtain ⟨g₅, fs, g₆, ⟨known₅, hg₅⟩, hrun, hmem⟩ := Stateful.mapM_reaches
    (I := fun g => ∃ known, Viewed g₀ known₀ known g)
    (by
      rintro b - g fs g' ⟨known, hg⟩ hrun
      obtain ⟨after, -, hg', -⟩ := (hreading.attributeFailures
        (fun _ _ s hr => hreading.failuresWithin _ hr s) (hg.more hr) resolved b).of_run
          subset_rfl hg hrun
      exact ⟨after, hg'⟩)
    ha ⟨known₃, hg₃⟩ hlists
  have hread : g₅.value? r a.name = some .undefined := by
    rw [← seen?_made hmade]
    exact hg₅.undefined hr hv
  simp only [attributeFailures] at hrun
  rw [hselected, if_neg Bool.false_ne_true, Stateful.bind_of_ok (lift_value?_made hmade a.name g₅),
    hread] at hrun
  by_contra hrefused
  simp only [ValueType.failures, if_neg hrefused] at hrun
  cases hrun
  have hnone : lists.flatten = [] := by
    split at hdone
    · next hempty => exact List.isEmpty_iff.1 hempty
    · cases hdone
  have hempty := List.flatten_eq_nil_iff.1 hnone _ hmem
  cases hempty

end Record

namespace Store

/-- What a save has prepared of a record that can be stored. -/
structure Prepared.Of (d : Directory) (registry : RegistryRef) (full : Prop) (g : Graph)
    (r : RecordRef) (p : Prepared) : Prop where
  descriptor : ∃ identifier, g.identifier? d r = some identifier ∧ p.descriptor = [identifier]
  fields : EncodesFields full d registry g r p.document
  allows : full → ∀ a ∈ d.attributes r.cls, g.seen? r a.name = some .undefined →
    a.type.allowsUndefined = true

/-- What is prepared of a record is what it sees when its save begins. -/
theorem prepare_of (hd : d.Lawful) (hnamed : d.WellNamed) (hg : g.Sound known₀) (hr : r ∈ known₀)
    (hstorable : Record.Storable d registry g r) {s : Selector} {p : Prepared}
    (h : prepare d r s g = (.ok p, g')) : p.Of d registry (s = .all) g r := by
  have hreading : AllowsReading (Viewed g known₀) := Graph.viewed_allowsReading g known₀
  obtain ⟨g₁, g₂, g₃, hselector, hvalidate, hdescriptor, hdocument⟩ := prepare_eq_ok h
  obtain ⟨known₁, hknown₁, hg₁, -⟩ := (hreading.resolve _ hr _).of_run subset_rfl hg.viewed hselector
  obtain ⟨known₂, hknown₂, hg₂, -⟩ :=
    (hreading.validate (hknown₁ hr) _).of_run subset_rfl hg₁ hvalidate
  have hidentifiers : g.Accepted d r (d.definition r.cls).identifiers :=
    fun a ha => hstorable.accepted a (Definition.mem_attributeList_of_identifier ha)
  obtain ⟨known₃, hknown₃, hg₃, hdescribed⟩ :=
    (Record.keeps_descriptor hd (hg₂.stands hr) hidentifiers).of_run subset_rfl hg₂ hdescriptor
  refine ⟨hdescribed _ rfl, ?_, ?_⟩
  · obtain ⟨steps, hencode⟩ := documentOf_eq_ok hdocument
    have hspans : s = .all → Record.Spanned d g p.selector r := by
      rintro rfl
      unfold writeSelector at hselector
      rw [Selector.merge_all] at hselector
      obtain ⟨-, -, -, hspanned⟩ := (Record.resolve_spans rfl (hg.viewed.stands hr)
        hstorable.held).of_run subset_rfl hg.viewed hselector
      exact hspanned _ rfl
    obtain ⟨-, -, -, hencodes⟩ := (Record.encodeWithin_encodes hd hnamed.ne_classTag hg
      (hg₃.stands hr) hstorable hspans).of_run subset_rfl hg₃ hencode
    obtain ⟨fields, heq, hfields⟩ := hencodes _ rfl
    cases heq
    exact hfields
  · rintro rfl a ha hv
    have hselects : p.selector.Selects a.name := by
      unfold writeSelector at hselector
      rw [Selector.merge_all] at hselector
      obtain ⟨slot, hset⟩ := hg.viewed.set hstorable.made hr hv
      exact Record.resolve_selects rfl hstorable.made ha (Selector.selects_all _) hset hselector
    exact Record.validate_allows hstorable.made hr hg₁ ha hselects hv hvalidate

end Store

end TypedRecords
