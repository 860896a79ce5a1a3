import TypedRecords.Proofs.Record.Views
import TypedRecords.Proofs.Tree.Readable

/-! # Held values

What an attribute holds that was assigned properly: every record in it is of a class of the registry,
embedded records hold such values themselves, and none is embedded in itself.
-/

namespace TypedRecords

/-! ### Records that hold nothing but keys -/

namespace RecordRef.Bare

variable {g : Graph} {r : RecordRef}

theorem calm (hr : r.Bare g) : g.isResolving r = false := by
  obtain ⟨cell, hcell, hresolving⟩ := hr.cell
  rw [Graph.isResolving, hcell]
  exact hresolving

theorem sound (hr : r.Bare g) : g.Sound {r} where
  bounded := by
    rintro q rfl
    obtain ⟨cell, hcell, -⟩ := hr.cell
    exact Graph.lt_of_cell? hcell
  alone := by
    rintro q rfl q' rfl -
    rfl
  base := by
    rintro serial c base rfl
    cases hr.made
  within := by
    rintro q rfl name slot hslot
    obtain ⟨_, hsome, hkey⟩ := hr.keys name _ hslot
    cases hsome
    rw [Value.Within, Value.records_of_isLeaf (Value.isLeaf_of_isKey hkey)]
    exact fun _ hnone => by cases hnone

end RecordRef.Bare

/-! ### Records that are accepted -/

/-- The records that an attribute holds are of the class to whose records it refers. -/
theorem ValueType.admits_of_check {site : Site} {t : ValueType} {name : String}
    (ht : t.recordClass? = some name) {v : Value} (h : t.check site v = .ok ()) {r : RecordRef}
    (hr : r ∈ v.records) : site.admits name r.cls = true := by
  induction t generalizing v with
  | scalar kind traits => cases ht
  | array item traits ih =>
    cases v with
    | array items =>
      obtain ⟨w, hw, hr⟩ := Value.mem_records_array.1 hr
      exact ih ht (forM_eq_ok h hw) hr
    | undefined => cases hr
    | _ => cases h
  | reference other toClass traits =>
    cases toClass with
    | true => cases ht
    | false =>
      cases ht
      cases v with
      | record r' =>
        obtain rfl := List.mem_singleton.1 hr
        by_contra hother
        simp only [check, hother] at h
        cases h
      | undefined => cases hr
      | _ => cases h

/-! ### Identifiers -/

/-- The first identifier of a record that is set and defined. -/
def Graph.identifier? (d : Directory) (g : Graph) (r : RecordRef) : Option (String × Value) :=
  (d.definition r.cls).identifiers.findSome? fun a =>
    match g.seen? r a.name with
    | some .undefined => none
    | some v => some (a.name, v)
    | none => none

section

variable {d : Directory} {g g' : Graph} {r : RecordRef}

theorem Graph.identifier?_eq_some {name : String} {v : Value}
    (h : g.identifier? d r = some (name, v)) :
    (∃ a ∈ (d.definition r.cls).identifiers, a.name = name) ∧ g.seen? r name = some v ∧
      v ≠ .undefined := by
  obtain ⟨a, ha, hread⟩ := List.exists_of_findSome?_eq_some h
  cases hvalue : g.seen? r a.name with
  | none =>
    rw [hvalue] at hread
    cases hread
  | some w =>
    rw [hvalue] at hread
    cases w <;> cases hread <;> exact ⟨⟨a, ha, rfl⟩, hvalue, by simp⟩

theorem Graph.identifier?_congr
    (h : ∀ a ∈ (d.definition r.cls).identifiers, g'.seen? r a.name = g.seen? r a.name) :
    g'.identifier? d r = g.identifier? d r := by
  unfold identifier?
  generalize (d.definition r.cls).identifiers = attributes at h
  induction attributes with
  | nil => rfl
  | cons a rest ih =>
    obtain ⟨ha, hrest⟩ := List.forall_mem_cons.1 h
    simp only [List.findSome?_cons, ha, ih hrest]

namespace Record

theorem descriptorAmong_made (hr : r.base? = none) (attributes : List Attribute) (g : Graph) :
    descriptorAmong r attributes g =
      match attributes.findSome? fun a =>
        match g.seen? r a.name with
        | some .undefined => none
        | some v => some (a.name, v)
        | none => none with
      | some identifier => (.ok [identifier], g)
      | none => (.error (.missingIdentifier r.className), g) := by
  induction attributes with
  | nil => rfl
  | cons a rest ih =>
    rw [descriptorAmong, Stateful.bind_of_ok (lift_value?_made hr a.name g), List.findSome?_cons,
      ← seen?_made hr]
    cases hvalue : g.seen? r a.name with
    | none => exact ih
    | some v =>
      cases v with
      | undefined => exact ih
      | _ => rfl

theorem descriptor_made (hr : r.base? = none) (g : Graph) :
    descriptor d r g =
      match g.identifier? d r with
      | some identifier => (.ok [identifier], g)
      | none => (.error (.missingIdentifier r.className), g) :=
  descriptorAmong_made hr _ g

theorem descriptor_eq_ok (hr : r.base? = none) {descriptor : Object}
    (h : Record.descriptor d r g = (.ok descriptor, g')) :
    g' = g ∧ ∃ identifier, g.identifier? d r = some identifier ∧ descriptor = [identifier] := by
  rw [descriptor_made hr] at h
  cases hidentifier : g.identifier? d r with
  | none =>
    rw [hidentifier] at h
    cases h
  | some identifier =>
    rw [hidentifier] at h
    cases h
    exact ⟨rfl, identifier, rfl, rfl⟩

end Record

end

/-! ### Values -/

/-- Attributes that are set are undefined, or accept their values. -/
def Graph.Accepted (d : Directory) (g : Graph) (r : RecordRef) (attributes : List Attribute) :
    Prop :=
  ∀ a ∈ attributes, ∀ v, g.seen? r a.name = some v →
    v = .undefined ∨ a.type.check (d.site r.cls a.name) v = .ok ()

/-- Identifiers that are set equal themselves: none is NaN. -/
def Graph.Keyed (d : Directory) (g : Graph) (r : RecordRef) : Prop :=
  ∀ a ∈ (d.definition r.cls).identifiers, ∀ v, g.seen? r a.name = some v → v.beq v = true

inductive Held (d : Directory) (registry : RegistryRef) (g : Graph) : Value → Prop
  | leaf {v : Value} (h : v.isLeaf = true) : Held d registry g v
  | undefined : Held d registry g .undefined
  | array {items : List Value} (h : ∀ v ∈ items, Held d registry g v) :
    Held d registry g (.array items)
  | object {fields : Object} (untagged : Fields.get? Tree.classTag fields = none)
    (distinct : Fields.Distinct fields) (h : ∀ entry ∈ fields, Held d registry g entry.2) :
    Held d registry g (.object fields)
  | classRef {c : ClassRef} (found : d.find? registry c.name = some c) :
    Held d registry g (.classRef c)
  | reference {r : RecordRef} (found : d.find? registry r.cls.name = some r.cls)
    (referenceable : (d.definition r.cls).referenceable = true)
    (accepted : g.Accepted d r (d.definition r.cls).identifiers) (keyed : g.Keyed d r) :
    Held d registry g (.record r)
  | embedded {r : RecordRef} (found : d.find? registry r.cls.name = some r.cls)
    (embedded : (d.definition r.cls).referenceable = false)
    (accepted : g.Accepted d r (d.attributes r.cls))
    (h : ∀ a ∈ d.attributes r.cls, ∀ v, g.seen? r a.name = some v → Held d registry g v) :
    Held d registry g (.record r)

/-- A record is embedded in a value, at any depth. -/
inductive Embedded (d : Directory) (g : Graph) (w : RecordRef) : Value → Prop
  | record (h : (d.definition w.cls).referenceable = false) : Embedded d g w (.record w)
  | item {items : List Value} {v : Value} (hv : v ∈ items) (h : Embedded d g w v) :
    Embedded d g w (.array items)
  | field {fields : Object} {entry : String × Value} (he : entry ∈ fields)
    (h : Embedded d g w entry.2) : Embedded d g w (.object fields)
  | inner {r : RecordRef} (hr : (d.definition r.cls).referenceable = false) {a : Attribute}
    (ha : a ∈ d.attributes r.cls) {v : Value} (hv : g.seen? r a.name = some v)
    (h : Embedded d g w v) : Embedded d g w (.record r)

theorem Embedded.embedded {d : Directory} {g : Graph} {w : RecordRef} {v : Value}
    (h : Embedded d g w v) : (d.definition w.cls).referenceable = false := by
  induction h with
  | record h => exact h
  | item _ _ ih => exact ih
  | field _ _ ih => exact ih
  | inner _ _ _ _ ih => exact ih

namespace Held

variable {d : Directory} {registry : RegistryRef} {g : Graph} {v : Value}

/-- No record is embedded in itself. -/
theorem acyclic (h : Held d registry g v) {w : RecordRef} (hw : Embedded d g w v) {a : Attribute}
    (ha : a ∈ d.attributes w.cls) {inner : Value} (hinner : g.seen? w a.name = some inner) :
    ¬Embedded d g w inner := by
  induction h generalizing a inner with
  | leaf hleaf => cases hw <;> cases hleaf
  | undefined => cases hw
  | array _ ih =>
    cases hw with
    | item hv hin => exact ih _ hv hin ha hinner
  | object _ _ _ ih =>
    cases hw with
    | field he hin => exact ih _ he hin ha hinner
  | classRef _ => cases hw
  | reference _ hreferenceable _ _ =>
    cases hw with
    | record hembedded =>
      rw [hreferenceable] at hembedded
      cases hembedded
    | inner hembedded =>
      rw [hreferenceable] at hembedded
      cases hembedded
  | embedded _ _ _ _ ih =>
    cases hw with
    | record hembedded =>
      intro hin
      exact ih a ha inner hinner hin ha hinner hin
    | inner hembedded ha' hv hin => exact ih _ ha' _ hv hin ha hinner

end Held

end TypedRecords
