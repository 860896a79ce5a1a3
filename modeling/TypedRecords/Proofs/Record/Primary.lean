import TypedRecords.Proofs.Record.Halted
import TypedRecords.Proofs.Record.Held

/-! # Records under a key

The primary identifier of a record equals a key. It still does after a tree has been applied that has an
equal one under its name, even where that fails halfway.
-/

namespace TypedRecords

open TypedRecords.Graph (Leaves)
open Stateful (Keeps)

variable {d : Directory} {registry : RegistryRef} {source : Source} {r q : RecordRef}
  {key : String × Value} {g g' : Graph}

/-! ### Records that retain their values -/

/-- A record holds what it held, whatever the sources, and is new if it was. -/
structure Graph.Retains (r : RecordRef) (g g' : Graph) : Prop where
  value : ∀ name, g'.value? r name = g.value? r name
  isNew : g'.isNew r = g.isNew r

namespace Graph

theorem Retains.refl (r : RecordRef) (g : Graph) : g.Retains r g := ⟨fun _ => rfl, rfl⟩

theorem Retains.trans {g₁ : Graph} (h : g.Retains r g₁) (h' : g₁.Retains r g') : g.Retains r g' :=
  ⟨fun name => (h'.value name).trans (h.value name), h'.isNew.trans h.isNew⟩

theorem retains_mark (h : r.serial ≠ q.serial) (g : Graph) (isNew : Bool) :
    g.Retains q (g.mark r isNew) :=
  ⟨fun name => value?_congr (own?_mark g r isNew q name), by rw [isNew_mark, if_neg h]⟩

theorem Spares.retains (h : g.Spares r g') : g.Retains r g' :=
  ⟨fun name => value?_congr (h.own name), h.isNew⟩

end Graph

/-- Where a value is only replaced by itself, records that are no forks retain their values. -/
theorem AllowsRestating.retaining {A : RecordRef → String → Value → Prop}
    {I : Set RecordRef → Graph → Prop} (hI : AllowsRestating A I)
    (hsound : ∀ known g, I known g → g.Sound known) {records : Set RecordRef}
    (hmade : ∀ q ∈ records, q.base? = none) (g₀ : Graph) :
    AllowsRestating (fun q name v => A q name v ∧ (q ∈ records → g₀.value? q name = some v))
      fun known g => I known g ∧ records ⊆ known ∧ ∀ q ∈ records, g₀.Retains q g where
  toAllowsReading := hI.toAllowsReading.sparing hsound hmade fun g g' hspares hretains q hq =>
    (hretains q hq).trans (hspares q hq).retains
  present := by
    rintro known q name g hq ⟨hg, -, hretains⟩ slot hslot
    refine ⟨hI.present known q name g hq hg slot hslot, fun hrecord => ?_⟩
    rw [RecordRef.slot?_made (hmade q hrecord)] at hslot
    rw [← (hretains q hrecord).value name]
    exact congrArg (Option.map Slot.value) (congrArg Option.join (Option.join_eq_some_iff.1 hslot))
  write := by
    rintro known q name v source g hq ⟨hv, hheld⟩ hwithin ⟨hg, hrecords, hretains⟩
    refine ⟨hI.write known q name v source g hq hv hwithin hg, hrecords, fun q' hq' => ?_⟩
    refine (hretains q' hq').trans ⟨fun name' => ?_, Graph.isNew_write g q name _ q'⟩
    rcases Graph.own?_write_cases g q name (some ⟨v, source⟩) q' name' with hsame | ⟨hserial, rfl, hown⟩
    · exact Graph.value?_congr hsame
    · obtain rfl := (hsound known g hg).alone q' (hrecords hq') q hq hserial
      rw [Graph.value?, hown, (hretains q' hq').value name', hheld hq']
      rfl

/-! ### Primary identifiers -/

/-- The primary identifier of a record, by name, if it is set. -/
def Graph.primary? (d : Directory) (g : Graph) (r : RecordRef) : Option (String × Value) :=
  (d.definition r.cls).primary?.bind fun a => (g.value? r a.name).map fun v => (a.name, v)

theorem Graph.primary?_eq_some {name : String} {v : Value} :
    g.primary? d r = some (name, v) ↔
      ∃ a, (d.definition r.cls).primary? = some a ∧ a.name = name ∧ g.value? r name = some v := by
  unfold primary?
  constructor
  · intro h
    obtain ⟨a, ha, hvalue⟩ := Option.bind_eq_some_iff.1 h
    obtain ⟨w, hw, heq⟩ := Option.map_eq_some_iff.1 hvalue
    cases heq
    exact ⟨a, ha, rfl, hw⟩
  · rintro ⟨a, ha, rfl, hv⟩
    rw [ha, Option.bind_some, hv]
    rfl

theorem Graph.primary?_congr (h : ∀ name, g'.value? r name = g.value? r name) :
    g'.primary? d r = g.primary? d r := by
  simp only [primary?, h]

theorem Definition.identifiers_of_primary {definition : Definition} {a : Attribute}
    (ha : definition.primary? = some a) : definition.identifiers = a :: definition.secondaries := by
  rw [identifiers, ha]
  rfl

theorem Definition.mem_identifiers_of_primary {definition : Definition} {a : Attribute}
    (ha : definition.primary? = some a) : a ∈ definition.identifiers :=
  identifiers_of_primary ha ▸ List.mem_cons_self

/-- A record that has a primary identifier is described by it. -/
theorem Graph.identifier?_of_primary? (hmade : r.base? = none) {name : String} {v : Value}
    (h : g.primary? d r = some (name, v)) (hdefined : v ≠ .undefined) :
    g.identifier? d r = some (name, v) := by
  obtain ⟨a, ha, rfl, hv⟩ := primary?_eq_some.1 h
  rw [identifier?, Definition.identifiers_of_primary ha, List.findSome?_cons, seen?_made hmade, hv]
  cases v <;> first | rfl | exact absurd rfl hdefined

/-! ### Keys -/

/-- The primary identifier of a record has the name of a key and equals it. -/
def Graph.Under (d : Directory) (g : Graph) (r : RecordRef) (key : String × Value) : Prop :=
  ∃ v, g.primary? d r = some (key.1, v) ∧ v.IsKey ∧ v.beq key.2 = true

namespace Graph.Under

theorem of_primary? (h : g.Under d r key) (heq : g'.primary? d r = g.primary? d r) :
    g'.Under d r key := by
  obtain ⟨v, hv, hkey⟩ := h
  exact ⟨v, heq.trans hv, hkey⟩

theorem congr (h : g.Under d r key) (hvalue : ∀ name, g'.value? r name = g.value? r name) :
    g'.Under d r key :=
  h.of_primary? (primary?_congr hvalue)

theorem isKey (h : g.Under d r key) : key.2.IsKey := by
  obtain ⟨v, -, hkey, hequal⟩ := h
  exact hkey.of_beq ((hkey.beq_comm key.2).symm.trans hequal)

theorem primary (h : g.Under d r key) : ∃ a, (d.definition r.cls).primary? = some a ∧ a.name = key.1 := by
  obtain ⟨v, hv, -⟩ := h
  obtain ⟨a, ha, hname, -⟩ := primary?_eq_some.1 hv
  exact ⟨a, ha, hname⟩

theorem leaves (h : g.Under d r key) (hr : r.serial < g.cells.size) {kept : Nat → Prop}
    (hkept : kept r.serial) (hleaves : Leaves kept g g') : g'.Under d r key :=
  h.congr fun name => value?_congr (hleaves.own? hr hkept name)

theorem descriptor (h : g.Under d r key) (hmade : r.base? = none) :
    ∃ v, Record.descriptor d r g = (.ok [(key.1, v)], g) ∧ v.IsKey ∧ v.beq key.2 = true := by
  obtain ⟨v, hv, hkey, hequal⟩ := h
  refine ⟨v, ?_, hkey, hequal⟩
  rw [Record.descriptor_made hmade, identifier?_of_primary? hmade hv hkey.ne_undefined]

/-- Whatever is written elsewhere, and an equal key under the name itself, leaves a record under its
key. -/
theorem write (h : g.Under d r key) (hr : r.serial < g.cells.size) {name : String}
    {slot : Option Slot} (hslot : name = key.1 →
      ∃ v source, slot = some ⟨v, source⟩ ∧ v.IsKey ∧ v.beq key.2 = true) :
    (g.write r name slot).Under d r key := by
  obtain ⟨v, hv, hkey⟩ := h
  obtain ⟨a, ha, hname, hvalue⟩ := primary?_eq_some.1 hv
  by_cases heq : name = key.1
  · obtain ⟨w, source, rfl, hw⟩ := hslot heq
    refine ⟨w, primary?_eq_some.2 ⟨a, ha, hname, value?_eq_some_iff.2 ⟨source, ?_⟩⟩, hw⟩
    rw [← heq]
    exact own?_write_self (Array.getElem?_eq_getElem hr) name _
  · refine ⟨v, primary?_eq_some.2 ⟨a, ha, hname, ?_⟩, hkey⟩
    rw [value?_congr (own?_write_of_name_ne (Ne.symm heq) g r r slot)]
    exact hvalue

end Graph.Under

/-- A record under a key that is new unless something is stored, which then it is not, where no attribute is
named like the mark of what is new. -/
structure Graph.Tracks (d : Directory) (r : RecordRef) (key : String × Value) (stored : Prop)
    (g : Graph) : Prop where
  under : g.Under d r key
  known : g.isNew r = false → stored
  isNew : (∀ a ∈ d.attributes r.cls, a.name ≠ Tree.newTag) → stored → g.isNew r = false

theorem Graph.Tracks.congr {stored stored' : Prop} (h : g.Tracks d r key stored)
    (hprimary : g'.primary? d r = g.primary? d r) (hnew : g'.isNew r = g.isNew r)
    (hstored : stored ↔ stored') : g'.Tracks d r key stored' where
  under := h.under.of_primary? hprimary
  known hfalse := hstored.1 (h.known (hnew.symm.trans hfalse))
  isNew hunnamed hstored' := hnew.trans (h.isNew hunnamed (hstored.2 hstored'))

theorem Graph.Tracks.retains {stored : Prop} (h : g.Tracks d r key stored) (hretains : g.Retains r g') :
    g'.Tracks d r key stored :=
  h.congr (primary?_congr hretains.value) hretains.isNew Iff.rfl

/-- A record is marked as new or not, depending on whether something is stored. -/
theorem Graph.Under.tracks_mark {stored : Prop} (h : g.Under d r key) (hr : r.serial < g.cells.size)
    {isNew : Bool} (hnew : isNew = false ↔ stored) : (g.mark r isNew).Tracks d r key stored := by
  have hmarked : (g.mark r isNew).isNew r = isNew := by
    have hcell : g.cell? r = some g.cells[r.serial] := Array.getElem?_eq_getElem hr
    rw [isNew_mark, if_pos rfl, hcell, Option.isSome_some, Bool.true_and]
  refine ⟨h.congr fun name => value?_congr (own?_mark g r isNew r name), fun hfalse => ?_, fun _ hstored => ?_⟩
  · exact hnew.1 (hmarked.symm.trans hfalse)
  · exact hmarked.trans (hnew.2 hstored)

/-- Fields of which none contradicts a key. -/
def Value.Agrees (key : String × Value) (fields : Object) : Prop :=
  ∀ entry ∈ fields, entry.1 = key.1 → entry.2.IsKey ∧ entry.2.beq key.2 = true

/-- A record that stays under a key, and that is not new if it is settled that it exists. -/
structure Graph.Settled (d : Directory) (r : RecordRef) (key : String × Value) (exist : Prop) (g : Graph) :
    Prop where
  bounded : r.serial < g.cells.size
  under : g.Under d r key
  isNew : exist → g.isNew r = false

namespace Graph.Settled

variable {exist : Prop}

theorem leaves (h : g.Settled d r key exist) {kept : Nat → Prop} (hkept : kept r.serial)
    (hleaves : Leaves kept g g') : g'.Settled d r key exist where
  bounded := h.bounded.trans_le hleaves.size
  under := h.under.leaves h.bounded hkept hleaves
  isNew hexist := (Spares.of_leaves hleaves h.bounded hkept).isNew.trans (h.isNew hexist)

theorem write (h : g.Settled d r key exist) {name : String} {slot : Option Slot}
    (hslot : name = key.1 → ∃ v source, slot = some ⟨v, source⟩ ∧ v.IsKey ∧ v.beq key.2 = true) :
    (g.write r name slot).Settled d r key exist where
  bounded := h.bounded.trans_eq (size_modify g r _).symm
  under := h.under.write h.bounded hslot
  isNew hexist := (isNew_write g r name slot r).trans (h.isNew hexist)

theorem mark (h : g.Settled d r key exist) {isNew : Bool} (hnew : exist → isNew = false) :
    (g.mark r isNew).Settled d r key exist where
  bounded := h.bounded.trans_eq (size_modify g r _).symm
  under := h.under.congr fun name => value?_congr (own?_mark g r isNew r name)
  isNew hexist := by rw [isNew_mark, if_pos rfl, hnew hexist, Bool.and_false]

/-! ### Trees that are applied -/

theorem keeps_ofExcept {α : Type} (x : Except Error α) :
    Keeps (Settled d r key exist) (Record.ofExcept x) fun _ => True :=
  (Record.keeps_ofExcept x).imp fun _ _ => trivial

theorem keeps_setFrom {name : String} {v : Value}
    (hv : name = key.1 → v.IsKey ∧ v.beq key.2 = true) :
    Keeps (Settled d r key exist) (Record.setFrom d source r name v) fun _ => True := by
  have hcheck : Keeps (Settled d r key exist) (Record.check d r name v) fun _ => True :=
    (keeps_ofExcept _).bind fun _ _ => keeps_ofExcept _
  refine hcheck.bind fun _ _ g hg => ⟨hg.write fun hname => ?_, fun _ _ => trivial⟩
  exact ⟨v, source, rfl, hv hname⟩

theorem keeps_decode {t : Value} :
    Keeps (Settled d r key exist) (Record.decode d registry source t) fun v => t.IsKey → v = t := by
  intro g hg
  refine ⟨?_, fun v hv hkey => ?_⟩
  · have hleaves : Leaves (fun _ => True) g (Record.decode d registry source t g).2 :=
      (Record.keeps_decode t g (.refl _ g)).1
    exact hg.leaves trivial hleaves
  · rw [Record.decode_leaf (Value.isLeaf_of_isKey hkey)] at hv
    cases hv
    rfl

theorem keeps_decodeAttributes {fields : Object} (hfields : Value.Agrees key fields) :
    Keeps (Settled d r key exist) (Record.decodeAttributes d registry source r fields)
      fun _ => True := by
  induction fields with
  | nil => exact .pure trivial
  | cons entry rest ih =>
    obtain ⟨name, t⟩ := entry
    obtain ⟨ht, hrest⟩ := List.forall_mem_cons.1 hfields
    simp only [Record.decodeAttributes]
    split
    · exact ih hrest
    · refine (keeps_ofExcept _).bind fun _ _ => keeps_decode.bind fun v hv => ?_
      refine (keeps_setFrom fun hname => ?_).bind fun _ _ => ih hrest
      rw [hv (ht hname).1]
      exact ht hname

/-- A tree with the key of a record that does not say that the record is new. -/
theorem keeps_decodeInto {fields : Object} (hfields : Value.Agrees key fields)
    (hnew : exist → Tree.newTag ∉ Fields.keys fields) :
    Keeps (Settled d r key exist) (Record.decodeInto d registry source r (.object fields))
      fun _ => True := by
  intro g hg
  have hmarked : (g.marked r fields).Settled d r key exist := by
    unfold marked
    split
    · next isNew hread =>
      exact hg.mark fun hexist => absurd (Fields.mem_keys_iff.2 ⟨_, hread⟩) (hnew hexist)
    · exact hg
  rcases hrun : Record.decodeInto d registry source r (.object fields) g with ⟨result, g'⟩
  refine ⟨?_, fun _ _ => trivial⟩
  by_cases htag : ∀ tag, Fields.get? Tree.classTag fields = some tag → tag = .string r.className
  · rw [Record.decodeInto_of_tag htag] at hrun
    exact (keeps_decodeAttributes hfields).of_run hmarked hrun
  · cases result with
    | ok _ => exact absurd (Record.decodeInto_eq_ok_iff.1 hrun).1 htag
    | error e =>
      rcases Record.decodeInto_eq_error hg.bounded hrun with rfl | ⟨_, heq, htagged, -⟩
      · exact hg
      · cases heq
        exact absurd htagged htag

end Graph.Settled

end TypedRecords
