import TypedRecords.Proofs.Document.Presented
import TypedRecords.Proofs.Document.Parts
import TypedRecords.Proofs.Record.Regions
import TypedRecords.Proofs.Store.Applying
import TypedRecords.Proofs.Store.Choosing

/-! # Reading part of a document into a record

What a document presents under the names that are read is assigned to the record, and what it leaves out
becomes undefined or unset. The records that are made for it are in regions of their own, one for each
name.
-/

namespace TypedRecords

open TypedRecords.Graph (Leaves Laid Parted)

variable {d : Directory} {registry : RegistryRef} {r : RecordRef} {asked : Selector}
  {fields : Fields Selector} {document : Document} {g g₁ g' : Graph}

/-- What is read of a document for listed names. -/
def Document.selected (fields : Fields Selector) (document : Document) : Object :=
  let read := Document.project document (Projection.ofSelector? (.only fields))
  Selector.pickFields [Tree.classTag] fields read (Selector.included [Tree.classTag] read)

/-- A document has something for an attribute. Where records are expected, it is an object or an
array. -/
def Document.Presents (document : Document) (a : Attribute) : Prop :=
  ∃ v, Fields.get? a.name document = some v ∧ v ≠ .undefined ∧
    (a.type.recordClass? ≠ none → v.Nests)

namespace Document

theorem distinct_selected (fields : Fields Selector) (document : Document) :
    Fields.Distinct (document.selected fields) := by
  refine Selector.distinct_pickFields ?_
  rw [Selector.included_eq_copyInto]
  exact Fields.distinct_copyInto _ List.nodup_nil

theorem keys_selected {name : String} (h : name ∈ Fields.keys (document.selected fields)) :
    name ∈ Fields.keys fields ∨ name = Tree.classTag := by
  refine (Selector.keys_pickFields h).imp_right fun hincluded => ?_
  by_contra hne
  obtain ⟨v, hv⟩ := Fields.mem_keys_iff.1 hincluded
  rw [Selector.get?_included_classTag hne] at hv
  cases hv

theorem get?_selected_eq_none {name : String} (h : Fields.get? name document = none) :
    Fields.get? name (document.selected fields) = none := by
  rw [Fields.get?_eq_none_iff] at h ⊢
  intro hmem
  obtain ⟨v, hv⟩ := Fields.mem_keys_iff.1 hmem
  obtain ⟨w, hw, -⟩ := (Value.partOf_pick [Tree.classTag] (.only fields) (.object _)).fields_of _
    (Fields.mem_of_get? hv)
  obtain ⟨u, hu, -⟩ := (Value.partOf_project document (Projection.ofSelector? (.only fields))).fields_of
    _ hw
  exact h (Fields.mem_keys_of_mem hu)

theorem within_selected (h : (Value.object document).Within ∅) :
    ∀ entry ∈ document.selected fields, entry.2.Within ∅ := by
  have hread := (Value.partOf_project document (Projection.ofSelector? (.only fields))).within h
  exact Value.within_object.1 ((Value.partOf_pick _ (.only fields) (.object _)).within hread)

end Document

namespace Store

theorem mem_of_selects {name : String} (h : (Selector.only fields).Selects name) :
    ∃ s, (name, s) ∈ fields ∧ (Selector.only fields).get name = s ∧ s.isNone = false := by
  cases hread : Fields.get? name fields with
  | none =>
    rw [Selector.Selects, Selector.get, hread] at h
    cases h
  | some s =>
    have hget : (Selector.only fields).get name = s := by
      rw [Selector.get, hread]
      rfl
    exact ⟨s, Fields.mem_of_get? hread, hget, hget ▸ h⟩

namespace Chosen

variable (hchosen : Chosen d r asked fields)

include hchosen

theorem ne_tags (hnamed : d.WellNamed) {name : String} (h : name ∈ Fields.keys fields) :
    Path.IsName name ∧ name ≠ Tree.classTag ∧ name ≠ Tree.newTag := by
  obtain ⟨a, ha, rfl⟩ := hchosen.names name h
  exact hnamed r.cls a ha

theorem ne_newTag (hnamed : d.WellNamed) (document : Document) :
    ∀ entry ∈ document.selected fields, entry.1 ≠ Tree.newTag := by
  intro entry hentry
  rcases Document.keys_selected (Fields.mem_keys_of_mem hentry) with hlisted | htag
  · exact (hchosen.ne_tags hnamed hlisted).2.2
  · rw [htag]
    decide

theorem mem_names : ∀ a ∈ d.attributes r.cls, asked.Selects a.name →
    a.name ∈ (Selector.only fields).names := by
  intro a ha hs
  obtain ⟨s, hmem, -⟩ := mem_of_selects (hchosen.selects a ha hs)
  exact Fields.mem_keys_of_mem hmem

/-- What a document presents of an attribute that was asked for is read. -/
theorem mem_selected (hnamed : d.WellNamed) {a : Attribute} (ha : a ∈ d.attributes r.cls)
    (hs : asked.Selects a.name) (hpresents : document.Presents a) :
    a.name ∈ Fields.keys (document.selected fields) := by
  obtain ⟨v, hv, hdefined, hnests⟩ := hpresents
  obtain ⟨s, hmem, hget, hsome⟩ := mem_of_selects (hchosen.selects a ha hs)
  have hname := hnamed r.cls a ha
  refine Selector.mem_keys_pickFields_project hchosen.distinct hmem hsome hname.1 hname.2.1 hv hdefined
    fun hpart => hnests fun hplain => ?_
  rw [← hget, hchosen.whole a ha hs hplain] at hpart
  cases hpart

/-- The identifiers that a document holds are read as they are. -/
theorem get?_selected (hnamed : d.WellNamed) {a : Attribute}
    (ha : a ∈ (d.definition r.cls).identifiers) {v : Value}
    (hv : Fields.get? a.name document = some v) (hdefined : v ≠ .undefined) :
    Fields.get? a.name (document.selected fields) = some v := by
  have hall := hchosen.identifiers a ha
  have hselects : (Selector.only fields).Selects a.name := by
    rw [Selector.Selects, hall]
    rfl
  obtain ⟨s, hmem, hget, -⟩ := mem_of_selects hselects
  rw [hall] at hget
  subst hget
  have hname := hnamed r.cls a (Definition.mem_attributeList_of_identifier ha)
  exact Selector.get?_pickFields_project_all hchosen.distinct hmem hname.1 hname.2.1 hv hdefined

end Chosen

/-! ### Assigning what was read -/

theorem decodeInto_eq_ok {fields : Object} (hnew : Fields.get? Tree.newTag fields = none)
    {source : Source} (h : Record.decodeInto d registry source r (.object fields) g = (.ok (), g')) :
    Record.decodeAttributes d registry source r fields g = (.ok (), g') := by
  cases htag : Fields.get? Tree.classTag fields with
  | none =>
    simp only [Record.decodeInto, htag, hnew] at h
    exact h
  | some tag =>
    simp only [Record.decodeInto, htag, hnew] at h
    cases tag with
    | string s =>
      by_cases hs : s = r.className
      · simp only [hs, if_true] at h
        exact h
      · simp only [hs, if_false] at h
        cases h
    | _ => cases h

/-- What reading part of a document leaves. -/
structure Delivered (d : Directory) (registry : RegistryRef) (r : RecordRef) (picked : Object)
    (g g₁ g' : Graph) : Prop where
  assigned : Record.decodeAttributes d registry .store r picked g = (.ok (), g₁)
  leaves : Leaves (· ≠ r.serial) g₁ g'
  held : ∀ name ∈ Fields.keys picked, g'.own? r name = g₁.own? r name

theorem applyDocument_selected (hd : d.Lawful) (hnamed : d.WellNamed)
    (hchosen : Chosen d r asked fields) {cell : Cell} (hcell : g.cell? r = some cell)
    (h : applyDocument d registry r (.only fields)
      (Document.project document (Projection.ofSelector? (.only fields))) g = (.ok (), g')) :
    ∃ g₁, Delivered d registry r (document.selected fields) g g₁ g' ∧
      ∀ a ∈ d.attributes r.cls, a.name ∈ Fields.keys fields →
        a.name ∉ Fields.keys (document.selected fields) →
          g'.own? r a.name = some (missingSlot a) := by
  have hnew := hchosen.ne_newTag hnamed document
  unfold applyDocument at h
  rw [Selector.pick_object] at h
  obtain ⟨_, g₁, hinto, hrest⟩ := Stateful.bind_eq_ok h
  have hnone : Fields.get? Tree.newTag (document.selected fields) = none := by
    rw [Fields.get?_eq_none_iff]
    intro hmem
    obtain ⟨v, hv⟩ := Fields.mem_keys_iff.1 hmem
    exact hnew _ (Fields.mem_of_get? hv) rfl
  have hassigned := decodeInto_eq_ok hnone hinto
  obtain ⟨slots, hcell₁⟩ := cell?_of_decodeAttributes (Document.distinct_selected fields document)
    hnew hcell hassigned
  have hattributes : ∀ name ∈ (Selector.only fields).names.filter
      (fun name => !Fields.contains name (document.selected fields)),
      ∃ a, (d.definition r.cls).attribute? name = some a := by
    intro name hname
    obtain ⟨a, ha, rfl⟩ := hchosen.names name (List.mem_filter.1 hname).1
    exact ⟨a, (hd.definition r.cls).attribute?_of_mem ha⟩
  obtain ⟨g₂, hmissing, hleaves, hother, hunset⟩ := forM_assignMissing hattributes hcell₁
  have hrest : (((Selector.only fields).names.filter
      fun name => !Fields.contains name (document.selected fields)).forM (assignMissing d r) >>=
        fun _ => Record.mark r false) g₁ = (.ok (), g') := hrest
  rw [Stateful.bind_of_ok hmissing] at hrest
  cases hrest
  refine ⟨g₁, ⟨hassigned, hleaves.modify (.inr fun hne => hne rfl) _, fun name hname => ?_⟩,
    fun a ha hname hleft => ?_⟩
  · rw [Graph.own?_mark, hother]
    intro hfiltered
    have hcontains := Fields.contains_iff.2 hname
    have hfilter := (List.mem_filter.1 hfiltered).2
    rw [hcontains] at hfilter
    cases hfilter
  · have hlisted : a.name ∈ (Selector.only fields).names.filter
        (fun name => !Fields.contains name (document.selected fields)) := by
      refine List.mem_filter.2 ⟨hname, ?_⟩
      rw [Bool.not_eq_true', ← Bool.not_eq_true, Fields.contains_iff]
      exact hleft
    rw [Graph.own?_mark, hunset a.name hlisted a ((hd.definition r.cls).attribute?_of_mem ha)]

namespace Delivered

variable {picked : Object} (h : Delivered d registry r picked g g₁ g')

include h

theorem leaves_cell : Leaves (· ≠ r.serial) g g' :=
  ((Record.keeps_decodeAttributes (.inr fun hne => hne rfl) picked).of_run (.refl _ g)
    h.assigned).trans h.leaves

/-- What was read is assigned as read from the store. -/
theorem own? (hdistinct : Fields.Distinct picked)
    (hnew : ∀ entry ∈ picked, entry.1 ≠ Tree.newTag) {cell : Cell} (hcell : g.cell? r = some cell)
    {name : String} (hname : name ∈ Fields.keys picked) (htag : name ≠ Tree.classTag) :
    ∃ t v, Fields.get? name picked = some t ∧ g'.own? r name = some (some ⟨v, .store⟩) ∧
      Record.DecodedBetween d registry .store (· ≠ r.serial) g g₁ t v := by
  have hassigns := Record.decodeAttributes_assigns hdistinct hnew hcell h.assigned
  obtain ⟨t, ht⟩ := Fields.mem_keys_iff.1 hname
  obtain ⟨v, hv, hdecoded⟩ := hassigns.assigned name t (Fields.mem_of_get? ht) htag
  exact ⟨t, v, ht, (h.held name hname).trans hv, hdecoded⟩

/-- The records that were made are in regions of their own, one for each name. -/
theorem parted {fields : Fields Selector} (hdistinct : Fields.Distinct picked)
    (hnew : ∀ entry ∈ picked, entry.1 ≠ Tree.newTag) (hpicked : ∀ entry ∈ picked, entry.2.Within ∅)
    {cell : Cell} (hcell : g.cell? r = some cell)
    (htags : ∀ name ∈ Fields.keys fields, name ≠ Tree.classTag)
    (hmissing : ∀ name ∈ Fields.keys fields, name ∉ Fields.keys picked →
      ∃ a, g'.own? r name = some (missingSlot a)) :
    g'.Parted r (· ∈ Fields.keys fields) g.cells.size g'.cells.size := by
  obtain ⟨bounds, hbounds, hapart⟩ := Record.decodeAttributes_parted hdistinct hnew hpicked hcell
    h.assigned
  have hlt := Graph.lt_of_cell? hcell
  refine Graph.laid_additive.extend h.leaves_cell.size (fun name hname => ?_) hapart
    fun name hname hmissed => ?_
  · obtain ⟨hlo, hhi, hlaid⟩ := hbounds name hname
    refine ⟨hlo, hhi.trans h.leaves.size, ?_⟩
    rw [Graph.held_congr (h.held name hname.1)]
    exact hlaid.leaves hhi h.leaves fun n hn _ => by omega
  · -- An attribute that the document leaves out holds no records.
    obtain ⟨a, ha⟩ := hmissing name hname fun hmem => hmissed ⟨hmem, htags name hname⟩
    rw [Graph.held, Graph.value?, ha, missingSlot]
    split <;> rfl

end Delivered

end Store

end TypedRecords
