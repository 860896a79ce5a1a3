import TypedRecords.Proofs.Record.Regions
import TypedRecords.Proofs.Store.Applying

/-! # Records to follow

The records that a document brings are new and apart from each other. They can be loaded one after
the other, in any order.
-/

namespace TypedRecords

open TypedRecords.Graph (Leaves)
open TypedRecords.Tree (Fresh)

variable {d : Directory} {registry : RegistryRef} {r : RecordRef} {g g₁ g' : Graph}

/-! ### Records to follow -/

/-- Records in cells from `lo` on that can be loaded one after the other: they are apart, and those
that are referred to by identifier hold nothing but keys. -/
structure Followable (d : Directory) (registry : RegistryRef) (lo : Nat) (g : Graph)
    (rs : List RecordRef) : Prop where
  apart : (rs.map RecordRef.serial).Nodup
  placed : ∀ r ∈ rs, lo ≤ r.serial ∧ r.serial < g.cells.size
  found : ∀ r ∈ rs, r.base? = none ∧ d.find? registry r.cls.name = some r.cls
  bare : ∀ r ∈ rs, (d.definition r.cls).referenceable = true → r.Bare g

namespace Followable

variable {lo : Nat} {rs rs' : List RecordRef}

theorem leaves {kept : Nat → Prop} (h : Followable d registry lo g rs) (hg : Leaves kept g g')
    (hkept : ∀ r ∈ rs, kept r.serial) : Followable d registry lo g' rs where
  apart := h.apart
  placed r hr := by
    have hplaced := h.placed r hr
    have hsize := hg.size
    omega
  found := h.found
  bare r hr hreferenceable := (h.bare r hr hreferenceable).leaves hg (hkept r hr)

theorem left (h : Followable d registry lo g (rs ++ rs')) : Followable d registry lo g rs where
  apart := (List.nodup_append.1 (List.map_append ▸ h.apart)).1
  placed r hr := h.placed r (List.mem_append_left _ hr)
  found r hr := h.found r (List.mem_append_left _ hr)
  bare r hr := h.bare r (List.mem_append_left _ hr)

theorem right (h : Followable d registry lo g (rs ++ rs')) :
    Followable d registry lo g rs' where
  apart := (List.nodup_append.1 (List.map_append ▸ h.apart)).2.1
  placed r hr := h.placed r (List.mem_append_right _ hr)
  found r hr := h.found r (List.mem_append_right _ hr)
  bare r hr := h.bare r (List.mem_append_right _ hr)

theorem ne (h : Followable d registry lo g (rs ++ rs')) {r r' : RecordRef} (hr : r ∈ rs)
    (hr' : r' ∈ rs') : r.serial ≠ r'.serial :=
  (List.nodup_append.1 (List.map_append ▸ h.apart)).2.2 _ (List.mem_map_of_mem hr) _
    (List.mem_map_of_mem hr')

end Followable

/-- The records in the attributes of a record, in the order of the names. -/
def Graph.recordsUnder (g : Graph) (r : RecordRef) (names : List String) : List RecordRef :=
  names.flatMap fun name => ((g.value? r name).map Value.records).getD []

theorem Graph.mem_recordsUnder {names : List String} {r' : RecordRef} :
    r' ∈ g.recordsUnder r names ↔
      ∃ name ∈ names, ∃ v, g.value? r name = some v ∧ r' ∈ v.records := by
  unfold recordsUnder
  rw [List.mem_flatMap]
  exact exists_congr fun name => and_congr_right fun _ => mem_held

theorem Graph.recordsUnder_congr {names : List String}
    (h : ∀ name ∈ names, g'.value? r name = g.value? r name) :
    g'.recordsUnder r names = g.recordsUnder r names := by
  unfold recordsUnder
  refine List.flatMap_congr fun name hname => ?_
  rw [h name hname]

/-! ### What was assigned -/

/-- The records in attributes that were assigned: those of each are fresh, those of two apart. -/
structure Record.Spread (d : Directory) (registry : RegistryRef) (r : RecordRef)
    (assigned : String → Prop) (g g' : Graph) : Prop where
  fresh : ∀ name, assigned name → ∀ v, g'.value? r name = some v →
    Fresh d registry g g' v.records
  apart : ∀ name name', assigned name → assigned name' → name ≠ name' → ∀ v v',
    g'.value? r name = some v → g'.value? r name' = some v' →
      ∀ r₁ ∈ v.records, ∀ r₂ ∈ v'.records, r₁.serial ≠ r₂.serial

theorem Tree.Fresh.earlier {rs : List RecordRef} (h : Fresh d registry g₁ g' rs)
    (hsize : g.cells.size ≤ g₁.cells.size) : Fresh d registry g g' rs where
  sorted := h.sorted
  fresh r hr := by
    have hfresh := h.fresh r hr
    omega
  found := h.found
  bare := h.bare

theorem Record.decodeAttributes_spread (hd : d.Lawful) {checked : Prop} {fields : Object}
    (hdistinct : Fields.Distinct fields) (hnew : ∀ entry ∈ fields, entry.1 ≠ Tree.newTag)
    (hreadable : ∀ entry ∈ fields, entry.1 ≠ Tree.classTag →
      Tree.Readable d registry checked entry.2) {cell : Cell} (hcell : g.cell? r = some cell)
    (h : decodeAttributes d registry .store r fields g = (.ok (), g')) :
    Spread d registry r (fun name => name ∈ Fields.keys fields ∧ name ≠ Tree.classTag) g g' := by
  induction fields generalizing g cell with
  | nil => exact ⟨by simp [Fields.keys], by simp [Fields.keys]⟩
  | cons entry rest ih =>
    obtain ⟨name, t⟩ := entry
    obtain ⟨hname, hdistinctRest⟩ := Fields.distinct_cons.1 hdistinct
    obtain ⟨hnewName, hnewRest⟩ := List.forall_mem_cons.1 hnew
    obtain ⟨hfirst, hrest⟩ := List.forall_mem_cons.1 hreadable
    have hlisted : ∀ other, other ∈ Fields.keys ((name, t) :: rest) →
        other = name ∨ other ∈ Fields.keys rest := fun other hmem => List.mem_cons.1 hmem
    by_cases hclass : name = Tree.classTag
    · rw [decodeAttributes_tag (.inl hclass)] at h
      have htail := ih hdistinctRest hnewRest hrest hcell h
      have hlater : ∀ other, other ∈ Fields.keys ((name, t) :: rest) ∧ other ≠ Tree.classTag →
          other ∈ Fields.keys rest ∧ other ≠ Tree.classTag := by
        rintro other ⟨hmem, hne⟩
        exact ⟨(hlisted other hmem).resolve_left fun heq => hne (heq.trans hclass), hne⟩
      exact ⟨fun other hother => htail.fresh other (hlater other hother),
        fun other other' hother hother' =>
          htail.apart other other' (hlater other hother) (hlater other' hother')⟩
    · obtain ⟨v, g₁, g₂, cell', hv, hsize₂, hcell₂, hlater, hleaves, hown⟩ :=
        decodeAttributes_first hname hdistinctRest hclass hnewName hnewRest hcell h
      have hsize₁ := (decode_leaves hv).size
      have hlt := Graph.lt_of_cell? hcell
      have htail := ih hdistinctRest hnewRest hrest hcell₂ hlater
      have hvalue : g'.value? r name = some v := Graph.value?_eq_some_iff.2 ⟨.store, hown⟩
      have hfresh := (decode_fresh hd (hfirst hclass) hv).2
      -- Neither the assignment nor the fields after it reach the records of this field.
      have hfresh' : Fresh d registry g g' v.records := by
        refine hfresh.leaves hleaves fun r' hr' => ?_
        have hfrom := hfresh.fresh r' hr'
        omega
      -- The records of the first field were made before those of the others.
      have hbefore : ∀ other, other ∈ Fields.keys rest ∧ other ≠ Tree.classTag → ∀ w,
          g'.value? r other = some w → ∀ r₁ ∈ v.records, ∀ r₂ ∈ w.records,
          r₁.serial < r₂.serial := by
        intro other hother w hw r₁ hr₁ r₂ hr₂
        have hfirstMade := hfresh.fresh r₁ hr₁
        have hsecondMade := (htail.fresh other hother w hw).fresh r₂ hr₂
        omega
      refine ⟨?_, ?_⟩
      · rintro other ⟨hmem, hne⟩ w hw
        rcases hlisted other hmem with rfl | hother
        · rw [hvalue] at hw
          cases hw
          exact hfresh'
        · exact (htail.fresh other ⟨hother, hne⟩ w hw).earlier (by omega)
      · rintro other other' ⟨hmem, hne⟩ ⟨hmem', hne'⟩ hdiffer w w' hw hw' r₁ hr₁ r₂ hr₂
        rcases hlisted other hmem with rfl | hother
        · have hother' := (hlisted other' hmem').resolve_left (Ne.symm hdiffer)
          rw [hvalue] at hw
          cases hw
          exact Nat.ne_of_lt (hbefore other' ⟨hother', hne'⟩ w' hw' r₁ hr₁ r₂ hr₂)
        · rcases hlisted other' hmem' with rfl | hother'
          · rw [hvalue] at hw'
            cases hw'
            exact Nat.ne_of_gt (hbefore other ⟨hother, hne⟩ w hw r₂ hr₂ r₁ hr₁)
          · exact htail.apart other other' ⟨hother, hne⟩ ⟨hother', hne'⟩ hdiffer w w' hw hw' r₁ hr₁
              r₂ hr₂

/-- The records under names that were assigned can be followed one after the other. -/
theorem Record.Spread.followable {names : List String}
    (h : Spread d registry r (· ∈ names) g g') (hnodup : names.Nodup) :
    Followable d registry g.cells.size g' (g'.recordsUnder r names) := by
  refine ⟨?_, ?_, ?_, ?_⟩
  · rw [Graph.recordsUnder, List.map_flatMap, List.nodup_flatMap]
    constructor
    · intro name hname
      cases hv : g'.value? r name with
      | none => exact List.nodup_nil
      | some v => exact (h.fresh name hname v hv).sorted.imp Nat.ne_of_lt
    -- The names differ, and the records under two names are apart.
    · refine List.Pairwise.imp_of_mem ?_ hnodup
      intro name name' hname hname' hdiffer
      refine List.disjoint_left.2 ?_
      intro n hn hn'
      obtain ⟨r₁, hr₁, rfl⟩ := List.mem_map.1 hn
      obtain ⟨r₂, hr₂, heq⟩ := List.mem_map.1 hn'
      obtain ⟨v, hv, hr₁⟩ := Graph.mem_held.1 hr₁
      obtain ⟨v', hv', hr₂⟩ := Graph.mem_held.1 hr₂
      exact h.apart name name' hname hname' hdiffer v v' hv hv' r₁ hr₁ r₂ hr₂ heq.symm
  · intro r' hr'
    obtain ⟨name, hname, v, hv, hmem⟩ := Graph.mem_recordsUnder.1 hr'
    have hmade := (h.fresh name hname v hv).fresh r' hmem
    omega
  · intro r' hr'
    obtain ⟨name, hname, v, hv, hmem⟩ := Graph.mem_recordsUnder.1 hr'
    exact (h.fresh name hname v hv).found r' hmem
  · intro r' hr'
    obtain ⟨name, hname, v, hv, hmem⟩ := Graph.mem_recordsUnder.1 hr'
    exact (h.fresh name hname v hv).bare r' hmem

theorem Store.Applied.spread (hd : d.Lawful) (hnamed : d.WellNamed) {checked : Prop}
    {document picked : Document} (hdocument : Document.Legible d registry checked r.cls document)
    {cell : Cell} (hcell : g.cell? r = some cell)
    (h : Applied d registry r document picked g g₁ g') :
    Record.Spread d registry r (· ∈ (d.attributes r.cls).map Attribute.name) g g' := by
  have hlegible := hdocument.of_same h.distinct h.same
  have hspread := Record.decodeAttributes_spread hd h.distinct
    (Record.ne_newTag hlegible.accepts) hlegible.readable hcell h.assigned
  -- Attributes that the document leaves out hold no records.
  have hassigned : ∀ name ∈ (d.attributes r.cls).map Attribute.name, ∀ v,
      g'.value? r name = some v → v.records = [] ∨
        (name ∈ Fields.keys picked ∧ name ≠ Tree.classTag) ∧ g₁.value? r name = some v := by
    intro name hname v hv
    obtain ⟨a, ha, rfl⟩ := List.mem_map.1 hname
    by_cases hmem : a.name ∈ Fields.keys document
    · rw [Graph.value?_congr (h.held a ha hmem)] at hv
      refine .inr ⟨⟨?_, hnamed.ne_classTag r.cls a ha⟩, hv⟩
      rw [Fields.mem_keys_iff] at hmem ⊢
      rwa [h.same]
    · refine .inl ?_
      rw [Graph.value?, h.missing a ha hmem, Store.missingSlot] at hv
      split at hv
      · cases hv
        rfl
      · cases hv
  have hlt := Graph.lt_of_cell? hcell
  constructor
  case fresh =>
    intro name hname v hv
    rcases hassigned name hname v hv with hnone | ⟨hlisted, hv₁⟩
    · rw [hnone]
      exact .nil
    · have hmade := hspread.fresh name hlisted v hv₁
      refine hmade.leaves h.leaves fun r' hr' => ?_
      have hfrom := hmade.fresh r' hr'
      omega
  case apart =>
    intro name name' hname hname' hdiffer v v' hv hv' r₁ hr₁ r₂ hr₂
    rcases hassigned name hname v hv with hnone | ⟨hlisted, hv₁⟩
    · rw [hnone] at hr₁
      cases hr₁
    · rcases hassigned name' hname' v' hv' with hnone | ⟨hlisted', hv₁'⟩
      · rw [hnone] at hr₂
        cases hr₂
      · exact hspread.apart name name' hlisted hlisted' hdiffer v v' hv₁ hv₁' r₁ hr₁ r₂ hr₂

theorem Store.Applied.followable (hd : d.Lawful) (hnamed : d.WellNamed) {checked : Prop}
    {document picked : Document} (hdocument : Document.Legible d registry checked r.cls document)
    {cell : Cell} (hcell : g.cell? r = some cell)
    (h : Applied d registry r document picked g g₁ g') :
    Followable d registry g.cells.size g'
      (g'.recordsUnder r ((d.attributes r.cls).map Attribute.name)) :=
  (h.spread hd hnamed hdocument hcell).followable (hd.definition r.cls).names_nodup

end TypedRecords
