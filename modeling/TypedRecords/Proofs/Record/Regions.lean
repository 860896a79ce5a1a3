import TypedRecords.Proofs.Record.Views
import TypedRecords.Proofs.Record.Writing
import TypedRecords.Proofs.Tree.Readable

/-! # Regions of the graph

The records that a tree is decoded to are made one after the other, each in a region of cells of its own
that holds all that is in it. Whatever is done with the records of a region changes no other cell that
was there before.
-/

namespace TypedRecords

open TypedRecords.Graph (Leaves)
open Stateful (KeepsIn)

/-- The records made in the cells from `lo` up to `hi`. -/
def RecordRef.Region (lo hi : Nat) : Set RecordRef :=
  {r | r.base? = none ∧ lo ≤ r.serial ∧ r.serial < hi}

open RecordRef (Region)

namespace Graph

variable {g g' : Graph} {r : RecordRef} {lo mid hi : Nat} {rs rs' : List RecordRef}

theorem region_subset {lo' hi' : Nat} (hlo : lo' ≤ lo) (hhi : hi ≤ hi') :
    Region lo hi ⊆ Region lo' hi' :=
  fun _ hr => ⟨hr.1, hlo.trans hr.2.1, hr.2.2.trans_le hhi⟩

/-! ### Confined regions -/

/-- The records of a region hold no others, and none is being resolved. -/
structure Confined (g : Graph) (lo hi : Nat) : Prop where
  closed : ∀ r ∈ Region lo hi, ∀ name slot, g.own? r name = some (some slot) →
    slot.value.Within (Region lo hi)
  calm : ∀ r ∈ Region lo hi, g.isResolving r = false

namespace Confined

theorem empty (g : Graph) (lo : Nat) : g.Confined lo lo where
  closed _ hr := absurd hr.2.1 (Nat.not_le.2 hr.2.2)
  calm _ hr := absurd hr.2.1 (Nat.not_le.2 hr.2.2)

theorem leaves {kept : Nat → Prop} (h : g.Confined lo hi) (hhi : hi ≤ g.cells.size)
    (hg : Leaves kept g g') (hkept : ∀ n, lo ≤ n → n < hi → kept n) : g'.Confined lo hi where
  closed r hr name slot hslot := by
    rw [hg.own? (hr.2.2.trans_le hhi) (hkept _ hr.2.1 hr.2.2)] at hslot
    exact h.closed r hr name slot hslot
  calm r hr := by
    rw [isResolving, hg.cell? (hr.2.2.trans_le hhi) (hkept _ hr.2.1 hr.2.2)]
    exact h.calm r hr

theorem append (h : g.Confined lo mid) (h' : g.Confined mid hi) (hlo : lo ≤ mid) (hhi : mid ≤ hi) :
    g.Confined lo hi where
  closed r hr name slot hslot := by
    rcases Nat.lt_or_ge r.serial mid with hlt | hge
    · exact (h.closed r ⟨hr.1, hr.2.1, hlt⟩ name slot hslot).mono (region_subset (Nat.le_refl _) hhi)
    · exact (h'.closed r ⟨hr.1, hge, hr.2.2⟩ name slot hslot).mono (region_subset hlo (Nat.le_refl _))
  calm r hr := by
    rcases Nat.lt_or_ge r.serial mid with hlt | hge
    · exact h.calm r ⟨hr.1, hr.2.1, hlt⟩
    · exact h'.calm r ⟨hr.1, hge, hr.2.2⟩

theorem write (h : g.Confined lo hi) {name : String} {v : Value} (hv : v.Within (Region lo hi))
    (source : Source) : (g.write r name (some ⟨v, source⟩)).Confined lo hi where
  closed r' hr' name' slot hslot := by
    rcases g.own?_write_cases r name (some ⟨v, source⟩) r' name' with heq | ⟨-, -, heq⟩
    · rw [heq] at hslot
      exact h.closed r' hr' name' slot hslot
    · rw [heq] at hslot
      cases hslot
      exact hv
  calm r' hr' := by
    rw [isResolving, Graph.write, cell?_modify]
    have hcalm := h.calm r' hr'
    rw [isResolving] at hcalm
    split
    · cases hcell : g.cell? r' with
      | none => rfl
      | some cell =>
        rw [hcell] at hcalm
        exact hcalm
    · exact hcalm

end Confined

/-! ### Records in regions of their own -/

/-- Records one after the other, each of which lies in a region of its own. -/
inductive Laid (g : Graph) : Nat → List RecordRef → Nat → Prop
  | nil {lo : Nat} : Laid g lo [] lo
  | cons {lo mid hi : Nat} {r : RecordRef} {rest : List RecordRef} (mem : r ∈ Region lo mid)
    (confined : g.Confined lo mid) (tail : Laid g mid rest hi) : Laid g lo (r :: rest) hi

namespace Laid

theorem le (h : g.Laid lo rs hi) : lo ≤ hi := by
  induction h with
  | nil => exact Nat.le_refl _
  | cons hr _ _ ih => exact (hr.2.1.trans hr.2.2.le).trans ih

theorem confined (h : g.Laid lo rs hi) : g.Confined lo hi := by
  induction h with
  | nil => exact .empty g _
  | cons hr hconfined hrest ih => exact hconfined.append ih (hr.2.1.trans hr.2.2.le) hrest.le

theorem mem (h : g.Laid lo rs hi) (hr : r ∈ rs) : r ∈ Region lo hi := by
  induction h with
  | nil => cases hr
  | cons hfirst _ hrest ih =>
    rcases List.mem_cons.1 hr with rfl | hr
    · exact region_subset (Nat.le_refl _) hrest.le hfirst
    · exact region_subset (hfirst.2.1.trans hfirst.2.2.le) (Nat.le_refl _) (ih hr)

theorem leaves {kept : Nat → Prop} (h : g.Laid lo rs hi) (hhi : hi ≤ g.cells.size)
    (hg : Leaves kept g g') (hkept : ∀ n, lo ≤ n → n < hi → kept n) : g'.Laid lo rs hi := by
  induction h with
  | nil => exact .nil
  | @cons lo mid hi r rest hr hconfined hrest ih =>
    have hmid := hrest.le
    have hlo := hr.2.1.trans hr.2.2.le
    exact .cons hr (hconfined.leaves (hmid.trans hhi) hg fun n hn hn' => hkept n hn (hn'.trans_le hmid))
      (ih hhi fun n hn => hkept n (hlo.trans hn))

theorem append (h : g.Laid lo rs mid) (h' : g.Laid mid rs' hi) : g.Laid lo (rs ++ rs') hi := by
  induction h with
  | nil => exact h'
  | cons hr hconfined _ ih => exact .cons hr hconfined (ih h')

end Laid

/-- What may hold of records and of the region in which they were made, one after the other: changes
outside of the region keep it, and regions can be joined. -/
structure Additive (P : Graph → Nat → List RecordRef → Nat → Prop) : Prop where
  nil : ∀ g lo, P g lo [] lo
  append : ∀ {g : Graph} {lo mid hi : Nat} {rs rs' : List RecordRef}, P g lo rs mid →
    P g mid rs' hi → P g lo (rs ++ rs') hi
  leaves : ∀ {kept : Nat → Prop} {g g' : Graph} {lo hi : Nat} {rs : List RecordRef}, P g lo rs hi →
    hi ≤ g.cells.size → Leaves kept g g' → (∀ n, lo ≤ n → n < hi → kept n) → P g' lo rs hi

theorem laid_additive : Additive Laid where
  nil _ _ := .nil
  append := .append
  leaves := .leaves

/-- The records that a record holds under a name. -/
def held (g : Graph) (r : RecordRef) (name : String) : List RecordRef :=
  ((g.value? r name).map Value.records).getD []

theorem held_congr {name : String} (h : g'.own? r name = g.own? r name) :
    g'.held r name = g.held r name := by
  rw [held, held, value?_congr h]

theorem held_of_own? {name : String} {slot : Slot} (h : g.own? r name = some (some slot)) :
    g.held r name = slot.value.records := by
  simp [held, value?, h]

theorem mem_held {name : String} {r' : RecordRef} :
    r' ∈ g.held r name ↔ ∃ v, g.value? r name = some v ∧ r' ∈ v.records := by
  rw [held]
  cases g.value? r name <;> simp

theorem Sound.held {known : Set RecordRef} (h : g.Sound known) (hr : r ∈ known) {name : String}
    {r' : RecordRef} (hr' : r' ∈ g.held r name) : r' ∈ known := by
  obtain ⟨v, hv, hmem⟩ := mem_held.1 hr'
  exact h.value hr hv r' hmem

theorem Confined.held (h : g.Confined lo hi) (hr : r ∈ Region lo hi) {name : String} {r' : RecordRef}
    (hr' : r' ∈ g.held r name) : r' ∈ Region lo hi := by
  obtain ⟨v, hv, hmem⟩ := mem_held.1 hr'
  obtain ⟨source, hslot⟩ := value?_eq_some_iff.1 hv
  exact h.closed r hr name _ hslot r' hmem

/-- Regions of their own for some names do for more names under which nothing is held. -/
theorem Additive.extend {P : Graph → Nat → List RecordRef → Nat → Prop} (hP : Additive P)
    {names more : String → Prop} {bounds : String → Nat × Nat} (hle : lo ≤ hi)
    (hbounds : ∀ name, names name → lo ≤ (bounds name).1 ∧ (bounds name).2 ≤ hi ∧
      P g (bounds name).1 (g.held r name) (bounds name).2)
    (hapart : ∀ name name', names name → names name' → name ≠ name' →
      (bounds name).2 ≤ (bounds name').1 ∨ (bounds name').2 ≤ (bounds name).1)
    (hnothing : ∀ name, more name → ¬names name → g.held r name = []) :
    ∃ bounds' : String → Nat × Nat,
      (∀ name, more name → lo ≤ (bounds' name).1 ∧ (bounds' name).2 ≤ hi ∧
        P g (bounds' name).1 (g.held r name) (bounds' name).2) ∧
      ∀ name name', more name → more name' → name ≠ name' →
        (bounds' name).2 ≤ (bounds' name').1 ∨ (bounds' name').2 ≤ (bounds' name).1 := by
  classical
  -- The other names share the empty region at the end.
  refine ⟨fun name => if names name then bounds name else (hi, hi), fun name hmore => ?_,
    fun name name' _ _ hne => ?_⟩
  · by_cases hname : names name <;> simp only [hname, if_true, if_false]
    · exact hbounds name hname
    · rw [hnothing name hmore hname]
      exact ⟨hle, Nat.le_refl _, hP.nil g hi⟩
  · by_cases hname : names name <;> by_cases hname' : names name' <;>
      simp only [hname, hname', if_true, if_false]
    · exact hapart name name' hname hname' hne
    · exact .inl (hbounds name hname).2.1
    · exact .inr (hbounds name' hname').2.1
    · exact .inl (Nat.le_refl _)

/-- What a record holds under some names lies in regions between two bounds, one for each name. -/
def Parted (g : Graph) (r : RecordRef) (names : String → Prop) (lo hi : Nat) : Prop :=
  ∃ bounds : String → Nat × Nat,
    (∀ name, names name → lo ≤ (bounds name).1 ∧ (bounds name).2 ≤ hi ∧
      g.Laid (bounds name).1 (g.held r name) (bounds name).2) ∧
    ∀ name name', names name → names name' → name ≠ name' →
      (bounds name).2 ≤ (bounds name').1 ∨ (bounds name').2 ≤ (bounds name).1

end Graph

/-! ### Decoding -/

namespace Record

open TypedRecords.Graph (Confined Laid Parted)

variable {d : Directory} {registry : RegistryRef} {source : Source} {g g' : Graph} {r : RecordRef}
  {lo : Nat}

theorem decodeAttributes_confined_of {fields : Object}
    (ih : ∀ entry ∈ fields, ∀ g v g', decode d registry source entry.2 g = (.ok v, g') →
      g'.Laid g.cells.size v.records g'.cells.size)
    (hr : r ∈ Region lo g.cells.size) (hg : g.Confined lo g.cells.size)
    (h : decodeAttributes d registry source r fields g = (.ok (), g')) :
    g'.Confined lo g'.cells.size := by
  induction fields generalizing g with
  | nil =>
    cases h
    exact hg
  | cons entry rest ihRest =>
    obtain ⟨name, t⟩ := entry
    obtain ⟨ht, hrest⟩ := List.forall_mem_cons.1 ih
    by_cases htag : name = Tree.classTag ∨ name = Tree.newTag
    · rw [decodeAttributes_tag htag] at h
      exact ihRest hrest hr hg h
    · obtain ⟨hclass, hnew⟩ := not_or.1 htag
      obtain ⟨a, v, g₁, -, hv, -, hlater⟩ := decodeAttributes_cons_eq_ok hclass hnew h
      have hlaid := ht g v g₁ hv
      have hlo := hr.2.1.trans hr.2.2.le
      have hleaves := decode_leaves hv
      have hall : g₁.Confined lo g₁.cells.size :=
        (hg.leaves (Nat.le_refl _) hleaves fun _ _ _ => trivial).append hlaid.confined hlo hlaid.le
      have hwithin : v.Within (Region lo g₁.cells.size) := fun r' hr' =>
        Graph.region_subset hlo (Nat.le_refl _) (hlaid.mem hr')
      have hsize : (g₁.write r name (some ⟨v, source⟩)).cells.size = g₁.cells.size :=
        Graph.size_modify _ _ _
      refine ihRest hrest ?_ ?_ hlater
      · exact hsize ▸ Graph.region_subset (Nat.le_refl _) hleaves.size hr
      · exact hsize ▸ hall.write hwithin source

/-- A new record has a region for itself. -/
theorem instantiate_confined (g : Graph) (c : ClassRef) (isNew : Bool) :
    (g.instantiate c isNew).1 ∈ Region g.cells.size (g.instantiate c isNew).2.cells.size ∧
      (g.instantiate c isNew).2.Confined g.cells.size (g.instantiate c isNew).2.cells.size := by
  have hsize : (g.instantiate c isNew).2.cells.size = g.cells.size + 1 := Array.size_push _
  have hcell : ∀ r ∈ Region g.cells.size (g.instantiate c isNew).2.cells.size,
      (g.instantiate c isNew).2.cell? r = some { isNew } := by
    rintro r ⟨-, hge, hlt⟩
    rw [hsize] at hlt
    have heq : r.serial = (g.instantiate c isNew).1.serial :=
      Nat.le_antisymm (Nat.le_of_lt_succ hlt) hge
    rw [Graph.cell?, heq]
    exact g.cell?_instantiate_self c isNew
  refine ⟨⟨rfl, Nat.le_refl _, hsize ▸ Nat.lt_succ_self _⟩, fun r hr name slot hslot => ?_,
    fun r hr => ?_⟩
  · rw [Graph.own?, hcell r hr] at hslot
    cases hslot
  · rw [Graph.isResolving, hcell r hr]
    rfl

section

variable {P : Graph → Nat → List RecordRef → Nat → Prop} (hP : Graph.Additive P)

include hP

/-- The records that the items of an array are decoded to are made one after the other. -/
theorem decodeItems_additive {items vs : List Value}
    (ih : ∀ t ∈ items, ∀ g v g', decode d registry source t g = (.ok v, g') →
      P g' g.cells.size v.records g'.cells.size)
    (h : decodeItems d registry source items g = (.ok vs, g')) :
    P g' g.cells.size (Value.recordsOfItems vs) g'.cells.size := by
  induction items generalizing g vs with
  | nil =>
    cases h
    exact hP.nil _ _
  | cons t rest ihRest =>
    obtain ⟨ht, hrest⟩ := List.forall_mem_cons.1 ih
    obtain ⟨v, g₁, hv, hlater⟩ := Stateful.bind_eq_ok h
    obtain ⟨vs', g₂, hvs', hpure⟩ := Stateful.bind_eq_ok hlater
    cases hpure
    exact hP.append (hP.leaves (ht _ _ _ hv) (Nat.le_refl _) (decodeItems_eq_ok hvs').2
      fun _ _ _ => trivial) (ihRest hrest hvs')

theorem decodeFields_additive {fields vs : Object}
    (ih : ∀ entry ∈ fields, ∀ g v g', decode d registry source entry.2 g = (.ok v, g') →
      P g' g.cells.size v.records g'.cells.size)
    (h : decodeFields d registry source fields g = (.ok vs, g')) :
    P g' g.cells.size (Value.recordsOfFields vs) g'.cells.size := by
  induction fields generalizing g vs with
  | nil =>
    cases h
    exact hP.nil _ _
  | cons entry rest ihRest =>
    obtain ⟨ht, hrest⟩ := List.forall_mem_cons.1 ih
    obtain ⟨v, g₁, hv, hlater⟩ := Stateful.bind_eq_ok h
    obtain ⟨vs', g₂, hvs', hpure⟩ := Stateful.bind_eq_ok hlater
    cases hpure
    exact hP.append (hP.leaves (ht _ _ _ hv) (Nat.le_refl _) (decodeFields_eq_ok hvs').2
      fun _ _ _ => trivial) (ihRest hrest hvs')

end

/-- The records that a tree without records is decoded to lie in new regions. -/
theorem decode_laid {t v : Value} (ht : t.Within ∅)
    (h : decode d registry source t g = (.ok v, g')) :
    g'.Laid g.cells.size v.records g'.cells.size := by
  induction t using Value.induction generalizing g v g' with
  | array items ih =>
    obtain ⟨vs, g₁, hvs, hpure⟩ := Stateful.bind_eq_ok h
    cases hpure
    exact decodeItems_additive Graph.laid_additive
      (fun t hmem _ _ _ => ih t hmem (Value.within_array.1 ht t hmem)) hvs
  | object fields ih =>
    have hfields : ∀ entry ∈ fields, ∀ g v g', decode d registry source entry.2 g = (.ok v, g') →
        g'.Laid g.cells.size v.records g'.cells.size :=
      fun entry hentry _ _ _ => ih entry hentry (Value.within_object.1 ht entry hentry)
    cases htag : Fields.get? Tree.classTag fields with
    | none =>
      obtain ⟨vs, rfl, hvs⟩ := decode_untagged_eq_ok htag h
      exact decodeFields_additive Graph.laid_additive hfields hvs
    | some tag =>
      rcases decode_tagged_eq_ok htag h with ⟨c, _, _, -, -, -, rfl, rfl⟩ |
        ⟨c, name, -, -, -, rfl, hattributes⟩
      · exact .nil
      · obtain ⟨hr, hnew⟩ := instantiate_confined g c (Tree.isMarkedNew fields)
        have hleaves := (@keeps_decodeAttributes _ _ _ (· ≠ g.cells.size) _ _
          (.inr fun hne => hne rfl) fields).of_run (.refl _ _) hattributes
        exact .cons (Graph.region_subset (Nat.le_refl _) hleaves.size hr)
          (decodeAttributes_confined_of hfields hr hnew hattributes) .nil
  | other t harray hobject =>
    have hsame : (v, g') = (t, g) := by
      cases t with
      | array items => cases harray
      | object fields => cases hobject
      | _ => cases h; rfl
    obtain ⟨rfl, rfl⟩ := Prod.mk.inj hsame
    rw [List.eq_nil_iff_forall_not_mem.2 ht]
    exact .nil

/-- What holds of the records that each field of a tree is decoded to, and of the new region in which
they lie, holds of what is held afterwards, and the regions are apart. -/
theorem decodeAttributes_parted_of {P : Graph → Nat → List RecordRef → Nat → Prop}
    (hP : Graph.Additive P) {fields : Object} (hdistinct : Fields.Distinct fields)
    (hnew : ∀ entry ∈ fields, entry.1 ≠ Tree.newTag)
    (hfields : ∀ entry ∈ fields, ∀ g v g', decode d registry source entry.2 g = (.ok v, g') →
      P g' g.cells.size v.records g'.cells.size)
    {cell : Cell} (hcell : g.cell? r = some cell)
    (h : decodeAttributes d registry source r fields g = (.ok (), g')) :
    ∃ bounds : String → Nat × Nat,
      (∀ name, name ∈ Fields.keys fields ∧ name ≠ Tree.classTag →
        g.cells.size ≤ (bounds name).1 ∧ (bounds name).2 ≤ g'.cells.size ∧
          P g' (bounds name).1 (g'.held r name) (bounds name).2) ∧
      ∀ name name', name ∈ Fields.keys fields ∧ name ≠ Tree.classTag →
        name' ∈ Fields.keys fields ∧ name' ≠ Tree.classTag → name ≠ name' →
        (bounds name).2 ≤ (bounds name').1 ∨ (bounds name').2 ≤ (bounds name).1 := by
  induction fields generalizing g cell with
  | nil => exact ⟨fun _ => (0, 0), by simp [Fields.keys], by simp [Fields.keys]⟩
  | cons entry rest ih =>
    obtain ⟨name, t⟩ := entry
    obtain ⟨hname, hdistinctRest⟩ := Fields.distinct_cons.1 hdistinct
    obtain ⟨hnewName, hnewRest⟩ := List.forall_mem_cons.1 hnew
    obtain ⟨ht, hrest⟩ := List.forall_mem_cons.1 hfields
    have hlisted : ∀ other, other ∈ Fields.keys ((name, t) :: rest) →
        other = name ∨ other ∈ Fields.keys rest := fun other hmem => List.mem_cons.1 hmem
    by_cases hclass : name = Tree.classTag
    · rw [decodeAttributes_tag (.inl hclass)] at h
      obtain ⟨bounds, hbounds, hapart⟩ := ih hdistinctRest hnewRest hrest hcell h
      have hlater : ∀ other, other ∈ Fields.keys ((name, t) :: rest) ∧ other ≠ Tree.classTag →
          other ∈ Fields.keys rest ∧ other ≠ Tree.classTag := by
        rintro other ⟨hmem, hne⟩
        exact ⟨(hlisted other hmem).resolve_left fun heq => hne (heq.trans hclass), hne⟩
      exact ⟨bounds, fun other hother => hbounds other (hlater other hother),
        fun other other' hother hother' => hapart other other' (hlater other hother)
          (hlater other' hother')⟩
    · obtain ⟨v, g₁, g₂, cell', hv, hsize₂, hcell₂, hlater, hleaves, hown⟩ :=
        decodeAttributes_first hname hdistinctRest hclass hnewName hnewRest hcell h
      have hlt := Graph.lt_of_cell? hcell
      have hsize₁ := (decode_leaves hv).size
      obtain ⟨bounds, hbounds, hapart⟩ := ih hdistinctRest hnewRest hrest hcell₂ hlater
      rw [hsize₂] at hbounds
      -- Neither the assignment nor the fields after it reach the region of this field.
      have hlaid : P g' g.cells.size v.records g₁.cells.size :=
        hP.leaves (ht g v g₁ hv) (Nat.le_refl _) hleaves fun n hn _ => by omega
      have hheld : g'.held r name = v.records := Graph.held_of_own? hown
      refine ⟨fun other => if other = name then (g.cells.size, g₁.cells.size) else bounds other,
        ?_, ?_⟩
      · rintro other ⟨hmem, hne⟩
        by_cases hother : other = name
        · subst hother
          simp only [if_true, hheld]
          exact ⟨Nat.le_refl _, hleaves.size, hlaid⟩
        · obtain ⟨hlo, hhi, hlaid'⟩ := hbounds other ⟨(hlisted other hmem).resolve_left hother, hne⟩
          simp only [hother, if_false]
          exact ⟨hsize₁.trans hlo, hhi, hlaid'⟩
      -- The first field was decoded before the others.
      · have hbefore : ∀ other, other ∈ Fields.keys ((name, t) :: rest) ∧ other ≠ Tree.classTag →
            other ≠ name → g₁.cells.size ≤ (bounds other).1 := by
          rintro other ⟨hmem, hne⟩ hother
          exact (hbounds other ⟨(hlisted other hmem).resolve_left hother, hne⟩).1
        intro other other' hother hother' hdiffer
        by_cases heq : other = name
        · subst heq
          simp only [if_true, Ne.symm hdiffer, if_false]
          exact .inl (hbefore other' hother' (Ne.symm hdiffer))
        · by_cases heq' : other' = name
          · subst heq'
            simp only [if_true, hdiffer, if_false]
            exact .inr (hbefore other hother hdiffer)
          · simp only [heq, heq', if_false]
            exact hapart other other' ⟨(hlisted other hother.1).resolve_left heq, hother.2⟩
              ⟨(hlisted other' hother'.1).resolve_left heq', hother'.2⟩ hdiffer

/-- The records that the fields of a tree are decoded to lie in new regions, one for each field. -/
theorem decodeAttributes_parted {fields : Object} (hdistinct : Fields.Distinct fields)
    (hnew : ∀ entry ∈ fields, entry.1 ≠ Tree.newTag) (hfields : ∀ entry ∈ fields, entry.2.Within ∅)
    {cell : Cell} (hcell : g.cell? r = some cell)
    (h : decodeAttributes d registry source r fields g = (.ok (), g')) :
    g'.Parted r (fun name => name ∈ Fields.keys fields ∧ name ≠ Tree.classTag) g.cells.size
      g'.cells.size :=
  decodeAttributes_parted_of Graph.laid_additive hdistinct hnew
    (fun entry hentry _ _ _ hv => decode_laid (hfields entry hentry) hv) hcell h

end Record

/-! ### What happens within a region -/

/-- A graph in which something was done with the records of a region, and with new ones. -/
structure Graph.Beside (lo hi : Nat) (g₀ : Graph) (known : Set RecordRef) (g : Graph) : Prop where
  kept : Leaves (fun n => ¬(lo ≤ n ∧ n < hi)) g₀ g
  inside : ∀ r ∈ known, r.base? = none ∧
    (lo ≤ r.serial ∧ r.serial < hi ∨ g₀.cells.size ≤ r.serial)
  closed : ∀ r ∈ known, ∀ name slot, g.own? r name = some (some slot) → slot.value.Within known

namespace Graph.Beside

variable {g₀ g : Graph} {lo hi : Nat} {known : Set RecordRef}

theorem start (h : g.Confined lo hi) : Beside lo hi g (Region lo hi) g where
  kept := .refl _ g
  inside _ hr := ⟨hr.1, .inl hr.2⟩
  closed := h.closed

theorem of_own?_eq {g' : Graph} (h : Beside lo hi g₀ known g)
    (hkept : Leaves (fun n => ¬(lo ≤ n ∧ n < hi)) g₀ g')
    (hown : ∀ r name, g'.own? r name = g.own? r name) : Beside lo hi g₀ known g' where
  kept := hkept
  inside := h.inside
  closed r hr name slot hslot := h.closed r hr name slot ((hown r name).symm.trans hslot)

/-- The cell of a known record may be changed. -/
theorem leaves_modify (h : Beside lo hi g₀ known g) {r : RecordRef} (hr : r ∈ known)
    (f : Cell → Cell) : Leaves (fun n => ¬(lo ≤ n ∧ n < hi)) g₀ (g.modify r f) := by
  refine h.kept.modify ?_ f
  rcases (h.inside r hr).2 with hinside | hnew
  · exact .inr fun hne => hne hinside
  · exact .inl hnew

theorem write (h : Beside lo hi g₀ known g) {r : RecordRef} (hr : r ∈ known) (name : String)
    {slot : Option Slot} (hslot : ∀ s, slot = some s → s.value.Within known) :
    Beside lo hi g₀ known (g.write r name slot) where
  kept := h.leaves_modify hr _
  inside := h.inside
  closed r' hr' name' s hs := by
    rcases g.own?_write_cases r name slot r' name' with heq | ⟨-, -, heq⟩
    · exact h.closed r' hr' name' s (heq.symm.trans hs)
    · exact hslot s (Option.some.inj (heq.symm.trans hs))

end Graph.Beside

/-- Nothing that is done with the records of a region changes a cell outside of it. -/
theorem Graph.beside_allowsWriting (d : Directory) (lo hi : Nat) (g₀ : Graph) :
    AllowsWriting d (fun _ _ _ => True) (fun _ => True) (Beside lo hi g₀) where
  slot known r name g hr hg := by
    have hmade := (hg.inside r hr).1
    cases r with
    | made serial c =>
      refine ⟨known, subset_rfl, hg, fun slot hslot => hg.closed _ hr name slot ?_⟩
      exact Option.join_eq_some_iff.1 hslot
    | fork serial c base => cases hmade
  resolving known r b g hr hg :=
    hg.of_own?_eq (hg.leaves_modify hr _) fun other name => own?_markResolving g r b other name
  accepted _ _ _ _ _ _ := trivial
  present _ _ _ _ _ _ _ _ := trivial
  write known r name v source g hr _ hv hg := by
    refine hg.write hr name fun s hs => ?_
    cases hs
    exact hv
  unset known r name g hr hg := hg.write hr name fun s hs => by cases hs
  mark known r b g hr hg :=
    hg.of_own?_eq (hg.leaves_modify hr _) fun other name => own?_mark g r b other name
  instantiate known c isNew g _ hg := by
    refine ⟨hg.kept.instantiate c isNew, ?_, ?_⟩
    · rintro r (rfl | hr)
      · exact ⟨rfl, .inr hg.kept.size⟩
      · exact hg.inside r hr
    · intro r hr name slot hslot
      have hbefore : g.own? r name = some (some slot) := (own?_push g isNew r name).symm.trans hslot
      rcases hr with rfl | hr
      · have hnone : g.cell? (g.instantiate c isNew).1 = none := by
          simp [cell?, Graph.instantiate, RecordRef.serial]
        rw [own?_eq_none_of_cell? hnone] at hbefore
        cases hbefore
      · exact (hg.closed r hr name slot hbefore).mono (Set.subset_insert _ _)
  given known n g hg := hg.of_own?_eq ⟨hg.kept.size, hg.kept.cells⟩ fun _ _ => rfl

end TypedRecords
