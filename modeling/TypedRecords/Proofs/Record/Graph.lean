import TypedRecords.Record.Graph
import TypedRecords.Proofs.Fields

/-! # Laws of the graph

What the cells of records hold after each change of the graph.
-/

namespace TypedRecords.Graph

variable {g : Graph} {r other : RecordRef} {name : String}

/-! ### Cells -/

theorem cell?_modify (g : Graph) (r other : RecordRef) (f : Cell → Cell) :
    (g.modify r f).cell? other =
      if r.serial = other.serial then (g.cell? other).map f else g.cell? other := by
  simp [modify, cell?, Array.getElem?_modify]

theorem cell?_modify_of_ne {f : Cell → Cell} (h : other.serial ≠ r.serial) :
    (g.modify r f).cell? other = g.cell? other := by
  rw [cell?_modify, if_neg (Ne.symm h)]

theorem own?_eq_none_of_cell? (h : g.cell? r = none) (name : String) : g.own? r name = none := by
  simp [own?, h]

theorem own?_of_serial_eq (h : r.serial = other.serial) (name : String) :
    g.own? r name = g.own? other name := by
  rw [own?, own?, cell?, cell?, h]

/-- The value of an attribute that a record has itself. -/
def value? (g : Graph) (r : RecordRef) (name : String) : Option Value :=
  (g.own? r name).join.map Slot.value

theorem value?_eq_some_iff {v : Value} :
    g.value? r name = some v ↔ ∃ source, g.own? r name = some (some ⟨v, source⟩) := by
  unfold value?
  constructor
  · intro h
    obtain ⟨slot, hslot, rfl⟩ := Option.map_eq_some_iff.1 h
    exact ⟨slot.source, Option.join_eq_some_iff.1 hslot⟩
  · rintro ⟨source, h⟩
    rw [h]
    rfl

theorem value?_congr {g' : Graph} (h : g'.own? r name = g.own? r name) :
    g'.value? r name = g.value? r name := by
  rw [value?, value?, h]

theorem own?_modify {f : Cell → Cell} (hf : ∀ cell, (f cell).slots = cell.slots) (g : Graph)
    (r other : RecordRef) (name : String) :
    (g.modify r f).own? other name = g.own? other name := by
  rw [own?, own?, cell?_modify]
  split
  · cases g.cell? other with
    | none => rfl
    | some cell => simp [hf]
  · rfl

theorem own?_markResolving (g : Graph) (r : RecordRef) (b : Bool) (other : RecordRef)
    (name : String) : (g.markResolving r b).own? other name = g.own? other name :=
  own?_modify (f := fun cell => { cell with resolving := b }) (fun _ => rfl) g r other name

theorem own?_mark (g : Graph) (r : RecordRef) (b : Bool) (other : RecordRef) (name : String) :
    (g.mark r b).own? other name = g.own? other name :=
  own?_modify (f := fun cell => { cell with isNew := b }) (fun _ => rfl) g r other name

theorem modify_modify (g : Graph) (r : RecordRef) (f f' : Cell → Cell) :
    (g.modify r f).modify r f' = g.modify r (f' ∘ f) := by
  simp only [modify]
  congr 1
  refine Array.ext_getElem? fun n => ?_
  simp only [Array.getElem?_modify]
  split
  · rw [Option.map_map]
  · rfl

theorem modify_of_fixed {f : Cell → Cell} (h : ∀ cell, g.cell? r = some cell → f cell = cell) :
    g.modify r f = g := by
  suffices hcells : g.cells.modify r.serial f = g.cells by rw [modify, hcells]
  refine Array.ext_getElem? fun n => ?_
  rw [Array.getElem?_modify]
  split
  · next heq =>
    subst heq
    cases hcell : g.cells[r.serial]? with
    | none => rfl
    | some cell => rw [Option.map_some, h cell hcell]
  · rfl

/-- A record that is not being resolved is as it was once it has been. -/
theorem markResolving_markResolving (h : g.isResolving r = false) :
    (g.markResolving r true).markResolving r false = g := by
  rw [markResolving, markResolving, modify_modify]
  refine modify_of_fixed fun cell hcell => ?_
  have hresolving : cell.resolving = false := by
    rw [isResolving, hcell] at h
    exact h
  show { cell with resolving := false } = cell
  rw [← hresolving]

/-! ### Writing -/

theorem own?_write_self {cell : Cell} (h : g.cell? r = some cell) (name : String)
    (slot : Option Slot) : (g.write r name slot).own? r name = some slot := by
  simp [own?, write, cell?_modify, h]

theorem own?_write_of_serial_ne (h : other.serial ≠ r.serial) (name : String)
    (slot : Option Slot) (name' : String) :
    (g.write r name slot).own? other name' = g.own? other name' := by
  rw [own?, own?, write, cell?_modify_of_ne h]

theorem own?_write_of_name_ne {name' : String} (h : name' ≠ name) (g : Graph)
    (r other : RecordRef) (slot : Option Slot) :
    (g.write r name slot).own? other name' = g.own? other name' := by
  rw [own?, own?, write, cell?_modify]
  split
  · cases g.cell? other with
    | none => rfl
    | some cell => simp [Fields.get?_insert_of_ne h]
  · rfl

theorem own?_write_cases (g : Graph) (r : RecordRef) (name : String) (slot : Option Slot)
    (other : RecordRef) (name' : String) :
    (g.write r name slot).own? other name' = g.own? other name' ∨
      other.serial = r.serial ∧ name' = name ∧
        (g.write r name slot).own? other name' = some slot := by
  by_cases hname : name' = name
  · by_cases hserial : other.serial = r.serial
    · subst hname
      cases hcell : g.cell? other with
      | none =>
        refine .inl ?_
        rw [own?, own?, write, cell?_modify, hcell]
        simp
      | some cell =>
        refine .inr ⟨hserial, rfl, ?_⟩
        simp [own?, write, cell?_modify, hserial, hcell]
    · exact .inl (own?_write_of_serial_ne hserial name slot name')
  · exact .inl (own?_write_of_name_ne hname g r other slot)

theorem cell?_write_self {cell : Cell} (h : g.cell? r = some cell) (name : String)
    (slot : Option Slot) :
    (g.write r name slot).cell? r =
      some { cell with slots := Fields.insert name slot cell.slots } := by
  simp [write, cell?_modify, h]

theorem size_modify (g : Graph) (r : RecordRef) (f : Cell → Cell) :
    (g.modify r f).cells.size = g.cells.size := by
  simp [modify]

theorem lt_of_cell? {cell : Cell} (h : g.cell? r = some cell) : r.serial < g.cells.size :=
  (Array.getElem?_eq_some_iff.1 h).1

/-! ### Newness -/

theorem isNew_write (g : Graph) (r : RecordRef) (name : String) (slot : Option Slot)
    (q : RecordRef) : (g.write r name slot).isNew q = g.isNew q := by
  simp only [isNew, write, cell?_modify]
  split
  · cases g.cell? q <;> rfl
  · rfl

theorem isNew_markResolving (g : Graph) (r : RecordRef) (b : Bool) (q : RecordRef) :
    (g.markResolving r b).isNew q = g.isNew q := by
  simp only [isNew, markResolving, cell?_modify]
  split
  · cases g.cell? q <;> rfl
  · rfl

theorem isNew_mark (g : Graph) (r : RecordRef) (b : Bool) (q : RecordRef) :
    (g.mark r b).isNew q = if r.serial = q.serial then (g.cell? q).isSome && b else g.isNew q := by
  simp only [isNew, mark, cell?_modify]
  split
  · cases g.cell? q <;> simp
  · rfl

/-! ### Making records -/

/-- A cell without slots says nothing that no cell would not say. -/
theorem own?_push (g : Graph) (isNew : Bool) (r : RecordRef) (name : String) :
    { g with cells := g.cells.push { isNew } }.own? r name = g.own? r name := by
  simp only [own?, cell?, Array.getElem?_push]
  split
  · next h =>
    have hnone : g.cells[r.serial]? = none := by
      rw [Array.getElem?_eq_none_iff]
      omega
    rw [hnone]
    rfl
  · rfl

theorem own?_fork (g : Graph) (c : ClassRef) (base : RecordRef) (r : RecordRef) (name : String) :
    (g.fork c base).2.own? r name = g.own? r name :=
  own?_push g _ r name

theorem cell?_instantiate_self (g : Graph) (c : ClassRef) (isNew : Bool) :
    (g.instantiate c isNew).2.cell? (g.instantiate c isNew).1 = some { isNew } := by
  simp [instantiate, cell?, RecordRef.serial]

theorem own?_instantiate_self (g : Graph) (c : ClassRef) (isNew : Bool) (name : String) :
    (g.instantiate c isNew).2.own? (.made g.cells.size c) name = none := by
  have hcell : (g.instantiate c isNew).2.cell? (.made g.cells.size c) = some { isNew } :=
    g.cell?_instantiate_self c isNew
  rw [own?, hcell]
  rfl

/-! ### Growth -/

/-- The graph may have grown, but some of its cells are as they were. -/
structure Leaves (kept : Nat → Prop) (g g' : Graph) : Prop where
  size : g.cells.size ≤ g'.cells.size
  cells : ∀ n < g.cells.size, kept n → g'.cells[n]? = g.cells[n]?

namespace Leaves

variable {kept : Nat → Prop} {g₁ g₂ g₃ : Graph}

theorem refl (kept : Nat → Prop) (g : Graph) : Leaves kept g g :=
  ⟨Nat.le_refl _, fun _ _ _ => rfl⟩

theorem trans (h : Leaves kept g₁ g₂) (h' : Leaves kept g₂ g₃) : Leaves kept g₁ g₃ := by
  refine ⟨Nat.le_trans h.size h'.size, ?_⟩
  intro n hn hkept
  have hn₂ : n < g₂.cells.size := by
    have hsize := h.size
    omega
  rw [h'.cells n hn₂ hkept, h.cells n hn hkept]

theorem imp {kept' : Nat → Prop} (h : Leaves kept g₁ g₂) (hkept : ∀ n, kept' n → kept n) :
    Leaves kept' g₁ g₂ :=
  ⟨h.size, fun n hn hn' => h.cells n hn (hkept n hn')⟩

theorem cell? (h : Leaves kept g₁ g₂) (hr : r.serial < g₁.cells.size) (hkept : kept r.serial) :
    g₂.cell? r = g₁.cell? r :=
  h.cells r.serial hr hkept

theorem own? (h : Leaves kept g₁ g₂) (hr : r.serial < g₁.cells.size) (hkept : kept r.serial)
    (name : String) : g₂.own? r name = g₁.own? r name := by
  rw [Graph.own?, Graph.own?, h.cell? hr hkept]

/-- A new cell, or a change of one that need not be kept. -/
theorem modify (h : Leaves kept g₁ g₂) (hr : g₁.cells.size ≤ r.serial ∨ ¬kept r.serial)
    (f : Cell → Cell) : Leaves kept g₁ (g₂.modify r f) := by
  refine ⟨by rw [size_modify]; exact h.size, ?_⟩
  intro n hn hkept
  have hne : r.serial ≠ n := by
    rintro rfl
    rcases hr with hr | hr
    · omega
    · exact hr hkept
  rw [← h.cells n hn hkept]
  simp [Graph.modify, Array.getElem?_modify, hne]

theorem push (h : Leaves kept g₁ g₂) (isNew : Bool) :
    Leaves kept g₁ { g₂ with cells := g₂.cells.push { isNew } } := by
  have hsize := h.size
  refine ⟨by simp; omega, ?_⟩
  intro n hn hkept
  have hn₂ : n < g₂.cells.size := by omega
  rw [← h.cells n hn hkept]
  simp [Array.getElem?_push, Nat.ne_of_lt hn₂]

theorem instantiate (h : Leaves kept g₁ g₂) (c : ClassRef) (isNew : Bool) :
    Leaves kept g₁ (g₂.instantiate c isNew).2 :=
  h.push isNew

theorem fork (h : Leaves kept g₁ g₂) (c : ClassRef) (base : RecordRef) :
    Leaves kept g₁ (g₂.fork c base).2 :=
  h.push _

end Leaves

end TypedRecords.Graph
