import TypedRecords.Proofs.Tree.Decode

/-! # Records that are created

A record is created in a cell of its own, where it is new, and no other record changes.
-/

namespace TypedRecords.Record

open TypedRecords.Graph (Leaves)
open Stateful (Keeps)

variable {d : Directory} {c : ClassRef} {r : RecordRef} {values : Object} {g g' : Graph}

/-- What writing to a record keeps, and handing out identifiers, filling in its attributes keeps. -/
theorem keeps_fillIn {I : Graph → Prop} (hwrite : ∀ g name slot, I g → I (g.write r name slot))
    (hgiven : ∀ g n, I g → I { g with given := n }) (values : Object) (a : Attribute) :
    Keeps I (fillIn d r values a) fun _ => True := by
  have hset : ∀ v, Keeps I (set d r a.name v) fun _ => True := by
    intro v
    have hcheck : ∀ w, Keeps I (check d r a.name w) fun _ => True := fun w =>
      (keeps_ofExcept _).bind fun _ _ => (keeps_ofExcept _).imp fun _ _ => trivial
    exact (keeps_ofExcept _).bind fun _ _ => (hcheck _).bind fun _ _ g hg =>
      ⟨hwrite g a.name _ hg, fun _ _ => trivial⟩
  unfold fillIn
  split
  · exact hset _
  · next initial _ _ =>
    have hinitial : Keeps I (initialValue initial) fun _ => True := by
      cases initial with
      | value v => exact .pure trivial
      | supplied v => exact .pure trivial
      | freshIdentifier => exact fun g hg => ⟨hgiven g _ hg, fun _ _ => trivial⟩
    exact hinitial.bind fun v _ => hset v
  · exact fun g hg => ⟨hwrite g a.name _ hg, fun _ _ => trivial⟩

theorem create_eq_ok (h : create d c values g = (.ok r, g')) :
    r = .made g.cells.size c ∧ Leaves (fun _ => True) g g' ∧ g'.isNew r = true := by
  obtain ⟨_, _, hmade, hrest⟩ := Stateful.bind_eq_ok h
  cases hmade
  let I : Graph → Prop := fun g' =>
    Leaves (fun _ => True) g g' ∧ g'.isNew (.made g.cells.size c) = true
  have hstart : I (g.instantiate c true).2 := by
    refine ⟨(Leaves.refl _ g).instantiate c true, ?_⟩
    simp [Graph.isNew, Graph.cell?, Graph.instantiate, RecordRef.serial]
  have hfill : ∀ a, Keeps I (fillIn d (.made g.cells.size c) values a) fun _ => True :=
    keeps_fillIn (fun g' name slot hg' => ⟨hg'.1.modify (.inl (Nat.le_refl _)) _,
      (Graph.isNew_write _ _ _ _ _).trans hg'.2⟩) (fun g' n hg' => ⟨⟨hg'.1.size, hg'.1.cells⟩, hg'.2⟩) values
  have hkeeps : Keeps I (do
      (Fields.keys values).forM fun name => do
        let _ ← ofExcept (d.attributeNamed c name)
        pure ()
      (d.attributes c).forM (fillIn d (.made g.cells.size c) values)
      pure (RecordRef.made g.cells.size c)) fun r => r = .made g.cells.size c :=
    (Keeps.forM fun name _ => (keeps_ofExcept _).bind fun _ _ => .pure trivial).bind fun _ _ =>
      (Keeps.forM fun a _ => hfill a).bind fun _ _ => .pure rfl
  obtain rfl := hkeeps.of_ok hstart hrest
  exact ⟨rfl, hkeeps.of_run hstart hrest⟩

end TypedRecords.Record
