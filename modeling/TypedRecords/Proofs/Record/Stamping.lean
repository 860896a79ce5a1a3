import TypedRecords.Proofs.Record.Selected

/-! # Restating where values came from

Restating the source of what a selector selects changes the sources of the attributes that are set and that
the selector keeps, at any depth through records stored within each other, and nothing else. It comes to an
end where no record is held within itself.
-/

namespace TypedRecords

namespace Graph

variable {d : Directory} {source : Source} {known : Set RecordRef} {g₀ g g₁ g₂ g₃ : Graph}
  {r q : RecordRef} {name : String}

/-! ### Slots that are given a source -/

/-- The known records are as they were, but that the given slots have got a source. -/
structure Restamps (source : Source) (known : Set RecordRef) (T : RecordRef → String → Prop)
    (g g' : Graph) : Prop where
  size : g'.cells.size = g.cells.size
  isNew : ∀ r, g'.isNew r = g.isNew r
  stamped : ∀ r ∈ known, ∀ name, T r name →
    ∃ v, g.value? r name = some v ∧ g'.own? r name = some (some ⟨v, source⟩)
  others : ∀ r ∈ known, ∀ name, ¬T r name → g'.own? r name = g.own? r name

/-- The known records have the same values. -/
structure SameValues (known : Set RecordRef) (g g' : Graph) : Prop where
  size : g'.cells.size = g.cells.size
  value : ∀ r ∈ known, ∀ name, g'.value? r name = g.value? r name

theorem SameValues.trans (h : SameValues known g₁ g₂) (h' : SameValues known g₂ g₃) :
    SameValues known g₁ g₃ :=
  ⟨h'.size.trans h.size, fun r hr name => (h'.value r hr name).trans (h.value r hr name)⟩

namespace Restamps

variable {T T' : RecordRef → String → Prop}

theorem sameValues (h : Restamps source known T g₁ g₂) : SameValues known g₁ g₂ := by
  refine ⟨h.size, fun r hr name => ?_⟩
  by_cases hT : T r name
  · obtain ⟨v, hv, hslot⟩ := h.stamped r hr name hT
    rw [hv]
    exact value?_eq_some_iff.2 ⟨source, hslot⟩
  · exact value?_congr (h.others r hr name hT)

theorem congr (h : Restamps source known T g₁ g₂) (hT : ∀ r name, T r name ↔ T' r name) :
    Restamps source known T' g₁ g₂ :=
  (funext fun r => funext fun name => propext (hT r name) : T = T') ▸ h

theorem nothing (hT : ∀ r name, ¬T r name) (g : Graph) : Restamps source known T g g :=
  ⟨rfl, fun _ => rfl, fun r _ name h => absurd h (hT r name), fun _ _ _ _ => rfl⟩

theorem trans (h : Restamps source known T g₁ g₂) (h' : Restamps source known T' g₂ g₃) :
    Restamps source known (fun r name => T r name ∨ T' r name) g₁ g₃ where
  size := h'.size.trans h.size
  isNew r := (h'.isNew r).trans (h.isNew r)
  stamped r hr name hT := by
    by_cases hlast : T' r name
    · obtain ⟨v, hv, hslot⟩ := h'.stamped r hr name hlast
      exact ⟨v, (h.sameValues.value r hr name).symm.trans hv, hslot⟩
    · obtain ⟨v, hv, hslot⟩ := h.stamped r hr name (hT.resolve_right hlast)
      exact ⟨v, hv, (h'.others r hr name hlast).trans hslot⟩
  others r hr name hT :=
    (h'.others r hr name fun hlast => hT (.inr hlast)).trans
      (h.others r hr name fun hfirst => hT (.inl hfirst))

theorem write (hg : g.Sound known) (hr : r ∈ known) {v : Value} (hv : g.value? r name = some v)
    (source : Source) : Restamps source known (fun q name' => q = r ∧ name' = name) g
      (g.write r name (some ⟨v, source⟩)) where
  size := size_modify g r _
  isNew := isNew_write g r name _
  stamped := by
    rintro q - name' ⟨hq, hname⟩
    rw [hq, hname]
    obtain ⟨cell, hcell⟩ : ∃ cell, g.cell? r = some cell :=
      ⟨_, Array.getElem?_eq_getElem (hg.bounded r hr)⟩
    exact ⟨v, hv, own?_write_self hcell name _⟩
  others q hq name' hT := by
    rcases own?_write_cases g r name (some ⟨v, source⟩) q name' with hsame | ⟨hserial, rfl, -⟩
    · exact hsame
    · exact absurd ⟨hg.alone q hq r hr hserial, rfl⟩ hT

/-- What each step of going through a list restamps, going through it restamps. -/
theorem forM {α : Type} {f : α → Action Unit} {T : α → RecordRef → String → Prop} {items : List α}
    (hf : ∀ a ∈ items, ∀ g, SameValues known g₀ g →
      ∃ g', f a g = (.ok (), g') ∧ Restamps source known (T a) g g')
    (hg : SameValues known g₀ g) :
    ∃ g', (items.forM f : Action Unit) g = (.ok (), g') ∧
      Restamps source known (fun q name => ∃ a ∈ items, T a q name) g g' := by
  induction items generalizing g with
  | nil => exact ⟨g, rfl, .nothing (by simp) g⟩
  | cons a rest ih =>
    obtain ⟨hfirst, hrest⟩ := List.forall_mem_cons.1 hf
    obtain ⟨g₁, hrun, hstep⟩ := hfirst g hg
    obtain ⟨g₂, hlater, hsteps⟩ := ih hrest (hg.trans hstep.sameValues)
    refine ⟨g₂, ?_, (hstep.trans hsteps).congr (by simp)⟩
    rw [List.forM, Stateful.bind_of_ok hrun]
    exact hlater

end Restamps

/-! ### Attributes that are set below a record -/

/-- An attribute that is set, of a record at or below another one. The path to it is one of the given. -/
def SetBelow (d : Directory) (g : Graph) (r : RecordRef) (paths : List String → Prop) (q : RecordRef)
    (name : String) : Prop :=
  ∃ path, g.Below d r path q ∧ (∃ a ∈ d.attributes q.cls, a.name = name) ∧
    (∃ v, g.value? q name = some v) ∧ paths (path ++ [name])

/-- Of all paths those count that lead to attributes that are set. -/
theorem setBelow_congr {paths paths' : List String → Prop}
    (h : ∀ path q, g.Below d r path q → ∀ a ∈ d.attributes q.cls, ∀ v, g.value? q a.name = some v →
      (paths (path ++ [a.name]) ↔ paths' (path ++ [a.name]))) :
    g.SetBelow d r paths q name ↔ g.SetBelow d r paths' q name := by
  refine exists_congr fun path => and_congr_right fun hbelow => and_congr_right fun hdeclared =>
    and_congr_right fun hset => ?_
  obtain ⟨a, ha, rfl⟩ := hdeclared
  obtain ⟨v, hv⟩ := hset
  exact h path q hbelow a ha v hv

/-- What a selector keeps below a record, by the attributes of the record. -/
theorem setBelow_keeps_iff {s : Selector} : g.SetBelow d r s.Keeps q name ↔
    ∃ a ∈ d.attributes r.cls, s.Selects a.name ∧ ∃ v, g.value? r a.name = some v ∧
      ((∃ inner ∈ v.records, (d.definition inner.cls).referenceable = false ∧
        g.SetBelow d inner (s.get a.name).Keeps q name) ∨ q = r ∧ name = a.name) := by
  constructor
  · rintro ⟨path, hbelow, hdeclared, hset, hkeeps⟩
    cases hbelow with
    | self =>
      obtain ⟨a, ha, rfl⟩ := hdeclared
      obtain ⟨v, hv⟩ := hset
      exact ⟨a, ha, hkeeps, v, hv, .inr ⟨rfl, rfl⟩⟩
    | within declared holds mem embedded below =>
      exact ⟨_, declared, Selector.Keeps.isNone (s := s.get _) hkeeps, _, holds,
        .inl ⟨_, mem, embedded, _, below, hdeclared, hset, hkeeps⟩⟩
  · rintro ⟨a, ha, hselects, v, hv, ⟨inner, hinner, hembedded, path, hbelow, hdeclared, hset, hkeeps⟩ |
      ⟨rfl, rfl⟩⟩
    · exact ⟨a.name :: path, .within ha hv hinner hembedded hbelow, hdeclared, hset, hkeeps⟩
    · exact ⟨[], .self, ⟨a, ha, rfl⟩, ⟨v, hv⟩, hselects⟩

end Graph

open TypedRecords.Graph (Restamps SameValues)

namespace Record

variable {d : Directory} {source : Source} {known : Set RecordRef} {g₀ g : Graph} {r : RecordRef}
  {s t : Selector}

/-- Restating the source of an attribute, after what is done with the records that it holds. -/
theorem restamp_restamps {onRecord : RecordRef → Action Unit} {T : RecordRef → RecordRef → String → Prop}
    {name : String} (hg₀ : g₀.Hierarchy d known) (hr : r ∈ known)
    (hinner : ∀ v, g₀.value? r name = some v → ∀ inner ∈ v.records, ∀ g, SameValues known g₀ g →
      ∃ g', onRecord inner g = (.ok (), g') ∧ Restamps source known (T inner) g g')
    (hg : SameValues known g₀ g) :
    ∃ g', (do
        match ← lift (r.slot? name) with
        | none => pure ()
        | some slot => do
          slot.value.records.forM onRecord
          write r name slot.value source : Action Unit) g = (.ok (), g') ∧
      Restamps source known (fun q name' => ∃ v, g₀.value? r name = some v ∧
        ((∃ inner ∈ v.records, T inner q name') ∨ q = r ∧ name' = name)) g g' := by
  have hread : lift (r.slot? name) g = (.ok (g.own? r name).join, g) := by
    simp only [lift, RecordRef.slot?_made (hg₀.made r hr)]
  rw [Stateful.bind_of_ok hread]
  have hvalue : ((g.own? r name).join).map Slot.value = g₀.value? r name := hg.value r hr name
  cases hslot : (g.own? r name).join with
  | none =>
    rw [hslot] at hvalue
    exact ⟨g, rfl, .nothing (by simp [← hvalue]) g⟩
  | some slot =>
    rw [hslot] at hvalue
    obtain ⟨g₁, hrun, hrecords⟩ := Restamps.forM (hinner slot.value hvalue.symm) hg
    have hsame := hg.trans hrecords.sameValues
    have hsound : g₁.Sound known := by
      refine ⟨fun q hq => ?_, hg₀.accepting.sound.alone, hg₀.accepting.sound.base, ?_⟩
      · rw [hsame.size]
        exact hg₀.accepting.sound.bounded q hq
      · intro q hq name slot hslot
        have hq' := Graph.value?_eq_some_iff.2 ⟨slot.source, hslot⟩
        rw [hsame.value q hq] at hq'
        exact hg₀.accepting.sound.value hq hq'
    have hwrite := Restamps.write hsound hr ((hsame.value r hr name).trans hvalue.symm) source
    refine ⟨_, (Stateful.bind_of_ok hrun).trans rfl, (hrecords.trans hwrite).congr fun q name' => ?_⟩
    simp [← hvalue]

/-- Restating sources stamps what is set and kept by the selector. The records in `trail` are those that
it is within. -/
theorem setSourcesWithin_restamps (hg₀ : g₀.Hierarchy d known) {steps : Nat} (trail : List RecordRef)
    (htrail : ∀ w ∈ trail, w ∈ known ∧ Relation.TransGen (g₀.Embeds d) w r) (hnodup : trail.Nodup)
    (hr : r ∈ known) (hsteps : g₀.cells.size < steps + trail.length) (hg : SameValues known g₀ g) :
    ∃ g', setSourcesWithin d source steps r t g = (.ok (), g') ∧
      Restamps source known (g₀.SetBelow d r t.Keeps) g g' := by
  have hsound := hg₀.accepting.sound
  induction steps generalizing r t g trail with
  | zero =>
    have hle := hsound.length_le (fun w hw => (htrail w hw).1) hnodup
    omega
  | succ steps ih =>
    have hapart : r ∉ trail := fun hmem => hg₀.acyclic r hr (htrail r hmem).2
    have hrecord : ∀ a ∈ d.attributes r.cls, ∀ v, g₀.value? r a.name = some v → ∀ inner ∈ v.records,
        ∀ g, SameValues known g₀ g → ∃ g', (if (d.definition inner.cls).referenceable then pure ()
            else setSourcesWithin d source steps inner (t.get a.name) : Action Unit) g = (.ok (), g') ∧
          Restamps source known (fun q name => (d.definition inner.cls).referenceable = false ∧
            g₀.SetBelow d inner (t.get a.name).Keeps q name) g g' := by
      intro a ha v hv inner hinner g hg
      cases hembedded : (d.definition inner.cls).referenceable with
      | true => exact ⟨g, rfl, .nothing (by simp) g⟩
      | false =>
        have hembeds : g₀.Embeds d r inner := Graph.embeds_of_mem ha hv hinner hembedded
        obtain ⟨g', hrun, hrestamps⟩ := ih (t := t.get a.name) (r :: trail)
          (List.forall_mem_cons.2 ⟨⟨hr, .single hembeds⟩,
            fun w hw => ⟨(htrail w hw).1, (htrail w hw).2.tail hembeds⟩⟩)
          (hnodup.cons hapart) (hsound.nests hr hembeds.1) (by rw [List.length_cons]; omega) hg
        exact ⟨g', hrun, hrestamps.congr (by simp)⟩
    let T : Attribute → RecordRef → String → Prop := fun a q name => t.Selects a.name ∧
      ∃ v, g₀.value? r a.name = some v ∧ ((∃ inner ∈ v.records,
        (d.definition inner.cls).referenceable = false ∧
          g₀.SetBelow d inner (t.get a.name).Keeps q name) ∨ q = r ∧ name = a.name)
    suffices hall : ∃ g', setSourcesWithin d source (steps + 1) r t g = (.ok (), g') ∧
        Restamps source known (fun q name => ∃ a ∈ d.attributes r.cls, T a q name) g g' from
      hall.imp fun g' h => ⟨h.1, h.2.congr fun q name => Graph.setBelow_keeps_iff.symm⟩
    simp only [setSourcesWithin]
    refine Restamps.forM (fun a ha g hg => ?_) hg
    cases hselects : (t.get a.name).isNone with
    | true => exact ⟨g, rfl, .nothing (fun q name h => by simp [T, Selector.Selects, hselects] at h) g⟩
    | false =>
      obtain ⟨g', hrun, hrestamps⟩ := restamp_restamps hg₀ hr (hrecord a ha) hg
      exact ⟨g', hrun, hrestamps.congr fun q name => (and_iff_right hselects).symm⟩

theorem setSources_restamps (hg₀ : g₀.Hierarchy d known) (hr : r ∈ known) (source : Source) (t : Selector)
    (hg : SameValues known g₀ g) : ∃ g', setSources d source r t g = (.ok (), g') ∧
      Restamps source known (g₀.SetBelow d r t.Keeps) g g' := by
  have hsteps : stepsFor t g = (.ok (g.cells.size + t.depth + 2), g) := rfl
  unfold setSources
  rw [Stateful.bind_of_ok hsteps]
  refine setSourcesWithin_restamps hg₀ [] (by simp) List.nodup_nil hr ?_ hg
  rw [hg.size, List.length_nil]
  omega

end Record

end TypedRecords
