import TypedRecords.Proofs.Record.Isolated

/-! # Trees that are applied in part

The fields of a tree are assigned to a record one after the other. Where one cannot be, those before it
have been assigned and nothing else of the record has changed, but that a tree which says whether the
record is new says so first.
-/

namespace TypedRecords

open TypedRecords.Graph (Leaves Sound)
open Stateful (KeepsIn)

/-! ### Records that are spared -/

/-- A record has the slots that it had, and is new if it was. -/
structure Graph.Spares (r : RecordRef) (g g' : Graph) : Prop where
  own : ∀ name, g'.own? r name = g.own? r name
  isNew : g'.isNew r = g.isNew r

namespace Graph.Spares

variable {r : RecordRef} {g g₁ g' : Graph} {kept : Nat → Prop}

theorem refl (r : RecordRef) (g : Graph) : g.Spares r g := ⟨fun _ => rfl, rfl⟩

theorem trans (h : g.Spares r g₁) (h' : g₁.Spares r g') : g.Spares r g' :=
  ⟨fun name => (h'.own name).trans (h.own name), h'.isNew.trans h.isNew⟩

theorem of_leaves (h : Leaves kept g g') (hr : r.serial < g.cells.size) (hkept : kept r.serial) :
    g.Spares r g' :=
  ⟨h.own? hr hkept, congrArg (fun cell => cell.any Cell.isNew) (h.cell? hr hkept)⟩

end Graph.Spares

theorem Graph.Spares.markResolving (g : Graph) (q : RecordRef) (b : Bool) (r : RecordRef) :
    g.Spares r (g.markResolving q b) :=
  ⟨own?_markResolving g q b r, isNew_markResolving g q b r⟩

/-- Reading a slot of a known record spares those that are no forks. -/
theorem Graph.Sound.spares_slot? {known : Set RecordRef} {g : Graph} {q r : RecordRef}
    (hg : g.Sound known) (hq : q ∈ known) (hr : r ∈ known) (hmade : r.base? = none) (name : String) :
    g.Spares r (q.slot? name g).2 := by
  have hforks : ∀ serial c base, .fork serial c base ∈ known → serial ≠ r.serial := by
    intro serial c base hfork heq
    rw [← hg.alone _ hfork r hr heq] at hmade
    cases hmade
  exact .of_leaves (leaves_slot? hg hforks hq name (.refl (· = r.serial) g)) (hg.bounded r hr) rfl

theorem Graph.sound_allowsReading : AllowsReading fun known g => g.Sound known where
  slot := by
    intro known q name g hq hg
    obtain ⟨after, hafter, hg', hseen, -⟩ := hg.slot? hq name
    refine ⟨after, hafter, hg', fun slot hslot => ?_⟩
    have hheld : (q.slot? name g).2.seen? q name = some slot.value := by
      rw [hseen, hslot]
      rfl
    exact hg'.seen (hafter hq) hheld
  resolving known q b g _ hg :=
    hg.of_own?_eq (Nat.le_of_eq (size_modify g q _).symm) (own?_markResolving g q b)

/-- What is kept wherever some records that are no forks are spared, reading keeps. -/
theorem AllowsReading.sparing {I : Set RecordRef → Graph → Prop} (hI : AllowsReading I)
    (hsound : ∀ known g, I known g → g.Sound known) {records : Set RecordRef}
    (hmade : ∀ r ∈ records, r.base? = none) {F : Graph → Prop}
    (hF : ∀ g g', (∀ r ∈ records, g.Spares r g') → F g → F g') :
    AllowsReading fun known g => I known g ∧ records ⊆ known ∧ F g where
  slot := by
    rintro known q name g hq ⟨hg, hrecords, hfixed⟩
    obtain ⟨after, hafter, hg', hwithin⟩ := hI.slot known q name g hq hg
    refine ⟨after, hafter, ⟨hg', hrecords.trans hafter, hF g _ (fun r hr => ?_) hfixed⟩, hwithin⟩
    exact (hsound known g hg).spares_slot? hq (hrecords hr) (hmade r hr) name
  resolving := by
    rintro known q b g hq ⟨hg, hrecords, hfixed⟩
    exact ⟨hI.resolving known q b g hq hg, hrecords,
      hF g _ (fun r _ => .markResolving g q b r) hfixed⟩

namespace Record

variable {d : Directory} {registry : RegistryRef} {source : Source} {r : RecordRef}
  {g g₁ g' : Graph} {fields : Object} {e : Error}

/-! ### Fields that are assigned -/

/-- The fields of a tree have been assigned to a record, and nothing else of it has changed. -/
structure Assigned (d : Directory) (source : Source) (r : RecordRef) (fields : Object)
    (g g' : Graph) : Prop where
  accepted : ∀ name ∈ Fields.keys fields, name ≠ Tree.classTag → name ≠ Tree.newTag →
    ∃ a v, (d.definition r.cls).attribute? name = some a ∧
      a.type.check (d.site r.cls name) v = .ok () ∧ g'.own? r name = some (some ⟨v, source⟩)
  others : ∀ name, (name ∈ Fields.keys fields → name = Tree.classTag ∨ name = Tree.newTag) →
    g'.own? r name = g.own? r name
  isNew : g'.isNew r = g.isNew r

namespace Assigned

theorem nil (d : Directory) (source : Source) (r : RecordRef) (g : Graph) :
    Assigned d source r [] g g :=
  ⟨fun _ hname => (List.not_mem_nil hname).elim, fun _ _ => rfl, rfl⟩

theorem spares (h : Assigned d source r fields g g₁) (hspares : g₁.Spares r g') :
    Assigned d source r fields g g' where
  accepted name hname hclass hnew := by
    obtain ⟨a, v, ha, hcheck, hown⟩ := h.accepted name hname hclass hnew
    exact ⟨a, v, ha, hcheck, (hspares.own name).trans hown⟩
  others name hname := (hspares.own name).trans (h.others name hname)
  isNew := hspares.isNew.trans h.isNew

theorem tag {name : String} (hname : name = Tree.classTag ∨ name = Tree.newTag) {t : Value}
    (h : Assigned d source r fields g g') : Assigned d source r ((name, t) :: fields) g g' where
  accepted other hother hclass hnew := by
    rcases List.mem_cons.1 hother with rfl | hlater
    · rcases hname with rfl | rfl
      · exact absurd rfl hclass
      · exact absurd rfl hnew
    · exact h.accepted other hlater hclass hnew
  others other hother := h.others other fun hlater => hother (List.mem_cons_of_mem _ hlater)
  isNew := h.isNew

/-- A field that is assigned, and then others. -/
theorem cons {name : String} {t v : Value} {a : Attribute}
    (hname : ¬(name = Tree.classTag ∨ name = Tree.newTag)) (hr : r.serial < g₁.cells.size)
    (hspares : g.Spares r g₁) (ha : (d.definition r.cls).attribute? name = some a)
    (hcheck : a.type.check (d.site r.cls name) v = .ok ())
    (h : Assigned d source r fields (g₁.write r name (some ⟨v, source⟩)) g') :
    Assigned d source r ((name, t) :: fields) g g' where
  accepted other hother hclass hnew := by
    by_cases hlater : other ∈ Fields.keys fields
    · exact h.accepted other hlater hclass hnew
    · obtain rfl := (List.mem_cons.1 hother).resolve_right hlater
      refine ⟨a, v, ha, hcheck, ?_⟩
      rw [h.others other fun hmem => absurd hmem hlater]
      exact Graph.own?_write_self (Array.getElem?_eq_getElem hr) other _
  others other hother := by
    have hne : other ≠ name := by
      rintro rfl
      exact hname (hother List.mem_cons_self)
    rw [h.others other fun hlater => hother (List.mem_cons_of_mem _ hlater),
      Graph.own?_write_of_name_ne hne, hspares.own other]
  isNew := by rw [h.isNew, Graph.isNew_write, hspares.isNew]

end Assigned

theorem decodeAttributes_assigned (hr : r.serial < g.cells.size)
    (h : decodeAttributes d registry source r fields g = (.ok (), g')) :
    Assigned d source r fields g g' := by
  induction fields generalizing g with
  | nil =>
    cases h
    exact .nil d source r _
  | cons entry rest ih =>
    obtain ⟨name, t⟩ := entry
    by_cases htag : name = Tree.classTag ∨ name = Tree.newTag
    · rw [decodeAttributes_tag htag] at h
      exact (ih hr h).tag htag
    · obtain ⟨hclass, hnew⟩ := not_or.1 htag
      obtain ⟨a, v, g₁, ha, hv, hcheck, hlater⟩ := decodeAttributes_cons_eq_ok hclass hnew h
      have hleaves := decode_leaves hv
      have hr₁ := hr.trans_le hleaves.size
      have hsize : (g₁.write r name (some ⟨v, source⟩)).cells.size = g₁.cells.size :=
        Graph.size_modify _ _ _
      exact .cons htag hr₁ (.of_leaves hleaves hr trivial) ha hcheck (ih (hsize ▸ hr₁) hlater)

/-! ### Fields that cannot be assigned -/

theorem decodeAttributes_cons (entry : String × Value) (rest : Object) :
    decodeAttributes d registry source r (entry :: rest) = (do
      decodeAttributes d registry source r [entry]
      decodeAttributes d registry source r rest) := by
  obtain ⟨name, t⟩ := entry
  by_cases htag : name = Tree.classTag ∨ name = Tree.newTag
  · rw [decodeAttributes_tag htag, decodeAttributes_tag htag]
    rfl
  · obtain ⟨hclass, hnew⟩ := not_or.1 htag
    simp only [decodeAttributes, hclass, hnew, decide_false, Bool.or_self, Bool.false_eq_true,
      if_false, bind_assoc, pure_bind]

theorem setFrom_eq_error {name : String} {v : Value}
    (h : setFrom d source r name v g = (.error e, g')) : g' = g := by
  have hcheck : ∀ result g₁, check d r name v g = (result, g₁) → g₁ = g := by
    intro result g₁ hrun
    have hkeeps : Stateful.Keeps (fun g₁ => g₁ = g) (check d r name v) fun _ => True :=
      (keeps_ofExcept _).bind fun _ _ => (keeps_ofExcept _).imp fun _ _ => trivial
    exact hkeeps.of_run rfl hrun
  unfold setFrom at h
  rcases hchecked : check d r name v g with ⟨_ | _, g₁⟩
  · rw [Stateful.bind_of_error hchecked] at h
    cases h
    exact hcheck _ _ hchecked
  · rw [Stateful.bind_of_ok hchecked] at h
    cases h

/-- A field that cannot be assigned changes no record that was there. -/
theorem decodeAttributes_singleton_eq_error {entry : String × Value}
    (h : decodeAttributes d registry source r [entry] g = (.error e, g')) :
    Leaves (fun _ => True) g g' := by
  obtain ⟨name, t⟩ := entry
  by_cases htag : name = Tree.classTag ∨ name = Tree.newTag
  · rw [decodeAttributes_tag htag] at h
    cases h
  · obtain ⟨hclass, hnew⟩ := not_or.1 htag
    simp only [decodeAttributes, hclass, hnew, decide_false, Bool.or_self, Bool.false_eq_true,
      if_false] at h
    rcases hnamed : ofExcept (d.attributeNamed r.cls name) g with ⟨_ | a, g₁⟩
    · rw [Stateful.bind_of_error hnamed] at h
      cases h
      exact (keeps_ofExcept _).of_run (.refl _ g) hnamed
    · obtain rfl := (ofExcept_eq_ok hnamed).2
      rw [Stateful.bind_of_ok hnamed] at h
      rcases hdecode : decode d registry source t g₁ with ⟨_ | v, g₂⟩
      · rw [Stateful.bind_of_error hdecode] at h
        cases h
        exact (keeps_decode t).of_run (.refl _ g₁) hdecode
      · rw [Stateful.bind_of_ok hdecode] at h
        rcases hset : setFrom d source r name v g₂ with ⟨_ | _, g₃⟩
        · rw [Stateful.bind_of_error hset] at h
          cases h
          rw [setFrom_eq_error hset]
          exact decode_leaves hdecode
        · rw [Stateful.bind_of_ok hset] at h
          cases h

/-- How the assignment of fields stops at one of them: those before it are assigned, as if there were no
others, and that is all that becomes of the record. -/
inductive Halted (d : Directory) (registry : RegistryRef) (source : Source) (r : RecordRef)
    (fields : Object) (e : Error) (g g' : Graph) : Prop
  | intro {before after : Object} {entry : String × Value} {g₁ : Graph}
    (split : fields = before ++ entry :: after)
    (ran : decodeAttributes d registry source r before g = (.ok (), g₁))
    (failed : decodeAttributes d registry source r [entry] g₁ = (.error e, g'))
    (spares : g₁.Spares r g') (assigned : Assigned d source r before g g')

theorem decodeAttributes_eq_error (hr : r.serial < g.cells.size)
    (h : decodeAttributes d registry source r fields g = (.error e, g')) :
    Halted d registry source r fields e g g' := by
  -- The induction only finds the field that fails. What it leaves is a fact about that field alone.
  have hsplit : ∃ before entry after g₁, fields = before ++ entry :: after ∧
      decodeAttributes d registry source r before g = (.ok (), g₁) ∧
      decodeAttributes d registry source r [entry] g₁ = (.error e, g') := by
    clear hr
    induction fields generalizing g with
    | nil => cases h
    | cons entry rest ih =>
      rw [decodeAttributes_cons] at h
      rcases hfirst : decodeAttributes d registry source r [entry] g with ⟨_ | _, g₁⟩
      · rw [Stateful.bind_of_error hfirst] at h
        cases h
        exact ⟨[], entry, rest, g, rfl, rfl, hfirst⟩
      · rw [Stateful.bind_of_ok hfirst] at h
        obtain ⟨before, failing, after, g₂, rfl, hbefore, hfailed⟩ := ih h
        refine ⟨entry :: before, failing, after, g₂, rfl, ?_, hfailed⟩
        rw [decodeAttributes_cons, Stateful.bind_of_ok hfirst]
        exact hbefore
  obtain ⟨before, entry, after, g₁, hfields, hran, hfailed⟩ := hsplit
  have hkept : Leaves (fun n => n ≠ r.serial) g g₁ :=
    (keeps_decodeAttributes (.inr fun hne => hne rfl) before).of_run (.refl _ g) hran
  have hspares : g₁.Spares r g' :=
    .of_leaves (decodeAttributes_singleton_eq_error hfailed) (hr.trans_le hkept.size) trivial
  exact ⟨hfields, hran, hfailed, hspares, (decodeAttributes_assigned hr hran).spares hspares⟩

/-- A tree that is not for the record changes nothing; another one is applied up to a field. -/
theorem decodeInto_eq_error (hr : r.serial < g.cells.size) {t : Value}
    (h : decodeInto d registry source r t g = (.error e, g')) :
    g' = g ∨ ∃ fields, t = .object fields ∧
      (∀ tag, Fields.get? Tree.classTag fields = some tag → tag = .string r.className) ∧
      Halted d registry source r fields e (g.marked r fields) g' := by
  cases t with
  | object fields =>
    by_cases htag : ∀ tag, Fields.get? Tree.classTag fields = some tag → tag = .string r.className
    · rw [decodeInto_of_tag htag] at h
      refine .inr ⟨fields, rfl, htag, decodeAttributes_eq_error ?_ h⟩
      rwa [Graph.size_marked]
    · refine .inl ?_
      simp only [not_forall, exists_prop] at htag
      obtain ⟨tag, hget, hother⟩ := htag
      simp only [decodeInto, hget] at h
      cases tag with
      | string text =>
        have htext : text ≠ r.className := fun heq => hother (heq ▸ rfl)
        simp only [htext, if_false] at h
        cases h
        rfl
      | _ =>
        cases h
        rfl
  | _ =>
    cases h
    exact .inl rfl

end Record

end TypedRecords
