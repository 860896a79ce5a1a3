import TypedRecords.Store.Session
import TypedRecords.Proofs.Document.Retained
import TypedRecords.Proofs.Record.Legible
import TypedRecords.Proofs.Record.Regions

/-! # References that are delivered

A tagged object is decoded to a record of the class that it names. The record has the identifiers that
stay of the object, and if it is embedded, it holds the records of the objects that stay in it.
-/

namespace TypedRecords

open TypedRecords.Graph (Leaves Confined)
open RecordRef (Region)
open Selector (Retains)

/-- An object that is tagged with a class of a registry. -/
structure Tree.Tags (d : Directory) (registry : RegistryRef) (o : Object) (c : ClassRef) : Prop where
  tag : Fields.get? Tree.classTag o = some (.string c.name)
  found : d.find? registry c.name = some c

/-- The first identifier that is stored in an object. -/
def Store.identifierIn? (d : Directory) (c : ClassRef) (o : Object) : Option (String × Value) :=
  (Store.identifiersIn d c o).head?

section

variable (d : Directory) (registry : RegistryRef) (g : Graph) (id : String)

/-- A record conveys to which records the objects within an object refer that are reached by a path of
attributes: it holds a record for each of them, with the identifier that is stored under a name. -/
def Conveys : List String → Object → RecordRef → Prop
  | [], o, r => (d.definition r.cls).referenceable = true →
      ∀ v, Store.identifierIn? d r.cls o = some (id, v) →
        ∃ w, g.value? r id = some w ∧ (w = v ∨ w.beq v = true)
  | name :: path, o, r => (d.definition r.cls).referenceable = false →
      ∀ a ∈ d.attributes r.cls, a.name = name → ∀ v, Fields.get? name o = some v →
        ∀ inner ∈ v.objects, ∀ c, Tree.Tags d registry inner c →
          ∃ r' ∈ g.held r name, r'.cls = c ∧ Conveys path inner r'

end

variable {d : Directory} {registry : RegistryRef} {source : Source} {g g₁ g' : Graph} {r : RecordRef}
  {id : String} {path : List String} {c : ClassRef} {o part : Object}

/-! ### Identifiers -/

theorem Store.identifierIn?_eq_some {v : Value} (h : Store.identifierIn? d c o = some (id, v)) :
    (∃ a ∈ (d.definition c).identifiers, a.name = id) ∧ Fields.get? id o = some v ∧
      v ≠ .undefined := by
  obtain ⟨a, ha, hread⟩ := List.mem_filterMap.1 (List.mem_of_mem_head? h)
  cases hv : Fields.get? a.name o with
  | none =>
    rw [hv] at hread
    cases hread
  | some w =>
    rw [hv] at hread
    cases w <;> cases hread <;> exact ⟨⟨a, ha, rfl⟩, hv, by simp⟩

/-! ### Fields of new records -/

namespace Record

theorem decodeAttributes_filter (fields : Object) :
    decodeAttributes d registry source r (fields.filter fun e => e.1 != Tree.newTag) =
      decodeAttributes d registry source r fields := by
  induction fields with
  | nil => rfl
  | cons entry rest ih =>
    obtain ⟨name, t⟩ := entry
    by_cases hnew : name = Tree.newTag
    · have hfilter : ((name, t) :: rest).filter (fun e => e.1 != Tree.newTag) =
          rest.filter fun e => e.1 != Tree.newTag := by
        simp [hnew]
      rw [hfilter, ih, decodeAttributes_tag (.inr hnew)]
    · have hfilter : ((name, t) :: rest).filter (fun e => e.1 != Tree.newTag) =
          (name, t) :: rest.filter fun e => e.1 != Tree.newTag := by
        simp [hnew]
      rw [hfilter]
      simp only [decodeAttributes, ih]

/-- What a new record has after the fields of an object were assigned to it. -/
theorem assigns_of_distinct {fields : Object} (hdistinct : Fields.Distinct fields) {cell : Cell}
    (hcell : g.cell? r = some cell)
    (h : decodeAttributes d registry source r fields g = (.ok (), g')) :
    Assigns d registry source r (fields.filter fun e => e.1 != Tree.newTag) g g' := by
  rw [← decodeAttributes_filter] at h
  refine decodeAttributes_assigns (hdistinct.sublist ?_) ?_ hcell h
  · exact (List.filter_sublist (l := fields)).map _
  · intro entry hentry
    simpa using (List.mem_filter.1 hentry).2

theorem eq_of_decode {t v : Value} (h : decode d registry source t g = (.ok v, g'))
    (hv : v = .undefined ∨ v.IsKey) : t = v := by
  have hobject : ∀ fields, v ≠ .object fields := by
    rintro fields rfl
    rcases hv with hv | ⟨s, hv⟩ | ⟨x, hv⟩ <;> cases hv
  cases t with
  | object fields =>
    cases htag : Fields.get? Tree.classTag fields with
    | none =>
      obtain ⟨vs, rfl, -⟩ := decode_untagged_eq_ok htag h
      exact absurd rfl (hobject vs)
    | some tag =>
      rcases decode_tagged_eq_ok htag h with ⟨c, _, _, -, -, -, rfl, -⟩ |
        ⟨c, name, -, -, -, rfl, -⟩ <;>
        rcases hv with hv | ⟨s, hv⟩ | ⟨x, hv⟩ <;> cases hv
  | array items =>
    obtain ⟨vs, g₁, -, hpure⟩ := Stateful.bind_eq_ok h
    cases hpure
    rcases hv with hv | ⟨s, hv⟩ | ⟨x, hv⟩ <;> cases hv
  | _ =>
    cases h
    rfl

/-- What is read of an identifier is assigned as it is. -/
theorem own?_of_identifier (hd : d.Lawful) (hnamed : d.WellNamed) {fields : Object}
    (hdistinct : Fields.Distinct fields) {cell : Cell} (hcell : g.cell? r = some cell)
    (h : decodeAttributes d registry source r fields g = (.ok (), g')) {a : Attribute}
    (ha : a ∈ (d.definition r.cls).identifiers) :
    g'.own? r a.name = (Fields.get? a.name fields).elim (g.own? r a.name)
      fun t => some (some ⟨t, source⟩) := by
  have hassigns := assigns_of_distinct hdistinct hcell h
  have hmem := Definition.mem_attributeList_of_identifier ha
  obtain ⟨-, hclass, hnew⟩ := hnamed r.cls a hmem
  have hfilter : Fields.get? a.name (fields.filter fun e => e.1 != Tree.newTag) =
      Fields.get? a.name fields := Fields.get?_filter fun _ => by simpa using hnew
  cases ht : Fields.get? a.name fields with
  | none =>
    refine hassigns.other a.name fun t hmem => ?_
    rw [ht, Fields.get?_eq_none_iff] at hfilter
    exact absurd (Fields.mem_keys_of_mem hmem) hfilter
  | some t =>
    rw [ht] at hfilter
    obtain ⟨v, hv, g₁, g₂, -, hdecode, -⟩ :=
      hassigns.assigned a.name t (Fields.mem_of_get? hfilter) hclass
    obtain ⟨a', ha', hcheck⟩ := hassigns.accepted a.name (Fields.mem_keys_iff.2 ⟨t, hfilter⟩) hclass
      _ hv
    rw [(hd.definition r.cls).attribute?_of_mem hmem] at ha'
    cases ha'
    have hkey : v = .undefined ∨ v.IsKey := or_iff_not_imp_left.2 <|
      ValueType.isKey_of_check ((hd.definition r.cls).identifies a hmem
        (Definition.isIdentifier_of_mem_identifiers ha)) hcheck
    rw [hv, eq_of_decode hdecode hkey, Option.elim_some]

/-! ### Objects that are decoded -/

/-- A record that was made for an object between two graphs. -/
def MadeBetween (d : Directory) (registry : RegistryRef) (source : Source) (o : Object) (c : ClassRef)
    (r : RecordRef) (g g' : Graph) : Prop :=
  ∃ g₁ g₂ isNew, Leaves (fun _ => True) g g₁ ∧ r = (g₁.instantiate c isNew).1 ∧
    decodeAttributes d registry source r o (g₁.instantiate c isNew).2 = (.ok (), g₂) ∧
      Leaves (fun _ => True) g₂ g'

theorem MadeBetween.mono {g₀ : Graph} (h : MadeBetween d registry source o c r g g')
    (hbefore : Leaves (fun _ => True) g₀ g) (hafter : Leaves (fun _ => True) g' g₁) :
    MadeBetween d registry source o c r g₀ g₁ := by
  obtain ⟨g₂, g₃, isNew, hstart, hr, hdecode, hend⟩ := h
  exact ⟨g₂, g₃, isNew, hbefore.trans hstart, hr, hdecode, hend.trans hafter⟩

/-- A value holds a record for every tagged object that it was decoded from. -/
theorem decode_objects (hd : d.Lawful) {t v : Value}
    (h : decode d registry source t g = (.ok v, g')) (ho : o ∈ t.objects)
    (hc : Tree.Tags d registry o c) :
    ∃ r ∈ v.records, MadeBetween d registry source o c r g g' := by
  induction t using Value.induction generalizing g v g' with
  | array items ih =>
    obtain ⟨vs, g₁, hvs, hpure⟩ := Stateful.bind_eq_ok h
    cases hpure
    rw [Value.objects] at ho
    rw [Value.records]
    clear h
    induction items generalizing g vs with
    | nil => cases ho
    | cons t rest ihRest =>
      obtain ⟨ht, hrest⟩ := List.forall_mem_cons.1 ih
      obtain ⟨v, g₁, hv, hlater⟩ := Stateful.bind_eq_ok hvs
      obtain ⟨vs', g₂, hvs', hpure⟩ := Stateful.bind_eq_ok hlater
      cases hpure
      rcases List.mem_append.1 ho with ho | ho
      · obtain ⟨r, hr, hmade⟩ := ht hv ho
        exact ⟨r, List.mem_append_left _ hr, hmade.mono (.refl _ g) (decodeItems_eq_ok hvs').2⟩
      · obtain ⟨r, hr, hmade⟩ := ihRest hrest ho vs' hvs'
        exact ⟨r, List.mem_append_right _ hr, hmade.mono (decode_leaves hv) (.refl _ _)⟩
  | object fields _ =>
    obtain rfl := List.mem_singleton.1 ho
    rw [decode_record hc.tag (hd.classNamed? hc.found) hc.found] at h
    obtain ⟨_, g₁, hattributes, hpure⟩ := Stateful.bind_eq_ok h
    cases hpure
    exact ⟨_, List.mem_singleton.2 rfl, g, g', _, .refl _ g, rfl, hattributes, .refl _ g'⟩
  | other t harray hobject =>
    cases t with
    | array items => cases harray
    | object fields => cases hobject
    | _ => cases ho

end Record

/-! ### What new records convey -/

open Record (MadeBetween)

theorem Tree.Tags.of_tag (h : Tree.Tags d registry o c)
    (hpart : ∀ tag, Fields.get? Tree.classTag o = some (.string tag) →
      Fields.get? Tree.classTag part = some (.string tag)) : Tree.Tags d registry part c :=
  ⟨hpart _ h.tag, h.found⟩

/-- A new record conveys what stays of its object. -/
theorem Conveys.of_decode (hd : d.Lawful) (hnamed : d.WellNamed) {isNew : Bool}
    (hdistinct : Fields.Distinct part) (hretains : Retains id path o part)
    (h : Record.decodeAttributes d registry source (g.instantiate c isNew).1 part
      (g.instantiate c isNew).2 = (.ok (), g₁))
    (hleaves : Leaves (g.cells.size ≤ ·) g₁ g') :
    Conveys d registry g' id path o (g.instantiate c isNew).1 := by
  induction path generalizing o part c g g₁ isNew with
  | nil =>
    intro _ v hv
    obtain ⟨⟨a, ha, rfl⟩, hv, hdefined⟩ := Store.identifierIn?_eq_some hv
    obtain ⟨hname, hclass, -⟩ := hnamed _ a (Definition.mem_attributeList_of_identifier ha)
    have hcell := Graph.cell?_instantiate_self g c isNew
    have hown := Record.own?_of_identifier hd hnamed hdistinct hcell h ha
    rw [hretains hname hclass v hv hdefined, Option.elim_some] at hown
    have hlt : (g.instantiate c isNew).1.serial < g₁.cells.size := by
      refine (Graph.lt_of_cell? hcell).trans_le ?_
      exact ((Record.keeps_decodeAttributes (.inr fun hne => hne rfl) part).of_run (.refl
        (· ≠ (g.instantiate c isNew).1.serial) _) h).size
    refine ⟨v, Graph.value?_eq_some_iff.2 ⟨source, ?_⟩, .inl rfl⟩
    rw [hleaves.own? hlt (Nat.le_refl _), hown]
  | cons name path ih =>
    intro _ a ha hname v hv inner hinner c' hc'
    subst hname
    obtain ⟨hproper, hclass, hnew⟩ := hnamed _ a ha
    have hcell := Graph.cell?_instantiate_self g c isNew
    obtain ⟨t, ht, rest, hrest, hrestDistinct, htag, hretains⟩ :=
      hretains hproper hclass v hv inner hinner
    have hassigns := Record.assigns_of_distinct hdistinct hcell h
    have hfilter : Fields.get? a.name (part.filter fun e => e.1 != Tree.newTag) = some t := by
      rw [Fields.get?_filter fun _ => by simpa using hnew, ht]
    obtain ⟨w, hw, g₂, g₃, hbefore, hdecode, hafter⟩ :=
      hassigns.assigned a.name t (Fields.mem_of_get? hfilter) hclass
    obtain ⟨r', hr', g₄, g₅, isNew', hstart, rfl, hattributes, hend⟩ :=
      Record.decode_objects hd hdecode hrest (hc'.of_tag htag)
    have hlt : (g.instantiate c isNew).1.serial < (g.instantiate c isNew).2.cells.size :=
      Graph.lt_of_cell? hcell
    have hbelow : g.cells.size < g₄.cells.size := (hlt.trans_le hbefore.size).trans_le hstart.size
    refine ⟨_, ?_, rfl, ih hrestDistinct hretains hattributes ?_⟩
    · have hown : g'.own? (g.instantiate c isNew).1 a.name = some (some ⟨w, source⟩) := by
        rw [hleaves.own? (hlt.trans_le hassigns.leaves.size) (Nat.le_refl _), hw]
      rw [Graph.held_of_own? hown]
      exact hr'
    · refine ((hend.imp fun _ _ => trivial).trans (hafter.imp fun n hn => ?_)).trans
        (hleaves.imp fun n hn => hbelow.le.trans hn)
      exact (hbelow.trans_le hn).ne'

/-- What a record conveys depends on its region alone. -/
theorem Conveys.of_own? (h : Conveys d registry g id path o r) {lo hi : Nat} (hr : r ∈ Region lo hi)
    (hconfined : g.Confined lo hi)
    (hown : ∀ r ∈ Region lo hi, ∀ name, g'.own? r name = g.own? r name) :
    Conveys d registry g' id path o r := by
  induction path generalizing o r with
  | nil =>
    intro hreferenceable v hv
    rw [Graph.value?_congr (hown r hr id)]
    exact h hreferenceable v hv
  | cons name path ih =>
    intro hembedded a ha hname v hv inner hinner c' hc'
    obtain ⟨r', hr', hcls, hconveys⟩ := h hembedded a ha hname v hv inner hinner c' hc'
    refine ⟨r', ?_, hcls, ih hconveys (hconfined.held hr hr')⟩
    rwa [Graph.held_congr (hown r hr name)]

/-- The first identifier of a new record is the first one of its object. -/
theorem identifier?_of_decode (hd : d.Lawful) (hnamed : d.WellNamed) {isNew : Bool}
    (hdistinct : Fields.Distinct o)
    (h : Record.decodeAttributes d registry source (g.instantiate c isNew).1 o
      (g.instantiate c isNew).2 = (.ok (), g')) :
    g'.identifier? d (g.instantiate c isNew).1 = Store.identifierIn? d c o := by
  have hcell := Graph.cell?_instantiate_self g c isNew
  have hnone : ∀ name, (g.instantiate c isNew).2.own? (g.instantiate c isNew).1 name = none := by
    intro name
    rw [Graph.own?, hcell]
    rfl
  have hown := fun a (ha : a ∈ (d.definition c).identifiers) =>
    Record.own?_of_identifier hd hnamed hdistinct hcell h ha
  have hcls : (g.instantiate c isNew).1.cls = c := rfl
  rw [Graph.identifier?, Store.identifierIn?, Store.identifiersIn, List.head?_filterMap, hcls]
  generalize (d.definition c).identifiers = attributes at hown
  induction attributes with
  | nil => rfl
  | cons a rest ih =>
    obtain ⟨hownFirst, hownRest⟩ := List.forall_mem_cons.1 hown
    rw [List.findSome?_cons, List.findSome?_cons, ih hownRest, seen?_made rfl, Graph.value?,
      hownFirst, hnone]
    cases Fields.get? a.name o with
    | none => rfl
    | some v => cases v <;> rfl

/-- The first identifier of an object is the first one of what stays of it, if it stays. -/
theorem Store.identifierIn?_of_retained (hnamed : d.WellNamed) {v : Value}
    (habsent : ∀ name, name ≠ Tree.classTag → (Fields.get? name o).getD .undefined = .undefined →
      (Fields.get? name part).getD .undefined = .undefined)
    (h : Store.identifierIn? d c o = some (id, v)) (hpart : Fields.get? id part = some v) :
    Store.identifierIn? d c part = some (id, v) := by
  have htags : ∀ a ∈ (d.definition c).identifiers, a.name ≠ Tree.classTag := fun a ha =>
    (hnamed c a (Definition.mem_attributeList_of_identifier ha)).2.1
  rw [identifierIn?, identifiersIn, List.head?_filterMap] at h ⊢
  generalize (d.definition c).identifiers = attributes at h htags ⊢
  induction attributes with
  | nil => cases h
  | cons a rest ih =>
    obtain ⟨htag, htags⟩ := List.forall_mem_cons.1 htags
    rw [List.findSome?_cons] at h ⊢
    have hskip : (Fields.get? a.name o).getD .undefined = .undefined →
        Fields.get? a.name part = none ∨ Fields.get? a.name part = some .undefined := by
      intro hmissing
      have hgone := habsent a.name htag hmissing
      cases hread : Fields.get? a.name part with
      | none => exact .inl rfl
      | some w =>
        rw [hread, Option.getD_some] at hgone
        exact .inr (congrArg some hgone)
    cases hread : Fields.get? a.name o with
    | none =>
      rw [hread] at h hskip
      rcases hskip rfl with hgone | hgone <;> rw [hgone] <;> exact ih h htags
    | some w =>
      rw [hread] at h hskip
      cases w with
      | undefined => rcases hskip rfl with hgone | hgone <;> rw [hgone] <;> exact ih h htags
      | _ =>
        cases h
        rw [hpart]

end TypedRecords
