import Mathlib.Data.List.Pairwise
import TypedRecords.Proofs.Query.Answered
import TypedRecords.Proofs.Record.Recast
import TypedRecords.Proofs.Store.Filling
import TypedRecords.Proofs.Store.Missing
import TypedRecords.Proofs.Store.Tracking

/-! # What was found

Of each document that was found a record is made, which has the identifiers of the document and then loads
what was selected. The load reads the document again, by the first of these identifiers.
-/

namespace TypedRecords

open TypedRecords.Graph (Leaves Beside)
open RecordRef (Region)
open Stateful (KeepsIn Never)

variable {d : Directory} {c : ClassRef} {r : RecordRef} {g g' : Graph} {fault : StoreFault}

/-! ### Records with identifiers -/

theorem RecordRef.Bare.write (hr : r.Bare g) {v : Value} (hv : v.IsKey) (name : String)
    (source : Source) : r.Bare (g.write r name (some ⟨v, source⟩)) := by
  obtain ⟨cell, hcell, hresting⟩ := hr.cell
  refine ⟨hr.made, ⟨_, Graph.cell?_write_self hcell name _, hresting⟩, fun other own hown => ?_⟩
  by_cases hname : other = name
  · subst hname
    rw [Graph.own?_write_self hcell] at hown
    cases hown
    exact ⟨_, rfl, hv⟩
  · rw [Graph.own?_write_of_name_ne hname] at hown
    exact hr.keys other own hown

theorem RecordRef.Bare.value?_write (hr : r.Bare g) (name other : String) (v : Value) (source : Source) :
    (g.write r name (some ⟨v, source⟩)).value? r other =
      if other = name then some v else g.value? r other := by
  obtain ⟨cell, hcell, -⟩ := hr.cell
  split
  · next heq =>
    subst heq
    exact Graph.value?_eq_some_iff.2 ⟨source, Graph.own?_write_self hcell other _⟩
  · next hne => exact Graph.value?_congr (Graph.own?_write_of_name_ne hne g r r _)

namespace Record

/-- Assigns one identifier of a record. -/
def assignIdentifier (d : Directory) (c : ClassRef) (r : RecordRef) (entry : String × Value) :
    Action Unit := do
  let a ← ofExcept (d.attributeNamed c entry.1)
  if a.role.isIdentifier then set d r entry.1 entry.2
  else throw (.usage (.notAnIdentifier entry.1 c.name))

theorem withIdentifiers_eq (identifiers : Object) : withIdentifiers d c identifiers = (do
    let r ← instantiate c false
    identifiers.forM (assignIdentifier d c r)
    pure r) := rfl

/-- Identifiers that sanitizing does not change are assigned as they are. -/
theorem forM_assignIdentifier (hd : d.Lawful) {identifiers : Object}
    (hdistinct : Fields.Distinct identifiers) (hdefined : ∀ entry ∈ identifiers, entry.2 ≠ .undefined)
    (hcls : r.cls = c) (hsanitized : ∀ entry ∈ identifiers, ∀ a,
      (d.definition c).attribute? entry.1 = some a → a.type.sanitize entry.2 = entry.2)
    (hr : r.Bare g) (h : identifiers.forM (assignIdentifier d c r) g = (.ok (), g')) :
    r.Bare g' ∧ ∀ name, g'.value? r name = (Fields.get? name identifiers).or (g.value? r name) := by
  subst hcls
  induction identifiers generalizing g with
  | nil =>
    cases h
    exact ⟨hr, fun name => rfl⟩
  | cons entry rest ih =>
    obtain ⟨name, v⟩ := entry
    obtain ⟨hname, hdistinctRest⟩ := Fields.distinct_cons.1 hdistinct
    obtain ⟨hvDefined, hdefinedRest⟩ := List.forall_mem_cons.1 hdefined
    obtain ⟨hvSanitized, hsanitizedRest⟩ := List.forall_mem_cons.1 hsanitized
    rw [List.forM] at h
    obtain ⟨_, g₁, hhere, hlater⟩ := Stateful.bind_eq_ok h
    obtain ⟨a, g₂, hread, hset⟩ := Stateful.bind_eq_ok hhere
    obtain ⟨hnamed, rfl⟩ := ofExcept_eq_ok hread
    have ha := attributeNamed_eq_ok hnamed
    split at hset
    · next hrole =>
      obtain ⟨b, hb, hcheck, rfl⟩ := set_eq_ok hset
      obtain rfl := Option.some.inj (ha.symm.trans hb)
      rw [hvSanitized a ha] at hcheck hlater
      have hkey : v.IsKey := ValueType.isKey_of_check
        ((hd.definition r.cls).identifies a (Definition.mem_of_attribute? ha) hrole) hcheck hvDefined
      obtain ⟨hbare, hvalues⟩ := ih hdistinctRest hdefinedRest
        (hr.write hkey name .here) hsanitizedRest hlater
      refine ⟨hbare, fun other => ?_⟩
      rw [hvalues, hr.value?_write]
      by_cases heq : name = other
      · subst heq
        have hgone := (Fields.get?_eq_none_iff name rest).2 hname
        simp [Fields.get?, hgone]
      · simp [Fields.get?, heq, Ne.symm heq]
    · cases hset

theorem withIdentifiers_eq_ok (hd : d.Lawful) {identifiers : Object}
    (hdistinct : Fields.Distinct identifiers) (hdefined : ∀ entry ∈ identifiers, entry.2 ≠ .undefined)
    (hsanitized : ∀ entry ∈ identifiers, ∀ a, (d.definition c).attribute? entry.1 = some a →
      a.type.sanitize entry.2 = entry.2)
    (h : withIdentifiers d c identifiers g = (.ok r, g')) :
    r.cls = c ∧ r.Bare g' ∧ ∀ name, g'.value? r name = Fields.get? name identifiers := by
  have hmade : instantiate c false g =
      (.ok (.made g.cells.size c), (g.instantiate c false).2) := rfl
  rw [withIdentifiers_eq, Stateful.bind_of_ok hmade] at h
  obtain ⟨_, g₁, hassigned, hpure⟩ := Stateful.bind_eq_ok h
  cases hpure
  have hbare : (RecordRef.made g.cells.size c).Bare (g.instantiate c false).2 :=
    ⟨rfl, ⟨_, g.cell?_instantiate_self c false, rfl⟩, fun name own hown => by
      rw [Graph.own?_instantiate_self] at hown
      cases hown⟩
  obtain ⟨hbare', hvalues⟩ :=
    forM_assignIdentifier (c := c) hd hdistinct hdefined rfl hsanitized hbare hassigned
  refine ⟨rfl, hbare', fun name => ?_⟩
  rw [hvalues, Graph.value?, Graph.own?_instantiate_self]
  exact Option.or_none

/-- Identifiers that are accepted are assigned. -/
theorem withIdentifiers_of_check {identifiers : Object}
    (haccepted : ∀ entry ∈ identifiers, ∃ a, (d.definition c).attribute? entry.1 = some a ∧
      a.role.isIdentifier = true ∧
        a.type.check (d.site c entry.1) (a.type.sanitize entry.2) = .ok ()) (g : Graph) :
    ∃ r g', withIdentifiers d c identifiers g = (.ok r, g') := by
  have hmade : instantiate c false g =
      (.ok (.made g.cells.size c), (g.instantiate c false).2) := rfl
  obtain ⟨g', hassigned, -⟩ : ∃ g', identifiers.forM (assignIdentifier d c (.made g.cells.size c))
      (g.instantiate c false).2 = (.ok (), g') ∧ True := by
    refine Stateful.forM_succeeds (fun entry hentry g₁ _ => ?_) trivial
    obtain ⟨a, ha, hrole, hcheck⟩ := haccepted entry hentry
    rw [assignIdentifier, Stateful.bind_of_ok (ofExcept_of_ok (attributeNamed_of_some ha) g₁),
      if_pos hrole]
    exact ⟨_, set_of_check ha hcheck g₁, trivial⟩
  refine ⟨.made g.cells.size c, g', ?_⟩
  rw [withIdentifiers_eq, Stateful.bind_of_ok hmade, Stateful.bind_of_ok hassigned]
  rfl

theorem withIdentifiers_never (fault : StoreFault) (identifiers : Object) :
    Never (.store fault) (withIdentifiers d c identifiers) := by
  have hofStore : (Error.store fault).OfStore := trivial
  rw [withIdentifiers_eq]
  refine .bind (fun g h => by cases h) fun r => (Never.forM fun entry _ => ?_).bind fun _ => .pure _
  refine (attributeNamed_never hofStore c _).bind fun a => ?_
  split
  · exact (attributeNamed_never hofStore _ _).bind fun a => setFrom_never hofStore _ _
  · exact .throw nofun

/-- Restating the sources of a record that holds nothing but keys leaves its values. -/
theorem setSources_bare (hr : r.Bare g) (source : Source) (s : Selector) :
    ∃ g', setSources d source r s g = (.ok (), g') ∧ r.Bare g' ∧
      ∀ name, g'.value? r name = g.value? r name := by
  have hsteps : stepsFor s g = (.ok (g.cells.size + s.depth + 2), g) := rfl
  rw [setSources, Stateful.bind_of_ok hsteps, setSourcesWithin]
  refine Stateful.forM_succeeds (P := fun g' => r.Bare g' ∧ ∀ name, g'.value? r name = g.value? r name)
    (fun a _ g₁ ⟨hbare, hvalues⟩ => ?_) ⟨hr, fun _ => rfl⟩
  have hslot : lift (r.slot? a.name) g₁ = (.ok (g₁.own? r a.name).join, g₁) := by
    rw [lift, RecordRef.slot?_made hbare.made]
  split
  · exact ⟨g₁, rfl, hbare, hvalues⟩
  · rw [Stateful.bind_of_ok hslot]
    cases hown : g₁.own? r a.name with
    | none => exact ⟨g₁, rfl, hbare, hvalues⟩
    | some own =>
      obtain ⟨slot, rfl, hkey⟩ := hbare.keys a.name own hown
      have hnone : slot.value.records = [] := by
        rcases hkey with ⟨text, hv⟩ | ⟨x, hv⟩ <;> rw [hv] <;> rfl
      refine ⟨g₁.write r a.name (some ⟨slot.value, source⟩), ?_, hbare.write hkey a.name source,
        fun name => ?_⟩
      · rw [Option.join_some]
        dsimp only
        rw [hnone]
        rfl
      · rw [hbare.value?_write, ← hvalues]
        split
        · next heq =>
          subst heq
          exact (Graph.value?_eq_some_iff.2 ⟨slot.source, hown⟩).symm
        · rfl

end Record

/-! ### Identifiers of documents -/

namespace Document

variable {document : Document}

/-- Sanitizing leaves the identifiers of a document as they are, and none of them is NaN. -/
def Findable (d : Directory) (c : ClassRef) (document : Document) : Prop :=
  ∀ a ∈ (d.definition c).identifiers, ∀ v, Fields.get? a.name document = some v →
    a.type.sanitize v = v ∧ v.beq v = true

/-- The identifiers of a document are values of the types of their attributes. -/
def Accepted (d : Directory) (c : ClassRef) (document : Document) : Prop :=
  ∀ a ∈ (d.definition c).identifiers, ∀ v, Fields.get? a.name document = some v →
    ∀ site, a.type.check site v = .ok ()

/-- A document has the primary identifier of its class, whose name is not that of the tag. -/
def HasPrimary (d : Directory) (c : ClassRef) (document : Document) : Prop :=
  ∃ a, (d.definition c).primary? = some a ∧ a.name ≠ Tree.classTag ∧ a.name ∈ Fields.keys document

/-- Of these documents, no other has the first identifier of a document. -/
def Singled (d : Directory) (c : ClassRef) (documents : List Document) (document : Document) : Prop :=
  ∀ identifier, (Store.identifiersIn d c document).head? = some identifier →
    ∀ other ∈ documents, Collection.holds other [identifier] = true → other = document

end Document

theorem Definition.nodup_identifiers {definition : Definition}
    (h : (definition.attributeList.map Attribute.name).Nodup) :
    (definition.identifiers.map Attribute.name).Nodup := by
  have hrole : definition.identifiers.Nodup := by
    refine List.nodup_append.2 ⟨?_, (h.of_map _).filter _, fun a ha b hb heq => ?_⟩
    · cases definition.primary? <;> simp
    · subst heq
      have hprimary := List.find?_some (Option.mem_toList.1 ha)
      have hsecondary := (List.mem_filter.1 hb).2
      simp only [beq_iff_eq] at hprimary hsecondary
      rw [hprimary] at hsecondary
      cases hsecondary
  refine hrole.map_on fun a ha b hb heq => ?_
  exact List.inj_on_of_nodup_map h (Definition.mem_attributeList_of_identifier ha)
    (Definition.mem_attributeList_of_identifier hb) heq

namespace Store

variable {document : Document}

theorem mem_identifiersIn {entry : String × Value} : entry ∈ identifiersIn d c document ↔
    ∃ a ∈ (d.definition c).identifiers, a.name = entry.1 ∧
      Fields.get? a.name document = some entry.2 ∧ entry.2 ≠ .undefined := by
  obtain ⟨name, v⟩ := entry
  rw [identifiersIn, List.mem_filterMap]
  refine exists_congr fun a => and_congr_right fun _ => ?_
  cases Fields.get? a.name document with
  | none => simp
  | some w => cases w <;> simp <;> grind

theorem distinct_identifiersIn (hd : d.Lawful) :
    Fields.Distinct (identifiersIn d c document) := by
  have hnodup := Definition.nodup_identifiers (hd.definition c).names_nodup
  refine List.Nodup.sublist ?_ hnodup
  rw [Fields.keys, identifiersIn, List.map_filterMap, ← List.filterMap_eq_map]
  generalize (d.definition c).identifiers = identifiers
  induction identifiers with
  | nil => exact .slnil
  | cons a rest ih =>
    rw [List.filterMap_cons, List.filterMap_cons]
    split
    · exact ih.cons _
    · next name hname =>
      obtain ⟨entry, hentry, rfl⟩ := Option.map_eq_some_iff.1 hname
      have hsame : entry.1 = a.name := by
        split at hentry <;> cases hentry
        rfl
      rw [hsame]
      exact ih.cons_cons _

theorem get?_identifiersIn (hd : d.Lawful) {a : Attribute} (ha : a ∈ (d.definition c).identifiers)
    {v : Value} : Fields.get? a.name (identifiersIn d c document) = some v ↔
      Fields.get? a.name document = some v ∧ v ≠ .undefined := by
  constructor
  · intro h
    obtain ⟨b, -, hb, hv, hdefined⟩ := mem_identifiersIn.1 (Fields.mem_of_get? h)
    exact ⟨(show b.name = a.name from hb) ▸ hv, hdefined⟩
  · rintro ⟨hv, hdefined⟩
    exact Fields.get?_of_mem (distinct_identifiersIn hd) (mem_identifiersIn.2 ⟨a, ha, rfl, hv, hdefined⟩)

/-- The projection of a search leaves the identifiers. -/
theorem identifiersIn_project (hnamed : d.NamesProperly) : identifiersIn d c
      (Document.project document (Projection.ofSelector? (d.definition c).identifierSelector)) =
    identifiersIn d c document := by
  unfold identifiersIn
  refine List.filterMap_congr fun a ha => ?_
  have htakes : (d.definition c).identifierSelector.Takes a.name :=
    Selector.takes_of_get (Selector.get_ofNames_of_mem (List.mem_map_of_mem ha))
  have hname := hnamed c a (Definition.mem_attributeList_of_identifier ha)
  rw [show Fields.get? a.name (Document.project document
      (Projection.ofSelector? (d.definition c).identifierSelector)) = Fields.get? a.name document from
    Selector.get?_project_of_takes htakes hname document]

/-! ### Records of documents -/

/-- A record holds the identifiers that a document has, and no other. -/
def Carries (d : Directory) (c : ClassRef) (document : Document) (g : Graph) (r : RecordRef) : Prop :=
  ∀ a ∈ (d.definition c).identifiers, ∀ v, v ≠ .undefined →
    (g.seen? r a.name = some v ↔ Fields.get? a.name document = some v)

/-- A record that has the identifiers of a document is described by the first of them. -/
theorem Carries.identifier? (h : Carries d r.cls document g r) :
    g.identifier? d r = (identifiersIn d r.cls document).head? := by
  rw [Graph.identifier?, identifiersIn, ← List.head?_filterMap]
  refine congrArg List.head? (List.filterMap_congr fun a ha => ?_)
  have hsame := h a ha
  cases hseen : g.seen? r a.name <;> cases hread : Fields.get? a.name document <;> grind

/-- The first identifier of a document describes it. -/
theorem holds_of_head? (hfindable : document.Findable d c) {identifier : String × Value}
    (hidentifier : (identifiersIn d c document).head? = some identifier) :
    Collection.holds document [identifier] = true := by
  obtain ⟨a, ha, hname, hread, -⟩ := mem_identifiersIn.1 (List.mem_of_head? hidentifier)
  have hsame := (hfindable a ha _ hread).2
  simp [Collection.holds, ← hname, hread, hsame]

theorem stored?_of_holds {s : Store} {descriptor : Object} (hne : descriptor ≠ [])
    (hdocument : document ∈ s.database.documents (s.collectionName c))
    (hholds : Collection.holds document descriptor = true) :
    ∃ first, s.stored? c descriptor = some first ∧
      first ∈ s.database.documents (s.collectionName c) ∧
      Collection.holds first descriptor = true := by
  cases hstored : s.stored? c descriptor with
  | some first => exact ⟨first, rfl, stored?_eq_some hstored⟩
  | none =>
    cases hposition : (s.database.collection (s.collectionName c)).position? descriptor with
    | none =>
      have hnot := Collection.holds_eq_false hne hposition hdocument
      rw [hholds] at hnot
      cases hnot
    | some i =>
      obtain ⟨first, hfirst, -⟩ := Collection.position?_eq_some hposition
      rw [stored?, hposition] at hstored
      exact absurd (hfirst.symm.trans hstored) (by simp)

/-- A document that alone has its first identifier is the one that is read for it. -/
theorem stored?_of_singled {s : Store}
    (hdocument : document ∈ s.database.documents (s.collectionName c))
    (hfindable : document.Findable d c)
    (hsingled : document.Singled d c (s.database.documents (s.collectionName c)))
    {identifier : String × Value}
    (hidentifier : (identifiersIn d c document).head? = some identifier) :
    s.stored? c [identifier] = some document := by
  obtain ⟨first, hstored, hfirst, hholds⟩ :=
    stored?_of_holds (by simp) hdocument (holds_of_head? hfindable hidentifier)
  rw [hstored, hsingled identifier hidentifier first hfirst hholds]

/-- No other document of a class has the primary identifier of a document. -/
theorem singled_of_hasPrimary {s : Store} (hkept : s.Kept d) (hc : d.Inherits c)
    (hregistered : s.isRegistered c = true)
    (hdocument : document ∈ s.database.documents (s.collectionName c))
    (hprimary : document.HasPrimary d c) :
    document.Singled d c (s.database.documents (s.collectionName c)) := by
  intro identifier hidentifier other hother hholds
  obtain ⟨p, hp, htag, hmem⟩ := hprimary
  obtain ⟨v, hv⟩ := Fields.mem_keys_iff.1 hmem
  have hshaped := hkept.shaped_of_registered hc hregistered document hdocument
  have hdefined := hshaped.concrete.ne_undefined hv
  -- The primary identifier comes first.
  have hfirst : (identifiersIn d c document).head? = some (p.name, v) := by
    rw [identifiersIn, Definition.identifiers, hp, Option.toList_some, List.singleton_append,
      List.filterMap_cons, hv]
    cases v with
    | undefined => exact absurd rfl hdefined
    | _ => rfl
  obtain rfl := Option.some.inj (hidentifier.symm.trans hfirst)
  by_contra hne
  have hunique := hkept.unique_of_registered hc hregistered p hp htag
  obtain ⟨u, hu, hequal⟩ := Collection.holds_singleton hholds
  have : Std.Symm (Document.Differ p.name) := ⟨fun _ _ h => h.symm⟩
  have hdiffer := hunique.forall hother hdocument hne
  rw [(hdiffer u v hu hv).1] at hequal
  cases hequal

/-- The record that is made of a document has its identifiers, and nothing else. -/
theorem carries_of_identified (hd : d.Lawful) (hnamed : d.NamesProperly)
    (hfindable : document.Findable d c) {g₁ : Graph} {s : Selector}
    (hmade : Record.withIdentifiers d c (identifiersIn d c
      (Document.project document (Projection.ofSelector? (d.definition c).identifierSelector))) g =
        (.ok r, g₁)) :
    r.cls = c ∧ ∃ g', Record.setSources d .store r s g₁ = (.ok (), g') ∧ r.Bare g' ∧
      Carries d c document g' r := by
  rw [identifiersIn_project hnamed] at hmade
  have hsanitized : ∀ entry ∈ identifiersIn d c document, ∀ a,
      (d.definition c).attribute? entry.1 = some a → a.type.sanitize entry.2 = entry.2 := by
    intro entry hentry a ha
    obtain ⟨b, hb, hname, hread, -⟩ := mem_identifiersIn.1 hentry
    have hattribute :=
      (hd.definition c).attribute?_of_mem (Definition.mem_attributeList_of_identifier hb)
    rw [← hname, hattribute] at ha
    cases ha
    exact (hfindable _ hb entry.2 hread).1
  obtain ⟨hcls, hbare, hvalues⟩ := Record.withIdentifiers_eq_ok hd (distinct_identifiersIn hd)
    (fun entry hentry => (mem_identifiersIn.1 hentry).choose_spec.2.2.2) hsanitized hmade
  obtain ⟨g', hsources, hbare', hsame⟩ := Record.setSources_bare (d := d) hbare .store s
  refine ⟨hcls, g', hsources, hbare', fun a ha v hdefined => ?_⟩
  rw [seen?_made hbare'.made, hsame, hvalues, get?_identifiersIn hd ha]
  exact and_iff_left hdefined

/-- A load leaves a record the identifiers of the document that it reads for it. -/
theorem Carries.loaded (hd : d.Lawful) (hnamed : d.NamesProperly) {S S' : Session}
    (htrees : S.store.Trees) (hshaped : document.Shaped d c) (hr : r.Bare S.graph)
    (hcarries : Carries d r.cls document S.graph r)
    (hstored : ∀ identifier, S.graph.identifier? d r = some identifier →
      S.store.stored? r.cls [identifier] = some document)
    {steps : Nat} {asked : Selector} {visited : Visited}
    (h : loadWithin d (steps + 1) r asked true [] S = (.ok (true, visited), S')) :
    Carries d r.cls document S'.graph r := by
  have hplain : ∀ a ∈ d.attributes r.cls, a.name = Tree.classTag ∨ a.name = Tree.newTag →
      ∀ v, S.graph.value? r a.name = some v → v.records = [] := by
    intro a _ _ v hv
    rcases hr.isKey hv with ⟨text, rfl⟩ | ⟨x, rfl⟩ <;> rfl
  obtain ⟨s, picked, S₁, hloaded⟩ :=
    loadWithin_fills hd hr.sound rfl hr.made hr.calm htrees hplain h
  obtain ⟨identifier, document', hidentifier, hread, hpicked⟩ := hloaded.read
  obtain rfl := Option.some.inj ((hstored identifier hidentifier).symm.trans hread)
  rcases hselector : readSelector d r asked S.graph with ⟨selected, g₁⟩
  have hselected := hloaded.selected
  rw [hselector] at hselected
  obtain rfl : selected = .ok s := hselected
  obtain ⟨fields, rfl, -⟩ := readSelector_chosen hd hr.made hr.calm hselector
  intro a ha v hdefined
  have htakes := readSelector_takes hd hr.made ha hselector
  have hmem : a.name ∈ Fields.keys fields := List.mem_map_of_mem (f := Prod.fst) htakes
  rw [seen?_made hr.made]
  cases hv : Fields.get? a.name document with
  | none =>
    have hgone : Fields.get? a.name picked = none := by
      rw [Selector.pick_object] at hpicked
      cases hpicked
      exact Document.get?_selected_eq_none hv
    have hattribute :=
      (hd.definition r.cls).attribute?_of_mem (Definition.mem_attributeList_of_identifier ha)
    rw [Graph.value?, hloaded.fills.missing a.name hmem hgone a hattribute, missingSlot]
    split
    · simpa using Ne.symm hdefined
    · simp
  | some w =>
    have hwDefined := hshaped.concrete.ne_undefined hv
    have hseen := (hcarries a ha w hwDefined).2 hv
    rw [seen?_made hr.made] at hseen
    have hkey := hr.isKey hseen
    have hname := hnamed r.cls a (Definition.mem_attributeList_of_identifier ha)
    obtain ⟨picked', hpicked', hpresent, hentries, -⟩ :=
      htakes.pick_project hname hshaped.distinct hv hkey
    obtain rfl := Value.object.inj (hpicked.symm.trans hpicked')
    obtain ⟨t, ht⟩ := Fields.mem_keys_iff.1 hpresent
    obtain rfl := hentries t (Fields.mem_of_get? ht)
    by_cases htag : a.name = Tree.classTag ∨ a.name = Tree.newTag
    · rw [Graph.value?_congr (hloaded.fills.tagged a.name htag (by simp [ht])), hseen]
    · obtain ⟨hclass, hnew⟩ := not_or.1 htag
      obtain ⟨t', hown, _, _, -, hdecode, -⟩ := hloaded.fills.assigned a.name hmem hclass hnew t ht
      rw [Record.decode_leaf (Value.isLeaf_of_isKey hkey)] at hdecode
      cases hdecode
      rw [Graph.value?_eq_some_iff.2 ⟨.store, hown⟩]

/-! ### Documents that were found -/

/-- What was made of a document that was found. A load reads the first document with the first identifier,
which is this one if it has its primary identifier, or if no other has the identifier. -/
structure Represents (d : Directory) (c : ClassRef) (s : Selector) (documents : List Document)
    (document : Document) (g : Graph) (r : RecordRef) : Prop where
  cls : r.cls = c
  made : r.base? = none
  bounded : r.serial < g.cells.size
  carries : s.isNone = true ∨ document.HasPrimary d c ∨ document.Singled d c documents →
    Carries d c document g r

theorem Represents.leaves {s : Selector} {documents : List Document}
    (h : Represents d c s documents document g r) (hleaves : Leaves (fun _ => True) g g') :
    Represents d c s documents document g' r where
  cls := h.cls
  made := h.made
  bounded := h.bounded.trans_le hleaves.size
  carries hread a ha v hdefined := by
    rw [seen?_congr_made h.made (hleaves.own? h.bounded trivial a.name)]
    exact h.carries hread a ha v hdefined

/-- Making a record of a document changes no record that there was. -/
theorem foundRecord_leaves (hd : d.Lawful) (hcoherent : d.Coherent) (hc : d.Inherits c) {S S' : Session}
    (htrees : S.store.Trees) {s : Selector} {result : Except Error RecordRef}
    (h : foundRecord d c s document S = (result, S')) :
    Leaves (fun _ => True) S.graph S'.graph ∧ S.store.Alike S'.store ∧
      ∀ r, result = .ok r → r.serial < S'.graph.cells.size := by
  have hI := Graph.enclosed_allowsWriting hd S.graph.cells.size S.graph.cells.size S.graph
  have hJ := alike_allowsLoading htrees hcoherent
  have hstart : Graph.Enclosed d S.graph.cells.size S.graph.cells.size S.graph ∅ S.graph :=
    ⟨⟨.refl _ _, nofun, nofun⟩, .empty d S.graph⟩
  obtain ⟨after, -, ⟨⟨hbeside, htyped⟩, halike⟩, hresult⟩ :=
    (keepsIn_foundRecord hI hJ hd hc s document).of_run subset_rfl ⟨hstart, .refl S.store⟩ h
  exact ⟨hbeside.kept.imp fun n _ => by omega, halike,
    fun r hr => htyped.sound.bounded r (hresult r hr)⟩

/-- A registered class, and the documents of its collection. -/
structure Searched (d : Directory) (c : ClassRef) (documents : List Document) (s : Store) : Prop where
  kept : s.Kept d
  registered : s.isRegistered c = true
  documents : s.database.documents (s.collectionName c) = documents

theorem Searched.alike {documents : List Document} {s s' : Store} (h : Searched d c documents s)
    (halike : s.Alike s') : Searched d c documents s' := by
  refine ⟨h.kept.alike halike, (halike.isRegistered_eq c).trans h.registered, ?_⟩
  obtain ⟨trace, journal, rfl⟩ := halike
  exact h.documents

section

variable (hd : d.Lawful) (hnamed : d.NamesProperly) (hfindable : document.Findable d c) {s : Selector}
  {S S' : Session}

/-- A document as a search gives it, with no more than its identifiers. -/
abbrev projected (d : Directory) (c : ClassRef) (document : Document) : Document :=
  Document.project document (Projection.ofSelector? (d.definition c).identifierSelector)

include hd hnamed hfindable

/-- A record that was made of a document has its identifiers before more is loaded. -/
theorem foundRecord_cases {result : Except Error RecordRef}
    (h : foundRecord d c s (projected d c document) S = (result, S')) :
    (∃ e, result = .error e ∧ ∀ fault, e ≠ .store fault) ∨ ∃ r g, r.cls = c ∧ r.Bare g ∧
      Carries d c document g r ∧ (if s.isNone then pure r else do
        let _ ← loadWithin d (← loadSteps) r s true []
        pure r : StoreAction RecordRef) { S with graph := g } = (result, S') := by
  unfold foundRecord at h
  rcases hmade : onRecords (Record.withIdentifiers d c (identifiersIn d c (projected d c document))) S
    with ⟨made, S₁⟩
  obtain ⟨g₁, hwith, rfl⟩ := onRecords_eq hmade
  cases made with
  | error e =>
    rw [Stateful.bind_of_error hmade] at h
    cases h
    refine .inl ⟨e, rfl, fun fault heq => ?_⟩
    exact Record.withIdentifiers_never fault _ S.graph
      (heq ▸ congrArg Prod.fst hwith)
  | ok r =>
    obtain ⟨hcls, g₂, hsources, hbare, hcarries⟩ := carries_of_identified
      (s := (d.definition c).identifierSelector) hd hnamed hfindable hwith
    rw [Stateful.bind_of_ok hmade, Stateful.bind_of_ok (onRecords_of_ok hsources)] at h
    exact .inr ⟨r, g₂, hcls, hbare, hcarries, h⟩

/-- If nothing more is loaded, a record is made of every document whose identifiers are accepted. -/
theorem foundRecord_of_accepted (hnone : s.isNone = true) (haccepted : document.Accepted d c) :
    ∃ r S', foundRecord d c s (projected d c document) S = (.ok r, S') := by
  have hchecked : ∀ entry ∈ identifiersIn d c (projected d c document), ∃ a,
      (d.definition c).attribute? entry.1 = some a ∧ a.role.isIdentifier = true ∧
        a.type.check (d.site c entry.1) (a.type.sanitize entry.2) = .ok () := by
    intro entry hentry
    rw [identifiersIn_project hnamed] at hentry
    obtain ⟨a, ha, hname, hread, -⟩ := mem_identifiersIn.1 hentry
    refine ⟨a, ?_, Definition.isIdentifier_of_mem_identifiers ha, ?_⟩
    · rw [← hname]
      exact (hd.definition c).attribute?_of_mem (Definition.mem_attributeList_of_identifier ha)
    · rw [(hfindable a ha _ hread).1]
      exact haccepted a ha _ hread _
  obtain ⟨r, g₁, hwith⟩ := Record.withIdentifiers_of_check hchecked S.graph
  obtain ⟨-, g₂, hsources, -⟩ := carries_of_identified
    (s := (d.definition c).identifierSelector) hd hnamed hfindable hwith
  refine ⟨r, { S with graph := g₂ }, ?_⟩
  unfold foundRecord
  rw [Stateful.bind_of_ok (onRecords_of_ok hwith), Stateful.bind_of_ok (onRecords_of_ok hsources),
    if_pos hnone]
  rfl

variable {documents : List Document} (hcoherent : d.Coherent) (hc : d.Inherits c)
  (hS : Searched d c documents S.store) (hdocument : document ∈ documents)

include hcoherent hc hS hdocument

/-- What is made of a document is a record of it. No document is missing. -/
theorem foundRecord_represents {result : Except Error RecordRef}
    (h : foundRecord d c s (projected d c document) S = (result, S')) :
    (∀ r, result = .ok r → Represents d c s documents document S'.graph r) ∧
      ∀ fault, result ≠ .error (.store fault) := by
  obtain ⟨hkept, hregistered, rfl⟩ := hS
  obtain ⟨-, -, hbounded⟩ := foundRecord_leaves hd hcoherent hc hkept.trees h
  rcases foundRecord_cases hd hnamed hfindable h with ⟨e, rfl, hother⟩ | ⟨r, g, rfl, hbare, hcarries, h⟩
  · exact ⟨nofun, fun fault heq => hother fault (Except.error.inj heq)⟩
  split at h
  · cases h
    refine ⟨fun r' hr' => ?_, nofun⟩
    obtain rfl := Except.ok.inj hr'
    exact ⟨rfl, hbare.made, hbounded _ rfl, fun _ => hcarries⟩
  · next hsome =>
    rw [Stateful.bind_of_ok (loadSteps_eq _)] at h
    rcases hload : loadWithin d ((handles S.store.database).length + 2) r s true []
      { S with graph := g } with ⟨loaded, T⟩
    cases loaded with
    | error e =>
      rw [Stateful.bind_of_error hload] at h
      cases h
      refine ⟨nofun, fun fault heq => ?_⟩
      obtain rfl := Except.error.inj heq
      obtain ⟨identifier, hidentifier, hmissing⟩ := stored?_of_loadWithin hbare.made hload
      rw [hcarries.identifier?] at hidentifier
      obtain ⟨first, hstored, -⟩ := stored?_of_holds (s := S.store) (by simp) hdocument
        (holds_of_head? hfindable hidentifier)
      cases hstored.symm.trans hmissing
    | ok loaded =>
      obtain ⟨found, visited⟩ := loaded
      rw [Stateful.bind_of_ok hload] at h
      cases h
      obtain rfl := loadWithin_found hload
      refine ⟨fun r' hr' => ?_, nofun⟩
      obtain rfl := Except.ok.inj hr'
      refine ⟨rfl, hbare.made, hbounded _ rfl, fun hread => ?_⟩
      have hsingled := (hread.resolve_left hsome).elim
        (singled_of_hasPrimary hkept hc hregistered hdocument) id
      refine hcarries.loaded hd hnamed (S := { S with graph := g }) hkept.trees
        (hkept.shaped_of_registered hc hregistered document hdocument) hbare
        (fun identifier hidentifier => ?_) hload
      rw [hcarries.identifier?] at hidentifier
      exact stored?_of_singled hdocument hfindable hsingled hidentifier

end

/-! ### All documents that were found -/

section

variable (hd : d.Lawful) (hnamed : d.NamesProperly) {s : Selector} {documents found : List Document}
  (hfound : ∀ document ∈ found, document ∈ documents ∧ document.Findable d c)

include hd hnamed hfound

/-- Records are made of one document after another, and no later one changes an earlier one. -/
theorem mapM_foundRecord (hcoherent : d.Coherent) (hc : d.Inherits c) {S S' : Session}
    (hS : Searched d c documents S.store) {result : Except Error (List RecordRef)}
    (h : (found.map (projected d c)).mapM (foundRecord d c s) S = (result, S')) :
    Leaves (fun _ => True) S.graph S'.graph ∧
      (∀ rs, result = .ok rs →
        List.Forall₂ (fun document r => Represents d c s documents document S'.graph r) found rs) ∧
      ∀ fault, result ≠ .error (.store fault) := by
  induction found generalizing S S' result with
  | nil =>
    cases h
    refine ⟨.refl _ _, fun rs hrs => ?_, nofun⟩
    cases hrs
    exact .nil
  | cons document rest ih =>
    obtain ⟨⟨hdocument, hfindable⟩, hrest⟩ := List.forall_mem_cons.1 hfound
    rw [List.map_cons, List.mapM_cons] at h
    rcases hfirst : foundRecord d c s (projected d c document) S with ⟨made, S₁⟩
    obtain ⟨hleaves, halike, -⟩ := foundRecord_leaves hd hcoherent hc hS.kept.trees hfirst
    obtain ⟨hrepresents, hfaultless⟩ :=
      foundRecord_represents hd hnamed hfindable hcoherent hc hS hdocument hfirst
    cases made with
    | error e =>
      rw [Stateful.bind_of_error hfirst] at h
      cases h
      exact ⟨hleaves, nofun, fun fault heq => hfaultless fault (by rw [Except.error.inj heq])⟩
    | ok r =>
      rw [Stateful.bind_of_ok hfirst] at h
      rcases hlater : (rest.map (projected d c)).mapM (foundRecord d c s) S₁ with ⟨later, S₂⟩
      obtain ⟨hleaves', hrepresents', hfaultless'⟩ := ih hrest (hS.alike halike) hlater
      cases later with
      | error e =>
        rw [Stateful.bind_of_error hlater] at h
        cases h
        exact ⟨hleaves.trans hleaves', nofun,
          fun fault heq => hfaultless' fault (by rw [Except.error.inj heq])⟩
      | ok rs =>
        rw [Stateful.bind_of_ok hlater] at h
        cases h
        refine ⟨hleaves.trans hleaves', fun rs' hrs => ?_, nofun⟩
        obtain rfl := Except.ok.inj hrs
        exact .cons ((hrepresents r rfl).leaves hleaves') (hrepresents' rs rfl)

/-- If nothing more is loaded, records are made of all documents whose identifiers are accepted. -/
theorem mapM_foundRecord_of_accepted (hnone : s.isNone = true)
    (haccepted : ∀ document ∈ found, document.Accepted d c) (S : Session) :
    ∃ rs S', (found.map (projected d c)).mapM (foundRecord d c s) S = (.ok rs, S') := by
  induction found generalizing S with
  | nil => exact ⟨[], S, rfl⟩
  | cons document rest ih =>
    obtain ⟨⟨-, hfindable⟩, hrest⟩ := List.forall_mem_cons.1 hfound
    obtain ⟨hhere, haccepted⟩ := List.forall_mem_cons.1 haccepted
    obtain ⟨r, S₁, hfirst⟩ := foundRecord_of_accepted (S := S) hd hnamed hfindable hnone hhere
    obtain ⟨rs, S₂, hlater⟩ := ih hrest haccepted S₁
    refine ⟨r :: rs, S₂, ?_⟩
    rw [List.map_cons, List.mapM_cons, Stateful.bind_of_ok hfirst, Stateful.bind_of_ok hlater]
    rfl

end

end Store

end TypedRecords
