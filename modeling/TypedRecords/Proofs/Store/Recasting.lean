import TypedRecords.Proofs.Document.Parts
import TypedRecords.Proofs.Record.Recast
import TypedRecords.Proofs.Store.Loading

/-! # Loading as an instance of a forked class

A load reads the same documents into a record whether it is an instance of a class or of a fork that stands
in for it. What it assigns is accepted alike, as long as the stored documents hold nothing, in the
attributes that name the class itself, that the fork does not take.
-/

namespace TypedRecords

variable {d : Directory} {fork base : ClassRef} {registry : RegistryRef} {r : RecordRef}

namespace Tree

/-- The classes that are compared in a part of a tree are compared in the tree. -/
theorem compared_outline_part {v w : Value} (h : w.PartOf v) (t : ValueType) :
    t.compared (outline d registry w) ⊆ t.compared (outline d registry v) := by
  induction h generalizing t with
  | nothing v =>
    have hnone : t.compared .undefined = [] := ValueType.compared_of_not_isSubstantial t rfl
    rw [show outline d registry .undefined = .undefined from rfl, hnone]
    exact List.nil_subset _
  | whole v => exact List.Subset.refl _
  | array whence hmem _ ih =>
    simp only [outline, outlineItems_eq_map]
    cases t with
    | array item traits =>
      intro c hc
      simp only [ValueType.compared, List.flatMap_map, List.mem_flatMap] at hc ⊢
      obtain ⟨w, hw, hc⟩ := hc
      exact ⟨whence w, hmem w hw, ih w hw item hc⟩
    | scalar kind traits => exact List.nil_subset _
    | reference name toClass traits => cases toClass <;> exact List.nil_subset _
  | @object fields part whence _ _ htag _ =>
    have hempty : t.compared (.object []) = [] := by
      cases t with
      | reference name toClass traits => cases toClass <;> rfl
      | _ => rfl
    cases hget : Fields.get? classTag part with
    | none =>
      simp only [outline, hget, hempty]
      exact List.nil_subset _
    | some tag =>
      cases tag with
      | string text =>
        simp only [outline, hget, htag text hget]
        exact List.Subset.refl _
      | _ =>
        simp only [outline, hget, hempty]
        exact List.nil_subset _

theorem FieldsWithin.part {c : ClassRef} {fields part : Object} (h : FieldsWithin d registry c fields)
    (hpart : (Value.object part).PartOf (.object fields)) : FieldsWithin d registry c part := by
  intro entry hentry hclass hnew a ha toClass hown c hc
  obtain ⟨v, hv, hbelow⟩ := hpart.fields_of entry hentry
  exact h (entry.1, v) hv hclass hnew a ha toClass hown c (compared_outline_part hbelow a.type hc)

end Tree

namespace Store

variable {S S' : Session}

section

variable (h : d.StandsIn fork base)
include h

theorem isRegistered_standIn {s : Store} (hregistered : s.isRegistered base = true) :
    s.isRegistered fork = true := by
  simp only [isRegistered, Option.any_eq_true, h.name_eq] at hregistered ⊢
  obtain ⟨c, hc, hbase⟩ := hregistered
  exact ⟨c, hc, ClassRef.isSameOrForkOf_trans h.descends hbase⟩

theorem collectionName_standIn (s : Store) : s.collectionName fork = s.collectionName base := by
  rw [collectionName, collectionName, h.name_eq]

/-- The classes that are found within a class and within a fork of it are defined alike. -/
theorem definition_component? (hregistry : d.registryOf? fork = d.registryOf? base) (name : String) :
    (d.component? fork name).map d.definition = (d.component? base name).map d.definition := by
  by_cases hname : name = base.name
  · rw [hname, d.component?_self, ← h.name_eq, d.component?_self, Option.map_some, Option.map_some,
      h.definition]
  · rw [Directory.component?, Directory.component?, h.name_eq, if_neg hname, if_neg hname, hregistry]

theorem withReferenceIdentifiers_standIn (hregistry : d.registryOf? fork = d.registryOf? base)
    (s : Selector) : withReferenceIdentifiers d fork s = withReferenceIdentifiers d base s := by
  unfold withReferenceIdentifiers
  rw [Directory.attributes, Directory.attributes, h.definition]
  congr 1
  funext s a
  cases hsub : s.get a.name with
  | only fields =>
    cases hname : a.type.recordClass? with
    | none => rfl
    | some name =>
      have hsame := definition_component? h hregistry name
      simp only [Option.bind_some]
      cases hfork : d.component? fork name with
      | none =>
        rw [hfork, Option.map_none, eq_comm, Option.map_eq_none_iff] at hsame
        rw [hsame]
      | some other =>
        rw [hfork, Option.map_some, eq_comm, Option.map_eq_some_iff] at hsame
        obtain ⟨other', hbase, hdefinition⟩ := hsame
        simp only [hbase, hdefinition]
  | _ => rfl

theorem assignMissing_recast (hr : r.cls = base) (name : String) :
    assignMissing d (r.recast fork) name = assignMissing d r name := by
  have hnamed : d.attributeNamed fork name = d.attributeNamed base name := by
    rw [Directory.attributeNamed, Directory.attributeNamed, h.definition, h.name_eq]
  have hset : Record.setFrom d .store (r.recast fork) name .undefined =
      Record.setFrom d .store r name .undefined := by
    have hplace : (d.site fork name).place = (d.site base name).place := by
      rw [Directory.site, Directory.site, h.name_eq]
    have hcheck : Record.check d (r.recast fork) name .undefined = Record.check d r name .undefined := by
      simp only [Record.check, r.cls_recast, hr, hnamed, ValueType.check_undefined_site hplace]
    have hwrite : Record.write (r.recast fork) name .undefined .store =
        Record.write r name .undefined .store := by
      simp only [Record.write, Record.write_recast]
    simp only [Record.setFrom, hcheck, hwrite]
  have hunset : Record.unset d (r.recast fork) name = Record.unset d r name := by
    simp only [Record.unset, r.cls_recast, hr, hnamed, Record.write_recast]
  simp only [assignMissing, r.cls_recast, hr, hnamed, hset, hunset]

theorem readSelector_recast (hregistry : d.registryOf? fork = d.registryOf? base) (hr : r.cls = base)
    (s : Selector) : readSelector d (r.recast fork) s = readSelector d r s := by
  simp only [readSelector, Record.resolve_recast h hr, r.cls_recast, hr, h.definition,
    withReferenceIdentifiers_standIn h hregistry]

/-- What can be applied of a document is applied to an instance of the fork with the same effect. -/
theorem applyDocument_recast (hd : d.Lawful) (hr : r.cls = base) {s : Selector} {document : Document}
    {g g' : Graph} (hwithin : Tree.FieldsWithin d registry fork document)
    (hrun : applyDocument d registry r s document g = (.ok (), g')) :
    applyDocument d registry (r.recast fork) s document g = (.ok (), g') := by
  unfold applyDocument at hrun ⊢
  have hpart := Value.partOf_pick [Tree.classTag] s (.object document)
  cases hpick : Selector.pick [Tree.classTag] s (.object document) with
  | object picked =>
    simp only [hpick] at hrun hpart ⊢
    obtain ⟨_, g₁, hinto, hrest⟩ := Stateful.bind_eq_ok hrun
    rw [Stateful.bind_of_ok (Record.decodeInto_recast hd h hr hinto (hwithin.part hpart)),
      funext fun name => assignMissing_recast h hr name]
    have hmark : Record.mark (r.recast fork) false = Record.mark r false := by
      simp only [Record.mark, Graph.mark, Graph.modify, r.serial_recast]
    rwa [hmark]
  | _ =>
    simp only [hpick] at hrun
    cases hrun

theorem loadWithin_recast (hd : d.Lawful) (hregistry : d.registryOf? fork = d.registryOf? base)
    (hr : r.cls = base) {steps : Nat} {asked : Selector} {throwIfMissing found : Bool}
    {visited visited' : Visited}
    (hwithin : ∀ document ∈ S.store.database.documents (S.store.collectionName base),
      Tree.FieldsWithin d S.store.registry fork document)
    (hrun : loadWithin d steps r asked throwIfMissing visited S = (.ok (found, visited'), S')) :
    loadWithin d steps (r.recast fork) asked throwIfMissing visited S =
      (.ok (found, visited'), S') := by
  cases steps with
  | zero => cases hrun
  | succ steps =>
    subst hr
    have hget : ∀ S : Session, (MonadState.get : StoreAction Session) S = (.ok S, S) := fun _ => rfl
    rw [loadWithin] at hrun ⊢
    simp only [r.cls_recast, Record.descriptor_recast h rfl, readSelector_recast h hregistry rfl,
      Record.className_recast h rfl, collectionName_standIn h, r.value?_recast]
    obtain ⟨_, _, hsame, h₁⟩ := Stateful.bind_eq_ok hrun
    cases hsame
    obtain ⟨_, _, hcheck, h₂⟩ := Stateful.bind_eq_ok h₁
    obtain ⟨hregistered, rfl⟩ := check_eq_ok hcheck
    have hcheck' : check (S.store.requireRegistered fork) S = (.ok (), S) := by
      unfold requireRegistered
      rw [isRegistered_standIn h (requireRegistered_eq_ok hregistered)]
      rfl
    rw [Stateful.bind_of_ok (hget S), Stateful.bind_of_ok hcheck']
    obtain ⟨descriptor, S₁, hdescriptor, h₃⟩ := Stateful.bind_eq_ok h₂
    rw [Stateful.bind_of_ok hdescriptor, Stateful.bind_of_ok (hget S₁)]
    obtain ⟨_, _, hsame, h₄⟩ := Stateful.bind_eq_ok h₃
    cases hsame
    obtain ⟨g₁, -, rfl⟩ := onRecords_eq_ok hdescriptor
    dsimp only at h₄ ⊢
    split at h₄
    · next hvisited => rwa [if_pos hvisited]
    · next hnew =>
      rw [if_neg hnew]
      obtain ⟨s, S₂, hselector, h₅⟩ := Stateful.bind_eq_ok h₄
      rw [Stateful.bind_of_ok hselector]
      obtain ⟨g₂, -, rfl⟩ := onRecords_eq_ok hselector
      obtain ⟨answer, S₃, hcall, h₆⟩ := Stateful.bind_eq_ok h₅
      rw [Stateful.bind_of_ok hcall]
      obtain ⟨hanswer, -, trace, journal, hstore⟩ := callDocument_read_eq_ok hcall
      cases answer with
      | none => exact h₆
      | some part =>
        obtain ⟨document, hstored, rfl⟩ := Option.map_eq_some_iff.1 hanswer.symm
        dsimp only at h₆ ⊢
        obtain ⟨_, _, hsame, h₇⟩ := Stateful.bind_eq_ok h₆
        cases hsame
        obtain ⟨_, S₄, happlied, h₈⟩ := Stateful.bind_eq_ok h₇
        obtain ⟨g₃, happly, rfl⟩ := onRecords_eq_ok happlied
        have hpart : Tree.FieldsWithin d S₃.store.registry fork
            (Document.project document (Projection.ofSelector? s)) := by
          rw [hstore]
          exact (hwithin document (stored?_eq_some hstored).1).part (Value.partOf_project _ _)
        have happlied' : onRecords (applyDocument d S₃.store.registry (r.recast fork) s
            (Document.project document (Projection.ofSelector? s))) S₃ =
              (.ok (), { S₃ with graph := g₃ }) := by
          unfold onRecords
          rw [applyDocument_recast h hd rfl hpart happly]
        rw [Stateful.bind_of_ok (hget S₃), Stateful.bind_of_ok happlied']
        exact h₈

theorem load_recast (hd : d.Lawful) (hregistry : d.registryOf? fork = d.registryOf? base)
    (hr : r.cls = base) {s : Selector} {throwIfMissing : Bool} {found : Option RecordRef}
    (hwithin : ∀ document ∈ S.store.database.documents (S.store.collectionName base),
      Tree.FieldsWithin d S.store.registry fork document)
    (hload : load d r s throwIfMissing S = (.ok found, S')) :
    ∃ S₁, load d (r.recast fork) s throwIfMissing S =
        (.ok (found.map fun r => r.recast fork), S₁) ∧
      S₁.graph = S'.graph ∧ S₁.store.database = S'.store.database := by
  unfold load at hload
  obtain ⟨after, hrun, hgraph, trace, hstore⟩ := tracing_eq hload
  obtain ⟨steps, _, hsteps, hlater⟩ := Stateful.bind_eq_ok hrun
  cases hsteps
  obtain ⟨⟨isFound, visited⟩, _, hwithinSteps, hpure⟩ := Stateful.bind_eq_ok hlater
  cases hpure
  have hfork := loadWithin_recast h hd hregistry hr hwithin hwithinSteps
  unfold load
  rcases hload' : tracing "load" _ _ _ S with ⟨result, S₁⟩
  obtain ⟨after', hrun', hgraph', trace', hstore'⟩ := tracing_eq hload'
  rw [Stateful.bind_of_ok (rfl : loadSteps S = (.ok _, S)), Stateful.bind_of_ok hfork] at hrun'
  cases hrun'
  refine ⟨S₁, ?_, hgraph'.trans hgraph.symm, ?_⟩
  · cases isFound <;> rfl
  · rw [hstore', hstore]

end

end Store

end TypedRecords
