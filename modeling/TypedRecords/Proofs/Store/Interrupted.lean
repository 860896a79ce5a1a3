import TypedRecords.Proofs.Record.Halted
import TypedRecords.Proofs.Store.Choosing
import TypedRecords.Proofs.Store.Settling

/-! # Loads that fail

A load that finds no document leaves its record as it was, and so does one that fails before it applies the
document that it has read. The document is applied attribute by attribute: where that fails, the
attributes before have been assigned. What goes wrong with the records that the document refers to comes
after all of it has been applied, and does not touch the record.
-/

namespace TypedRecords

open TypedRecords.Graph (Leaves Beside)
open RecordRef (Region)
open Stateful (KeepsIn)

variable {d : Directory} {registry : RegistryRef} {r : RecordRef} {g g₁ g' : Graph} {e : Error}
  {s asked : Selector}

/-! ### Fields that bring new records -/

namespace Record

/-- What a record holds under a name lies within a region. -/
def HoldsWithin (g : Graph) (r : RecordRef) (lo hi : Nat) (name : String) : Prop :=
  ∀ v, g.value? r name = some v → v.Within (Region lo hi)

theorem decodeAttributes_confined {source : Source} {lo : Nat} (hr : r.serial < lo)
    (hlo : lo ≤ g.cells.size) {fields : Object} (hfields : ∀ entry ∈ fields, entry.2.Within ∅)
    (hg : g.Confined lo g.cells.size)
    (h : decodeAttributes d registry source r fields g = (.ok (), g')) :
    lo ≤ g'.cells.size ∧ g'.Confined lo g'.cells.size ∧
      ∀ name, HoldsWithin g r lo g.cells.size name ∨
        name ∈ Fields.keys fields ∧ ¬(name = Tree.classTag ∨ name = Tree.newTag) →
          HoldsWithin g' r lo g'.cells.size name := by
  -- The region ends where the graph does: each field moves its end up to the records that it brings.
  induction fields generalizing g with
  | nil =>
    cases h
    refine ⟨hlo, hg, fun name hname => ?_⟩
    exact hname.resolve_right fun hlisted => List.not_mem_nil hlisted.1
  | cons entry rest ih =>
    obtain ⟨name, t⟩ := entry
    obtain ⟨ht, hrest⟩ := List.forall_mem_cons.1 hfields
    by_cases htag : name = Tree.classTag ∨ name = Tree.newTag
    · rw [decodeAttributes_tag htag] at h
      obtain ⟨hlo', hconfined, hheld⟩ := ih hlo hrest hg h
      refine ⟨hlo', hconfined, fun other hother => hheld other (hother.imp_right ?_)⟩
      rintro ⟨hmem, huntagged⟩
      refine ⟨(List.mem_cons.1 hmem).resolve_left ?_, huntagged⟩
      rintro rfl
      exact huntagged htag
    · obtain ⟨hclass, hnew⟩ := not_or.1 htag
      obtain ⟨a, v, g₁, -, hv, -, hlater⟩ := decodeAttributes_cons_eq_ok hclass hnew h
      have hlaid := decode_laid ht hv
      have hleaves := decode_leaves hv
      have hsize : (g₁.write r name (some ⟨v, source⟩)).cells.size = g₁.cells.size :=
        Graph.size_modify _ _ _
      have hall : g₁.Confined lo g₁.cells.size :=
        (hg.leaves (Nat.le_refl _) hleaves fun _ _ _ => trivial).append hlaid.confined hlo hlaid.le
      have hwithin : v.Within (Region lo g₁.cells.size) := fun r' hr' =>
        Graph.region_subset hlo (Nat.le_refl _) (hlaid.mem hr')
      obtain ⟨hlo', hconfined, hheld⟩ := ih (hsize ▸ hlo.trans hleaves.size) hrest
        (hsize ▸ hall.write hwithin source) hlater
      refine ⟨hlo', hconfined, fun other hother => hheld other ?_⟩
      by_cases hlater : other ∈ Fields.keys rest ∧ ¬(other = Tree.classTag ∨ other = Tree.newTag)
      · exact .inr hlater
      · refine .inl fun w hw => ?_
        rw [hsize]
        have hr₁ : r.serial < g₁.cells.size := hr.trans_le (hlo.trans hleaves.size)
        by_cases hname : other = name
        · subst hname
          rw [Graph.value?, Graph.own?_write_self (Array.getElem?_eq_getElem hr₁)] at hw
          cases hw
          exact hwithin
        · rw [Graph.value?_congr (Graph.own?_write_of_name_ne hname g₁ r r _),
            Graph.value?_congr (hleaves.own? (hr.trans_le hlo) trivial other)] at hw
          have hbefore := hother.resolve_right fun hlisted =>
            hlater ⟨(List.mem_cons.1 hlisted.1).resolve_left hname, hlisted.2⟩
          exact (hbefore w hw).mono (Graph.region_subset (Nat.le_refl _) hleaves.size)

end Record

namespace Store

/-! ### Documents that are applied -/

/-- A document is applied in three steps, if what is picked of it is an object. -/
theorem applyDocument_steps (d : Directory) (registry : RegistryRef) (r : RecordRef) (s : Selector)
    (document : Document) :
    (∃ e, applyDocument d registry r s document = throw e) ∨
      ∃ fields, Selector.pick [Tree.classTag] s (.object document) = .object fields ∧
        applyDocument d registry r s document = (do
          Record.decodeInto d registry .store r (.object fields)
          (s.names.filter fun name => !Fields.contains name fields).forM (assignMissing d r)
          Record.mark r false) := by
  unfold applyDocument
  split
  · next fields hpick => exact .inr ⟨fields, hpick, rfl⟩
  · exact .inl ⟨_, rfl⟩

theorem decodeInto_leaves {source : Source} {fields : Object}
    (h : Record.decodeInto d registry source r (.object fields) g = (.ok (), g')) :
    Leaves (· ≠ r.serial) g g' := by
  have hmarked : Leaves (· ≠ r.serial) g (g.marked r fields) := by
    unfold Graph.marked
    split
    · exact (Leaves.refl _ g).modify (.inr fun hne => hne rfl) _
    · exact .refl _ g
  exact hmarked.trans ((Record.keeps_decodeAttributes (.inr fun hne => hne rfl) fields).of_run
    (.refl _ _) (Record.decodeInto_eq_ok_iff.1 h).2)

/-- What can go wrong when a document is applied is that one of its fields cannot be assigned. -/
theorem applyDocument_eq_error (hr : r.serial < g.cells.size)
    (hnames : ∀ name ∈ s.names, ∃ a, (d.definition r.cls).attribute? name = some a)
    {document : Document} (h : applyDocument d registry r s document g = (.error e, g')) :
    g' = g ∨ ∃ fields, Selector.pick [Tree.classTag] s (.object document) = .object fields ∧
      (∀ tag, Fields.get? Tree.classTag fields = some tag → tag = .string r.className) ∧
      Record.Halted d registry .store r fields e (g.marked r fields) g' := by
  rcases applyDocument_steps d registry r s document with ⟨e', hthrow⟩ | ⟨fields, hpick, hsteps⟩
  · rw [hthrow] at h
    cases h
    exact .inl rfl
  · rw [hsteps] at h
    rcases hdecode : Record.decodeInto d registry .store r (.object fields) g with ⟨_ | _, g₁⟩
    · rw [Stateful.bind_of_error hdecode] at h
      cases h
      refine (Record.decodeInto_eq_error hr hdecode).imp_right ?_
      rintro ⟨_, heq, hnamed, hhalted⟩
      cases heq
      exact ⟨fields, hpick, hnamed, hhalted⟩
    · -- What the document leaves out are attributes, so nothing more goes wrong.
      have hsize := (decodeInto_leaves hdecode).size
      obtain ⟨g₂, hmissing, -⟩ := forM_assignMissing (d := d) (r := r)
        (fun name hname => hnames name (List.mem_filter.1 hname).1)
        (Array.getElem?_eq_getElem (hr.trans_le hsize))
      rw [Stateful.bind_of_ok hdecode, Stateful.bind_of_ok hmissing] at h
      cases h

/-- How a document was applied to a record: what was picked of it for the names has been assigned, and
then what it leaves out. -/
structure Staged (d : Directory) (registry : RegistryRef) (r : RecordRef) (names : List String)
    (picked : Object) (g g₁ g' : Graph) : Prop where
  assigned : Record.decodeAttributes d registry .store r picked (g.marked r picked) = (.ok (), g₁)
  size : g.cells.size ≤ g₁.cells.size
  leaves : Leaves (· ≠ r.serial) g₁ g'
  kept : ∀ name, name ∉ names ∨ Fields.get? name picked ≠ none → g'.own? r name = g₁.own? r name
  missing : ∀ name ∈ names, Fields.get? name picked = none → ∀ a,
    (d.definition r.cls).attribute? name = some a → g'.own? r name = some (missingSlot a)
  isNew : g'.isNew r = false

theorem applyDocument_staged (hr : r.serial < g.cells.size)
    (hnames : ∀ name ∈ s.names, ∃ a, (d.definition r.cls).attribute? name = some a)
    {document : Document} (h : applyDocument d registry r s document g = (.ok (), g')) :
    ∃ picked g₁, Selector.pick [Tree.classTag] s (.object document) = .object picked ∧
      Staged d registry r s.names picked g g₁ g' := by
  rcases applyDocument_steps d registry r s document with ⟨e', hthrow⟩ | ⟨picked, hpick, hsteps⟩
  · rw [hthrow] at h
    cases h
  rw [hsteps] at h
  obtain ⟨_, g₁, hdecode, hrest⟩ := Stateful.bind_eq_ok h
  have hsize := (decodeInto_leaves hdecode).size
  have hfilter : ∀ name, name ∈ s.names.filter (fun name => !Fields.contains name picked) ↔
      name ∈ s.names ∧ Fields.get? name picked = none := by
    simp [Fields.contains]
  obtain ⟨g₂, hmissing, hleaves, hother, hunset⟩ :=
    forM_assignMissing (d := d) (r := r) (fun name hname => hnames name ((hfilter name).1 hname).1)
      (Array.getElem?_eq_getElem (hr.trans_le hsize))
  rw [Stateful.bind_of_ok hmissing] at hrest
  cases hrest
  refine ⟨picked, g₁, hpick, (Record.decodeInto_eq_ok_iff.1 hdecode).2, hsize, ?_, ?_, ?_, ?_⟩
  · exact hleaves.modify (.inr fun hne => hne rfl) _
  · intro name hname
    rw [Graph.own?_mark]
    refine hother name fun hmem => ?_
    obtain ⟨hlisted, hnone⟩ := (hfilter name).1 hmem
    exact hname.elim (fun hunlisted => hunlisted hlisted) fun hsome => hsome hnone
  · intro name hname hnone a ha
    rw [Graph.own?_mark]
    exact hunset name ((hfilter name).2 ⟨hname, hnone⟩) a ha
  · rw [Graph.isNew_mark, if_pos rfl, Bool.and_false]

/-- A record to which a document was applied is not new, and holds nothing under what was selected but
what was made for it. -/
theorem applyDocument_eq_ok_confined (hr : r.serial < g.cells.size)
    (hnames : ∀ name ∈ s.names, ∃ a, (d.definition r.cls).attribute? name = some a)
    {document : Document} (hdocument : (Value.object document).Within ∅)
    (h : applyDocument d registry r s document g = (.ok (), g')) :
    g'.isNew r = false ∧ ∃ hi, g.cells.size ≤ hi ∧ hi ≤ g'.cells.size ∧ g'.Confined g.cells.size hi ∧
      ∀ name ∈ s.names, ¬(name = Tree.classTag ∨ name = Tree.newTag) →
        Record.HoldsWithin g' r g.cells.size hi name := by
  obtain ⟨picked, g₁, hpick, hstaged⟩ := applyDocument_staged hr hnames h
  have hfields : ∀ entry ∈ picked, entry.2.Within ∅ := by
    have hpicked := (Value.partOf_pick [Tree.classTag] s (.object document)).within hdocument
    rw [hpick] at hpicked
    exact Value.within_object.1 hpicked
  have hstart : (g.marked r picked).Confined g.cells.size (g.marked r picked).cells.size := by
    rw [Graph.size_marked]
    exact .empty _ _
  obtain ⟨hlo, hconfined, hheld⟩ := Record.decodeAttributes_confined hr
    (Nat.le_of_eq (Graph.size_marked g r picked).symm) hfields hstart hstaged.assigned
  refine ⟨hstaged.isNew, g₁.cells.size, hlo, hstaged.leaves.size, ?_, fun name hname huntagged v hv => ?_⟩
  · exact hconfined.leaves (Nat.le_refl _) hstaged.leaves fun n hn _ => (hr.trans_le hn).ne'
  · cases hget : Fields.get? name picked with
    | some t =>
      have hpresent : Fields.get? name picked ≠ none := by simp [hget]
      rw [Graph.value?_congr (hstaged.kept name (.inr hpresent))] at hv
      exact hheld name (.inr ⟨Fields.mem_keys_iff.2 ⟨t, hget⟩, huntagged⟩) v hv
    | none =>
      obtain ⟨a, ha⟩ := hnames name hname
      rw [Graph.value?, hstaged.missing name hname hget a ha, missingSlot] at hv
      split at hv <;> cases hv
      exact fun r' hr' => by cases hr'

/-! ### Records that are followed -/

/-- What a record refers to is loaded without touching the record, if it lies apart from it. -/
theorem followNames_spares {S S' : Session} (htrees : S.store.Trees) {lo hi : Nat}
    (hmade : r.base? = none) (hr : r.serial < lo) (hlo : lo ≤ hi) (hhi : hi ≤ S.graph.cells.size)
    (hconfined : S.graph.Confined lo hi) {names : List String}
    (hheld : ∀ name ∈ names, Record.HoldsWithin S.graph r lo hi name) {steps : Nat}
    {visited : Visited} {result : Except Error Visited}
    (h : followNames d steps r s names visited S = (result, S')) : S.graph.Spares r S'.graph := by
  have hI := Graph.beside_allowsWriting d lo hi S.graph
  have hJ := alike_allowsLoading (d := d) (C := fun _ => True) htrees fun _ _ _ _ => trivial
  have hvalue : ∀ known, Region lo hi ⊆ known → ∀ name ∈ names,
      KeepsIn (Beside lo hi S.graph) known (Record.lift (r.value? name))
        fun _ v => ∀ w, v = some w → w.Within known := by
    intro known hknown name hname before _ g hg
    rw [Record.lift_value?_made hmade]
    refine ⟨before, subset_rfl, hg, ?_⟩
    rintro v hv w rfl
    have hsame : g.value? r name = S.graph.value? r name := Graph.value?_congr
      (hg.kept.own? (hr.trans_le (hlo.trans hhi)) (fun hin => by omega) name)
    refine (hheld name hname w ?_).mono hknown
    exact hsame.symm.trans (Except.ok.inj hv)
  -- What is followed stays in the region, also where a load brings more records into it.
  have hkeeps : KeepsIn (Holding (Beside lo hi S.graph) fun _ s' => S.store.Alike s') (Region lo hi)
      (followNames d steps r s names visited) fun _ _ => True := by
    refine .foldlM (fun name hname visited after hafter _ => ?_) (fun _ _ _ _ _ => trivial) trivial
    refine (keepsIn_onRecords hJ.toAllowsCalls (hvalue after hafter name hname)).bind
      fun v last hlast hv => ?_
    split
    · exact .pure fun _ _ => trivial
    · next v =>
      refine keepsIn_followRecords hI.toAllowsReading hJ.toAllowsCalls (fun known inner visited hinner => ?_) _
        ((hv v rfl).mono hlast) _
      exact (keepsIn_loadWithin hI hJ steps hinner _ false visited).bind
        fun _ _ _ _ => .pure fun _ _ => trivial
  obtain ⟨after, -, ⟨hbeside, -⟩, -⟩ :=
    hkeeps.of_run subset_rfl ⟨.start hconfined, .refl S.store⟩ h
  exact .of_leaves hbeside.kept (hr.trans_le (hlo.trans hhi)) (by omega)

/-! ### Where a load fails -/

theorem onRecords_eq {α : Type} {action : Action α} {result : Except Error α} {S S' : Session}
    (h : onRecords action S = (result, S')) :
    ∃ g, action S.graph = (result, g) ∧ S' = { S with graph := g } := by
  rcases haction : action S.graph with ⟨result', g⟩
  simp only [onRecords, haction] at h
  cases h
  exact ⟨g, rfl, rfl⟩

theorem check_eq_error {α : Type} {x : Except Error α} {S S' : Session}
    (h : check x S = (.error e, S')) : x = .error e ∧ S = S' := by
  cases x with
  | error e' =>
    cases h
    exact ⟨rfl, rfl⟩
  | ok a => cases h

theorem callDocument_graph {collection : String} {c : Call} {result : Except Error (Option Document)}
    {S S' : Session} (h : callDocument collection c S = (result, S')) : S'.graph = S.graph := by
  have hgraph : (callDocument collection c S).2.graph = S.graph := by
    refine Stateful.snd_bind (P := fun T : Session => T.graph = S.graph) (fun e T hcall => ?_)
      fun answer T hcall => ?_
    · exact (call_eq hcall).2.1
    · split <;> exact (call_eq hcall).2.1
  rwa [h] at hgraph

theorem available_of_callDocument {c : ClassRef} {descriptor : Object}
    {projection : Option Projection} {answer : Option Document} {S S' : Session}
    (h : callDocument (S.store.collectionName c) (.read descriptor projection) S =
      (.ok answer, S')) : S.store.database.available = true := by
  obtain ⟨found, S₁, hcall, -⟩ := Stateful.bind_eq_ok h
  have hanswer := (call_eq hcall).1
  rw [run_read] at hanswer
  split at hanswer
  · assumption
  · cases hanswer

/-- The document of a record, which a load can read. -/
structure Retrievable (d : Directory) (S : Session) (r : RecordRef) (document : Document) : Prop where
  registered : S.store.isRegistered r.cls = true
  available : S.store.database.available = true
  stored : ∃ identifier, S.graph.identifier? d r = some identifier ∧
    S.store.stored? r.cls [identifier] = some document

/-- A record under whose identifier a load has not read yet. -/
structure Described (d : Directory) (r : RecordRef) (visited : Visited) (S : Session)
    (identifier : String × Value) : Prop where
  registered : S.store.isRegistered r.cls = true
  identified : S.graph.identifier? d r = some identifier
  new : wasVisited visited (S.store.collectionName r.cls) [identifier] = false

/-- Where a load stops with an error, and what it leaves there. -/
inductive Stops (d : Directory) (steps : Nat) (r : RecordRef) (asked : Selector) (visited : Visited)
    (e : Error) (S : Session) : Session → Prop
  | refused (failed : S.store.requireRegistered r.cls = .error e) : Stops d steps r asked visited e S S
  | nameless (failed : e = .missingIdentifier r.className) : Stops d steps r asked visited e S S
  | unread {identifier : String × Value} {g : Graph} (described : Described d r visited S identifier)
    (failed : readSelector d r asked S.graph = (.error e, g)) :
    Stops d steps r asked visited e S { S with graph := g }
  | unanswered {identifier : String × Value} {s : Selector} {g : Graph} {S' : Session}
    (described : Described d r visited S identifier)
    (selected : readSelector d r asked S.graph = (.ok s, g))
    (failed : callDocument (S.store.collectionName r.cls)
      (.read [identifier] (Projection.ofSelector? s)) { S with graph := g } = (.error e, S')) :
    Stops d steps r asked visited e S S'
  | absent {identifier : String × Value} {s : Selector} {text : String} {S' : Session}
    (described : Described d r visited S identifier)
    (selected : readSelector d r asked S.graph = (.ok s, S'.graph))
    (stored : S.store.stored? r.cls [identifier] = none)
    (failed : e = .store (.loadMissing r.className text)) : Stops d steps r asked visited e S S'
  | unapplied {identifier : String × Value} {s : Selector} {g : Graph} {document : Document}
    {S' : Session} (described : Described d r visited S identifier)
    (selected : readSelector d r asked S.graph = (.ok s, g)) (retrievable : Retrievable d S r document)
    (failed : applyDocument d S.store.registry r s
      (Document.project document (Projection.ofSelector? s)) g = (.error e, S'.graph)) :
    Stops d steps r asked visited e S S'
  | unfollowed {identifier : String × Value} {s : Selector} {g : Graph} {document : Document}
    {S₁ S' : Session} (described : Described d r visited S identifier)
    (selected : readSelector d r asked S.graph = (.ok s, g)) (available : S.store.database.available = true)
    (stored : S.store.stored? r.cls [identifier] = some document)
    (applied : applyDocument d S.store.registry r s
      (Document.project document (Projection.ofSelector? s)) g = (.ok (), S₁.graph))
    (store : S.store.Alike S₁.store)
    (failed : followNames d steps r s s.names
      (visited ++ [(S.store.collectionName r.cls, [identifier])]) S₁ = (.error e, S')) :
    Stops d steps r asked visited e S S'

theorem loadWithin_stops (hmade : r.base? = none) {steps : Nat} {throwIfMissing : Bool}
    {visited : Visited} {S S' : Session}
    (h : loadWithin d (steps + 1) r asked throwIfMissing visited S = (.error e, S')) :
    Stops d steps r asked visited e S S' := by
  -- As a predicate of runs the statement passes every bind of the load, one stage after the other.
  let P : Except Error (Bool × Visited) × Session → Prop := fun run =>
    ∀ e, run.1 = .error e → Stops d steps r asked visited e S run.2
  suffices hP : P (loadWithin d (steps + 1) r asked throwIfMissing visited S) by
    rw [h] at hP
    exact hP e rfl
  clear h
  have hget : ∀ t : Session, (MonadState.get : StoreAction Session) t = (.ok t, t) := fun _ => rfl
  rw [loadWithin, Stateful.bind_of_ok (hget S)]
  refine Stateful.bind_cases (fun e T hcheck => ?_) fun _ T hcheck => ?_
  · rintro _ ⟨⟩
    obtain ⟨hrefused, rfl⟩ := check_eq_error hcheck
    exact .refused hrefused
  obtain ⟨hregistered, rfl⟩ := check_eq_ok hcheck
  refine Stateful.bind_cases (fun e T hdescribed => ?_) fun descriptor T hdescribed => ?_
  · rintro _ ⟨⟩
    obtain ⟨g, hdescriptor, rfl⟩ := onRecords_eq hdescribed
    rw [Record.descriptor_made hmade] at hdescriptor
    split at hdescriptor <;> cases hdescriptor
    exact .nameless rfl
  obtain ⟨g, hdescriptor, rfl⟩ := onRecords_eq hdescribed
  obtain ⟨rfl, identifier, hidentifier, rfl⟩ := Record.descriptor_eq_ok hmade hdescriptor
  rw [Stateful.bind_of_ok (hget _)]
  dsimp only
  split
  · intro _ hread
    cases hread
  next hnew =>
  have hdescribed : Described d r visited S identifier :=
    ⟨requireRegistered_eq_ok hregistered, hidentifier, Bool.not_eq_true _ ▸ hnew⟩
  refine Stateful.bind_cases (fun e T hselected => ?_) fun s T hselected => ?_
  · rintro _ ⟨⟩
    obtain ⟨g, hselector, rfl⟩ := onRecords_eq hselected
    exact .unread hdescribed hselector
  obtain ⟨g, hselector, rfl⟩ := onRecords_eq hselected
  refine Stateful.bind_cases (fun e T hread => ?_) fun found T hread => ?_
  · rintro _ ⟨⟩
    exact .unanswered hdescribed hselector hread
  obtain ⟨hfound, hsame, trace, journal, hstore⟩ := callDocument_read_eq_ok hread
  obtain rfl : g = T.graph := hsame.symm
  split
  · split
    · rintro _ ⟨⟩
      exact .absent hdescribed hselector (by simpa using hfound.symm) rfl
    · intro _ hpassed
      cases hpassed
  · obtain ⟨document, hstored, rfl⟩ := Option.map_eq_some_iff.1 hfound.symm
    have havailable : S.store.database.available = true :=
      available_of_callDocument (S := { S with graph := T.graph }) hread
    have hregistry : T.store.registry = S.store.registry := by rw [hstore]
    rw [Stateful.bind_of_ok (hget _), hregistry]
    refine Stateful.bind_cases (fun e U happlied => ?_) fun _ U happlied => ?_
    · rintro _ ⟨⟩
      obtain ⟨g', hfailed, rfl⟩ := onRecords_eq happlied
      exact .unapplied hdescribed hselector
        ⟨hdescribed.registered, havailable, identifier, hidentifier, hstored⟩ hfailed
    obtain ⟨g', hdone, rfl⟩ := onRecords_eq happlied
    refine Stateful.bind_cases (fun e U hfollowed => ?_) fun _ U _ => fun _ hdone => by cases hdone
    rintro _ ⟨⟩
    let S₁ : Session := { T with graph := g' }
    have happlied : applyDocument d S.store.registry r s
        (Document.project document (Projection.ofSelector? s)) T.graph = (.ok (), S₁.graph) := hdone
    exact .unfollowed hdescribed hselector havailable hstored happlied ⟨trace, journal, hstore⟩ hfollowed

/-! ### What a failed load leaves -/

/-- What a load that fails leaves of its record: all of it, or the part of the document that was assigned
before the field at which that failed, or the document entirely. -/
inductive Interrupted (d : Directory) (r : RecordRef) (asked : Selector) (e : Error) (S : Session)
    (g' : Graph) : Prop
  | untouched (spares : S.graph.Spares r g')
  | partly {s : Selector} {g : Graph} {document : Document} {fields : Object}
    (retrievable : Retrievable d S r document)
    (selected : readSelector d r asked S.graph = (.ok s, g)) (spares : S.graph.Spares r g)
    (picked : Selector.pick [Tree.classTag] s
      (.object (Document.project document (Projection.ofSelector? s))) = .object fields)
    (named : ∀ tag, Fields.get? Tree.classTag fields = some tag → tag = .string r.className)
    (halted : Record.Halted d S.store.registry .store r fields e (g.marked r fields) g')
  | wholly {s : Selector} {g g₁ : Graph} {document : Document} (retrievable : Retrievable d S r document)
    (selected : readSelector d r asked S.graph = (.ok s, g)) (spares : S.graph.Spares r g)
    (applied : applyDocument d S.store.registry r s
      (Document.project document (Projection.ofSelector? s)) g = (.ok (), g₁))
    (kept : S.store.Trees → (∀ a ∈ d.attributes r.cls, a.name ≠ Tree.classTag ∧ a.name ≠ Tree.newTag) →
      g₁.Spares r g' ∧ g'.isNew r = false)

section

variable {known : Set RecordRef} {S S' : Session}

theorem readSelector_spares (hsound : g.Sound known) (hr : r ∈ known) (hmade : r.base? = none)
    {result : Except Error Selector} (h : readSelector d r asked g = (result, g')) :
    g.Spares r g' ∧ r.serial < g'.cells.size := by
  have hI : AllowsReading fun known g' => g'.Sound known ∧ {r} ⊆ known ∧ g.Spares r g' :=
    Graph.sound_allowsReading.sparing (fun _ _ hsound' => hsound') (by simpa using hmade)
      fun _ _ hspared hspares => hspares.trans (hspared r rfl)
  have hkeeps : KeepsIn (fun known g' => g'.Sound known ∧ {r} ⊆ known ∧ g.Spares r g') known
      (readSelector d r asked) fun _ _ => True :=
    (hI.resolve _ hr _).bind fun _ _ _ _ => .pure fun _ _ => trivial
  obtain ⟨after, -, ⟨hsound', hr', hspares⟩, -⟩ :=
    hkeeps.of_run subset_rfl ⟨hsound, Set.singleton_subset_iff.2 hr, .refl r g⟩ h
  exact ⟨hspares, hsound'.bounded r (hr' rfl)⟩

theorem readSelector_names (hd : d.Lawful) (hmade : r.base? = none)
    (hresting : g.isResolving r = false) (h : readSelector d r asked g = (.ok s, g')) :
    ∀ name ∈ s.names, ∃ a ∈ d.attributes r.cls, a.name = name := by
  obtain ⟨fields, rfl, hchosen⟩ := readSelector_chosen hd hmade hresting h
  exact hchosen.names

theorem readSelector_attribute? (hd : d.Lawful) (hmade : r.base? = none)
    (hresting : g.isResolving r = false) (h : readSelector d r asked g = (.ok s, g')) :
    ∀ name ∈ s.names, ∃ a, (d.definition r.cls).attribute? name = some a := by
  intro name hname
  obtain ⟨a, ha, rfl⟩ := readSelector_names hd hmade hresting h name hname
  exact ⟨a, (hd.definition r.cls).attribute?_of_mem ha⟩

theorem loadWithin_interrupted (hd : d.Lawful) (hsound : S.graph.Sound known) (hr : r ∈ known)
    (hmade : r.base? = none) (hresting : S.graph.isResolving r = false) {steps : Nat}
    {throwIfMissing : Bool}
    (h : loadWithin d steps r asked throwIfMissing [] S = (.error e, S')) :
    Interrupted d r asked e S S'.graph := by
  cases steps with
  | zero =>
    cases h
    exact .untouched (.refl r _)
  | succ steps =>
  have hread : ∀ {result g'}, readSelector d r asked S.graph = (result, g') →
      S.graph.Spares r g' ∧ r.serial < g'.cells.size := readSelector_spares hsound hr hmade
  have hattribute : ∀ {s g'}, readSelector d r asked S.graph = (.ok s, g') →
      ∀ name ∈ s.names, ∃ a, (d.definition r.cls).attribute? name = some a :=
    readSelector_attribute? hd hmade hresting
  cases loadWithin_stops hmade h with
  | refused _ => exact .untouched (.refl r _)
  | nameless _ => exact .untouched (.refl r _)
  | unread _ failed => exact .untouched (hread failed).1
  | unanswered _ selected failed => exact .untouched (callDocument_graph failed ▸ (hread selected).1)
  | absent _ selected _ _ => exact .untouched (hread selected).1
  | unapplied _ selected retrievable failed =>
    obtain ⟨hspares, hlt⟩ := hread selected
    rcases applyDocument_eq_error hlt (hattribute selected) failed with
      hsame | ⟨fields, hpick, hnamed, hhalted⟩
    · exact .untouched (hsame ▸ hspares)
    · exact .partly retrievable selected hspares hpick hnamed hhalted
  | @unfollowed identifier s g document S₁ _ described selected available stored applied store failed =>
    obtain ⟨hspares, hlt⟩ := hread selected
    have hretrievable : Retrievable d S r document :=
      ⟨described.registered, available, identifier, described.identified, stored⟩
    refine .wholly hretrievable selected hspares applied fun htrees huntagged => ?_
    have hdocument := (Value.partOf_project document (Projection.ofSelector? s)).within
      (htrees _ document (stored?_eq_some stored).1)
    obtain ⟨hnew, hi, hlo, hhi, hconfined, hheld⟩ :=
      applyDocument_eq_ok_confined hlt (hattribute selected) hdocument applied
    have hspared : S₁.graph.Spares r S'.graph := by
      refine followNames_spares (store.trees htrees) hmade hlt hlo hhi hconfined
        (fun name hname => hheld name hname ?_) failed
      obtain ⟨a, ha, rfl⟩ := readSelector_names hd hmade hresting selected name hname
      exact not_or.2 (huntagged a ha)
    exact ⟨hspared, hspared.isNew.trans hnew⟩

theorem load_eq {throwIfMissing : Bool} {result : Except Error (Option RecordRef)}
    (h : load d r asked throwIfMissing S = (result, S')) :
    ∃ steps run T, loadWithin d (steps + 1) r asked throwIfMissing [] S = (run, T) ∧
      S'.graph = T.graph ∧ result = run.map fun answer => if answer.1 then some r else none := by
  unfold load at h
  obtain ⟨T, hrun, hgraph, -⟩ := tracing_eq h
  obtain ⟨steps, hsteps⟩ : ∃ steps, loadSteps S = (.ok (steps + 1), S) := ⟨_, rfl⟩
  rw [Stateful.bind_of_ok hsteps] at hrun
  rcases hloaded : loadWithin d (steps + 1) r asked throwIfMissing [] S with ⟨_ | ⟨found, visited⟩, T'⟩
  · rw [Stateful.bind_of_error hloaded] at hrun
    cases hrun
    exact ⟨steps, _, _, hloaded, hgraph, rfl⟩
  · rw [Stateful.bind_of_ok hloaded] at hrun
    cases hrun
    exact ⟨steps, _, _, hloaded, hgraph, rfl⟩

/-- A load that finds no document leaves its record as it was, one that fails leaves it as it was or with
the document applied, up to a field or entirely, and so does applying a tree that fails. -/
theorem failed_load_leaves (hd : d.Lawful) (hsound : S.graph.Sound known) (hr : r ∈ known)
    (hmade : r.base? = none) (hresting : S.graph.isResolving r = false) :
    (∀ s throwIfMissing S', load d r s throwIfMissing S = (.ok none, S') →
      S.graph.Spares r S'.graph) ∧
    (∀ s throwIfMissing e S', load d r s throwIfMissing S = (.error e, S') →
      Interrupted d r s e S S'.graph) ∧
    ∀ registry source t e g',
      Record.decodeInto d registry source r t S.graph = (.error e, g') →
        S.graph.Spares r g' ∨ ∃ fields, t = .object fields ∧
          (∀ tag, Fields.get? Tree.classTag fields = some tag → tag = .string r.className) ∧
          Record.Halted d registry source r fields e (S.graph.marked r fields) g' := by
  refine ⟨fun s throwIfMissing S' h => ?_, fun s throwIfMissing e S' h => ?_,
    fun registry source t e g' h => ?_⟩
  · obtain ⟨steps, run, T, hloaded, hgraph, hresult⟩ := load_eq h
    rw [hgraph]
    cases run with
    | error e => cases hresult
    | ok answer =>
      obtain ⟨found, visited⟩ := answer
      obtain ⟨-, identifier, -, hsteps⟩ := loadWithin_steps hmade hloaded
      cases hsteps with
      | visited _ => cases hresult
      | missing _ selector _ _ => exact (readSelector_spares hsound hr hmade selector).1
      | found _ _ _ _ _ _ => cases hresult
  · obtain ⟨steps, run, T, hloaded, hgraph, hresult⟩ := load_eq h
    rw [hgraph]
    cases run with
    | error e' =>
      cases hresult
      exact loadWithin_interrupted hd hsound hr hmade hresting hloaded
    | ok answer => cases hresult
  · rcases Record.decodeInto_eq_error (hsound.bounded r hr) h with rfl | hhalted
    · exact .inl (.refl r _)
    · exact .inr hhalted

end

/-! ### An example: a film with a missing tag -/

namespace Screening

def filmClass : ClassRef := .declared 0 "Film"

/-- Films, whose tags may not be null. -/
def classes : Directory where
  classes := #[
    { definition := {
        attributes := [("id", ⟨"id", .primary, .scalar .string {}, none⟩),
          ("title", ⟨"title", .plain, .scalar .string { optional := true }, none⟩),
          ("tags", ⟨"tags", .plain, .array (.scalar .string { optional := true }) {}, none⟩)]
        indexes := [], embedded := false, storable := true } }]

def film : RecordRef := .made 0 filmClass

def storedFilm : Document :=
  [(Tree.classTag, .string "Film"), ("id", .string "f"), ("title", .string "Alien"),
    ("tags", .array [.string "space", .null])]

/-- A film of which only the identifier is known, and a store with the given documents. -/
def session (documents : List Document) : Session where
  graph := { cells := #[{ slots := [("id", some ⟨.string "f", .here⟩)], isNew := false }] }
  store := {
    ref := ⟨0⟩, registry := ⟨0⟩, storables := [("Film", filmClass)]
    database := { collections := [("Film", { documents, indexes := [] })] } }

def loading (documents : List Document) (throwIfMissing : Bool) :
    Except Error (Option RecordRef) × Session :=
  load classes film .all throwIfMissing (session documents)

/-- A tree that says that the film is new, and has a title for it but no proper tags. -/
def improper : Value :=
  .object [(Tree.classTag, .string "Film"), (Tree.newTag, .boolean true), ("title", .string "Heat"),
    ("tags", .string "city")]

def applying : Except Error Unit × Graph :=
  Record.decodeInto classes ⟨0⟩ .remote film improper (session []).graph

/-- A load and a tree that fail have left a title, and the tree has made the film new. -/
theorem failed_load_leaves_title :
    ((∃ e, (loading [storedFilm] true).1 = .error e) ∧
      (session [storedFilm]).graph.own? film "title" = none ∧
      (loading [storedFilm] true).2.graph.own? film "title" = some (some ⟨.string "Alien", .store⟩)) ∧
    (∃ e, applying.1 = .error e) ∧ (session []).graph.own? film "title" = none ∧
      applying.2.own? film "title" = some (some ⟨.string "Heat", .remote⟩) ∧
      (session []).graph.isNew film = false ∧ applying.2.isNew film = true :=
  ⟨⟨⟨_, rfl⟩, rfl, rfl⟩, ⟨_, rfl⟩, rfl, rfl, rfl, rfl⟩

theorem classes_lawful : classes.Lawful :=
  Directory.lawful_of_entries (by decide) (by decide)

theorem session_sound (documents : List Document) : (session documents).graph.Sound {film} := by
  refine Graph.Sound.of_cells ?_ ?_ ?_ ?_
  · rintro _ rfl
    exact Nat.zero_lt_one
  · rintro _ rfl _ rfl _
    rfl
  · rintro _ _ _ ⟨⟩
  · intro cell hcell entry hentry slot hslot
    simp only [session, List.mem_toArray, List.mem_singleton] at hcell
    subst hcell
    obtain rfl := List.mem_singleton.1 hentry
    cases hslot
    exact fun r hr => by cases hr

/-- The film is left with the fields before the tags, and as it was where there is no document of it. -/
theorem failed_load_leaves_film :
    (∃ e, (loading [storedFilm] true).1 = .error e ∧
      Interrupted classes film .all e (session [storedFilm]) (loading [storedFilm] true).2.graph) ∧
    ((loading [] false).1 = .ok none ∧
      (session []).graph.Spares film (loading [] false).2.graph) ∧
    ∃ e fields, applying.1 = .error e ∧ improper = .object fields ∧
      Record.Halted classes ⟨0⟩ .remote film fields e ((session []).graph.marked film fields)
        applying.2 := by
  have hleave := fun documents => failed_load_leaves (S := session documents) classes_lawful
    (session_sound documents) rfl (r := film) rfl rfl
  refine ⟨⟨_, rfl, (hleave [storedFilm]).2.1 .all true _ _ rfl⟩,
    ⟨rfl, (hleave []).1 .all false _ rfl⟩, ?_⟩
  rcases (hleave []).2.2 ⟨0⟩ .remote improper _ _ rfl with hspares | ⟨fields, himproper, -, hhalted⟩
  · have htitle := hspares.own "title"
    cases htitle
  · exact ⟨_, fields, rfl, himproper, hhalted⟩

end Screening

end Store

end TypedRecords
