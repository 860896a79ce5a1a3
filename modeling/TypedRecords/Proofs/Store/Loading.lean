import TypedRecords.Proofs.Store.Following
import TypedRecords.Proofs.Store.Saving
import TypedRecords.Proofs.Database.Calls

/-! # Loading step by step

A load reads one document into a record and then loads the records that its attributes refer to. It
changes the cells of the records that it loads, and makes new ones.
-/

namespace TypedRecords

open TypedRecords.Graph (Leaves)

namespace Store

variable {d : Directory} {checked : Prop} {s s' s'' : Store} {c : ClassRef}

/-! ### Stores that only differ in what they record -/

/-- A store that has been read from. -/
def Alike (s s' : Store) : Prop := ∃ trace journal, s' = { s with trace, journal }

theorem Alike.refl (s : Store) : Alike s s := ⟨s.trace, s.journal, rfl⟩

theorem Alike.symm (h : Alike s s') : Alike s' s := by
  obtain ⟨trace, journal, rfl⟩ := h
  exact ⟨s.trace, s.journal, rfl⟩

theorem Alike.trans (h : Alike s s') (h' : Alike s' s'') : Alike s s'' := by
  obtain ⟨trace, journal, rfl⟩ := h
  obtain ⟨trace', journal', rfl⟩ := h'
  exact ⟨trace', journal', rfl⟩

/-- The document that a descriptor describes. -/
def stored? (s : Store) (c : ClassRef) (descriptor : Object) : Option Document :=
  ((s.database.collection (s.collectionName c)).position? descriptor).bind fun i =>
    (s.database.documents (s.collectionName c))[i]?

theorem stored?_eq_some {descriptor : Object} {document : Document}
    (h : s.stored? c descriptor = some document) :
    document ∈ s.database.documents (s.collectionName c) ∧
      Collection.holds document descriptor = true := by
  obtain ⟨i, hposition, hdocument⟩ := Option.bind_eq_some_iff.1 h
  obtain ⟨document', hdocument', hholds⟩ := Collection.position?_eq_some hposition
  have hread : (s.database.collection (s.collectionName c)).documents[i]? = some document := hdocument
  rw [hread] at hdocument'
  cases hdocument'
  exact ⟨List.mem_of_getElem? hdocument, hholds⟩

/-! ### Lawful stores -/

/-- What registration sees to: storables are found by their names, and no class is a fork. -/
structure Lawful (d : Directory) (s : Store) : Prop where
  storables : ∀ name c, Fields.get? name s.storables = some c →
    c.name = name ∧ c.base? = none ∧ (d.definition c).storable = true ∧
      d.find? s.registry name = some c
  members : ∀ name c, d.find? s.registry name = some c → c.base? = none

/-- A store of which every document can be read. -/
structure Legible (d : Directory) (checked : Prop) (s : Store) : Prop extends s.Lawful d where
  documents : ∀ c, c.base? = none → s.isRegistered c = true →
    ∀ document ∈ s.database.documents (s.collectionName c),
      Document.Legible d s.registry checked c document

theorem Legible.alike (h : s.Legible d checked) (hs : s.Alike s') : s'.Legible d checked := by
  obtain ⟨trace, journal, rfl⟩ := hs
  exact ⟨⟨h.storables, h.members⟩, h.documents⟩

theorem Legible.imp {checked' : Prop} (himp : checked' → checked) (h : s.Legible d checked) :
    s.Legible d checked' where
  toLawful := h.toLawful
  documents c hc hregistered document hdocument :=
    (h.documents c hc hregistered document hdocument).imp himp

theorem storable_of_isRegistered (hc : c.base? = none) (h : s.isRegistered c = true) :
    Fields.get? c.name s.storables = some c := by
  unfold isRegistered at h
  cases hread : Fields.get? c.name s.storables with
  | none =>
    rw [hread] at h
    cases h
  | some registered =>
    rw [hread] at h
    have hsame : c = registered := by
      cases c with
      | fork serial base => cases hc
      | declared serial name => simpa [ClassRef.isSameOrForkOf, ClassRef.isForkOf] using h
    rw [← hsame]

theorem Lawful.of_isRegistered (hd : d.Lawful) (hs : s.Lawful d) (hc : c.base? = none)
    (h : s.isRegistered c = true) :
    (d.definition c).referenceable = true ∧ d.find? s.registry c.name = some c := by
  obtain ⟨-, -, hstorable, hfound⟩ := hs.storables c.name c (storable_of_isRegistered hc h)
  exact ⟨(hd.definition c).stored hstorable, hfound⟩

theorem eq_of_collectionName {c' : ClassRef} (hc : c.base? = none) (h : s.isRegistered c = true)
    (hc' : c'.base? = none) (h' : s.isRegistered c' = true)
    (hname : s.collectionName c' = s.collectionName c) : c' = c := by
  have hnames : c'.name = c.name := by
    simpa [collectionName, Settings.collectionName] using hname
  have hread := storable_of_isRegistered hc' h'
  rw [hnames, storable_of_isRegistered hc h] at hread
  exact (Option.some.inj hread).symm

theorem Legible.of_subset (h : s.Legible d checked) {db : Database}
    (hdb : ∀ collection, db.documents collection ⊆ s.database.documents collection) :
    ({ s with database := db } : Store).Legible d checked where
  storables := h.storables
  members := h.members
  documents c hc hregistered _ hdocument := h.documents c hc hregistered _ (hdb _ hdocument)

theorem Legible.put (h : s.Legible d checked) (hc : c.base? = none)
    (hregistered : s.isRegistered c = true) {collection : Collection}
    (hcollection : ∀ document ∈ collection.documents,
      Document.Legible d s.registry checked c document) :
    ({ s with database := s.database.put (s.collectionName c) collection } : Store).Legible d
      checked where
  storables := h.storables
  members := h.members
  documents c' hc' hregistered' document hdocument := by
    have hdocument : document ∈ ((s.database.put (s.collectionName c) collection).collection
        (s.collectionName c')).documents := hdocument
    by_cases hname : s.collectionName c' = s.collectionName c
    · obtain rfl := eq_of_collectionName hc hregistered hc' hregistered' hname
      rw [Database.collection_put_self] at hdocument
      exact hcollection document hdocument
    · rw [Database.collection_put_of_ne _ hname] at hdocument
      exact h.documents c' hc' hregistered' document hdocument

/-! ### Reading -/

variable {S S' : Session} {collection : String} {descriptor : Object}
  {projection : Option Projection}

theorem run_read (s : Store) (c : ClassRef) :
    (Call.read descriptor projection).run (s.collectionName c) s.database =
      (if s.database.available then
        .ok (.document ((s.stored? c descriptor).map fun document =>
          Document.project document projection))
      else .error (.database .unavailable), s.database) := by
  simp only [Call.run, Call.run.answer, Database.read, Database.whenAvailable]
  split <;> rfl

theorem callDocument_read_eq_ok {answer : Option Document}
    (h : callDocument (S.store.collectionName c) (.read descriptor projection) S =
      (.ok answer, S')) :
    answer = (S.store.stored? c descriptor).map (fun document =>
        Document.project document projection) ∧
      S'.graph = S.graph ∧ S.store.Alike S'.store := by
  obtain ⟨found, S₁, hcall, hrest⟩ := Stateful.bind_eq_ok h
  obtain ⟨hanswer, hgraph, journal, hstore⟩ := call_eq hcall
  rw [run_read] at hanswer hstore
  split at hanswer
  · cases hanswer
    cases hrest
    exact ⟨rfl, hgraph, S.store.trace, journal, hstore⟩
  · cases hanswer

/-- A read in a session that keeps no journal leaves no trace of itself. -/
theorem callDocument_read_of_unjournaled (h : S.store.database.available = true)
    (hjournal : S.store.journal = none) (c : ClassRef) (descriptor : Object)
    (projection : Option Projection) :
    callDocument (S.store.collectionName c) (.read descriptor projection) S =
      (.ok ((S.store.stored? c descriptor).map fun document =>
        Document.project document projection), S) := by
  have hsame : { S with store := { S.store with journal := none } } = S := by rw [← hjournal]
  have hcall : call (S.store.collectionName c) (.read descriptor projection) S =
      (.ok (.document ((S.store.stored? c descriptor).map fun document =>
        Document.project document projection)), S) := by
    unfold call
    rw [run_read, if_pos h]
    dsimp only
    rw [hjournal, Option.map_none, hsame]
  unfold callDocument
  rw [Stateful.bind_of_ok hcall]
  rfl

theorem callDocument_read_of_available (h : S.store.database.available = true) (c : ClassRef)
    (descriptor : Object) (projection : Option Projection) :
    ∃ S', callDocument (S.store.collectionName c) (.read descriptor projection) S =
      (.ok ((S.store.stored? c descriptor).map fun document =>
        Document.project document projection), S') := by
  obtain ⟨S₁, hcall⟩ : ∃ S₁, call (S.store.collectionName c) (.read descriptor projection) S =
      (.ok (.document ((S.store.stored? c descriptor).map fun document =>
        Document.project document projection)), S₁) := by
    unfold call
    rw [run_read, if_pos h]
    exact ⟨_, rfl⟩
  refine ⟨S₁, ?_⟩
  unfold callDocument
  rw [Stateful.bind_of_ok hcall]
  rfl

/-! ### One load -/

/-- Loads what one attribute of a record refers to. -/
def followName (d : Directory) (steps : Nat) (r : RecordRef) (s : Selector) (visited : Visited)
    (name : String) : StoreAction Visited := do
  match ← onRecords (Record.lift (r.value? name)) with
  | none => pure visited
  | some v =>
    let sub := s.get name
    let load (inner : RecordRef) (visited : Visited) : StoreAction Visited := do
      pure (← loadWithin d steps inner sub false visited).2
    followRecords d load sub v.records visited

/-- The loop of a load over the attributes of a record. -/
def followNames (d : Directory) (steps : Nat) (r : RecordRef) (s : Selector) (names : List String)
    (visited : Visited) : StoreAction Visited :=
  names.foldlM (followName d steps r s) visited

/-- What a load has found, by which document it read. -/
inductive LoadOutcome (d : Directory) (steps : Nat) (r : RecordRef) (visited : Visited)
    (descriptor : Object) (S : Session) : Bool → Visited → Session → Prop
  | visited (h : wasVisited visited (S.store.collectionName r.cls) descriptor = true) :
    LoadOutcome d steps r visited descriptor S true visited S
  | missing {S' : Session}
    (new : wasVisited visited (S.store.collectionName r.cls) descriptor = false)
    (stored : S.store.stored? r.cls descriptor = none) (graph : S'.graph = S.graph)
    (store : S.store.Alike S'.store) :
    LoadOutcome d steps r visited descriptor S false
      (visited ++ [(S.store.collectionName r.cls, descriptor)]) S'
  | found {document : Document} {S₁ S' : Session} {visited' : Visited}
    (new : wasVisited visited (S.store.collectionName r.cls) descriptor = false)
    (stored : S.store.stored? r.cls descriptor = some document)
    (applied : applyDocument d S.store.registry r (d.entire r.cls)
      (Document.project document (Projection.ofSelector? (d.entire r.cls))) S.graph =
        (.ok (), S₁.graph)) (store : S.store.Alike S₁.store)
    (followed : followNames d steps r (d.entire r.cls) (d.entire r.cls).names
      (visited ++ [(S.store.collectionName r.cls, descriptor)]) S₁ = (.ok visited', S')) :
    LoadOutcome d steps r visited descriptor S true visited' S'

/-- The steps of a load, by which document it reads. -/
inductive LoadSteps (d : Directory) (steps : Nat) (r : RecordRef) (asked : Selector)
    (visited : Visited) (descriptor : Object) (S : Session) : Bool → Visited → Session → Prop
  | visited (h : wasVisited visited (S.store.collectionName r.cls) descriptor = true) :
    LoadSteps d steps r asked visited descriptor S true visited S
  | missing {s : Selector} {S' : Session}
    (new : wasVisited visited (S.store.collectionName r.cls) descriptor = false)
    (selector : readSelector d r asked S.graph = (.ok s, S'.graph))
    (stored : S.store.stored? r.cls descriptor = none) (store : S.store.Alike S'.store) :
    LoadSteps d steps r asked visited descriptor S false
      (visited ++ [(S.store.collectionName r.cls, descriptor)]) S'
  | found {s : Selector} {g : Graph} {document : Document} {S₁ S' : Session} {visited' : Visited}
    (new : wasVisited visited (S.store.collectionName r.cls) descriptor = false)
    (selector : readSelector d r asked S.graph = (.ok s, g))
    (stored : S.store.stored? r.cls descriptor = some document)
    (applied : applyDocument d S.store.registry r s
      (Document.project document (Projection.ofSelector? s)) g = (.ok (), S₁.graph))
    (store : S.store.Alike S₁.store)
    (followed : followNames d steps r s s.names
      (visited ++ [(S.store.collectionName r.cls, descriptor)]) S₁ = (.ok visited', S')) :
    LoadSteps d steps r asked visited descriptor S true visited' S'

theorem loadWithin_steps {r : RecordRef} (hr : r.base? = none) {steps : Nat} {asked : Selector}
    {throwIfMissing found : Bool} {visited visited' : Visited}
    (h : loadWithin d (steps + 1) r asked throwIfMissing visited S = (.ok (found, visited'), S')) :
    S.store.isRegistered r.cls = true ∧ ∃ identifier, S.graph.identifier? d r = some identifier ∧
      LoadSteps d steps r asked visited [identifier] S found visited' S' := by
  rw [loadWithin] at h
  obtain ⟨_, _, hget, h₁⟩ := Stateful.bind_eq_ok h
  cases hget
  obtain ⟨_, _, hcheck, h₂⟩ := Stateful.bind_eq_ok h₁
  obtain ⟨hregistered, rfl⟩ := check_eq_ok hcheck
  refine ⟨requireRegistered_eq_ok hregistered, ?_⟩
  obtain ⟨descriptor, _, hdescriptor', h₃⟩ := Stateful.bind_eq_ok h₂
  obtain ⟨g₁, hdescriptor, rfl⟩ := onRecords_eq_ok hdescriptor'
  obtain ⟨hg₁, identifier, hidentifier, rfl⟩ := Record.descriptor_eq_ok hr hdescriptor
  refine ⟨identifier, hidentifier, ?_⟩
  have hS : ({ S with graph := g₁ } : Session) = S := by rw [hg₁]
  rw [hS] at h₃
  obtain ⟨_, _, hget, h₄⟩ := Stateful.bind_eq_ok h₃
  cases hget
  dsimp only at h₄
  split at h₄
  · next hvisited =>
    cases h₄
    exact .visited hvisited
  · next hnew =>
    rw [Bool.not_eq_true] at hnew
    obtain ⟨s, _, hselector', h₅⟩ := Stateful.bind_eq_ok h₄
    obtain ⟨g₂, hselector, rfl⟩ := onRecords_eq_ok hselector'
    obtain ⟨answer, S₂, hcall, h₆⟩ := Stateful.bind_eq_ok h₅
    obtain ⟨hanswer, hgraph, hstore⟩ := callDocument_read_eq_ok hcall
    split at h₆
    · next =>
      have hstored : S.store.stored? r.cls [identifier] = none := by
        simpa using hanswer.symm
      split at h₆
      · cases h₆
      · cases h₆
        have hgraph : g₂ = S'.graph := hgraph.symm
        exact .missing hnew (hgraph ▸ hselector) hstored hstore
    · next document' =>
      obtain ⟨document, hstored, rfl⟩ := Option.map_eq_some_iff.1 hanswer.symm
      obtain ⟨_, _, hget, h₇⟩ := Stateful.bind_eq_ok h₆
      cases hget
      obtain ⟨_, _, happlied', h₈⟩ := Stateful.bind_eq_ok h₇
      obtain ⟨g₃, happlied, rfl⟩ := onRecords_eq_ok happlied'
      obtain ⟨visited₁, S₃, hfollowed, hpure⟩ := Stateful.bind_eq_ok h₈
      cases hpure
      obtain ⟨trace, journal, heq⟩ := hstore
      rw [hgraph, heq] at happlied
      let T : Session := { S₂ with graph := g₃ }
      have hstore : S.store.Alike T.store := ⟨trace, journal, heq⟩
      exact .found hnew hselector hstored happlied hstore hfollowed

/-- A load of which all steps succeed, in a session that keeps no journal. -/
theorem loadWithin_of_found {r : RecordRef} (hr : r.base? = none)
    (hregistered : S.store.isRegistered r.cls = true) {identifier : String × Value}
    (hidentifier : S.graph.identifier? d r = some identifier) {visited visited' : Visited}
    (hnew : wasVisited visited (S.store.collectionName r.cls) [identifier] = false)
    {asked selector : Selector} {g g' : Graph}
    (hselector : readSelector d r asked S.graph = (.ok selector, g))
    (havailable : S.store.database.available = true) (hjournal : S.store.journal = none)
    {document : Document} (hstored : S.store.stored? r.cls [identifier] = some document)
    (happlied : applyDocument d S.store.registry r selector
      (Document.project document (Projection.ofSelector? selector)) g = (.ok (), g')) {steps : Nat}
    (hfollowed : followNames d steps r selector selector.names
      (visited ++ [(S.store.collectionName r.cls, [identifier])]) { S with graph := g' } =
        (.ok visited', S')) (throwIfMissing : Bool) :
    loadWithin d (steps + 1) r asked throwIfMissing visited S = (.ok (true, visited'), S') := by
  have hget : ∀ S : Session, (MonadState.get : StoreAction Session) S = (.ok S, S) := fun _ => rfl
  have hcheck : check (S.store.requireRegistered r.cls) S = (.ok (), S) := by
    unfold requireRegistered
    rw [hregistered]
    rfl
  have hdescribed : onRecords (Record.descriptor d r) S = (.ok [identifier], S) := by
    unfold onRecords
    rw [Record.descriptor_made hr, hidentifier]
  have hread : ∀ {α : Type} {action : Action α} {a : α} {S : Session} {g : Graph},
      action S.graph = (.ok a, g) → onRecords action S = (.ok a, { S with graph := g }) := by
    intro α action a S g h
    unfold onRecords
    rw [h]
  have hcall : ∀ projection, callDocument (S.store.collectionName r.cls)
      (.read [identifier] projection) { S with graph := g } =
        (.ok (some (Document.project document projection)), { S with graph := g }) := by
    intro projection
    have hanswer := callDocument_read_of_unjournaled (S := { S with graph := g }) havailable hjournal
      r.cls [identifier] projection
    rwa [show ({ S with graph := g } : Session).store.stored? r.cls [identifier] = some document
      from hstored] at hanswer
  rw [loadWithin, Stateful.bind_of_ok (hget S), Stateful.bind_of_ok hcheck,
    Stateful.bind_of_ok hdescribed, Stateful.bind_of_ok (hget S)]
  dsimp only
  rw [hnew, if_neg Bool.false_ne_true, Stateful.bind_of_ok (hread hselector),
    Stateful.bind_of_ok (hcall _)]
  dsimp only
  rw [Stateful.bind_of_ok (hget _), Stateful.bind_of_ok (hread happlied)]
  have hrun : followNames d steps r selector selector.names
    (visited ++ [(S.store.collectionName r.cls, [identifier])]) { S with graph := g' } =
      (.ok visited', S') := hfollowed
  unfold followNames at hrun
  exact Stateful.bind_of_ok hrun

theorem load_of_loadWithin {r : RecordRef} {asked : Selector} {throwIfMissing : Bool} {steps : Nat}
    {visited : Visited} (hsteps : loadSteps S = (.ok steps, S))
    (h : loadWithin d steps r asked throwIfMissing [] S = (.ok (true, visited), S')) :
    ∃ S₁, load d r asked throwIfMissing S = (.ok (some r), S₁) ∧ S₁.graph = S'.graph := by
  unfold load
  have hrun : (do
      let answer ← loadWithin d (← loadSteps) r asked throwIfMissing []
      pure (if answer.1 then some r else none) : StoreAction (Option RecordRef)) S =
        (.ok (some r), S') := by
    rw [Stateful.bind_of_ok hsteps, Stateful.bind_of_ok h]
    rfl
  exact tracing_of_run _ _ _ hrun

/-- What a load of a record that holds nothing but keys has found, by which document it read. -/
theorem loadWithin_eq_ok (hd : d.Lawful) {r : RecordRef} (hr : r.Bare S.graph) {steps : Nat}
    {throwIfMissing found : Bool} {visited visited' : Visited}
    (h : loadWithin d (steps + 1) r .all throwIfMissing visited S = (.ok (found, visited'), S')) :
    S.store.isRegistered r.cls = true ∧ ∃ identifier, S.graph.identifier? d r = some identifier ∧
      LoadOutcome d steps r visited [identifier] S found visited' S' := by
  obtain ⟨hregistered, identifier, hidentifier, hsteps⟩ := loadWithin_steps hr.made h
  refine ⟨hregistered, identifier, hidentifier, ?_⟩
  have hselector := readSelector_of_bare hd hr
  cases hsteps with
  | visited hvisited => exact .visited hvisited
  | missing hnew hread hstored hstore =>
    obtain ⟨-, hgraph⟩ := Prod.mk.inj (hread.symm.trans hselector)
    exact .missing hnew hstored hgraph hstore
  | found hnew hread hstored happlied hstore hfollowed =>
    obtain ⟨hs, rfl⟩ := Prod.mk.inj (hread.symm.trans hselector)
    cases hs
    exact .found hnew hstored happlied hstore hfollowed

/-! ### What loads change -/

/-- A record has an identifier with the value it had, or an equal one. -/
def KeepsIdentifier (d : Directory) (g g' : Graph) (r : RecordRef) : Prop :=
  ∀ name v, g.identifier? d r = some (name, v) →
    ∃ w, g'.seen? r name = some w ∧ (w = v ∨ w.beq v = true)

theorem KeepsIdentifier.refl (g : Graph) (r : RecordRef) : KeepsIdentifier d g g r :=
  fun _ v hidentifier => ⟨v, (Graph.identifier?_eq_some hidentifier).2.1, .inl rfl⟩

/-- What loading some records changes: their cells, if they are referred to by identifier; and it
makes new ones. -/
structure Loads (d : Directory) (rs : List RecordRef) (S S' : Session) (visited visited' : Visited) :
    Prop where
  graph : Leaves (fun n => ∀ r ∈ rs, (d.definition r.cls).referenceable = true → r.serial ≠ n)
    S.graph S'.graph
  store : S.store.Alike S'.store
  identifiers : ∀ r ∈ rs, (d.definition r.cls).referenceable = true →
    KeepsIdentifier d S.graph S'.graph r
  visited : visited ⊆ visited'

namespace Loads

variable {rs rs' : List RecordRef} {r : RecordRef} {S₁ : Session}
  {visited visited₁ visited' : Visited}

theorem nil (S : Session) (visited : Visited) : Loads d [] S S visited visited where
  graph := .refl _ _
  store := .refl _
  identifiers := by simp
  visited := List.Subset.refl _

theorem single (hgraph : Leaves (· ≠ r.serial) S.graph S'.graph) (hstore : S.store.Alike S'.store)
    (hreferenceable : (d.definition r.cls).referenceable = true)
    (hidentifier : KeepsIdentifier d S.graph S'.graph r) (hvisited : visited ⊆ visited') :
    Loads d [r] S S' visited visited' where
  graph := hgraph.imp fun _ hne => (hne r List.mem_cons_self hreferenceable).symm
  store := hstore
  identifiers r' hr' _ := by rwa [List.mem_singleton.1 hr']
  visited := hvisited

theorem skip (hS : S'.graph = S.graph) (hstore : S.store.Alike S'.store) (rs : List RecordRef)
    (visited : Visited) : Loads d rs S S' visited visited where
  graph := by
    rw [hS]
    exact .refl _ _
  store := hstore
  identifiers r _ _ := by
    rw [hS]
    exact .refl _ r
  visited := List.Subset.refl _

theorem append {lo : Nat} {registry : RegistryRef} (h : Loads d rs S S₁ visited visited₁)
    (h' : Loads d rs' S₁ S' visited₁ visited')
    (hfollowable : Followable d registry lo S.graph (rs ++ rs')) :
    Loads d (rs ++ rs') S S' visited visited' where
  graph := by
    have hfirst : Leaves (fun n => ∀ r ∈ rs ++ rs', (d.definition r.cls).referenceable = true →
        r.serial ≠ n) S.graph S₁.graph :=
      h.graph.imp fun n hn r hr => hn r (List.mem_append_left _ hr)
    have hsecond : Leaves (fun n => ∀ r ∈ rs ++ rs', (d.definition r.cls).referenceable = true →
        r.serial ≠ n) S₁.graph S'.graph :=
      h'.graph.imp fun n hn r hr => hn r (List.mem_append_right _ hr)
    exact hfirst.trans hsecond
  store := h.store.trans h'.store
  identifiers r hr hreferenceable := by
    intro name v hidentifier
    have hplaced := (hfollowable.placed r hr).2
    have hmade := (hfollowable.found r hr).1
    have hsize := h.graph.size
    rcases List.mem_append.1 hr with hr | hr
    · obtain ⟨w, hw, hequal⟩ := h.identifiers r hr hreferenceable name v hidentifier
      refine ⟨w, ?_, hequal⟩
      rw [← hw]
      refine seen?_congr_made hmade (h'.graph.own? (by omega) ?_ name)
      intro r' hr' _ heq
      exact hfollowable.ne hr hr' heq.symm
    · refine h'.identifiers r hr hreferenceable name v ?_
      rw [← hidentifier]
      refine Graph.identifier?_congr fun a _ =>
        seen?_congr_made hmade (h.graph.own? hplaced ?_ a.name)
      intro r' hr' _ heq
      exact hfollowable.ne hr' hr heq
  visited := List.Subset.trans h.visited h'.visited

end Loads

/-- What is known of every load that reads at most so many documents inside each other. -/
def LoadsWithin (d : Directory) (steps : Nat) : Prop :=
  ∀ (r : RecordRef) (throwIfMissing found : Bool) (visited visited' : Visited) (S S' : Session),
    S.store.Legible d False → r.Bare S.graph → r.cls.base? = none →
      loadWithin d steps r .all throwIfMissing visited S = (.ok (found, visited'), S') →
        Loads d [r] S S' visited visited'

theorem hasIdentifiers_made {r : RecordRef} (hr : r.base? = none) (g : Graph) :
    Record.hasIdentifiers d r g = (.ok (g.identifier? d r).isSome, g) := by
  unfold Record.hasIdentifiers
  rw [Record.descriptor_made hr]
  cases g.identifier? d r <;> rfl

theorem mustFollow_eq {r : RecordRef} (hr : r.base? = none) (s : Store) (sub : Selector)
    (g : Graph) : mustFollow d s sub r g =
      (.ok (s.isRegistered r.cls && (g.identifier? d r).isSome &&
        !(d.definition r.cls).identifierSelector.includes sub), g) := by
  unfold mustFollow
  by_cases hregistered : s.isRegistered r.cls = true
  · rw [hregistered]
    simp only [Bool.not_true, Bool.false_eq_true, if_false, Bool.true_and]
    rw [Stateful.bind_of_ok (hasIdentifiers_made hr g)]
    cases (g.identifier? d r).isSome <;> rfl
  · rw [Bool.not_eq_true] at hregistered
    rw [hregistered]
    rfl

theorem mustFollow_made {r : RecordRef} (hr : r.base? = none) (s : Store) (sub : Selector)
    (g : Graph) : ∃ follow, mustFollow d s sub r g = (.ok follow, g) ∧
      (follow = true → s.isRegistered r.cls = true ∧ (g.identifier? d r).isSome = true) := by
  refine ⟨_, mustFollow_eq hr s sub g, fun hfollow => ?_⟩
  rw [Bool.and_eq_true, Bool.and_eq_true] at hfollow
  exact hfollow.1

theorem onRecords_of_eq {α : Type} {action : Action α} {a : α} (h : action S.graph = (.ok a, S.graph)) :
    onRecords action S = (.ok a, S) := by
  unfold onRecords
  rw [h]

theorem followRecords_loads (hd : d.Lawful) {steps : Nat} (hsteps : LoadsWithin d steps) {lo : Nat}
    {rs : List RecordRef} {visited visited' : Visited} (hS : S.store.Legible d False)
    (hrs : Followable d S.store.registry lo S.graph rs)
    (h : followRecords d (fun inner visited => do
      pure (← loadWithin d steps inner .all false visited).2) .all rs visited S =
        (.ok visited', S')) :
    Loads d rs S S' visited visited' := by
  induction rs generalizing S visited with
  | nil =>
    cases h
    exact .nil _ _
  | cons r rest ih =>
    have hrs : Followable d S.store.registry lo S.graph ([r] ++ rest) := hrs
    obtain ⟨hmade, hfound⟩ := hrs.found r List.mem_cons_self
    rw [followRecords] at h
    obtain ⟨_, _, hget, h₁⟩ := Stateful.bind_eq_ok h
    cases hget
    obtain ⟨follow, hfollow, hregistered⟩ := mustFollow_made (d := d) hmade S.store .all S.graph
    rw [Stateful.bind_of_ok (onRecords_of_eq hfollow)] at h₁
    obtain ⟨visited₁, S₁, hfirst, hlater⟩ : ∃ visited₁ S₁, Loads d [r] S S₁ visited visited₁ ∧
        followRecords d (fun inner visited => do
          pure (← loadWithin d steps inner .all false visited).2) .all rest visited₁ S₁ =
            (.ok visited', S') := by
      cases follow with
      | false => exact ⟨visited, S, .skip rfl (.refl _) [r] visited, h₁⟩
      | true =>
        have hreferenceable := (Lawful.of_isRegistered hd hS.toLawful
          (hS.members _ _ hfound) (hregistered rfl).1).1
        obtain ⟨visited₁, S₁, hstep, hlater⟩ := Stateful.bind_eq_ok h₁
        obtain ⟨⟨found, visited₂⟩, S₂, hload, hpure⟩ := Stateful.bind_eq_ok hstep
        cases hpure
        exact ⟨_, _, hsteps r false found visited _ S _ hS
          (hrs.bare r List.mem_cons_self hreferenceable) (hS.members _ _ hfound) hload, hlater⟩
    have hregistry : S₁.store.registry = S.store.registry := by
      obtain ⟨trace, journal, heq⟩ := hfirst.store
      rw [heq]
    have hrest := ih (hS.alike hfirst.store) ?_ hlater
    · exact hfirst.append hrest hrs
    · rw [hregistry]
      refine hrs.right.leaves hfirst.graph ?_
      intro r' hr' r'' hr'' _
      rw [List.mem_singleton.1 hr'']
      exact hrs.ne List.mem_cons_self hr'

theorem followName_eq {steps : Nat} {r : RecordRef} (hr : r.base? = none) (s : Selector)
    (name : String) (visited : Visited) (S : Session) :
    followName d steps r s visited name S =
      followRecords d (fun inner visited => do
        pure (← loadWithin d steps inner (s.get name) false visited).2) (s.get name)
        (((S.graph.value? r name).map Value.records).getD []) visited S := by
  rw [followName, Stateful.bind_of_ok (onRecords_of_eq (Record.lift_value?_made hr name S.graph))]
  cases S.graph.value? r name <;> rfl

theorem followName_made {steps : Nat} {r : RecordRef} (hr : r.base? = none) {name : String}
    {all : List String} (hname : name ∈ all) (visited : Visited) (S : Session) :
    followName d steps r (.entire all) visited name S =
      followRecords d (fun inner visited => do
        pure (← loadWithin d steps inner .all false visited).2) .all
        (((S.graph.value? r name).map Value.records).getD []) visited S := by
  rw [followName_eq hr, Selector.get_entire hname]

theorem recordsUnder_cons (g : Graph) (r : RecordRef) (name : String) (rest : List String) :
    g.recordsUnder r (name :: rest) =
      ((g.value? r name).map Value.records).getD [] ++ g.recordsUnder r rest := rfl

theorem Loads.rest {lo : Nat} {r : RecordRef} (hlo : r.serial < lo)
    (hlt : r.serial < S.graph.cells.size) {name : String} {rest : List String}
    {visited visited' : Visited}
    (hrs : Followable d S.store.registry lo S.graph (S.graph.recordsUnder r (name :: rest)))
    (h : Loads d (((S.graph.value? r name).map Value.records).getD []) S S' visited visited') :
    S'.graph.recordsUnder r rest = S.graph.recordsUnder r rest ∧
      Followable d S'.store.registry lo S'.graph (S'.graph.recordsUnder r rest) := by
  rw [recordsUnder_cons] at hrs
  have hsame : S'.graph.recordsUnder r rest = S.graph.recordsUnder r rest := by
    refine Graph.recordsUnder_congr fun other _ => Graph.value?_congr (h.graph.own? hlt ?_ other)
    intro r' hr' _
    have hplaced := hrs.left.placed r' hr'
    omega
  refine ⟨hsame, ?_⟩
  obtain ⟨trace, journal, heq⟩ := h.store
  rw [hsame, heq]
  refine hrs.right.leaves h.graph ?_
  intro r' hr' r'' hr'' _
  exact hrs.ne hr'' hr'

/-- The loop over the attributes of a record whose cell comes before those of all records in them. -/
theorem followNames_loads (hd : d.Lawful) {steps : Nat} (hsteps : LoadsWithin d steps) {lo : Nat}
    {r : RecordRef} (hr : r.base? = none) (hlo : r.serial < lo) {names all : List String}
    (hnames : ∀ name ∈ names, name ∈ all) {visited visited' : Visited}
    (hlt : r.serial < S.graph.cells.size) (hS : S.store.Legible d False)
    (hrs : Followable d S.store.registry lo S.graph (S.graph.recordsUnder r names))
    (h : followNames d steps r (.entire all) names visited S = (.ok visited', S')) :
    Loads d (S.graph.recordsUnder r names) S S' visited visited' := by
  induction names generalizing S visited with
  | nil =>
    cases h
    exact .nil _ _
  | cons name rest ih =>
    obtain ⟨hname, hnamesRest⟩ := List.forall_mem_cons.1 hnames
    rw [followNames, List.foldlM_cons] at h
    obtain ⟨visited₁, S₁, hstep, hlater⟩ := Stateful.bind_eq_ok h
    rw [followName_made hr hname] at hstep
    have hfirst := followRecords_loads hd hsteps hS (recordsUnder_cons _ _ _ _ ▸ hrs).left hstep
    obtain ⟨hsame, hfollowable⟩ := hfirst.rest hlo hlt hrs
    have hsize := hfirst.graph.size
    have hrest := ih hnamesRest (by omega) (hS.alike hfirst.store) hfollowable hlater
    rw [hsame] at hrest
    exact hfirst.append hrest hrs

theorem Applied.leaves_cell {registry : RegistryRef} {r : RecordRef} {document picked : Document}
    {g g₁ g' : Graph} (h : Applied d registry r document picked g g₁ g') :
    Leaves (· ≠ r.serial) g g' := by
  have hassigned : Leaves (· ≠ r.serial) g g₁ :=
    (Record.keeps_decodeAttributes (.inr fun hne => hne rfl) picked).of_run (.refl _ g) h.assigned
  exact hassigned.trans h.leaves

/-- What a load does that has found a document. -/
structure Found (d : Directory) (r : RecordRef) (document : Document) (S S₁ S' : Session)
    (visited visited' : Visited) : Prop where
  applied : ∃ picked g₁, Applied d S.store.registry r document picked S.graph g₁ S₁.graph
  store : S.store.Alike S₁.store
  followable : Followable d S.store.registry S.graph.cells.size S₁.graph
    (S₁.graph.recordsUnder r ((d.attributes r.cls).map Attribute.name))
  loads : Loads d (S₁.graph.recordsUnder r ((d.attributes r.cls).map Attribute.name)) S₁ S'
    visited visited'

theorem found_of_run (hd : d.Lawful) (hnamed : d.WellNamed) {steps : Nat}
    (hsteps : LoadsWithin d steps) {r : RecordRef} (hr : r.Bare S.graph)
    (hS : S.store.Legible d False) (hc : r.cls.base? = none)
    (hregistered : S.store.isRegistered r.cls = true) {document : Document} {S₁ : Session}
    {visited visited' : Visited} (hstored : S.store.stored? r.cls descriptor = some document)
    (happlied : applyDocument d S.store.registry r (d.entire r.cls)
      (Document.project document (Projection.ofSelector? (d.entire r.cls))) S.graph =
        (.ok (), S₁.graph)) (hstore : S.store.Alike S₁.store)
    (hfollowed : followNames d steps r (d.entire r.cls) (d.entire r.cls).names visited S₁ =
      (.ok visited', S')) :
    Found d r document S S₁ S' visited visited' := by
  obtain ⟨cell, hcell, -⟩ := hr.cell
  have hlegible := hS.documents r.cls hc hregistered document (stored?_eq_some hstored).1
  obtain ⟨picked, g₁, happly⟩ := applyDocument_eq_ok hd hnamed hlegible hcell happlied
  have hfollowable := happly.followable hd hnamed hlegible hcell
  have hlt := Graph.lt_of_cell? hcell
  have hsize := happly.leaves_cell.size
  have hregistry : S₁.store.registry = S.store.registry := by
    obtain ⟨trace, journal, heq⟩ := hstore
    rw [heq]
  rw [Directory.entire, Selector.names_entire] at hfollowed
  refine ⟨⟨picked, g₁, happly⟩, hstore, hfollowable, ?_⟩
  exact followNames_loads hd hsteps hr.made hlt (fun name hname => hname) (by omega)
    (hS.alike hstore) (hregistry ▸ hfollowable) hfollowed

/-- A load changes the cell of its record, and those of records that it has made. -/
theorem Found.leaves {r : RecordRef} {document : Document} {S₁ : Session}
    {visited visited' : Visited} (hlt : r.serial < S.graph.cells.size)
    (h : Found d r document S S₁ S' visited visited') :
    Leaves (· ≠ r.serial) S.graph S'.graph ∧ ∀ name, S'.graph.own? r name = S₁.graph.own? r name := by
  obtain ⟨picked, g₁, happly⟩ := h.applied
  have hbefore := happly.leaves_cell
  have hapart : ∀ n < S.graph.cells.size, ∀ r' ∈ S₁.graph.recordsUnder r
      ((d.attributes r.cls).map Attribute.name), (d.definition r'.cls).referenceable = true →
        r'.serial ≠ n := by
    intro n hn r' hr' _
    have hplaced := (h.followable.placed r' hr').1
    omega
  have hsize := hbefore.size
  refine ⟨⟨?_, ?_⟩, ?_⟩
  · have hlater := h.loads.graph.size
    omega
  · intro n hn hne
    rw [h.loads.graph.cells n (by omega) (hapart n hn), hbefore.cells n hn hne]
  · intro name
    exact h.loads.graph.own? (by omega) (hapart r.serial hlt) name

theorem Applied.value?_of_key (hnamed : d.WellNamed) {registry : RegistryRef}
    {r : RecordRef} {document picked : Document} {g g₁ g' : Graph}
    (hdocument : Document.Legible d registry False r.cls document) {cell : Cell}
    (hcell : g.cell? r = some cell) (h : Applied d registry r document picked g g₁ g')
    {a : Attribute} (ha : a ∈ d.attributes r.cls) {t : Value}
    (ht : Fields.get? a.name document = some t) (hkey : t.IsKey) : g'.value? r a.name = some t := by
  have hlegible := hdocument.of_same h.distinct h.same
  have hassigns := Record.decodeAttributes_assigns h.distinct (Record.ne_newTag hlegible.accepts)
    hcell h.assigned
  rw [← h.same] at ht
  obtain ⟨v, hv, g₂, g₃, -, hdecode, -⟩ :=
    hassigns.assigned a.name t (Fields.mem_of_get? ht) (hnamed.ne_classTag r.cls a ha)
  rw [Record.decode_leaf (Value.isLeaf_of_isKey hkey)] at hdecode
  cases hdecode
  rw [h.same] at ht
  rw [Graph.value?_eq_some_iff]
  exact ⟨.store, (h.held a ha (Fields.mem_keys_iff.2 ⟨t, ht⟩)).trans hv⟩

theorem loadsWithin (hd : d.Lawful) (hnamed : d.WellNamed) (steps : Nat) : LoadsWithin d steps := by
  induction steps with
  | zero =>
    intro r throwIfMissing found visited visited' S S' _ _ _ h
    cases h
  | succ steps ih =>
    intro r throwIfMissing found visited visited' S S' hS hr hc h
    obtain ⟨hregistered, ⟨name, v⟩, hidentifier, houtcome⟩ := loadWithin_eq_ok hd hr h
    have hreferenceable := (Lawful.of_isRegistered hd hS.toLawful hc hregistered).1
    cases houtcome with
    | visited _ => exact .skip rfl (.refl _) [r] visited
    | missing _ _ hgraph hstore =>
      have hskip := Loads.skip (d := d) hgraph hstore [r] visited
      exact .single (hgraph ▸ .refl _ _) hstore hreferenceable
        (hskip.identifiers r List.mem_cons_self hreferenceable) (List.subset_append_left _ _)
    | @found document S₁ _ _ _ hstored happlied hstore hfollowed =>
      have hfound := found_of_run hd hnamed ih hr hS hc hregistered hstored happlied hstore hfollowed
      obtain ⟨cell, hcell, -⟩ := hr.cell
      obtain ⟨hleaves, hown⟩ := hfound.leaves (Graph.lt_of_cell? hcell)
      refine .single hleaves (hstore.trans hfound.loads.store) hreferenceable ?_
        (List.Subset.trans (List.subset_append_left _ _) hfound.loads.visited)
      intro name' v' hidentifier'
      rw [hidentifier] at hidentifier'
      cases hidentifier'
      obtain ⟨hmem, hholds⟩ := stored?_eq_some hstored
      obtain ⟨t, ht, hequal⟩ := Collection.holds_singleton hholds
      obtain ⟨⟨a, ha, rfl⟩, hv, -⟩ := Graph.identifier?_eq_some hidentifier
      rw [seen?_made hr.made] at hv
      have hkey := (hr.isKey hv).of_beq hequal
      obtain ⟨picked, g₁, happly⟩ := hfound.applied
      -- The stored key equals the one that the document was found by, but need not be the same value.
      refine ⟨t, ?_, .inr hequal⟩
      rw [seen?_made hr.made, Graph.value?_congr (hown a.name)]
      exact happly.value?_of_key hnamed (hS.documents r.cls hc hregistered document hmem) hcell
        (Definition.mem_attributeList_of_identifier ha) ht hkey

end Store

end TypedRecords
