import TypedRecords.Proofs.Store.Loading

/-! # Loads end

A document that is read inside others is described by a field that described none of them, so no more
documents are read inside each other than there are fields. As long as all documents can be read, a
load gives a result.
-/

namespace TypedRecords

open TypedRecords.Graph (Leaves)

namespace Store

/-! ### Fields that describe -/

/-- The fields of all documents of a database, with the names of their collections. -/
def handles (db : Database) : List (String × String × Value) :=
  db.collections.flatMap fun (collection, c) =>
    c.documents.flatMap fun document => document.map fun (name, v) => (collection, name, v)

/-- Whether a document was read by an equal value of the field. -/
def wasUsed (visited : Visited) (handle : String × String × Value) : Bool :=
  visited.any fun (collection, descriptor) => collection == handle.1 &&
    match descriptor with
    | [(name, v)] => name == handle.2.1 && handle.2.2.beq v
    | _ => false

/-- How many fields were not used to read a document. -/
def unread (db : Database) (visited : Visited) : Nat :=
  (handles db).countP fun handle => !wasUsed visited handle

variable {db : Database} {visited visited' : Visited}

theorem wasUsed_mono (h : visited ⊆ visited') {handle : String × String × Value}
    (hused : wasUsed visited handle = true) : wasUsed visited' handle = true := by
  obtain ⟨entry, hentry, heq⟩ := List.any_eq_true.1 hused
  exact List.any_eq_true.2 ⟨entry, h hentry, heq⟩

theorem unread_mono (db : Database) (h : visited ⊆ visited') :
    unread db visited' ≤ unread db visited := by
  refine List.countP_mono_left fun handle _ hunused => ?_
  rw [Bool.not_eq_true'] at hunused ⊢
  rw [← Bool.not_eq_true] at hunused ⊢
  exact fun hused => hunused (wasUsed_mono h hused)

theorem unread_lt_of_used (h : visited ⊆ visited') {handle : String × String × Value}
    (hmem : handle ∈ handles db) (hunused : wasUsed visited handle = false)
    (hused : wasUsed visited' handle = true) : unread db visited' < unread db visited := by
  unfold unread
  generalize handles db = all at hmem
  induction all with
  | nil => cases hmem
  | cons first rest ih =>
    have hrest : rest.countP (fun handle => !wasUsed visited' handle) ≤
        rest.countP fun handle => !wasUsed visited handle := by
      refine List.countP_mono_left fun handle _ hnot => ?_
      rw [Bool.not_eq_true'] at hnot ⊢
      rw [← Bool.not_eq_true] at hnot ⊢
      exact fun hyes => hnot (wasUsed_mono h hyes)
    rw [List.countP_cons, List.countP_cons]
    rcases List.mem_cons.1 hmem with rfl | hmem
    · rw [hunused, hused]
      simp
      omega
    · have hlater := ih hmem
      by_cases hfirst : wasUsed visited first = true
      · rw [hfirst, wasUsed_mono h hfirst]
        simpa using hlater
      · rw [Bool.not_eq_true] at hfirst
        rw [hfirst]
        simp only [Bool.not_false, if_true]
        split <;> omega

theorem unread_le (db : Database) (visited : Visited) : unread db visited ≤ (handles db).length :=
  List.countP_le_length

theorem loadSteps_eq (T : Session) :
    loadSteps T = (.ok ((handles T.store.database).length + 2), T) := by
  have hlength : ((Fields.values T.store.database.collections).flatMap fun c =>
      c.documents.flatten).length = (handles T.store.database).length := by
    simp [handles, List.length_flatMap, List.length_flatten, Fields.values, Function.comp_def]
  rw [← hlength]
  rfl

theorem mem_handles {collection : String} {document : Document}
    (hdocument : document ∈ db.documents collection) {name : String} {v : Value}
    (hv : Fields.get? name document = some v) : (collection, name, v) ∈ handles db := by
  unfold Database.documents Database.collection at hdocument
  cases hread : Fields.get? collection db.collections with
  | none =>
    rw [hread] at hdocument
    cases hdocument
  | some c =>
    rw [hread] at hdocument
    refine List.mem_flatMap.2 ⟨(collection, c), Fields.mem_of_get? hread, ?_⟩
    refine List.mem_flatMap.2 ⟨document, hdocument, ?_⟩
    exact List.mem_map.2 ⟨(name, v), Fields.mem_of_get? hv, rfl⟩

theorem beq_of_key {t v w : Value} (hv : v.IsKey) (htv : t.beq v = true) (htw : t.beq w = true) :
    w.beq v = true := by
  rw [← hv.beq_comm, ← hv.beq_congr htv, htw]

/-- A document that was not read before is described by a field that was not used. -/
theorem unread_lt {s : Store} {c : ClassRef} {name : String} {v : Value} {document : Document}
    (hstored : s.stored? c [(name, v)] = some document) (hv : v.IsKey)
    (hnew : wasVisited visited (s.collectionName c) [(name, v)] = false) :
    unread s.database (visited ++ [(s.collectionName c, [(name, v)])]) <
      unread s.database visited := by
  obtain ⟨hmem, hholds⟩ := stored?_eq_some hstored
  obtain ⟨t, ht, hequal⟩ := Collection.holds_singleton hholds
  refine unread_lt_of_used (List.subset_append_left _ _) (mem_handles hmem ht) ?_ ?_
  · rw [← Bool.not_eq_true]
    intro hused
    obtain ⟨⟨collection, descriptor⟩, hentry, heq⟩ := List.any_eq_true.1 hused
    rw [← Bool.not_eq_true] at hnew
    refine hnew (List.any_eq_true.2 ⟨_, hentry, ?_⟩)
    rw [Bool.and_eq_true] at heq ⊢
    refine ⟨heq.1, ?_⟩
    obtain ⟨-, hmatch⟩ := heq
    split at hmatch
    · next name' w heq =>
      rw [Bool.and_eq_true, beq_iff_eq] at hmatch
      obtain ⟨rfl, hw⟩ := hmatch
      simpa [Value.beq, Value.beqFields, Fields.get?] using beq_of_key hv hequal hw
    · cases hmatch
  · refine List.any_eq_true.2 ⟨_, List.mem_append_right _ List.mem_cons_self, ?_⟩
    simpa using hequal

/-! ### Loads that give a result -/

variable {d : Directory} {S : Session} {r : RecordRef} {steps : Nat}

theorem onRecords_of_ok {α : Type} {action : Action α} {a : α} {g : Graph}
    (h : action S.graph = (.ok a, g)) : onRecords action S = (.ok a, { S with graph := g }) := by
  unfold onRecords
  rw [h]

theorem loadWithin_eq (hd : d.Lawful) (hr : r.Bare S.graph)
    (hregistered : S.store.isRegistered r.cls = true) {identifier : String × Value}
    (hidentifier : S.graph.identifier? d r = some identifier) (throwIfMissing : Bool)
    (visited : Visited) :
    loadWithin d (steps + 1) r .all throwIfMissing visited S =
      (if wasVisited visited (S.store.collectionName r.cls) [identifier] then pure (true, visited)
      else do
        let visited := visited ++ [(S.store.collectionName r.cls, [identifier])]
        match ← callDocument (S.store.collectionName r.cls)
          (.read [identifier] (Projection.ofSelector? (d.entire r.cls))) with
        | none =>
          if throwIfMissing then
            throw (.store (.loadMissing r.className (Value.object [identifier]).text))
          else pure (false, visited)
        | some document =>
          onRecords (applyDocument d (← get).store.registry r (d.entire r.cls) document)
          let visited ← followNames d steps r (d.entire r.cls) (d.entire r.cls).names visited
          pure (true, visited) : StoreAction (Bool × Visited)) S := by
  have hget : (MonadState.get : StoreAction Session) S = (.ok S, S) := rfl
  have hrequire : S.store.requireRegistered r.cls = .ok () := by
    unfold requireRegistered
    rw [hregistered]
    rfl
  have hcheck : check (S.store.requireRegistered r.cls) S = (.ok (), S) := by
    rw [hrequire]
    rfl
  have hdescribed : Record.descriptor d r S.graph = (.ok [identifier], S.graph) := by
    rw [Record.descriptor_made hr.made, hidentifier]
  rw [loadWithin, Stateful.bind_of_ok hget, Stateful.bind_of_ok hcheck,
    Stateful.bind_of_ok (onRecords_of_eq hdescribed), Stateful.bind_of_ok hget]
  dsimp only
  split
  · rfl
  · rw [Stateful.bind_of_ok (onRecords_of_eq (readSelector_of_bare hd hr))]
    rfl

/-- Every load gives a result for which the fields that are left suffice. -/
def Ends (d : Directory) (steps : Nat) : Prop :=
  ∀ (r : RecordRef) (throwIfMissing : Bool) (visited : Visited) (S : Session)
    (identifier : String × Value), S.store.Legible d True → S.store.database.available = true →
    r.Bare S.graph → r.cls.base? = none → S.store.isRegistered r.cls = true →
    S.graph.identifier? d r = some identifier →
    (throwIfMissing = true → S.store.stored? r.cls [identifier] ≠ none) →
    unread S.store.database visited < steps →
    ∃ result S', loadWithin d steps r .all throwIfMissing visited S = (.ok result, S')

theorem followRecords_ends (hd : d.Lawful) (hnamed : d.WellNamed) (hsteps : Ends d steps) {lo : Nat}
    {rs : List RecordRef} {visited : Visited} (hS : S.store.Legible d True)
    (havailable : S.store.database.available = true)
    (hrs : Followable d S.store.registry lo S.graph rs)
    (hunread : unread S.store.database visited < steps) :
    ∃ visited' S', followRecords d (fun inner visited => do
      pure (← loadWithin d steps inner .all false visited).2) .all rs visited S =
        (.ok visited', S') := by
  induction rs generalizing S visited with
  | nil => exact ⟨visited, S, rfl⟩
  | cons r rest ih =>
    have hrs : Followable d S.store.registry lo S.graph ([r] ++ rest) := hrs
    obtain ⟨hmade, hfound⟩ := hrs.found r List.mem_cons_self
    have hget : (MonadState.get : StoreAction Session) S = (.ok S, S) := rfl
    obtain ⟨follow, hfollow, hregistered⟩ := mustFollow_made (d := d) hmade S.store .all S.graph
    rw [followRecords, Stateful.bind_of_ok hget, Stateful.bind_of_ok (onRecords_of_eq hfollow)]
    cases follow with
    | false => exact ih hS havailable hrs.right hunread
    | true =>
      obtain ⟨hregistered, hidentified⟩ := hregistered rfl
      obtain ⟨identifier, hidentifier⟩ := Option.isSome_iff_exists.1 hidentified
      have hreferenceable := (Lawful.of_isRegistered hd hS.toLawful
        (hS.members _ _ hfound) hregistered).1
      have hbare := hrs.bare r List.mem_cons_self hreferenceable
      have hbase := hS.members _ _ hfound
      obtain ⟨⟨found, visited₁⟩, S₁, hload⟩ := hsteps r false visited S identifier hS havailable
        hbare hbase hregistered hidentifier (fun h => by cases h) hunread
      have hloads := loadsWithin hd hnamed steps r false found visited visited₁ S S₁
        (hS.imp fun _ => trivial) hbare hbase hload
      have hrest : Followable d S.store.registry lo S₁.graph rest := by
        refine hrs.right.leaves hloads.graph ?_
        intro r' hr' r'' hr'' _
        rw [List.mem_singleton.1 hr'']
        exact hrs.ne List.mem_cons_self hr'
      have hless := unread_mono S.store.database hloads.visited
      obtain ⟨trace, journal, heq⟩ := hloads.store
      have hregistry : S₁.store.registry = S.store.registry := by rw [heq]
      have hdatabase : S₁.store.database = S.store.database := by rw [heq]
      have hunread₁ : unread S₁.store.database visited₁ < steps := by
        rw [hdatabase]
        omega
      obtain ⟨visited', S', hlater⟩ := ih (hS.alike hloads.store) (hdatabase ▸ havailable)
        (hregistry ▸ hrest) hunread₁
      refine ⟨visited', S', ?_⟩
      simp only [if_true]
      have hstep : (do pure (← loadWithin d steps r .all false visited).2 : StoreAction Visited) S =
          (.ok visited₁, S₁) := by
        rw [Stateful.bind_of_ok hload]
        rfl
      rw [Stateful.bind_of_ok hstep]
      exact hlater

theorem followNames_ends (hd : d.Lawful) (hnamed : d.WellNamed) (hsteps : Ends d steps) {lo : Nat}
    (hr : r.base? = none) (hlo : r.serial < lo) {names all : List String}
    (hnames : ∀ name ∈ names, name ∈ all) {visited : Visited} (hlt : r.serial < S.graph.cells.size)
    (hS : S.store.Legible d True) (havailable : S.store.database.available = true)
    (hrs : Followable d S.store.registry lo S.graph (S.graph.recordsUnder r names))
    (hunread : unread S.store.database visited < steps) :
    ∃ visited' S', followNames d steps r (.entire all) names visited S = (.ok visited', S') := by
  induction names generalizing S visited with
  | nil => exact ⟨visited, S, rfl⟩
  | cons name rest ih =>
    obtain ⟨hname, hnamesRest⟩ := List.forall_mem_cons.1 hnames
    rw [followNames, List.foldlM_cons]
    have hhead := (recordsUnder_cons _ _ _ _ ▸ hrs).left
    obtain ⟨visited₁, S₁, hstep⟩ := followRecords_ends hd hnamed hsteps hS havailable hhead hunread
    have hfirst := followRecords_loads hd (loadsWithin hd hnamed steps) (hS.imp fun _ => trivial) hhead
      hstep
    rw [← followName_made hr hname] at hstep
    obtain ⟨hsame, hfollowable⟩ := hfirst.rest hlo hlt hrs
    have hsize := hfirst.graph.size
    have hless := unread_mono S.store.database hfirst.visited
    obtain ⟨trace, journal, heq⟩ := hfirst.store
    have hdatabase : S₁.store.database = S.store.database := by rw [heq]
    have hunread₁ : unread S₁.store.database visited₁ < steps := by
      rw [hdatabase]
      omega
    obtain ⟨visited', S', hlater⟩ := ih hnamesRest (by omega) (hS.alike hfirst.store)
      (hdatabase ▸ havailable) hfollowable hunread₁
    refine ⟨visited', S', ?_⟩
    rw [Stateful.bind_of_ok hstep]
    exact hlater

/-- Loads end, and give a result. -/
theorem ends (hd : d.Lawful) (hnamed : d.WellNamed) (steps : Nat) : Ends d steps := by
  induction steps with
  | zero =>
    intro r throwIfMissing visited S identifier _ _ _ _ _ _ _ hunread
    omega
  | succ steps ih =>
    intro r throwIfMissing visited S ⟨name, v⟩ hS havailable hr hc hregistered hidentifier hthrow
      hunread
    obtain ⟨cell, hcell, -⟩ := hr.cell
    rw [loadWithin_eq hd hr hregistered hidentifier]
    split
    · exact ⟨_, S, rfl⟩
    · next hnew =>
      rw [Bool.not_eq_true] at hnew
      obtain ⟨S₁, hcall⟩ := callDocument_read_of_available havailable r.cls [(name, v)]
        (Projection.ofSelector? (d.entire r.cls))
      obtain ⟨-, hgraph, hstore⟩ := callDocument_read_eq_ok hcall
      rw [Stateful.bind_of_ok hcall]
      cases hstored : S.store.stored? r.cls [(name, v)] with
      | none =>
        have hquiet : throwIfMissing = false := by
          cases throwIfMissing with
          | false => rfl
          | true => exact absurd hstored (hthrow rfl)
        rw [hquiet]
        exact ⟨_, S₁, rfl⟩
      | some document =>
        have hlegible := hS.documents r.cls hc hregistered document (stored?_eq_some hstored).1
        obtain ⟨g₂, happlied⟩ := applyDocument_of_legible hd hnamed hlegible hcell
        have hquietly := hlegible.imp fun _ : False => trivial
        obtain ⟨picked, g₁, happly⟩ := applyDocument_eq_ok hd hnamed hquietly hcell happlied
        have hfollowable := happly.followable hd hnamed hquietly hcell
        have hlt := Graph.lt_of_cell? hcell
        have hsize := happly.leaves_cell.size
        have hkey := hr.isKey
          ((seen?_made hr.made _ _).symm.trans (Graph.identifier?_eq_some hidentifier).2.1)
        -- This document was not read before, so there are fewer left than steps.
        have hless := unread_lt hstored hkey hnew
        obtain ⟨trace, journal, heq⟩ := hstore
        have hregistry : S₁.store.registry = S.store.registry := by rw [heq]
        have hdatabase : S₁.store.database = S.store.database := by rw [heq]
        have hS₁ : S₁.store.Legible d True := hS.alike ⟨trace, journal, heq⟩
        have hrun : applyDocument d S₁.store.registry r (d.entire r.cls)
            (Document.project document (Projection.ofSelector? (d.entire r.cls))) S₁.graph =
              (.ok (), g₂) := by
          rw [hregistry, hgraph]
          exact happlied
        obtain ⟨visited', S', hfollowed⟩ := followNames_ends (S := { S₁ with graph := g₂ }) hd hnamed
          ih hr.made hlt (fun name hname => hname) (by dsimp only; omega) hS₁ (hdatabase ▸ havailable)
          (hregistry ▸ hfollowable) (hdatabase ▸ Nat.lt_of_lt_of_le hless (by omega))
        have hget : (MonadState.get : StoreAction Session) S₁ = (.ok S₁, S₁) := rfl
        refine ⟨(true, visited'), S', ?_⟩
        simp only [Option.map_some]
        rw [Stateful.bind_of_ok hget, Stateful.bind_of_ok (onRecords_of_ok hrun), Directory.entire,
          Selector.names_entire, Stateful.bind_of_ok hfollowed]
        rfl

end Store

end TypedRecords
