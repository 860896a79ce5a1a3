import TypedRecords.Proofs.Database.Guarded
import TypedRecords.Proofs.Store.Plain

/-! # Stores that guard a path

A migration installs the indexes of each storable class. If a class declares that the values of one of
its references are unique, its collection is guarded from then on at the path where the identifiers of
the references are stored. Whatever is saved, loaded, deleted or migrated later keeps that.
-/

namespace TypedRecords

open Stateful (KeepsIn)

variable {d : Directory} {c : ClassRef} {name path : String} {known : Set RecordRef}

/-! ### Declared indexes -/

namespace Directory

/-- A class declares an index by which the values of an attribute are unique. -/
def DeclaresUnique (d : Directory) (c : ClassRef) (name : String) : Prop :=
  ∃ direction, { paths := [(name, direction)], unique := true } ∈ (d.definition c).indexes

/-- The path at which an attribute refers to records, whenever one can be derived. -/
def RefersAt (d : Directory) (c : ClassRef) (name path : String) : Prop :=
  ∀ derived, d.referencePath? c name = .ok derived → derived = some path

/-- A class that declares something is there. -/
theorem DeclaresUnique.bound (h : d.DeclaresUnique c name) : c.serial < d.classes.size := by
  obtain ⟨direction, hdeclared⟩ := h
  by_contra hnone
  have hempty : d.definition c = .empty := by
    simp [definition, entry, Array.getElem?_eq_none_iff.2 (Nat.le_of_not_lt hnone)]
  rw [hempty] at hdeclared
  cases hdeclared

theorem indexes_guardPath (hdeclares : d.DeclaresUnique c name) (hrefers : d.RefersAt c name path)
    {indexes : List Index} (h : d.indexes c = .ok indexes) :
    ∃ index ∈ indexes, index.GuardsPath path := by
  obtain ⟨direction, hdeclared⟩ := hdeclares
  obtain ⟨references, -, hrest⟩ := bind_eq_ok h
  obtain ⟨declared, hall, hpure⟩ := bind_eq_ok hrest
  cases hpure
  obtain ⟨index, hmem, hindex⟩ := mapM_eq_ok_mem hall hdeclared
  obtain ⟨paths, hpaths, hmade⟩ := bind_eq_ok hindex
  cases hmade
  simp only [List.mapM_cons, List.mapM_nil] at hpaths
  obtain ⟨first, hfirst, hothers⟩ := bind_eq_ok hpaths
  obtain ⟨derived, hderived, hentry⟩ := bind_eq_ok hfirst
  obtain rfl := hrefers derived hderived
  cases hentry
  cases hothers
  exact ⟨_, List.mem_append_right _ hmem, rfl, rfl⟩

/-- The path at which an attribute refers to records is that of an index. -/
theorem mem_indexes_of_referencePath? {a : Attribute} (ha : a ∈ d.attributes c)
    (hpath : d.referencePath? c a.name = .ok (some path)) {indexes : List Index}
    (h : d.indexes c = .ok indexes) : { paths := [(path, .asc)] } ∈ indexes := by
  obtain ⟨references, hall, hrest⟩ := bind_eq_ok h
  obtain ⟨declared, -, hpure⟩ := bind_eq_ok hrest
  cases hpure
  obtain ⟨index?, hmem, hindex⟩ := mapM_eq_ok_mem hall ha
  rw [referenceIndex?, hpath] at hindex
  cases hindex
  refine List.mem_append_left _ (List.mem_append_right _ ?_)
  exact List.mem_filterMap.2 ⟨_, hmem, rfl⟩

end Directory

namespace Store

/-! ### Classes and their collections -/

/-- Classes that are filed under their names, each once. -/
structure Filed (classes : Fields ClassRef) : Prop where
  names : ∀ name c, Fields.get? name classes = some c → c.name = name
  distinct : Fields.Distinct classes

/-- A store of plain documents that keeps the records of a class. -/
structure Houses (c : ClassRef) (s : Store) : Prop where
  concrete : s.Concrete
  filed : Filed s.storables
  there : Fields.get? c.name s.storables = some c

/-- The collection of the class is guarded as well. -/
structure Guards (c : ClassRef) (path : String) (s : Store) : Prop extends s.Houses c where
  guarded : (s.database.collection (s.collectionName c)).Guarded path

variable {s s' : Store}

/-- No other storable has the collection of the class. -/
theorem Houses.eq_of_collectionName (h : s.Houses c) {c' : ClassRef}
    (hc' : c' ∈ Fields.values s.storables) (hname : s'.collectionName c' = s'.collectionName c) :
    c' = c := by
  obtain ⟨⟨name, c''⟩, hmem, rfl⟩ := List.mem_map.1 hc'
  have hfound : Fields.get? name s.storables = some c'' := Fields.get?_of_mem h.filed.distinct hmem
  have hnames : c''.name = c.name := by simpa [collectionName, Settings.collectionName] using hname
  rw [← h.filed.names _ _ hfound, hnames, h.there] at hfound
  exact (Option.some.inj hfound).symm

theorem Guards.alike (h : s.Guards c path) (hs : s.Alike s') : s'.Guards c path := by
  obtain ⟨trace, journal, rfl⟩ := hs
  exact ⟨⟨h.concrete, h.filed, h.there⟩, h.guarded⟩

/-- A store with a database after a call that writes no document. -/
theorem Houses.called (h : s.Houses c) {call : Call} (hadds : call.adds = false) (collection : String)
    (journal : Option (List JournalEntry)) :
    ({ s with database := (call.run collection s.database).2, journal } : Store).Houses c where
  concrete name document hdocument :=
    h.concrete name document ((Call.documents_run hadds collection s.database name).subset hdocument)
  filed := h.filed
  there := h.there

theorem Guards.called (h : s.Guards c path) {call : Call} (hadds : call.adds = false)
    {collection : String} (hmigrate : ∀ indexes silent, call = .migrate indexes silent →
      collection = s.collectionName c → ∃ index ∈ indexes, index.GuardsPath path)
    (journal : Option (List JournalEntry)) :
    ({ s with database := (call.run collection s.database).2, journal } : Store).Guards c path :=
  ⟨h.toHouses.called hadds collection journal, Call.run_guarded h.guarded hmigrate⟩

/-! ### Migrations -/

variable {S S' : Session}

/-- How the migration of one class runs: its indexes cannot be derived, or they are installed unless the
documents refuse them. -/
theorem migrateClass_cases {c' : ClassRef} {result : Except Error Migration}
    (h : migrateClass d c' S = (result, S')) :
    (S' = S ∧ ∃ e, result = .error e) ∨ ∃ indexes, d.indexes c' = .ok indexes ∧
      S'.graph = S.graph ∧ Alike { S.store with
        database := (S.store.database.migrate (S.store.collectionName c') indexes).2 } S'.store ∧
      ∀ m, result = .ok m →
        ∃ m', (S.store.database.migrate (S.store.collectionName c') indexes).1 = .ok m' := by
  unfold migrateClass at h
  cases hindexes : d.indexes c' with
  | error e =>
    rw [hindexes] at h
    cases h
    exact .inl ⟨rfl, e, rfl⟩
  | ok indexes =>
    refine .inr ⟨indexes, rfl, ?_⟩
    rw [hindexes] at h
    have hget : (MonadState.get : StoreAction Session) S = (.ok S, S) := rfl
    rw [Stateful.bind_of_ok (rfl : check (.ok indexes) S = (.ok indexes, S)),
      Stateful.bind_of_ok hget] at h
    rcases hcall : call (S.store.collectionName c') (.migrate indexes S.store.settings.silentMigrations) S
      with ⟨answer, T⟩
    obtain ⟨hanswer, hgraph, journal, hstore⟩ := call_eq hcall
    have halike : Alike { S.store with
        database := (S.store.database.migrate (S.store.collectionName c') indexes).2 } T.store :=
      ⟨S.store.trace, journal, hstore⟩
    cases answer with
    | error e =>
      rw [Stateful.bind_of_error hcall] at h
      cases h
      exact ⟨hgraph, halike, nofun⟩
    | ok answer =>
      rw [Stateful.bind_of_ok hcall] at h
      have hmigrated : ∃ m, (S.store.database.migrate (S.store.collectionName c') indexes).1 = .ok m := by
        simp only [Call.run, Call.run.answer] at hanswer
        cases hmigrate : (S.store.database.migrate (S.store.collectionName c') indexes).1 with
        | ok m => exact ⟨m, rfl⟩
        | error e =>
          rw [hmigrate] at hanswer
          cases hanswer
      have hT : S' = T := by
        split at h <;> cases h <;> rfl
      rw [hT]
      exact ⟨hgraph, halike, fun _ _ => hmigrated⟩

/-- Migrating another class, or this one again, keeps a path guarded. -/
theorem Guards.migrateClass (hdeclares : d.DeclaresUnique c name) (hrefers : d.RefersAt c name path)
    (hS : S.store.Guards c path) {c' : ClassRef}
    (hc' : S.store.collectionName c' = S.store.collectionName c → c' = c) :
    (migrateClass d c' S).2.store.Guards c path := by
  rcases hrun : Store.migrateClass d c' S with ⟨result, S'⟩
  rcases migrateClass_cases hrun with ⟨rfl, -⟩ | ⟨indexes, hindexes, -, halike, -⟩
  · exact hS
  · have hguards : ∀ indexes' silent, Call.migrate indexes true = .migrate indexes' silent →
        S.store.collectionName c' = S.store.collectionName c →
          ∃ index ∈ indexes', index.GuardsPath path := by
      rintro indexes' silent ⟨rfl, rfl⟩ hname
      obtain rfl := hc' hname
      exact Directory.indexes_guardPath hdeclares hrefers hindexes
    exact (hS.called rfl hguards S.store.journal).alike halike

theorem Houses.migrateClass (hS : S.store.Houses c) (c' : ClassRef) :
    (migrateClass d c' S).2.store.Houses c := by
  rcases hrun : Store.migrateClass d c' S with ⟨result, S'⟩
  rcases migrateClass_cases hrun with ⟨rfl, -⟩ | ⟨indexes, -, -, halike, -⟩
  · exact hS
  · have hadds : (Call.migrate indexes true).adds = false := rfl
    have hcalled := hS.called hadds (S.store.collectionName c') S.store.journal
    obtain ⟨trace, journal, heq⟩ := halike
    rw [heq]
    exact ⟨hcalled.concrete, hcalled.filed, hcalled.there⟩

/-- A migration makes one call for each class. -/
theorem migrate_cases {result : Except Error (List Migration)} (h : migrate d S = (result, S')) :
    ∃ T, (Fields.values S.store.storables).mapM (Store.migrateClass d) S = (result, T) ∧
      S'.graph = T.graph ∧ T.store.Alike S'.store := by
  unfold migrate at h
  obtain ⟨T, hrun, hgraph, trace, hstore⟩ := tracing_eq h
  exact ⟨T, hrun, hgraph, trace, T.store.journal, hstore⟩

theorem graph_migrate (d : Directory) (S : Session) : (migrate d S).2.graph = S.graph := by
  rcases hrun : migrate d S with ⟨result, S'⟩
  obtain ⟨T, hmigrates, hgraph, -⟩ := migrate_cases hrun
  have hsame : ((Fields.values S.store.storables).mapM (Store.migrateClass d) S).2.graph = S.graph := by
    refine Stateful.snd_mapM (P := fun T : Session => T.graph = S.graph) (fun c' _ T hT => ?_) rfl
    rcases hstep : Store.migrateClass d c' T with ⟨result, T'⟩
    rcases migrateClass_cases hstep with ⟨rfl, -⟩ | ⟨-, -, hgraph, -⟩
    · exact hT
    · exact hgraph.trans hT
  rw [hmigrates] at hsame
  exact hgraph.trans hsame

/-- Another migration keeps a path guarded, whether it succeeds or not. -/
theorem Guards.migrate (hdeclares : d.DeclaresUnique c name) (hrefers : d.RefersAt c name path)
    (hS : S.store.Guards c path) : (migrate d S).2.store.Guards c path := by
  rcases hrun : Store.migrate d S with ⟨result, S'⟩
  obtain ⟨T, hmigrates, -, halike⟩ := migrate_cases hrun
  have hT : ((Fields.values S.store.storables).mapM (Store.migrateClass d) S).2.store.Guards c path :=
    Stateful.snd_mapM (P := fun T : Session => T.store.Guards c path)
      (fun c' hc' T hT => hT.migrateClass hdeclares hrefers (hS.eq_of_collectionName hc')) hS
  rw [hmigrates] at hT
  exact hT.alike halike

/-- A migration of some classes guards the path of one of them if it succeeds. -/
theorem guards_of_mapM (hdeclares : d.DeclaresUnique c name) (hrefers : d.RefersAt c name path)
    {classes : List ClassRef} (hc : c ∈ classes)
    (hclasses : ∀ c' ∈ classes, ∀ s : Store, s.collectionName c' = s.collectionName c → c' = c)
    (hS : S.store.Houses c) {ms : List Migration}
    (h : classes.mapM (Store.migrateClass d) S = (.ok ms, S')) : S'.store.Guards c path := by
  induction classes generalizing S ms with
  | nil => cases hc
  | cons c' rest ih =>
    obtain ⟨-, hrest⟩ := List.forall_mem_cons.1 hclasses
    rw [List.mapM_cons] at h
    obtain ⟨m, T, hfirst, hothers⟩ := Stateful.bind_eq_ok h
    obtain ⟨later, T', hlater, hpure⟩ := Stateful.bind_eq_ok hothers
    cases hpure
    have hT : T.store.Houses c := by
      have hhouses := hS.migrateClass (d := d) c'
      rwa [hfirst] at hhouses
    rcases List.mem_cons.1 hc with rfl | hc
    · -- The indexes of the class are installed here, and what comes later leaves them.
      obtain ⟨-, e, he⟩ | ⟨indexes, hindexes, -, halike, hinstalled⟩ := migrateClass_cases hfirst
      · cases he
      · obtain ⟨m', hm'⟩ := hinstalled m rfl
        obtain ⟨trace, journal, heq⟩ := halike
        have hguards : T.store.Guards c path := by
          refine ⟨hT, ?_⟩
          rw [heq]
          exact Database.migrate_guarded (Directory.indexes_guardPath hdeclares hrefers hindexes)
            (Prod.ext hm' rfl)
        have hlast : (rest.mapM (Store.migrateClass d) T).2.store.Guards c path :=
          Stateful.snd_mapM (P := fun T : Session => T.store.Guards c path)
            (fun c' hc' T hT => hT.migrateClass hdeclares hrefers (hrest c' hc' T.store)) hguards
        rwa [hlater] at hlast
    · exact ih hc hrest hT hlater

/-- A migration that succeeds guards the path at which a class declares its references to be unique. -/
theorem guards_of_migrate (hdeclares : d.DeclaresUnique c name) (hrefers : d.RefersAt c name path)
    (hS : S.store.Houses c) {ms : List Migration} (h : migrate d S = (.ok ms, S')) :
    S'.store.Guards c path := by
  obtain ⟨T, hmigrates, -, halike⟩ := migrate_cases h
  have hc : c ∈ Fields.values S.store.storables :=
    List.mem_map.2 ⟨_, Fields.mem_of_get? hS.there, rfl⟩
  exact (guards_of_mapM hdeclares hrefers hc
    (fun c' hc' s => hS.eq_of_collectionName hc') hS hmigrates).alike halike

/-! ### Operations -/

theorem guards_allowsLoading (hcoherent : d.Coherent) (c : ClassRef) (path : String) :
    AllowsLoading d d.Inherits (fun call => call.adds = false ∧ call.arranges = false)
      (fun _ s => s.Guards c path) where
  call _ s collection call _ hcall h := by
    refine h.called hcall.1 (fun indexes silent hmigrate => ?_) _
    subst hmigrate
    cases hcall.2
  trace _ s trace h := h.alike ⟨trace, s.journal, rfl⟩
  mono _ _ _ _ h := h
  read _ _ := ⟨rfl, rfl⟩
  within known s name h document hdocument := (h.concrete name document hdocument).within known
  found := hcoherent

theorem keepsIn_migrate_guards (hdeclares : d.DeclaresUnique c name) (hrefers : d.RefersAt c name path)
    {I : Set RecordRef → Graph → Prop} :
    KeepsIn (Holding I fun _ s => s.Guards c path) known (migrate d) fun _ _ => True := by
  rintro before - S ⟨hg, hs⟩
  refine ⟨before, subset_rfl, ⟨?_, hs.migrate hdeclares hrefers⟩, fun _ _ => trivial⟩
  rwa [graph_migrate]

theorem keepsIn_save_guards (hd : d.Lawful) {r : RecordRef} (hr : r ∈ known) (s : Selector)
    (expected : Expectation) :
    KeepsIn (Holding (fun known g => g.Typed d known) fun _ s => s.Guards c path) known
      (save d r s expected) fun _ _ => True := by
  have hI := Graph.typed_allowsWriting hd
  refine keepsIn_save_of hI (fun _ _ => .alike)
    (fun {_ _ _ _ _ p} hg hs hr _ hprepared isNew => ?_) hr s expected
  have hplain := hI.prepare_plain (fun _ _ _ hkey => hkey) hg hr hprepared
  refine ⟨⟨hs.concrete.saved hplain isNew _, hs.filed, hs.there⟩,
    Call.run_guarded hs.guarded fun indexes silent hmigrate => ?_⟩
  unfold savingCall at hmigrate
  split at hmigrate <;> cases hmigrate

end Store

end TypedRecords
