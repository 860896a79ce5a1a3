import TypedRecords.Store
import TypedRecords.Record.Validation
import TypedRecords.Tree.Encode
import TypedRecords.Tree.Decode
import TypedRecords.Selector.Pick
import TypedRecords.Query.Compile

/-! # Operations of a store

Operations run on the records and the store together. The directory of classes does not change.
-/

namespace TypedRecords

/-- What the operations of a store change. -/
structure Session where
  graph : Graph
  store : Store

abbrev StoreAction := ExceptT Error (StateM Session)

namespace Store

/-- An operation on the records alone. -/
def onRecords {α : Type} (action : Action α) : StoreAction α := fun session =>
  let (result, graph) := action session.graph
  (result, { session with graph })

def check {α : Type} : Except Error α → StoreAction α
  | .ok a => pure a
  | .error e => throw e

/-- Makes a call to the database, and writes it into the journal if there is one. -/
def call (collection : String) (call : Call) : StoreAction Answer := fun session =>
  let (answer, database) := call.run collection session.store.database
  let entry : JournalEntry := ⟨collection, call, answer⟩
  let journal := session.store.journal.map fun entries => entries ++ [entry]
  (answer, { session with store := { session.store with database, journal } })

def callFlag (collection : String) (c : Call) : StoreAction Bool := do
  match ← call collection c with
  | .flag b => pure b
  | _ => pure false

def callDocument (collection : String) (c : Call) : StoreAction (Option Document) := do
  match ← call collection c with
  | .document document => pure document
  | _ => pure none

/-- Runs an operation; while the store traces, its parameters and its outcome are recorded. -/
def tracing {α : Type} (operation : String) (parameters : List Value) (toValue : α → Value)
    (run : StoreAction α) : StoreAction α := fun session =>
  let (result, after) := run session
  if session.store.isTracing then
    let outcome := match result with
      | .ok a => Outcome.result (toValue a)
      | .error e => Outcome.ofError e
    (result, { after with store := after.store.record ⟨operation, parameters, outcome⟩ })
  else (result, after)

def recordToValue : Option RecordRef → Value
  | some r => .record r
  | none => .undefined

variable (d : Directory)

/-! ### Loading -/

/-- Makes a selector that lists part of a reference's attributes list its identifiers too, or the
reference could not be followed. -/
def withReferenceIdentifiers (c : ClassRef) (s : Selector) : Selector :=
  (d.attributes c).foldl (fun s a =>
    match s.get a.name, a.type.recordClass?.bind (d.component? c) with
    | .only fields, some other =>
      let definition := d.definition other
      if definition.referenceable then
        s.set a.name ((Selector.only fields).merge definition.identifierSelector)
      else s
    | _, _ => s) s

/-- A document that was read: its collection and its descriptor. -/
abbrev Visited := List (String × Object)

def wasVisited (visited : Visited) (collection : String) (descriptor : Object) : Bool :=
  visited.any fun (other, described) =>
    other == collection && (Value.object described).beq (.object descriptor)

/-- The selector with which a record is read. -/
def readSelector (r : RecordRef) (s : Selector) : Action Selector := do
  let identifiers := (d.definition r.cls).identifierSelector
  let resolved ← Record.resolve d {} r (identifiers.merge s)
  pure (withReferenceIdentifiers d r.cls resolved)

/-- Stored documents leave out what is undefined: so do attributes that may be undefined; others are
unset. -/
def assignMissing (r : RecordRef) (name : String) : Action Unit := do
  let a ← Record.ofExcept (d.attributeNamed r.cls name)
  if a.type.allowsUndefined then Record.setFrom d .store r name .undefined
  else Record.unset d r name

/-- Applies the selected part of a document to a record. -/
def applyDocument (registry : RegistryRef) (r : RecordRef) (s : Selector) (document : Document) :
    Action Unit := do
  match Selector.pick [Tree.classTag] s (.object document) with
  | .object picked => do
    Record.decodeInto d registry .store r (.object picked)
    (s.names.filter fun name => !Fields.contains name picked).forM (assignMissing d r)
    Record.mark r false
  | v => throw (.database (.notADocument v.typeName))

/-- Whether a record that was reached has to be loaded itself. -/
def mustFollow (store : Store) (sub : Selector) (r : RecordRef) : Action Bool := do
  if !store.isRegistered r.cls then pure false
  else if ← Record.hasIdentifiers d r then
    pure (!((d.definition r.cls).identifierSelector.includes sub))
  else pure false

/-- Loads records one after the other, where they have to be. -/
def followRecords (load : RecordRef → Visited → StoreAction Visited) (sub : Selector) :
    List RecordRef → Visited → StoreAction Visited
  | [], visited => pure visited
  | r :: rest, visited => do
    let visited ←
      if ← onRecords (mustFollow d (← get).store sub r) then load r visited else pure visited
    followRecords load sub rest visited

/-- Loads a record and what it refers to, reading at most so many documents inside each other; answers
whether there is a document, and which documents were read. -/
def loadWithin : (steps : Nat) → RecordRef → Selector → (throwIfMissing : Bool) → Visited →
    StoreAction (Bool × Visited)
  | 0, _, _, _, _ => throw .unending
  | steps + 1, r, s, throwIfMissing, visited => do
    check ((← get).store.requireRegistered r.cls)
    let descriptor ← onRecords (Record.descriptor d r)
    let collection := (← get).store.collectionName r.cls
    if wasVisited visited collection descriptor then pure (true, visited)
    else
      let visited := visited ++ [(collection, descriptor)]
      let s ← onRecords (readSelector d r s)
      match ← callDocument collection (.read descriptor (Projection.ofSelector? s)) with
      | none =>
        if throwIfMissing then
          throw (.store (.loadMissing r.className (Value.object descriptor).text))
        else pure (false, visited)
      | some document =>
        onRecords (applyDocument d (← get).store.registry r s document)
        let visited ← s.names.foldlM (fun visited name => do
          match ← onRecords (Record.lift (r.value? name)) with
          | none => pure visited
          | some v =>
            let sub := s.get name
            let load (inner : RecordRef) (visited : Visited) : StoreAction Visited := do
              pure (← loadWithin steps inner sub false visited).2
            followRecords d load sub v.records visited) visited
        pure (true, visited)

/-- How many documents can be read inside each other: no document is read twice for one identifier. -/
def loadSteps : StoreAction Nat := do
  let collections := Fields.values (← get).store.database.collections
  pure ((collections.flatMap fun c => c.documents.flatten).length + 2)

/-- Loads the selected attributes of a record. -/
def load (r : RecordRef) (s : Selector) (throwIfMissing : Bool) :
    StoreAction (Option RecordRef) :=
  let options : Object :=
    [("attributeSelector", s.toValue), ("throwIfMissing", .boolean throwIfMissing)]
  tracing "load" [.record r, .object options] recordToValue do
    let (found, _) ← loadWithin d (← loadSteps) r s throwIfMissing []
    pure (if found then some r else none)

/-! ### Saving -/

/-- What the caller expects of the document; by default a new record has none yet. -/
structure Expectation where
  throwIfMissing : Option Bool := none
  throwIfExists : Option Bool := none
deriving Inhabited

/-- A duplicate key is reported as an attribute that is not unique. -/
def uniqueFault (c : ClassRef) : Error → Error
  | .duplicateKey _ index => .store (.notUnique c.name index)
  | e => e

def callSaving (c : ClassRef) (collection : String) (wanted : Call) : StoreAction Bool :=
  tryCatch (callFlag collection wanted) fun e => throw (uniqueFault c e)

/-- The selector with which a record is written. -/
def writeSelector (r : RecordRef) (s : Selector) : Action Selector :=
  let identifiers := (d.definition r.cls).identifierSelector
  Record.resolve d { setOnly := true, includeReferenced := false } r (identifiers.merge s)

/-- The document of a record. -/
def documentOf (r : RecordRef) (s : Selector) : Action Document := do
  match ← Record.encode d .store s (.record r) with
  | .object fields => pure fields
  | v => throw (.usage (.notATree v.typeName))

def saveRecord (r : RecordRef) (s : Selector) (expected : Expectation) :
    StoreAction (Option RecordRef) := do
  check ((← get).store.requireRegistered r.cls)
  let isNew := (← get).graph.isNew r
  let throwIfMissing := expected.throwIfMissing.getD !isNew
  let throwIfExists := expected.throwIfExists.getD isNew
  if throwIfMissing && throwIfExists then throw (.usage .conflictingExpectations)
  else
    let s ← onRecords (writeSelector d r s)
    onRecords (Record.validate d r s)
    let descriptor ← onRecords (Record.descriptor d r)
    let collection := (← get).store.collectionName r.cls
    let document ← onRecords (documentOf d r s)
    let written ← callSaving r.cls collection
      (if isNew then .create descriptor (Value.stripFields document)
        else .update descriptor (Patch.ofDocument document))
    let identifier := (Value.object descriptor).text
    if written then
      onRecords (Record.mark r false)
      onRecords (Record.setSources d .store r s)
      pure (some r)
    else if isNew && throwIfExists then
      throw (.store (.saveExisting r.className identifier))
    else if !isNew && throwIfMissing then
      throw (.store (.saveMissing r.className identifier))
    else pure none

/-- Validates and writes the selected attributes of a record. -/
def save (r : RecordRef) (s : Selector) (expected : Expectation) :
    StoreAction (Option RecordRef) :=
  let options : Object :=
    [("attributeSelector", s.toValue),
      ("throwIfMissing", Value.ofOption .boolean expected.throwIfMissing),
      ("throwIfExists", Value.ofOption .boolean expected.throwIfExists)]
  tracing "save" [.record r, .object options] recordToValue (saveRecord d r s expected)

/-! ### Deleting -/

def deleteRecord (r : RecordRef) (throwIfMissing : Bool) : StoreAction (Option RecordRef) := do
  check ((← get).store.requireRegistered r.cls)
  let descriptor ← onRecords (Record.descriptor d r)
  let collection := (← get).store.collectionName r.cls
  if ← callFlag collection (.delete descriptor) then
    onRecords (Record.mark r true)
    pure (some r)
  else if throwIfMissing then
    throw (.store (.deleteMissing r.className (Value.object descriptor).text))
  else pure none

/-- Removes the document of a record, which is new again afterwards. -/
def delete (r : RecordRef) (throwIfMissing : Bool) : StoreAction (Option RecordRef) :=
  let options : Object := [("throwIfMissing", .boolean throwIfMissing)]
  tracing "delete" [.record r, .object options] recordToValue (deleteRecord d r throwIfMissing)

/-! ### Finding -/

/-- Compiles a query in which records stand for their references. -/
def compileQuery (query : Value) : StoreAction (List Expression) := do
  check (Query.compile (← onRecords (Record.encode d .store .all query)))

/-- The identifiers in a document. -/
def identifiersIn (c : ClassRef) (document : Document) : Object :=
  (d.definition c).identifiers.filterMap fun a =>
    match Fields.get? a.name document with
    | some .undefined => none
    | some v => some (a.name, v)
    | none => none

/-- The record of a document that was found. -/
def foundRecord (c : ClassRef) (s : Selector) (document : Document) : StoreAction RecordRef := do
  let r ← onRecords (Record.withIdentifiers d c (identifiersIn d c document))
  onRecords (Record.setSources d .store r (d.definition c).identifierSelector)
  if s.isNone then pure r
  else
    let _ ← loadWithin d (← loadSteps) r s true []
    pure r

/-- What to find, and what to load of what is found. -/
structure FindOptions where
  selector : Selector := .none
  sort : Fields Direction := []
  skip : Option Nat := none
  limit : Option Nat := none
deriving Inhabited

def findRecords (c : ClassRef) (query : Value) (options : FindOptions) :
    StoreAction (List RecordRef) := do
  check ((← get).store.requireRegistered c)
  let expressions ← compileQuery d query
  let search : Search :=
    { expressions
      projection := Projection.ofSelector? (d.definition c).identifierSelector
      sort := options.sort
      skip := options.skip
      limit := options.limit }
  match ← call ((← get).store.collectionName c) (.find search) with
  | .documents documents => documents.mapM (foundRecord d c options.selector)
  | _ => pure []

/-- The records of the documents that meet a query. -/
def find (c : ClassRef) (query : Value) (options : FindOptions) : StoreAction (List RecordRef) :=
  let shown : Object :=
    [("attributeSelector", options.selector.toValue), ("sort", directionsToValue options.sort),
      ("skip", Value.ofOption Value.ofNat options.skip),
      ("limit", Value.ofOption Value.ofNat options.limit)]
  tracing "find" [.classRef c, query, .object shown] (fun rs => .array (rs.map .record))
    (findRecords d c query options)

/-- How many documents meet a query. -/
def count (c : ClassRef) (query : Value) : StoreAction Nat :=
  tracing "count" [.classRef c, query] Value.ofNat do
    check ((← get).store.requireRegistered c)
    let expressions ← compileQuery d query
    match ← call ((← get).store.collectionName c) (.count expressions) with
    | .number n => pure n
    | _ => pure 0

/-! ### Migration -/

def migrateClass (c : ClassRef) : StoreAction Migration := do
  let indexes ← check (d.indexes c)
  let store := (← get).store
  let collection := store.collectionName c
  match ← call collection (.migrate indexes store.settings.silentMigrations) with
  | .migration m => pure m
  | _ => pure ⟨collection, [], []⟩

/-- Brings the indexes of every storable's collection in line with its class. -/
def migrate : StoreAction (List Migration) :=
  tracing "migrateStorables" [] (fun ms => .array (ms.map Migration.toValue)) do
    (Fields.values (← get).store.storables).mapM (migrateClass d)

end Store

end TypedRecords
