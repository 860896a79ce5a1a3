import TypedRecords.Collection

/-! # Databases

Collections by name, in memory. A collection that nothing was written to is empty. A database that is
not available refuses every call.
-/

namespace TypedRecords

structure Database where
  collections : Fields Collection := []
  available : Bool := true
deriving Inhabited

/-- What to find, and how to arrange it. -/
structure Search where
  expressions : List Expression
  projection : Option Projection := none
  sort : Fields Direction := []
  skip : Option Nat := none
  limit : Option Nat := none
deriving Inhabited

/-- What a migration changed. -/
structure Migration where
  collection : String
  created : List String
  dropped : List String
deriving DecidableEq, Repr, Inhabited

def Migration.toValue (m : Migration) : Value :=
  .object [("name", .string m.collection),
    ("createdIndexes", .array (m.created.map .string)),
    ("droppedIndexes", .array (m.dropped.map .string))]

namespace Database

def collection (db : Database) (name : String) : Collection :=
  (Fields.get? name db.collections).getD {}

def documents (db : Database) (name : String) : List Document := (db.collection name).documents

def indexNames (db : Database) (name : String) : List String :=
  (db.collection name).indexes.map Index.name

def put (db : Database) (name : String) (c : Collection) : Database :=
  { db with collections := Fields.insert name c db.collections }

/-- Runs a call, unless the database is not available. -/
def whenAvailable {α : Type} (db : Database) (call : Except Error (α × Database)) :
    Except Error α × Database :=
  if db.available then
    match call with
    | .ok (a, db) => (.ok a, db)
    | .error e => (.error e, db)
  else (.error (.database .unavailable), db)

/-- Runs a call that writes as it goes, unless the database is not available. What the call has written
before it fails stays written. -/
def whileAvailable {α : Type} (db : Database) (call : Database → Except Error α × Database) :
    Except Error α × Database :=
  if db.available then call db else (.error (.database .unavailable), db)

/-- Makes the collection under a name, if there is none. -/
def enter (db : Database) (name : String) : Database := db.put name (db.collection name)

/-- The error of a document that clashes with others, if it does. -/
def refuseClash (name : String) (c : Collection) (document : Document) (except : Option Nat) :
    Except Error Unit :=
  match c.clash? document except with
  | some i => throw (.duplicateKey name i.name)
  | none => pure ()

/-! ### Single documents -/

/-- Adds a document, unless there is one with the identifiers already. The collection is made first,
whatever comes of the call. -/
def create (db : Database) (name : String) (descriptor document : Object) :
    Except Error Bool × Database :=
  db.whileAvailable fun db =>
    let db := db.enter name
    let c := db.collection name
    if (c.position? descriptor).isSome then (.ok false, db)
    else
      match refuseClash name c document none with
      | .error e => (.error e, db)
      | .ok () => (.ok true, db.put name { c with documents := c.documents ++ [document] })

/-- The part of a document at the projected paths. -/
def read (db : Database) (name : String) (descriptor : Object) (projection : Option Projection) :
    Except Error (Option Document) × Database :=
  db.whenAvailable do
    let c := db.collection name
    let found := (c.position? descriptor).bind fun i => c.documents[i]?
    pure (found.map fun document => Document.project document projection, db)

/-- Patches a document; answers whether there is one. -/
def update (db : Database) (name : String) (descriptor : Object) (patch : Patch) :
    Except Error Bool × Database :=
  db.whenAvailable do
    let c := db.collection name
    match c.position? descriptor with
    | none => pure (false, db)
    | some i =>
      let patched := patch.apply (c.documents[i]?.getD [])
      refuseClash name c patched (some i)
      pure (true, db.put name { c with documents := c.documents.set i patched })

/-- Removes a document; answers whether there was one. -/
def delete (db : Database) (name : String) (descriptor : Object) : Except Error Bool × Database :=
  db.whenAvailable do
    let c := db.collection name
    match c.position? descriptor with
    | none => pure (false, db)
    | some i => pure (true, db.put name { c with documents := c.documents.eraseIdx i })

/-! ### Queries -/

/-- The documents that meet all expressions, sorted, then cut to a page, then projected. -/
def find (db : Database) (name : String) (search : Search) :
    Except Error (List Document) × Database :=
  db.whenAvailable do
    let matching ← (db.collection name).select search.expressions
    let sorted := Collection.sortBy search.sort matching
    let paged := Collection.page search.skip search.limit sorted
    pure (paged.map fun document => Document.project document search.projection, db)

def count (db : Database) (name : String) (es : List Expression) : Except Error Nat × Database :=
  db.whenAvailable do
    let matching ← (db.collection name).select es
    pure (matching.length, db)

/-! ### Indexes -/

/-- Checks every document of a collection against the others. -/
def checkAll (name : String) (c : Collection) : Except Error Unit :=
  (List.range c.documents.length).forM fun i =>
    refuseClash name c (c.documents[i]?.getD []) (some i)

/-- Installs the given indexes, and then checks the documents. If they do not allow it, the previous
indexes are installed again. -/
def migrate (db : Database) (name : String) (indexes : List Index) :
    Except Error Migration × Database :=
  db.whileAvailable fun db =>
    let db := db.enter name
    let previous := (db.collection name).indexes
    let existing := previous.map Index.name
    let wanted := indexes.map Index.name
    let migrated := { db.collection name with indexes }
    let db := db.put name migrated
    match checkAll name migrated with
    | .error e => (.error e, db.put name { migrated with indexes := previous })
    | .ok () => (.ok ⟨name, wanted.filter fun n => !existing.contains n,
        existing.filter fun n => !wanted.contains n⟩, db)

end Database

end TypedRecords
