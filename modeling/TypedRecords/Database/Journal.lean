import TypedRecords.Database

/-! # Journals

A journal records the calls to a database with their parameters and answers, as values that read like
the calls.
-/

namespace TypedRecords

/-- A call to a database, for one of its collections. -/
inductive Call where
  | create (descriptor document : Object)
  | read (descriptor : Object) (projection : Option Projection)
  | update (descriptor : Object) (patch : Patch)
  | delete (descriptor : Object)
  | find (search : Search)
  | count (expressions : List Expression)
  | migrate (indexes : List Index) (silent : Bool)
deriving Inhabited

/-- What a call answers. -/
inductive Answer where
  | flag (b : Bool)
  | document (d : Option Document)
  | documents (ds : List Document)
  | number (n : Nat)
  | migration (m : Migration)
deriving Inhabited

/-- An answer as a value; a document that is not there is null. -/
def Answer.toValue : Answer → Value
  | .flag b => .boolean b
  | .document none => .null
  | .document (some fields) => .object fields
  | .documents found => .array (found.map .object)
  | .number n => .ofNat n
  | .migration m => m.toValue

def directionsToValue (sort : Fields Direction) : Value :=
  .object (Fields.mapValues (fun direction => .string direction.text) sort)

namespace Call

def name : Call → String
  | .create _ _ => "createDocument"
  | .read _ _ => "readDocument"
  | .update _ _ => "updateDocument"
  | .delete _ => "deleteDocument"
  | .find _ => "findDocuments"
  | .count _ => "countDocuments"
  | .migrate _ _ => "migrateCollection"

def projectionToValue : Option Projection → Value
  | none => .undefined
  | some paths => .object (paths.map fun path => (path, .number Number.one))

def expressionsToValue (es : List Expression) : Value := .array (Expression.toValues es)

/-- The parameters of a call. -/
def parameters (collection : String) (call : Call) : Value :=
  .object (("collectionName", .string collection) ::
    match call with
    | .create descriptor document =>
      [("identifierDescriptor", .object descriptor), ("document", .object document)]
    | .read descriptor projection =>
      [("identifierDescriptor", .object descriptor), ("projection", projectionToValue projection)]
    | .update descriptor patch =>
      [("identifierDescriptor", .object descriptor), ("documentPatch", patch.toValue)]
    | .delete descriptor => [("identifierDescriptor", .object descriptor)]
    | .find search =>
      [("expressions", expressionsToValue search.expressions),
        ("projection", projectionToValue search.projection),
        ("sort", directionsToValue search.sort),
        ("skip", Value.ofOption Value.ofNat search.skip),
        ("limit", Value.ofOption Value.ofNat search.limit)]
    | .count es => [("expressions", expressionsToValue es)]
    | .migrate indexes silent =>
      [("indexes", .array (indexes.map fun i => .string i.name)), ("silent", .boolean silent)])

/-- Makes a call. -/
def run (collection : String) (call : Call) (db : Database) : Except Error Answer × Database :=
  match call with
  | .create descriptor document => answer .flag (db.create collection descriptor document)
  | .read descriptor projection => answer .document (db.read collection descriptor projection)
  | .update descriptor patch => answer .flag (db.update collection descriptor patch)
  | .delete descriptor => answer .flag (db.delete collection descriptor)
  | .find search => answer .documents (db.find collection search)
  | .count es => answer .number (db.count collection es)
  | .migrate indexes _ => answer .migration (db.migrate collection indexes)
where
  answer {α : Type} (f : α → Answer) (result : Except Error α × Database) :
      Except Error Answer × Database :=
    (result.1.map f, result.2)

end Call

/-- A call that was made, with its answer. -/
structure JournalEntry where
  collection : String
  call : Call
  answer : Except Error Answer
deriving Inhabited

end TypedRecords
