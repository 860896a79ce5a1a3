import TypedRecords.Collection.Index
import TypedRecords.Document.Projection
import TypedRecords.Document.Patch
import TypedRecords.Query.Evaluate

/-! # Collections

Documents in the order in which they came, and indexes. A document is found by the identifiers that it
holds. No two documents have one key in a unique index; a change that would make it so is refused.
-/

namespace TypedRecords

structure Collection where
  documents : List Document := []
  indexes : List Index := []
deriving Inhabited

namespace Collection

/-! ### Identification -/

/-- Whether a document holds equal values under all names of a descriptor. -/
def holds (document descriptor : Object) : Bool :=
  descriptor.all fun (name, v) =>
    match Fields.get? name document with
    | some stored => stored.beq v
    | none => false

/-- The place of the first document that a descriptor describes. The empty descriptor describes
none. -/
def position? (c : Collection) (descriptor : Object) : Option Nat :=
  if descriptor.isEmpty then none
  else c.documents.findIdx? fun document => holds document descriptor

/-! ### Uniqueness -/

/-- The documents but for the one at a place. -/
def others (c : Collection) (except : Option Nat) : List Document :=
  match except with
  | none => c.documents
  | some i => c.documents.eraseIdx i

/-- The first unique index in which a document would clash with others. -/
def clash? (c : Collection) (document : Document) (except : Option Nat) : Option Index :=
  c.indexes.find? fun i =>
    i.unique && i.hasKey document && (c.others except).any fun other => i.sameKey other document

/-! ### Queries -/

/-- The documents that meet all expressions. -/
def select (c : Collection) (es : List Expression) : Except Error (List Document) :=
  c.documents.filterM fun document => Query.evaluateAll (.object document) es

/-- Values of different kinds are sorted by kind, missing ones first. -/
def kindRank : Value → Nat
  | .undefined => 0
  | .null => 0
  | .boolean _ => 1
  | .number _ => 2
  | .string _ => 3
  | .date _ => 4
  | _ => 5

/-- Order of values in a sorting. -/
def compareValues (a b : Value) : Ordering :=
  (compare (kindRank a) (kindRank b)).then ((a.compare? b).getD .eq)

/-- Order of documents by the values at paths, the first difference deciding. -/
def compareBy : Fields Direction → Document → Document → Ordering
  | [], _, _ => .eq
  | (path, direction) :: rest, a, b =>
    let order := compareValues (Path.get (.object a) path) (Path.get (.object b) path)
    let order := match direction with
      | .asc => order
      | .desc => order.swap
    order.then (compareBy rest a b)

/-- Sorts documents; equal ones keep their order. -/
def sortBy (sort : Fields Direction) (documents : List Document) : List Document :=
  documents.mergeSort fun a b => compareBy sort a b != .gt

/-- So many documents from a place on. -/
def page (skip : Option Nat) (limit : Option Nat) (documents : List Document) : List Document :=
  let rest := documents.drop (skip.getD 0)
  match limit with
  | some n => rest.take n
  | none => rest

end Collection

end TypedRecords
