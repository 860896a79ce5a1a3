import TypedRecords.Document.Path
import TypedRecords.Class.Directory

/-! # Indexes

An index of a collection: paths with directions, and whether the values at the paths may occur once
only. The indexes of a class are those of its identifiers, of its references and the declared ones; a
path that names a reference stands for the identifier that is stored for it.
-/

namespace TypedRecords

structure Index where
  paths : Fields Direction
  primary : Bool := false
  unique : Bool := false
deriving Inhabited

namespace Index

/-- The name of an index: `year:desc+title:asc`. -/
def name (i : Index) : String :=
  "+".intercalate (i.paths.map fun (path, direction) => path ++ ":" ++ direction.text)

/-- The values of a document at the paths; undefined where there is none. -/
def key (i : Index) (document : Document) : List Value :=
  (Fields.keys i.paths).map (Path.get (.object document))

/-- The document's key takes no part in uniqueness if nothing of it is defined. -/
def hasKey (i : Index) (document : Document) : Bool :=
  (i.key document).any fun v => !v.isUndefined

/-- Whether two documents have equal keys. -/
def sameKey (i : Index) (a b : Document) : Bool := Value.beqItems (i.key a) (i.key b)

end Index

/-! ### The indexes of a class -/

namespace Directory

/-- Where the identifier of a reference is stored, if the name is that of an attribute that refers to
records by identifier. -/
def referencePath? (d : Directory) (c : ClassRef) (name : String) :
    Except Error (Option String) :=
  match ((d.definition c).attribute? name).bind fun a => a.type.recordClass? with
  | none => pure none
  | some other => do
    let definition := d.definition (← d.component c other)
    pure (if definition.referenceable then
      definition.primary?.map fun a => name ++ "." ++ a.name else none)

def identifierIndex (a : Attribute) : Index :=
  { paths := [(a.name, .asc)], primary := a.role == .primary, unique := true }

def referenceIndex? (d : Directory) (c : ClassRef) (a : Attribute) : Except Error (Option Index) := do
  pure ((← d.referencePath? c a.name).map fun path => { paths := [(path, .asc)] })

def declaredIndex (d : Directory) (c : ClassRef) (i : IndexDeclaration) : Except Error Index := do
  let paths ← i.paths.mapM fun (path, direction) => do
    pure ((← d.referencePath? c path).getD path, direction)
  pure { paths := Fields.ofEntries paths, unique := i.unique }

/-- The indexes of a class: of identifiers, of references, and declared ones. -/
def indexes (d : Directory) (c : ClassRef) : Except Error (List Index) := do
  let definition := d.definition c
  let references ← definition.attributeList.mapM (d.referenceIndex? c)
  let declared ← definition.indexes.mapM (d.declaredIndex c)
  pure (definition.identifiers.map identifierIndex ++ references.filterMap id ++ declared)

end Directory

end TypedRecords
