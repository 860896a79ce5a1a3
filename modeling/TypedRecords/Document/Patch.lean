import TypedRecords.Document.Path
import TypedRecords.Tree

/-! # Patches

A patch writes some paths of a document and removes others. The patch of an encoded record writes its
fields; tagged objects are gone through field by field, so that fields of the stored object that the
encoded one does not have stay. Other objects and arrays are written whole, without what is undefined
in them.
-/

namespace TypedRecords

namespace Value

mutual

/-- Leaves undefined fields out of objects; undefined items of arrays become null. -/
def strip : Value → Value
  | .object fields => .object (stripFields fields)
  | .array items => .array (stripItems items)
  | v => v

def stripItems : List Value → List Value
  | [] => []
  | v :: rest => (if v.isUndefined then .null else strip v) :: stripItems rest

def stripFields : List (String × Value) → List (String × Value)
  | [] => []
  | (name, v) :: rest =>
    if v.isUndefined then stripFields rest else (name, strip v) :: stripFields rest

end

end Value

structure Patch where
  written : Fields Value := []
  removed : List String := []
deriving Inhabited

namespace Patch

def isEmpty (p : Patch) : Bool := p.written.isEmpty && p.removed.isEmpty

def write (path : String) (v : Value) (p : Patch) : Patch :=
  { p with written := Fields.insert path v p.written }

def remove (path : String) (p : Patch) : Patch :=
  { p with removed := if p.removed.contains path then p.removed else p.removed ++ [path] }

mutual

/-- Adds the entry of one field. -/
def addField (path : String) (v : Value) (p : Patch) : Patch :=
  match v with
  | .undefined => p.remove path
  | .object fields =>
    if Tree.isTagged fields then addFields path fields p
    else p.write path (.object (Value.stripFields fields))
  | v => p.write path v.strip

/-- Adds the entries of the fields below a path. -/
def addFields (path : String) (fields : List (String × Value)) (p : Patch) : Patch :=
  match fields with
  | [] => p
  | (name, v) :: rest => addFields path rest (addField (Path.join path name) v p)

end

/-- The patch that brings a stored document in line with an encoded record. -/
def ofDocument (document : Document) : Patch := addFields "" document {}

/-- Writes, then removes. -/
def apply (p : Patch) (document : Document) : Document :=
  let written := p.written.foldl (fun doc entry => Path.set doc entry.1 entry.2) document
  p.removed.foldl Path.remove written

/-- The patch as a value. -/
def toValue (p : Patch) : Value :=
  .object [("$set", .object p.written),
    ("$unset", .object (p.removed.map fun path => (path, .number Number.one)))]

end Patch

end TypedRecords
