import TypedRecords.Document.Path
import TypedRecords.Selector
import TypedRecords.Tree

/-! # Projections

The part of a document to read, as paths. A selector that lists names reads the class tag of every
object it reaches, and of the listed names those selected entirely. Paths reach through arrays. A path
that ends at a name takes all that stands there, whatever other paths go through it.
-/

namespace TypedRecords

/-- Paths to read, each once. -/
abbrev Projection := List String

namespace Projection

def add (path : String) (projection : Projection) : Projection :=
  if projection.contains path then projection else projection ++ [path]

/-! ### From selectors -/

mutual

/-- Adds what a selector reads below a path. -/
def addSelector (s : Selector) (path : String) (projection : Projection) : Projection :=
  match s with
  | .only fields => addFields fields path (add (Path.join path Tree.classTag) projection)
  | _ => projection

def addFields (fields : List (String × Selector)) (path : String) (projection : Projection) :
    Projection :=
  match fields with
  | [] => projection
  | (name, .all) :: rest => addFields rest path (add (Path.join path name) projection)
  | (_, .none) :: rest => addFields rest path projection
  | (name, .only inner) :: rest =>
    addFields rest path (addSelector (.only inner) (Path.join path name) projection)

end

/-- What to read for a selector; nothing is left out if everything is selected. -/
def ofSelector? : Selector → Option Projection
  | .all => none
  | .none => some [Tree.classTag]
  | s => some (addSelector s "" [])

end Projection

/-! ### Application -/

/-- Paths that share their beginnings. -/
inductive PathTree where
  | node (isEnd : Bool) (children : List (String × PathTree))
deriving Inhabited

namespace PathTree

def empty : PathTree := .node false []

/-- Whether a path ends at the root. -/
def isEnd : PathTree → Bool
  | .node isEnd _ => isEnd

/-- Adds a path by its segments. -/
def insert : List String → PathTree → PathTree
  | [], .node _ children => .node true children
  | name :: rest, .node isEnd children =>
    let child := (Fields.get? name children).getD empty
    .node isEnd (Fields.insert name (insert rest child) children)

def ofProjection (projection : Projection) : PathTree :=
  projection.foldl (fun tree path => insert (Path.segments path) tree) empty

end PathTree

namespace Value

mutual

/-- Replaces the outermost objects of a value, and leaves out what is neither object nor array. -/
def keepObjects? (f : Object → Object) : Value → Option Value
  | .object fields => some (.object (f fields))
  | .array items => some (.array (keepObjectItems f items))
  | _ => none

def keepObjectItems (f : Object → Object) : List Value → List Value
  | [] => []
  | v :: rest => (keepObjects? f v).toList ++ keepObjectItems f rest

end

end Value

namespace PathTree

mutual

/-- The part of an object at the paths of a tree, in the order of the paths. -/
def project : PathTree → Object → Object
  | .node _ children, fields => projectChildren children fields []
termination_by structural tree => tree

def projectChildren : List (String × PathTree) → (fields acc : Object) → Object
  | [], _, acc => acc
  | (name, child) :: rest, fields, acc =>
    match Fields.get? name fields with
    | none => projectChildren rest fields acc
    | some v =>
      if child.isEnd then projectChildren rest fields (Fields.insert name v acc)
      else
        match v.keepObjects? child.project with
        | some part => projectChildren rest fields (Fields.insert name part acc)
        | none => projectChildren rest fields acc
termination_by structural children => children

end

end PathTree

namespace Document

/-- The part of a document to read. -/
def project (document : Document) : Option Projection → Document
  | none => document
  | some projection => (PathTree.ofProjection projection).project document

end Document

end TypedRecords
