import TypedRecords.Value

/-! # Trees

Records leave and enter as plain trees: objects that carry the name of their class under one tag, and
under another whether they were never stored. A class is an object with only the first tag, whose
text says that it means the class itself.
-/

namespace TypedRecords.Tree

/-- The tag that holds the name of the class. -/
def classTag : String := "__component"

/-- The tag that marks a record as never stored. -/
def newTag : String := "_new"

def classPhrase : String := "typeof "

/-- The tree of a class. -/
def ofClass (c : ClassRef) : Value := .object [(classTag, .string (classPhrase ++ c.name))]

/-- The class that a tag means, if it means one rather than a record of it. -/
def classNamed? (tag : String) : Option String :=
  (Text.dropStart? classPhrase.toList tag.toList).map String.ofList

def isTagged (fields : Object) : Bool := Fields.contains classTag fields

/-- Whether an object is marked as never stored. -/
def isMarkedNew (fields : Object) : Bool :=
  match Fields.get? newTag fields with
  | some (.boolean b) => b
  | _ => false

theorem classNamed?_classPhrase (name : String) :
    classNamed? (classPhrase ++ name) = some name := by
  have h : Text.dropStart? classPhrase.toList (classPhrase ++ name).toList = some name.toList :=
    (Text.dropStart?_eq_some_iff _ _ _).2 (by simp)
  rw [classNamed?, h, Option.map_some, String.ofList_toList]

end TypedRecords.Tree
