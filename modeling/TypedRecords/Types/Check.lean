import TypedRecords.Types.Specifier

/-! # Type checking

Whether a value may be assigned where a type is declared. An error names the innermost type that
does not accept its part of the value, and that part's kind.
-/

namespace TypedRecords

/-- Where a type stands. `expected` finds the class that a name stands for there; where it finds
none, classes are compared by name. -/
structure Site where
  place : String
  expected : String → Option ClassRef := fun _ => none

namespace Site

/-- The text of an attribute of a component; the component may be left out. -/
def placeOf (component attr : String) : String :=
  if component.isEmpty then attr else component ++ "." ++ attr

/-- Whether a class may stand where a name is expected. -/
def admits (site : Site) (name : String) (cls : ClassRef) : Bool :=
  match site.expected name with
  | some expected => cls.isSameOrForkOf expected
  | none => cls.name == name

end Site

namespace ValueType

def mismatch (t : ValueType) (site : Site) (v : Value) : Error :=
  .typeMismatch site.place t.text v.typeName

/-- Checks a value; of the items of an array the first that is not accepted is reported. -/
def check (site : Site) : ValueType → Value → Except Error Unit
  | .scalar .any _, _ => pure ()
  | t, .undefined => if t.isOptional then pure () else throw (t.mismatch site .undefined)
  | .array item _, .array items => items.forM fun v => check site item v
  | t@(.scalar kind _), v => if kind.accepts v then pure () else throw (t.mismatch site v)
  | t@(.reference name true _), .classRef c =>
    if site.admits name c then pure () else throw (t.mismatch site (.classRef c))
  | t@(.reference name false _), .record r =>
    if site.admits name r.cls then pure () else throw (t.mismatch site (.record r))
  | t, v => throw (t.mismatch site v)

end ValueType

end TypedRecords
