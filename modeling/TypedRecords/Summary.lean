import TypedRecords.Types.ValueType
import TypedRecords.Record.Graph

/-! # Summaries

Short texts that tell a reader which class, record, registry, validator or sanitizer is meant. Names
are quoted in them.
-/

namespace TypedRecords

/-- Quoted names in brackets. -/
def quotedList (names : List String) : String :=
  "[" ++ ", ".intercalate (names.map Text.quoted) ++ "]"

def flagText (b : Bool) : String := if b then "true" else "false"

/-- A name with its fields in braces. -/
def structureText (name : String) (fields : List (String × String)) : String :=
  name ++ " \x7b " ++ ", ".intercalate (fields.map fun (field, text) => field ++ ": " ++ text) ++
    " \x7d"

def ClassRef.summary (c : ClassRef) : String :=
  structureText "ComponentClass"
    [("name", Text.quoted c.name), ("is_fork", flagText c.base?.isSome)]

def Validator.summary (v : Validator) : String :=
  structureText "Validator" [("signature", Text.quoted v.signature)]

def Sanitizer.summary (s : Sanitizer) : String := "Sanitizer(" ++ s.name ++ ")"

/-- The names in a registry. -/
def Directory.registrySummary (d : Directory) (r : RegistryRef) : String :=
  quotedList (Fields.keys (d.members r))

/-- The class of a record, whether it is new, and which attributes are set. -/
def Record.summary (d : Directory) (r : RecordRef) : Action String := do
  let isNew := (← get).isNew r
  let names ← Record.lift (r.setNames d)
  pure (structureText "Component"
    [("class", Text.quoted r.className), ("is_new", flagText isNew), ("set", quotedList names)])

end TypedRecords
