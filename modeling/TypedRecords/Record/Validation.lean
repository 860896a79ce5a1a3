import TypedRecords.Record.Selection

/-! # Validation

Which validators the values of a record fail, and where: first those of a position itself, then
those of the positions beneath it, attributes in order of declaration and items by index.
-/

namespace TypedRecords

namespace ValueType

variable {m : Type → Type} [Monad m]

/-- The failures of the items of an array from an index on. -/
def itemFailures (failures : Value → m (List Failure)) : (index : Nat) → List Value →
    m (List Failure)
  | _, [] => pure []
  | index, v :: rest => do
    let here ← failures v
    let later ← itemFailures failures (index + 1) rest
    pure (here.map (·.prefixed ("[" ++ natText index ++ "]")) ++ later)

/-- The validators of a level that a value fails. -/
def ownFailures (t : ValueType) (v : Value) : List Failure :=
  (t.traits.validators.filter fun validator => !validator.passes v).map fun validator =>
    ⟨validator, ""⟩

/-- The failures of a value. A missing value fails only where it is not allowed. -/
def failures (onRecord : RecordRef → Selector → m (List Failure)) :
    ValueType → Value → Selector → m (List Failure)
  | t, .undefined, _ => pure (if t.allowsUndefined then [] else [⟨.required, ""⟩])
  | t@(.array item _), .array items, s => do
    let within ← itemFailures (fun v => failures onRecord item v s) 0 items
    pure (t.ownFailures (.array items) ++ within)
  | t@(.reference _ false _), .record r, s => do
    pure (t.ownFailures (.record r) ++ (← onRecord r s))
  | t, v, _ => pure (t.ownFailures v)

end ValueType

namespace Record

variable (d : Directory)

/-- What validation looks at: set attributes, and of records that are referred to by identifier only
the identifiers. -/
def validated : Narrowing := { setOnly := true, includeReferenced := false }

/-- The failures of one attribute. -/
def attributeFailures (onRecord : RecordRef → Selector → Action (List Failure)) (r : RecordRef)
    (s : Selector) (a : Attribute) : Action (List Failure) := do
  let sub := s.get a.name
  if sub.isNone then pure []
  else
    match ← lift (r.value? a.name) with
    | none => pure []
    | some v => do
      let failures ← a.type.failures onRecord v sub
      pure (failures.map (·.prefixed a.name))

/-- The failures of the selected attributes that are set, entering at most so many records. -/
def failuresWithin : (steps : Nat) → RecordRef → Selector → Action (List Failure)
  | 0, _, _ => throw .unending
  | steps + 1, r, s => do
    let resolved ← resolve d validated r s
    let failures ← (d.attributes r.cls).mapM (attributeFailures (failuresWithin steps) r resolved)
    pure failures.flatten

def failures (r : RecordRef) (s : Selector) : Action (List Failure) := do
  failuresWithin d (← stepsFor s) r s

/-- The failures of a value that stands for an attribute of a type. -/
def typeFailures (t : ValueType) (v : Value) (s : Selector) : Action (List Failure) := do
  let steps ← stepsFor s
  t.failures (failuresWithin d steps) v s

def validate (r : RecordRef) (s : Selector) : Action Unit := do
  let failures ← failures d r s
  if failures.isEmpty then pure () else throw (.validation r.className failures)

end Record

end TypedRecords
