import TypedRecords.Query.Expression
import TypedRecords.Document.Path
import TypedRecords.Error

/-! # Evaluating expressions

Whether a value meets expressions. Values of different kinds compare as neither less nor greater. An
operator that stands with an operand it cannot take is an error, and so is a pattern that does not
compile, when there is a string to match.
-/

namespace TypedRecords

namespace Value

/-- Order between two values of one scalar kind. -/
def compare? : Value → Value → Option Ordering
  | .number a, .number b => a.compare? b
  | .string a, .string b => some (compare a b)
  | .date a, .date b => some (a.compare b)
  | .boolean a, .boolean b => some (compare a.toNat b.toNat)
  | _, _ => none

end Value

/-- Whether a pattern matches a text, unless it does not compile. -/
def Pattern.test (p : Pattern) (text : String) : Except Error Bool :=
  match p.matches? text with
  | some b => pure b
  | none => throw (.usage .badPattern)

namespace Query

/-- Stops at the first item that fails a test. -/
def allItems (test : Value → Except Error Bool) : List Value → Except Error Bool
  | [] => pure true
  | v :: rest => do
    if ← test v then allItems test rest else pure false

/-- Stops at the first item that passes a test. -/
def anyItem (test : Value → Except Error Bool) : List Value → Except Error Bool
  | [] => pure false
  | v :: rest => do
    if ← test v then pure true else anyItem test rest

def malformed (op : Operator) : Except Error Bool :=
  throw (.database (.malformedExpression op.name))

/-- Whether a value meets a scalar operator with its operand. -/
def evaluateScalar (op : Operator) (v operand : Value) : Except Error Bool :=
  match op with
  | .equal => pure (v.beq operand)
  | .notEqual => pure (!v.beq operand)
  | .greaterThan => pure (v.compare? operand == some .gt)
  | .greaterThanOrEqual =>
    pure (v.compare? operand == some .gt || v.compare? operand == some .eq)
  | .lessThan => pure (v.compare? operand == some .lt)
  | .lessThanOrEqual => pure (v.compare? operand == some .lt || v.compare? operand == some .eq)
  | .in_ => pure (operand.asArray?.any fun candidates => v.isAmong candidates)
  | .includes =>
    match v, operand with
    | .string text, .string part => pure (Text.occursIn part.toList text.toList)
    | .array items, operand => pure (operand.isAmong items)
    | _, _ => pure false
  | .startsWith =>
    match v, operand with
    | .string text, .string start => pure (Text.startsWith text start)
    | _, _ => pure false
  | .endsWith =>
    match v, operand with
    | .string text, .string ending => pure (Text.endsWith text ending)
    | _, _ => pure false
  | .matches_ =>
    match v, operand with
    | .string text, .pattern p => p.test text
    | _, _ => pure false
  | .length =>
    match v.length?, operand with
    | some n, .number x => pure ((Number.ofNat n).beq x)
    | _, _ => pure false
  | op => malformed op

mutual

/-- Whether a value meets an expression. -/
def evaluate (context : Value) : Expression → Except Error Bool
  | .value path op operand => evaluateScalar op (Path.get context path) operand
  | .nested path op es =>
    match op with
    | .not => do pure (!(← evaluateAll context es))
    | .some =>
      match Path.get context path with
      | .array items => anyItem (fun item => evaluateAll item es) items
      | _ => pure false
    | .every =>
      match Path.get context path with
      | .array items => allItems (fun item => evaluateAll item es) items
      | _ => pure false
    | op => malformed op
  | .lists _ op lists =>
    match op with
    | .and => allOf context lists
    | .or => anyOf context lists
    | .nor => do pure (!(← anyOf context lists))
    | op => malformed op

/-- Whether a value meets all expressions; stops at the first that it does not. -/
def evaluateAll (context : Value) : List Expression → Except Error Bool
  | [] => pure true
  | e :: rest => do
    if ← evaluate context e then evaluateAll context rest else pure false

/-- Whether a value meets every list. -/
def allOf (context : Value) : List (List Expression) → Except Error Bool
  | [] => pure true
  | es :: rest => do
    if ← evaluateAll context es then allOf context rest else pure false

/-- Whether a value meets some list. -/
def anyOf (context : Value) : List (List Expression) → Except Error Bool
  | [] => pure false
  | es :: rest => do
    if ← evaluateAll context es then pure true else anyOf context rest

end

end Query

end TypedRecords
