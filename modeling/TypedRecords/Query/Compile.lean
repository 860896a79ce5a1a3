import TypedRecords.Query.Expression
import TypedRecords.Document.Path
import TypedRecords.Error

/-! # Compiling queries

A query is an object. Keys that begin with `$` are operators, other keys extend the path. At the root
only logical operators may stand, next to attributes; below it an object holds either operators or
attributes. A value in place of an object means equality. Quantifiers begin a path of their own.
-/

namespace TypedRecords.Query

def isOperator (key : String) : Bool := key.toList.head? == some '$'

/-- Whether an object has both operators and attributes. -/
def isMixed (fields : Object) : Bool :=
  (Fields.keys fields).any isOperator && !(Fields.keys fields).all isOperator

/-- What a scalar operator takes, if not everything but an object. -/
def operandFault? (op : Operator) (operand : Value) : Option String :=
  match op, operand with
  | .in_, .array _ => none
  | .in_, _ => some "an array"
  | .startsWith, .string _ => none
  | .endsWith, .string _ => none
  | .startsWith, _ => some "a string"
  | .endsWith, _ => some "a string"
  | .matches_, .pattern _ => none
  | .matches_, _ => some "a regular expression"
  | .length, .number _ => none
  | .length, _ => some "a number"
  | _, _ => none

def compileScalar (path : String) (op : Operator) (operand : Value) : Except Error Expression :=
  match operand with
  | .object _ => throw (.unexpectedObject op.name operand)
  | _ =>
    match operandFault? op operand with
    | some expected => throw (.invalidOperand op.name expected operand)
    | none => pure (.value path op operand)

/-- The operator that a key names, if it may stand there. -/
def operatorOf (isRoot : Bool) (key : String) (query : Object) : Except Error Operator :=
  match Operator.ofName? key with
  | some op =>
    if isRoot && !op.isLogical then throw (.operatorAtRoot key (.object query)) else pure op
  | none =>
    if isRoot then throw (.operatorAtRoot key (.object query))
    else throw (.unknownOperator key (.object query))

/-- A value in place of a query. -/
def equality (path : String) (v : Value) : Except Error (List Expression) :=
  pure [.value path .equal v]

/-- The error of a logical operator whose operand is no list of queries. -/
def listFault (op : Operator) (operand : Value) : Error :=
  .invalidOperand op.name "an array of queries" operand

mutual

/-- Compiles an object at a path; `other` is the answer for what is no object. -/
def compileAt (isRoot : Bool) (path : String)
    (other : Value → Except Error (List Expression)) : Value → Except Error (List Expression)
  | .object fields =>
    if !isRoot && isMixed fields then throw (.mixedKeys (.object fields))
    else compileFields isRoot path fields fields
  | v => other v

/-- Compiles the remaining fields of an object, which errors quote whole. -/
def compileFields (isRoot : Bool) (path : String) (query : Object) :
    List (String × Value) → Except Error (List Expression)
  | [] => pure []
  | (key, v) :: rest => do
    let here ←
      if isOperator key then do
        let op ← operatorOf isRoot key query
        match op.operands with
        | .scalar => do pure [← compileScalar path op v]
        | .samePath => do pure [.nested path op (← compileAt false path (equality path) v)]
        | .items => do pure [.nested path op (← compileAt false "" (equality "") v)]
        | .queries => do pure [.lists path op (← compileList isRoot path (listFault op v) v)]
      else
        let below := Path.join path key
        compileAt false below (equality below) v
    pure (here ++ (← compileFields isRoot path query rest))

/-- Compiles the queries of a logical operator. -/
def compileList (isRoot : Bool) (path : String) (fault : Error) :
    Value → Except Error (List (List Expression))
  | .array items => compileItems isRoot path fault items
  | _ => throw fault

def compileItems (isRoot : Bool) (path : String) (fault : Error) : List Value →
    Except Error (List (List Expression))
  | [] => pure []
  | v :: rest => do
    let es ← compileAt isRoot path (fun _ => throw fault) v
    pure (es :: (← compileItems isRoot path fault rest))

end

/-- Compiles a query. -/
def compile (query : Value) : Except Error (List Expression) :=
  compileAt true "" (fun v => throw (.queryNotObject v)) query

end TypedRecords.Query
