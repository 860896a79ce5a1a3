import TypedRecords.Value

/-! # Expressions

A query is compiled to expressions, each an operator and its operand at a path. The operand is a
value, the expressions that something has to meet, or alternatives of such expressions. Any operator
can stand with any operand; which ones mean something is for the evaluation to say.
-/

namespace TypedRecords

inductive Operator where
  | equal
  | notEqual
  | greaterThan
  | greaterThanOrEqual
  | lessThan
  | lessThanOrEqual
  | in_
  | includes
  | startsWith
  | endsWith
  | matches_
  | some
  | every
  | length
  | not
  | and
  | or
  | nor
deriving DecidableEq, Repr, Inhabited

namespace Operator

def name : Operator → String
  | .equal => "$equal"
  | .notEqual => "$notEqual"
  | .greaterThan => "$greaterThan"
  | .greaterThanOrEqual => "$greaterThanOrEqual"
  | .lessThan => "$lessThan"
  | .lessThanOrEqual => "$lessThanOrEqual"
  | .in_ => "$in"
  | .includes => "$includes"
  | .startsWith => "$startsWith"
  | .endsWith => "$endsWith"
  | .matches_ => "$matches"
  | .some => "$some"
  | .every => "$every"
  | .length => "$length"
  | .not => "$not"
  | .and => "$and"
  | .or => "$or"
  | .nor => "$nor"

def all : List Operator :=
  [.equal, .notEqual, .greaterThan, .greaterThanOrEqual, .lessThan, .lessThanOrEqual, .in_,
    .includes, .startsWith, .endsWith, .matches_, .some, .every, .length, .not, .and, .or, .nor]

def ofName? (name : String) : Option Operator := all.find? fun op => op.name == name

theorem mem_all (op : Operator) : op ∈ all := by cases op <;> decide

/-- What an operator takes: a value, a query at the same path, a query of its own for each item, or a
list of queries. -/
inductive Operands where
  | scalar
  | samePath
  | items
  | queries
deriving DecidableEq, Repr

def operands : Operator → Operands
  | .not => .samePath
  | .some => .items
  | .every => .items
  | .and => .queries
  | .or => .queries
  | .nor => .queries
  | _ => .scalar

/-- Whether the operand is a list of queries. -/
def isLogical (op : Operator) : Bool := op.operands == .queries

end Operator

inductive Expression where
  | value (path : String) (op : Operator) (operand : Value)
  | nested (path : String) (op : Operator) (operand : List Expression)
  | lists (path : String) (op : Operator) (operand : List (List Expression))
deriving Inhabited

namespace Expression

def triple (path : String) (op : Operator) (operand : Value) : Value :=
  .array [.string path, .string op.name, operand]

mutual

/-- An expression as path, operator and operand. -/
def toValue : Expression → Value
  | .value path op operand => triple path op operand
  | .nested path op operand => triple path op (.array (toValues operand))
  | .lists path op operand => triple path op (.array (toValueLists operand))

def toValues : List Expression → List Value
  | [] => []
  | e :: rest => toValue e :: toValues rest

def toValueLists : List (List Expression) → List Value
  | [] => []
  | es :: rest => .array (toValues es) :: toValueLists rest

end

end Expression

end TypedRecords
