import TypedRecords.Value

/-! # Validators

A validator is a rule with arguments. Which values pass depends on the rule and the arguments alone;
a value of a kind that the rule does not speak of fails.
-/

namespace TypedRecords

/-- The rules that values can be held to. -/
inductive Rule where
  | required
  | notEmpty
  | minLength
  | maxLength
  | rangeLength
  | minValue
  | maxValue
  | range
  | integer
  | positive
  | negative
  | anyOf
  | noneOf
  | match_
deriving DecidableEq, Repr, Inhabited

namespace Rule

def name : Rule → String
  | .required => "required"
  | .notEmpty => "notEmpty"
  | .minLength => "minLength"
  | .maxLength => "maxLength"
  | .rangeLength => "rangeLength"
  | .minValue => "minValue"
  | .maxValue => "maxValue"
  | .range => "range"
  | .integer => "integer"
  | .positive => "positive"
  | .negative => "negative"
  | .anyOf => "anyOf"
  | .noneOf => "noneOf"
  | .match_ => "match"

def all : List Rule :=
  [.required, .notEmpty, .minLength, .maxLength, .rangeLength, .minValue, .maxValue, .range,
    .integer, .positive, .negative, .anyOf, .noneOf, .match_]

def ofName? (name : String) : Option Rule := all.find? fun rule => rule.name == name

theorem mem_all (rule : Rule) : rule ∈ all := by cases rule <;> decide

/-- The message of a rule that has one of its own. -/
def ownMessage? : Rule → Option String
  | .required => some "A required value is missing"
  | _ => none

/-- A number among the arguments; NaN, with which nothing compares, if it is missing. -/
def numberAt (arguments : List Value) (index : Nat) : Number :=
  ((arguments[index]?).bind Value.asNumber?).getD Number.nan

/-- Whether a value passes a rule with arguments. -/
def passes (rule : Rule) (arguments : List Value) (v : Value) : Bool :=
  let least := numberAt arguments 0
  let most := numberAt arguments 1
  match rule with
  | .required => !v.isUndefined
  | .notEmpty => v.length?.any (0 < ·)
  | .minLength => v.length?.any fun n => least.le (Number.ofNat n)
  | .maxLength => v.length?.any fun n => (Number.ofNat n).le least
  | .rangeLength =>
    v.length?.any fun n => least.le (Number.ofNat n) && (Number.ofNat n).le most
  | .minValue => v.asNumber?.any fun x => least.le x
  | .maxValue => v.asNumber?.any fun x => x.le least
  | .range => v.asNumber?.any fun x => least.le x && x.le most
  | .integer => v.asNumber?.any Number.isIntegral
  | .positive => v.asNumber?.any (Number.zero.lt ·)
  | .negative => v.asNumber?.any (·.lt Number.zero)
  | .anyOf => v.isAmong arguments
  | .noneOf => !v.isAmong arguments
  | .match_ =>
    match arguments.head?, v with
    | some (.pattern p), .string s => (p.matches? s).getD false
    | _, _ => false

end Rule

structure Validator where
  rule : Rule
  arguments : List Value := []
  /-- Replaces the message of the rule. -/
  replacement : Option String := none
deriving Inhabited

namespace Validator

def passes (v : Validator) (value : Value) : Bool := v.rule.passes v.arguments value

/-- Name and arguments: `minLength(3)`. -/
def signature (v : Validator) : String :=
  v.rule.name ++ "(" ++ ", ".intercalate (v.arguments.map Value.text) ++ ")"

def message (v : Validator) : String :=
  let own := v.replacement.orElse fun _ => v.rule.ownMessage?
  own.getD ("The validator \x60" ++ v.signature ++ "\x60 failed")

/-- Validators are compared by rule and arguments, not by message. -/
def beq (v w : Validator) : Bool :=
  v.rule == w.rule && Value.beqItems v.arguments w.arguments

instance : BEq Validator := ⟨beq⟩

/-- What a missing value fails. -/
def required : Validator := { rule := .required }

end Validator

/-! ### Failures -/

/-- Joins the segments of a path to a value: names with points, indexes without. Empty segments do
not count. -/
def joinSegments (segments : List String) : String :=
  segments.foldl (fun joined segment =>
    if segment.isEmpty then joined
    else if joined.isEmpty || segment.toList.head? == some '[' then joined ++ segment
    else joined ++ "." ++ segment) ""

/-- A validator that a value did not pass, and where the value is. -/
structure Failure where
  validator : Validator
  path : String
deriving Inhabited

namespace Failure

/-- The same failure seen from one level up. -/
def prefixed (f : Failure) (segment : String) : Failure :=
  { f with path := joinSegments [segment, f.path] }

def text (f : Failure) : String :=
  if f.path.isEmpty then f.validator.message
  else f.validator.message ++ " (path: '" ++ f.path ++ "')"

end Failure

end TypedRecords
