import TypedRecords.Types.Validator
import TypedRecords.Types.Sanitizer

/-! # Types of values

A type says which values an attribute can hold. Whether it may be undefined, and what validators and
sanitizers it carries, belongs to each level of a type and is not inherited.
-/

namespace TypedRecords

/-- Types without parts. -/
inductive ScalarKind where
  | any
  | boolean
  | number
  | string
  | object
  | date
  | regExp
deriving DecidableEq, Repr, Inhabited

namespace ScalarKind

/-- The name of a scalar type in specifiers. -/
def name : ScalarKind → String
  | .any => "any"
  | .boolean => "boolean"
  | .number => "number"
  | .string => "string"
  | .object => "object"
  | .date => "Date"
  | .regExp => "RegExp"

def all : List ScalarKind := [.any, .boolean, .number, .string, .object, .date, .regExp]

def ofName? (name : String) : Option ScalarKind := all.find? fun kind => kind.name == name

/-- Whether a defined value is of the kind. -/
def accepts : ScalarKind → Value → Bool
  | .any, _ => true
  | .boolean, .boolean _ => true
  | .number, .number _ => true
  | .string, .string _ => true
  | .object, .object _ => true
  | .date, .date _ => true
  | .regExp, .pattern _ => true
  | _, _ => false

end ScalarKind

/-- What each level of a type carries. -/
structure Traits where
  optional : Bool := false
  validators : List Validator := []
  sanitizers : List Sanitizer := []
deriving Inhabited

inductive ValueType where
  | scalar (kind : ScalarKind) (traits : Traits)
  | array (item : ValueType) (traits : Traits)
  /-- A record of the named class, or the class itself. -/
  | reference (name : String) (toClass : Bool) (traits : Traits)
deriving Inhabited

namespace ValueType

def traits : ValueType → Traits
  | .scalar _ traits => traits
  | .array _ traits => traits
  | .reference _ _ traits => traits

def isOptional (t : ValueType) : Bool := t.traits.optional

def isAny : ValueType → Bool
  | .scalar .any _ => true
  | _ => false

/-- Whether a missing value is undefined rather than unset. -/
def allowsUndefined (t : ValueType) : Bool := t.isOptional || t.isAny

/-- The reference at the bottom of a type, looking through arrays. -/
def reference? : ValueType → Option (String × Bool)
  | .scalar _ _ => none
  | .array item _ => item.reference?
  | .reference name toClass _ => some (name, toClass)

/-- The name of the class whose records the type refers to. -/
def recordClass? (t : ValueType) : Option String :=
  match t.reference? with
  | some (name, false) => some name
  | _ => none

/-- The text of a type, which is a specifier of it. -/
def text : ValueType → String
  | .scalar kind traits => kind.name ++ mark traits
  | .array item traits => item.text ++ "[]" ++ mark traits
  | .reference name toClass traits => (if toClass then "typeof " else "") ++ name ++ mark traits
where
  mark (traits : Traits) : String := if traits.optional then "?" else ""

/-- Types are equal when all their levels are, validators and sanitizers included. -/
def beq : ValueType → ValueType → Bool
  | .scalar a s, .scalar b t => a == b && sameTraits s t
  | .array a s, .array b t => a.beq b && sameTraits s t
  | .reference a c s, .reference b d t => a == b && c == d && sameTraits s t
  | _, _ => false
where
  sameTraits (s t : Traits) : Bool :=
    s.optional == t.optional && s.validators == t.validators && s.sanitizers == t.sanitizers

/-- Applies the sanitizers of a type, those of the items first. -/
def sanitize : ValueType → Value → Value
  | t@(.array item _), .array items => finish t (.array (items.map fun v => item.sanitize v))
  | t, v => finish t v
where
  finish (t : ValueType) (v : Value) : Value :=
    t.traits.sanitizers.foldl (fun v s => s.apply v) v

end ValueType

end TypedRecords
