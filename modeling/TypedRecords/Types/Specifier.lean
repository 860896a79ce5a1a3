import TypedRecords.Types.ValueType
import TypedRecords.Error

/-! # Type specifiers

A specifier is a scalar name or a class name, possibly after `typeof`, then any number of `[]`, with
a `?` allowed at the end of each level. An empty base means `any`. Options attach validators and
sanitizers level by level, from the outermost array inwards.
-/

namespace TypedRecords

/-- Validators and sanitizers for each level of a type. -/
inductive TypeOptions where
  | mk (validators : List Validator) (sanitizers : List Sanitizer) (items : Option TypeOptions)
deriving Inhabited

namespace TypeOptions

def empty : TypeOptions := .mk [] [] none

def validators : TypeOptions → List Validator
  | .mk validators _ _ => validators

def sanitizers : TypeOptions → List Sanitizer
  | .mk _ sanitizers _ => sanitizers

/-- Options for the items of an array. -/
def items? : TypeOptions → Option TypeOptions
  | .mk _ _ items => items

def traits (o : TypeOptions) (optional : Bool) : Traits :=
  { optional, validators := o.validators, sanitizers := o.sanitizers }

end TypeOptions

namespace Specifier

/-- Whether a text can be the name of a class: a capital, then letters, digits and underscores. -/
def isClassName : List Char → Bool
  | [] => false
  | c :: cs => c.isUpper && cs.all fun d => d.isAlphanum || d == '_'

/-- The type of a base, which is what is left without `?` and `[]`. -/
def base? (base : List Char) (traits : Traits) : Option ValueType :=
  match ScalarKind.ofName? (String.ofList base) with
  | some kind => some (.scalar kind traits)
  | none =>
    match Text.dropStart? "typeof ".toList base with
    | some name => if isClassName name then some (.reference (String.ofList name) true traits) else none
    | none => if isClassName base then some (.reference (String.ofList base) false traits) else none

/-- A text without its last characters, if they are the given ones; both are given backwards. -/
def dropEnd? (ending text : List Char) : Option (List Char) := Text.dropStart? ending text

/-- Reads a level of a specifier, which is given backwards so that the outermost level comes first.
`place` names the attribute in errors. -/
def parseLevel (place : String) : (fuel : Nat) → (reversed : List Char) → TypeOptions →
    Except Error ValueType
  | 0, reversed, _ => throw (.invalidSpecifier place (String.ofList reversed.reverse))
  | fuel + 1, reversed, options =>
    let raw := if reversed.isEmpty then "any".toList.reverse else reversed
    let (bare, optional) := match raw with
      | '?' :: rest => (if rest.isEmpty then "any".toList.reverse else rest, true)
      | raw => (raw, false)
    let traits := options.traits optional
    let specifier := String.ofList raw.reverse
    match bare with
    | ']' :: '[' :: item => do
      let item ← parseLevel place fuel item (options.items?.getD .empty)
      pure (.array item traits)
    | bare =>
      if options.items?.isSome then throw (.unexpectedItems place specifier)
      else
        match base? bare.reverse traits with
        | some t => pure t
        | none => throw (.invalidSpecifier place specifier)

/-- Reads a specifier. -/
def parse (place specifier : String) (options : TypeOptions) : Except Error ValueType :=
  parseLevel place (specifier.length + 1) specifier.toList.reverse options

end Specifier

end TypedRecords
