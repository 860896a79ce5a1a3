import TypedRecords.Value

/-! # Sanitizers

What is done to a value before it is assigned. A sanitizer leaves alone what it does not speak of.
-/

namespace TypedRecords

inductive Sanitizer where
  /-- Removes the blanks at both ends of a string. -/
  | trim
  /-- Removes missing items and empty strings from an array. -/
  | compact
deriving DecidableEq, Repr, Inhabited

namespace Sanitizer

def name : Sanitizer → String
  | .trim => "trim"
  | .compact => "compact"

def ofName? (name : String) : Option Sanitizer :=
  [Sanitizer.trim, .compact].find? fun s => s.name == name

/-- Whether an item stays in a compacted array. -/
def isSubstantial : Value → Bool
  | .undefined => false
  | .null => false
  | .string s => !s.isEmpty
  | _ => true

def apply : Sanitizer → Value → Value
  | .trim, .string s => .string (String.ofList (Text.trimChars Text.isBlank s.toList))
  | .compact, .array items => .array (items.filter isSubstantial)
  | _, v => v

theorem apply_compact_compact (items : List Value) :
    apply .compact (apply .compact (.array items)) = apply .compact (.array items) := by
  simp [apply]

end Sanitizer

end TypedRecords
