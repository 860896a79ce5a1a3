import TypedRecords.Fields
import TypedRecords.Number.Layout
import TypedRecords.Text.Quoted
import TypedRecords.Calendar.Timestamp
import TypedRecords.Pattern
import TypedRecords.Reference

/-! # Values

Everything that an attribute can hold, a query can compare with and a document is made of. Records
and classes occur in values by reference.
-/

namespace TypedRecords

inductive Value where
  /-- The absence of a value. -/
  | undefined
  | null
  | boolean (b : Bool)
  | number (x : Number)
  | string (s : String)
  | date (t : Instant)
  | pattern (p : Pattern)
  | array (items : List Value)
  | object (fields : List (String × Value))
  | record (r : RecordRef)
  | classRef (c : ClassRef)
deriving Inhabited

/-- A plain object. -/
abbrev Object := Fields Value

namespace Value

/-! ### Kinds -/

/-- The name of a value's kind in messages. -/
def typeName : Value → String
  | .undefined => "undefined"
  | .null => "null"
  | .boolean _ => "boolean"
  | .number _ => "number"
  | .string _ => "string"
  | .date _ => "Date"
  | .pattern _ => "RegExp"
  | .array _ => "array"
  | .object _ => "object"
  | .record r => r.className
  | .classRef c => "typeof " ++ c.name

def isUndefined : Value → Bool
  | .undefined => true
  | _ => false

def asBool? : Value → Option Bool
  | .boolean b => some b
  | _ => none

def asNumber? : Value → Option Number
  | .number x => some x
  | _ => none

def asString? : Value → Option String
  | .string s => some s
  | _ => none

def asArray? : Value → Option (List Value)
  | .array items => some items
  | _ => none

def asObject? : Value → Option Object
  | .object fields => some fields
  | _ => none

def ofNat (n : Nat) : Value := .number (Number.ofNat n)

def ofOption {α : Type} (f : α → Value) : Option α → Value
  | some a => f a
  | none => .undefined

/-- Characters of a string, or items of an array. -/
def length? : Value → Option Nat
  | .string s => some s.length
  | .array items => some items.length
  | _ => none

/-! ### Equality

Numbers are equal as numbers, objects without regard to the order of their names, records and
classes by identity.
-/

mutual

def beq : Value → Value → Bool
  | .undefined, .undefined => true
  | .null, .null => true
  | .boolean a, .boolean b => a == b
  | .number a, .number b => a.beq b
  | .string a, .string b => a == b
  | .date a, .date b => a == b
  | .pattern a, .pattern b => a == b
  | .array a, .array b => beqItems a b
  | .object a, .object b => a.length == b.length && beqFields a b
  | .record a, .record b => a == b
  | .classRef a, .classRef b => a == b
  | _, _ => false

def beqItems : List Value → List Value → Bool
  | [], [] => true
  | a :: as, b :: bs => beq a b && beqItems as bs
  | _, _ => false

/-- Whether every field of the first has an equal one in the second. -/
def beqFields : List (String × Value) → List (String × Value) → Bool
  | [], _ => true
  | (name, a) :: rest, other =>
    (match Fields.get? name other with
      | some b => beq a b
      | none => false) && beqFields rest other

end

instance : BEq Value := ⟨beq⟩

/-- Whether an equal value is among some values. -/
def isAmong (v : Value) (others : List Value) : Bool := others.any fun other => other.beq v

/-! ### References within -/

mutual

/-- Whether a record or a class occurs in the value. -/
def hasReferences : Value → Bool
  | .record _ => true
  | .classRef _ => true
  | .array items => itemsHaveReferences items
  | .object fields => fieldsHaveReferences fields
  | _ => false

def itemsHaveReferences : List Value → Bool
  | [] => false
  | v :: rest => hasReferences v || itemsHaveReferences rest

def fieldsHaveReferences : List (String × Value) → Bool
  | [] => false
  | (_, v) :: rest => hasReferences v || fieldsHaveReferences rest

end

mutual

/-- The records that a value holds, in order, looking through arrays and objects but not into
records. -/
def records : Value → List RecordRef
  | .record r => [r]
  | .array items => recordsOfItems items
  | .object fields => recordsOfFields fields
  | _ => []

def recordsOfItems : List Value → List RecordRef
  | [] => []
  | v :: rest => records v ++ recordsOfItems rest

def recordsOfFields : List (String × Value) → List RecordRef
  | [] => []
  | (_, v) :: rest => records v ++ recordsOfFields rest

end

/-! ### Text -/

mutual

/-- The text of a value in messages. -/
def text : Value → String
  | .undefined => "undefined"
  | .null => "null"
  | .boolean b => if b then "true" else "false"
  | .number x => x.plainText
  | .string s => Text.quoted s
  | .date t => Timestamp.text t
  | .pattern p => p.text
  | .array items => "[" ++ ", ".intercalate (itemTexts items) ++ "]"
  | .object fields => "\x7b" ++ ", ".intercalate (fieldTexts fields) ++ "\x7d"
  | .record r => "<" ++ r.className ++ ">"
  | .classRef c => "<typeof " ++ c.name ++ ">"

def itemTexts : List Value → List String
  | [] => []
  | v :: rest => text v :: itemTexts rest

def fieldTexts : List (String × Value) → List String
  | [] => []
  | (name, v) :: rest => (Text.quoted name ++ ": " ++ text v) :: fieldTexts rest

end

theorem isUndefined_iff (v : Value) : v.isUndefined = true ↔ v = .undefined := by
  cases v <;> simp [isUndefined]

theorem itemsHaveReferences_eq_any (items : List Value) :
    itemsHaveReferences items = items.any hasReferences := by
  induction items with
  | nil => rfl
  | cons v rest ih => simp [itemsHaveReferences, ih]

end Value

end TypedRecords
