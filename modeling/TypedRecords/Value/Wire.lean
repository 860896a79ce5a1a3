import TypedRecords.Value
import TypedRecords.Json.Reader

/-! # The wire form of values

JSON has no undefined value, no dates and no patterns: on the wire these are objects with one tag.
An object that only looks like a tag is a plain object. Records and classes have no wire form of
their own.
-/

namespace TypedRecords.Value

def undefinedTag : String := "__undefined"
def dateTag : String := "__date"
def patternTag : String := "__regExp"

/-! ### From JSON -/

/-- The value that an object with one field denotes by its tag. -/
def ofTag? (name : String) (j : Json) : Option Value :=
  match j with
  | .boolean true => if name = undefinedTag then some .undefined else none
  | .string s =>
    if name = dateTag then (Timestamp.parse? s).map .date
    else if name = patternTag then (Pattern.parse? s).map .pattern
    else none
  | _ => none

mutual

def ofJson : Json → Value
  | .null => .null
  | .boolean b => .boolean b
  | .number x => .number x
  | .string s => .string s
  | .array items => .array (ofJsonItems items)
  | .object [(name, j)] => (ofTag? name j).getD (.object [(name, ofJson j)])
  | .object fields => .object (ofJsonFields fields)

def ofJsonItems : List Json → List Value
  | [] => []
  | j :: rest => ofJson j :: ofJsonItems rest

def ofJsonFields : List (String × Json) → List (String × Value)
  | [] => []
  | (name, j) :: rest => (name, ofJson j) :: ofJsonFields rest

end

/-! ### To JSON -/

/-- Integers below 2^53 lose the sign of zero; what is not finite is null. -/
def numberToJson (x : Number) : Json :=
  if x.magnitude = 0 then .number Number.zero
  else if x.isFinite then .number x
  else .null

mutual

/-- The wire form, or the kind of the first record or class within. -/
def toJson : Value → Except String Json
  | .undefined => pure (.object [(undefinedTag, .boolean true)])
  | .null => pure .null
  | .boolean b => pure (.boolean b)
  | .number x => pure (numberToJson x)
  | .string s => pure (.string s)
  | .date t => pure (.object [(dateTag, .string (Timestamp.text t))])
  | .pattern p => pure (.object [(patternTag, .string p.text)])
  | .array items => do pure (.array (← itemsToJson items))
  | .object fields => do pure (.object (← fieldsToJson fields))
  | .record r => throw r.className
  | .classRef c => throw ("typeof " ++ c.name)

def itemsToJson : List Value → Except String (List Json)
  | [] => pure []
  | v :: rest => do
    let j ← toJson v
    pure (j :: (← itemsToJson rest))

def fieldsToJson : List (String × Value) → Except String (List (String × Json))
  | [] => pure []
  | (name, v) :: rest => do
    let j ← toJson v
    pure ((name, j) :: (← fieldsToJson rest))

end

end TypedRecords.Value
