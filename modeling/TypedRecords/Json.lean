import TypedRecords.Fields
import TypedRecords.Number.Layout

/-! # JSON values

The values that JSON text denotes. Objects keep the order of their names; numbers are finite.
-/

namespace TypedRecords

inductive Json where
  | null
  | boolean (b : Bool)
  | number (x : Number)
  | string (s : String)
  | array (items : List Json)
  | object (fields : List (String × Json))
deriving Inhabited

namespace Json

/-! ### Writing -/

/-- A character inside a JSON string: only what has to be escaped is. -/
def escapedChar (c : Char) : String :=
  if c = '"' then "\\\""
  else if c = '\\' then "\\\\"
  else if c = '\x08' then "\\b"
  else if c = '\x0c' then "\\f"
  else if c = '\n' then "\\n"
  else if c = '\r' then "\\r"
  else if c = '\t' then "\\t"
  else if c.toNat < 0x20 then "\\u00" ++ (if c.toNat < 0x10 then "0" else "") ++ hexText c.toNat
  else String.singleton c

def stringText (s : String) : String :=
  "\"" ++ String.join (s.toList.map escapedChar) ++ "\""

/-- Whether a number is written as an integer literal. -/
def isShortInteger (x : Number) : Bool :=
  x.isIntegral && x.units < Nat.pow 2 53 * Number.unit

def numberText (x : Number) : String :=
  if isShortInteger x then intText x.toInt else x.wireText

mutual

/-- Compact text, without spaces. -/
def text : Json → String
  | .null => "null"
  | .boolean b => if b then "true" else "false"
  | .number x => numberText x
  | .string s => stringText s
  | .array items => "[" ++ ",".intercalate (itemTexts items) ++ "]"
  | .object fields => "\x7b" ++ ",".intercalate (fieldTexts fields) ++ "\x7d"

def itemTexts : List Json → List String
  | [] => []
  | j :: rest => text j :: itemTexts rest

def fieldTexts : List (String × Json) → List String
  | [] => []
  | (name, j) :: rest => (stringText name ++ ":" ++ text j) :: fieldTexts rest

end

end Json

end TypedRecords
