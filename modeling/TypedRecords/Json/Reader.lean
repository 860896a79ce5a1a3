import TypedRecords.Json
import TypedRecords.Regex.Reader

/-! # Reading JSON text

Strict JSON: one value with blanks around it, no trailing commas, no leading zeros, no bare control
characters, surrogates only in pairs, and less than 128 arrays and objects inside each other. Of a
name that is written twice the last value counts, in the first place.

Every step takes at least one character, so the length of the text bounds the steps.
-/

namespace TypedRecords.Json

def isSpace (c : Char) : Bool := c == ' ' || c == '\n' || c == '\r' || c == '\t'

def skipSpace (cs : List Char) : List Char := cs.dropWhile isSpace

/-! ### Strings -/

/-- Four hexadecimal digits. -/
def hex4? (cs : List Char) : Option (Nat × List Char) :=
  if cs.length < 4 then none
  else (Regex.hexValue? (cs.take 4)).map (·, cs.drop 4)

/-- The character of a `\u` escape, whose second half follows if the first is half of a pair. -/
def unicodeEscape? (cs : List Char) : Option (Char × List Char) := do
  let (first, rest) ← hex4? cs
  if 0xd800 ≤ first && first < 0xdc00 then
    match rest with
    | '\\' :: 'u' :: rest =>
      let (second, rest) ← hex4? rest
      if 0xdc00 ≤ second && second < 0xe000 then
        let c ← Regex.char? (0x10000 + (first - 0xd800) * 0x400 + (second - 0xdc00))
        some (c, rest)
      else none
    | _ => none
  else (Regex.char? first).map (·, rest)

/-- The characters that stand after a backslash, but for `u`. -/
def escapes : List (Char × Char) :=
  [('"', '"'), ('\\', '\\'), ('/', '/'), ('b', '\x08'), ('f', '\x0c'), ('n', '\n'), ('r', '\r'),
    ('t', '\t')]

/-- Reads a string after its opening quote; `acc` holds its characters so far, last first. -/
def string? : (fuel : Nat) → (acc : List Char) → List Char → Option (String × List Char)
  | 0, _, _ => none
  | _, _, [] => none
  | fuel + 1, acc, c :: cs =>
    if c = '"' then some (String.ofList acc.reverse, cs)
    else if c = '\\' then
      match cs with
      | 'u' :: rest => do
        let (c, rest) ← unicodeEscape? rest
        string? fuel (c :: acc) rest
      | e :: rest =>
        match escapes.lookup e with
        | some c => string? fuel (c :: acc) rest
        | none => none
      | [] => none
    else if c.toNat < 0x20 then none
    else string? fuel (c :: acc) cs

/-! ### Numbers -/

/-- Value of decimal digits, counting no further digit once the value would pass 2^64; answers also
how many did not count. -/
def significand : (acc : Nat) → List Char → Nat × Nat
  | acc, [] => (acc, 0)
  | acc, c :: cs =>
    let next := acc * 10 + (c.toNat - '0'.toNat)
    if next < Nat.pow 2 64 then significand next cs else (acc, cs.length + 1)

/-- An exponent, if there is one: a mark, a sign and at least one digit. -/
def exponent? : List Char → Option (Int × List Char)
  | c :: cs =>
    if c = 'e' || c = 'E' then
      let (negative, cs) := match cs with
        | '-' :: cs => (true, cs)
        | '+' :: cs => (false, cs)
        | cs => (false, cs)
      let digits := cs.takeWhile Char.isDigit
      if digits.isEmpty then none
      else
        let n := digits.foldl (fun acc c => acc * 10 + (c.toNat - '0'.toNat)) 0
        some (if negative then -(n : Int) else n, cs.dropWhile Char.isDigit)
    else some (0, c :: cs)
  | [] => some (0, [])

/-- A fraction, if there is one: a point and at least one digit. -/
def fraction? : List Char → Option (List Char × List Char)
  | '.' :: cs =>
    let digits := cs.takeWhile Char.isDigit
    if digits.isEmpty then none else some (digits, cs.dropWhile Char.isDigit)
  | cs => some ([], cs)

/-- Reads a number. Digits of the fraction count while the significand has room for them. -/
def number? (cs : List Char) : Option (Number × List Char) := do
  let (negative, cs) := match cs with
    | '-' :: cs => (true, cs)
    | cs => (false, cs)
  let whole := cs.takeWhile Char.isDigit
  let rest := cs.dropWhile Char.isDigit
  if whole.isEmpty || (whole.head? == some '0' && whole.length != 1) then none
  else
    let (digits, rest) ← fraction? rest
    let (power, rest) ← exponent? rest
    let (n, wholeDropped) := significand 0 whole
    let (n, fractionDropped) := significand n digits
    let scale : Int := wholeDropped - (digits.length - fractionDropped : Nat) + power
    let x ← Number.ofDecimal? negative n scale
    some (x, rest)

/-! ### Values -/

/-- A word of JSON. -/
def word? (cs : List Char) : Option (Json × List Char) :=
  let words : List (String × Json) :=
    [("null", .null), ("true", .boolean true), ("false", .boolean false)]
  words.findSome? fun (word, j) => (Text.dropStart? word.toList cs).map fun rest => (j, rest)

mutual

/-- Reads a value; `depth` is how many arrays and objects may still open. -/
def value? : (fuel depth : Nat) → List Char → Option (Json × List Char)
  | 0, _, _ => none
  | fuel + 1, depth, cs =>
    match skipSpace cs with
    | '"' :: rest => (string? (rest.length + 1) [] rest).map fun (s, rest) => (.string s, rest)
    | '[' :: rest =>
      if depth ≤ 1 then none
      else match skipSpace rest with
        | ']' :: rest => some (.array [], rest)
        | rest => items? fuel (depth - 1) [] rest
    | '{' :: rest =>
      if depth ≤ 1 then none
      else match skipSpace rest with
        | '}' :: rest => some (.object [], rest)
        | rest => fields? fuel (depth - 1) [] rest
    | c :: rest =>
      if c == '-' || c.isDigit then (number? (c :: rest)).map fun (x, rest) => (.number x, rest)
      else word? (c :: rest)
    | [] => none

/-- Reads the items of an array, up to its end. -/
def items? : (fuel depth : Nat) → (acc : List Json) → List Char → Option (Json × List Char)
  | 0, _, _, _ => none
  | fuel + 1, depth, acc, cs => do
    let (j, rest) ← value? fuel depth cs
    match skipSpace rest with
    | ',' :: rest => items? fuel depth (j :: acc) rest
    | ']' :: rest => some (.array (j :: acc).reverse, rest)
    | _ => none

/-- Reads the fields of an object, up to its end. -/
def fields? : (fuel depth : Nat) → (acc : Fields Json) → List Char → Option (Json × List Char)
  | 0, _, _, _ => none
  | fuel + 1, depth, acc, cs => do
    match skipSpace cs with
    | '"' :: rest =>
      let (name, rest) ← string? (rest.length + 1) [] rest
      match skipSpace rest with
      | ':' :: rest =>
        let (j, rest) ← value? fuel depth rest
        match skipSpace rest with
        | ',' :: rest => fields? fuel depth (Fields.insert name j acc) rest
        | '}' :: rest => some (.object (Fields.insert name j acc), rest)
        | _ => none
      | _ => none
    | _ => none

end

/-- Reads JSON text. -/
def parse? (text : String) : Option Json := do
  let cs := text.toList
  let (j, rest) ← value? (2 * cs.length + 2) 128 cs
  if (skipSpace rest).isEmpty then some j else none

end TypedRecords.Json
