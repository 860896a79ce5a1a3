import TypedRecords.Fields
import TypedRecords.Regex.Reader

/-! # Settings files

Lines of `key = value`, blank lines and comments. Values are booleans, numbers, and strings between
double quotes, with escapes, or between single quotes, without. A line in brackets opens a table, to
which the keys after it belong; only keys outside of tables are settings. No key occurs twice.
-/

namespace TypedRecords

/-- A value in a settings file. -/
inductive FileValue where
  | boolean (b : Bool)
  | text (s : String)
  | number
  | table
deriving DecidableEq, Repr, Inhabited

namespace SettingsFile

def isBlank (c : Char) : Bool := c == ' ' || c == '\t'

/-- Whether only blanks and a comment are left of a line. -/
def isFinished (cs : List Char) : Bool :=
  match cs.dropWhile isBlank with
  | [] => true
  | c :: _ => c == '#'

def isBareKeyChar (c : Char) : Bool := c.isAlphanum || c == '_' || c == '-'

def isControl (c : Char) : Bool := (c.toNat < 0x20 && c != '\t') || c.toNat == 0x7f

/-! ### Strings -/

def escapes : List (Char × Char) :=
  [('b', '\x08'), ('t', '\t'), ('n', '\n'), ('f', '\x0c'), ('r', '\r'), ('"', '"'), ('\\', '\\')]

/-- A character by its hexadecimal digits. -/
def unicode? (width : Nat) (cs : List Char) : Option (Char × List Char) :=
  if cs.length < width then none
  else (Regex.hexValue? (cs.take width)).bind fun code =>
    (Regex.char? code).map (·, cs.drop width)

/-- Reads a string with escapes after its opening quote. -/
def basicString? : (fuel : Nat) → (acc : List Char) → List Char → Option (String × List Char)
  | 0, _, _ => none
  | _, _, [] => none
  | fuel + 1, acc, c :: cs =>
    if c = '"' then some (String.ofList acc.reverse, cs)
    else if c = '\\' then
      match cs with
      | 'u' :: rest => do
        let (c, rest) ← unicode? 4 rest
        basicString? fuel (c :: acc) rest
      | 'U' :: rest => do
        let (c, rest) ← unicode? 8 rest
        basicString? fuel (c :: acc) rest
      | e :: rest => do
        let c ← escapes.lookup e
        basicString? fuel (c :: acc) rest
      | [] => none
    else if isControl c then none
    else basicString? fuel (c :: acc) cs

/-- Reads a string without escapes after its opening quote. -/
def literalString? (cs : List Char) : Option (String × List Char) :=
  let content := cs.takeWhile (· != '\'')
  match cs.drop content.length with
  | '\'' :: rest => if content.any isControl then none else some (String.ofList content, rest)
  | _ => none

/-! ### Numbers -/

/-- Digits with single underscores between them. -/
def isDigitRun (isDigit : Char → Bool) : List Char → Bool
  | [] => false
  | [c] => isDigit c
  | c :: '_' :: rest => isDigit c && isDigitRun isDigit rest
  | c :: rest => isDigit c && isDigitRun isDigit rest

def isDecimal (cs : List Char) : Bool :=
  isDigitRun Char.isDigit cs && (cs.head? != some '0' || cs.length == 1)

/-- A whole number, a fraction, or one of the special numbers. -/
def isUnsigned (cs : List Char) : Bool :=
  let whole := cs.takeWhile fun c => c.isDigit || c == '_'
  let rest := cs.drop whole.length
  let exponent (cs : List Char) : Bool := match cs with
    | '+' :: cs => isDigitRun Char.isDigit cs
    | '-' :: cs => isDigitRun Char.isDigit cs
    | cs => isDigitRun Char.isDigit cs
  let afterFraction (cs : List Char) : Bool := match cs with
    | [] => true
    | c :: cs => (c == 'e' || c == 'E') && exponent cs
  cs == "inf".toList || cs == "nan".toList || (isDecimal whole && match rest with
    | '.' :: rest =>
      let fraction := rest.takeWhile fun c => c.isDigit || c == '_'
      isDigitRun Char.isDigit fraction && afterFraction (rest.drop fraction.length)
    | rest => afterFraction rest)

def isNumber (cs : List Char) : Bool :=
  match cs with
  | '+' :: cs => isUnsigned cs
  | '-' :: cs => isUnsigned cs
  | '0' :: 'x' :: cs => isDigitRun (fun c => (Regex.hexDigit? c).isSome) cs
  | '0' :: 'o' :: cs => isDigitRun (fun c => '0' ≤ c && c ≤ '7') cs
  | '0' :: 'b' :: cs => isDigitRun (fun c => c == '0' || c == '1') cs
  | cs => isUnsigned cs

/-! ### Lines -/

/-- Reads a value. -/
def value? (cs : List Char) : Option (FileValue × List Char) :=
  match cs with
  | '"' :: rest => (basicString? (rest.length + 1) [] rest).map fun (s, rest) => (.text s, rest)
  | '\'' :: rest => (literalString? rest).map fun (s, rest) => (.text s, rest)
  | cs =>
    let word := cs.takeWhile fun c => !isBlank c && c != '#'
    let rest := cs.drop word.length
    if word == "true".toList then some (.boolean true, rest)
    else if word == "false".toList then some (.boolean false, rest)
    else if isNumber word then some (.number, rest)
    else none

/-- Reads a key. -/
def key? (cs : List Char) : Option (String × List Char) :=
  match cs with
  | '"' :: rest => basicString? (rest.length + 1) [] rest
  | '\'' :: rest => literalString? rest
  | cs =>
    let key := cs.takeWhile isBareKeyChar
    if key.isEmpty then none else some (String.ofList key, cs.drop key.length)

/-- The settings read so far, and the keys of the table that is open, if one is. -/
structure State where
  settings : Fields FileValue := []
  open? : Option (List String) := none

/-- Reads a line that opens a table. -/
def tableLine? (state : State) (cs : List Char) : Option State := do
  let (name, rest) ← key? (cs.dropWhile isBlank)
  match rest.dropWhile isBlank with
  | ']' :: rest =>
    if isFinished rest && !Fields.contains name state.settings then
      some { settings := Fields.insert name .table state.settings, open? := some [] }
    else none
  | _ => none

/-- Reads a line of key and value. -/
def entryLine? (state : State) (cs : List Char) : Option State := do
  let (key, rest) ← key? cs
  match rest.dropWhile isBlank with
  | '=' :: rest =>
    let (v, rest) ← value? (rest.dropWhile isBlank)
    if !isFinished rest then none
    else match state.open? with
      | some keys =>
        if keys.contains key then none else some { state with open? := some (key :: keys) }
      | none =>
        if Fields.contains key state.settings then none
        else some { state with settings := Fields.insert key v state.settings }
  | _ => none

def line? (state : State) (line : List Char) : Option State :=
  let line := if line.getLast? == some '\r' then line.dropLast else line
  if line.any isControl then none
  else
    let cs := line.dropWhile isBlank
    if isFinished cs then some state
    else match cs with
      | '[' :: rest => tableLine? state rest
      | cs => entryLine? state cs

/-- Reads a settings file. -/
def parse? (text : String) : Option (Fields FileValue) :=
  ((Text.cutAt '\n' text.toList).foldlM line? {}).map State.settings

end SettingsFile

end TypedRecords
