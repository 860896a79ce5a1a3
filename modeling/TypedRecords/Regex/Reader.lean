import TypedRecords.Regex
import TypedRecords.Text.Quoted

/-! # Reading regular expressions

The syntax of expressions: literals, escapes, classes with ranges, named sets, nesting and set
operations, groups, alternatives, greedy and lazy repetition, and flags. There is no look-around and
no back-reference. What is not in the syntax is refused.

The reader walks the text once; each step takes at least one character, so the length of the text
bounds the steps.
-/

namespace TypedRecords.Regex

/-- What the flags decide. -/
structure Flags where
  anyCase : Bool := false
  multiLine : Bool := false
  dotAll : Bool := false
  spaced : Bool := false
deriving DecidableEq, Repr, Inhabited

/-! ### Spaces and comments -/

/-- Drops a comment up to the end of its line. -/
def skipLine (cs : List Char) : List Char :=
  (cs.dropWhile (· != '\n')).drop 1

/-- In spaced expressions blanks and comments do not count. -/
def skipSpace (spaced : Bool) : (fuel : Nat) → List Char → List Char
  | 0, cs => cs
  | _, [] => []
  | fuel + 1, c :: cs =>
    if !spaced then c :: cs
    else if Text.isBlank c then skipSpace spaced fuel cs
    else if c = '#' then skipSpace spaced fuel (skipLine cs)
    else c :: cs

def skip (flags : Flags) (cs : List Char) : List Char :=
  skipSpace flags.spaced (cs.length + 1) cs

/-! ### Escapes -/

/-- What an escape stands for. -/
inductive Escape where
  | literal (c : Char)
  | set (s : CharSet)
  | anchor (a : Anchor)

def hexDigit? (c : Char) : Option Nat :=
  if '0' ≤ c && c ≤ '9' then some (c.toNat - '0'.toNat)
  else if 'a' ≤ c && c ≤ 'f' then some (c.toNat - 'a'.toNat + 10)
  else if 'A' ≤ c && c ≤ 'F' then some (c.toNat - 'A'.toNat + 10)
  else none

/-- The character with a code point, if there is one. -/
def char? (code : Nat) : Option Char :=
  if h : code.isValidChar then some (Char.ofNatAux code h) else none

/-- Value of hexadecimal digits. -/
def hexValue? (digits : List Char) : Option Nat :=
  if digits.isEmpty then none
  else digits.foldl (fun acc c => do some ((← acc) * 16 + (← hexDigit? c))) (some 0)

/-- A hexadecimal escape: `width` digits, or any number of them in braces. -/
def hexEscape? (width : Nat) (cs : List Char) : Option (Char × List Char) :=
  match cs with
  | '{' :: rest =>
    let digits := rest.takeWhile (· != '}')
    match rest.drop digits.length, hexValue? digits with
    | '}' :: rest, some code => (char? code).map (·, rest)
    | _, _ => none
  | cs =>
    if cs.length < width then none
    else (hexValue? (cs.take width)).bind fun code => (char? code).map (·, cs.drop width)

/-- The name in braces after a word edge. -/
def edgeNames : List (String × Anchor) :=
  [("{start}", .wordStart), ("{end}", .wordEnd), ("{start-half}", .wordStartHalf),
    ("{end-half}", .wordEndHalf)]

/-- A word edge, possibly one sided. -/
def edge (cs : List Char) : Anchor × List Char :=
  let named := edgeNames.findSome? fun (name, a) =>
    (Text.dropStart? name.toList cs).map fun rest => (a, rest)
  named.getD (.wordEdge, cs)

/-- Reads what follows a backslash. -/
def escape? : List Char → Option (Escape × List Char)
  | [] => none
  | c :: cs =>
    match c with
    | 'd' => some (.set .digit, cs)
    | 'D' => some (.set (.compl .digit), cs)
    | 's' => some (.set .blank, cs)
    | 'S' => some (.set (.compl .blank), cs)
    | 'w' => some (.set .word, cs)
    | 'W' => some (.set (.compl .word), cs)
    | 'A' => some (.anchor .textStart, cs)
    | 'z' => some (.anchor .textEnd, cs)
    | 'b' => let (a, rest) := edge cs; some (.anchor a, rest)
    | 'B' => some (.anchor .noWordEdge, cs)
    | '<' => some (.anchor .wordStart, cs)
    | '>' => some (.anchor .wordEnd, cs)
    | 'a' => some (.literal '\x07', cs)
    | 'f' => some (.literal '\x0c', cs)
    | 't' => some (.literal '\t', cs)
    | 'n' => some (.literal '\n', cs)
    | 'r' => some (.literal '\r', cs)
    | 'v' => some (.literal '\x0b', cs)
    | 'x' => (hexEscape? 2 cs).map fun (c, rest) => (.literal c, rest)
    | 'u' => (hexEscape? 4 cs).map fun (c, rest) => (.literal c, rest)
    | 'U' => (hexEscape? 8 cs).map fun (c, rest) => (.literal c, rest)
    | c => if c.toNat < 0x80 && !c.isAlphanum then some (.literal c, cs) else none

/-! ### Classes -/

def ofRanges (ranges : List (Char × Char)) : CharSet :=
  CharSet.unionAll (ranges.map fun r => .range r.1 r.2)

/-- The sets with a name, over ASCII. -/
def namedSets : List (String × CharSet) :=
  [("alnum", ofRanges [('0', '9'), ('A', 'Z'), ('a', 'z')]),
    ("alpha", ofRanges [('A', 'Z'), ('a', 'z')]),
    ("ascii", ofRanges [('\x00', '\x7f')]),
    ("blank", ofRanges [('\t', '\t'), (' ', ' ')]),
    ("cntrl", ofRanges [('\x00', '\x1f'), ('\x7f', '\x7f')]),
    ("digit", ofRanges [('0', '9')]),
    ("graph", ofRanges [('!', '~')]),
    ("lower", ofRanges [('a', 'z')]),
    ("print", ofRanges [(' ', '~')]),
    ("punct", ofRanges [('!', '/'), (':', '@'), ('[', '\x60'), ('\x7b', '~')]),
    ("space", ofRanges [('\t', '\r'), (' ', ' ')]),
    ("upper", ofRanges [('A', 'Z')]),
    ("word", ofRanges [('0', '9'), ('A', 'Z'), ('_', '_'), ('a', 'z')]),
    ("xdigit", ofRanges [('0', '9'), ('A', 'F'), ('a', 'f')])]

/-- A named set `[:name:]` or `[:^name:]`, without its first bracket. -/
def named? (cs : List Char) : Option (CharSet × List Char) :=
  match cs with
  | ':' :: rest =>
    let (negated, rest) := match rest with
      | '^' :: rest => (true, rest)
      | rest => (false, rest)
    let name := rest.takeWhile (fun c => c != ':')
    match rest.drop name.length with
    | ':' :: ']' :: rest =>
      (namedSets.lookup (String.ofList name)).map fun s => (if negated then .compl s else s, rest)
    | _ => none
  | _ => none

/-- Folds a set when case does not count. -/
def withCase (flags : Flags) (s : CharSet) : CharSet :=
  if flags.anyCase then .anyCase s else s

/-- A set operation and its operands so far. -/
inductive SetOperation where
  | inter
  | difference
  | symmetric

def SetOperation.apply : SetOperation → CharSet → CharSet → CharSet
  | .inter, a, b => .inter a b
  | .difference, a, b => .inter a (.compl b)
  | .symmetric, a, b => .union (.inter a (.compl b)) (.inter b (.compl a))

/-- A class being read: the operation that waits for the current operand, if any, and the operand. -/
structure ClassState where
  pending : Option (CharSet × SetOperation) := none
  items : CharSet := .none

def ClassState.add (state : ClassState) (s : CharSet) : ClassState :=
  { state with items := .union state.items s }

def ClassState.operand (flags : Flags) (state : ClassState) : CharSet :=
  match state.pending with
  | none => state.items
  | some (a, op) => op.apply a (withCase flags state.items)

def ClassState.operate (flags : Flags) (state : ClassState) (op : SetOperation) : ClassState :=
  { pending := some (withCase flags (state.operand flags), op) }

/-- One end of a range, or a whole set. -/
inductive ClassItem where
  | char (c : Char)
  | set (s : CharSet)

/-- An item of a class other than a nested class. -/
def classItem? : List Char → Option (ClassItem × List Char)
  | '\\' :: cs =>
    match escape? cs with
    | some (.literal c, rest) => some (.char c, rest)
    | some (.set s, rest) => some (.set s, rest)
    | _ => none
  | c :: cs => some (.char c, cs)
  | [] => none

/-- The beginning of a class after its bracket: negation, and characters that are literal there. -/
def classStart (flags : Flags) (cs : List Char) : Bool × ClassState × List Char :=
  let cs := skip flags cs
  let (negated, cs) := match cs with
    | '^' :: rest => (true, skip flags rest)
    | cs => (false, cs)
  let dashes := (cs.takeWhile (· == '-')).length
  let state : ClassState := if 0 < dashes then ({} : ClassState).add (.single '-') else {}
  let cs := skip flags (cs.drop dashes)
  match dashes, cs with
  | 0, ']' :: rest => (negated, state.add (.single ']'), skip flags rest)
  | _, cs => (negated, state, cs)

/-- Reads a class up to its closing bracket. -/
def class? (flags : Flags) : (fuel : Nat) → (negated : Bool) → ClassState → List Char →
    Option (CharSet × List Char)
  | 0, _, _, _ => none
  | fuel + 1, negated, state, cs =>
    match skip flags cs with
    | [] => none
    | ']' :: rest =>
      let s := withCase flags (state.operand flags)
      some (if negated then .compl s else s, rest)
    | '[' :: rest =>
      match named? rest with
      | some (s, rest) => class? flags fuel negated (state.add s) rest
      | none => do
        let (innerNegated, inner, rest) := classStart flags rest
        let (s, rest) ← class? flags fuel innerNegated inner rest
        class? flags fuel negated (state.add s) rest
    | '&' :: '&' :: rest => class? flags fuel negated (state.operate flags .inter) rest
    | '-' :: '-' :: rest => class? flags fuel negated (state.operate flags .difference) rest
    | '~' :: '~' :: rest => class? flags fuel negated (state.operate flags .symmetric) rest
    | cs => do
      let (item, rest) ← classItem? cs
      match item, skip flags rest with
      | .char first, '-' :: after =>
        match skip flags after with
        | ']' :: _ => class? flags fuel negated (state.add (.single first)) rest
        | '-' :: _ => class? flags fuel negated (state.add (.single first)) rest
        | after => do
          let (last, rest) ← classItem? after
          match last with
          | .char last =>
            if first ≤ last then class? flags fuel negated (state.add (.range first last)) rest
            else none
          | .set _ => none
      | .char c, _ => class? flags fuel negated (state.add (.single c)) rest
      | .set s, '-' :: after =>
        match skip flags after with
        | ']' :: _ => class? flags fuel negated (state.add s) rest
        | '-' :: _ => class? flags fuel negated (state.add s) rest
        | _ => none
      | .set s, _ => class? flags fuel negated (state.add s) rest

/-! ### Flags and counts -/

/-- Switches one flag. Greed does not change what matches, and Unicode is always on. -/
def Flags.assign? (flags : Flags) (c : Char) (on : Bool) : Option Flags :=
  match c with
  | 'i' => some { flags with anyCase := on }
  | 'm' => some { flags with multiLine := on }
  | 's' => some { flags with dotAll := on }
  | 'x' => some { flags with spaced := on }
  | 'U' => some flags
  | 'u' => if on then some flags else none
  | _ => none

/-- Reads flags up to `)` or `:`, and answers whether there were none and which of the two it is. -/
def flags? : (on : Bool) → (seen : List Char) → (afterMinus : Bool) → Flags → List Char →
    Option (Flags × Bool × Char × List Char)
  | _, _, _, _, [] => none
  | on, seen, afterMinus, flags, c :: cs =>
    if c = ')' || c = ':' then
      if afterMinus then none else some (flags, seen.isEmpty && on, c, cs)
    else if c = '-' then
      if on then flags? false seen true flags cs else none
    else if seen.contains c then none
    else
      match flags.assign? c on with
      | some flags => flags? on (c :: seen) false flags cs
      | none => none

/-- A decimal number with blanks around it, below 2^32. -/
def count? (cs : List Char) : Option Nat × List Char :=
  let cs := cs.dropWhile Text.isBlank
  let digits := cs.takeWhile Char.isDigit
  let n := digits.foldl (fun acc c => acc * 10 + (c.toNat - '0'.toNat)) 0
  let rest := (cs.dropWhile Char.isDigit).dropWhile Text.isBlank
  (if digits.isEmpty || Nat.pow 2 32 ≤ n then none else some n, rest)

/-- The counts of a repetition after its opening brace. -/
def counts? (flags : Flags) (cs : List Char) : Option (Nat × Option Nat × List Char) := do
  let (least, cs) := count? (skip flags cs)
  match cs with
  | ',' :: cs =>
    match skip flags cs with
    | '}' :: rest => some (← least, none, rest)
    | cs =>
      let least ← least
      let (most, cs) := count? cs
      let most ← most
      match cs with
      | '}' :: rest => if least ≤ most then some (least, some most, rest) else none
      | _ => none
  | '}' :: rest => do
    let n ← least
    some (n, some n, rest)
  | _ => none

/-! ### Expressions -/

/-- Parts of a concatenation, last first. Flags cannot be repeated. -/
abbrev Parts := List (Option Regex)

def concat (parts : Parts) : Regex :=
  parts.foldl (fun acc part => match part with
    | some r => .seq r acc
    | none => acc) .empty

/-- What a group's body answers: the alternatives read so far joined with the last one. -/
def joinAlternatives (done : List Regex) (last : Regex) : Regex :=
  done.foldl (fun acc r => .alt r acc) last

def isNameStart (c : Char) : Bool := c == '_' || (Text.isWord c && !Text.isDigit c)

def isNameChar (c : Char) : Bool :=
  c == '_' || c == '.' || c == '[' || c == ']' || Text.isWord c

/-- The name of a group up to `>`. -/
def groupName? (cs : List Char) : Option (List Char) :=
  let name := cs.takeWhile (· != '>')
  match name, cs.drop name.length with
  | first :: others, '>' :: rest =>
    if isNameStart first && others.all isNameChar then some rest else none
  | _, _ => none

/-- The flags of a group, or flags that stand alone. -/
inductive Opening where
  | group (inner : Flags)
  | setFlags (flags : Flags)

/-- Reads what follows an opening parenthesis. -/
def opening? (flags : Flags) (cs : List Char) : Option (Opening × List Char) :=
  match skip flags cs with
  | '?' :: 'P' :: '<' :: rest => (groupName? rest).map (.group flags, ·)
  | '?' :: '<' :: '=' :: _ => none
  | '?' :: '<' :: '!' :: _ => none
  | '?' :: '<' :: rest => (groupName? rest).map (.group flags, ·)
  | '?' :: rest => do
    let (inner, isEmpty, close, rest) ← flags? true [] false flags rest
    if close = ')' then
      if isEmpty then none else some (.setFlags inner, rest)
    else some (.group inner, rest)
  | cs => some (.group flags, cs)

def literal (flags : Flags) (c : Char) : Regex := .set (withCase flags (.single c))

/-- Repeats the last part. -/
def repeatLast? (parts : Parts) (least : Nat) (most : Option Nat) : Option Parts :=
  match parts with
  | some r :: rest => some (some (.repeated r least most) :: rest)
  | _ => none

/-- Drops the mark of a lazy repetition, which does not change what matches. -/
def dropLazy (flags : Flags) (cs : List Char) : List Char :=
  match skip flags cs with
  | '?' :: rest => rest
  | cs => cs

/-- Reads the body of a group, or the whole text at depth 0. Flags that stand alone hold up to the
end of their group. -/
def body? : (fuel : Nat) → (depth : Nat) → Flags → (done : List Regex) → Parts → List Char →
    Option (Regex × List Char)
  | 0, _, _, _, _, _ => none
  | fuel + 1, depth, flags, done, parts, cs =>
    let add (r : Regex) (rest : List Char) := body? fuel depth flags done (some r :: parts) rest
    let again (least : Nat) (most : Option Nat) (rest : List Char) := do
      body? fuel depth flags done (← repeatLast? parts least most) (dropLazy flags rest)
    match skip flags cs with
    | [] => if depth = 0 then some (joinAlternatives done (concat parts), []) else none
    | ')' :: rest =>
      if depth = 0 then none else some (joinAlternatives done (concat parts), rest)
    | '|' :: rest => body? fuel depth flags (concat parts :: done) [] rest
    | '(' :: rest => do
      let (opening, rest) ← opening? flags rest
      match opening with
      | .setFlags flags => body? fuel depth flags done (none :: parts) rest
      | .group inner =>
        let (r, rest) ← body? fuel (depth + 1) inner [] [] rest
        add r rest
    | '*' :: rest => again 0 none rest
    | '+' :: rest => again 1 none rest
    | '?' :: rest => again 0 (some 1) rest
    | '{' :: rest => do
      let (least, most, rest) ← counts? flags rest
      again least most rest
    | '[' :: rest => do
      let (negated, state, rest) := classStart flags rest
      let (s, rest) ← class? flags (rest.length + 1) negated state rest
      add (.set s) rest
    | '.' :: rest =>
      add (.set (.compl (if flags.dotAll then .none else .single '\n'))) rest
    | '^' :: rest => add (.anchor (if flags.multiLine then .lineStart else .textStart)) rest
    | '$' :: rest => add (.anchor (if flags.multiLine then .lineEnd else .textEnd)) rest
    | '\\' :: rest => do
      match ← escape? rest with
      | (.literal c, rest) => add (literal flags c) rest
      | (.set s, rest) => add (.set s) rest
      | (.anchor a, rest) => add (.anchor a) rest
    | c :: rest => add (literal flags c) rest

/-- Reads an expression. -/
def parse? (flags : Flags) (source : String) : Option Regex :=
  let cs := source.toList
  (body? (cs.length + 2) 0 flags [] [] cs).map Prod.fst

end TypedRecords.Regex
