import TypedRecords.Regex.Reader

/-! # Patterns

A pattern is a regular expression as it is written down: a source and flags. It is read as an
expression when it has to match; a pattern whose source is not in the syntax never does.
-/

namespace TypedRecords

structure Pattern where
  source : String
  flags : String
deriving DecidableEq, Repr, Inhabited

namespace Pattern

/-- The literal form `/source/flags`. -/
def text (p : Pattern) : String := "/" ++ p.source ++ "/" ++ p.flags

/-- Reads the literal form. The flags follow the last slash. -/
def parse? (literal : String) : Option Pattern :=
  match literal.toList with
  | '/' :: rest =>
    let flags := rest.reverse.takeWhile (· != '/')
    match rest.reverse.drop flags.length with
    | '/' :: source => some ⟨String.ofList source.reverse, String.ofList flags.reverse⟩
    | _ => none
  | _ => none

/-- The flags `i`, `m`, `s` and `x` count; others do not. -/
def options (p : Pattern) : Regex.Flags :=
  { anyCase := p.flags.toList.contains 'i'
    multiLine := p.flags.toList.contains 'm'
    dotAll := p.flags.toList.contains 's'
    spaced := p.flags.toList.contains 'x' }

def compile? (p : Pattern) : Option Regex := Regex.parse? p.options p.source

/-- Whether the pattern matches anywhere in a text, unless it does not compile. -/
def matches? (p : Pattern) (text : String) : Option Bool :=
  p.compile?.map (·.isMatch text)

end Pattern

end TypedRecords
