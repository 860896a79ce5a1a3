import TypedRecords.Text.Word
import TypedRecords.Text.Folding

/-! # Regular expressions

Expressions over sets of characters, and where they match. `ends` gives the positions at which a
match that starts at given positions can end. A repetition of more rounds than the text has places
reaches nothing that one of that many rounds does not, so the rounds are cut there.
-/

namespace TypedRecords

/-- A set of characters. -/
inductive CharSet where
  | range (first last : Char)
  | digit
  | blank
  | word
  | none
  | union (a b : CharSet)
  | inter (a b : CharSet)
  | compl (a : CharSet)
  /-- All case variants of the characters of a set. -/
  | anyCase (a : CharSet)
deriving DecidableEq, Repr, Inhabited

namespace CharSet

def single (c : Char) : CharSet := .range c c

def contains : CharSet → Char → Bool
  | .range first last, c => first ≤ c && c ≤ last
  | .digit, c => Text.isDigit c
  | .blank, c => Text.isBlank c
  | .word, c => Text.isWord c
  | .none, _ => false
  | .union a b, c => a.contains c || b.contains c
  | .inter a b, c => a.contains c && b.contains c
  | .compl a, c => !a.contains c
  | .anyCase a, c => (Text.caseVariants c).any a.contains

def unionAll (sets : List CharSet) : CharSet := sets.foldl .union .none

theorem contains_single (c d : Char) : (single c).contains d = true ↔ d = c := by
  simp only [single, contains, Bool.and_eq_true, decide_eq_true_eq]
  exact ⟨fun h => Char.le_antisymm h.2 h.1, fun h => h ▸ ⟨Char.le_refl _, Char.le_refl _⟩⟩

end CharSet

/-- A condition on a place between two characters. -/
inductive Anchor where
  | textStart
  | textEnd
  | lineStart
  | lineEnd
  | wordEdge
  | noWordEdge
  | wordStart
  | wordEnd
  | wordStartHalf
  | wordEndHalf
deriving DecidableEq, Repr

inductive Regex where
  | empty
  | set (s : CharSet)
  | anchor (a : Anchor)
  | seq (a b : Regex)
  | alt (a b : Regex)
  | repeated (a : Regex) (least : Nat) (most : Option Nat)
deriving DecidableEq, Repr, Inhabited

namespace Regex

/-- The character before a place. -/
def before? (text : Array Char) (i : Nat) : Option Char :=
  if i = 0 then none else text[i - 1]?

/-- Whether a condition holds at a place. -/
def Anchor.holds (a : Anchor) (text : Array Char) (i : Nat) : Bool :=
  let wordBefore := (before? text i).any Text.isWord
  let wordAfter := text[i]?.any Text.isWord
  match a with
  | .textStart => i == 0
  | .textEnd => i == text.size
  | .lineStart => i == 0 || before? text i == some '\n'
  | .lineEnd => i == text.size || text[i]? == some '\n'
  | .wordEdge => wordBefore != wordAfter
  | .noWordEdge => wordBefore == wordAfter
  | .wordStart => !wordBefore && wordAfter
  | .wordEnd => wordBefore && !wordAfter
  | .wordStartHalf => !wordBefore
  | .wordEndHalf => !wordAfter

/-- Joins two lists of places, each place once. -/
def join (a b : List Nat) : List Nat :=
  a ++ b.filter fun i => !a.contains i

/-- Places after so many rounds of a step. -/
def rounds (step : List Nat → List Nat) : Nat → List Nat → List Nat
  | 0, from_ => from_
  | n + 1, from_ => rounds step n (step from_)

/-- Places after at most so many rounds of a step. -/
def upTo (step : List Nat → List Nat) : Nat → List Nat → List Nat
  | 0, from_ => from_
  | n + 1, from_ => join from_ (upTo step n (step from_))

/-- Places where a match can end that starts at one of the given places. -/
def ends (text : Array Char) : Regex → List Nat → List Nat
  | .empty, starts => starts
  | .set s, starts => starts.filterMap fun i =>
      if text[i]?.any s.contains then some (i + 1) else none
  | .anchor a, starts => starts.filter (Anchor.holds a text)
  | .seq a b, starts => ends text b (ends text a starts)
  | .alt a b, starts => join (ends text a starts) (ends text b starts)
  | .repeated a least most, starts =>
    let cut := text.size + 1
    let first := rounds (ends text a) (min least cut) starts
    let more := match most with
      | some most => min (most - least) cut
      | none => cut
    upTo (ends text a) more first

/-- Whether the expression matches anywhere in a text. -/
def isMatch (r : Regex) (text : String) : Bool :=
  let chars := text.toList.toArray
  !(ends chars r (List.range (chars.size + 1))).isEmpty

end Regex

end TypedRecords
