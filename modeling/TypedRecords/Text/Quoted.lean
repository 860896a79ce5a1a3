import TypedRecords.Text.Printable
import TypedRecords.Number.Layout

/-! # Quoted text

Text between double quotes. Quotes, backslashes and the usual controls have short escapes, other
characters without a glyph of their own are written by code point.
-/

namespace TypedRecords.Text

/-- A character inside quoted text. -/
def quotedChar (c : Char) : String :=
  if c = '"' then "\\\""
  else if c = '\\' then "\\\\"
  else if c = '\n' then "\\n"
  else if c = '\r' then "\\r"
  else if c = '\t' then "\\t"
  else if c = '\x00' then "\\0"
  else if isPlain c then String.singleton c
  else "\\u\x7b" ++ hexText c.toNat ++ "\x7d"

def quoted (s : String) : String :=
  "\"" ++ String.join (s.toList.map quotedChar) ++ "\""

/-! ### Small operations on text -/

/-- The text without blanks at its ends. -/
def trimChars (blank : Char → Bool) (cs : List Char) : List Char :=
  ((cs.dropWhile blank).reverse.dropWhile blank).reverse

/-- The rest of a text after a beginning. -/
def dropStart? : (start text : List Char) → Option (List Char)
  | [], text => some text
  | _ :: _, [] => none
  | a :: start, b :: text => if a = b then dropStart? start text else none

/-- Whether one text begins another. -/
def startsWith (text start : String) : Bool :=
  (dropStart? start.toList text.toList).isSome

/-- Whether one text ends another. -/
def endsWith (text ending : String) : Bool :=
  (dropStart? ending.toList.reverse text.toList.reverse).isSome

/-- Whether one text occurs in another. -/
def occursIn (part : List Char) : List Char → Bool
  | [] => part.isEmpty
  | c :: rest => (dropStart? part (c :: rest)).isSome || occursIn part rest

/-- Cuts a text at every occurrence of a character. -/
def cutAt (mark : Char) : List Char → List (List Char)
  | [] => [[]]
  | c :: rest =>
    match cutAt mark rest with
    | [] => [[]]
    | piece :: pieces => if c = mark then [] :: piece :: pieces else (c :: piece) :: pieces

theorem dropStart?_eq_some_iff (start text rest : List Char) :
    dropStart? start text = some rest ↔ text = start ++ rest := by
  induction start generalizing text with
  | nil => simp [dropStart?, eq_comm]
  | cons a start ih =>
    cases text with
    | nil => simp [dropStart?]
    | cons b text =>
      by_cases h : a = b
      · subst h; simp [dropStart?, ih]
      · simp [dropStart?, h, Ne.symm h]

theorem cutAt_ne_nil (mark : Char) (cs : List Char) : cutAt mark cs ≠ [] := by
  induction cs with
  | nil => simp [cutAt]
  | cons c rest ih =>
    cases h : cutAt mark rest with
    | nil => exact absurd h ih
    | cons piece pieces => by_cases hc : c = mark <;> simp [cutAt, h, hc]

end TypedRecords.Text
