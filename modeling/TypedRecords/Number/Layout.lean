import TypedRecords.Number.Shortest

/-! # Layouts of numbers

Two texts of a number from its shortest digits. The plain text never has an exponent. The wire text
shows that the number is not an integer literal, and has an exponent when the leading digit stands
at 10^16 or above, or below 10^-5.
-/

namespace TypedRecords

def digitChar (n : Nat) : Char := Char.ofNat (48 + n)

def digitText (digits : List Nat) : String := String.ofList (digits.map digitChar)

def zeros (n : Nat) : String := String.ofList (List.replicate n '0')

/-- Decimal text of a natural number. -/
def natText (n : Nat) : String :=
  if n = 0 then "0" else digitText (Digits.ofNat n)

def intText (n : Int) : String :=
  if n < 0 then "-" ++ natText n.natAbs else natText n.natAbs

/-- Lower-case hexadecimal text of a natural number, without leading zeros. -/
def hexText (n : Nat) : String :=
  String.ofList (Nat.toDigits 16 n)

namespace Digits

/-- Digits around the point, without an exponent; `whole` is written after an integer. -/
def positional (d : Digits) (whole : String) : String :=
  let count : Int := d.digits.length
  if d.point ≤ 0 then "0." ++ zeros d.point.natAbs ++ digitText d.digits
  else if count ≤ d.point then
    digitText d.digits ++ zeros (d.point - count).natAbs ++ whole
  else digitText (d.digits.take d.point.natAbs) ++ "." ++ digitText (d.digits.drop d.point.natAbs)

/-- One digit before the point, and an exponent that shows its sign. -/
def exponential (d : Digits) : String :=
  let exponent := d.point - 1
  let mark := if exponent < 0 then "e-" else "e+"
  let fraction := d.digits.drop 1
  digitText (d.digits.take 1) ++ (if fraction.isEmpty then "" else "." ++ digitText fraction)
    ++ mark ++ natText exponent.natAbs

end Digits

namespace Number

def signText (x : Number) : String := if x.negative then "-" else ""

/-- Shortest digits, never an exponent. -/
def plainText (x : Number) : String :=
  if x.isNaN then "NaN"
  else if x.isFinite then x.signText ++ x.shortest.positional ""
  else x.signText ++ "inf"

/-- Shortest digits in the layout of wire text. -/
def wireText (x : Number) : String :=
  let d := x.shortest
  if -5 < d.point && d.point ≤ 16 then x.signText ++ d.positional ".0"
  else x.signText ++ d.exponential

end Number

end TypedRecords
