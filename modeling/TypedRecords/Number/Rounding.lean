import TypedRecords.Number

/-! # Rounding

The number nearest to a ratio of natural numbers, a half going to the even neighbour, and the
numbers that decimal notation denotes.
-/

namespace TypedRecords

/-- The nearest natural number to a ratio, a half going to the even neighbour. -/
def roundDiv (num den : Nat) : Nat :=
  let quotient := num / den
  let twice := 2 * (num % den)
  if twice < den then quotient
  else if den < twice then quotient + 1
  else if quotient % 2 = 0 then quotient
  else quotient + 1

namespace Number

/-- A sign and a magnitude, where magnitudes past the largest are infinite. -/
def ofMagnitude (negative : Bool) (magnitude : Nat) : Number :=
  ⟨negative, min magnitude infinite, Nat.le_trans (Nat.min_le_right _ _) (by decide)⟩

/-- The number nearest to a ratio. The grid of the binade that the ratio lies in has
2^52 points; a significand that rounds up to 2^53 is the first of the next binade. -/
def ofRatio (negative : Bool) (num den : Nat) : Number :=
  let scaled := num * unit
  let shift := (scaled / den).log2 - 52
  ofMagnitude negative (shift * Nat.pow 2 52 + roundDiv scaled (den * Nat.pow 2 shift))

/-- The number nearest to a whole number. -/
def ofInt (n : Int) : Number := ofRatio (n < 0) n.natAbs 1

def ofNat (n : Nat) : Number := ofRatio false n 1

/-! ### Decimal notation

A decimal is read by rounding its significand first and then scaling it by a power of ten, rounding
once more.
-/

/-- 10 to a power, as a number. -/
def powerOfTen (exponent : Nat) : Number := ofNat (Nat.pow 10 exponent)

/-- A finite number times a power of ten up to 308. -/
def scaleUp (x : Number) (exponent : Nat) : Number :=
  ofRatio x.negative (x.units * (powerOfTen exponent).units) (unit * unit)

/-- A finite number divided by a power of ten up to 308. -/
def scaleDown (x : Number) (exponent : Nat) : Number :=
  ofRatio x.negative x.units (powerOfTen exponent).units

/-- Divides by ten to any power, in steps of 308. -/
def scaleDownBy (x : Number) (exponent : Nat) : Number :=
  if exponent ≤ 308 then x.scaleDown exponent
  else if x.magnitude = 0 then x
  else scaleDownBy (x.scaleDown 308) (exponent - 308)
termination_by exponent

/-- The number that `significand · 10^exponent` denotes, unless it is out of range. -/
def ofDecimal? (negative : Bool) (significand : Nat) (exponent : Int) : Option Number :=
  let start := ofRatio negative significand 1
  if exponent < 0 then some (start.scaleDownBy exponent.natAbs)
  else if exponent ≤ 308 then
    let result := start.scaleUp exponent.natAbs
    if result.isFinite then some result else none
  else if significand = 0 then some start
  else none

end Number

end TypedRecords
