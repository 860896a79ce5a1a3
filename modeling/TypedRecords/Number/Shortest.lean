import TypedRecords.Number.Rounding

/-! # Shortest digits

The fewest decimal digits that read back as a given number. The reals that round to the number form
an interval, closed if the magnitude is even. For 1, 2, … 17 digits the two neighbours of the number
on that decimal grid are tried: the first grid with a hit wins, and of two hits the nearer.
-/

namespace TypedRecords

/-- `0.d₁d₂…dₙ · 10^point` with the digits of `digits`, the first of them not zero. -/
structure Digits where
  digits : List Nat
  point : Int
deriving DecidableEq, Repr

namespace Digits

/-- Decimal digits of a natural number, last first. -/
def reversedDigits (fuel n : Nat) : List Nat :=
  match fuel with
  | 0 => []
  | fuel + 1 => if n = 0 then [] else n % 10 :: reversedDigits fuel (n / 10)

/-- Decimal digits of a natural number, without leading zeros. -/
def ofNat (n : Nat) : List Nat := (reversedDigits (n.log2 + 1) n).reverse

/-- Leaves out the zeros at the end. -/
def trim (digits : List Nat) : List Nat :=
  (digits.reverse.dropWhile (· == 0)).reverse

/-- The digits of `n · 10^exponent`. -/
def ofScaled (n : Nat) (exponent : Int) : Digits :=
  let digits := ofNat n
  ⟨trim digits, digits.length + exponent⟩

end Digits

namespace Number

/-- The reals that round to a magnitude, between `low / 2` and `high / 2` units. -/
structure Interval where
  low : Nat
  high : Nat
  closed : Bool

def interval (magnitude : Nat) : Interval :=
  { low := unitsOf (magnitude - 1) + unitsOf magnitude
    high := unitsOf magnitude + unitsOf (magnitude + 1)
    closed := magnitude % 2 = 0 }

/-- Whether the interval holds `num / den` units. -/
def Interval.holds (i : Interval) (num den : Nat) : Bool :=
  if i.closed then i.low * den ≤ 2 * num && 2 * num ≤ i.high * den
  else i.low * den < 2 * num && 2 * num < i.high * den

/-- Position of the leading digit: the greatest `k` with `10^k ≤ value`, counted from `k`
downwards. -/
def leadingFrom (units : Nat) : (fuel : Nat) → (k : Int) → Int
  | 0, k => k
  | fuel + 1, k =>
    let power := Nat.pow 10 k.natAbs
    let reached := if 0 ≤ k then power * unit ≤ units else unit ≤ units * power
    if reached then k else leadingFrom units fuel (k - 1)

/-- The position of the leading digit of a positive magnitude. The number of binary digits gives
an upper estimate that is at most two too high. -/
def leading (units : Nat) : Int :=
  let bits : Int := (units.log2 : Int) - 1074
  leadingFrom units 4 (Int.fdiv (bits * 30103 + 30103) 100000 + 1)

/-- The hit on the grid of multiples of `10^exponent`, if there is one. -/
def gridHit (units : Nat) (i : Interval) (exponent : Int) : Option Digits :=
  let power := Nat.pow 10 exponent.natAbs
  -- the value in grid steps is num / den
  let num := if 0 ≤ exponent then units else units * power
  let den := if 0 ≤ exponent then unit * power else unit
  let below := num / den
  let rest := num % den
  let holds (n : Nat) : Bool :=
    if 0 ≤ exponent then i.holds (n * den) 1 else i.holds (n * unit) power
  let down := 0 < below && holds below
  let up := holds (below + 1)
  if down && (!up || 2 * rest < den || (2 * rest = den && below % 2 = 0)) then
    some (Digits.ofScaled below exponent)
  else if up then some (Digits.ofScaled (below + 1) exponent)
  else none

/-- The first hit on the grids with `count`, `count + 1`, … digits. -/
def firstHit (units : Nat) (i : Interval) (top : Int) : (fuel count : Nat) → Digits
  | 0, count => (gridHit units i (top + 1 - count)).getD ⟨[0], 1⟩
  | fuel + 1, count =>
    match gridHit units i (top + 1 - count) with
    | some digits => digits
    | none => firstHit units i top fuel (count + 1)

/-- The fewest digits that read back as a finite number's magnitude. -/
def shortest (x : Number) : Digits :=
  if x.magnitude = 0 then ⟨[0], 1⟩
  else firstHit x.units (interval x.magnitude) (leading x.units) 16 1

end Number

end TypedRecords
