/-! # Numbers

A number is a binary64 floating-point number: a sign and a magnitude, where magnitudes are counted
from zero upwards in the order of the values they stand for. `units` reads a finite magnitude as a
whole number of the smallest positive value, so that order, rounding and digits are all exact
arithmetic on natural numbers. There is one NaN.
-/

namespace TypedRecords

structure Number where
  negative : Bool
  magnitude : Nat
  magnitude_le : magnitude ≤ 2047 * Nat.pow 2 52 + 1 := by decide
deriving DecidableEq, Repr

namespace Number

/-- The magnitude of the infinities. -/
def infinite : Nat := 2047 * Nat.pow 2 52

def zero : Number := ⟨false, 0, by decide⟩
def negativeZero : Number := ⟨true, 0, by decide⟩
def one : Number := ⟨false, 1023 * Nat.pow 2 52, by decide⟩
def infinity : Number := ⟨false, infinite, by decide⟩
def negativeInfinity : Number := ⟨true, infinite, by decide⟩
def nan : Number := ⟨false, infinite + 1, by decide⟩

instance : Inhabited Number := ⟨zero⟩

def isNaN (x : Number) : Bool := x.magnitude == infinite + 1

def isFinite (x : Number) : Bool := x.magnitude < infinite

/-! ### Value -/

/-- The value of a finite magnitude, as a multiple of 2^-1074. -/
def unitsOf (magnitude : Nat) : Nat :=
  if magnitude < Nat.pow 2 52 then magnitude
  else (Nat.pow 2 52 + magnitude % Nat.pow 2 52) * Nat.pow 2 (magnitude / Nat.pow 2 52 - 1)

/-- One, in units. -/
def unit : Nat := Nat.pow 2 1074

def units (x : Number) : Nat := unitsOf x.magnitude

/-- Whether the number is finite and has no fraction. -/
def isIntegral (x : Number) : Bool := x.isFinite && x.units % unit == 0

/-- The number without its fraction, if it is finite. -/
def toInt (x : Number) : Int :=
  if x.negative then -(x.units / unit : Nat) else (x.units / unit : Nat)

/-! ### Order -/

/-- Place in the order of the numbers; both zeros have place 0. -/
def rank (x : Number) : Int :=
  if x.negative then -(x.magnitude : Int) else x.magnitude

/-- Numeric equality: NaN differs from itself, and the two zeros are equal. -/
def beq (x y : Number) : Bool :=
  !x.isNaN && !y.isNaN && x.rank == y.rank

instance (priority := high) : BEq Number := ⟨beq⟩

/-- Numeric order; NaN is comparable with nothing. -/
def compare? (x y : Number) : Option Ordering :=
  if x.isNaN || y.isNaN then none else some (compare x.rank y.rank)

def le (x y : Number) : Bool := !x.isNaN && !y.isNaN && x.rank ≤ y.rank

def lt (x y : Number) : Bool := !x.isNaN && !y.isNaN && x.rank < y.rank

theorem beq_self_iff (x : Number) : x.beq x = true ↔ x.isNaN = false := by
  simp [beq]

theorem beq_comm (x y : Number) : x.beq y = y.beq x := by
  have h : (x.rank == y.rank) = (y.rank == x.rank) := by
    rw [Bool.eq_iff_iff, beq_iff_eq, beq_iff_eq]; exact eq_comm
  simp only [beq, h, Bool.and_comm]

theorem beq_trans {x y z : Number} (h : x.beq y = true) (k : y.beq z = true) :
    x.beq z = true := by
  simp [beq] at h k ⊢
  exact ⟨⟨h.1.1, k.1.2⟩, h.2.trans k.2⟩

theorem compare?_eq_none_iff (x y : Number) :
    x.compare? y = none ↔ x.isNaN = true ∨ y.isNaN = true := by
  cases hx : x.isNaN <;> cases hy : y.isNaN <;> simp [compare?, hx, hy]

end Number

end TypedRecords
