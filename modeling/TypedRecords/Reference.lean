/-! # References

Classes and records are known by reference. A reference holds what never changes about the thing it
refers to: a serial number of its own, and what it was forked from. What does change is looked up
elsewhere by the serial number.
-/

namespace TypedRecords

/-- A class: declared under a name, or a fork of another class. -/
inductive ClassRef where
  | declared (serial : Nat) (name : String)
  | fork (serial : Nat) (base : ClassRef)
deriving DecidableEq, Repr, Inhabited

namespace ClassRef

def serial : ClassRef → Nat
  | .declared serial _ => serial
  | .fork serial _ => serial

/-- A fork has the name of its base. -/
def name : ClassRef → String
  | .declared _ name => name
  | .fork _ base => base.name

def base? : ClassRef → Option ClassRef
  | .declared _ _ => none
  | .fork _ base => some base

/-- Whether another class is among the bases of this one. -/
def isForkOf : ClassRef → (other : ClassRef) → Bool
  | .declared _ _, _ => false
  | .fork _ base, other => base == other || base.isForkOf other

def isSameOrForkOf (cls other : ClassRef) : Bool :=
  cls == other || cls.isForkOf other

theorem isSameOrForkOf_self (cls : ClassRef) : cls.isSameOrForkOf cls = true := by
  simp [isSameOrForkOf]

theorem isSameOrForkOf_fork {cls other : ClassRef} (h : cls.isSameOrForkOf other = true)
    (serial : Nat) : (ClassRef.fork serial cls).isSameOrForkOf other = true := by
  simp only [isSameOrForkOf, Bool.or_eq_true] at h
  simp only [isSameOrForkOf, isForkOf, Bool.or_eq_true]
  exact Or.inr h

end ClassRef

/-- A record: made as an instance of a class, or a fork of another record. -/
inductive RecordRef where
  | made (serial : Nat) (cls : ClassRef)
  | fork (serial : Nat) (cls : ClassRef) (base : RecordRef)
deriving DecidableEq, Repr, Inhabited

namespace RecordRef

def serial : RecordRef → Nat
  | .made serial _ => serial
  | .fork serial _ _ => serial

def cls : RecordRef → ClassRef
  | .made _ cls => cls
  | .fork _ cls _ => cls

def className (record : RecordRef) : String := record.cls.name

def base? : RecordRef → Option RecordRef
  | .made _ _ => none
  | .fork _ _ base => some base

/-- Whether another record is among the bases of this one. -/
def isForkOf : RecordRef → (other : RecordRef) → Bool
  | .made _ _, _ => false
  | .fork _ _ base, other => base == other || base.isForkOf other

end RecordRef

end TypedRecords
