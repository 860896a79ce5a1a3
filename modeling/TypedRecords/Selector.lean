import TypedRecords.Error

/-! # Selectors

A selector says which attributes of a graph of records take part in an operation: all of them, none
of them, or the listed ones, each with a selector of its own. Listing nothing keeps the record but
none of its attributes, which is not the same as leaving the record out.

Normal forms list no attribute with a selector that leaves it out.
-/

namespace TypedRecords

inductive Selector where
  | all
  | none
  | only (fields : List (String × Selector))
deriving Inhabited

namespace Selector

def ofBool : Bool → Selector
  | true => .all
  | false => .none

def isAll : Selector → Bool
  | .all => true
  | _ => false

def isNone : Selector → Bool
  | .none => true
  | _ => false

/-- Selects each named attribute entirely. -/
def ofNames (names : List String) : Selector :=
  .only (Fields.ofEntries (names.map fun name => (name, .all)))

/-! ### Normal forms -/

mutual

/-- Leaves out what is selected with `none`, at every level. -/
def normalize : Selector → Selector
  | .all => .all
  | .none => .none
  | .only fields => .only (normalizeFields fields)

def normalizeFields : List (String × Selector) → List (String × Selector)
  | [] => []
  | (name, s) :: rest =>
    match normalize s with
    | .none => normalizeFields rest
    | s => (name, s) :: normalizeFields rest

end

/-- The selector that entries describe; of a name that is given twice the last one counts. -/
def ofEntries (entries : List (String × Selector)) : Selector :=
  (Selector.only (Fields.ofEntries entries)).normalize

/-! ### Equality

Without regard to the order of the names.
-/

mutual

def beq : Selector → Selector → Bool
  | .all, .all => true
  | .none, .none => true
  | .only a, .only b => a.length == b.length && beqFields a b
  | _, _ => false

def beqFields : List (String × Selector) → List (String × Selector) → Bool
  | [], _ => true
  | (name, s) :: rest, other =>
    (match Fields.get? name other with
      | some t => beq s t
      | Option.none => false) && beqFields rest other

end

instance : BEq Selector := ⟨beq⟩

/-! ### Reading and writing -/

/-- The selector of an attribute. -/
def get (s : Selector) (name : String) : Selector :=
  match s with
  | .only fields => (Fields.get? name fields).getD .none
  | s => s

/-- The listed names, in order. -/
def names : Selector → List String
  | .only fields => Fields.keys fields
  | _ => []

/-- Replaces the selector of an attribute, unless everything is selected already. -/
def set (s : Selector) (name : String) (value : Selector) : Selector :=
  match s with
  | .all => .all
  | .none => if value.isNone then .none else .only [(name, value.normalize)]
  | .only fields =>
    if value.isNone then .only (Fields.erase name fields)
    else .only (Fields.insert name value.normalize fields)

/-- How many names stand below one another. -/
def depth : Selector → Nat
  | .only fields => depthFields fields + 1
  | _ => 0
where
  depthFields : List (String × Selector) → Nat
    | [] => 0
    | (_, s) :: rest => max (depth s) (depthFields rest)

/-! ### Union and intersection -/

/-- An entry, unless its selector leaves the attribute out. -/
def entry (name : String) (s : Selector) : List (String × Selector) :=
  if s.isNone then [] else [(name, s)]

/-- The entries of the second that the first does not list, normalized. -/
def addedBy (fields other : List (String × Selector)) : List (String × Selector) :=
  normalizeFields (other.filter fun e => !Fields.contains e.1 fields)

mutual

/-- What one of two selectors selects. -/
def merge : Selector → Selector → Selector
  | .all, _ => .all
  | _, .all => .all
  | .none, other => other.normalize
  | .only fields, .none => .only (normalizeFields fields)
  | .only fields, .only other => .only (mergeFields fields other ++ addedBy fields other)

def mergeFields : List (String × Selector) → List (String × Selector) →
    List (String × Selector)
  | [], _ => []
  | (name, s) :: rest, other =>
    let merged := match Fields.get? name other with
      | some t => merge s t
      | Option.none => s.normalize
    entry name merged ++ mergeFields rest other

end

mutual

/-- What both of two selectors select. -/
def intersect : Selector → Selector → Selector
  | .none, _ => .none
  | _, .none => .none
  | .all, other => other.normalize
  | .only fields, .all => .only (normalizeFields fields)
  | .only fields, .only other => .only (intersectFields fields other)

def intersectFields : List (String × Selector) → List (String × Selector) →
    List (String × Selector)
  | [], _ => []
  | (name, s) :: rest, other =>
    (match Fields.get? name other with
      | some t => entry name (intersect s t)
      | Option.none => []) ++ intersectFields rest other

end

/-- Whether everything that another selector selects is selected. -/
def includes (s other : Selector) : Bool := s.merge other == s.normalize

/-! ### Selectors as values -/

mutual

def toValue : Selector → Value
  | .all => .boolean true
  | .none => .boolean false
  | .only fields => .object (toValueFields fields)

def toValueFields : List (String × Selector) → List (String × Value)
  | [] => []
  | (name, s) :: rest => (name, toValue s) :: toValueFields rest

end

mutual

def read : Value → Except Error Selector
  | .undefined => pure .none
  | .boolean b => pure (ofBool b)
  | .object fields => do pure (.only (← readFields fields))
  | v => throw (.invalidSelector v)

def readFields : List (String × Value) → Except Error (List (String × Selector))
  | [] => pure []
  | (name, v) :: rest => do
    let s ← read v
    pure ((name, s.normalize) :: (← readFields rest))

end

/-- The selector that a value describes, normalized. -/
def ofValue (v : Value) : Except Error Selector := do
  pure (← read v).normalize

end Selector

end TypedRecords
