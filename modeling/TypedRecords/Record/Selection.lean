import TypedRecords.Record.Graph

/-! # Selections of records

A selector is narrowed against a record to the attributes that the record has, and further against
the records it holds. A record that is being resolved already answers the selector as it is, which
cuts cycles. Arrays combine what their items answer.

`steps` bounds how many records a traversal may enter inside each other. A graph of records that are
not forks is never entered deeper than it has records, or a selector names; a traversal that goes
deeper does not end.
-/

namespace TypedRecords

/-- How the answers of array items combine. -/
inductive Aggregation where
  | union
  | intersection
deriving DecidableEq, Repr, Inhabited

def Aggregation.combine : Aggregation → Selector → Selector → Selector
  | .union => Selector.merge
  | .intersection => Selector.intersect

structure Narrowing where
  aggregation : Aggregation := .union
  /-- Leave out attributes that are not set. -/
  setOnly : Bool := false
  /-- Without them, a record that is referred to by identifier answers its identifiers. -/
  includeReferenced : Bool := true
deriving DecidableEq, Repr, Inhabited

/-! ### Against a type -/

namespace ValueType

variable {m : Type → Type} [Monad m]

/-- Combines the answers of the items of an array, which is not empty. -/
def combineItems (combine : Selector → Selector → Selector) (resolve : Value → m Selector)
    (first : Value) (rest : List Value) : m Selector := do
  rest.foldlM (fun acc v => do pure (combine acc (← resolve v))) (← resolve first)

/-- Narrows a selector against a type and a value, if there is one. -/
def narrow (combine : Selector → Selector → Selector)
    (onRecord : RecordRef → Selector → m Selector) :
    ValueType → Selector → Option Value → m Selector
  | t, s, v =>
    if s.isNone then pure .none
    else match t with
      | .array item _ =>
        match v with
        | some (.array (first :: rest)) =>
          combineItems combine (fun v => narrow combine onRecord item s (some v)) first rest
        | _ => narrow combine onRecord item s none
      | .reference _ false _ =>
        match v with
        | some (.record r) => onRecord r s
        | _ => pure s.normalize
      | _ => pure .all

end ValueType

/-! ### Against a record -/

namespace Record

variable (d : Directory)

/-- Narrows the selector of one attribute and adds it to those of the attributes before. -/
def narrowAttribute (how : Narrowing) (onRecord : RecordRef → Selector → Action Selector)
    (r : RecordRef) (s acc : Selector) (a : Attribute) : Action Selector := do
  let sub := s.get a.name
  if sub.isNone then pure acc
  else
    let v ← lift (r.value? a.name)
    if how.setOnly && v.isNone then pure acc
    else pure (acc.set a.name (← a.type.narrow how.aggregation.combine onRecord sub v))

/-- Narrows a selector against a record, entering at most so many records. -/
def resolveWithin (how : Narrowing) : (steps : Nat) → RecordRef → Selector → Action Selector
  | 0, _, _ => throw .unending
  | steps + 1, r, s => do
    let s := s.normalize
    if s.isNone then pure s
    else if (← get).isResolving r then pure s
    else
      modify fun g => g.markResolving r true
      let onRecord (inner : RecordRef) (s : Selector) : Action Selector :=
        if !how.includeReferenced && (d.definition inner.cls).referenceable then
          pure (d.definition inner.cls).identifierSelector
        else resolveWithin how steps inner s
      let resolved ← (d.attributes r.cls).foldlM (narrowAttribute how onRecord r s) (.only [])
      modify fun g => g.markResolving r false
      pure resolved

/-- How many records a traversal with a selector may enter. -/
def stepsFor (s : Selector) : Action Nat := do
  pure ((← get).cells.size + s.depth + 2)

/-- Narrows a selector to the attributes of a record. -/
def resolve (how : Narrowing) (r : RecordRef) (s : Selector) : Action Selector := do
  resolveWithin d how (← stepsFor s) r s

/-- Narrows a selector against a type and a value. -/
def resolveType (how : Narrowing) (t : ValueType) (s : Selector) (v : Option Value) :
    Action Selector := do
  let steps ← stepsFor s
  t.narrow how.aggregation.combine (fun inner s =>
    if !how.includeReferenced && (d.definition inner.cls).referenceable then
      pure (d.definition inner.cls).identifierSelector
    else resolveWithin d how steps inner s) s v

/-! ### Restating sources -/

/-- Restates the source of every selected attribute that is set, also in the records within that are
not referred to by identifier. -/
def setSourcesWithin (source : Source) : (steps : Nat) → RecordRef → Selector → Action Unit
  | 0, _, _ => throw .unending
  | steps + 1, r, s =>
    (d.attributes r.cls).forM fun a => do
      let sub := s.get a.name
      if sub.isNone then pure ()
      else
        match ← lift (r.slot? a.name) with
        | none => pure ()
        | some slot => do
          slot.value.records.forM fun inner =>
            if (d.definition inner.cls).referenceable then pure ()
            else setSourcesWithin source steps inner sub
          write r a.name slot.value source

def setSources (source : Source) (r : RecordRef) (s : Selector) : Action Unit := do
  setSourcesWithin d source (← stepsFor s) r s

end Record

end TypedRecords
