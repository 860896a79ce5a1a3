import TypedRecords.Tree
import TypedRecords.Value.Wire
import TypedRecords.Record.Selection

/-! # Encoding records as trees

A record becomes an object with its tags and its selected attributes that are set. A record that is
being encoded already becomes a reference: its tags and one identifier. For a store, every record
below the first that is referred to by identifier becomes a reference too, and no object says whether
it is new.
-/

namespace TypedRecords

/-- Whom a tree is for. -/
inductive Target where
  | remote
  | store
deriving DecidableEq, Repr, Inhabited

namespace Value

variable {m : Type → Type} [Monad m]

mutual

/-- Encodes a value, given how its records are encoded. Records in the fields of a plain object are
encoded whole. -/
def encode (onRecord : RecordRef → Selector → m Value) (s : Selector) : Value → m Value
  | .record r => onRecord r s
  | .classRef c => pure (Tree.ofClass c)
  | .array items => do pure (.array (← encodeItems onRecord s items))
  | .object fields => do pure (.object (← encodeFields onRecord fields))
  | v => pure v

def encodeItems (onRecord : RecordRef → Selector → m Value) (s : Selector) :
    List Value → m (List Value)
  | [] => pure []
  | v :: rest => do
    let v ← encode onRecord s v
    pure (v :: (← encodeItems onRecord s rest))

def encodeFields (onRecord : RecordRef → Selector → m Value) :
    List (String × Value) → m (List (String × Value))
  | [] => pure []
  | (name, v) :: rest => do
    let v ← encode onRecord .all v
    pure ((name, v) :: (← encodeFields onRecord rest))

end

end Value

namespace Record

variable (d : Directory)

/-- The tags of a record. -/
def header (target : Target) (r : RecordRef) : Action Object := do
  let tag : Object := [(Tree.classTag, .string r.className)]
  if target == .remote && (← MonadState.get).isNew r then
    pure (Fields.insert Tree.newTag (.boolean true) tag)
  else pure tag

/-- A record as a reference. -/
def encodeReference (target : Target) (r : RecordRef) : Action Value := do
  let tags ← header target r
  pure (.object (Fields.insertAll tags (← descriptor d r)))

/-- Adds an encoded attribute to those before it. -/
def encodeAttribute (onRecord : RecordRef → Selector → Action Value) (r : RecordRef)
    (s : Selector) (acc : Object) (a : Attribute) : Action Object := do
  let sub := s.get a.name
  if sub.isNone then pure acc
  else
    match ← lift (r.value? a.name) with
    | none => pure acc
    | some v => pure (Fields.insert a.name (← v.encode onRecord sub) acc)

/-- Encodes a record, entering at most so many records. -/
def encodeWithin (target : Target) : (steps : Nat) → (visiting : List RecordRef) →
    (isRoot : Bool) → RecordRef → Selector → Action Value
  | 0, _, _, _, _ => throw .unending
  | steps + 1, visiting, isRoot, r, s => do
    let reduced := !isRoot && target == .store && (d.definition r.cls).referenceable
    if visiting.contains r || reduced then encodeReference d target r
    else
      let onRecord := encodeWithin target steps (r :: visiting) false
      let tags ← header target r
      let fields ← (d.attributes r.cls).foldlM (encodeAttribute onRecord r s) tags
      pure (.object fields)

/-- Encodes a value; if it is a record, that record is not reduced. -/
def encode (target : Target) (s : Selector) (v : Value) : Action Value := do
  let steps ← stepsFor s
  match v with
  | .record r => encodeWithin d target steps [] true r s
  | v => v.encode (encodeWithin d target steps [] false) s

/-- The wire form of a value without references. -/
def toJson (v : Value) : Except Error Json :=
  match v.toJson with
  | .ok j => pure j
  | .error kind => throw (.usage (.liveReference kind))

end Record

end TypedRecords
