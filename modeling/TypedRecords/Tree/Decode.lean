import TypedRecords.Tree
import TypedRecords.Record.Graph
import TypedRecords.Value.Wire

/-! # Decoding trees

Tagged objects become records: each a new one of the class that its tag names in a registry, new if
it is marked so. Attributes are assigned as they come, without sanitizing, and remember where they
came from. A tree can also be applied to a record that exists.
-/

namespace TypedRecords.Record

variable (d : Directory) (registry : RegistryRef) (source : Source)

mutual

def decode : Value → Action Value
  | .object fields =>
    match Fields.get? Tree.classTag fields with
    | some (.string tag) =>
      match Tree.classNamed? tag with
      | some name => do pure (.classRef (← ofExcept (d.find registry name)))
      | none => do
        let c ← ofExcept (d.find registry tag)
        let r ← instantiate c (Tree.isMarkedNew fields)
        decodeAttributes r fields
        pure (.record r)
    | some tag => throw (.invalidClass (.tagNotText tag))
    | none => do pure (.object (← decodeFields fields))
  | .array items => do pure (.array (← decodeItems items))
  | v => pure v

def decodeItems : List Value → Action (List Value)
  | [] => pure []
  | v :: rest => do
    let v ← decode v
    pure (v :: (← decodeItems rest))

def decodeFields : List (String × Value) → Action (List (String × Value))
  | [] => pure []
  | (name, v) :: rest => do
    let v ← decode v
    pure ((name, v) :: (← decodeFields rest))

/-- Assigns the fields of a tree to a record, but for the tags. -/
def decodeAttributes (r : RecordRef) : List (String × Value) → Action Unit
  | [] => pure ()
  | (name, v) :: rest =>
    if name = Tree.classTag || name = Tree.newTag then decodeAttributes r rest
    else do
      let _ ← ofExcept (d.attributeNamed r.cls name)
      let v ← decode v
      setFrom d source r name v
      decodeAttributes r rest

end

/-- Applies a tree to a record, which must be of the class that the tree names, if it names one. -/
def decodeInto (r : RecordRef) (v : Value) : Action Unit :=
  match v with
  | .object fields => do
    match Fields.get? Tree.classTag fields with
    | some (.string tag) =>
      if tag = r.className then pure ()
      else throw (.invalidClass (.tagOfOther (.string tag) r.className))
    | some tag => throw (.invalidClass (.tagOfOther tag r.className))
    | none => pure ()
    match Fields.get? Tree.newTag fields with
    | some (.boolean isNew) => mark r isNew
    | _ => pure ()
    decodeAttributes d registry source r fields
  | v => throw (.usage (.notATree v.typeName))

/-- Decodes JSON text. -/
def decodeText (text : String) : Action Value :=
  match Json.parse? text with
  | some j => decode d registry source (Value.ofJson j)
  | none => throw .serialization

end TypedRecords.Record
