import TypedRecords.Selector

/-! # Picking

The part of a value that a selector selects. Arrays are picked item by item. Names that are always
included stay in every object that a selector lists names for.
-/

namespace TypedRecords

namespace Value

mutual

/-- Replaces the outermost objects of a value, looking through arrays. -/
def mapObjects (f : Object → Object) : Value → Value
  | .object fields => .object (f fields)
  | .array items => .array (mapObjectsItems f items)
  | v => v

def mapObjectsItems (f : Object → Object) : List Value → List Value
  | [] => []
  | v :: rest => mapObjects f v :: mapObjectsItems f rest

end

end Value

namespace Selector

/-- The fields of an object with given names, in the order of the names. -/
def included (always : List String) (fields : Object) : Object :=
  always.foldl (fun acc name => match Fields.get? name fields with
    | some v => Fields.insert name v acc
    | Option.none => acc) []

mutual

/-- The selected part of a value; `undefined` if nothing of it is selected. -/
def pick (always : List String) : Selector → Value → Value
  | .none, _ => .undefined
  | .all, v => v
  | .only selected, v =>
    v.mapObjects fun fields => pickFields always selected fields (included always fields)

/-- Adds the selected fields of an object to those picked so far. -/
def pickFields (always : List String) : List (String × Selector) → (fields picked : Object) →
    Object
  | [], _, picked => picked
  | (name, s) :: rest, fields, picked =>
    match Fields.get? name fields with
    | Option.none => pickFields always rest fields picked
    | some v =>
      let part := pick always s v
      pickFields always rest fields
        (if part.isUndefined then picked else Fields.insert name part picked)

end

end Selector

end TypedRecords
