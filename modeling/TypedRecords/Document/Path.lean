import TypedRecords.Value

/-! # Dotted paths

A path names a place inside nested objects by the names on the way, joined by points. Reading goes
through objects only; writing makes the objects that are missing on the way.
-/

namespace TypedRecords

/-- What a collection stores. -/
abbrev Document := Object

namespace Path

/-- The segments of a path. The empty path has one segment, the empty name. -/
def segments (path : String) : List String :=
  (Text.cutAt '.' path.toList).map String.ofList

/-- A path one name longer; nothing stands before the first name. -/
def join (path name : String) : String :=
  if path.isEmpty then name else path ++ "." ++ name

/-! ### Along segments -/

def getAlong : List String → Value → Option Value
  | [], v => some v
  | name :: rest, v => do
    let fields ← v.asObject?
    getAlong rest (← Fields.get? name fields)

/-- The object under a name, or a new one if there is none. -/
def objectAt (name : String) (fields : Object) : Object :=
  ((Fields.get? name fields).bind Value.asObject?).getD []

def setAlong (v : Value) : List String → Document → Document
  | [], document => document
  | [name], document => Fields.insert name v document
  | name :: rest, document =>
    Fields.insert name (.object (setAlong v rest (objectAt name document))) document

/-- Removes what stands at the end, unless nothing does. -/
def removeAlong? : List String → Document → Option Document
  | [], _ => none
  | [name], document =>
    if Fields.contains name document then some (Fields.erase name document) else none
  | name :: rest, document =>
    match Fields.get? name document with
    | some (.object inner) =>
      (removeAlong? rest inner).map fun inner => Fields.insert name (.object inner) document
    | _ => none

/-! ### Along paths -/

/-- What stands at a path. The empty path is the value itself. -/
def get? (v : Value) (path : String) : Option Value :=
  if path.isEmpty then some v else getAlong (segments path) v

/-- What stands at a path; undefined if nothing does. -/
def get (v : Value) (path : String) : Value := (get? v path).getD .undefined

def set (document : Document) (path : String) (v : Value) : Document :=
  setAlong v (segments path) document

def remove? (document : Document) (path : String) : Option Document :=
  removeAlong? (segments path) document

def remove (document : Document) (path : String) : Document :=
  (remove? document path).getD document

/-! ### Reading after writing -/

theorem segments_ne_nil (path : String) : segments path ≠ [] := by
  simp [segments, Text.cutAt_ne_nil]

theorem getAlong_setAlong (v : Value) (names : List String) (h : names ≠ [])
    (document : Document) : getAlong names (.object (setAlong v names document)) = some v := by
  induction names generalizing document with
  | nil => exact absurd rfl h
  | cons name rest ih =>
    cases rest with
    | nil => simp [setAlong, getAlong, Value.asObject?]
    | cons next rest =>
      have inner := ih (by simp) (objectAt name document)
      simpa [setAlong, getAlong, Value.asObject?] using inner

end Path

end TypedRecords
