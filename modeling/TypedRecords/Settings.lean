/-! # Settings of a store -/

namespace TypedRecords

structure Settings where
  /-- Record operations from the start. -/
  trace : Bool := false
  /-- What the names of collections begin with. -/
  collectionPrefix : String := ""
  /-- Do not report changes of indexes. -/
  silentMigrations : Bool := false
deriving DecidableEq, Repr, Inhabited

/-- The collection of a class. -/
def Settings.collectionName (s : Settings) (className : String) : String :=
  s.collectionPrefix ++ className

end TypedRecords
