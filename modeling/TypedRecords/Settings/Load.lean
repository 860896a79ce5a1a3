import TypedRecords.Settings
import TypedRecords.Settings.File
import TypedRecords.Error

/-! # Loading settings

Variables of the environment come first, then the file, then the defaults. What is given but cannot be
read is an error, even if something else takes its place.
-/

namespace TypedRecords

/-- The variables of the environment that are set. -/
structure Environment where
  trace : Option String := none
  collectionPrefix : Option String := none
  silentMigrations : Option String := none
deriving DecidableEq, Repr, Inhabited

/-- Settings of one source, where it has them. -/
structure Layer where
  trace : Option Bool := none
  collectionPrefix : Option String := none
  silentMigrations : Option Bool := none
deriving DecidableEq, Repr, Inhabited

namespace Layer

/-- What one layer has, and where it has nothing, what the next one has. -/
def above (first second : Layer) : Layer :=
  { trace := first.trace.orElse fun _ => second.trace
    collectionPrefix := first.collectionPrefix.orElse fun _ => second.collectionPrefix
    silentMigrations := first.silentMigrations.orElse fun _ => second.silentMigrations }

def settings (layer : Layer) : Settings :=
  { trace := layer.trace.getD false
    collectionPrefix := layer.collectionPrefix.getD ""
    silentMigrations := layer.silentMigrations.getD false }

/-! ### Environment -/

/-- The words for yes and no, in any case. -/
def word? (s : String) : Option Bool :=
  let word := (Text.trimChars Text.isBlank s.toList).map Char.toLower
  if ["1", "true", "yes"].any fun yes => yes.toList == word then some true
  else if ["0", "false", "no"].any fun no => no.toList == word then some false
  else none

/-- A variable that is a boolean; an empty one counts as not set. -/
def booleanVariable (text : Option String) : Except Error (Option Bool) :=
  match text with
  | none => pure none
  | some s =>
    match word? s with
    | some b => pure (some b)
    | none => if s.isEmpty then pure none else throw .settings

def ofEnvironment (env : Environment) : Except Error Layer := do
  pure { trace := ← booleanVariable env.trace
         collectionPrefix := env.collectionPrefix
         silentMigrations := ← booleanVariable env.silentMigrations }

/-! ### File -/

def boolean (key : String) (file : Fields FileValue) : Except Error (Option Bool) :=
  match Fields.get? key file with
  | none => pure none
  | some (.boolean b) => pure (some b)
  | some _ => throw .settings

def text (key : String) (file : Fields FileValue) : Except Error (Option String) :=
  match Fields.get? key file with
  | none => pure none
  | some (.text s) => pure (some s)
  | some _ => throw .settings

def ofFile (content : String) : Except Error Layer :=
  match SettingsFile.parse? content with
  | none => throw .settings
  | some file => do
    pure { trace := ← boolean "trace" file
           collectionPrefix := ← text "collection_prefix" file
           silentMigrations := ← boolean "silent_migrations" file }

end Layer

/-- Loads settings; a file that does not exist has none. -/
def Settings.load (env : Environment) (file : Option String) : Except Error Settings := do
  let first ← Layer.ofEnvironment env
  let second ← match file with
    | some content => Layer.ofFile content
    | none => pure {}
  pure (first.above second).settings

end TypedRecords
