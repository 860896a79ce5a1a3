import TypedRecords.Settings
import TypedRecords.Database.Journal

/-! # Stores

A store keeps the records of its classes in a database. It knows classes in two ways: by a registry of
its own, through which references are decoded, and as storables, whose records it keeps. A store holds
the registries whose classes were registered with it as a whole.
-/

namespace TypedRecords

/-- How a traced operation ended. -/
inductive Outcome where
  | result (v : Value)
  | failure (message : String) (code : Option String)
deriving Inhabited

structure TraceEntry where
  operation : String
  parameters : List Value
  outcome : Outcome
deriving Inhabited

namespace Outcome

def ofError (e : Error) : Outcome := .failure e.message e.code?

def isError : Outcome → Bool
  | .result _ => false
  | .failure _ _ => true

def text : Outcome → String
  | .result v => " => " ++ v.text
  | .failure message (some code) => " !! " ++ message ++ " [" ++ code ++ "]"
  | .failure message none => " !! " ++ message

end Outcome

/-- One line of a trace. -/
def TraceEntry.text (e : TraceEntry) : String :=
  e.operation ++ "(" ++ ", ".intercalate (e.parameters.map Value.text) ++ ")" ++ e.outcome.text

structure Store where
  ref : StoreRef
  registry : RegistryRef
  settings : Settings := {}
  database : Database := {}
  roots : List RegistryRef := []
  storables : Fields ClassRef := []
  trace : Option (List TraceEntry) := none
  journal : Option (List JournalEntry) := none
deriving Inhabited

namespace Store

/-- Opens a store over an empty database. -/
def open_ (d : Directory) (settings : Settings) (journal : Option (List JournalEntry)) :
    Store × Directory :=
  let (registry, opened) := d.openRegistry
  let trace := if settings.trace then some [] else none
  ({ ref := ⟨d.stores⟩, registry, settings, trace, journal }, { opened with stores := d.stores + 1 })

/-- Closes a store, which lets go of its registries. -/
def close (s : Store) (d : Directory) : Directory :=
  (s.registry :: s.roots).foldl Directory.release d

def collectionName (s : Store) (c : ClassRef) : String := s.settings.collectionName c.name

/-- The storable class under a name. -/
def storable (s : Store) (name : String) : Except Error ClassRef :=
  match Fields.get? name s.storables with
  | some c => pure c
  | none => throw (.unknownComponent name "store")

/-- Whether the store keeps records of a class: of a storable class or a fork of one. -/
def isRegistered (s : Store) (c : ClassRef) : Bool :=
  (Fields.get? c.name s.storables).any fun registered => c.isSameOrForkOf registered

def requireRegistered (s : Store) (c : ClassRef) : Except Error Unit :=
  if s.isRegistered c then pure () else throw (.registration (.unregistered c.name))

/-! ### Tracing -/

def isTracing (s : Store) : Bool := s.trace.isSome

def startTrace (s : Store) : Store := { s with trace := some [] }

/-- What was recorded; nothing while the store does not trace. -/
def traced (s : Store) : List TraceEntry := s.trace.getD []

def stopTrace (s : Store) : Store := { s with trace := none }

def record (s : Store) (e : TraceEntry) : Store :=
  { s with trace := s.trace.map fun entries => entries ++ [e] }

end Store

/-! ### Registration -/

/-- What registration changes: the directory and one store. -/
structure Enrolment where
  directory : Directory
  store : Store

abbrev Enrolling := ExceptT Error (StateM Enrolment)

namespace Store

/-- Whether a class is a storable of the store already, or why it cannot become one. -/
def checkStorable (d : Directory) (s : Store) (c : ClassRef) : Except Error Bool :=
  if !(d.definition c).storable then throw (.registration (.notStorable c.name))
  else
    match Fields.get? c.name s.storables with
    | some registered =>
      if registered = c then pure true else throw (.registration (.storableNameTaken c.name))
    | none =>
      if (d.entry c).store.any fun other => other != s.ref then
        throw (.registration (.inOtherStore c.name))
      else pure false

/-- Checks that a class can be registered as part of a whole registry. -/
def checkRoot (d : Directory) (s : Store) (c : ClassRef) : Except Error Unit := do
  match d.find? s.registry c.name with
  | some other => if other = c then pure () else throw (.registration (.rootNameTaken c.name))
  | none => pure ()
  if (d.definition c).storable then
    let _ ← checkStorable d s c

def ofExcept {α : Type} : Except Error α → Enrolling α
  | .ok a => pure a
  | .error e => throw e

/-- Enters a class in the registry of the store. -/
def enter (c : ClassRef) : Enrolling Unit := do
  let e ← get
  let d ← ofExcept (e.directory.register e.store.registry c)
  set { e with directory := d }

/-- Makes a class a storable of the store; a second time changes nothing. -/
def registerStorable (c : ClassRef) : Enrolling Unit := do
  let e ← get
  if ← ofExcept (checkStorable e.directory e.store c) then pure ()
  else
    if (e.directory.find? e.store.registry c.name).isNone then enter c
    modify fun e =>
      { directory := e.directory.setEntry c fun entry => { entry with store := some e.store.ref }
        store := { e.store with storables := Fields.insert c.name c e.store.storables } }

/-- Registers all classes of a registry, after checking all of them. -/
def registerRoot (r : RegistryRef) : Enrolling Unit := do
  let e ← get
  if e.store.roots.contains r then pure ()
  else
    let classes := Fields.values (e.directory.members r)
    classes.forM fun c => ofExcept (checkRoot e.directory e.store c)
    classes.forM fun c => do
      enter c
      if (e.directory.definition c).storable then registerStorable c
    modify fun e =>
      { directory := e.directory.hold r
        store := { e.store with roots := e.store.roots ++ [r] } }

end Store

end TypedRecords
