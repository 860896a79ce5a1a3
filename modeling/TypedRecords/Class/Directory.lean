import TypedRecords.Class.Definition

/-! # The directory of classes

All classes and registries made so far. A registry finds classes by name; a class remembers the first
registry that it was entered in, as long as that registry is held by somebody, and finds other
classes through it. A class belongs to at most one store.
-/

namespace TypedRecords

structure RegistryRef where
  serial : Nat
deriving DecidableEq, Repr, Inhabited

structure StoreRef where
  serial : Nat
deriving DecidableEq, Repr, Inhabited

/-- What can change about a class, and its definition. -/
structure ClassEntry where
  definition : Definition
  registry : Option RegistryRef := none
  store : Option StoreRef := none
deriving Inhabited

/-- Classes by name, and how many hold the registry. Nobody finds anything through a registry that
is not held. -/
structure Registry where
  members : Fields ClassRef := []
  holders : Nat := 1
deriving Inhabited

structure Directory where
  classes : Array ClassEntry := #[]
  registries : Array Registry := #[]
  stores : Nat := 0
deriving Inhabited

namespace Directory

/-! ### Classes -/

def entry (d : Directory) (c : ClassRef) : ClassEntry := d.classes[c.serial]?.getD ⟨.empty, none, none⟩

def definition (d : Directory) (c : ClassRef) : Definition := (d.entry c).definition

def attributes (d : Directory) (c : ClassRef) : List Attribute := (d.definition c).attributeList

/-- An attribute of a class, or the error that there is none. -/
def attributeNamed (d : Directory) (c : ClassRef) (name : String) : Except Error Attribute :=
  match (d.definition c).attribute? name with
  | some a => pure a
  | none => throw (.unknownAttribute c.name name)

def setEntry (d : Directory) (c : ClassRef) (f : ClassEntry → ClassEntry) : Directory :=
  { d with classes := d.classes.modify c.serial f }

/-- Enters a new class. -/
def declare (d : Directory) (name : String) (definition : Definition) : ClassRef × Directory :=
  (.declared d.classes.size name, { d with classes := d.classes.push { definition } })

/-- Enters the class that a declaration defines. -/
def define (d : Directory) (c : ClassDeclaration) : Except Error (ClassRef × Directory) := do
  pure (d.declare c.name (← c.build))

/-- Enters a fork of a class, which shares its definition, its registry and its store. -/
def forkClass (d : Directory) (c : ClassRef) : ClassRef × Directory :=
  (.fork d.classes.size c, { d with classes := d.classes.push (d.entry c) })

/-! ### Registries -/

def registry? (d : Directory) (r : RegistryRef) : Option Registry := d.registries[r.serial]?

def isLive (d : Directory) (r : RegistryRef) : Bool :=
  (d.registry? r).any fun registry => 0 < registry.holders

/-- Opens an empty registry, held once. -/
def openRegistry (d : Directory) : RegistryRef × Directory :=
  (⟨d.registries.size⟩, { d with registries := d.registries.push {} })

def setRegistry (d : Directory) (r : RegistryRef) (f : Registry → Registry) : Directory :=
  { d with registries := d.registries.modify r.serial f }

/-- Holds a registry once more. -/
def hold (d : Directory) (r : RegistryRef) : Directory :=
  d.setRegistry r fun registry => { registry with holders := registry.holders + 1 }

/-- Lets go of a registry. -/
def release (d : Directory) (r : RegistryRef) : Directory :=
  d.setRegistry r fun registry => { registry with holders := registry.holders - 1 }

def members (d : Directory) (r : RegistryRef) : Fields ClassRef :=
  match d.registry? r with
  | some registry => registry.members
  | none => []

/-- The class under a name in a registry. -/
def find? (d : Directory) (r : RegistryRef) (name : String) : Option ClassRef :=
  Fields.get? name (d.members r)

def find (d : Directory) (r : RegistryRef) (name : String) : Except Error ClassRef :=
  match d.find? r name with
  | some c => pure c
  | none => throw (.unknownComponent name "registry")

/-- The registry through which a class finds others. -/
def registryOf? (d : Directory) (c : ClassRef) : Option RegistryRef :=
  (d.entry c).registry.filter d.isLive

/-- Enters a class in a registry. A class that has no live registry joins it; entering the same class
again changes nothing. -/
def register (d : Directory) (r : RegistryRef) (c : ClassRef) : Except Error Directory :=
  match d.find? r c.name with
  | some other =>
    if other = c then pure d else throw (.registration (.nameTaken c.name))
  | none =>
    let entered := d.setRegistry r fun registry =>
      { registry with members := Fields.insert c.name c registry.members }
    match d.registryOf? c with
    | some _ => pure entered
    | none => pure (entered.setEntry c fun e => { e with registry := some r })

/-- Opens a registry with the given classes. -/
def registryOf (d : Directory) (classes : List ClassRef) :
    Except Error (RegistryRef × Directory) := do
  let (r, d) := d.openRegistry
  let d ← classes.foldlM (fun d c => d.register r c) d
  pure (r, d)

/-- The class that a name stands for within a class: its own name is itself, other names are looked
up in its registry. -/
def component? (d : Directory) (c : ClassRef) (name : String) : Option ClassRef :=
  if name = c.name then some c else (d.registryOf? c).bind fun r => d.find? r name

def component (d : Directory) (c : ClassRef) (name : String) : Except Error ClassRef :=
  match d.component? c name with
  | some other => pure other
  | none => throw (.unknownComponent name c.name)

/-- Where an attribute of a class stands. -/
def site (d : Directory) (c : ClassRef) (name : String) : Site :=
  { place := Site.placeOf c.name name, expected := d.component? c }

theorem component?_self (d : Directory) (c : ClassRef) : d.component? c c.name = some c := by
  simp [component?]

end Directory

end TypedRecords
