import TypedRecords.Class.Directory

/-! # The graph of records

The state of all records: for each record the slots that it has written, whether it is new, and
whether its selector is being resolved. A slot holds a value and where the value came from; an empty
slot marks an attribute that was unset.

Operations run on the graph. What one has written before it fails stays written.
-/

namespace TypedRecords

/-- Where a value came from. -/
inductive Source where
  | here
  | remote
  | store
deriving DecidableEq, Repr, Inhabited

def Source.text : Source → String
  | .here => "local"
  | .remote => "remote"
  | .store => "store"

structure Slot where
  value : Value
  source : Source
deriving Inhabited

structure Cell where
  slots : Fields (Option Slot) := []
  isNew : Bool
  resolving : Bool := false
deriving Inhabited

structure Graph where
  cells : Array Cell := #[]
  /-- How many fresh identifiers were given. -/
  given : Nat := 0
deriving Inhabited

/-- An operation on the graph that can fail. -/
abbrev Action := ExceptT Error (StateM Graph)

namespace Graph

def cell? (g : Graph) (r : RecordRef) : Option Cell := g.cells[r.serial]?

def modify (g : Graph) (r : RecordRef) (f : Cell → Cell) : Graph :=
  { g with cells := g.cells.modify r.serial f }

def isNew (g : Graph) (r : RecordRef) : Bool := (g.cell? r).any Cell.isNew

def isResolving (g : Graph) (r : RecordRef) : Bool := (g.cell? r).any Cell.resolving

/-- What a record itself says about an attribute: nothing, unset, or a slot. -/
def own? (g : Graph) (r : RecordRef) (name : String) : Option (Option Slot) :=
  (g.cell? r).bind fun cell => Fields.get? name cell.slots

def write (g : Graph) (r : RecordRef) (name : String) (slot : Option Slot) : Graph :=
  g.modify r fun cell => { cell with slots := Fields.insert name slot cell.slots }

def mark (g : Graph) (r : RecordRef) (isNew : Bool) : Graph :=
  g.modify r fun cell => { cell with isNew }

def markResolving (g : Graph) (r : RecordRef) (resolving : Bool) : Graph :=
  g.modify r fun cell => { cell with resolving }

/-- A record of a class with no attribute set. -/
def instantiate (g : Graph) (c : ClassRef) (isNew : Bool) : RecordRef × Graph :=
  (.made g.cells.size c, { g with cells := g.cells.push { isNew } })

/-- A fork of a record, as an instance of a class. It is new if its base is. -/
def fork (g : Graph) (c : ClassRef) (base : RecordRef) : RecordRef × Graph :=
  (.fork g.cells.size c base, { g with cells := g.cells.push { isNew := g.isNew base } })

/-! ### Fresh identifiers -/

/-- The fresh identifier with a number: a version 4 identifier whose last digits count. -/
def identifierText (n : Nat) : String :=
  let digits := hexText n
  "00000000-0000-4000-8000-" ++ zeros (12 - digits.length) ++ digits

def freshIdentifier (g : Graph) : Value × Graph :=
  (.string (identifierText g.given), { g with given := g.given + 1 })

end Graph

/-! ### Forking values -/

namespace Value

mutual

/-- A value with a fork in place of every record in it, but for records inside records. -/
def forkRecords : Value → StateM Graph Value
  | .record r => modifyGet fun g =>
      let (fork, g) := g.fork r.cls r
      (.record fork, g)
  | .array items => do pure (.array (← forkItems items))
  | .object fields => do pure (.object (← forkFields fields))
  | v => pure v

def forkItems : List Value → StateM Graph (List Value)
  | [] => pure []
  | v :: rest => do
    let v ← forkRecords v
    pure (v :: (← forkItems rest))

def forkFields : List (String × Value) → StateM Graph (List (String × Value))
  | [] => pure []
  | (name, v) :: rest => do
    let v ← forkRecords v
    pure ((name, v) :: (← forkFields rest))

end

end Value

/-! ### Slots -/

namespace RecordRef

/-- The slot of an attribute. A fork reads what it has not written from its base; a value that holds
records is forked on the first reading and stays with the fork. -/
def slot? (name : String) : RecordRef → StateM Graph (Option Slot)
  | .made serial c => do pure (((← get).own? (.made serial c) name).join)
  | .fork serial c base => do
    let r : RecordRef := .fork serial c base
    match (← get).own? r name with
    | some own => pure own
    | none =>
      match ← slot? name base with
      | none => pure none
      | some slot =>
        if slot.value.hasReferences then
          let value ← slot.value.forkRecords
          let pinned : Slot := ⟨value, slot.source⟩
          modify fun g => g.write r name (some pinned)
          pure (some pinned)
        else pure (some slot)

def value? (r : RecordRef) (name : String) : StateM Graph (Option Value) := do
  pure ((← r.slot? name).map Slot.value)

/-- Names of the attributes that are set, in order of declaration. -/
def setNames (d : Directory) (r : RecordRef) : StateM Graph (List String) :=
  ((d.attributes r.cls).map Attribute.name).filterM fun name => do
    pure (← r.slot? name).isSome

end RecordRef

namespace Record

def lift {α : Type} (reading : StateM Graph α) : Action α := fun g =>
  let (a, g) := reading g
  (.ok a, g)

def ofExcept {α : Type} : Except Error α → Action α
  | .ok a => pure a
  | .error e => throw e

variable (d : Directory)

/-! ### Reading -/

/-- The value of a set attribute. -/
def read (r : RecordRef) (name : String) : Action Value := do
  let _ ← ofExcept (d.attributeNamed r.cls name)
  match ← lift (r.value? name) with
  | some v => pure v
  | none => throw (.unsetAttribute r.className name)

/-- The first identifier that is set and defined, by name. -/
def descriptorAmong (r : RecordRef) : List Attribute → Action Object
  | [] => throw (.missingIdentifier r.className)
  | a :: rest => do
    match ← lift (r.value? a.name) with
    | none => descriptorAmong r rest
    | some .undefined => descriptorAmong r rest
    | some v => pure [(a.name, v)]

/-- The primary identifier if it is set, else the first secondary one that is. -/
def descriptor (r : RecordRef) : Action Object :=
  descriptorAmong r (d.definition r.cls).identifiers

/-- Whether a record can be identified. -/
def hasIdentifiers (r : RecordRef) : Action Bool := fun g =>
  match descriptor d r g with
  | (.ok _, g) => (.ok true, g)
  | (.error _, g) => (.ok false, g)

/-! ### Writing -/

/-- Checks that an attribute of a class accepts a value. -/
def check (r : RecordRef) (name : String) (v : Value) : Action Unit := do
  let a ← ofExcept (d.attributeNamed r.cls name)
  ofExcept (a.type.check (d.site r.cls name) v)

def write (r : RecordRef) (name : String) (v : Value) (source : Source) : Action Unit :=
  modify fun g => g.write r name (some ⟨v, source⟩)

/-- Assigns a value as it is. -/
def setFrom (source : Source) (r : RecordRef) (name : String) (v : Value) : Action Unit := do
  check d r name v
  write r name v source

/-- Assigns a value after sanitizing it. -/
def set (r : RecordRef) (name : String) (v : Value) : Action Unit := do
  let a ← ofExcept (d.attributeNamed r.cls name)
  setFrom d .here r name (a.type.sanitize v)

def unset (r : RecordRef) (name : String) : Action Unit := do
  let _ ← ofExcept (d.attributeNamed r.cls name)
  modify fun g => g.write r name none

/-- Restates where the value of a set attribute came from. -/
def setSource (r : RecordRef) (name : String) (source : Source) : Action Unit := do
  let _ ← ofExcept (d.attributeNamed r.cls name)
  match ← lift (r.slot? name) with
  | some slot => write r name slot.value source
  | none => throw (.unsetAttribute r.className name)

def mark (r : RecordRef) (isNew : Bool) : Action Unit := modify fun g => g.mark r isNew

/-! ### Making records -/

def instantiate (c : ClassRef) (isNew : Bool) : Action RecordRef :=
  modifyGet fun g => g.instantiate c isNew

/-- The first value of an attribute of a new record. -/
def initialValue : Initial → Action Value
  | .value v => pure v
  | .supplied v => pure v
  | .freshIdentifier => modifyGet fun g => g.freshIdentifier

/-- Sets an attribute of a new record from the given values, from its default, or to undefined. -/
def fillIn (r : RecordRef) (values : Object) (a : Attribute) : Action Unit :=
  match Fields.get? a.name values, a.initial with
  | some v, _ => set d r a.name v
  | none, some initial => do set d r a.name (← initialValue initial)
  | none, none => write r a.name .undefined .here

/-- A new record with every attribute set. -/
def create (c : ClassRef) (values : Object) : Action RecordRef := do
  let r ← instantiate c true
  (Fields.keys values).forM fun name => do
    let _ ← ofExcept (d.attributeNamed c name)
    pure ()
  (d.attributes c).forM (fillIn d r values)
  pure r

/-- A record that exists already, of which only identifiers are known. -/
def withIdentifiers (c : ClassRef) (identifiers : Object) : Action RecordRef := do
  let r ← instantiate c false
  identifiers.forM fun (name, v) => do
    let a ← ofExcept (d.attributeNamed c name)
    if a.role.isIdentifier then set d r name v
    else throw (.usage (.notAnIdentifier name c.name))
  pure r

/-- A record that reads through to another one until it is written. -/
def fork (r : RecordRef) : Action RecordRef := modifyGet fun g => g.fork r.cls r

/-- A fork as an instance of a fork of the class. -/
def forkInto (r : RecordRef) (c : ClassRef) : Action RecordRef :=
  if c.isSameOrForkOf r.cls then modifyGet fun g => g.fork c r
  else throw (.usage (.unrelatedClass r.className))

end Record

end TypedRecords
