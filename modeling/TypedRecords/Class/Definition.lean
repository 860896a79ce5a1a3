import TypedRecords.Types.Check
import TypedRecords.Selector

/-! # Class definitions

A class is declared by its attributes and indexes, and defined once its declaration has passed the
rules: a proper name, attributes declared once and with well-formed types, identifiers that are
strings or numbers, at most one of them primary, and indexes over declared attributes.
-/

namespace TypedRecords

inductive Direction where
  | asc
  | desc
deriving DecidableEq, Repr, Inhabited

def Direction.text : Direction → String
  | .asc => "asc"
  | .desc => "desc"

/-- What an attribute is for. -/
inductive Role where
  | plain
  /-- Identifies a record in its collection. -/
  | primary
  /-- Another unique key. -/
  | secondary
deriving DecidableEq, Repr, Inhabited

def Role.name : Role → String
  | .plain => "attribute"
  | .primary => "primary"
  | .secondary => "secondary"

def Role.isIdentifier (role : Role) : Bool := role != .plain

/-- Where the value of an attribute of a new record comes from. -/
inductive Initial where
  | value (v : Value)
  /-- Supplied anew for each record. -/
  | supplied (v : Value)
  /-- A fresh identifier for each record. -/
  | freshIdentifier
deriving Inhabited

def Initial.text : Initial → String
  | .value v => "DefaultValue(" ++ v.text ++ ")"
  | _ => "DefaultValue(<generator>)"

structure IndexDeclaration where
  paths : Fields Direction
  unique : Bool := false
deriving Inhabited

structure AttributeDeclaration where
  name : String
  specifier : String
  role : Role := .plain
  options : TypeOptions := .empty
  initial : Option Initial := none
  /-- An index on the attribute alone, and whether it is unique. -/
  index : Option Bool := none
deriving Inhabited

structure ClassDeclaration where
  name : String
  attributes : List AttributeDeclaration := []
  indexes : List IndexDeclaration := []
  embedded : Bool := false
  storable : Bool := false
deriving Inhabited

structure Attribute where
  name : String
  role : Role
  type : ValueType
  initial : Option Initial
deriving Inhabited

structure Definition where
  attributes : Fields Attribute
  indexes : List IndexDeclaration
  embedded : Bool
  storable : Bool
deriving Inhabited

/-! ### Reading definitions -/

namespace Definition

def empty : Definition := ⟨[], [], false, false⟩

def attributeList (d : Definition) : List Attribute := Fields.values d.attributes

def attribute? (d : Definition) (name : String) : Option Attribute := Fields.get? name d.attributes

def primary? (d : Definition) : Option Attribute :=
  d.attributeList.find? fun a => a.role == .primary

def secondaries (d : Definition) : List Attribute :=
  d.attributeList.filter fun a => a.role == .secondary

/-- The primary identifier, then the secondary ones. -/
def identifiers (d : Definition) : List Attribute := d.primary?.toList ++ d.secondaries

def identifierSelector (d : Definition) : Selector :=
  Selector.ofNames (d.identifiers.map Attribute.name)

/-- Whether records are referred to by identifier rather than nested whole. -/
def referenceable (d : Definition) : Bool := !d.embedded && d.primary?.isSome

end Definition

/-! ### Declaring -/

namespace ClassDeclaration

/-- The default of an attribute: string primary identifiers are fresh unless declared otherwise. -/
def initialOf (a : AttributeDeclaration) (t : ValueType) : Option Initial :=
  match a.role, t with
  | .primary, .scalar .string _ => a.initial.orElse fun _ => some .freshIdentifier
  | _, _ => a.initial

/-- Whether a type can identify records. -/
def canIdentify : ValueType → Bool
  | .scalar .string _ => true
  | .scalar .number _ => true
  | _ => false

/-- Adds a declared attribute to those defined so far. -/
def define (component : String) (defined : Fields Attribute) (a : AttributeDeclaration) :
    Except Error (Fields Attribute) := do
  if Fields.contains a.name defined then
    throw (.invalidClass (.repeatedAttribute a.name component))
  let place := Site.placeOf component a.name
  let t ← Specifier.parse place a.specifier a.options
  if a.role.isIdentifier then
    if !canIdentify t then
      throw (.invalidClass (.identifierType place t.text))
    if a.role == .primary && (Fields.values defined).any fun b => b.role == .primary then
      throw (.invalidClass (.secondPrimary component))
  pure (Fields.insert a.name ⟨a.name, a.role, t, initialOf a t⟩ defined)

/-- The index on an attribute alone. -/
def ownIndex? (a : AttributeDeclaration) : Option IndexDeclaration :=
  a.index.map fun unique => ⟨[(a.name, .asc)], unique⟩

/-- The first segment of a dotted path. -/
def head (path : String) : String := String.ofList (path.toList.takeWhile (· != '.'))

/-- Checks that an index is over declared attributes. -/
def checkIndex (component : String) (attributes : Fields Attribute) (i : IndexDeclaration) :
    Except Error Unit := do
  if i.paths.isEmpty then throw (.invalidClass (.emptyIndex component))
  (Fields.keys i.paths).forM fun path =>
    if Fields.contains (head path) attributes then pure ()
    else throw (.unknownAttribute component (head path))

/-- The definition that a declaration gives. -/
def build (c : ClassDeclaration) : Except Error Definition := do
  if !Specifier.isClassName c.name.toList then throw (.invalidClass (.badName c.name))
  if c.embedded && c.storable then throw (.invalidClass (.embeddedAndStorable c.name))
  let attributes ← c.attributes.foldlM (define c.name) []
  if c.storable && !(Fields.values attributes).any fun a => a.role == .primary then
    throw (.invalidClass (.missingPrimary c.name))
  let indexes := c.attributes.filterMap ownIndex? ++ c.indexes
  indexes.forM (checkIndex c.name attributes)
  pure ⟨attributes, indexes, c.embedded, c.storable⟩

end ClassDeclaration

end TypedRecords
