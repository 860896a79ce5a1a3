import TypedRecords.Store.Session

/-! # A catalog of films

A small model to try things with: films, which are storable, the persons who direct and act in them,
and the addresses of the persons, which are stored inside them.
-/

namespace TypedRecords

structure Catalog where
  registry : RegistryRef
  movie : ClassRef
  person : ClassRef
  address : ClassRef
deriving DecidableEq, Repr, Inhabited

namespace Catalog

/-! ### Classes -/

def notEmpty : TypeOptions := .mk [{ rule := .notEmpty }] [] none

/-- Text that has to be there and is trimmed. -/
def heading : TypeOptions := .mk [{ rule := .notEmpty }] [.trim] none

/-- The year of the first film, and every later one. -/
def filmYear : TypeOptions :=
  .mk [{ rule := .minValue, arguments := [.ofNat 1888] }] [] none

def addressDeclaration : ClassDeclaration :=
  { name := "Address"
    attributes :=
      [{ name := "city", specifier := "string", options := notEmpty },
       { name := "country", specifier := "string?" }]
    embedded := true }

def personDeclaration : ClassDeclaration :=
  { name := "Person"
    attributes :=
      [{ name := "id", specifier := "string", role := .primary },
       { name := "email", specifier := "string?", role := .secondary },
       { name := "name", specifier := "string", options := heading },
       { name := "address", specifier := "Address?" }]
    storable := true }

def movieDeclaration : ClassDeclaration :=
  { name := "Movie"
    attributes :=
      [{ name := "id", specifier := "string", role := .primary },
       { name := "slug", specifier := "string?", role := .secondary },
       { name := "title", specifier := "string", options := heading, index := some true },
       { name := "year", specifier := "number?", options := filmYear, index := some false },
       { name := "tags", specifier := "string[]", initial := some (.value (.array [])) },
       { name := "director", specifier := "Person?" },
       { name := "actors", specifier := "Person[]", initial := some (.value (.array [])) }]
    indexes := [{ paths := [("year", .desc), ("title", .asc)] }]
    storable := true }

/-- Enters the three classes and a registry of them. -/
def declare (d : Directory) : Except Error (Catalog × Directory) := do
  let (address, d) ← d.define addressDeclaration
  let (person, d) ← d.define personDeclaration
  let (movie, d) ← d.define movieDeclaration
  let (registry, d) ← d.registryOf [movie, person, address]
  pure ({ registry, movie, person, address }, d)

/-- Opens a store that keeps the records of the catalog. -/
def openStore (c : Catalog) (d : Directory) : Except Error (Store × Directory) := do
  let (store, d) := Store.open_ d {} none
  match (Store.registerRoot c.registry).run ⟨d, store⟩ with
  | (.ok _, enrolment) => pure (enrolment.store, enrolment.directory)
  | (.error e, _) => throw e

/-! ### Records -/

variable (c : Catalog) (d : Directory)

def newPerson (id name : String) : Action RecordRef :=
  Record.create d c.person [("id", .string id), ("name", .string name)]

def newMovie (id title : String) (year : Nat) : Action RecordRef :=
  Record.create d c.movie [("id", .string id), ("title", .string title), ("year", .ofNat year)]

def saveAll (r : RecordRef) : StoreAction Unit := do
  let _ ← Store.save d r .all {}

/-- Makes and saves a film. -/
def addMovie (id title : String) (year : Nat) (director : RecordRef) (tags : List String) :
    StoreAction Unit := do
  let movie ← Store.onRecords (c.newMovie d id title year)
  Store.onRecords (Record.set d movie "director" (.record director))
  Store.onRecords (Record.set d movie "tags" (.array (tags.map .string)))
  saveAll d movie

/-- Saves two directors and three of their films. -/
def seed : StoreAction Unit := do
  let nolan ← Store.onRecords (c.newPerson d "p1" "Christopher Nolan")
  let jeunet ← Store.onRecords (c.newPerson d "p2" "Jean-Pierre Jeunet")
  saveAll d nolan
  saveAll d jeunet
  c.addMovie d "m1" "Inception" 2010 nolan ["sci-fi", "heist"]
  c.addMovie d "m2" "Interstellar" 2014 nolan ["sci-fi"]
  c.addMovie d "m3" "Amélie" 2001 jeunet ["romance", "comedy"]

end Catalog

end TypedRecords
