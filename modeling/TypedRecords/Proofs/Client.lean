import TypedRecords.Proofs.Store.Kept

/-! # Programs that work with a store

A program makes records, writes, reads, forks, encodes and decodes them, and asks a store to load, save,
delete, find and count them, in any order and with any arguments made of the records that it was given.
Calls may fail; in between, classes are declared, forked and registered. Whatever was written into
the store, it is shaped like its class, and no two documents of a collection have one primary identifier.
-/

namespace TypedRecords

open Stateful (KeepsIn)

/-! ### Commands -/

/-- What a program can ask of records and of a store. -/
inductive Command
  | create (c : ClassRef) (values : Object)
  | withIdentifiers (c : ClassRef) (identifiers : Object)
  | fork (r : RecordRef)
  | forkInto (r : RecordRef) (c : ClassRef)
  | read (r : RecordRef) (name : String)
  | set (r : RecordRef) (name : String) (v : Value)
  | setFrom (source : Source) (r : RecordRef) (name : String) (v : Value)
  | unset (r : RecordRef) (name : String)
  | setSource (r : RecordRef) (name : String) (source : Source)
  | setSources (source : Source) (r : RecordRef) (s : Selector)
  | mark (r : RecordRef) (isNew : Bool)
  | decode (registry : RegistryRef) (source : Source) (t : Value)
  | decodeInto (registry : RegistryRef) (source : Source) (r : RecordRef) (t : Value)
  | resolve (how : Narrowing) (r : RecordRef) (s : Selector)
  | validate (r : RecordRef) (s : Selector)
  | encode (target : Target) (s : Selector) (v : Value)
  | load (r : RecordRef) (s : Selector) (throwIfMissing : Bool)
  | save (r : RecordRef) (s : Selector) (expected : Store.Expectation)
  | delete (r : RecordRef) (throwIfMissing : Bool)
  | find (c : ClassRef) (query : Value) (options : Store.FindOptions)
  | count (c : ClassRef) (query : Value)
  | migrate

namespace Command

open Store (onRecords)

/-- Runs a command. What it gives back are the records that it makes, reads or finds. -/
def run (d : Directory) : Command → StoreAction (List RecordRef)
  | create c values => onRecords do pure [← Record.create d c values]
  | withIdentifiers c identifiers => onRecords do pure [← Record.withIdentifiers d c identifiers]
  | fork r => onRecords do pure [← Record.fork r]
  | forkInto r c => onRecords do pure [← Record.forkInto r c]
  | read r name => onRecords do pure (← Record.read d r name).records
  | set r name v => onRecords (quietly (Record.set d r name v))
  | setFrom source r name v => onRecords (quietly (Record.setFrom d source r name v))
  | unset r name => onRecords (quietly (Record.unset d r name))
  | setSource r name source => onRecords (quietly (Record.setSource d r name source))
  | setSources source r s => onRecords (quietly (Record.setSources d source r s))
  | mark r isNew => onRecords (quietly (Record.mark r isNew))
  | decode registry source t => onRecords do pure (← Record.decode d registry source t).records
  | decodeInto registry source r t => onRecords (quietly (Record.decodeInto d registry source r t))
  | resolve how r s => onRecords (quietly (Record.resolve d how r s))
  | validate r s => onRecords (quietly (Record.validate d r s))
  | encode target s v => onRecords (quietly (Record.encode d target s v))
  | load r s throwIfMissing => quietly (Store.load d r s throwIfMissing)
  | save r s expected => quietly (Store.save d r s expected)
  | delete r throwIfMissing => quietly (Store.delete d r throwIfMissing)
  | find c query options => Store.find d c query options
  | count c query => quietly (Store.count d c query)
  | migrate => quietly (Store.migrate d)
where
  /-- An action that gives back no other record than it was given. -/
  quietly {σ α : Type} (action : Stateful σ α) : Stateful σ (List RecordRef) := do
    let _ ← action
    pure []

/-- The records that a command names are held, and its class is there. -/
def Given (d : Directory) (held : Set RecordRef) : Command → Prop
  | create c values => d.Inherits c ∧ (Value.object values).Within held ∧
    ∀ a ∈ d.attributes c, AllowsWriting.InitialWithin held a
  | withIdentifiers c _ => d.Inherits c
  | forkInto r c => r ∈ held ∧ d.Inherits c
  | set r _ v => r ∈ held ∧ v.Within held
  | setFrom _ r _ v => r ∈ held ∧ v.Within held
  | decode _ _ t => t.Within held
  | decodeInto _ _ r t => r ∈ held ∧ t.Within held
  | encode _ _ v => v.Within held
  | find c query _ => d.Inherits c ∧ query.Within held
  | count _ query => query.Within held
  | migrate => True
  | fork r => r ∈ held
  | read r _ => r ∈ held
  | unset r _ => r ∈ held
  | setSource r _ _ => r ∈ held
  | setSources _ r _ => r ∈ held
  | mark r _ => r ∈ held
  | resolve _ r _ => r ∈ held
  | validate r _ => r ∈ held
  | load r _ _ => r ∈ held
  | save r _ _ => r ∈ held
  | delete r _ => r ∈ held

/-- Records whose identifiers are keys, and a store that keeps what was written. -/
abbrev Working (d : Directory) : Set RecordRef → Session → Prop :=
  Store.Holding (fun known g => g.Typed d known) fun _ s => s.Kept d

section

variable {d : Directory} {held : Set RecordRef}

theorem keeps_quietly {σ α : Type} {I : Set RecordRef → σ → Prop} {action : Stateful σ α}
    {Q : Set RecordRef → α → Prop} (h : KeepsIn I held action Q) :
    KeepsIn I held (run.quietly action) fun after rs => ∀ r ∈ rs, r ∈ after :=
  h.bind fun _ _ _ _ => .pure fun _ _ => by simp

/-- Every command keeps what writing and calls keep, and gives back known records, if that is so of making
forks, of saving and of migrating. -/
theorem keeps_run_of {A : RecordRef → String → Value → Prop} {I : Set RecordRef → Graph → Prop}
    {J : Set RecordRef → Store → Prop} {allowed : Call → Prop} (hd : d.Lawful)
    (hI : AllowsWriting d A d.Inherits I) (hJ : Store.AllowsLoading d d.Inherits allowed J)
    (hallowed : ∀ call : Call, call.adds = false → call.arranges = false → allowed call)
    {command : Command}
    (hfork : ∀ r ∈ held, KeepsIn I held (Record.fork r) fun after r' => r' ∈ after)
    (hforkInto : ∀ r ∈ held, ∀ c, d.Inherits c → command = .forkInto r c →
      KeepsIn I held (Record.forkInto r c) fun after r' => r' ∈ after)
    (hsave : ∀ r ∈ held, ∀ s expected,
      KeepsIn (Store.Holding I J) held (Store.save d r s expected) fun _ _ => True)
    (hmigrate : KeepsIn (Store.Holding I J) held (Store.migrate d) fun _ _ => True)
    (hgiven : command.Given d held) :
    KeepsIn (Store.Holding I J) held (command.run d) fun after rs => ∀ r ∈ rs, r ∈ after := by
  have hrecords : ∀ {α : Type} {action : Action α} {Q : Set RecordRef → α → Prop},
      KeepsIn I held action Q → KeepsIn (Store.Holding I J) held (Store.onRecords action) Q :=
    Store.keepsIn_onRecords hJ.toAllowsCalls
  cases command with
  | create c values =>
    obtain ⟨hc, hvalues, hinitial⟩ := hgiven
    refine hrecords ((hI.keeps_create hd hc hvalues hinitial).bind fun r _ _ hr => .pure ?_)
    simpa using fun after hafter => hafter hr
  | withIdentifiers c identifiers =>
    refine hrecords ((hI.keeps_withIdentifiers hd hgiven identifiers).bind fun r _ _ hr => .pure ?_)
    simpa using fun after hafter => hafter hr
  | fork r =>
    refine hrecords ((hfork r hgiven).bind fun r' _ _ hr' => .pure ?_)
    simpa using fun after hafter => hafter hr'
  | forkInto r c =>
    refine hrecords ((hforkInto r hgiven.1 c hgiven.2 rfl).bind fun r' _ _ hr' => .pure ?_)
    simpa using fun after hafter => hafter hr'
  | read r name =>
    exact hrecords ((hI.toAllowsReading.keeps_read hgiven name).bind
      fun v _ _ hv => .pure fun after hafter r hr => hafter (hv r hr))
  | set r name v => exact hrecords (keeps_quietly (hI.keeps_set hgiven.1 name hgiven.2))
  | setFrom source r name v =>
    exact hrecords (keeps_quietly (hI.keeps_setFrom hgiven.1 source name hgiven.2))
  | unset r name => exact hrecords (keeps_quietly (hI.keeps_unset hgiven name))
  | setSource r name source => exact hrecords (keeps_quietly (hI.keeps_setSource hgiven name source))
  | setSources source r s => exact hrecords (keeps_quietly (hI.keeps_setSources source hgiven s))
  | mark r isNew => exact hrecords (keeps_quietly (hI.keeps_mark hgiven isNew))
  | decode registry source t =>
    exact hrecords ((hI.keeps_decode (hJ.found registry) source hgiven).bind
      fun v _ _ hv => .pure fun after hafter r hr => hafter (hv r hr))
  | decodeInto registry source r t =>
    exact hrecords (keeps_quietly
      (hI.keeps_decodeInto (hJ.found registry) source hgiven.1 hgiven.2))
  | resolve how r s => exact hrecords (keeps_quietly (hI.toAllowsReading.resolve how hgiven s))
  | validate r s => exact hrecords (keeps_quietly (hI.toAllowsReading.validate hgiven s))
  | encode target s v => exact hrecords (keeps_quietly (hI.toAllowsReading.encode target s hgiven))
  | load r s throwIfMissing => exact keeps_quietly (Store.keepsIn_load hI hJ hgiven s throwIfMissing)
  | save r s expected => exact keeps_quietly (hsave r hgiven s expected)
  | delete r throwIfMissing =>
    exact keeps_quietly (Store.keepsIn_delete hI hJ.toAllowsCalls (fun _ => hallowed _ rfl rfl) hgiven
      throwIfMissing)
  | find c query options =>
    exact Store.keepsIn_find hI hJ hd (fun _ => hallowed _ rfl rfl) hgiven.1 hgiven.2 options
  | count c query =>
    exact keeps_quietly (Store.keepsIn_count hI hJ.toAllowsCalls (fun _ => hallowed _ rfl rfl) c hgiven)
  | migrate => exact keeps_quietly hmigrate

/-- Every command keeps the records typed and the store in order, and gives back known records. -/
theorem keeps_run (hd : d.Lawful) (hcoherent : d.Coherent) (hnamed : d.NamesProperly)
    {command : Command} (hgiven : command.Given d held) :
    KeepsIn (Working d) held (command.run d) fun after rs => ∀ r ∈ rs, r ∈ after :=
  keeps_run_of hd (Graph.typed_allowsWriting hd) (Store.kept_allowsLoading hcoherent)
    (fun _ hadds _ => hadds) (fun _ hr => Graph.Typed.keeps_fork hr)
    (fun _ hr _ hc _ => Graph.Typed.keeps_forkInto hr hc)
    (fun _ hr s expected => Store.keepsIn_save_kept hd hnamed hr s expected)
    (Store.keepsIn_migrate (Store.kept_allowsLoading hcoherent).toAllowsCalls fun _ _ => rfl) hgiven

end

end Command

/-! ### Runs -/

/-- A store whose classes may have grown in number, and which has the documents that it had. -/
structure Store.Grows (d : Directory) (s s' : Store) : Prop where
  documents : ∀ name, s'.database.documents name = s.database.documents name
  collections : ∀ c, s'.collectionName c = s.collectionName c
  kept : ∀ name c, Fields.get? name s.storables = some c → Fields.get? name s'.storables = some c
  storables : ∀ name c, Fields.get? name s'.storables = some c → c.name = name ∧ d.Inherits c

theorem Store.Kept.grow {d d' : Directory} {s s' : Store} (h : s.Kept d) (hd : d.Extends d')
    (hs : s.Grows d' s') : s'.Kept d' where
  storables := hs.storables
  shaped collection document hdocument := by
    rw [hs.documents] at hdocument
    obtain ⟨c, hc, hname, hshaped⟩ := h.shaped collection document hdocument
    refine ⟨c, hs.kept _ c hc, (hs.collections c).trans hname, hshaped.congr ?_ rfl⟩
    exact hd.definition c (h.storables _ c hc).2.bound
  unique c hc a ha hname := by
    rw [hs.documents, hs.collections]
    cases hbefore : Fields.get? c.name s.storables with
    | some c' =>
      obtain rfl := Option.some.inj (hc.symm.trans (hs.kept _ c' hbefore))
      rw [hd.definition c (h.storables _ c hbefore).2.bound] at ha
      exact h.unique c hbefore a ha hname
    | none =>
      rw [h.documents_eq_nil hbefore]
      exact .nil

/-- A program at work: the classes that there are, the records that it holds, and what its commands
change. -/
structure Client where
  directory : Directory
  held : Set RecordRef
  session : Session

namespace Client

/-- A program after a command, which may have failed. -/
def after (k : Client) (command : Command) : Client where
  directory := k.directory
  held := k.held ∪ {r | ∃ rs, (command.run k.directory k.session).1 = .ok rs ∧ r ∈ rs}
  session := (command.run k.directory k.session).2

/-- A program runs a command, or classes are declared, forked and registered. -/
inductive Step : Client → Client → Prop
  | run {k : Client} (command : Command) (given : command.Given k.directory k.held) :
    Step k (k.after command)
  | grow {k : Client} {d : Directory} {s : Store} (classes : k.directory.Extends d)
    (lawful : d.Lawful) (coherent : d.Coherent) (grows : k.session.store.Grows d s) :
    Step k {
      directory := d
      held := k.held
      session := { k.session with store := s } }

/-- A program that has started with a store without documents, and with no record. -/
inductive Reached : Client → Prop
  | start {d : Directory} {S : Session} (lawful : d.Lawful) (coherent : d.Coherent)
    (storables : ∀ name c, Fields.get? name S.store.storables = some c → c.name = name ∧ d.Inherits c)
    (empty : ∀ name, S.store.database.documents name = []) : Reached ⟨d, ∅, S⟩
  | step {k k' : Client} (before : Reached k) (step : Step k k') : Reached k'

variable {k k' : Client}

/-- A program at work whose records are typed and whose store keeps what was written. -/
structure Sound (k : Client) : Prop where
  lawful : k.directory.Lawful
  coherent : k.directory.Coherent
  working : k.directory.NamesProperly →
    ∃ known, k.held ⊆ known ∧ Command.Working k.directory known k.session

theorem Sound.step (h : k.Sound) (hstep : Step k k') : k'.Sound := by
  cases hstep with
  | run command given =>
    refine ⟨h.lawful, h.coherent, fun hnamed => ?_⟩
    obtain ⟨known, hheld, hworking⟩ := h.working hnamed
    obtain ⟨after, hafter, hworks, hresult⟩ :=
      Command.keeps_run h.lawful h.coherent hnamed given known hheld k.session hworking
    refine ⟨after, Set.union_subset (hheld.trans hafter) ?_, hworks⟩
    rintro r ⟨rs, hrs, hr⟩
    exact hresult rs hrs r hr
  | @grow d s classes lawful coherent grows =>
    refine ⟨lawful, coherent, fun hnamed => ?_⟩
    obtain ⟨known, hheld, htyped, hkept⟩ := h.working (classes.forall_attributes hnamed)
    exact ⟨known, hheld, htyped.extend classes, hkept.grow classes grows⟩

theorem Reached.sound (h : k.Reached) : k.Sound := by
  induction h with
  | @start d S lawful coherent storables empty =>
    exact ⟨lawful, coherent, fun _ =>
      ⟨∅, subset_rfl, Graph.Typed.empty d S.graph, .empty storables empty⟩⟩
  | step _ hstep ih => exact ih.step hstep

theorem Reached.kept (h : k.Reached) (hnamed : k.directory.NamesProperly) :
    k.session.store.Kept k.directory := by
  obtain ⟨known, -, -, hkept⟩ := h.sound.working hnamed
  exact hkept

/-! ### An example: two guests, one of whom is saved again -/

def guestClass : ClassRef := .declared 0 "Guest"

/-- Guests, whose primary identifier has the given name. -/
def guestClasses (primary : String) : Directory where
  classes := #[
    { definition := {
        attributes := [(primary, ⟨primary, .primary, .scalar .string {}, none⟩),
          ("email", ⟨"email", .secondary, .scalar .string { optional := true }, none⟩)]
        indexes := [], embedded := false, storable := true } }]

def guest (serial : Nat) : RecordRef := .made serial guestClass

def noGuests (primary : String) : Client where
  directory := guestClasses primary
  held := ∅
  session := {
    graph := {}
    store := { ref := ⟨0⟩, registry := ⟨0⟩, storables := [("Guest", guestClass)] } }

/-- Gets a guest and saves it. -/
def welcome (command : Command) (serial : Nat) (k : Client) : Client :=
  (k.after command).after (.save (guest serial) .all {})

def newGuest (primary identifier email : String) : Command :=
  .create guestClass [(primary, .string identifier), ("email", .string email)]

def knownGuest (email : String) : Command :=
  .withIdentifiers guestClass [("email", .string email)]

def guests (primary : String) : Client :=
  ((noGuests primary).welcome (newGuest primary "Guest" "a") 0 |>.welcome
    (newGuest primary "Other" "b") 1).welcome (knownGuest "b") 2

/-- What is stored of the second guest. -/
def otherGuest : Document :=
  [(Tree.classTag, .string "Guest"), ("id", .string "Other"), ("email", .string "b")]

theorem guestClasses_attributes {primary : String} {P : Attribute → Prop}
    (h : ∀ a ∈ (guestClasses primary).attributes guestClass, P a) (c : ClassRef) :
    ∀ a ∈ (guestClasses primary).attributes c, P a := by
  refine Directory.forall_attributes (fun entry hentry => ?_) c
  simp only [guestClasses, List.mem_toArray, List.mem_singleton] at hentry
  subst hentry
  exact h

theorem guestClasses_lawful {primary : String} (h : primary ≠ "email") :
    (guestClasses primary).Lawful := by
  refine Directory.lawful_of_entries ?_ (by simp [guestClasses])
  intro entry hentry
  simp only [guestClasses, List.mem_toArray, List.mem_singleton] at hentry
  subst hentry
  refine ⟨by simp [Fields.Distinct, Fields.keys, h], by simp, ?_, fun _ => rfl⟩
  simp [Definition.attributeList, Fields.values, ClassDeclaration.canIdentify]

theorem guestClasses_coherent (primary : String) : (guestClasses primary).Coherent := by
  intro registry name c hfound
  cases hfound

theorem guestClasses_inherits (primary : String) : (guestClasses primary).Inherits guestClass :=
  Directory.inherits_declared "Guest" Nat.zero_lt_one

theorem newGuest_given (primary identifier email : String) (held : Set RecordRef) :
    (newGuest primary identifier email).Given (guestClasses primary) held := by
  refine ⟨guestClasses_inherits primary, by simp [Value.Within, Value.records, Value.recordsOfFields],
    guestClasses_attributes (fun a ha v hv => ?_) guestClass⟩
  have htwo : (guestClasses primary).attributes guestClass = [_, _] := rfl
  rw [htwo] at ha
  rcases List.mem_pair.1 ha with rfl | rfl <;> rcases hv with hv | hv <;> cases hv

/-- Whoever a command gives can be saved. -/
theorem Reached.welcome {command : Command} {serial : Nat} (h : k.Reached)
    (hgiven : command.Given k.directory k.held)
    (hmade : (command.run k.directory k.session).1 = .ok [guest serial]) :
    (k.welcome command serial).Reached :=
  (h.step (.run command hgiven)).step
    (.run (.save (guest serial) .all {}) (Or.inr ⟨_, hmade, List.mem_singleton.2 rfl⟩))

theorem noGuests_reached {primary : String} (h : primary ≠ "email") : (noGuests primary).Reached := by
  refine .start (guestClasses_lawful h) (guestClasses_coherent primary) ?_ fun _ => rfl
  intro name c hc
  obtain ⟨rfl, rfl⟩ := Prod.mk.inj (List.mem_singleton.1 (Fields.mem_of_get? hc))
  exact ⟨rfl, guestClasses_inherits primary⟩

theorem guests_reached {primary : String} (h : primary = "id" ∨ primary = Tree.classTag) :
    (guests primary).Reached := by
  have hstart : (noGuests primary).Reached :=
    noGuests_reached (by rcases h with rfl | rfl <;> decide)
  have hone : ((noGuests primary).welcome (newGuest primary "Guest" "a") 0).Reached :=
    hstart.welcome (newGuest_given primary "Guest" "a" ∅) (by rcases h with rfl | rfl <;> rfl)
  have htwo : (((noGuests primary).welcome (newGuest primary "Guest" "a") 0).welcome
      (newGuest primary "Other" "b") 1).Reached :=
    hone.welcome (newGuest_given primary "Other" "b" _) (by rcases h with rfl | rfl <;> rfl)
  exact htwo.welcome (guestClasses_inherits primary) (by rcases h with rfl | rfl <;> rfl)

/-! ### What was written -/

variable {c : ClassRef}

/-- Every document of a class carries its name, has fields for its attributes only, and holds at no
depth anything undefined, a record or a class. -/
theorem document_shaped (h : k.Reached) (hnamed : k.directory.NamesProperly)
    (htag : ∀ c, ∀ a ∈ k.directory.attributes c, a.name ≠ Tree.classTag)
    (hc : Fields.get? c.name k.session.store.storables = some c) {document : Document}
    (hdocument : document ∈
      k.session.store.database.documents (k.session.store.collectionName c)) :
    Fields.get? Tree.classTag document = some (.string c.name) ∧
      (∀ name ∈ Fields.keys document,
        name = Tree.classTag ∨ ∃ a ∈ k.directory.attributes c, a.name = name) ∧
      (Value.object document).Concrete := by
  have hshaped := (h.kept hnamed).shaped_of hc document hdocument
  exact ⟨hshaped.tag (htag c), hshaped.names, hshaped.concrete⟩

theorem document_shaped_guests :
    Fields.get? Tree.classTag otherGuest = some (.string "Guest") ∧
      (∀ name ∈ Fields.keys otherGuest, name = Tree.classTag ∨
        ∃ a ∈ (guestClasses "id").attributes guestClass, a.name = name) ∧
      (Value.object otherGuest).Concrete :=
  document_shaped (k := guests "id") (guests_reached (.inl rfl)) (guestClasses_attributes (by decide))
    (guestClasses_attributes (by decide)) (c := guestClass) rfl
    (List.mem_of_getElem? (i := 1) rfl)

/-- No two documents of a class hold equal primary identifiers, unless the attribute is named like the
tag of the class. -/
theorem primary_unique (h : k.Reached) (hnamed : k.directory.NamesProperly)
    (hc : Fields.get? c.name k.session.store.storables = some c) {a : Attribute}
    (ha : (k.directory.definition c).primary? = some a) (hne : a.name ≠ Tree.classTag) {i j : Nat}
    {x y : Document} {u v : Value} (hij : i ≠ j)
    (hx : (k.session.store.database.documents (k.session.store.collectionName c))[i]? = some x)
    (hy : (k.session.store.database.documents (k.session.store.collectionName c))[j]? = some y)
    (hu : Fields.get? a.name x = some u) (hv : Fields.get? a.name y = some v) :
    u.beq v = false := by
  have hunique := (h.kept hnamed).unique c hc a ha hne
  rw [List.pairwise_iff_getElem] at hunique
  obtain ⟨hi, rfl⟩ := List.getElem?_eq_some_iff.1 hx
  obtain ⟨hj, rfl⟩ := List.getElem?_eq_some_iff.1 hy
  rcases Nat.lt_or_gt_of_ne hij with hlt | hlt
  · exact (hunique i j hi hj hlt u v hu hv).1
  · exact (hunique j i hj hi hlt v u hv hu).2

theorem primary_unique_guests : (Value.string "Guest").beq (.string "Other") = false :=
  primary_unique (k := guests "id") (guests_reached (.inl rfl)) (guestClasses_attributes (by decide))
    (c := guestClass) rfl (a := ⟨"id", .primary, .scalar .string {}, none⟩) rfl (by decide)
    Nat.zero_ne_one rfl rfl rfl rfl

/-- Where the tag takes the place of the primary identifier, documents share it. -/
theorem primary_shared :
    ∃ (k : Client) (c : ClassRef) (a : Attribute) (i j : Nat) (x y : Document) (u v : Value),
      k.Reached ∧ k.directory.NamesProperly ∧
      Fields.get? c.name k.session.store.storables = some c ∧
      (k.directory.definition c).primary? = some a ∧ i ≠ j ∧
      (k.session.store.database.documents (k.session.store.collectionName c))[i]? = some x ∧
      (k.session.store.database.documents (k.session.store.collectionName c))[j]? = some y ∧
      Fields.get? a.name x = some u ∧ Fields.get? a.name y = some v ∧ u.beq v = true :=
  ⟨guests Tree.classTag, guestClass, ⟨Tree.classTag, .primary, .scalar .string {}, none⟩, 0, 1, _, _,
    .string "Guest", .string "Guest", guests_reached (.inr rfl), guestClasses_attributes (by decide),
    rfl, rfl, Nat.zero_ne_one, rfl, rfl, rfl, rfl, rfl⟩

end Client

end TypedRecords
