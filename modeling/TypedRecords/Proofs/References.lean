import TypedRecords.Proofs.Client
import TypedRecords.Proofs.Store.Guarding
import TypedRecords.Proofs.Store.Referring

/-! # References of a program

The index of a reference looks where documents hold the primary identifier of what is referred to, whatever
had been stored before. If a class declares that one of its references is unique, no two of its
documents refer to the same record once the store has been migrated, as long as the class finds the class
that it refers to.
-/

namespace TypedRecords

open Stateful (KeepsIn)

variable {d : Directory} {c : ClassRef} {name path : String}

/-! ### Commands -/

namespace Command

variable {held : Set RecordRef} {command : Command}

/-- Every command keeps the records typed and the documents plain. -/
theorem keeps_run_concrete (hd : d.Lawful) (hcoherent : d.Coherent) (hgiven : command.Given d held) :
    KeepsIn (Store.Holding (fun known g => g.Typed d known) fun _ s => s.Concrete) held (command.run d)
      fun after rs => ∀ r ∈ rs, r ∈ after :=
  keeps_run_of hd (Graph.typed_allowsWriting hd) (Store.concrete_allowsLoading hcoherent)
    (fun _ hadds _ => hadds) (fun _ hr => Graph.Typed.keeps_fork hr)
    (fun _ hr _ hc _ => Graph.Typed.keeps_forkInto hr hc)
    (fun _ hr s expected => Store.keepsIn_save_concrete (Graph.typed_allowsWriting hd)
      (fun _ _ _ hkey => hkey) hr s expected)
    (Store.keepsIn_migrate (Store.concrete_allowsLoading hcoherent).toAllowsCalls fun _ _ => rfl) hgiven

/-- Every command keeps a path guarded at which a class declares its references to be unique. -/
theorem keeps_run_guards (hd : d.Lawful) (hcoherent : d.Coherent) (hdeclares : d.DeclaresUnique c name)
    (hrefers : d.RefersAt c name path) (hgiven : command.Given d held) :
    KeepsIn (Store.Holding (fun known g => g.Typed d known) fun _ s => s.Guards c path) held
      (command.run d) fun after rs => ∀ r ∈ rs, r ∈ after :=
  keeps_run_of hd (Graph.typed_allowsWriting hd) (Store.guards_allowsLoading hcoherent c path)
    (fun _ hadds harranges => ⟨hadds, harranges⟩) (fun _ hr => Graph.Typed.keeps_fork hr)
    (fun _ hr _ hc _ => Graph.Typed.keeps_forkInto hr hc)
    (fun _ hr s expected => Store.keepsIn_save_guards hd hr s expected)
    (Store.keepsIn_migrate_guards hdeclares hrefers) hgiven

theorem snd_run_migrate (d : Directory) (S : Session) :
    (Command.migrate.run d S).2 = (Store.migrate d S).2 := by
  rcases hrun : Store.migrate d S with ⟨result, S'⟩
  show (run.quietly (Store.migrate d) S).2 = S'
  unfold run.quietly
  cases result with
  | ok ms => rw [Stateful.bind_of_ok hrun]; rfl
  | error e => rw [Stateful.bind_of_error hrun]

end Command

/-! ### Programs -/

/-- A store to which classes may have been added. -/
structure Store.Enlarges (s s' : Store) : Prop where
  database : s'.database = s.database
  settings : s'.settings = s.settings
  kept : ∀ name c, Fields.get? name s.storables = some c → Fields.get? name s'.storables = some c
  filed : Filed s'.storables

theorem Store.Guards.enlarge {s s' : Store} (h : s.Guards c path) (hs : s.Enlarges s') :
    s'.Guards c path where
  concrete := by
    unfold Store.Concrete
    rw [hs.database]
    exact h.concrete
  filed := hs.filed
  there := hs.kept _ _ h.there
  guarded := by
    rw [hs.database, collectionName, hs.settings]
    exact h.guarded

namespace Client

/-- A program that has begun with no record, and with a store of any plain documents. Between its
commands, which may have failed, classes may be declared, forked and registered, and the store may come to
hold other documents. -/
inductive Begun : Client → Prop
  | start {d : Directory} {S : Session} (lawful : d.Lawful) (coherent : d.Coherent)
    (documents : S.store.Concrete) : Begun ⟨d, ∅, S⟩
  | run {k : Client} (before : Begun k) (command : Command)
    (given : command.Given k.directory k.held) : Begun (k.after command)
  | turn {k : Client} {d : Directory} {s : Store} (before : Begun k) (classes : k.directory.Extends d)
    (lawful : d.Lawful) (coherent : d.Coherent) (documents : s.Concrete) :
    Begun {
      directory := d
      held := k.held
      session := { k.session with store := s } }

/-- A program that goes on with its store, while a class refers at a path: it runs commands, and classes are
added that leave the path where it is. -/
inductive Continues (c : ClassRef) (name path : String) (k : Client) : Client → Prop
  | refl : Continues c name path k k
  | run {k' : Client} (before : Continues c name path k k') (command : Command)
    (given : command.Given k'.directory k'.held) : Continues c name path k (k'.after command)
  | grow {k' : Client} {d : Directory} {s : Store} (before : Continues c name path k k')
    (classes : k'.directory.Extends d) (lawful : d.Lawful) (coherent : d.Coherent)
    (refers : d.RefersAt c name path) (store : k'.session.store.Enlarges s) :
    Continues c name path k {
      directory := d
      held := k'.held
      session := { k'.session with store := s } }

variable {k k' : Client}

theorem Begun.typed (h : k.Begun) : k.directory.Lawful ∧ k.directory.Coherent ∧
    ∃ known, k.held ⊆ known ∧ k.session.graph.Typed k.directory known ∧ k.session.store.Concrete := by
  induction h with
  | @start d S lawful coherent documents =>
    exact ⟨lawful, coherent, ∅, subset_rfl, Graph.Typed.empty d S.graph, documents⟩
  | @run k _ command given ih =>
    obtain ⟨hd, hcoherent, known, hheld, hg, hs⟩ := ih
    obtain ⟨after, hafter, hholding, hresult⟩ :=
      Command.keeps_run_concrete hd hcoherent given known hheld k.session ⟨hg, hs⟩
    refine ⟨hd, hcoherent, after, Set.union_subset (hheld.trans hafter) ?_, hholding⟩
    rintro r ⟨rs, hrs, hr⟩
    exact hresult rs hrs r hr
  | turn _ classes lawful coherent documents ih =>
    obtain ⟨-, -, known, hheld, hg, -⟩ := ih
    exact ⟨lawful, coherent, known, hheld, hg.extend classes, documents⟩

theorem Continues.begun (h : Continues c name path k k') (hk : k.Begun) : k'.Begun := by
  induction h with
  | refl => exact hk
  | run _ command given ih => exact ih.run command given
  | grow _ classes lawful coherent _ store ih =>
    obtain ⟨-, -, -, -, -, hdocuments⟩ := ih.typed
    refine ih.turn classes lawful coherent ?_
    unfold Store.Concrete
    rw [store.database]
    exact hdocuments

/-- The store of a program guards the path at which a class declares its references to be unique. -/
structure Guarding (c : ClassRef) (name path : String) (k : Client) : Prop where
  declares : k.directory.DeclaresUnique c name
  refers : k.directory.RefersAt c name path
  guards : k.session.store.Guards c path

theorem Continues.guarding (h : Continues c name path k k') (hk : k.Begun)
    (hguarding : Guarding c name path k) : Guarding c name path k' := by
  induction h with
  | refl => exact hguarding
  | @run k' before command given ih =>
    obtain ⟨hd, hcoherent, known, hheld, hg, -⟩ := (before.begun hk).typed
    obtain ⟨-, -, ⟨-, hguards⟩, -⟩ := Command.keeps_run_guards hd hcoherent ih.declares ih.refers given
      known hheld k'.session ⟨hg, ih.guards⟩
    exact ⟨ih.declares, ih.refers, hguards⟩
  | @grow k' d s _ classes _ _ refers store ih =>
    obtain ⟨direction, hdeclared⟩ := ih.declares
    refine ⟨⟨direction, ?_⟩, refers, ih.guards.enlarge store⟩
    rwa [classes.definition c (ih.declares.bound)]

/-! ### An example: talks by speakers who give one each -/

def speaker : ClassRef := .declared 0 "Speaker"

/-- Another class of that name, whose records have a handle. -/
def namesake : ClassRef := .declared 1 "Speaker"

def talk : ClassRef := .declared 2 "Talk"

def speakerDefinition (primary : String) : Definition where
  attributes := [(primary, ⟨primary, .primary, .scalar .string {}, none⟩)]
  indexes := []
  embedded := false
  storable := true

def talkDefinition : Definition where
  attributes := [("id", ⟨"id", .primary, .scalar .string {}, none⟩),
    ("speaker", ⟨"speaker", .plain, .reference "Speaker" false {}, none⟩)]
  indexes := [{ paths := [("speaker", .asc)], unique := true }]
  embedded := false
  storable := true

/-- The classes, of which that of the talks finds others in the given registry. -/
def talkClasses (registry : Option RegistryRef) (registries : Array Registry) : Directory where
  classes := #[{ definition := speakerDefinition "id" }, { definition := speakerDefinition "handle" },
    { definition := talkDefinition, registry }]
  registries := registries

def talksAlone : Directory := talkClasses none #[]

def talksWithSpeakers : Directory :=
  talkClasses (some ⟨0⟩) #[{ members := [("Talk", talk), ("Speaker", speaker)] }]

/-- The first registry was let go of, and talks were entered in another one with the other speakers. -/
def talksWithNamesakes : Directory :=
  talkClasses (some ⟨1⟩) #[{ members := [("Talk", talk), ("Speaker", speaker)], holders := 0 },
    { members := [("Talk", talk), ("Speaker", namesake)] }]

def noTalks (d : Directory) : Client where
  directory := d
  held := ∅
  session := {
    graph := {}
    store := { ref := ⟨0⟩, registry := ⟨2⟩, storables := [("Talk", talk)] } }

/-- A program that works with other classes from now on, and with the same store. -/
def within (k : Client) (d : Directory) : Client := { k with directory := d }

/-- Makes a speaker and two talks that the speaker gives. -/
def announce (k : Client) (c : ClassRef) (primary : String) : Client :=
  let talkNamed (identifier : String) : Command :=
    .create talk [("id", .string identifier), ("speaker", .record (.made 0 c))]
  ((k.after (.create c [(primary, .string "x")])).after (talkNamed "m")).after (talkNamed "n")

def talkRecord (serial : Nat) : RecordRef := .made serial talk

def saveTalk (serial : Nat) : Command := .save (talkRecord serial) .all {}

theorem talkClasses_entries {registry : Option RegistryRef} {registries : Array Registry}
    {P : Definition → Prop} (hspeaker : P (speakerDefinition "id"))
    (hnamesake : P (speakerDefinition "handle")) (htalk : P talkDefinition) :
    ∀ entry ∈ (talkClasses registry registries).classes, P entry.definition := by
  simp [talkClasses, hspeaker, hnamesake, htalk]

theorem speakerDefinition_lawful (primary : String) : (speakerDefinition primary).Lawful := by
  refine ⟨by simp [speakerDefinition, Fields.Distinct, Fields.keys], by simp [speakerDefinition], ?_,
    fun _ => rfl⟩
  simp [speakerDefinition, Definition.attributeList, Fields.values, ClassDeclaration.canIdentify]

theorem talkDefinition_lawful : talkDefinition.Lawful := by decide

variable {registry : Option RegistryRef} {registries : Array Registry}

theorem talkClasses_lawful (h : ∀ registry ∈ registries, ∀ member ∈ registry.members,
    member.2.name = member.1 ∧ Specifier.isClassName member.1.toList = true) :
    (talkClasses registry registries).Lawful :=
  Directory.lawful_of_entries (talkClasses_entries (speakerDefinition_lawful "id")
    (speakerDefinition_lawful "handle") talkDefinition_lawful) h

theorem talkClasses_attributes {P : Attribute → Prop} (hspeaker : P ⟨"id", .primary, .scalar .string {}, none⟩)
    (hnamesake : P ⟨"handle", .primary, .scalar .string {}, none⟩)
    (htalk : P ⟨"speaker", .plain, .reference "Speaker" false {}, none⟩) (c : ClassRef) :
    ∀ a ∈ (talkClasses registry registries).attributes c, P a := by
  refine Directory.forall_attributes (talkClasses_entries (P := fun definition =>
    ∀ a ∈ definition.attributeList, P a) ?_ ?_ ?_) c
  · exact List.forall_mem_singleton.2 hspeaker
  · exact List.forall_mem_singleton.2 hnamesake
  · exact List.forall_mem_cons.2 ⟨hspeaker, List.forall_mem_singleton.2 htalk⟩

theorem talkClasses_extends {registry' : Option RegistryRef} {registries' : Array Registry} :
    (talkClasses registry registries).Extends (talkClasses registry' registries') where
  size := Nat.le_refl _
  definition c _ := by
    have hentry : ∀ d : Directory, d.definition c = d.definition (.declared c.serial "") := fun _ => rfl
    rw [hentry, hentry (talkClasses registry registries)]
    rcases c.serial with _ | _ | _ | n <;> rfl

theorem talksWithSpeakers_lawful : talksWithSpeakers.Lawful := talkClasses_lawful (by decide)

theorem talksWithSpeakers_coherent : talksWithSpeakers.Coherent :=
  Directory.coherent_of_members (by decide)

theorem noTalks_begun (hd : d.Lawful) (hcoherent : d.Coherent) : (noTalks d).Begun :=
  .start hd hcoherent fun _ _ hdocument => by cases hdocument

theorem Begun.within (h : k.Begun) (hd : d.Lawful) (hcoherent : d.Coherent)
    (hextends : k.directory.Extends d) : (k.within d).Begun := by
  obtain ⟨-, -, -, -, -, hconcrete⟩ := h.typed
  exact h.turn hextends hd hcoherent hconcrete

theorem Begun.announce (h : k.Begun) (hclasses : ∃ registry registries,
      k.directory = talkClasses registry registries) (hc : k.directory.Inherits c) {primary : String}
    (hmade : ((Command.create c [(primary, .string "x")]).run k.directory k.session).1 =
      .ok [.made 0 c]) : (k.announce c primary).Begun := by
  obtain ⟨registry, registries, hdirectory⟩ := hclasses
  have htalk : k.directory.Inherits talk := by
    rw [hdirectory]
    exact Directory.inherits_declared "Talk" (show 2 < 3 by decide)
  have hinitial : ∀ held c, ∀ a ∈ k.directory.attributes c, AllowsWriting.InitialWithin held a := by
    intro held
    rw [hdirectory]
    refine talkClasses_attributes ?_ ?_ ?_ <;> rintro v (hv | hv) <;> cases hv
  have htalks : ∀ (held : Set RecordRef) (identifier : String), .made 0 c ∈ held →
      (Command.create talk [("id", .string identifier), ("speaker", .record (.made 0 c))]).Given
        k.directory held := by
    refine fun held identifier hheld => ⟨htalk, fun r hr => ?_, hinitial held talk⟩
    obtain rfl := List.mem_singleton.1 hr
    exact hheld
  have hspeaker := h.run (.create c [(primary, .string "x")])
    ⟨hc, (fun r hr => by cases hr), hinitial k.held c⟩
  have hfirst := hspeaker.run _ (htalks _ "m" (.inr ⟨_, hmade, List.mem_singleton.2 rfl⟩))
  exact hfirst.run _ (htalks _ "n" (.inl (.inr ⟨_, hmade, List.mem_singleton.2 rfl⟩)))

/-! ### References -/

variable {a : Attribute}

/-- A save that writes an attribute with a record that the class accepts leaves a document in which the
primary identifier of that record, if it is defined, stands at a path. -/
def PlacesReferences (k : Client) (c : ClassRef) (a : Attribute) (path : String) : Prop :=
  ∀ r ∈ k.held, r.cls.name = c.name → ∀ s expected S,
    Store.save k.directory r s expected k.session = (.ok (some r), S) →
    Store.Writes k.directory r s k.session.graph a.name →
    ∀ q, k.session.graph.seen? r a.name = some (.record q) →
    a.type.check (k.directory.site c a.name) (.record q) = .ok () →
      ∃ p, (k.directory.definition q.cls).primary? = some p ∧
        ∀ v, k.session.graph.seen? q p.name = some v → v ≠ .undefined →
          ∃ document, Store.Wrote k.directory r k.session S.store document ∧
            Path.get? (.object document) path = some v

theorem Begun.placesReferences (h : k.Begun) (hnamed : k.directory.NamesProperly)
    (hc : Fields.get? c.name k.session.store.storables = some c) (ha : a ∈ k.directory.attributes c)
    (hpath : k.directory.referencePath? c a.name = .ok (some path)) : k.PlacesReferences c a path := by
  intro r hr hname s expected S hsave hwrites q hq haccepted
  obtain ⟨hd, -, known, hheld, hg, -⟩ := h.typed
  obtain ⟨-, hregistered, -⟩ := Store.save_prepared hsave
  -- Only the class itself and its forks are kept under its name.
  have hfork : r.cls.isSameOrForkOf c = true := by
    rw [Store.isRegistered, hname, hc] at hregistered
    exact hregistered
  have hattributes : k.directory.attributes r.cls = k.directory.attributes c :=
    congrArg Definition.attributeList (hg.inherits r (hheld hr) c hfork).2
  have hknown : q ∈ known := Value.within_record.1 (hg.sound.seen (hheld hr) hq)
  obtain ⟨hreferenceable, p, hp, rfl⟩ := Directory.primary_of_accepted hpath
    ((hd.definition c).attribute?_of_mem ha) (hg.inherits q hknown) haccepted
  refine ⟨p, hp, fun v hv hdefined => ?_⟩
  exact Store.save_places hd hnamed hg (hheld hr) hsave (hattributes ▸ ha) hwrites hq hreferenceable hp hv
    hdefined

/-- The path at which an attribute refers to records is that of an index of the class, and documents hold
there the primary identifiers of the records that are referred to. If the class declares the attribute to
be unique, then after a migration no two documents hold equal ones there, whatever the program does. -/
theorem references_agree (h : k.Begun) (hnamed : k.directory.NamesProperly)
    (hc : Fields.get? c.name k.session.store.storables = some c) (ha : a ∈ k.directory.attributes c)
    (hpath : k.directory.referencePath? c a.name = .ok (some path)) :
    (∀ indexes, k.directory.indexes c = .ok indexes → { paths := [(path, .asc)] } ∈ indexes) ∧
      k.PlacesReferences c a path ∧
      (k.directory.DeclaresUnique c a.name → Store.Filed k.session.store.storables →
        ∀ ms, (Store.migrate k.directory k.session).1 = .ok ms →
          ∀ k', Continues c a.name path (k.after .migrate) k' →
            (k'.session.store.database.documents (k'.session.store.collectionName c)).Pairwise
              (Document.Disagree path)) := by
  refine ⟨fun indexes => Directory.mem_indexes_of_referencePath? ha hpath,
    h.placesReferences hnamed hc ha hpath, fun hdeclares hfiled ms hmigrate k' hk' => ?_⟩
  obtain ⟨-, -, -, -, -, hconcrete⟩ := h.typed
  have hrefers : k.directory.RefersAt c a.name path := by
    intro derived hderived
    exact Except.ok.inj (hderived.symm.trans hpath)
  have hguards : (k.after .migrate).session.store.Guards c path := by
    show (Command.migrate.run k.directory k.session).2.store.Guards c path
    rw [Command.snd_run_migrate]
    exact Store.guards_of_migrate hdeclares hrefers ⟨hconcrete, hfiled, hc⟩ (Prod.ext hmigrate rfl)
  have hguarding : Guarding c a.name path (k.after .migrate) := ⟨hdeclares, hrefers, hguards⟩
  exact (hk'.guarding (h.run .migrate trivial) hguarding).guards.guarded.disagree

/-- What is stored of a talk by a speaker with the given identifier. -/
def storedTalk (identifier primary : String) : Document :=
  [(Tree.classTag, .string "Talk"), ("id", .string identifier),
    ("speaker", .object [(Tree.classTag, .string "Speaker"), (primary, .string "x")])]

/-- Two talks by one speaker. -/
def twoTalks : Client := (noTalks talksWithSpeakers).announce speaker "id"

theorem twoTalks_begun : twoTalks.Begun :=
  (noTalks_begun talksWithSpeakers_lawful talksWithSpeakers_coherent).announce ⟨_, _, rfl⟩
    (Directory.inherits_declared "Speaker" (show 0 < 3 by decide)) rfl

/-- The first talk is saved, and the second one is refused. -/
theorem references_agree_talks :
    (∃ document, Store.Wrote talksWithSpeakers (talkRecord 1) twoTalks.session
        (Store.save talksWithSpeakers (talkRecord 1) .all {} twoTalks.session).2.store document ∧
      Path.get? (.object document) "speaker.id" = some (.string "x")) ∧
    ((((twoTalks.after .migrate).after (saveTalk 1)).after
      (saveTalk 2)).session.store.database.documents "Talk").Pairwise (Document.Disagree "speaker.id") ∧
    (((twoTalks.after .migrate).after (saveTalk 1)).after
      (saveTalk 2)).session.store.database.documents "Talk" = [storedTalk "m" "id"] := by
  have hfirst : talkRecord 1 ∈ twoTalks.held := .inl (.inr ⟨_, rfl, List.mem_singleton.2 rfl⟩)
  have hsecond : talkRecord 2 ∈ twoTalks.held := .inr ⟨_, rfl, List.mem_singleton.2 rfl⟩
  have hpath : talksWithSpeakers.referencePath? talk "speaker" = .ok (some "speaker.id") := rfl
  obtain ⟨-, hplaces, hguards⟩ := references_agree (c := talk)
    (a := ⟨"speaker", .plain, .reference "Speaker" false {}, none⟩) twoTalks_begun
    (talkClasses_attributes (by decide) (by decide) (by decide)) rfl
    (List.mem_cons_of_mem _ List.mem_cons_self) hpath
  obtain ⟨p, hp, hdocument⟩ := hplaces (talkRecord 1) hfirst rfl .all {} _ rfl ⟨_, _, rfl, rfl⟩
    (.made 0 speaker) rfl rfl
  cases hp
  refine ⟨hdocument (.string "x") rfl nofun, ?_, rfl⟩
  have hfiled : Store.Filed [("Talk", talk)] := by
    refine ⟨fun name c hc => ?_, List.nodup_singleton _⟩
    obtain ⟨rfl, rfl⟩ := Prod.mk.inj (List.mem_singleton.1 (Fields.mem_of_get? hc))
    rfl
  have hmigrated : Continues talk "speaker" "speaker.id" (twoTalks.after .migrate)
      (twoTalks.after .migrate) := .refl
  have hsaved := hmigrated.run (saveTalk 1) (Or.inl hfirst)
  exact hguards ⟨.asc, List.mem_singleton.2 rfl⟩ hfiled _ rfl _
    (hsaved.run (saveTalk 2) (Or.inl (Or.inl hsecond)))

/-! ### References to records of another class of that name -/

/-- Two talks that were given while they found no speakers, and that have found others since. -/
def adopted : Client := ((noTalks talksAlone).announce namesake "handle").within talksWithSpeakers

/-- Two talks that find other speakers than when the store was migrated. -/
def moved : Client :=
  (((noTalks talksWithSpeakers).after .migrate).within talksWithNamesakes).announce namesake "handle"

theorem adopted_begun : adopted.Begun := by
  have halone : talksAlone.Coherent := Directory.coherent_of_members (by decide)
  have hinherits : talksAlone.Inherits namesake :=
    Directory.inherits_declared "Speaker" (show 1 < 3 by decide)
  have hannounced : ((noTalks talksAlone).announce namesake "handle").Begun :=
    (noTalks_begun (talkClasses_lawful (by decide)) halone).announce ⟨_, _, rfl⟩ hinherits rfl
  exact hannounced.within talksWithSpeakers_lawful talksWithSpeakers_coherent talkClasses_extends

theorem moved_begun : moved.Begun := by
  have hmigrated : ((noTalks talksWithSpeakers).after .migrate).Begun :=
    (noTalks_begun talksWithSpeakers_lawful talksWithSpeakers_coherent).run .migrate trivial
  have hnamesakes : talksWithNamesakes.Coherent := Directory.coherent_of_members (by decide)
  exact (hmigrated.within (talkClasses_lawful (by decide)) hnamesakes talkClasses_extends).announce
    ⟨_, _, rfl⟩ (Directory.inherits_declared "Speaker" (show 1 < 3 by decide)) rfl

/-- A speaker of the other class has no identifier where the index of the talks looks, if it was accepted
by the name of its class, or if the talks have found the other class only since the migration: then two
talks refer to one speaker. -/
theorem references_disagree :
    (adopted.Begun ∧ adopted.directory.NamesProperly ∧
      adopted.directory.referencePath? talk "speaker" = .ok (some "speaker.id") ∧
      Store.Writes adopted.directory (talkRecord 1) .all adopted.session.graph "speaker" ∧
      adopted.session.graph.seen? (talkRecord 1) "speaker" = some (.record (.made 0 namesake)) ∧
      (adopted.directory.definition namesake).primary?.map Attribute.name = some "handle" ∧
      adopted.session.graph.seen? (.made 0 namesake) "handle" = some (.string "x") ∧
      ∃ S, Store.save adopted.directory (talkRecord 1) .all {} adopted.session =
          (.ok (some (talkRecord 1)), S) ∧
        Store.Wrote adopted.directory (talkRecord 1) adopted.session S.store (storedTalk "m" "handle") ∧
        Path.get? (.object (storedTalk "m" "handle")) "speaker.id" = none) ∧
    (moved.Begun ∧ moved.directory.DeclaresUnique talk "speaker" ∧
      (∃ ms, (Store.migrate talksWithSpeakers (noTalks talksWithSpeakers).session).1 = .ok ms) ∧
      moved.session.graph.seen? (.made 0 namesake) "handle" = some (.string "x") ∧
      ((moved.after (saveTalk 1)).after (saveTalk 2)).session.store.database.documents "Talk" =
        [storedTalk "m" "handle", storedTalk "n" "handle"]) := by
  refine ⟨⟨adopted_begun, ?_, rfl, ⟨_, _, rfl, rfl⟩, rfl, rfl, rfl, _, rfl, ?_, rfl⟩, moved_begun,
    ⟨.asc, List.mem_singleton.2 rfl⟩, ⟨_, rfl⟩, rfl, rfl⟩
  · exact talkClasses_attributes (by decide) (by decide) (by decide)
  · exact .created rfl rfl rfl rfl

end Client

end TypedRecords
