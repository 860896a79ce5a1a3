import TypedRecords.Proofs.Record.Accepting
import TypedRecords.Proofs.Store.Recasting

/-! # Forked classes in the place of their bases

An instance of a fork of a class takes what an instance of the class takes, with one exception. The name of
the class means the fork itself within the fork, so that the fork takes, where an attribute refers to the
class, only what belongs to the fork.
-/

namespace TypedRecords

variable {d : Directory} {fork base : ClassRef} {g g' : Graph} {r : RecordRef} {name : String}

/-! ### Inherited values -/

/-- Forking the records in a value changes none of their classes. -/
theorem Value.sketch_forkRecords (v : Value) (g : Graph) : (v.forkRecords g).1.sketch = v.sketch := by
  induction v using Value.induction generalizing g with
  | array items ih =>
    have hitems : ∀ g, (forkItems items g).1.map sketch = items.map sketch := by
      induction items with
      | nil => exact fun _ => rfl
      | cons v rest ihRest =>
        obtain ⟨hv, hrest⟩ := List.forall_mem_cons.1 ih
        intro g
        exact congrArg₂ List.cons (hv g) (ihRest hrest (v.forkRecords g).2)
    show (Value.array (forkItems items g).1).sketch = _
    rw [sketch, sketch, sketchItems_eq_map, sketchItems_eq_map, hitems]
  | object fields _ => rfl
  | other v harray hobject =>
    cases v with
    | array items => cases harray
    | object fields => cases hobject
    | _ => rfl

/-- A record that was just forked reads what its base reads, but for forks of the records in it. -/
theorem RecordRef.value?_forked (c : ClassRef) (r : RecordRef) (name : String) :
    ((g.fork c r).1.value? name (g.fork c r).2).1.map Value.sketch =
      (r.value? name (g.fork c r).2).1.map Value.sketch := by
  have hown : (g.fork c r).2.own? (.fork g.cells.size c r) name = none := by
    rw [Graph.own?_fork]
    exact Graph.own?_of_size_le (Nat.le_refl _) name
  show ((RecordRef.slot? name (.fork g.cells.size c r) (g.fork c r).2).1.map Slot.value).map
    Value.sketch = ((r.slot? name (g.fork c r).2).1.map Slot.value).map Value.sketch
  rcases hbase : r.slot? name (g.fork c r).2 with ⟨_ | slot, g'⟩
  · rw [slot?_fork_of_base hown hbase]
  · rw [slot?_fork_of_base hown hbase]
    dsimp only
    split
    · exact congrArg some (slot.value.sketch_forkRecords g')
    · rfl

/-- What a record inherits was accepted by the class of its base, or is undefined. -/
theorem Graph.Accepting.inherited {known : Set RecordRef} (h : g.Accepting d known) (hr : r ∈ known)
    {a : Attribute} (ha : (d.definition r.cls).attribute? name = some a) {c : ClassRef} {v : Value}
    (hv : ((g.fork c r).1.value? name (g.fork c r).2).1 = some v) (hdefined : v ≠ .undefined) :
    a.type.check (d.site r.cls name) v = .ok () := by
  have hg := h.of_own?_eq (Nat.le_of_lt (by rw [size_fork]; exact Nat.lt_succ_self _))
    (Graph.own?_fork g c r)
  have hsame := RecordRef.value?_forked (g := g) c r name
  rw [hv, Option.map_some, eq_comm, Option.map_eq_some_iff] at hsame
  obtain ⟨w, hw, hsketch⟩ := hsame
  obtain ⟨slot, hslot, rfl⟩ := Option.map_eq_some_iff.1 hw
  have hdefined' : slot.value ≠ .undefined := by
    intro hundefined
    rw [hundefined] at hsketch
    exact hdefined (Value.sketch_eq_undefined_iff.1 hsketch.symm)
  have hcheck := (hg.read hr hslot a ha).resolve_left hdefined'
  rwa [← ValueType.check_sketch, ← hsketch, ValueType.check_sketch]

/-! ### Substitution -/

/-- An instance of `fork` takes what an instance of `base` takes, except that it takes under the name of the
class nothing but what belongs to `fork`. -/
structure Directory.Substitutes (d : Directory) (fork base : ClassRef) : Prop where
  /-- Values that can be assigned. -/
  set : ∀ {r r' : RecordRef} {name : String} {a : Attribute} {v : Value} {g g₁ : Graph},
    r.cls = base → r'.cls = fork → (d.definition base).attribute? name = some a →
      Record.set d r name v g = (.ok (), g₁) → ∀ g',
        (∃ g₂, Record.set d r' name v g' = (.ok (), g₂)) ↔ a.type.OwnWithin fork v
  /-- Values that a fork of a record as an instance of `fork` has from its base, assigned back. -/
  inherited : ∀ {known : Set RecordRef} {r f : RecordRef} {name : String} {a : Attribute} {v : Value}
    {g g₁ g₂ : Graph}, g.Accepting d known → r ∈ known → r.cls = base →
      (d.definition base).attribute? name = some a → Record.forkInto r fork g = (.ok f, g₁) →
        f.value? name g₁ = (some v, g₂) → v ≠ .undefined →
          ((∃ g₃, Record.set d f name v g₂ = (.ok (), g₃)) ↔ a.type.OwnWithin fork v)
  /-- Trees that can be applied. -/
  decodeInto : ∀ {registry : RegistryRef} {source : Source} {r r' : RecordRef} {fields : Object}
    {g g₁ : Graph}, r.cls = base → r'.cls = fork →
      Record.decodeInto d registry source r (.object fields) g = (.ok (), g₁) → ∀ source' g',
        (∃ g₂, Record.decodeInto d registry source' r' (.object fields) g' = (.ok (), g₂)) ↔
          Tree.FieldsWithin d registry fork fields
  /-- Documents that can be loaded, where both find the same registry. -/
  load : ∀ {r : RecordRef} {s : Selector} {throwIfMissing : Bool} {S S₁ : Session}
    {found : Option RecordRef}, r.cls = base → d.registryOf? fork = d.registryOf? base →
      (∀ document ∈ S.store.database.documents (S.store.collectionName base),
        Tree.FieldsWithin d S.store.registry fork document) →
      Store.load d r s throwIfMissing S = (.ok found, S₁) →
        ∃ S₂, Store.load d (r.recast fork) s throwIfMissing S =
            (.ok (found.map fun r => r.recast fork), S₂) ∧
          S₂.graph = S₁.graph ∧ S₂.store.database = S₁.store.database

/-- A fork that finds other classes as its base does, or finds none, takes what its base takes. -/
theorem Directory.StandsIn.substitutes (hd : d.Lawful) (h : d.StandsIn fork base) :
    d.Substitutes fork base where
  set hr hr' ha hset g' := by
    obtain ⟨b, hb, hcheck, -⟩ := Record.set_eq_ok hset
    rw [hr, ha] at hb
    cases hb
    rw [hr] at hcheck
    exact Record.set_iff_check hd h hr' ha hcheck g'
  inherited := by
    intro known r f name a v g g₁ g₂ hg hr hcls ha hfork hv hdefined
    subst hcls
    unfold Record.forkInto at hfork
    rw [if_pos h.descends] at hfork
    cases hfork
    have hvalue : ((g.fork fork r).1.value? name (g.fork fork r).2).1 = some v := congrArg Prod.fst hv
    have hcheck := hg.inherited hr ha hvalue hdefined
    exact Record.set_iff_check hd h rfl ha (ValueType.check_sanitize hcheck) g₂
  decodeInto hr hr' hinto source' g' := Record.decodeInto_iff hd h hr hr' hinto source' g'
  load hr hregistry hwithin hload := Store.load_recast h hd hregistry hr hwithin hload

/-! ### An example: short films -/

namespace Substitution

def filmClass : ClassRef := .declared 0 "Film"

def personClass : ClassRef := .declared 1 "Person"

def filmDefinition : Definition where
  attributes := [("id", ⟨"id", .primary, .scalar .string {}, none⟩),
    ("title", ⟨"title", .plain, .scalar .string {}, none⟩),
    ("sequel", ⟨"sequel", .plain, .reference "Film" false { optional := true }, none⟩),
    ("director", ⟨"director", .plain, .reference "Person" false { optional := true }, none⟩)]
  indexes := []
  embedded := false
  storable := true

def personDefinition : Definition where
  attributes := [("name", ⟨"name", .plain, .scalar .string {}, none⟩)]
  indexes := []
  embedded := false
  storable := false

/-- Films and people, in one registry. -/
def entered : Directory where
  classes := #[{ definition := filmDefinition, registry := some ⟨0⟩ },
    { definition := personDefinition, registry := some ⟨0⟩ }]
  registries := #[{ members := [("Film", filmClass), ("Person", personClass)] }]

/-- The class of short films, a fork of that of films. -/
def shortFilmClass : ClassRef := (entered.forkClass filmClass).1

def filmClasses : Directory := (entered.forkClass filmClass).2

/-- Films and short films, of which the latter were forked before they were entered with other people in
a registry of their own. -/
def apartClasses : Directory where
  classes := #[{ definition := filmDefinition, registry := some ⟨0⟩ },
    { definition := personDefinition, registry := some ⟨0⟩ },
    { definition := filmDefinition, registry := some ⟨1⟩ },
    { definition := personDefinition, registry := some ⟨1⟩ }]
  registries := #[{ members := [("Film", filmClass), ("Person", personClass)] },
    { members := [("Film", shortFilmClass), ("Person", .declared 3 "Person")] }]

def film : RecordRef := .made 0 filmClass

def shortFilm : RecordRef := .made 1 shortFilmClass

def person : RecordRef := .made 2 personClass

def records : Graph where
  cells := #[{ isNew := true }, { isNew := true }, { isNew := true }]

/-- A film takes a film as its sequel, which a short film does not; nor does it take a person that its own
registry does not know. -/
theorem shortFilm_refuses :
    (filmClasses.registryOf? filmClass = some ⟨0⟩ ∧ shortFilmClass.isForkOf filmClass = true ∧
      (∃ g, Record.set filmClasses film "sequel" (.record film) records = (.ok (), g)) ∧
      ∃ g, Record.set filmClasses shortFilm "sequel" (.record film) records =
        (.error (.typeMismatch "Film.sequel" "Film?" "Film"), g)) ∧
    apartClasses.registryOf? filmClass = some ⟨0⟩ ∧
      (∃ g, Record.set apartClasses film "director" (.record person) records = (.ok (), g)) ∧
      ∃ g, Record.set apartClasses shortFilm "director" (.record person) records =
        (.error (.typeMismatch "Film.director" "Person?" "Person"), g) :=
  ⟨⟨rfl, rfl, ⟨_, rfl⟩, _, rfl⟩, rfl, ⟨_, rfl⟩, _, rfl⟩

/-- A film that is stored, and a record that has only its identifier. -/
def stored : Session where
  graph := { cells := #[{ slots := [("id", some ⟨.string "f", .here⟩)], isNew := false }] }
  store := {
    ref := ⟨0⟩
    registry := ⟨0⟩
    storables := [("Film", filmClass)]
    database := { collections := [("Film", { documents := [
      [("__component", .string "Film"), ("id", .string "f"), ("title", .string "Alien"),
        ("director", .object [("__component", .string "Person"), ("name", .string "Ridley")])]] })] } }

theorem entered_lawful : entered.Lawful :=
  Directory.lawful_of_entries (by decide) (by decide)

/-- The document of the film is loaded into a short film as well. -/
theorem substitutes_films : filmClasses.Substitutes shortFilmClass filmClass ∧
    ∃ S, Store.load filmClasses (film.recast shortFilmClass) .all true stored =
        (.ok (some (.made 0 shortFilmClass)), S) ∧
      S.graph.value? (.made 0 shortFilmClass) "title" = some (.string "Alien") := by
  have hd : filmClasses.Lawful := entered_lawful.forkClass filmClass
  have hstands : filmClasses.StandsIn shortFilmClass filmClass :=
    Directory.standsIn_forkClass (by decide)
  have hsubstitutes := hstands.substitutes hd
  have hwithin : ∀ document ∈ stored.store.database.documents "Film",
      Tree.FieldsWithin filmClasses ⟨0⟩ shortFilmClass document := by
    intro document hdocument entry hentry hclass hnew a ha toClass hown
    obtain rfl := List.mem_singleton.1 hdocument
    simp only [List.mem_cons, List.not_mem_nil, or_false] at hentry
    rcases hentry with rfl | rfl | rfl | rfl
    · exact absurd rfl hclass
    all_goals
      cases ha
      have hname : ValueType.reference? _ = some ("Film", toClass) := hown
      simp [ValueType.reference?] at hname
  have hload : Store.load filmClasses film .all true stored =
      (.ok (some film), (Store.load filmClasses film .all true stored).2) := rfl
  obtain ⟨S, hfork, hgraph, -⟩ := hsubstitutes.load rfl rfl hwithin hload
  refine ⟨hsubstitutes, S, hfork, ?_⟩
  rw [hgraph]
  rfl

end Substitution

end TypedRecords
