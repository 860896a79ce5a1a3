import TypedRecords.Proofs.Client
import TypedRecords.Proofs.Record.Created
import TypedRecords.Proofs.Store.Tending

/-! # Records that are new as long as they are not stored

A program starts with an empty store. It creates records with primary identifiers of their own, which it
does not change afterwards, and saves, loads and deletes these records, while the database answers or does
not. A record that is not new then has a document in the store, and one that has a document is not new,
unless an attribute is named like the mark of what is new: loads read that as the mark.
-/

namespace TypedRecords

open Stateful (KeepsIn)

variable {d d' : Directory} {records known : Set RecordRef} {key : RecordRef → String × Value}
  {S : Session} {r : RecordRef}

/-! ### Classes that are added -/

namespace Store

variable {s s' : Store}

theorem Grows.isRegistered_eq (h : s.Grows d' s') {c registered : ClassRef}
    (hc : Fields.get? c.name s.storables = some registered) : s'.isRegistered c = s.isRegistered c := by
  rw [isRegistered, isRegistered, hc, h.kept _ _ hc]

theorem Grows.registered (h : s.Grows d' s') {c : ClassRef} (hc : s.isRegistered c = true) :
    s'.isRegistered c = true := by
  cases hread : Fields.get? c.name s.storables with
  | none =>
    rw [isRegistered, hread] at hc
    cases hc
  | some registered => rwa [h.isRegistered_eq hread]

theorem Grows.tally_eq (h : s.Grows d' s') (hkept : s.Kept d) (r : RecordRef) (key : String × Value) :
    s'.tally r key = s.tally r key := by
  cases hc : Fields.get? r.cls.name s.storables with
  | some registered =>
    rw [tally, tally, h.isRegistered_eq hc, h.collections, h.documents]
  | none =>
    have hempty := hkept.documents_eq_nil hc
    rw [tally, tally, h.collections, h.documents, hempty, List.countP_nil, ite_self, ite_self]

end Store

theorem Graph.Tracks.extend {g : Graph} {k : String × Value} {stored : Prop} (hd : d.Extends d')
    (hr : d.Inherits r.cls) (h : g.Tracks d r k stored) : g.Tracks d' r k stored := by
  have hdefinition := hd.definition r.cls hr.bound
  have hattributes : d'.attributes r.cls = d.attributes r.cls := by
    rw [Directory.attributes, hdefinition, Directory.attributes]
  obtain ⟨v, hv, hkey⟩ := h.under
  refine ⟨⟨v, ?_, hkey⟩, h.known, fun hunnamed => h.isNew (hattributes ▸ hunnamed)⟩
  rw [Graph.primary?, hdefinition]
  exact hv

theorem Store.Tends.grow (h : Store.Tends d records key known S) (hd : d.Extends d') {s : Store}
    (hs : S.store.Grows d' s) : Store.Tends d' records key known { S with store := s } := by
  refine ⟨⟨h.typed.extend hd, h.subset, fun r hr => ?_⟩, h.kept.grow hd hs, fun r hr q hq hne => ?_,
    fun r hr => ?_, fun name document hdocument => ?_⟩
  · rw [hs.tally_eq h.kept]
    exact (h.tracks hr).extend hd (h.inherits hr)
  · rw [hs.collections, hs.collections]
    exact h.apart r hr q hq hne
  · rw [hs.tally_eq h.kept]
    exact h.once r hr
  · rw [hs.documents] at hdocument
    obtain ⟨r, hr, hregistered, hcollection, hholds⟩ := h.owned name document hdocument
    exact ⟨r, hr, hs.registered hregistered, (hs.collections r.cls).trans hcollection, hholds⟩

/-! ### Runs -/

/-- Commands that save, load or delete one of some records. -/
def Command.Persists (records : Set RecordRef) : Command → Prop
  | .load r _ _ => r ∈ records
  | .save r _ _ => r ∈ records
  | .delete r _ => r ∈ records
  | _ => False

namespace Client

/-- A program whose database answers, or does not. -/
def answering (k : Client) (available : Bool) : Client :=
  { k with session.store.database.available := available }

/-- A record is created with a primary identifier that differs from those of other records in its
collection, and from itself in no way, as not a number does. -/
structure Creates (k : Client) (records : Set RecordRef) (c : ClassRef) (values : Object) (r : RecordRef)
    (name : String) (v : Value) : Prop where
  given : (Command.create c values).Given k.directory k.held
  made : ((Command.create c values).run k.directory k.session).1 = .ok [r]
  primary : (k.after (.create c values)).session.graph.primary? k.directory r = some (name, v)
  defined : v ≠ .undefined
  reflexive : v.beq v = true
  apart : ∀ q ∈ records, k.session.store.collectionName q.cls = k.session.store.collectionName c →
    ∀ name w, k.session.graph.primary? k.directory q = some (name, w) → w.beq v = false

/-- A command leaves the documents as they are, and some records under their primary identifiers, and new
if they were. -/
structure Bypasses (k : Client) (records : Set RecordRef) (command : Command) : Prop where
  given : command.Given k.directory k.held
  store : k.session.store.Alike (k.after command).session.store
  primary : ∀ r ∈ records, (k.after command).session.graph.primary? k.directory r =
    k.session.graph.primary? k.directory r
  isNew : ∀ r ∈ records, (k.after command).session.graph.isNew r = k.session.graph.isNew r

/-- A program that has started with an empty store, has created some records, and has saved, loaded and
deleted these records while its database answered or not. Whatever else it has done has bypassed them. -/
inductive Tended : Client → Set RecordRef → Prop
  | start {d : Directory} {S : Session} (lawful : d.Lawful) (coherent : d.Coherent)
    (storables : ∀ name c, Fields.get? name S.store.storables = some c → c.name = name ∧ d.Inherits c)
    (empty : ∀ name, S.store.database.documents name = []) : Tended ⟨d, ∅, S⟩ ∅
  | create {k : Client} {records : Set RecordRef} (before : Tended k records) {c : ClassRef}
    {values : Object} {r : RecordRef} {name : String} {v : Value}
    (creates : k.Creates records c values r name v) :
    Tended (k.after (.create c values)) (insert r records)
  | persist {k : Client} {records : Set RecordRef} (before : Tended k records) {command : Command}
    (persists : command.Persists records) : Tended (k.after command) records
  | answer {k : Client} {records : Set RecordRef} (before : Tended k records) (available : Bool) :
    Tended (k.answering available) records
  | bypass {k : Client} {records : Set RecordRef} (before : Tended k records) {command : Command}
    (bypasses : k.Bypasses records command) : Tended (k.after command) records
  | grow {k : Client} {records : Set RecordRef} (before : Tended k records) {d : Directory} {s : Store}
    (classes : k.directory.Extends d) (lawful : d.Lawful) (coherent : d.Coherent)
    (grows : k.session.store.Grows d s) :
    Tended { directory := d, held := k.held, session := { k.session with store := s } } records

/-! ### What every run keeps -/

/-- What is known of a program that tends some records. -/
structure Tending (k : Client) (records : Set RecordRef) : Prop where
  held : records ⊆ k.held
  made : ∀ r ∈ records, r.base? = none
  reached : k.directory.NamesProperly → k.Reached
  tends : k.directory.NamesProperly → ∃ key known, k.held ⊆ known ∧
    Store.Tends k.directory records key known k.session

variable {k : Client}

theorem grows_answering (h : k.session.store.Kept k.directory) (available : Bool) :
    k.session.store.Grows k.directory (k.answering available).session.store where
  documents _ := rfl
  collections _ := rfl
  kept _ _ hc := hc
  storables := h.storables

namespace Tending

theorem start (lawful : d.Lawful) (coherent : d.Coherent)
    (storables : ∀ name c, Fields.get? name S.store.storables = some c → c.name = name ∧ d.Inherits c)
    (empty : ∀ name, S.store.database.documents name = []) : Tending ⟨d, ∅, S⟩ ∅ where
  held := subset_rfl
  made _ hr := nomatch hr
  reached _ := .start lawful coherent storables empty
  tends _ := by
    have htracked : Store.Tracked d ∅ (fun _ => ("", .undefined)) S.store ∅ S.graph :=
      ⟨.empty d S.graph, subset_rfl, fun r hr => nomatch hr⟩
    refine ⟨fun _ => ("", .undefined), ∅, subset_rfl, htracked, .empty storables empty, ?_, ?_, ?_⟩
    · exact fun r hr => nomatch hr
    · exact fun r hr => nomatch hr
    · intro name document hdocument
      rw [empty] at hdocument
      cases hdocument

theorem create (h : k.Tending records) {c : ClassRef} {values : Object} {name : String} {v : Value}
    (hcreates : k.Creates records c values r name v) :
    (k.after (.create c values)).Tending (insert r records) := by
  have hheld : r ∈ (k.after (.create c values)).held :=
    .inr ⟨[r], hcreates.made, List.mem_singleton_self r⟩
  obtain ⟨g', hrun, hsession⟩ := Store.onRecords_eq_ok (Prod.ext hcreates.made rfl)
  obtain ⟨r', g₁, hcreate, hpure⟩ := Stateful.bind_eq_ok hrun
  cases hpure
  obtain ⟨hr, hleaves, hnew⟩ := Record.create_eq_ok hcreate
  have hgraph : (k.after (.create c values)).session.graph = g' := congrArg Session.graph hsession
  have hstore : (k.after (.create c values)).session.store = k.session.store :=
    (congrArg Session.store hsession).trans rfl
  refine ⟨Set.insert_subset hheld (h.held.trans Set.subset_union_left), ?_,
    fun hnamed => (h.reached hnamed).step (.run _ hcreates.given), fun hnamed => ?_⟩
  · rintro q (rfl | hq)
    · rw [hr]
      rfl
    · exact h.made q hq
  obtain ⟨key, known, hknown, htends⟩ := h.tends hnamed
  obtain ⟨hinherits, hvalues, hinitial⟩ := hcreates.given
  have hd := (h.reached hnamed).sound.lawful
  obtain ⟨after, hafter, htyped, hmem⟩ := ((Graph.typed_allowsWriting hd).keeps_create hd hinherits
    (hvalues.mono hknown) fun a ha v hv => (hinitial a ha v hv).mono hknown).of_run subset_rfl
      htends.typed hcreate
  have hr' : r ∈ after := hmem r rfl
  have hunder : g'.Under k.directory r (name, v) := by
    -- A defined value of a primary attribute is a key.
    have hprimary := hgraph ▸ hcreates.primary
    obtain ⟨a, ha, rfl, hv⟩ := Graph.primary?_eq_some.1 hprimary
    obtain ⟨source, hslot⟩ := Graph.value?_eq_some_iff.1 hv
    have hkey := htyped.keys r hr' a.name ⟨v, source⟩ hslot a (Definition.mem_identifiers_of_primary ha) rfl
    exact ⟨v, hprimary, hkey.resolve_left hcreates.defined, hcreates.reflexive⟩
  refine ⟨Function.update key r (name, v), after, ?_, htends.joining hstore (hgraph ▸ htyped) hafter
    hr' ?_ (hgraph ▸ hleaves) (hgraph ▸ hnew) (hgraph ▸ hunder) fun q hq hcollection => ?_⟩
  · refine Set.union_subset (hknown.trans hafter) ?_
    rintro q ⟨rs, hrs, hq⟩
    rw [hcreates.made] at hrs
    cases hrs
    exact List.mem_singleton.1 hq ▸ hr'
  · rw [hr]
    exact Nat.le_refl _
  -- The values that are compared equal the keys, though they may differ from them as 0 does from -0.
  · have hcls : r.cls = c := by
      rw [hr]
      rfl
    obtain ⟨w, hw, hkey, hequal⟩ := (htends.tracks hq).under
    have hdiffers := hcreates.apart q hq (hcls ▸ hcollection) _ w hw
    rwa [(htends.tracks hq).under.isKey.beq_congr hequal] at hdiffers

theorem persist (h : k.Tending records) {command : Command} (persists : command.Persists records) :
    (k.after command).Tending records := by
  have hgiven : command.Given k.directory k.held := by
    cases command with
    | load r _ _ => exact h.held persists
    | save r _ _ => exact h.held persists
    | delete r _ => exact h.held persists
    | _ => exact persists.elim
  refine ⟨h.held.trans Set.subset_union_left, h.made,
    fun hnamed => (h.reached hnamed).step (.run command hgiven), fun hnamed => ?_⟩
  obtain ⟨key, known, hknown, htends⟩ := h.tends hnamed
  have hd := (h.reached hnamed).sound.lawful
  have hcoherent := (h.reached hnamed).sound.coherent
  have hkeeps : KeepsIn (Store.Tends k.directory records key) known (command.run k.directory)
      fun after rs => ∀ r ∈ rs, r ∈ after := by
    cases command with
    | load r s throwIfMissing =>
      exact Command.keeps_quietly
        (Store.keepsIn_load_tends hd h.made hcoherent hnamed persists s throwIfMissing)
    | save r s expected =>
      exact Command.keeps_quietly (Store.keepsIn_save_tends hd h.made hnamed persists s expected)
    | delete r throwIfMissing =>
      exact Command.keeps_quietly (Store.keepsIn_delete_tends hd h.made hcoherent persists throwIfMissing)
    | _ => exact persists.elim
  obtain ⟨after, hafter, htends', hresult⟩ := hkeeps known subset_rfl k.session htends
  refine ⟨key, after, Set.union_subset (hknown.trans hafter) ?_, htends'⟩
  rintro r ⟨rs, hrs, hr⟩
  exact hresult rs hrs r hr

theorem grow (h : k.Tending records) {s : Store} (classes : k.directory.Extends d) (lawful : d.Lawful)
    (coherent : d.Coherent) (grows : k.session.store.Grows d s) :
    Tending { directory := d, held := k.held, session := { k.session with store := s } } records where
  held := h.held
  made := h.made
  reached hnamed :=
    (h.reached (classes.forall_attributes hnamed)).step (.grow classes lawful coherent grows)
  tends hnamed := by
    obtain ⟨key, known, hknown, htends⟩ := h.tends (classes.forall_attributes hnamed)
    exact ⟨key, known, hknown, htends.grow classes grows⟩

theorem bypass (h : k.Tending records) {command : Command} (hbypasses : k.Bypasses records command) :
    (k.after command).Tending records := by
  have hheld : records ⊆ (k.after command).held := h.held.trans Set.subset_union_left
  have hreached : k.directory.NamesProperly → (k.after command).Reached :=
    fun hnamed => (h.reached hnamed).step (.run command hbypasses.given)
  refine ⟨hheld, h.made, hreached, fun hnamed => ?_⟩
  obtain ⟨key, known, -, htends⟩ := h.tends hnamed
  obtain ⟨after, hafter, htyped, -⟩ := (hreached hnamed).sound.working hnamed
  exact ⟨key, after, hafter, htends.resting hbypasses.store ⟨htyped, hheld.trans hafter, fun r hr =>
    (htends.tracks hr).congr (hbypasses.primary r hr) (hbypasses.isNew r hr) Iff.rfl⟩⟩

/-- Whether the database answers has nothing to do with its documents. -/
theorem answer (h : k.Tending records) (available : Bool) : (k.answering available).Tending records where
  held := h.held
  made := h.made
  reached hnamed := by
    have hreached := h.reached hnamed
    exact hreached.step (.grow (.refl k.directory) hreached.sound.lawful hreached.sound.coherent
      (grows_answering (hreached.kept hnamed) available))
  tends hnamed := by
    obtain ⟨key, known, hknown, htends⟩ := h.tends hnamed
    exact ⟨key, known, hknown, htends.grow (.refl k.directory) (grows_answering htends.kept available)⟩

end Tending

theorem Tended.tending (h : k.Tended records) : k.Tending records := by
  induction h with
  | start lawful coherent storables empty => exact .start lawful coherent storables empty
  | create _ creates ih => exact ih.create creates
  | persist _ persists ih => exact ih.persist persists
  | answer _ available ih => exact ih.answer available
  | bypass _ bypasses ih => exact ih.bypass bypasses
  | grow _ classes lawful coherent grows ih => exact ih.grow classes lawful coherent grows

/-! ### Records and their documents -/

end Client

/-- There is a document with the primary identifier of a record in the collection of its class. -/
def Session.Stores (d : Directory) (S : Session) (r : RecordRef) : Prop :=
  S.store.isRegistered r.cls = true ∧ ∃ identifier, S.graph.primary? d r = some identifier ∧
    ∃ document ∈ S.store.database.documents (S.store.collectionName r.cls),
      Collection.holds document [identifier] = true

theorem Store.Tends.stores_iff (h : Store.Tends d records key known S) (hr : r ∈ records) :
    S.Stores d r ↔ 0 < S.store.tally r (key r) := by
  obtain ⟨v, hv, hkey, hequal⟩ := (h.tracks hr).under
  have hholds : ∀ document, Collection.holds document [((key r).1, v)] = Collection.holds document [key r] :=
    Store.holds_congr hkey hequal
  simp only [Session.Stores, hv, Option.some.injEq, exists_eq_left', hholds, Store.tally_pos]

namespace Client

variable {k : Client}

/-- A record that is not new is stored. One that is stored is not new, if its class has no attribute that is
named like the mark of what is new. -/
theorem isNew_eq_false_iff_stores (h : k.Tended records) (hnamed : k.directory.NamesProperly)
    (hr : r ∈ records) :
    (k.session.graph.isNew r = false → k.session.Stores k.directory r) ∧
      ((∀ a ∈ k.directory.attributes r.cls, a.name ≠ Tree.newTag) →
        (k.session.graph.isNew r = false ↔ k.session.Stores k.directory r)) := by
  obtain ⟨key, known, -, htends⟩ := h.tending.tends hnamed
  have htracks := htends.tracks hr
  rw [htends.stores_iff hr]
  exact ⟨htracks.known, fun hunnamed => ⟨htracks.known, htracks.isNew hunnamed⟩⟩

/-! ### An example: a film that is saved, and then cannot be loaded or deleted -/

namespace Scoring

def filmClass : ClassRef := .declared 0 "Film"

/-- Films, of which one attribute has the given name. -/
def filmClasses (mark : String) : Directory where
  classes := #[
    { definition := {
        attributes := [("id", ⟨"id", .primary, .scalar .string {}, none⟩),
          (mark, ⟨mark, .plain, .scalar .boolean {}, none⟩),
          ("scores", ⟨"scores", .plain, .array (.scalar .number { optional := true }) {}, none⟩)]
        indexes := [], embedded := false, storable := true } }]

def film : RecordRef := .made 0 filmClass

def noFilms (mark : String) : Client where
  directory := filmClasses mark
  held := ∅
  session := {
    graph := {}
    store := { ref := ⟨0⟩, registry := ⟨0⟩, storables := [("Film", filmClass)] } }

/-- Of an undefined score something is stored that is no number. -/
def newFilm (mark : String) : Command :=
  .create filmClass [("id", .string "m"), (mark, .boolean true), ("scores", .array [.undefined])]

def savedFilm (mark : String) : Client :=
  ((noFilms mark).after (newFilm mark)).after (.save film .all {})

/-- The film is loaded in vain, and deleted in vain while the database does not answer. -/
def films (mark : String) : Client :=
  (((savedFilm mark).after (.load film .all true)).answering false).after (.delete film false)

theorem filmClasses_attributes {mark : String} {P : Attribute → Prop}
    (h : ∀ a ∈ (filmClasses mark).attributes filmClass, P a) (c : ClassRef) :
    ∀ a ∈ (filmClasses mark).attributes c, P a := by
  refine Directory.forall_attributes (fun entry hentry => ?_) c
  simp only [filmClasses, List.mem_toArray, List.mem_singleton] at hentry
  subst hentry
  exact h

theorem filmClasses_lawful {mark : String} (h : mark ≠ "id") (h' : mark ≠ "scores") :
    (filmClasses mark).Lawful := by
  refine Directory.lawful_of_entries ?_ (by simp [filmClasses])
  intro entry hentry
  simp only [filmClasses, List.mem_toArray, List.mem_singleton] at hentry
  subst hentry
  refine ⟨by simp [Fields.Distinct, Fields.keys, h.symm, h'], by simp, ?_, fun _ => rfl⟩
  simp [Definition.attributeList, Fields.values, ClassDeclaration.canIdentify, Role.isIdentifier]

theorem newFilm_given (mark : String) :
    (newFilm mark).Given (filmClasses mark) ∅ := by
  refine ⟨Directory.inherits_declared "Film" Nat.zero_lt_one,
    by simp [Value.Within, Value.records, Value.recordsOfFields, Value.recordsOfItems],
    filmClasses_attributes (fun a ha v hv => ?_) filmClass⟩
  have hthree : (filmClasses mark).attributes filmClass = [_, _, _] := rfl
  rw [hthree] at ha
  simp only [List.mem_cons, List.not_mem_nil, or_false] at ha
  rcases ha with rfl | rfl | rfl <;> rcases hv with hv | hv <;> cases hv

theorem films_tended {mark : String} (h : mark = "seen" ∨ mark = Tree.newTag) :
    (films mark).Tended (insert film ∅) := by
  have hstart : (noFilms mark).Tended ∅ := by
    refine .start (filmClasses_lawful ?_ ?_) (fun registry name c hfound => by cases hfound) ?_ fun _ => rfl
    · rcases h with rfl | rfl <;> decide
    · rcases h with rfl | rfl <;> decide
    · intro name c hc
      obtain ⟨rfl, rfl⟩ := Prod.mk.inj (List.mem_singleton.1 (Fields.mem_of_get? hc))
      exact ⟨rfl, Directory.inherits_declared "Film" Nat.zero_lt_one⟩
  have hprimary : ((noFilms mark).after (newFilm mark)).session.graph.primary? (filmClasses mark) film =
      some ("id", .string "m") := by rcases h with rfl | rfl <;> rfl
  have hcreated : ((noFilms mark).after (newFilm mark)).Tended (insert film ∅) :=
    hstart.create ⟨newFilm_given mark, by rcases h with rfl | rfl <;> rfl, hprimary, nofun, rfl,
      fun q hq => nomatch hq⟩
  have hmem : film ∈ (insert film ∅ : Set RecordRef) := Set.mem_insert film ∅
  have hsave : (Command.save film .all {}).Persists (insert film ∅) := hmem
  have hload : (Command.load film .all true).Persists (insert film ∅) := hmem
  have hdelete : (Command.delete film false).Persists (insert film ∅) := hmem
  exact (((hcreated.persist hsave).persist hload).answer false).persist hdelete

/-- The film stays stored and is not new. -/
theorem isNew_eq_false_iff_stores_films : (films "seen").session.graph.isNew film = false ∧
    (films "seen").session.Stores (filmClasses "seen") film := by
  have htended := isNew_eq_false_iff_stores (films_tended (.inl rfl))
    (filmClasses_attributes (by decide)) (Set.mem_insert film ∅)
  have hunnamed : ∀ a ∈ (filmClasses "seen").attributes filmClass, a.name ≠ Tree.newTag := by decide
  exact ⟨rfl, (htended.2 hunnamed).1 rfl⟩

/-- Where an attribute is named like the mark, the film is stored and new. -/
theorem stored_and_new : (films Tree.newTag).Tended (insert film ∅) ∧
    (filmClasses Tree.newTag).NamesProperly ∧ (films Tree.newTag).session.graph.isNew film = true ∧
      (films Tree.newTag).session.Stores (filmClasses Tree.newTag) film :=
  ⟨films_tended (.inr rfl), filmClasses_attributes (by decide), rfl, rfl, ("id", .string "m"), rfl, _,
    List.mem_of_getElem? (i := 0) rfl, rfl⟩

end Scoring

end Client

end TypedRecords
