import TypedRecords.Proofs.Client
import TypedRecords.Proofs.Record.Accepting
import TypedRecords.Proofs.Store.Plain

/-! # Programs that keep records within their classes

A program makes, writes, reads, decodes, loads, saves and finds records, and forks them within their
classes, while the stores that it works with change as they like. Whatever it reads of a record then was
accepted by the type of the attribute, or was left undefined.
-/

namespace TypedRecords

open Stateful (KeepsIn)

variable {d : Directory} {known : Set RecordRef} {r : RecordRef}

/-! ### Commands -/

namespace Command

/-- Whether a command forks a record into another class than its own. -/
def recasts : Command → Bool
  | forkInto _ _ => true
  | _ => false

/-- Every command that recasts nothing keeps what records hold accepted. -/
theorem keeps_run_accepting {held : Set RecordRef} (hd : d.Lawful) (hcoherent : d.Coherent)
    {command : Command} (hgiven : command.Given d held) (hsame : command.recasts = false) :
    KeepsIn (Store.Holding (fun known g => g.Accepting d known) fun _ s => s.Concrete) held
      (command.run d) fun after rs => ∀ r ∈ rs, r ∈ after :=
  keeps_run_of hd (Graph.accepting_allowsWriting d d.Inherits)
    (Store.concrete_allowsLoading hcoherent) (fun _ hadds _ => hadds)
    (fun _ hr => Graph.Accepting.keeps_fork hr)
    (fun _ _ _ _ hrecasts => by
      subst hrecasts
      cases hsame)
    (fun _ hr s expected => Store.keepsIn_save_concrete (Graph.accepting_allowsWriting d d.Inherits)
      (fun _ _ _ haccepted => haccepted.identifierKey hd) hr s expected)
    (Store.keepsIn_migrate (Store.concrete_allowsLoading hcoherent).toAllowsCalls fun _ _ => rfl) hgiven

end Command

/-! ### Programs -/

namespace Client

/-- A program that has started with no record and has recast none since. Between its commands, which may
have failed, other stores may have come in the place of its store, with any documents. -/
inductive Unrecast : Client → Prop
  | start {d : Directory} {S : Session} (lawful : d.Lawful) (coherent : d.Coherent)
    (documents : S.store.Concrete) : Unrecast ⟨d, ∅, S⟩
  | run {k : Client} (before : Unrecast k) (command : Command)
    (given : command.Given k.directory k.held) (same : command.recasts = false) :
    Unrecast (k.after command)
  | turn {k : Client} (before : Unrecast k) (s : Store) (documents : s.Concrete) :
    Unrecast { k with session := { k.session with store := s } }

variable {k : Client}

theorem Unrecast.accepting (h : k.Unrecast) : k.directory.Lawful ∧ k.directory.Coherent ∧
    ∃ known, k.held ⊆ known ∧ k.session.graph.Accepting k.directory known ∧
      k.session.store.Concrete := by
  induction h with
  | @start d S lawful coherent documents =>
    exact ⟨lawful, coherent, ∅, subset_rfl, .empty d S.graph, documents⟩
  | @run k _ command given same ih =>
    obtain ⟨hd, hcoherent, known, hheld, hg, hs⟩ := ih
    obtain ⟨after, hafter, hholding, hresult⟩ :=
      Command.keeps_run_accepting hd hcoherent given same known hheld k.session ⟨hg, hs⟩
    refine ⟨hd, hcoherent, after, Set.union_subset (hheld.trans hafter) ?_, hholding⟩
    rintro r ⟨rs, hrs, hr⟩
    exact hresult rs hrs r hr
  | turn _ s documents ih =>
    obtain ⟨hd, hcoherent, known, hheld, hg, -⟩ := ih
    exact ⟨hd, hcoherent, known, hheld, hg, documents⟩

/-- What is read of a record is accepted by the type of the attribute, or undefined. -/
theorem read_accepted (h : k.Unrecast) (hr : r ∈ k.held) {name : String} {a : Attribute}
    (ha : (k.directory.definition r.cls).attribute? name = some a) {v : Value}
    (hv : (r.value? name k.session.graph).1 = some v) :
    a.type.check (k.directory.site r.cls name) v = .ok () ∨ v = .undefined := by
  obtain ⟨-, -, known, hheld, hg, -⟩ := h.accepting
  obtain ⟨slot, hslot, rfl⟩ := Option.map_eq_some_iff.1 hv
  exact (hg.read (hheld hr) hslot a ha).symm

/-! ### An example: the fork of a film -/

open Drafted (film filmClass filmClasses filmClasses_initial filmClasses_lawful shortFilmClass)

def noFilms : Client where
  directory := filmClasses
  held := ∅
  session := { graph := {}, store := { ref := ⟨0⟩, registry := ⟨0⟩ } }

/-- A film, one of which it is the sequel, and a fork of that one, of which the sequel was read. -/
def forkedFilm : Client :=
  (((noFilms.after (.create filmClass [("title", .string "Aliens")])).after
    (.create filmClass [("sequel", .record (film 0)), ("kind", .classRef shortFilmClass)])).after
    (.fork (film 1))).after (.read (.fork 2 filmClass (film 1)) "sequel")

theorem filmClasses_coherent : filmClasses.Coherent :=
  Directory.coherent_of_members (by decide)

theorem forkedFilm_unrecast : forkedFilm.Unrecast ∧ .fork 2 filmClass (film 1) ∈ forkedFilm.held := by
  have hcls : filmClasses.Inherits filmClass := Directory.inherits_declared "Film" Nat.two_pos
  have hstart : noFilms.Unrecast :=
    .start filmClasses_lawful filmClasses_coherent fun name document h => by cases h
  have hsequel := hstart.run (.create filmClass [("title", .string "Aliens")])
    ⟨hcls, (fun r hr => by cases hr), filmClasses_initial⟩ rfl
  have hfilm := hsequel.run
    (.create filmClass [("sequel", .record (film 0)), ("kind", .classRef shortFilmClass)])
    ⟨hcls, (fun r hr => .inr ⟨_, rfl, hr⟩), filmClasses_initial⟩ rfl
  have hfork := hfilm.run (.fork (film 1)) (.inr ⟨_, rfl, List.mem_singleton.2 rfl⟩) rfl
  have hread := hfork.run (.read (.fork 2 filmClass (film 1)) "sequel")
    (.inr ⟨_, rfl, List.mem_singleton.2 rfl⟩) rfl
  exact ⟨hread, .inl (.inr ⟨_, rfl, List.mem_singleton.2 rfl⟩)⟩

/-- The sequel of the fork is a fork of the sequel, and is accepted as that was. -/
theorem read_accepted_films :
    let sequel : Value := .record (.fork 3 filmClass (film 0))
    (RecordRef.value? (.fork 2 filmClass (film 1)) "sequel" forkedFilm.session.graph).1 = some sequel ∧
      (ValueType.check (filmClasses.site filmClass "sequel") (.reference "Film" false { optional := true })
        sequel = .ok () ∨ sequel = .undefined) :=
  ⟨rfl, read_accepted forkedFilm_unrecast.1 forkedFilm_unrecast.2
    (a := ⟨"sequel", .plain, .reference "Film" false { optional := true }, none⟩) rfl rfl⟩

end Client

end TypedRecords
