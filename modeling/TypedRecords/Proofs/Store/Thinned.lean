import TypedRecords.Proofs.Store.Loading
import TypedRecords.Proofs.Store.Working

/-! # Operations that write no document

Loading, finding, counting, deleting and migrating leave only documents in a store that were there, in
their order, whether they fail or not.
-/

namespace TypedRecords

open Stateful (KeepsIn)

namespace Store

/-- A store after operations that write no document. -/
def Thinned (s s' : Store) : Prop :=
  ∃ database trace journal, s' = { s with database, trace, journal } ∧
    ∀ name, (database.documents name).Sublist (s.database.documents name)

theorem Thinned.refl (s : Store) : Thinned s s :=
  ⟨s.database, s.trace, s.journal, rfl, fun _ => .refl _⟩

theorem Legible.thinned {d : Directory} {checked : Prop} {s s' : Store} (h : s.Legible d checked)
    (hs : Thinned s s') : s'.Legible d checked := by
  obtain ⟨database, trace, journal, rfl, hdocuments⟩ := hs
  exact (h.of_subset fun name => (hdocuments name).subset).alike ⟨trace, journal, rfl⟩

section

variable {d : Directory} {s : Store} {α : Type}

/-- Graphs of which nothing is asked: every record is known. -/
def Anywhere (known : Set RecordRef) (_ : Graph) : Prop := known = Set.univ

/-- Stores that have come from one without writing a document. -/
def From (s : Store) (known : Set RecordRef) (s' : Store) : Prop := known = Set.univ ∧ Thinned s s'

theorem anywhere_allowsWriting (d : Directory) :
    AllowsWriting d (fun _ _ _ => True) (fun _ => True) Anywhere where
  slot known r name g _ hg := by
    refine ⟨known, subset_rfl, hg, fun slot _ r _ => ?_⟩
    exact hg ▸ Set.mem_univ r
  resolving _ _ _ _ _ hg := hg
  accepted _ _ _ _ _ _ := trivial
  present _ _ _ _ _ _ _ _ := trivial
  write _ _ _ _ _ _ _ _ _ hg := hg
  unset _ _ _ _ _ hg := hg
  mark _ _ _ _ _ hg := hg
  instantiate _ _ _ _ _ hg := hg ▸ Set.insert_eq_of_mem (Set.mem_univ _)
  given _ _ _ hg := hg

theorem from_allowsLoading (d : Directory) (s : Store) :
    AllowsLoading d (fun _ => True) (fun c => c.adds = false) (From s) where
  call known s' collection c journal hc := by
    rintro ⟨hknown, database, trace, journal', rfl, hdocuments⟩
    exact ⟨hknown, _, trace, journal, rfl, fun name =>
      (Call.documents_run hc collection database name).trans (hdocuments name)⟩
  trace known s' trace := by
    rintro ⟨hknown, database, -, journal, rfl, hdocuments⟩
    exact ⟨hknown, database, trace, journal, rfl, hdocuments⟩
  mono known after s' hafter := by
    rintro ⟨rfl, hs⟩
    exact ⟨Set.univ_subset_iff.1 hafter, hs⟩
  read _ _ := rfl
  within known s' name hs document _ r _ := hs.1 ▸ Set.mem_univ r
  found _ _ _ _ := trivial

theorem thinned_of_keepsIn {action : StoreAction α} {Q : Set RecordRef → α → Prop} {S : Session}
    (h : KeepsIn (Holding Anywhere (From S.store)) Set.univ action Q) :
    Thinned S.store (action S).2.store := by
  obtain ⟨_, _, hafter, -⟩ := h Set.univ subset_rfl S ⟨rfl, rfl, .refl S.store⟩
  exact hafter.2.2

theorem thinned_load (r : RecordRef) (sel : Selector) (throwIfMissing : Bool) (S : Session) :
    Thinned S.store (load d r sel throwIfMissing S).2.store :=
  thinned_of_keepsIn (keepsIn_load (anywhere_allowsWriting d) (from_allowsLoading d S.store)
    (Set.mem_univ r) sel throwIfMissing)

theorem thinned_find (hd : d.Lawful) (c : ClassRef) (query : Value) (options : FindOptions)
    (S : Session) : Thinned S.store (find d c query options S).2.store :=
  thinned_of_keepsIn (keepsIn_find (anywhere_allowsWriting d) (from_allowsLoading d S.store) hd
    (fun _ => rfl) trivial (fun r _ => Set.mem_univ r) options)

theorem thinned_count (c : ClassRef) (query : Value) (S : Session) :
    Thinned S.store (count d c query S).2.store :=
  thinned_of_keepsIn (keepsIn_count (anywhere_allowsWriting d)
    (from_allowsLoading d S.store).toAllowsCalls (fun _ => rfl) c fun r _ => Set.mem_univ r)

theorem thinned_delete (r : RecordRef) (throwIfMissing : Bool) (S : Session) :
    Thinned S.store (delete d r throwIfMissing S).2.store :=
  thinned_of_keepsIn (keepsIn_delete (anywhere_allowsWriting d)
    (from_allowsLoading d S.store).toAllowsCalls (fun _ => rfl) (Set.mem_univ r) throwIfMissing)

theorem thinned_migrate (S : Session) : Thinned S.store (migrate d S).2.store :=
  thinned_of_keepsIn (keepsIn_migrate (I := Anywhere) (from_allowsLoading d S.store).toAllowsCalls
    fun _ _ => rfl)

end

end Store

end TypedRecords
