import TypedRecords.Proofs.Store.Kept

/-! # Plain documents

A store whose documents hold no record, no class and nothing undefined. Whatever is loaded from it, it
brings no records, and what is saved there is as plain.
-/

namespace TypedRecords

open Stateful (KeepsIn)

variable {d : Directory} {known : Set RecordRef} {r : RecordRef}

namespace Store

/-- No document holds a record, a class or anything undefined. -/
def Concrete (s : Store) : Prop :=
  ∀ name, ∀ document ∈ s.database.documents name, (Value.object document).Concrete

variable {s : Store} {p : Prepared}

/-- What is stored after the call of a save was there before, was created, or was patched. -/
theorem mem_documents_saved {db : Database} {collection name : String} {isNew : Bool}
    {document : Document}
    (h : document ∈ ((savingCall isNew p).run collection db).2.documents name) :
    document ∈ db.documents name ∨ document = Value.stripFields p.document ∨
      ∃ stored ∈ db.documents name, document = (Patch.ofDocument p.document).apply stored := by
  cases isNew with
  | true =>
    simp only [savingCall, if_true, Call.run, Call.run.answer] at h
    rcases hcreate : db.create collection p.descriptor (Value.stripFields p.document) with ⟨_, after⟩
    rw [hcreate] at h
    rcases Database.create_cases hcreate with rfl | ⟨-, rfl⟩
    · exact .inl h
    · by_cases hname : name = collection
      · subst hname
        rw [Database.documents, Database.collection_put_self] at h
        rcases List.mem_append.1 h with h | h
        · exact .inl h
        · exact .inr (.inl (List.mem_singleton.1 h))
      · rw [Database.documents, Database.collection_put_of_ne _ hname] at h
        exact .inl h
  | false =>
    simp only [savingCall, Bool.false_eq_true, if_false, Call.run, Call.run.answer] at h
    rcases hupdate : db.update collection p.descriptor (Patch.ofDocument p.document) with ⟨_, after⟩
    rw [hupdate] at h
    rcases Database.update_cases hupdate with rfl | ⟨i, stored, -, hstored, rfl⟩
    · exact .inl h
    · by_cases hname : name = collection
      · subst hname
        rw [Database.documents, Database.collection_put_self] at h
        rcases List.mem_or_eq_of_mem_set h with h | rfl
        · exact .inl h
        · exact .inr (.inr ⟨stored, List.mem_of_getElem? hstored, rfl⟩)
      · rw [Database.documents, Database.collection_put_of_ne _ hname] at h
        exact .inl h

theorem Concrete.saved (h : s.Concrete) (hp : ∀ entry ∈ p.document, entry.2.hasReferences = false)
    (isNew : Bool) (collection : String) :
    ({ s with database := ((savingCall isNew p).run collection s.database).2 } : Store).Concrete := by
  intro name document hdocument
  rcases mem_documents_saved hdocument with hbefore | rfl | ⟨stored, hstored, rfl⟩
  · exact h name document hbefore
  · exact Value.concrete_stripFields hp
  · exact Patch.concrete_apply_ofDocument hp (h name stored hstored)

theorem Concrete.alike {s' : Store} (h : s.Concrete) (hs : s.Alike s') : s'.Concrete := by
  obtain ⟨trace, journal, rfl⟩ := hs
  exact h

theorem concrete_allowsLoading (hcoherent : d.Coherent) :
    AllowsLoading d d.Inherits (fun call => call.adds = false) (fun _ s => s.Concrete) where
  call _ s collection _ _ hcall h name document hdocument :=
    h name document ((Call.documents_run hcall collection s.database name).subset hdocument)
  trace _ _ _ h := h
  mono _ _ _ _ h := h
  read _ _ := rfl
  within known _ name h document hdocument := (h name document hdocument).within known
  found := hcoherent

/-- A save keeps documents plain if identifiers are keys. -/
theorem keepsIn_save_concrete {A : RecordRef → String → Value → Prop} {C : ClassRef → Prop}
    {I : Set RecordRef → Graph → Prop} (hI : AllowsWriting d A C I)
    (hA : ∀ r name v, A r name v → IdentifierKey d r name v) (hr : r ∈ known) (s : Selector)
    (expected : Expectation) :
    KeepsIn (Holding I fun _ s => s.Concrete) known (save d r s expected) fun _ _ => True := by
  refine keepsIn_save_of hI (fun _ _ hs => .alike hs) (fun hg hs hr _ hprepared isNew => ?_) hr s expected
  exact hs.saved (hI.prepare_plain hA hg hr hprepared) isNew _

end Store

end TypedRecords
