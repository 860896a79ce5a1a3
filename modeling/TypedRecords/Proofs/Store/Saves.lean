import TypedRecords.Proofs.Store.Loading

/-! # What a save writes

A save prepares a document and asks the database to write it, and leaves the store as that call does,
whatever it answers; or it fails before, and leaves the store as it was.
-/

namespace TypedRecords

namespace Store

variable {d : Directory} {S : Session} {r : RecordRef} {s : Selector}

theorem store_onRecords {α : Type} {action : Action α} {result : Except Error α} {T : Session}
    (h : onRecords action S = (result, T)) : T.store = S.store :=
  (congrArg (fun run => run.2.store) h).symm

/-- The call of a save that has written something: what it has found, and what it leaves. -/
theorem savingCall_writes {isNew : Bool} {p : Prepared} {collection : String} {db : Database}
    (h : ((savingCall isNew p).run collection db).1 = .ok (.flag true)) :
    (isNew = true ∧ (db.collection collection).position? p.descriptor = none ∧
      ((savingCall isNew p).run collection db).2 = db.put collection { db.collection collection with
        documents := db.documents collection ++ [Value.stripFields p.document] }) ∨
    (isNew = false ∧ ∃ i stored, (db.collection collection).position? p.descriptor = some i ∧
      (db.documents collection)[i]? = some stored ∧
      ((savingCall isNew p).run collection db).2 = db.put collection { db.collection collection with
        documents := (db.documents collection).set i ((Patch.ofDocument p.document).apply stored) }) := by
  cases isNew with
  | true =>
    refine .inl ⟨rfl, ?_⟩
    simp only [savingCall, if_true, Call.run, Call.run.answer] at h ⊢
    rcases hcreate : db.create collection p.descriptor (Value.stripFields p.document) with
      ⟨outcome, after⟩
    rw [hcreate] at h
    obtain rfl : outcome = .ok true := by
      cases outcome <;> cases h
      rfl
    exact Database.create_eq_ok_true hcreate
  | false =>
    refine .inr ⟨rfl, ?_⟩
    simp only [savingCall, Bool.false_eq_true, if_false, Call.run, Call.run.answer] at h ⊢
    rcases hupdate : db.update collection p.descriptor (Patch.ofDocument p.document) with
      ⟨outcome, after⟩
    rw [hupdate] at h
    obtain rfl : outcome = .ok true := by
      cases outcome <;> cases h
      rfl
    exact Database.update_eq_ok_true hupdate

/-- A store after a save, whether it has failed or not: it is as it was, or the document that was
prepared was written. -/
inductive Saves (d : Directory) (r : RecordRef) (s : Selector) (S : Session) (s' : Store) : Prop
  | nothing (store : S.store.Alike s')
  | document {p : Prepared} {g : Graph} (registered : S.store.isRegistered r.cls = true)
    (prepared : prepare d r s S.graph = (.ok p, g))
    (store : Alike { S.store with database := ((savingCall (S.graph.isNew r) p).run
      (S.store.collectionName r.cls) S.store.database).2 } s')

/-- Marking what has been written is about the records alone. -/
theorem store_marked {t : Selector} {result : Except Error (Option RecordRef)} {T : Session}
    (h : (do
      onRecords (Record.mark r false)
      onRecords (Record.setSources d .store r t)
      pure (some r) : StoreAction (Option RecordRef)) S = (result, T)) : T.store = S.store := by
  have hsame : ∀ {α : Type} {action : Action α} {result : Except Error α} {T T' : Session},
      T.store = S.store → onRecords action T = (result, T') → T'.store = S.store :=
    fun hT hrun => (store_onRecords hrun).trans hT
  have hmarked := congrArg Prod.snd h
  subst hmarked
  let P : Session → Prop := fun T => T.store = S.store
  refine Stateful.snd_bind (P := P) (fun e T hmark => hsame rfl hmark) fun _ T hmark => ?_
  have hT : P T := hsame rfl hmark
  exact Stateful.snd_bind (P := P) (fun e T' hsources => hsame hT hsources)
    fun _ T' hsources => hsame hT hsources

theorem saveRecord_saves (expected : Expectation) :
    Saves d r s S (saveRecord d r s expected S).2.store := by
  have hruns := saveRecord_runs d r s expected S
  generalize (saveRecord d r s expected S).1 = result, (saveRecord d r s expected S).2 = T at hruns ⊢
  have hwritten : ∀ {p : Prepared} {g : Graph} {called : Except Error Bool} {T' : Session},
      callSaving r.cls (S.store.collectionName r.cls) (savingCall (S.graph.isNew r) p)
        { S with graph := g } = (called, T') → Alike { S.store with
          database := ((savingCall (S.graph.isNew r) p).run (S.store.collectionName r.cls)
            S.store.database).2 } T'.store := by
    intro p g called T' hcall
    obtain ⟨-, ⟨journal, hstore⟩, -⟩ := callSaving_eq hcall
    exact ⟨S.store.trace, journal, hstore⟩
  cases hruns with
  | refused => exact .nothing (.refl S.store)
  | unprepared => exact .nothing (.refl S.store)
  | failed registered prepared call => exact .document registered prepared (hwritten call)
  | unwritten registered prepared call => exact .document registered prepared (hwritten call)
  | written registered prepared call marked =>
    rw [store_marked marked]
    exact .document registered prepared (hwritten call)

theorem save_saves (expected : Expectation) : Saves d r s S (save d r s expected S).2.store := by
  rcases hrun : save d r s expected S with ⟨result, T⟩
  unfold save at hrun
  obtain ⟨T₁, hsave, -, trace, hstore⟩ := tracing_eq hrun
  have halike : T₁.store.Alike T.store := ⟨trace, T₁.store.journal, hstore⟩
  have hsaves : Saves d r s S T₁.store := by
    have hsaves := saveRecord_saves (d := d) (r := r) (s := s) (S := S) expected
    rwa [hsave] at hsaves
  cases hsaves with
  | nothing hquiet => exact .nothing (hquiet.trans halike)
  | document hregistered hprepare hwritten =>
    exact .document hregistered hprepare (hwritten.trans halike)

end Store

end TypedRecords
