import TypedRecords.Proofs.Database.Uniqueness

/-! # All or nothing

A call that fails or finds nothing to change leaves no trace, although a creation makes its collection
before it looks for clashes, and a migration installs its indexes before it checks the documents. A
migration that succeeds writes no document, and there is nothing left to migrate then.
-/

namespace TypedRecords

namespace Database

variable {db after : Database} {name : String}

/-! ### Migrations -/

/-- What a migration from a collection to a list of indexes reports. -/
def changes (name : String) (c : Collection) (indexes : List Index) : Migration where
  collection := name
  created := (indexes.map Index.name).filter fun n => !(c.indexes.map Index.name).contains n
  dropped := (c.indexes.map Index.name).filter fun n => !(indexes.map Index.name).contains n

/-- There is nothing to change when the indexes are installed already. -/
theorem changes_self (name : String) (c : Collection) :
    changes name c c.indexes = { collection := name, created := [], dropped := [] } := by
  have hnone : (c.indexes.map Index.name).filter
      (fun n => !(c.indexes.map Index.name).contains n) = [] := by
    refine List.filter_eq_nil_iff.2 fun n hn => ?_
    simpa using hn
  rw [changes, hnone]

/-- The documents allow the indexes. -/
theorem migrate_of_check {indexes : List Index} (havailable : db.available = true)
    (hcheck : checkAll name ⟨db.documents name, indexes⟩ = .ok ()) :
    db.migrate name indexes =
      (.ok (changes name (db.collection name) indexes), db.put name ⟨db.documents name, indexes⟩) := by
  rw [migrate_eq]
  unfold whenAvailable
  rw [if_pos havailable]
  dsimp only [documents] at hcheck ⊢
  rw [hcheck]
  rfl

theorem migrate_eq_ok {indexes : List Index} {m : Migration}
    (h : db.migrate name indexes = (.ok m, after)) :
    db.available = true ∧ checkAll name ⟨db.documents name, indexes⟩ = .ok () ∧
      m = changes name (db.collection name) indexes ∧
      after = db.put name ⟨db.documents name, indexes⟩ := by
  rw [migrate_eq] at h
  obtain ⟨checked, hcheck, hpure⟩ := bind_eq_ok (whenAvailable_eq_ok h)
  cases hpure
  exact ⟨available_of_whenAvailable h, hcheck, rfl, rfl⟩

/-- The same migration once more. -/
theorem migrate_again {indexes : List Index} {m : Migration}
    (h : db.migrate name indexes = (.ok m, after)) :
    after.migrate name indexes =
      (.ok { collection := name, created := [], dropped := [] }, after) := by
  obtain ⟨havailable, hcheck, -, rfl⟩ := migrate_eq_ok h
  have hnow := collection_put_self db name ⟨db.documents name, indexes⟩
  have hdocuments : (db.put name ⟨db.documents name, indexes⟩).documents name =
      db.documents name := by
    rw [documents, hnow]
  have hagain : (db.put name ⟨db.documents name, indexes⟩).available = true := havailable
  rw [migrate_of_check hagain (by rw [hdocuments]; exact hcheck), hdocuments, hnow,
    changes_self name ⟨db.documents name, indexes⟩, put_put]

end Database

/-! ### Answers -/

/-- The call was refused, or found nothing to change. -/
def Call.Failed (answer : Except Error Answer) : Prop :=
  (∃ e, answer = .error e) ∨ answer = .ok (.flag false)

theorem Call.answer_eq_error {α : Type} {f : α → Answer} {result : Except Error α × Database}
    {e : Error} (h : (Call.run.answer f result).1 = .error e) : result.1 = .error e := by
  obtain ⟨_ | a, after⟩ := result
  · cases h
    rfl
  · cases h

theorem Call.answer_eq_ok {α : Type} {f : α → Answer} {result : Except Error α × Database}
    {answer : Answer} (h : (Call.run.answer f result).1 = .ok answer) :
    ∃ a, result.1 = .ok a ∧ answer = f a := by
  obtain ⟨_ | a, after⟩ := result
  · cases h
  · cases h
    exact ⟨a, rfl, rfl⟩

/-- A call that fails or finds nothing to change leaves the database as it was. -/
theorem Call.run_failed {call : Call} {name : String} {db : Database}
    (h : Call.Failed (call.run name db).1) : (call.run name db).2 = db := by
  rcases h with ⟨e, herror⟩ | hnothing
  · cases call with
    | create descriptor document =>
      exact Database.create_eq_error (Prod.ext (answer_eq_error herror) rfl)
    | migrate indexes silent =>
      have hmigrate := answer_eq_error herror
      simp only [run, run.answer, Database.migrate_eq] at hmigrate ⊢
      exact Database.eq_of_whenAvailable_error (Prod.ext hmigrate rfl)
    | read _ _ | update _ _ | delete _ | find _ | count _ =>
      exact Database.eq_of_whenAvailable_error (Prod.ext (answer_eq_error herror) rfl)
  · cases call with
    | create descriptor document =>
      obtain ⟨b, hcreate, hb⟩ := answer_eq_ok hnothing
      cases hb
      exact Database.create_eq_ok_false (Prod.ext hcreate rfl)
    | update descriptor patch =>
      obtain ⟨b, hupdate, hb⟩ := answer_eq_ok hnothing
      cases hb
      exact Database.update_eq_ok_false (Prod.ext hupdate rfl)
    | delete descriptor =>
      obtain ⟨b, hdelete, hb⟩ := answer_eq_ok hnothing
      cases hb
      exact Database.delete_eq_ok_false (Prod.ext hdelete rfl)
    -- The others do not answer by a flag.
    | read _ _ | find _ | count _ | migrate _ _ =>
      obtain ⟨_, -, hb⟩ := answer_eq_ok hnothing
      cases hb

namespace Database

/-- What the calls among some events answer, one after the other. -/
def answers (db : Database) : List Event → List (Except Error Answer)
  | [] => []
  | .call name call :: rest => (call.run name db).1 :: answers (db.step (.call name call)) rest
  | .outage begins :: rest => answers (db.step (.outage begins)) rest

/-- A migration that succeeded. -/
structure Migrated (db : Database) (name : String) (indexes : List Index) (m : Migration)
    (after : Database) : Prop where
  documents : ∀ other, after.documents other = db.documents other
  installed : (after.collection name).indexes = indexes
  others : ∀ other ≠ name, after.collection other = db.collection other
  collection : m.collection = name
  created : m.created =
    (indexes.map Index.name).filter fun n => !(db.indexNames name).contains n
  dropped : m.dropped =
    (db.indexNames name).filter fun n => !(indexes.map Index.name).contains n

theorem migrated {indexes : List Index} {m : Migration}
    (h : db.migrate name indexes = (.ok m, after)) : Migrated db name indexes m after := by
  obtain ⟨-, -, rfl, rfl⟩ := migrate_eq_ok h
  refine { documents := ?_, installed := ?_, others := ?_, collection := rfl, created := rfl,
           dropped := rfl }
  · intro other
    by_cases hother : other = name
    · subst hother
      rw [Database.documents, collection_put_self]
    · exact congrArg Collection.documents (collection_put_of_ne db hother _)
  · rw [collection_put_self]
  · exact fun other hother => collection_put_of_ne db hother _

/-- A call that fails or finds nothing to change is as if it had not been made, for all that comes
later. A migration that succeeds writes the indexes and no more, reports by name what is new and what is
gone, and has nothing to report when it is made again. -/
theorem calls_atomic (db : Database) (name : String) (call : Call) :
    (Call.Failed (call.run name db).1 →
        ∀ later, answers (call.run name db).2 later = answers db later) ∧
      ∀ indexes silent m, call = .migrate indexes silent →
        (call.run name db).1 = .ok (.migration m) →
          Migrated db name indexes m (call.run name db).2 ∧
          ∀ silent', (Call.migrate indexes silent').run name (call.run name db).2 =
            (.ok (.migration { collection := name, created := [], dropped := [] }),
              (call.run name db).2) := by
  refine ⟨fun hfailed later => by rw [Call.run_failed hfailed], ?_⟩
  rintro indexes silent m rfl hok
  obtain ⟨m', hmigrate, hm⟩ := Call.answer_eq_ok hok
  cases hm
  have hrun : db.migrate name indexes = (.ok m, (db.migrate name indexes).2) := Prod.ext hmigrate rfl
  refine ⟨migrated hrun, fun silent' => ?_⟩
  simp only [Call.run, Call.run.answer, migrate_again hrun]
  rfl

theorem calls_atomic_twoGuests :
    (∀ later, answers
        ((Call.create [("id", .string "a")] [("id", .string "a")]).run "guests" (run twoGuests)).2
        later = answers (run twoGuests) later) ∧
      Migrated (run twoGuests) "guests" [{ paths := [("id", .asc)], unique := true }]
        { collection := "guests", created := ["id:asc"], dropped := ["address:asc"] }
        ((Call.migrate [{ paths := [("id", .asc)], unique := true }] true).run "guests"
          (run twoGuests)).2 :=
  ⟨(calls_atomic (run twoGuests) "guests"
      (.create [("id", .string "a")] [("id", .string "a")])).1 (.inr rfl),
    ((calls_atomic (run twoGuests) "guests" _).2 _ _ _ rfl rfl).1⟩

end Database

end TypedRecords
