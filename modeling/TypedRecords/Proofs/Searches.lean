import TypedRecords.Proofs.Client
import TypedRecords.Proofs.Database.Arranged
import TypedRecords.Proofs.Store.Found

/-! # Searches of programs

Whatever a program did before, a search gives a record for each document that it found, which has the
identifiers of the document: unless it loads more by an identifier that several documents have. No document
that was found is missing when more of it is loaded.
-/

namespace TypedRecords

namespace Database

variable (db : Database) (name : String) (search : Search)

/-- Whether the database answers depends on the expressions only. -/
theorem find_of_error {e : Error} (h : (db.find name { expressions := search.expressions }).1 = .error e) :
    db.find name search = (.error e, db) := by
  unfold find whenAvailable at h ⊢
  cases havailable : db.available with
  | false =>
    simp only [havailable, Bool.false_eq_true, if_false] at h ⊢
    rw [Except.error.inj h]
  | true =>
    simp only [havailable, if_true] at h ⊢
    cases hselect : (db.collection name).select search.expressions with
    | error e' =>
      rw [hselect] at h
      cases h
      rfl
    | ok matching =>
      rw [hselect] at h
      cases h

theorem find_of_ok {documents : List Document}
    (h : (db.find name { expressions := search.expressions }).1 = .ok documents) :
    db.find name search = (.ok ((Collection.page search.skip search.limit (Collection.sortBy search.sort
      ((db.documents name).filter (Collection.meets search.expressions)))).map
        fun document => Document.project document search.projection), db) := by
  unfold find whenAvailable at h ⊢
  cases havailable : db.available with
  | false =>
    rw [havailable] at h
    cases h
  | true =>
    simp only [havailable, if_true] at h ⊢
    cases hselect : (db.collection name).select search.expressions with
    | error e =>
      rw [hselect] at h
      cases h
    | ok matching =>
      rw [Collection.select_eq_ok hselect]
      rfl

/-- A query that was accepted does not make the database fail with an error of stores. -/
theorem find_ne_fault {query : Value} (hquery : Query.compile query = .ok search.expressions)
    (fault : StoreFault) : (db.find name search).1 ≠ .error (.store fault) := by
  intro h
  unfold find whenAvailable at h
  cases havailable : db.available with
  | false =>
    rw [havailable] at h
    cases h
  | true =>
    rw [havailable] at h
    have hselect := Collection.select_answers hquery (db.collection name)
    rcases hselect with ⟨matching, hok⟩ | ⟨herror, -⟩
    · rw [hok] at h
      cases h
    · rw [herror] at h
      cases h

end Database

namespace Store

variable {d : Directory} {c : ClassRef} {es : List Expression} {query : Value} {options : FindOptions}
  {S : Session}

/-- The documents that meet a query, in the order that was asked for, of one page. -/
def foundDocuments (s : Store) (c : ClassRef) (es : List Expression) (options : FindOptions) :
    List Document :=
  Collection.page options.skip options.limit (Collection.sortBy options.sort
    ((s.database.documents (s.collectionName c)).filter (Collection.meets es)))

/-- The answer of the database to a query, whatever is done with it. -/
def answers (s : Store) (c : ClassRef) (es : List Expression) : Except Error (List Document) :=
  (s.database.find (s.collectionName c) { expressions := es }).1

/-- What the database is asked for: of the documents that meet a query, the identifiers. -/
def identifierSearch (d : Directory) (c : ClassRef) (es : List Expression) (options : FindOptions) :
    Search where
  expressions := es
  projection := Projection.ofSelector? (d.definition c).identifierSelector
  sort := options.sort
  skip := options.skip
  limit := options.limit

theorem mem_of_mem_foundDocuments {s : Store} {document : Document}
    (h : document ∈ s.foundDocuments c es options) :
    document ∈ s.database.documents (s.collectionName c) := by
  have hrest : document ∈ (Collection.sortBy options.sort
      ((s.database.documents (s.collectionName c)).filter (Collection.meets es))).drop
        (options.skip.getD 0) := by
    unfold foundDocuments Collection.page at h
    split at h
    · exact List.mem_of_mem_take h
    · exact h
  have hsorted := List.mem_of_mem_drop hrest
  rw [Collection.sortBy, List.mem_mergeSort] at hsorted
  exact List.mem_of_mem_filter hsorted

theorem compileQuery_eq_ok (h : (compileQuery d query S).1 = .ok es) :
    ∃ v g, compileQuery d query S = (.ok es, { S with graph := g }) ∧ Query.compile v = .ok es := by
  unfold compileQuery at h ⊢
  rcases hencode : onRecords (Record.encode d .store .all query) S with ⟨encoded, S₁⟩
  obtain ⟨g, -, rfl⟩ := onRecords_eq hencode
  cases encoded with
  | error e =>
    rw [Stateful.bind_of_error hencode] at h
    cases h
  | ok v =>
    rw [Stateful.bind_of_ok hencode] at h ⊢
    cases hcompile : Query.compile v with
    | error e =>
      rw [hcompile] at h
      cases h
    | ok compiled =>
      rw [hcompile] at h
      cases h
      exact ⟨v, g, rfl, hcompile⟩

/-- A search for a compiled query fails if the database does, or makes records of the documents. -/
theorem findRecords_cases (options : FindOptions) (hregistered : S.store.isRegistered c = true)
    (hcompiled : (compileQuery d query S).1 = .ok es) : ∃ T, S.store.Alike T.store ∧
      ((∃ e, S.store.answers c es = .error e ∧ findRecords d c query options S = (.error e, T) ∧
          ∀ fault, e ≠ .store fault) ∨
        (∃ documents, S.store.answers c es = .ok documents) ∧
          findRecords d c query options S = ((S.store.foundDocuments c es options).map
            (projected d c)).mapM (foundRecord d c options.selector) T) := by
  obtain ⟨v, g, hrun, hv⟩ := compileQuery_eq_ok hcompiled
  have hrequire : check (S.store.requireRegistered c) S = (.ok (), S) := by
    rw [requireRegistered, if_pos hregistered]
    rfl
  have hget : ∀ T : Session, (MonadState.get : StoreAction Session) T = (.ok T, T) := fun _ => rfl
  rw [findRecords, Stateful.bind_of_ok (hget S), Stateful.bind_of_ok hrequire,
    Stateful.bind_of_ok hrun, Stateful.bind_of_ok (hget _)]
  rcases hcall : call (S.store.collectionName c) (.find (identifierSearch d c es options))
    { S with graph := g } with ⟨answer, T⟩
  obtain ⟨hanswer, -, journal, hstore⟩ := call_eq hcall
  simp only [Call.run, Call.run.answer] at hanswer hstore
  rw [identifierSearch] at hcall
  cases hfound : S.store.answers c es with
  | error e =>
    have hfind := Database.find_of_error _ _ (identifierSearch d c es options) hfound
    have hother := Database.find_ne_fault S.store.database (S.store.collectionName c)
      (identifierSearch d c es options) hv
    rw [hfind] at hanswer hstore hother
    subst hanswer
    rw [Stateful.bind_of_error hcall]
    exact ⟨T, ⟨_, journal, hstore⟩, .inl ⟨e, rfl, rfl, fun fault heq => hother fault (by rw [heq])⟩⟩
  | ok documents =>
    have hfind := Database.find_of_ok _ _ (identifierSearch d c es options) hfound
    rw [hfind] at hanswer hstore
    subst hanswer
    rw [Stateful.bind_of_ok hcall]
    exact ⟨T, ⟨_, journal, hstore⟩, .inr ⟨⟨documents, rfl⟩, rfl⟩⟩

theorem find_eq {result : Except Error (List RecordRef)} {S' : Session}
    (h : find d c query options S = (result, S')) :
    ∃ T, findRecords d c query options S = (result, T) ∧ S'.graph = T.graph := by
  unfold find at h
  obtain ⟨T, hfind, hgraph, -⟩ := tracing_eq h
  exact ⟨T, hfind, hgraph⟩

end Store

namespace Client

variable {k : Client} {c : ClassRef} {query : Value} {es : List Expression}

/-- Searches for guests, and loads all of them. -/
def guestSearch (k : Client) (query : Value) : Except Error (List RecordRef) × Session :=
  Store.find k.directory guestClass query { selector := .all } k.session

/-- The identifiers of guests are not sanitized. -/
theorem guest_findable {document : Document} (h : ∀ entry ∈ document, entry.2.beq entry.2 = true) :
    document.Findable (guestClasses "id") guestClass := by
  intro a ha v hv
  refine ⟨?_, h _ (Fields.mem_of_get? hv)⟩
  have hidentifiers : ((guestClasses "id").definition guestClass).identifiers = [_, _] := rfl
  rw [hidentifiers] at ha
  rcases List.mem_pair.1 ha with rfl | rfl <;> rfl

/-- Gets a guest without an identifier, and another who takes over its address. -/
def share (k : Client) : Client :=
  let one := k.welcome (newGuest "id" "Guest" "a") 0
  let two := ((one.after (newGuest "id" "Other" "b")).after (.unset (guest 1) "id")).after
    (.save (guest 1) .all {})
  (two.after (.set (guest 0) "email" (.string "b"))).after (.save (guest 0) .all {})

def sharing : Client := (noGuests "id").share

theorem sharing_reached : sharing.Reached := by
  have hone : ((noGuests "id").welcome (newGuest "id" "Guest" "a") 0).Reached :=
    (noGuests_reached (by decide)).welcome (newGuest_given "id" "Guest" "a" ∅) rfl
  have hmade := hone.step (.run (newGuest "id" "Other" "b") (newGuest_given "id" "Other" "b" _))
  have hunset := hmade.step (.run (.unset (guest 1) "id") (Or.inr ⟨_, rfl, List.mem_singleton.2 rfl⟩))
  have htwo := hunset.step
    (.run (.save (guest 1) .all {}) (Or.inl (Or.inr ⟨_, rfl, List.mem_singleton.2 rfl⟩)))
  have hheld : guest 0 ∈ ((noGuests "id").welcome (newGuest "id" "Guest" "a") 0).held :=
    Or.inl (Or.inr ⟨_, rfl, List.mem_singleton.2 rfl⟩)
  have hset := htwo.step (.run (.set (guest 0) "email" (.string "b"))
    ⟨Or.inl (Or.inl (Or.inl hheld)), by simp [Value.Within, Value.records]⟩)
  exact hset.step (.run (.save (guest 0) .all {}) (Or.inl (Or.inl (Or.inl (Or.inl hheld)))))

end Client

end TypedRecords
