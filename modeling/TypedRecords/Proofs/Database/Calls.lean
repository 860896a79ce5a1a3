import TypedRecords.Database.Journal
import TypedRecords.Proofs.Fields
import TypedRecords.Proofs.Results

/-! # Calls step by step

What the calls to a database have found and written when they succeed.
-/

namespace TypedRecords

namespace Collection

theorem position?_eq_some {c : Collection} {descriptor : Object} {i : Nat}
    (h : c.position? descriptor = some i) :
    ∃ document, c.documents[i]? = some document ∧ holds document descriptor = true := by
  unfold position? at h
  split at h
  · cases h
  · obtain ⟨hi, hholds, -⟩ := List.findIdx?_eq_some_iff_getElem.1 h
    exact ⟨c.documents[i], List.getElem?_eq_getElem hi, hholds⟩

/-- A document that is put in the place of the first one that a descriptor describes is the first one that
it describes, if it does. -/
theorem position?_set {c : Collection} {descriptor : Object} {i : Nat}
    (h : c.position? descriptor = some i) {document : Document}
    (hholds : holds document descriptor = true) :
    ({ c with documents := c.documents.set i document } : Collection).position? descriptor = some i := by
  unfold position? at h ⊢
  split at h
  · cases h
  · next hdescriptor =>
    rw [if_neg hdescriptor]
    rw [List.findIdx?_eq_some_iff_getElem] at h ⊢
    obtain ⟨hi, -, hbefore⟩ := h
    refine ⟨by simpa using hi, by simpa using hholds, fun j hj => ?_⟩
    rw [List.getElem_set_ne hj.ne']
    exact hbefore j hj

theorem holds_eq_false {c : Collection} {descriptor : Object} (hne : descriptor ≠ [])
    (h : c.position? descriptor = none) {document : Document} (hdocument : document ∈ c.documents) :
    holds document descriptor = false := by
  rw [position?, if_neg (by simpa using hne), List.findIdx?_eq_none_iff] at h
  exact h document hdocument

theorem holds_singleton {document : Document} {name : String} {v : Value}
    (h : holds document [(name, v)] = true) :
    ∃ t, Fields.get? name document = some t ∧ t.beq v = true := by
  simp only [holds, List.all_cons, List.all_nil, Bool.and_true] at h
  split at h
  · next t ht => exact ⟨t, ht, h⟩
  · cases h

end Collection

namespace Database

variable {db after : Database} {name : String}

/-! ### Collections -/

theorem collection_put_self (db : Database) (name : String) (c : Collection) :
    (db.put name c).collection name = c := by
  simp [collection, put]

theorem collection_put_of_ne (db : Database) {other : String} (h : other ≠ name)
    (c : Collection) : (db.put name c).collection other = db.collection other := by
  simp [collection, put, Fields.get?_insert_of_ne h]

theorem put_put (db : Database) (name : String) (c c' : Collection) :
    (db.put name c).put name c' = db.put name c' := by
  simp [put, Fields.insert_insert_self]

/-- A collection that is not empty is there, so that none has to be made. -/
theorem enter_eq_self (h : db.collection name ≠ {}) : db.enter name = db := by
  rw [collection] at h
  cases hread : Fields.get? name db.collections with
  | none =>
    rw [hread] at h
    exact absurd rfl h
  | some c =>
    have hcollection : db.collection name = c := by rw [collection, hread, Option.getD_some]
    rw [enter, hcollection, put, Fields.insert_get? hread]

theorem put_enter (db : Database) (name : String) (c : Collection) :
    (db.enter name).put name c = db.put name c :=
  put_put db name _ c

theorem collection_enter_self (db : Database) (name : String) :
    (db.enter name).collection name = db.collection name :=
  collection_put_self db name _

/-! ### Calls that write as they go -/

theorem position?_empty (descriptor : Object) : Collection.position? {} descriptor = none := by
  unfold Collection.position?
  split <;> rfl

/-- Nothing clashes with what is in a collection that is not there. -/
theorem refuseClash_empty (name : String) (document : Document) (except : Option Nat) :
    refuseClash name {} document except = .ok () := rfl

theorem checkAll_of_no_documents {c : Collection} (h : c.documents = []) :
    checkAll name c = .ok () := by
  rw [checkAll, h]
  rfl

/-- A document is created or nothing is written: a collection that has to be made refuses nothing. -/
theorem create_eq (db : Database) (name : String) (descriptor document : Object) :
    db.create name descriptor document = db.whenAvailable (do
      let c := db.collection name
      if (c.position? descriptor).isSome then pure (false, db)
      else
        refuseClash name c document none
        pure (true, db.put name { c with documents := c.documents ++ [document] })) := by
  unfold create whileAvailable whenAvailable
  simp only [collection_enter_self]
  by_cases havailable : db.available = true
  · rw [if_pos havailable, if_pos havailable]
    split
    · next hposition =>
      have hthere : db.collection name ≠ {} := by
        intro hempty
        rw [hempty, position?_empty] at hposition
        cases hposition
      rw [enter_eq_self hthere]
      rfl
    · cases hclash : refuseClash name (db.collection name) document none with
      | error e =>
        have hthere : db.collection name ≠ {} := by
          intro hempty
          rw [hempty, refuseClash_empty] at hclash
          cases hclash
        rw [enter_eq_self hthere]
        rfl
      | ok _ =>
        rw [put_enter]
        rfl
  · rw [if_neg havailable, if_neg havailable]

/-- The given indexes are installed or nothing is written: documents that refuse them have a collection,
whose previous indexes are installed again. -/
theorem migrate_eq (db : Database) (name : String) (indexes : List Index) :
    db.migrate name indexes = db.whenAvailable (do
      let c := db.collection name
      let existing := c.indexes.map Index.name
      let wanted := indexes.map Index.name
      let migrated := { c with indexes }
      checkAll name migrated
      pure (⟨name, wanted.filter fun n => !existing.contains n,
        existing.filter fun n => !wanted.contains n⟩, db.put name migrated)) := by
  unfold migrate whileAvailable whenAvailable
  simp only [collection_enter_self]
  by_cases havailable : db.available = true
  · rw [if_pos havailable, if_pos havailable]
    cases hcheck : checkAll name { db.collection name with indexes } with
    | error e =>
      have hthere : db.collection name ≠ {} := by
        intro hempty
        have hnone : checkAll name { db.collection name with indexes } = .ok () :=
          checkAll_of_no_documents (congrArg Collection.documents hempty)
        cases hcheck.symm.trans hnone
      have hrestored : ((db.enter name).put name { db.collection name with indexes }).put name
          (db.collection name) = db := by
        rw [put_enter, put_put]
        exact enter_eq_self hthere
      exact Prod.ext rfl hrestored
    | ok checked =>
      cases checked
      rw [put_enter]
      rfl
  · rw [if_neg havailable, if_neg havailable]

/-! ### Calls that succeed -/

theorem whenAvailable_eq_ok {α : Type} {call : Except Error (α × Database)} {a : α}
    (h : db.whenAvailable call = (.ok a, after)) : call = .ok (a, after) := by
  unfold whenAvailable at h
  split at h
  · split at h
    · cases h
      rfl
    · cases h
  · cases h

theorem available_of_whenAvailable {α : Type} {call : Except Error (α × Database)} {a : α}
    (h : db.whenAvailable call = (.ok a, after)) : db.available = true := by
  unfold whenAvailable at h
  split at h
  · assumption
  · cases h

/-- A call that fails changes nothing. -/
theorem eq_of_whenAvailable_error {α : Type} {call : Except Error (α × Database)} {e : Error}
    (h : db.whenAvailable call = (.error e, after)) : after = db := by
  unfold whenAvailable at h
  split at h
  · split at h
    · cases h
    · cases h
      rfl
  · cases h
    rfl

theorem refuseClash_eq_ok {name : String} {c : Collection} {document : Document}
    {except : Option Nat} (h : refuseClash name c document except = .ok ()) :
    c.clash? document except = none := by
  unfold refuseClash at h
  split at h
  · cases h
  · next hnone => exact hnone

/-- A document was created: none had the identifiers, and it clashed with none. -/
theorem create_eq_ok_true {descriptor document : Object}
    (h : db.create name descriptor document = (.ok true, after)) :
    (db.collection name).position? descriptor = none ∧
      after = db.put name { db.collection name with
        documents := (db.collection name).documents ++ [document] } := by
  rw [create_eq] at h
  have hcall := whenAvailable_eq_ok h
  dsimp only at hcall
  split at hcall
  · cases hcall
  · next hnone =>
    obtain ⟨_, -, hpure⟩ := bind_eq_ok hcall
    cases hpure
    exact ⟨Option.not_isSome_iff_eq_none.1 hnone, rfl⟩

theorem create_eq_ok_false {descriptor document : Object}
    (h : db.create name descriptor document = (.ok false, after)) : after = db := by
  rw [create_eq] at h
  have hcall := whenAvailable_eq_ok h
  dsimp only at hcall
  split at hcall
  · cases hcall
    rfl
  · obtain ⟨_, -, hpure⟩ := bind_eq_ok hcall
    cases hpure

theorem create_eq_error {descriptor document : Object} {e : Error}
    (h : db.create name descriptor document = (.error e, after)) : after = db := by
  rw [create_eq] at h
  exact eq_of_whenAvailable_error h

theorem available_of_create {descriptor document : Object} {b : Bool}
    (h : db.create name descriptor document = (.ok b, after)) : db.available = true := by
  rw [create_eq] at h
  exact available_of_whenAvailable h

theorem create_cases {descriptor document : Object} {result : Except Error Bool}
    (h : db.create name descriptor document = (result, after)) :
    after = db ∨ (db.collection name).position? descriptor = none ∧
      after = db.put name { db.collection name with
        documents := (db.collection name).documents ++ [document] } := by
  cases result with
  | error e => exact .inl (create_eq_error h)
  | ok created =>
    cases created with
    | true => exact .inr (create_eq_ok_true h)
    | false => exact .inl (create_eq_ok_false h)

/-- A document was patched: the one that was found by its identifiers. -/
theorem update_eq_ok_true {descriptor : Object} {patch : Patch}
    (h : db.update name descriptor patch = (.ok true, after)) :
    ∃ i stored, (db.collection name).position? descriptor = some i ∧
      (db.collection name).documents[i]? = some stored ∧
      after = db.put name { db.collection name with
        documents := (db.collection name).documents.set i (patch.apply stored) } := by
  have hcall := whenAvailable_eq_ok h
  dsimp only at hcall
  split at hcall
  · cases hcall
  · next i hi =>
    obtain ⟨_, -, hpure⟩ := bind_eq_ok hcall
    cases hpure
    obtain ⟨stored, hstored, -⟩ := Collection.position?_eq_some hi
    rw [hstored]
    exact ⟨i, stored, hi, hstored, rfl⟩

/-- No document was found to be patched. -/
theorem update_eq_ok_false {descriptor : Object} {patch : Patch}
    (h : db.update name descriptor patch = (.ok false, after)) : after = db := by
  have hcall := whenAvailable_eq_ok h
  dsimp only at hcall
  split at hcall
  · cases hcall
    rfl
  · obtain ⟨_, -, hpure⟩ := bind_eq_ok hcall
    cases hpure

theorem update_cases {descriptor : Object} {patch : Patch} {result : Except Error Bool}
    (h : db.update name descriptor patch = (result, after)) :
    after = db ∨ ∃ i stored, (db.collection name).position? descriptor = some i ∧
      (db.collection name).documents[i]? = some stored ∧
      after = db.put name { db.collection name with
        documents := (db.collection name).documents.set i (patch.apply stored) } := by
  cases result with
  | error e => exact .inl (eq_of_whenAvailable_error h)
  | ok found =>
    cases found with
    | true => exact .inr (update_eq_ok_true h)
    | false => exact .inl (update_eq_ok_false h)

/-- A document was deleted: the one that was found by its identifiers. -/
theorem delete_eq_ok_true {descriptor : Object} (h : db.delete name descriptor = (.ok true, after)) :
    ∃ i, (db.collection name).position? descriptor = some i ∧
      after = db.put name { db.collection name with
        documents := (db.collection name).documents.eraseIdx i } := by
  have hcall := whenAvailable_eq_ok h
  dsimp only at hcall
  split at hcall
  · cases hcall
  · next i hi =>
    cases hcall
    exact ⟨i, hi, rfl⟩

/-- No document was found to be deleted. -/
theorem delete_eq_ok_false {descriptor : Object} (h : db.delete name descriptor = (.ok false, after)) :
    after = db := by
  have hcall := whenAvailable_eq_ok h
  dsimp only at hcall
  split at hcall
  · cases hcall
    rfl
  · cases hcall

/-- What a patch leaves as it is in a document, an update leaves as it is in each. -/
theorem map_documents_update {α : Type} {descriptor : Object} {patch : Patch} {b : Bool}
    (h : db.update name descriptor patch = (.ok b, after)) {f : Document → α}
    (hf : ∀ document, f (patch.apply document) = f document) :
    (after.documents name).map f = (db.documents name).map f := by
  cases b with
  | false => rw [update_eq_ok_false h]
  | true =>
    obtain ⟨i, stored, -, hstored, rfl⟩ := update_eq_ok_true h
    obtain ⟨hi, rfl⟩ := List.getElem?_eq_some_iff.1 hstored
    rw [documents, documents, collection_put_self, List.map_set, hf]
    refine List.ext_getElem? fun j => ?_
    by_cases hj : i = j
    · subst hj
      simp [hi]
    · simp [hj]

/-- What holds of all documents in all collections. -/
theorem forall_documents {db : Database} {P : Document → Prop}
    (h : ∀ entry ∈ db.collections, ∀ document ∈ entry.2.documents, P document) (name : String) :
    ∀ document ∈ db.documents name, P document := by
  intro document hdocument
  rw [documents, collection] at hdocument
  cases hread : Fields.get? name db.collections with
  | none =>
    rw [hread] at hdocument
    cases hdocument
  | some collection =>
    rw [hread] at hdocument
    exact h _ (Fields.mem_of_get? hread) document hdocument

/-! ### Calls that write no document -/

theorem documents_whenAvailable {α : Type} {call : Except Error (α × Database)}
    (h : ∀ a after, call = .ok (a, after) → (after.documents name).Sublist (db.documents name)) :
    ((db.whenAvailable call).2.documents name).Sublist (db.documents name) := by
  unfold whenAvailable
  split
  · split
    · next a after => exact h a after rfl
    · exact .refl _
  · exact .refl _

theorem documents_put {collection : String} {c : Collection}
    (h : c.documents.Sublist (db.documents collection)) (name : String) :
    ((db.put collection c).documents name).Sublist (db.documents name) := by
  by_cases hname : name = collection
  · subst hname
    rw [documents, collection_put_self]
    exact h
  · rw [documents, collection_put_of_ne _ hname]
    exact .refl _

end Database

/-- A document that is read is part of one that is stored. -/
theorem Call.document_of_run_read {collection : String} {db : Database} {descriptor : Object}
    {projection : Option Projection} {document : Document}
    (h : (Call.run collection (.read descriptor projection) db).1 = .ok (.document (some document))) :
    ∃ stored ∈ db.documents collection, document = Document.project stored projection := by
  simp only [Call.run, Call.run.answer, Database.read, Database.whenAvailable] at h
  split at h
  · obtain ⟨stored, hstored, rfl⟩ := Option.map_eq_some_iff.1 (Answer.document.inj (Except.ok.inj h))
    obtain ⟨i, -, hread⟩ := Option.bind_eq_some_iff.1 hstored
    exact ⟨stored, List.mem_of_getElem? hread, rfl⟩
  · cases h

def Call.adds : Call → Bool
  | .create _ _ => true
  | .update _ _ => true
  | _ => false

def Call.arranges : Call → Bool
  | .migrate _ _ => true
  | _ => false

/-- A call that writes no document leaves only documents that were there, in their order. -/
theorem Call.documents_run {c : Call} (h : c.adds = false) (collection : String) (db : Database)
    (name : String) : ((c.run collection db).2.documents name).Sublist (db.documents name) := by
  cases c with
  | create _ _ => cases h
  | update _ _ => cases h
  | read descriptor projection =>
    refine Database.documents_whenAvailable fun a after hcall => ?_
    cases hcall
    exact .refl _
  | find search =>
    refine Database.documents_whenAvailable fun a after hcall => ?_
    obtain ⟨matching, -, hpure⟩ := bind_eq_ok hcall
    cases hpure
    exact .refl _
  | count es =>
    refine Database.documents_whenAvailable fun a after hcall => ?_
    obtain ⟨matching, -, hpure⟩ := bind_eq_ok hcall
    cases hpure
    exact .refl _
  | delete descriptor =>
    refine Database.documents_whenAvailable fun a after hcall => ?_
    dsimp only at hcall
    split at hcall
    · cases hcall
      exact .refl _
    · cases hcall
      exact Database.documents_put (List.eraseIdx_sublist ..) name
  | migrate indexes silent =>
    simp only [Call.run, Call.run.answer, Database.migrate_eq]
    refine Database.documents_whenAvailable fun a after hcall => ?_
    obtain ⟨_, -, hpure⟩ := bind_eq_ok hcall
    cases hpure
    exact Database.documents_put (c := { db.collection collection with indexes }) (.refl _) name

end TypedRecords
