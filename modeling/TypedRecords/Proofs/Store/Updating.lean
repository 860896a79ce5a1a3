import TypedRecords.Proofs.Store.Saving
import TypedRecords.Proofs.Database.Calls
import TypedRecords.Proofs.Document.Remnants

/-! # Saving a record that is stored already

The document of a record that was stored before is patched. A field then holds what creating the
record anew would store exactly if the value covers what the field held before.
-/

namespace TypedRecords

namespace Store

variable {d : Directory} {r : RecordRef}

/-- Before a record is encoded, everything is only read. -/
theorem prepare_encodes {s : Selector} {g g' : Graph} {p : Prepared}
    (h : prepare d r s g = (.ok p, g')) : ∃ g₁ steps, ReadsOnly g g₁ ∧
      Record.encodeWithin d .store steps [] true r p.selector g₁ = (.ok (.object p.document), g') := by
  obtain ⟨g₁, g₂, g₃, hselector, hvalidate, hdescriptor, hdocument⟩ := prepare_eq_ok h
  have h₁ : ReadsOnly g g₁ :=
    .of_run ((readsOnly_allowsReading g).resolve _ (Set.mem_univ r) _) hselector
  have h₂ : ReadsOnly g₁ g₂ :=
    .of_run ((readsOnly_allowsReading g₁).validate (Set.mem_univ r) _) hvalidate
  have h₃ : ReadsOnly g₂ g₃ :=
    .of_run ((readsOnly_allowsReading g₂).descriptor (Set.mem_univ r)) hdescriptor
  obtain ⟨steps, hencode⟩ := documentOf_eq_ok hdocument
  exact ⟨g₃, steps, (h₁.trans h₂).trans h₃, hencode⟩

theorem prepare_encoded (hd : d.ProperNames) {s : Selector} {g g' : Graph} (hg : g.Patchable)
    {p : Prepared} (h : prepare d r s g = (.ok p, g')) : Encoded p.document := by
  obtain ⟨g₁, steps, hreads, hencode⟩ := prepare_encodes h
  obtain ⟨fields, heq, hfields⟩ := Record.encodeWithin_encoded hd (hg.readsOnly hreads) hencode
  cases heq
  exact hfields

/-- Of every set attribute of which a save selects something, or which identifies the record, something is
prepared. -/
theorem prepare_selects (hr : r.base? = none) {s : Selector} {g g' : Graph} {p : Prepared}
    (h : prepare d r s g = (.ok p, g')) {a : Attribute} (ha : a ∈ d.attributes r.cls)
    (hs : ((d.definition r.cls).identifierSelector.merge s).Selects a.name) {slot : Slot}
    (hset : g.own? r a.name = some (some slot)) : p.selector.Selects a.name := by
  obtain ⟨g₁, g₂, g₃, hselector, -⟩ := prepare_eq_ok h
  exact Record.resolve_selects rfl hr ha hs hset hselector

/-- Every set attribute is in the document of a record that is saved entirely. -/
theorem prepare_mem_keys (hr : r.base? = none) {g g' : Graph} {p : Prepared}
    (h : prepare d r .all g = (.ok p, g')) {a : Attribute} (ha : a ∈ d.attributes r.cls)
    {slot : Slot} (hset : g.own? r a.name = some (some slot)) :
    a.name ∈ Fields.keys p.document := by
  obtain ⟨g₁, steps, hreads, hencode⟩ := prepare_encodes h
  have hselects : p.selector.Selects a.name :=
    prepare_selects hr h ha (Selector.merge_all _ ▸ Selector.selects_all _) hset
  exact Record.encodeWithin_mem_keys hr ha hselects (hreads.keeps _ _ _ hset) hencode

/-- The update that a save of a stored record comes to, unless it fails. -/
theorem saveRecord_eq_update {session session' : Session}
    (hstored : session.graph.isNew r = false) {s : Selector} {expected : Expectation}
    {result : Option RecordRef}
    (h : saveRecord d r s expected session = (.ok result, session')) :
    ∃ p g written, prepare d r s session.graph = (.ok p, g) ∧
      session.store.database.update (session.store.collectionName r.cls) p.descriptor
        (Patch.ofDocument p.document) = (.ok written, session'.store.database) ∧
      result = if written then some r else none := by
  obtain ⟨-, p, g, written, called, hprepare, hcall, hresult, hstore, -⟩ := saveRecord_eq_ok h
  refine ⟨p, g, written, hprepare, ?_, hresult⟩
  obtain ⟨answer, hanswer, hflag⟩ := callFlag_eq_ok hcall
  obtain ⟨hok, -, journal, hdatabase⟩ := call_eq hanswer
  rw [hstore, hdatabase]
  simp only [savingCall, hstored, Bool.false_eq_true, if_false, Call.run, Call.run.answer] at hok ⊢
  rcases hupdate : session.store.database.update (session.store.collectionName r.cls)
    p.descriptor (Patch.ofDocument p.document) with ⟨found, after⟩
  rw [hupdate] at hok
  cases found with
  | error e => cases hok
  | ok b =>
    cases hok
    rcases hflag with hflag | ⟨-, hother⟩
    · cases hflag
      rfl
    · exact absurd rfl (hother b)

/-- The update that a save of a stored record comes to if it answers the record. -/
theorem saveRecord_update {session session' : Session} (hstored : session.graph.isNew r = false)
    {s : Selector} {expected : Expectation}
    (h : saveRecord d r s expected session = (.ok (some r), session')) :
    ∃ p g, prepare d r s session.graph = (.ok p, g) ∧
      session.store.database.update (session.store.collectionName r.cls) p.descriptor
        (Patch.ofDocument p.document) = (.ok true, session'.store.database) := by
  obtain ⟨p, g, written, hprepare, hupdate, hresult⟩ := saveRecord_eq_update hstored h
  cases written with
  | true => exact ⟨p, g, hprepare, hupdate⟩
  | false => cases hresult

/-- A field that a patched document holds is what the creating path stores exactly if the value
covers what the field held before. -/
theorem get?_overlayFields_same_iff {document before : Document} (hdocument : Encoded document)
    (hbefore : Document.WellFormed before) {name : String} {v : Value}
    (hv : Fields.get? name document = some v) :
    Option.Rel Value.Same (Fields.get? name (Value.overlayFields document before))
      (Fields.get? name (Value.stripFields document)) ↔ v.Covers (Fields.get? name before) := by
  have hmem := Fields.mem_of_get? hv
  rw [Value.get?_overlayFields_of_mem hdocument.distinct hbefore.distinct hmem]
  cases hover : v.overlay (Fields.get? name before) with
  | none =>
    obtain rfl := Value.overlay_eq_none_iff.1 hover
    have hnone : Fields.get? name (Value.stripFields document) = none := by
      rw [Fields.get?_eq_none_iff, Value.mem_keys_stripFields hdocument.distinct hmem]
      exact fun h => h rfl
    rw [hnone]
    exact iff_of_true .none trivial
  | some w =>
    have hne : v ≠ .undefined := by
      rintro rfl
      cases hover
    have hsome : Fields.get? name (Value.stripFields document) = some v.strip :=
      Fields.get?_of_mem (Value.distinct_stripFields hdocument.distinct)
        (Value.mem_stripFields.2 ⟨v, hmem, hne, rfl⟩)
    rw [hsome, ← Value.same_overlay_iff (hdocument.patchable _ hmem).2
      (fun w hw => hbefore.field hw) hover]
    constructor
    · intro hrel
      cases hrel with
      | some hsame => exact hsame
    · exact .some

/-- Saving a stored record entirely leaves in the field of each set attribute what creating the
record would store there exactly if its value covers what the field held before; of an undefined
value it leaves nothing. -/
theorem save_stored (hd : d.ProperNames) {session session' : Session}
    (hg : session.graph.Patchable)
    (hdocuments : ∀ document ∈ session.store.database.documents
      (session.store.collectionName r.cls), Document.WellFormed document)
    (hr : r.base? = none) (hstored : session.graph.isNew r = false)
    (h : save d r .all {} session = (.ok (some r), session')) :
    ∃ p g i before after, prepare d r .all session.graph = (.ok p, g) ∧
      (session.store.database.collection (session.store.collectionName r.cls)).position?
        p.descriptor = some i ∧
      (session.store.database.documents (session.store.collectionName r.cls))[i]? = some before ∧
      (session'.store.database.documents (session.store.collectionName r.cls))[i]? = some after ∧
      ∀ a ∈ d.attributes r.cls, ∀ slot, session.graph.own? r a.name = some (some slot) →
        ∃ v, Fields.get? a.name p.document = some v ∧
          (v = .undefined → Fields.get? a.name after = none) ∧
          (Option.Rel Value.Same (Fields.get? a.name after)
            (Fields.get? a.name (Value.stripFields p.document)) ↔
              v.Covers (Fields.get? a.name before)) := by
  unfold save at h
  obtain ⟨saved, hsave, -, trace, htrace⟩ := tracing_eq h
  obtain ⟨p, g, hprepare, hupdate⟩ := saveRecord_update hstored hsave
  obtain ⟨i, before, hi, hbefore, hafter⟩ := Database.update_eq_ok_true hupdate
  have hdocument := prepare_encoded hd hg hprepare
  have hwf : Document.WellFormed before := hdocuments before (List.mem_of_getElem? hbefore)
  rw [Patch.apply_ofDocument hdocument.isTagged hdocument.object] at hafter
  refine ⟨p, g, i, before, Value.overlayFields p.document before, hprepare, hi, hbefore, ?_, ?_⟩
  · have hlt := (List.getElem?_eq_some_iff.1 hbefore).1
    rw [htrace, Database.documents, hafter, Database.collection_put_self]
    exact List.getElem?_set_self hlt
  · intro a ha slot hset
    obtain ⟨v, hv⟩ := Fields.mem_keys_iff.1 (prepare_mem_keys hr hprepare ha hset)
    refine ⟨v, hv, ?_, get?_overlayFields_same_iff hdocument hwf hv⟩
    rintro rfl
    rw [Value.get?_overlayFields_of_mem hdocument.distinct hwf.distinct (Fields.mem_of_get? hv)]
    rfl

/-! ### A reference that changes -/

def personClass : ClassRef := .declared 0 "Person"
def movieClass : ClassRef := .declared 1 "Movie"

/-- People with two identifiers, and movies by directors. -/
def filmClasses : Directory where
  classes := #[
    { definition := {
        attributes := [("id", ⟨"id", .primary, .scalar .string {}, none⟩),
          ("email", ⟨"email", .secondary, .scalar .string { optional := true }, none⟩)]
        indexes := [], embedded := false, storable := true } },
    { definition := {
        attributes := [("id", ⟨"id", .primary, .scalar .string {}, none⟩),
          ("director", ⟨"director", .plain, .reference "Person" false {}, none⟩)]
        indexes := [], embedded := false, storable := true } }]

/-- A movie that is stored with one director and now has another, of whom only the address is
known. -/
def filmSession : Session where
  graph := { cells := #[
    { slots := [("email", some ⟨.string "q@x", .here⟩)], isNew := false },
    { slots := [("id", some ⟨.string "m", .here⟩),
        ("director", some ⟨.record (.made 0 personClass), .here⟩)], isNew := false }] }
  store := {
    ref := ⟨0⟩
    registry := ⟨0⟩
    storables := [("Person", personClass), ("Movie", movieClass)]
    database := { collections := [("Movie", { documents := [
      [("__component", .string "Movie"), ("id", .string "m"),
        ("director", .object [("__component", .string "Person"), ("id", .string "p1")])]] })] } }

def movie : RecordRef := .made 1 movieClass

theorem save_stored_film :
    ∃ p g i before after, prepare filmClasses movie .all filmSession.graph = (.ok p, g) ∧
      (filmSession.store.database.collection "Movie").position? p.descriptor = some i ∧
      (filmSession.store.database.documents "Movie")[i]? = some before ∧
      ((save filmClasses movie .all {} filmSession).2.store.database.documents "Movie")[i]? =
        some after ∧
      ∃ v, Fields.get? "director" p.document = some v ∧
        (v = .undefined → Fields.get? "director" after = none) ∧
        (Option.Rel Value.Same (Fields.get? "director" after)
          (Fields.get? "director" (Value.stripFields p.document)) ↔
            v.Covers (Fields.get? "director" before)) := by
  have hd : filmClasses.ProperNames := by
    intro c a ha
    have hentry : filmClasses.attributes c = filmClasses.attributes (.declared c.serial "") := rfl
    rw [hentry] at ha
    rcases hserial : c.serial with _ | _ | n <;> rw [hserial] at ha
    · exact (by decide : ∀ a ∈ filmClasses.attributes (.declared 0 ""),
        Path.IsName a.name ∧ a.name ≠ Tree.classTag) a ha
    · exact (by decide : ∀ a ∈ filmClasses.attributes (.declared 1 ""),
        Path.IsName a.name ∧ a.name ≠ Tree.classTag) a ha
    · have hnone : filmClasses.classes[n + 1 + 1]? = none := by simp [filmClasses]
      simp [Directory.attributes, Directory.definition, Directory.entry, ClassRef.serial, hnone,
        Definition.empty, Definition.attributeList, Fields.values] at ha
  have hg : filmSession.graph.Patchable := by
    intro r name slot hown
    have hcell : filmSession.graph.own? r name =
        filmSession.graph.own? (.made r.serial personClass) name := rfl
    rw [hcell] at hown
    rcases hserial : r.serial with _ | _ | n <;> rw [hserial] at hown
    · have hread : Fields.get? name [("email", some (⟨.string "q@x", .here⟩ : Slot))] =
          some (some slot) := hown
      have hmem := Fields.mem_of_get? hread
      simp only [List.mem_singleton, Prod.mk.injEq, Option.some.injEq] at hmem
      rw [hmem.2]
      trivial
    · have hread : Fields.get? name [("id", some (⟨.string "m", .here⟩ : Slot)),
          ("director", some ⟨.record (.made 0 personClass), .here⟩)] = some (some slot) := hown
      have hmem := Fields.mem_of_get? hread
      simp only [List.mem_cons, List.not_mem_nil, or_false, Prod.mk.injEq, Option.some.injEq] at hmem
      rcases hmem with ⟨-, rfl⟩ | ⟨-, rfl⟩ <;> trivial
    · have hnone : filmSession.graph.cells[n + 1 + 1]? = none := by simp [filmSession]
      simp [Graph.own?, Graph.cell?, RecordRef.serial, hnone] at hown
  have hdocuments : ∀ document ∈ filmSession.store.database.documents "Movie",
      Document.WellFormed document := by
    intro document hmem
    rw [List.mem_singleton.1 hmem]
    have hdirector : Document.WellFormed [("__component", .string "Person"), ("id", .string "p1")] :=
      (Document.WellFormed.empty.insert (v := .string "Person") trivial "__component").insert
        (v := .string "p1") trivial "id"
    exact ((Document.WellFormed.empty.insert (v := .string "Movie") trivial "__component").insert
      (v := .string "m") trivial "id").insert hdirector "director"
  have hsave : save filmClasses movie .all {} filmSession =
      (.ok (some movie), (save filmClasses movie .all {} filmSession).2) := rfl
  obtain ⟨p, g, i, before, after, hprepare, hi, hbefore, hafter, hfields⟩ :=
    save_stored (r := movie) hd hg hdocuments rfl rfl hsave
  have hdirector := hfields ⟨"director", .plain, .reference "Person" false {}, none⟩
    (List.mem_cons_of_mem _ List.mem_cons_self) ⟨.record (.made 0 personClass), .here⟩ rfl
  exact ⟨p, g, i, before, after, hprepare, hi, hbefore, hafter, hdirector⟩

/-- The new director would be stored with the address alone, but the old identifier stays. -/
theorem save_keeps_old_identifier :
    (save filmClasses movie .all {} filmSession).2.store.database.documents "Movie" =
        [[("__component", .string "Movie"), ("id", .string "m"),
          ("director", .object [("__component", .string "Person"), ("id", .string "p1"),
            ("email", .string "q@x")])]] ∧
      (prepare filmClasses movie .all filmSession.graph).1.map
          (fun p => Fields.get? "director" (Value.stripFields p.document)) =
        .ok (some (.object [("__component", .string "Person"), ("email", .string "q@x")])) :=
  ⟨rfl, rfl⟩

end Store

end TypedRecords
