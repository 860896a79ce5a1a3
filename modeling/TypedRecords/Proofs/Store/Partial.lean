import TypedRecords.Proofs.Record.Aside
import TypedRecords.Proofs.Store.Updating

/-! # Partial saves

Saving part of a record leaves alone what the selector leaves aside. That ends at arrays, which are
written whole, as are records in attributes of any other type than theirs.
-/

namespace TypedRecords.Store

open TypedRecords.Graph (Viewed)

variable {d : Directory} {known : Set RecordRef} {r : RecordRef}

/-- What is prepared for a save leads past what the selector leaves aside. -/
theorem prepare_spares (hd : ∀ c, ∀ a ∈ d.attributes c, Path.IsName a.name) {g g' : Graph}
    (hg : g.Sound known) (hr : r ∈ known) {s : Selector} (hs : s.WellFormed) {p : Prepared}
    (h : prepare d r s g = (.ok p, g')) {place : List String}
    (hplace : Aside d g (some []) ((d.definition r.cls).identifierSelector.merge s) r place) :
    Value.Spares place p.document := by
  have hreading : AllowsReading (Viewed g known) := Graph.viewed_allowsReading g known
  obtain ⟨g₁, g₂, g₃, hselector, hvalidate, hdescriptor, hdocument⟩ := prepare_eq_ok h
  obtain ⟨known₁, hknown₁, hg₁, -⟩ := (hreading.resolve _ hr _).of_run subset_rfl hg.viewed hselector
  obtain ⟨known₂, hknown₂, hg₂, -⟩ :=
    (hreading.validate (hknown₁ hr) _).of_run subset_rfl hg₁ hvalidate
  obtain ⟨known₃, hknown₃, hg₃, -⟩ :=
    (hreading.descriptor (hg₂.more hr)).of_run subset_rfl hg₂ hdescriptor
  have hresolved : Aside d g (some []) p.selector r place := by
    obtain ⟨steps, g₄, hsteps, hresolve⟩ := Stateful.bind_eq_ok hselector
    cases hsteps
    have hmerged : ((d.definition r.cls).identifierSelector.merge s).WellFormed :=
      (Selector.wellFormed_ofNames _).merge hs
    obtain ⟨-, -, -, haside⟩ := (Record.resolveWithin_aside rfl (hg.viewed.stands hr) hmerged
      hplace).of_run subset_rfl hg.viewed hresolve
    exact haside _ rfl
  have haround : Around g.cells.size r r [] (some []) := by
    refine .itself rfl fun w hw => ?_
    rw [List.mem_singleton.1 hw]
    exact hg.bounded r hr
  obtain ⟨steps, hencode⟩ := documentOf_eq_ok hdocument
  obtain ⟨-, -, -, hencoded⟩ := (Record.encodeWithin_spares hd hg (hg₃.stands hr) haround
    List.not_mem_nil (.inl rfl) hresolved).of_run subset_rfl hg₃ hencode
  obtain ⟨fields, heq, -, hspares⟩ := hencoded _ rfl
  cases heq
  exact hspares

/-- A save of a stored record that does not fail leaves alone what the selector leaves aside: in
every document of the collection, the same stands there before and after. -/
theorem save_keeps_aside (hd : ∀ c, ∀ a ∈ d.attributes c, Path.IsName a.name)
    {session session' : Session} (hg : session.graph.Sound known) (hr : r ∈ known)
    (hstored : session.graph.isNew r = false) {s : Selector} (hs : s.WellFormed)
    {expected : Expectation} {result : Option RecordRef}
    (h : save d r s expected session = (.ok result, session')) {place : List String}
    (hplace : Aside d session.graph (some [])
      ((d.definition r.cls).identifierSelector.merge s) r place) :
    let collection := session.store.collectionName r.cls
    (session'.store.database.documents collection).map
        (fun document => Path.getAlong place (.object document)) =
      (session.store.database.documents collection).map
        (fun document => Path.getAlong place (.object document)) := by
  intro collection
  unfold save at h
  obtain ⟨saved, hsave, -, trace, htrace⟩ := tracing_eq h
  obtain ⟨p, g, written, hprepare, hupdate, -⟩ := saveRecord_eq_update hstored hsave
  have hspares := prepare_spares hd hg hr hs hprepare hplace
  rw [htrace]
  exact Database.map_documents_update hupdate
    (f := fun document => Path.getAlong place (.object document))
    fun document => Patch.getAlong_apply_ofDocument hspares document

/-! ### Films with people in them -/

/-- People, who are part of films. -/
def castClasses : Directory where
  classes := #[
    { definition := {
        attributes := [("name", ⟨"name", .plain, .scalar .string { optional := true }, none⟩),
          ("age", ⟨"age", .plain, .scalar .number { optional := true }, none⟩)]
        indexes := [], embedded := true, storable := false } },
    { definition := {
        attributes := [("id", ⟨"id", .primary, .scalar .string {}, none⟩),
          ("lead", ⟨"lead", .plain, .reference "Person" false { optional := true }, none⟩),
          ("second", ⟨"second", .plain, .reference "Person" false { optional := true }, none⟩),
          ("cast", ⟨"cast", .plain, .array (.reference "Person" false {}) {}, none⟩),
          ("guest", ⟨"guest", .plain, .scalar .any {}, none⟩),
          ("__component", ⟨"__component", .plain, .scalar .string {}, none⟩)]
        indexes := [], embedded := false, storable := true } }]

def person (serial : Nat) : RecordRef := .made serial (.declared 0 "Person")

/-- A fork of a person. -/
def lead : RecordRef := .fork 4 (.declared 0 "Person") (person 1)

def film : RecordRef := .made 0 (.declared 1 "Movie")

/-- A person in a document. -/
def personFields (name : String) (age : Nat) : Value :=
  .object [("__component", .string "Person"), ("name", .string name), ("age", .ofNat age)]

def personCell (name : String) (age : Nat) : Cell where
  slots := [("name", some ⟨.string name, .here⟩), ("age", some ⟨.ofNat age, .here⟩)]
  isNew := true

/-- A film that is stored, of which everything has changed since: one of the people is gone, and each of
the others has another name and age. -/
def castSession : Session where
  graph := { cells := #[
    { slots := [("id", some ⟨.string "m", .here⟩), ("lead", some ⟨.record lead, .here⟩),
        ("second", some ⟨.undefined, .here⟩), ("cast", some ⟨.array [.record (person 2)], .here⟩),
        ("guest", some ⟨.record (person 3), .here⟩),
        ("__component", some ⟨.string "note", .here⟩)], isNew := false },
    personCell "Anna" 10, personCell "Bert" 20, personCell "Cleo" 30,
    { slots := [], isNew := true }] }
  store := {
    ref := ⟨0⟩
    registry := ⟨0⟩
    storables := [("Movie", .declared 1 "Movie")]
    database := { collections := [("Movie", { documents := [
      [("__component", .string "note"), ("id", .string "m"), ("lead", personFields "A" 1),
        ("second", personFields "D" 4), ("cast", .array [personFields "B" 2]),
        ("guest", personFields "C" 3)]] })] } }

/-- The names of all people. -/
def castNames : Selector :=
  .only (["lead", "second", "cast", "guest"].map fun name => (name, .only [("name", .all)]))

/-- The records of the session. -/
def castRecords : Set RecordRef := {film, person 1, person 2, person 3, lead}

theorem castSession_sound : castSession.graph.Sound castRecords :=
  .of_list [film, person 1, person 2, person 3, lead] (by simp [castRecords]) (by decide) (by decide)

/-- Of the lead, only the name is written. -/
theorem save_keeps_aside_lead :
    Aside castClasses castSession.graph (some [])
        ((castClasses.definition film.cls).identifierSelector.merge castNames) film ["lead", "age"] ∧
      ((save castClasses film castNames {} castSession).2.store.database.documents "Movie").map
          (fun document => Path.getAlong ["lead", "age"] (.object document)) =
        (castSession.store.database.documents "Movie").map
          (fun document => Path.getAlong ["lead", "age"] (.object document)) := by
  have hd : ∀ c, ∀ a ∈ castClasses.attributes c, Path.IsName a.name :=
    Directory.forall_attributes (by decide)
  have hs : castNames.WellFormed := by
    simp [castNames, Selector.WellFormed, Selector.FieldsWellFormed, Fields.Distinct, Fields.keys]
  have hsave : save castClasses film castNames {} castSession =
      (.ok (some film), (save castClasses film castNames {} castSession).2) := rfl
  have hlead : Aside castClasses castSession.graph (some [])
      ((castClasses.definition film.cls).identifierSelector.merge castNames) film
      ["lead", "age"] := by
    have hheld : castSession.graph.seen? film "lead" = some (.record lead) := rfl
    refine .within (by decide) ?_ hheld ?_ rfl ?_
    · intro a ha hname
      have hattributes : castClasses.attributes film.cls = [_, _, _, _, _, _] := rfl
      simp only [hattributes, List.mem_cons, List.not_mem_nil, or_false] at ha
      rcases ha with rfl | rfl | rfl | rfl | rfl | rfl
      · exact absurd hname (by decide)
      · exact ⟨"Person", _, rfl⟩
      all_goals exact absurd hname (by decide)
    · rintro around ⟨⟩
      decide
    · exact .unselected (by decide) rfl
  have hfilm : film ∈ castRecords := Set.mem_insert _ _
  exact ⟨hlead, save_keeps_aside hd castSession_sound hfilm rfl hs hsave hlead⟩

/-- An array of people is written whole, without the ages that are not selected. A person in an
attribute of any type is written whole as well, an undefined one is removed, and the tag takes the place
of an attribute that has its name. -/
theorem save_rewrites_unselected :
    (save castClasses film castNames {} castSession).1 = .ok (some film) ∧
      castSession.store.database.documents "Movie" =
        [[("__component", .string "note"), ("id", .string "m"), ("lead", personFields "A" 1),
          ("second", personFields "D" 4), ("cast", .array [personFields "B" 2]),
          ("guest", personFields "C" 3)]] ∧
      (save castClasses film castNames {} castSession).2.store.database.documents "Movie" =
        [[("__component", .string "Movie"), ("id", .string "m"), ("lead", personFields "Anna" 1),
          ("cast", .array [.object [("__component", .string "Person"), ("name", .string "Bert")]]),
          ("guest", personFields "Cleo" 30)]] :=
  ⟨rfl, rfl, rfl⟩

end TypedRecords.Store
