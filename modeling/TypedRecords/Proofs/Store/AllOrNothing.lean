import TypedRecords.Proofs.Record.Stamping
import TypedRecords.Proofs.Store.Working

/-! # Saving all or nothing

A save that fails, or that finds nothing to write, leaves the documents as they were, and the slots of all
records and whether they are new. One that writes changes no value: the record is not new any more, and the
sources of what was selected and is set are the store, in the record and at any depth in those stored within
it. Identifiers of the record always are selected.
-/

namespace TypedRecords

open Stateful (Keeps KeepsIn)

/-! ### Records that are only read -/

/-- The records have the slots that they had, and are new if they were. -/
structure Graph.Rests (g g' : Graph) : Prop where
  size : g'.cells.size = g.cells.size
  own : ∀ r name, g'.own? r name = g.own? r name
  isNew : ∀ r, g'.isNew r = g.isNew r

theorem Graph.Rests.refl (g : Graph) : g.Rests g := ⟨rfl, fun _ _ => rfl, fun _ => rfl⟩

/-- Reading records that are no forks leaves them as they are. -/
theorem Graph.rests_allowsReading {known : Set RecordRef} {g₀ : Graph} (hg₀ : g₀.Sound known)
    (hmade : ∀ r ∈ known, r.base? = none) :
    AllowsReading fun known' g => known' = known ∧ g₀.Rests g where
  slot := by
    rintro _ r name g hr ⟨rfl, hg⟩
    rw [RecordRef.slot?_made (hmade r hr)]
    refine ⟨_, subset_rfl, ⟨rfl, hg⟩, fun slot hslot => ?_⟩
    exact hg₀.within r hr name slot ((hg.own r name).symm.trans (Option.join_eq_some_iff.1 hslot))
  resolving := by
    rintro _ r b g - ⟨rfl, hg⟩
    exact ⟨rfl, (size_modify g r _).trans hg.size,
      fun q name => (own?_markResolving g r b q name).trans (hg.own q name),
      fun q => (isNew_markResolving g r b q).trans (hg.isNew q)⟩

/-! ### Outcomes of a save -/

/-- Nothing was written, neither to the database nor to a record. -/
structure Session.Unchanged (S S' : Session) : Prop where
  database : S'.store.database = S.store.database
  own : ∀ q name, S'.graph.own? q name = S.graph.own? q name
  isNew : ∀ q, S'.graph.isNew q = S.graph.isNew q

namespace Store

/-- The slots that a save sends to the store: those of attributes that are set and selected, where the
identifiers of the record are selected always, of the record and of records stored within each other. -/
def Sends (d : Directory) (g : Graph) (r : RecordRef) (s : Selector) : RecordRef → String → Prop :=
  g.SetBelow d r (g.Selected d ((d.definition r.cls).identifierSelector.merge s) r)

/-- A record was written. No value has changed, and what was sent is from the store now. -/
structure Written (d : Directory) (known : Set RecordRef) (r : RecordRef) (s : Selector) (S S' : Session) :
    Prop where
  value : ∀ q ∈ known, ∀ name, S'.graph.value? q name = S.graph.value? q name
  saved : S'.graph.isNew r = false
  isNew : ∀ q ∈ known, q ≠ r → S'.graph.isNew q = S.graph.isNew q
  sent : ∀ q ∈ known, ∀ name, Sends d S.graph r s q name →
    ∃ v, S'.graph.own? q name = some (some ⟨v, .store⟩)
  kept : ∀ q ∈ known, ∀ name, ¬Sends d S.graph r s q name →
    S'.graph.own? q name = S.graph.own? q name

variable {d : Directory} {known : Set RecordRef} {S T : Session} {r : RecordRef} {s : Selector}

/-- A call that does not answer that it has written has written nothing. -/
theorem savingCall_unwritten {isNew : Bool} {p : Prepared} {collection : String} {db : Database}
    (h : ((savingCall isNew p).run collection db).1 ≠ .ok (.flag true)) :
    ((savingCall isNew p).run collection db).2 = db := by
  cases isNew with
  | true =>
    simp only [savingCall, if_true, Call.run, Call.run.answer] at h ⊢
    rcases hcreate : db.create collection p.descriptor (Value.stripFields p.document) with ⟨result, after⟩
    rw [hcreate] at h
    cases result with
    | error e => exact Database.create_eq_error hcreate
    | ok created =>
      cases created with
      | true => exact absurd rfl h
      | false => exact Database.create_eq_ok_false hcreate
  | false =>
    simp only [savingCall, Bool.false_eq_true, if_false, Call.run, Call.run.answer] at h ⊢
    rcases hupdate : db.update collection p.descriptor (Patch.ofDocument p.document) with ⟨result, after⟩
    rw [hupdate] at h
    cases result with
    | error e => exact Database.eq_of_whenAvailable_error hupdate
    | ok found =>
      cases found with
      | true => exact absurd rfl h
      | false => exact Database.update_eq_ok_false hupdate

/-- A save that the database refuses leaves it and the records as they were. -/
theorem callSaving_unwritten {c : ClassRef} {collection : String} {isNew : Bool} {p : Prepared}
    {called : Except Error Bool} (hcalled : called ≠ .ok true)
    (h : callSaving c collection (savingCall isNew p) S = (called, T)) :
    T.store.database = S.store.database ∧ T.graph = S.graph := by
  obtain ⟨hgraph, ⟨journal, hstore⟩, hflag⟩ := callSaving_eq h
  rw [hstore]
  exact ⟨savingCall_unwritten fun hanswer => hcalled (hflag.2 hanswer), hgraph⟩

/-- What is written is what is selected. -/
theorem writeSelector_resolved {g g' : Graph} (hd : d.Lawful) (hg : g.Hierarchy d known) (hr : r ∈ known)
    (hs : s.WellFormed) {t : Selector} (h : writeSelector d r s g = (.ok t, g')) :
    Record.Resolved d g ((d.definition r.cls).identifierSelector.merge s) r t := by
  obtain ⟨steps, g₁, hsteps, hresolve⟩ := Stateful.bind_eq_ok h
  cases hsteps
  exact Record.resolveWithin_resolved hd rfl rfl rfl hg hr ((Selector.wellFormed_ofNames _).merge hs) rfl
    (fun _ _ => rfl) (fun q _ => hg.idle q) hresolve

theorem prepare_rests {g : Graph} (hg : g.Hierarchy d known) (hr : r ∈ known) (s : Selector) :
    Keeps (fun g' => g.Rests g') (prepare d r s) fun _ => True :=
  (keepsIn_prepare (Graph.rests_allowsReading hg.accepting.sound hg.made) hr s).keeps

/-- Marking what has been written does not fail, and restates the sources of what was sent alone. -/
theorem marked_written (hg : S.graph.Hierarchy d known) (hr : r ∈ known) {p : Prepared} (hrests : S.graph.Rests T.graph)
    (hresolved : Record.Resolved d S.graph ((d.definition r.cls).identifierSelector.merge s) r p.selector)
    {result : Except Error (Option RecordRef)} {T' : Session} (h : (do
      onRecords (Record.mark r false)
      onRecords (Record.setSources d .store r p.selector)
      pure (some r) : StoreAction (Option RecordRef)) T = (result, T')) :
    result = .ok (some r) ∧ Written d known r s S T' := by
  have hmark : onRecords (Record.mark r false) T = (.ok (), { T with graph := T.graph.mark r false }) := rfl
  have hown : ∀ q name, (T.graph.mark r false).own? q name = S.graph.own? q name :=
    fun q name => (Graph.own?_mark T.graph r false q name).trans (hrests.own q name)
  have hsame : Graph.SameValues known S.graph (T.graph.mark r false) :=
    ⟨(Graph.size_modify T.graph r _).trans hrests.size, fun q _ name => Graph.value?_congr (hown q name)⟩
  obtain ⟨g', hsources, hrestamps⟩ := Record.setSources_restamps hg hr .store p.selector hsame
  have hsources' : onRecords (Record.setSources d .store r p.selector)
      { T with graph := T.graph.mark r false } = (.ok (), { T with graph := g' }) := by
    simp only [onRecords, hsources]
  rw [Stateful.bind_of_ok hmark, Stateful.bind_of_ok hsources'] at h
  cases h
  have hsends : ∀ q name, S.graph.SetBelow d r p.selector.Keeps q name ↔ Sends d S.graph r s q name :=
    fun q name => Graph.setBelow_congr fun path q hbelow a ha v hv => hresolved.keeps_iff hbelow ha hv
  have hstamped := hrestamps.congr hsends
  have hnew : ∀ q, g'.isNew q = if r.serial = q.serial then false else S.graph.isNew q := by
    intro q
    rw [hrestamps.isNew, Graph.isNew_mark, Bool.and_false, hrests.isNew]
  refine ⟨rfl, fun q hq name => ?_, ?_, fun q hq hne => ?_, fun q hq name hsent => ?_,
    fun q hq name hunsent => ?_⟩
  · exact (hrestamps.sameValues.value q hq name).trans (hsame.value q hq name)
  · simp [hnew]
  · simp only [hnew]
    rw [if_neg fun hserial => hne (hg.accepting.sound.alone r hr q hq hserial).symm]
  · obtain ⟨v, -, hslot⟩ := hstamped.stamped q hq name hsent
    exact ⟨v, hslot⟩
  · exact (hstamped.others q hq name hunsent).trans (hown q name)

theorem saveRecord_all_or_nothing (hd : d.Lawful) (hg : S.graph.Hierarchy d known) (hr : r ∈ known)
    (hs : s.WellFormed) {expected : Expectation} {result : Except Error (Option RecordRef)}
    (h : saveRecord d r s expected S = (result, T)) :
    result = .ok (some r) ∧ Written d known r s S T ∨
      (∀ q, result ≠ .ok (some q)) ∧ S.Unchanged T := by
  have hrun := saveRecord_runs d r s expected S
  rw [h] at hrun
  have hrests : ∀ {result g}, prepare d r s S.graph = (result, g) → S.graph.Rests g :=
    fun hprepare => (prepare_rests hg hr s).of_run (.refl S.graph) hprepare
  have hcalled : ∀ {p g called T}, prepare d r s S.graph = (.ok p, g) → called ≠ .ok true →
      callSaving r.cls (S.store.collectionName r.cls) (savingCall (S.graph.isNew r) p)
        { S with graph := g } = (called, T) → S.Unchanged T := by
    intro p g called T hprepare hrefused hcall
    obtain ⟨hdatabase, hgraph⟩ := callSaving_unwritten hrefused hcall
    refine ⟨hdatabase, ?_, ?_⟩
    · rw [hgraph]
      exact (hrests hprepare).own
    · rw [hgraph]
      exact (hrests hprepare).isNew
  cases hrun with
  | refused e => exact .inr ⟨by simp, rfl, fun _ _ => rfl, fun _ => rfl⟩
  | unprepared prepared =>
    exact .inr ⟨by simp, rfl, (hrests prepared).own, (hrests prepared).isNew⟩
  | failed registered prepared call => exact .inr ⟨by simp, hcalled prepared (by simp) call⟩
  | unwritten registered prepared call unsaved => exact .inr ⟨unsaved, hcalled prepared (by simp) call⟩
  | written registered prepared call marked =>
    obtain ⟨answer, hcall, -⟩ := callFlag_eq_ok (callSaving_eq_ok call)
    obtain ⟨g₁, g₂, g₃, hselector, -⟩ := prepare_eq_ok prepared
    refine .inl (marked_written hg hr ?_ (writeSelector_resolved hd hg hr hs hselector) marked)
    rw [(call_eq hcall).2.1]
    exact hrests prepared

/-- A save of a record writes it, and then changes no value but restates the sources of what was sent, or it
writes nothing and changes nothing. -/
theorem save_all_or_nothing (hd : d.Lawful) (hg : S.graph.Hierarchy d known) (hr : r ∈ known)
    (hs : s.WellFormed) {expected : Expectation} {result : Except Error (Option RecordRef)}
    (h : save d r s expected S = (result, T)) :
    result = .ok (some r) ∧ Written d known r s S T ∨
      (∀ q, result ≠ .ok (some q)) ∧ S.Unchanged T := by
  unfold save at h
  obtain ⟨T', hsave, hgraph, trace, hstore⟩ := tracing_eq h
  rcases saveRecord_all_or_nothing hd hg hr hs hsave with ⟨hresult, hwritten⟩ | ⟨hresult, hunchanged⟩
  · refine .inl ⟨hresult, ?_⟩
    constructor <;> rw [hgraph]
    · exact hwritten.value
    · exact hwritten.saved
    · exact hwritten.isNew
    · exact hwritten.sent
    · exact hwritten.kept
  · refine .inr ⟨hresult, ?_, ?_, ?_⟩
    · rw [hstore]
      exact hunchanged.database
    · rw [hgraph]
      exact hunchanged.own
    · rw [hgraph]
      exact hunchanged.isNew

/-! ### An example: a film with its cast -/

namespace Casting

def filmClass : ClassRef := .declared 0 "Film"

/-- Actors are people with an identifier. -/
def actorClass : ClassRef := .declared 1 "Person"

/-- Extras are called people too, but have no identifier. -/
def extraClass : ClassRef := .declared 2 "Person"

def filmDefinition : Definition where
  attributes := [("id", ⟨"id", .primary, .scalar .string {}, none⟩),
    ("title", ⟨"title", .plain, .scalar .string {}, none⟩),
    ("guest", ⟨"guest", .plain, .scalar .any {}, none⟩),
    ("cast", ⟨"cast", .plain, .array (.reference "Person" false {}) {}, none⟩)]
  indexes := []
  embedded := false
  storable := true

def personDefinition (role : Role) : Definition where
  attributes := [("id", ⟨"id", role, .scalar .string {}, none⟩),
    ("name", ⟨"name", .plain, .scalar .string {}, none⟩)]
  indexes := []
  embedded := false
  storable := false

def classes : Directory where
  classes := #[{ definition := filmDefinition, registry := some ⟨0⟩ },
    { definition := personDefinition .primary }, { definition := personDefinition .plain }]
  registries := #[{ members := [("Film", filmClass)] }]

def film : RecordRef := .made 0 filmClass

def actor : RecordRef := .made 1 actorClass

def extra : RecordRef := .made 2 extraClass

def guest : RecordRef := .made 3 extraClass

def everyone : Set RecordRef := {film, actor, extra, guest}

def person (id name : String) : Cell where
  slots := [("id", some ⟨.string id, .here⟩), ("name", some ⟨.string name, .here⟩)]
  isNew := true

def records : Graph where
  cells := #[
    { slots := [("id", some ⟨.string "f", .here⟩), ("title", some ⟨.string "Alien", .here⟩),
        ("guest", some ⟨.record guest, .here⟩),
        ("cast", some ⟨.array [.record actor, .record extra], .here⟩)]
      isNew := true },
    person "a" "Ripley", person "b" "Kane", person "c" "Ash"]

/-- A store without documents, whose database may not answer. -/
def session (available : Bool) : Session where
  graph := records
  store := { ref := ⟨0⟩, registry := ⟨0⟩, storables := [("Film", filmClass)], database := { available } }

def saving (s : Selector) (available : Bool) : Except Error (Option RecordRef) × Session :=
  save classes film s {} (session available)

def sourceOf (S : Session) (r : RecordRef) (name : String) : Option Source :=
  (S.graph.own? r name).join.map Slot.source

def titles : Selector := .only [("title", .all)]

def guestNames : Selector := .only [("guest", .only [("name", .all)])]

def castNames : Selector := .only [("cast", .only [("name", .all)])]

/-- More than a selector keeps is from the store after a save: the identifier of the film, all of a guest
whom no type calls a person, and of an extra what identifies the actors. -/
theorem saving_sends_unselected :
    (¬titles.Keeps ["id"] ∧ (saving titles true).1 = .ok (some film) ∧
      sourceOf (session true) film "id" = some .here ∧
      sourceOf (saving titles true).2 film "id" = some .store) ∧
    (¬guestNames.Keeps ["guest", "id"] ∧ (saving guestNames true).1 = .ok (some film) ∧
      sourceOf (session true) guest "id" = some .here ∧
      sourceOf (saving guestNames true).2 guest "id" = some .store) ∧
    ¬castNames.Keeps ["cast", "id"] ∧ (saving castNames true).1 = .ok (some film) ∧
      sourceOf (session true) extra "id" = some .here ∧
      sourceOf (saving castNames true).2 extra "id" = some .store :=
  ⟨⟨nofun, rfl, rfl, rfl⟩, ⟨nofun, rfl, rfl, rfl⟩, nofun, rfl, rfl, rfl⟩

theorem classes_lawful : classes.Lawful :=
  Directory.lawful_of_entries (by decide) (by decide)

theorem records_sound : records.Sound everyone :=
  .of_list [film, actor, extra, guest] (by simp [everyone]) (by decide) (by decide)

theorem fieldsOf_film : records.fieldsOf classes film = [("id", .string "f"), ("title", .string "Alien"),
    ("guest", .record guest), ("cast", .array [.record actor, .record extra])] :=
  rfl

theorem fieldsOf_person {r : RecordRef} (hr : r ∈ everyone) (hother : r ≠ film) :
    ∃ id called, records.fieldsOf classes r = [("id", .string id), ("name", .string called)] := by
  rcases hr with rfl | rfl | rfl | rfl
  · exact absurd rfl hother
  · exact ⟨"a", "Ripley", rfl⟩
  · exact ⟨"b", "Kane", rfl⟩
  · exact ⟨"c", "Ash", rfl⟩

theorem records_accepting : records.Accepting classes everyone := by
  refine ⟨records_sound, (by rintro _ _ _ (h | h | h | h) <;> cases h), ?_⟩
  rintro r hr name ⟨v, source⟩ hown a ha
  have hfield : (name, v) ∈ records.fieldsOf classes r :=
    Graph.mem_fieldsAmong.2 ⟨a, Definition.mem_of_attribute? ha,
      (classes_lawful.definition r.cls).name_of_attribute? ha, Graph.value?_eq_some_iff.2 ⟨source, hown⟩⟩
  refine .inr ?_
  by_cases hfilm : r = film
  · subst hfilm
    simp only [fieldsOf_film, List.mem_cons, List.not_mem_nil, or_false, Prod.mk.injEq] at hfield
    rcases hfield with ⟨rfl, rfl⟩ | ⟨rfl, rfl⟩ | ⟨rfl, rfl⟩ | ⟨rfl, rfl⟩ <;> cases ha <;> rfl
  · obtain ⟨id, called, hfields⟩ := fieldsOf_person hr hfilm
    simp only [hfields, List.mem_cons, List.not_mem_nil, or_false, Prod.mk.injEq] at hfield
    rcases hr with rfl | rfl | rfl | rfl
    · exact absurd rfl hfilm
    all_goals rcases hfield with ⟨rfl, rfl⟩ | ⟨rfl, rfl⟩ <;> cases ha <;> rfl

/-- Only the film holds records. -/
theorem records_nests {r q : RecordRef} (hr : r ∈ everyone) (h : records.Nests classes r q) :
    r = film ∧ q ≠ film ∧ q ∈ everyone := by
  obtain ⟨entry, hentry, hq⟩ := Graph.nests_iff_field.1 h
  have hheld := Value.mem_records_object.2 ⟨entry, hentry, hq⟩
  by_cases hfilm : r = film
  · subst hfilm
    have hmem : q ∈ [guest, actor, extra] := hheld
    simp only [List.mem_cons, List.not_mem_nil, or_false] at hmem
    rcases hmem with rfl | rfl | rfl <;> exact ⟨rfl, by decide, by simp [everyone]⟩
  · obtain ⟨id, called, hfields⟩ := fieldsOf_person hr hfilm
    rw [hfields] at hheld
    cases hheld

theorem records_hierarchy : records.Hierarchy classes everyone where
  accepting := records_accepting
  made := by rintro _ (rfl | rfl | rfl | rfl) <;> rfl
  acyclic r hr h := by
    refine Graph.acyclic_of_rank (fun r => if r = film then 1 else 0)
      (fun r hr q hq => (records_nests hr hq).2.2) (fun r hr q hq => ?_) hr
      (Relation.TransGen.mono (fun _ _ hembeds => hembeds.1) r r h)
    obtain ⟨hfilm, hother, -⟩ := records_nests hr hq
    simp [hfilm, hother]
  idle := Graph.isResolving_eq_false (by simp [records, person])

theorem castNames_wellFormed : castNames.WellFormed :=
  ⟨List.nodup_singleton _, ⟨List.nodup_singleton _, trivial, trivial⟩, trivial⟩

theorem sends_extra : Sends classes records film castNames extra "name" := by
  have hcast : ⟨"cast", .plain, .array (.reference "Person" false {}) {}, none⟩ ∈
      classes.attributes film.cls := .tail _ (.tail _ (.tail _ (.head _)))
  have hname : ⟨"name", .plain, .scalar .string {}, none⟩ ∈ classes.attributes extra.cls :=
    .tail _ (.head _)
  have hholds : records.value? film "cast" = some (.array [.record actor, .record extra]) := rfl
  have hmem : extra ∈ (Value.array [.record actor, .record extra]).records := .tail _ (.head _)
  have hcalled : records.value? extra "name" = some (.string "Kane") := rfl
  have hselected : records.Selected classes
      ((classes.definition film.cls).identifierSelector.merge castNames) film ["cast", "name"] :=
    .within hcast (by rfl) hholds hmem rfl (.here hname (by rfl) hcalled)
  exact ⟨["cast"], .within hcast hholds hmem rfl .self, ⟨_, hname, rfl⟩, ⟨_, hcalled⟩, hselected⟩

/-- The film is written with the names of its extras, or the database fails and nothing changes. -/
theorem saving_castNames :
    ((saving castNames true).1 = .ok (some film) ∧
      Written classes everyone film castNames (session true) (saving castNames true).2 ∧
      sourceOf (saving castNames true).2 extra "name" = some .store) ∧
    (∃ e, (saving castNames false).1 = .error e) ∧ (session false).Unchanged (saving castNames false).2 := by
  have hok : saving castNames true = (.ok (some film), (saving castNames true).2) := rfl
  obtain ⟨e, hfailed⟩ : ∃ e, saving castNames false = (.error e, (saving castNames false).2) := ⟨_, rfl⟩
  constructor
  · rcases save_all_or_nothing classes_lawful records_hierarchy (Set.mem_insert _ _) castNames_wellFormed
      hok with ⟨hresult, hwritten⟩ | ⟨hresult, -⟩
    · obtain ⟨v, hslot⟩ := hwritten.sent extra (.inr (.inr (.inl rfl))) "name" sends_extra
      exact ⟨hresult, hwritten, by rw [sourceOf, hslot]; rfl⟩
    · exact absurd rfl (hresult film)
  · rcases save_all_or_nothing classes_lawful records_hierarchy (Set.mem_insert _ _) castNames_wellFormed
      hfailed with ⟨hresult, -⟩ | ⟨-, hunchanged⟩
    · cases hresult
    · exact ⟨⟨e, congrArg Prod.fst hfailed⟩, hunchanged⟩

end Casting

end Store

end TypedRecords
