import TypedRecords.Proofs.Record.Relaid
import TypedRecords.Proofs.Store.RoundTrip
import TypedRecords.Proofs.Store.Saves
import TypedRecords.Proofs.Store.Thinned

/-! # Stores that were worked with

Whatever is loaded, found, counted, deleted, migrated and saved, every document of a store can be read,
as long as no record that is saved has gaps or is laid over fields of another class. A new record that
is saved there can be loaded again.
-/

namespace TypedRecords

namespace Store

/-! ### Saves -/

section

variable {d : Directory} {S : Session} {r : RecordRef} {s : Selector}

/-- A record of a class that is no fork, which is no fork itself and holds what was assigned to it
properly. -/
structure Proper (d : Directory) (S : Session) (r : RecordRef) : Prop where
  sound : ∃ known, S.graph.Sound known ∧ r ∈ known
  storable : Record.Storable d S.store.registry S.graph r
  cls : r.cls.base? = none

/-- A record that has no gaps. If it is stored already, the document that is written over the stored
one fits it. -/
structure Savable (d : Directory) (S : Session) (r : RecordRef) (s : Selector) : Prop
    extends Proper d S r where
  gapless : S.graph.Gapless d r
  fits : S.graph.isNew r = false → ∀ p g, prepare d r s S.graph = (.ok p, g) →
    ∀ document ∈ S.store.database.documents (S.store.collectionName r.cls),
      Collection.holds document p.descriptor = true →
        (Value.object p.document).Fits (some (.object document))

theorem savingCall_legible (hd : d.Lawful) (hnamed : d.WellNamed) (hS : S.store.Legible d True)
    (hregistered : S.store.isRegistered r.cls = true) (h : Savable d S r s) {p : Prepared} {g : Graph}
    (hprepare : prepare d r s S.graph = (.ok p, g)) :
    ({ S.store with database := ((savingCall (S.graph.isNew r) p).run
      (S.store.collectionName r.cls) S.store.database).2 } : Store).Legible d True := by
  obtain ⟨known, hsound, hknown⟩ := h.sound
  obtain ⟨-, hfields, -⟩ := prepare_of hd hnamed hsound hknown h.storable hprepare
  have hgapless : (Value.object p.document).Gapless := hfields.gapless hd h.gapless
  have hdocuments := hS.documents r.cls h.cls hregistered
  cases hnew : S.graph.isNew r with
  | true =>
    simp only [savingCall, if_true, Call.run, Call.run.answer]
    rcases hcreate : S.store.database.create (S.store.collectionName r.cls) p.descriptor
      (Value.stripFields p.document) with ⟨outcome, after⟩
    rcases Database.create_cases hcreate with rfl | ⟨-, rfl⟩
    · exact hS
    · refine hS.put h.cls hregistered fun document hdocument => ?_
      rcases List.mem_append.1 hdocument with hdocument | hdocument
      · exact hdocuments document hdocument
      · rw [List.mem_singleton.1 hdocument]
        exact hfields.legible hd hnamed fun _ => hgapless
  | false =>
    simp only [savingCall, Bool.false_eq_true, if_false, Call.run, Call.run.answer]
    rcases hupdate : S.store.database.update (S.store.collectionName r.cls) p.descriptor
      (Patch.ofDocument p.document) with ⟨outcome, after⟩
    rcases Database.update_cases hupdate with rfl | ⟨i, stored, hi, hstored, rfl⟩
    · exact hS
    · refine hS.put h.cls hregistered fun document hdocument => ?_
      rcases List.mem_or_eq_of_mem_set hdocument with hdocument | rfl
      · exact hdocuments document hdocument
      · have hencoded := hfields.encoded hd hnamed
        have hmem : stored ∈ S.store.database.documents (S.store.collectionName r.cls) :=
          List.mem_of_getElem? hstored
        obtain ⟨stored', hstored', hholds⟩ := Collection.position?_eq_some hi
        rw [hstored] at hstored'
        cases hstored'
        rw [Patch.apply_ofDocument hencoded.isTagged hencoded.object]
        exact hfields.overlay_legible hd hnamed (fun _ => hgapless) (hdocuments stored hmem)
          (h.fits hnew p g hprepare stored hmem hholds)

/-- A save leaves a store of which everything can be read, if it was one. -/
theorem save_legible (hd : d.Lawful) (hnamed : d.WellNamed) (hS : S.store.Legible d True)
    (h : Savable d S r s) (expected : Expectation) :
    (save d r s expected S).2.store.Legible d True := by
  cases save_saves (d := d) (r := r) (s := s) (S := S) expected with
  | nothing hquiet => exact hS.alike hquiet
  | document hregistered hprepare hwritten =>
    exact (savingCall_legible hd hnamed hS hregistered h hprepare).alike hwritten

end

/-! ### Runs -/

/-- One operation of a store, whether it fails or not. Only records that can be saved are saved. -/
inductive Operation (d : Directory) : Session → Session → Prop
  | load {S : Session} (r : RecordRef) (s : Selector) (throwIfMissing : Bool) :
    Operation d S (load d r s throwIfMissing S).2
  | find {S : Session} (c : ClassRef) (query : Value) (options : FindOptions) :
    Operation d S (find d c query options S).2
  | count {S : Session} (c : ClassRef) (query : Value) : Operation d S (count d c query S).2
  | delete {S : Session} (r : RecordRef) (throwIfMissing : Bool) :
    Operation d S (delete d r throwIfMissing S).2
  | migrate {S : Session} : Operation d S (migrate d S).2
  | save {S : Session} {r : RecordRef} {s : Selector} (savable : Savable d S r s)
    (expected : Expectation) : Operation d S (save d r s expected S).2

/-- A store that operations have led to from one without documents. Between them the records may
change in any way. -/
inductive Reached (d : Directory) : Store → Prop
  | opened {s : Store} (lawful : s.Lawful d) (empty : ∀ name, s.database.documents name = []) :
    Reached d s
  | after {S S' : Session} (before : Reached d S.store) (operation : Operation d S S') :
    Reached d S'.store

variable {d : Directory}

theorem Operation.legible (hd : d.Lawful) (hnamed : d.WellNamed) {S S' : Session}
    (hS : S.store.Legible d True) (h : Operation d S S') : S'.store.Legible d True := by
  cases h with
  | load r s throwIfMissing => exact hS.thinned (thinned_load r s throwIfMissing S)
  | find c query options => exact hS.thinned (thinned_find hd c query options S)
  | count c query => exact hS.thinned (thinned_count c query S)
  | delete r throwIfMissing => exact hS.thinned (thinned_delete r throwIfMissing S)
  | migrate => exact hS.thinned (thinned_migrate S)
  | save savable expected => exact save_legible hd hnamed hS savable expected

/-- Every document of a store that operations have led to can be read. -/
theorem Reached.legible (hd : d.Lawful) (hnamed : d.WellNamed) {s : Store} (h : Reached d s) :
    s.Legible d True := by
  induction h with
  | @opened s lawful empty =>
    refine ⟨lawful, fun c _ _ document hdocument => ?_⟩
    rw [empty] at hdocument
    cases hdocument
  | after _ operation ih => exact operation.legible hd hnamed ih

/-- A new record that was saved where everything can be read is loaded again with the values that it
had, exactly if it has no gaps. -/
theorem Legible.roundTrips_iff (hd : d.Lawful) (hnamed : d.WellNamed) {S S' : Session}
    (hS : S.store.Legible d True) {x : RecordRef} (hx : Proper d S x)
    (hsanitized : ∀ a ∈ (d.definition x.cls).identifiers, ∀ v,
      S.graph.seen? x a.name = some v → a.type.sanitize v = v)
    (hnew : S.graph.isNew x = true) {result : Option RecordRef}
    (h : save d x .all {} S = (.ok result, S')) :
    ∃ identifier, S.graph.identifier? d x = some identifier ∧
      (RoundTrips d S.graph x [identifier] S' ↔ S.graph.Gapless d x) := by
  obtain ⟨known, hsound, hknown⟩ := hx.sound
  obtain ⟨identifier, trees, hidentifier, hcreated⟩ :=
    save_created hd hnamed hsound hknown hx.storable hnew h
  refine ⟨identifier, hidentifier, ?_⟩
  rw [hcreated.roundTrips_iff hd hnamed hS hx.storable hx.cls hsanitized hidentifier]
  exact hcreated.fields.gapless_iff hd hnamed

/-- Movies with a leading person, and with scores of which some may be unknown. -/
def scoreClasses : Directory where
  classes := #[
    { definition := {
        attributes := [("name", ⟨"name", .plain, .scalar .string {}, none⟩)]
        indexes := [], embedded := true, storable := false }
      registry := some ⟨0⟩ },
    { definition := {
        attributes := [("id", ⟨"id", .primary, .scalar .string {}, none⟩),
          ("lead", ⟨"lead", .plain, .reference "Person" false {}, none⟩),
          ("scores", ⟨"scores", .plain, .array (.scalar .number { optional := true }) {}, none⟩)]
        indexes := [], embedded := false, storable := true }
      registry := some ⟨0⟩
      store := some ⟨0⟩ }]
  registries := #[{ members := [("Person", personClass), ("Movie", movieClass)] }]
  stores := 1

def scored : RecordRef := .made 0 movieClass

def anna : RecordRef := .made 1 personClass

/-- A new movie with a fork of a person and two scores, and a store without documents. -/
def scoredSession (second : Value) : Session where
  graph := { cells := #[
    { slots := [("id", some ⟨.string "m", .here⟩),
        ("lead", some ⟨.record (.fork 2 personClass anna), .here⟩),
        ("scores", some ⟨.array [.ofNat 1, second], .here⟩)], isNew := true },
    { slots := [("name", some ⟨.string "Anna", .here⟩)], isNew := true },
    { slots := [], isNew := true }] }
  store := { ref := ⟨0⟩, registry := ⟨0⟩, storables := [("Movie", movieClass)] }

theorem scoreClasses_lawful : scoreClasses.Lawful :=
  Directory.lawful_of_entries (by decide) (by decide)

theorem scoreClasses_wellNamed : scoreClasses.WellNamed :=
  Directory.forall_attributes (by decide)

theorem scoredSession_reached (second : Value) :
    Reached scoreClasses (scoredSession second).store := by
  refine .opened ⟨?_, ?_⟩ fun name => rfl
  · intro name c hread
    have hmem := List.mem_singleton.1 (Fields.mem_of_get? hread)
    obtain ⟨rfl, rfl⟩ := Prod.mk.inj hmem
    exact ⟨rfl, rfl, rfl, rfl⟩
  · intro name c hread
    have hmem : (name, c) ∈ [("Person", personClass), ("Movie", movieClass)] :=
      Fields.mem_of_get? hread
    rcases List.mem_pair.1 hmem with heq | heq <;> obtain ⟨rfl, rfl⟩ := Prod.mk.inj heq <;> rfl

theorem scoredSession_proper {second : Value} (hsecond : second = .ofNat 2 ∨ second = .undefined) :
    Proper scoreClasses (scoredSession second) scored := by
  have hattributes : ∀ a ∈ scoreClasses.attributes scored.cls, ∀ v,
      (scoredSession second).graph.seen? scored a.name = some v →
        (v = .undefined ∨ a.type.check (scoreClasses.site scored.cls a.name) v = .ok ()) ∧
          Held scoreClasses ⟨0⟩ (scoredSession second).graph v := by
    intro a ha v hv
    have hthree : scoreClasses.attributes scored.cls = [_, _, _] := rfl
    simp only [hthree, List.mem_cons, List.not_mem_nil, or_false] at ha
    rcases ha with rfl | rfl | rfl <;> cases hv
    · exact ⟨.inr rfl, .leaf rfl⟩
    · have hname : ∀ a ∈ scoreClasses.attributes personClass, ∀ v,
          (scoredSession second).graph.seen? (.fork 2 personClass anna) a.name = some v →
            a = ⟨"name", .plain, .scalar .string {}, none⟩ ∧ v = .string "Anna" := by
        intro a ha v hv
        have hone : scoreClasses.attributes personClass = [_] := rfl
        rw [hone, List.mem_singleton] at ha
        subst ha
        cases hv
        exact ⟨rfl, rfl⟩
      refine ⟨.inr rfl, .embedded rfl rfl ?_ ?_⟩ <;> intro a ha v hv <;>
        obtain ⟨rfl, rfl⟩ := hname a ha v hv
      · exact .inr rfl
      · exact .leaf rfl
    · refine ⟨?_, .array ?_⟩
      · rcases hsecond with rfl | rfl <;> exact .inr rfl
      · intro v hv
        rcases List.mem_pair.1 hv with rfl | rfl
        · exact .leaf rfl
        · rcases hsecond with rfl | rfl
          · exact .leaf rfl
          · exact .undefined
  refine ⟨⟨{scored, anna, .fork 2 personClass anna}, ?_, by simp⟩, ⟨rfl, rfl, ?_, ?_, ?_⟩, rfl⟩
  · refine .of_cells ?_ ?_ ?_ fun cell hcell entry hentry slot hslot => ?_
    · rintro r (rfl | rfl | rfl) <;> simp [scored, anna, scoredSession, RecordRef.serial]
    · rintro r (rfl | rfl | rfl) r' (rfl | rfl | rfl) <;> simp [scored, anna, RecordRef.serial]
    · rintro serial c base (heq | heq | heq) <;> cases heq
      simp
    simp only [scoredSession, List.mem_toArray, List.mem_cons, List.not_mem_nil, or_false] at hcell
    rcases hcell with rfl | rfl | rfl <;>
      simp only [List.mem_cons, List.not_mem_nil, or_false] at hentry
    · rcases hentry with rfl | rfl | rfl <;> cases hslot
      · simp [Value.Within, Value.records]
      · simp [Value.Within, Value.records]
      · rcases hsecond with rfl | rfl <;>
          simp [Value.Within, Value.records, Value.recordsOfItems, Value.ofNat]
    · subst hentry
      cases hslot
      simp [Value.Within, Value.records]
  · intro a ha v hv
    have hid : (scoreClasses.definition scored.cls).identifiers = [_] := rfl
    rw [hid, List.mem_singleton] at ha
    subst ha
    cases hv
    rfl
  · exact fun a ha v hv => (hattributes a ha v hv).1
  · exact fun a ha v hv => (hattributes a ha v hv).2

theorem scored_sanitized (second : Value) :
    ∀ a ∈ (scoreClasses.definition scored.cls).identifiers, ∀ v,
      (scoredSession second).graph.seen? scored a.name = some v → a.type.sanitize v = v := by
  intro a ha v hv
  have hone : (scoreClasses.definition scored.cls).identifiers = [_] := rfl
  rw [hone, List.mem_singleton] at ha
  subst ha
  cases hv
  rfl

theorem scored_gapless : (scoredSession (.ofNat 2)).graph.Gapless scoreClasses scored := by
  have hleaf : ∀ {v : Value}, v.isLeaf = true →
      ¬Gapped scoreClasses (scoredSession (.ofNat 2)).graph v := by
    intro v hv hgap
    cases hgap <;> cases hv
  intro a ha v hv hgap
  have hthree : scoreClasses.attributes scored.cls = [_, _, _] := rfl
  simp only [hthree, List.mem_cons, List.not_mem_nil, or_false] at ha
  rcases ha with rfl | rfl | rfl <;> cases hv
  · exact hleaf rfl hgap
  · cases hgap with
    | inner _ ha hv hgap =>
      have hone : scoreClasses.attributes personClass = [_] := rfl
      obtain rfl := List.mem_singleton.1 (hone ▸ ha)
      cases hv
      exact hleaf rfl hgap
  · cases hgap with
    | gap hmem =>
      rcases List.mem_pair.1 hmem with heq | heq <;> cases heq
    | item hmem hgap =>
      rcases List.mem_pair.1 hmem with rfl | rfl <;> exact hleaf rfl hgap

end Store

end TypedRecords
