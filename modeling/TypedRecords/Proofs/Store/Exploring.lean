import Mathlib
import TypedRecords.Proofs.Store.Delivering
import TypedRecords.Proofs.Store.Visiting

/-! # What a load reads

A load reads one document after the other. What was asked for of a record is delivered from its document,
and then the records that it holds are followed.
-/

namespace TypedRecords

/-! ### Records of which no more than keys are known -/

variable {d : Directory}

theorem RecordRef.Bare.typed {g : Graph} {x : RecordRef} (hx : x.Bare g)
    (hinherits : d.Inherits x.cls) : g.Typed d {x} := by
  refine ⟨hx.sound, ?_, ?_, ?_⟩
  · rintro r rfl
    exact hinherits
  · rintro serial c base rfl
    cases hx.made
  · rintro r rfl name slot hslot
    obtain ⟨_, heq, hkey⟩ := hx.keys name _ hslot
    cases heq
    exact fun _ _ _ => .inr hkey

namespace Store

variable {s : Store} {S S₁ S' : Session}

/-! ### Loads -/

theorem exists_of_wasVisited {visits : List Visit} {c : ClassRef} {identifier : String × Value}
    (h : wasVisited (visits.map (Visit.entry s)) (s.collectionName c) [identifier] = true) :
    ∃ e ∈ visits, s.collectionName e.record.cls = s.collectionName c ∧
      e.identifier.1 = identifier.1 ∧ e.identifier.2.beq identifier.2 = true := by
  obtain ⟨entry, hentry, hmatches⟩ := List.any_eq_true.1 h
  obtain ⟨e, he, rfl⟩ := List.mem_map.1 hentry
  obtain ⟨hcollection, hsame⟩ := Bool.and_eq_true_iff.1 hmatches
  refine ⟨e, he, by simpa using hcollection, ?_⟩
  have hfields : Value.beqFields [e.identifier] [identifier] = true := by
    simp only [Value.beq, Bool.and_eq_true] at hsame
    exact hsame.2
  obtain ⟨v, hv, hequal⟩ := Value.beqFields_iff.1 hfields e.identifier List.mem_cons_self
  obtain ⟨hname, rfl⟩ := Prod.mk.inj (List.mem_singleton.1 (Fields.mem_of_get? hv))
  exact ⟨hname, hequal⟩

/-- What is known of the graph from which a document is read into a record. -/
theorem readSelector_keeps (hd : d.Lawful) {known : Set RecordRef} {g g' : Graph}
    (htyped : g.Typed d known) {r : RecordRef} (hr : r ∈ known) {asked selector : Selector}
    (h : readSelector d r asked g = (.ok selector, g')) :
    ReadsOnly g g' ∧ ∃ after, known ⊆ after ∧ g'.Typed d after := by
  have hreads : ReadsOnly g g' := by
    refine .of_run (Q := fun _ _ => True) ?_ h
    exact ((readsOnly_allowsReading g).resolve _ (Set.mem_univ r) _).bind
      fun _ _ _ _ => .pure fun _ _ => trivial
  obtain ⟨after, hafter, htyped', -⟩ := (keepsIn_readSelector (Graph.typed_allowsWriting hd).toAllowsReading hr
    asked).of_run subset_rfl htyped h
  exact ⟨hreads, after, hafter, htyped'⟩

/-- A record has the identifier under which its document was found as the document has it. -/
theorem Delivered.identifier {registry : RegistryRef} {r : RecordRef} {asked : Selector}
    {fields : Fields Selector} {document : Document} {g g₁ g' : Graph} (hnamed : d.WellNamed)
    (hchosen : Chosen d r asked fields)
    (h : Delivered d registry r (document.selected fields) g g₁ g') {cell : Cell}
    (hcell : g.cell? r = some cell) {name : String} {v : Value}
    (hname : ∃ a ∈ (d.definition r.cls).identifiers, a.name = name) (hkey : v.IsKey)
    (hholds : Collection.holds document [(name, v)] = true) :
    ∃ t, g'.value? r name = some t ∧ t.beq v = true := by
  obtain ⟨a, ha, rfl⟩ := hname
  obtain ⟨t, ht, hequal⟩ := Collection.holds_singleton hholds
  have htkey := hkey.of_beq hequal
  have hselected := hchosen.get?_selected hnamed ha ht htkey.ne_undefined
  have htag := hnamed.ne_classTag r.cls a (Definition.mem_attributeList_of_identifier ha)
  obtain ⟨t', w, ht', hw, g₂, g₃, -, hdecode, -⟩ := h.own? (Document.distinct_selected fields document)
    (hchosen.ne_newTag hnamed _) hcell (Fields.mem_keys_iff.2 ⟨t, hselected⟩) htag
  rw [hselected] at ht'
  cases ht'
  rw [Record.decode_leaf (Value.isLeaf_of_isKey htkey)] at hdecode
  cases hdecode
  exact ⟨t, Graph.value?_eq_some_iff.2 ⟨.store, hw⟩, hequal⟩

/-- A visit is complete once what was asked for has been delivered. -/
theorem Delivered.complete {registry : RegistryRef} {e : Visit} {fields : Fields Selector}
    {document : Document} {g₀ g g₁ g' : Graph} (hnamed : d.WellNamed)
    (hselector : readSelector d e.record e.asked g₀ = (.ok e.selector, g))
    (honly : e.selector = .only fields) (hchosen : Chosen d e.record e.asked fields)
    (h : Delivered d registry e.record (document.selected fields) g g₁ g') {cell : Cell}
    (hcell : g.cell? e.record = some cell)
    (hname : ∃ a ∈ (d.definition e.record.cls).identifiers, a.name = e.identifier.1)
    (hkey : e.identifier.2.IsKey) (hdocument : e.document? s = some document) :
    e.Complete d s g' where
  chosen := ⟨_, _, hselector⟩
  names := honly ▸ hchosen.mem_names
  identifier := by
    obtain ⟨t, ht, hequal⟩ :=
      h.identifier hnamed hchosen hcell hname hkey (stored?_eq_some hdocument).2
    exact ⟨t, ht, .inr hequal⟩
  attributes document' hdocument' a ha hs hpresents := by
    rw [hdocument] at hdocument'
    cases hdocument'
    obtain ⟨-, v, -, hv, -⟩ := h.own? (Document.distinct_selected fields document)
      (hchosen.ne_newTag hnamed _) hcell (hchosen.mem_selected hnamed ha hs hpresents)
      (hnamed.ne_classTag _ a ha)
    exact ⟨v, hv⟩

/-- A visited record keeps the identifier under which its document was looked for. -/
theorem Visit.Complete.keepsIdentifier {e : Visit} {g g' : Graph} (h : e.Complete d s g')
    (hmade : e.record.base? = none) (hidentifier : g.identifier? d e.record = some e.identifier) :
    KeepsIdentifier d g g' e.record := by
  intro name v hfirst
  rw [hidentifier] at hfirst
  obtain ⟨w, hw, hequal⟩ := h.identifier
  rw [Option.some.inj hfirst] at hw hequal
  exact ⟨w, (seen?_made hmade g' name).trans hw, hequal⟩

/-- A visit that finds no document leaves the record its identifier. -/
theorem explored_of_missing (hd : d.Lawful) {e : Visit} {known : Set RecordRef} {g g' : Graph}
    (htyped : g.Typed d known) (hr : e.record ∈ known) (hmade : e.record.base? = none)
    (hcalm : g.isResolving e.record = false)
    (hidentifier : g.identifier? d e.record = some e.identifier)
    (hselector : readSelector d e.record e.asked g = (.ok e.selector, g'))
    (hnone : e.document? s = none) (visits : List Visit) :
    Explored d s (· = e.record.serial) g.cells.size visits [e] g' := by
  obtain ⟨hreads, -⟩ := readSelector_keeps hd htyped hr hselector
  obtain ⟨fields, honly, hchosen⟩ := readSelector_chosen hd hmade hcalm hselector
  obtain ⟨-, hv, -⟩ := Graph.identifier?_eq_some hidentifier
  rw [seen?_made hmade] at hv
  have hkept : g'.value? e.record e.identifier.1 = some e.identifier.2 := by
    obtain ⟨source, hown⟩ := Graph.value?_eq_some_iff.1 hv
    exact Graph.value?_eq_some_iff.2 ⟨source, hreads.keeps _ _ _ hown⟩
  refine ⟨?_, ?_, ?_⟩ <;> rintro e' he' <;> obtain rfl := List.mem_singleton.1 he'
  · exact ⟨.inl rfl, (htyped.sound.bounded _ hr).trans_le hreads.size⟩
  · refine ⟨⟨_, _, hselector⟩, honly ▸ hchosen.mem_names, ⟨_, hkept, .inl rfl⟩,
      fun document hdocument => ?_⟩
    rw [hnone] at hdocument
    cases hdocument
  · intro hdocument
    rw [hnone] at hdocument
    cases hdocument

/-- What a load has brought that has read a document: what was asked for is delivered, and the records
in it have been followed. -/
structure Brought (d : Directory) (s : Store) (registry : RegistryRef) (e : Visit)
    (fields : Fields Selector) (document : Document) (lo : Nat) (visits new : List Visit) (g : Graph)
    (S₁ S' : Session) : Prop where
  chosen : Chosen d e.record e.asked fields
  delivered : ∃ g₁, Delivered d registry e.record (document.selected fields) g g₁ S₁.graph
  explored : Explored d s (· = e.record.serial) lo visits (e :: new) S'.graph
  own : ∀ name, S'.graph.own? e.record name = S₁.graph.own? e.record name
  settled : ∀ name ∈ Fields.keys fields, ∀ r ∈ S₁.graph.held e.record name,
    ∃ lo hi, Settled d s lo hi r S₁.graph S'.graph

section

variable (hd : d.Lawful) (hnamed : d.WellNamed) (hcoherent : d.Coherent)

include hd hnamed hcoherent

theorem found_brings (htrees : s.Trees) {steps : Nat} (hsteps : Explores d s steps) {e : Visit}
    {before : List Visit} {visited' : Visited} {known : Set RecordRef}
    (htyped : S.graph.Typed d known) (hs : s.Alike S.store) (hr : e.record ∈ known)
    (hmade : e.record.base? = none) (hcalm : S.graph.isResolving e.record = false)
    (hbefore : ∀ e' ∈ before, e'.record.serial < S.graph.cells.size)
    (hidentifier : S.graph.identifier? d e.record = some e.identifier) {g : Graph}
    (hselector : readSelector d e.record e.asked S.graph = (.ok e.selector, g)) {document : Document}
    (hstored : S.store.stored? e.record.cls [e.identifier] = some document)
    (happlied : applyDocument d S.store.registry e.record e.selector
      (Document.project document (Projection.ofSelector? e.selector)) g = (.ok (), S₁.graph))
    (hstore : S.store.Alike S₁.store)
    (hfollowed : followNames d steps e.record e.selector e.selector.names
      ((before ++ [e]).map (Visit.entry s)) S₁ = (.ok visited', S')) :
    ∃ fields new, e.selector = .only fields ∧
      visited' = (before ++ e :: new).map (Visit.entry s) ∧
      Brought d s S.store.registry e fields document S.graph.cells.size (before ++ e :: new) new g
        S₁ S' := by
  obtain ⟨hnamedIdentifier, hv, hdefined⟩ := Graph.identifier?_eq_some hidentifier
  have hkey : e.identifier.2.IsKey := by
    obtain ⟨a, ha, hname⟩ := hnamedIdentifier
    exact (htyped.seen hr hv a ha hname).resolve_left hdefined
  have hlt := htyped.sound.bounded _ hr
  obtain ⟨hreads, after, hafter, htypedRead⟩ := readSelector_keeps hd htyped hr hselector
  obtain ⟨fields, honly, hchosen⟩ := readSelector_chosen hd hmade hcalm hselector
  rw [honly] at happlied hfollowed
  have hdocument : e.document? s = some document := by rwa [Visit.document?, ← hs.stored?_eq]
  have hwithin := htrees _ document (stored?_eq_some hdocument).1
  have hltRead : e.record.serial < g.cells.size := hlt.trans_le hreads.size
  obtain ⟨cell, hcell⟩ : ∃ cell, g.cell? e.record = some cell :=
    ⟨_, Array.getElem?_eq_getElem hltRead⟩
  obtain ⟨g₁, hdelivered, hmissing⟩ := applyDocument_selected hd hnamed hchosen hcell happlied
  have hdistinct := Document.distinct_selected fields document
  have hnewTag := hchosen.ne_newTag hnamed document
  obtain ⟨bounds, hbounds, hapart⟩ := hdelivered.parted hdistinct hnewTag
    (Document.within_selected hwithin) hcell (fun name hname => (hchosen.ne_tags hnamed hname).2.1)
    fun name hname hleft => by
      obtain ⟨a, ha, rfl⟩ := hchosen.names name hname
      exact ⟨a, hmissing a ha hname hleft⟩
  obtain ⟨later, hlater, htyped₁, -⟩ := (keepsIn_applyDocument (Graph.typed_allowsWriting hd)
    (hcoherent _) (hafter hr) (.only fields)
    ((Value.partOf_project _ _).within (hwithin.mono (Set.empty_subset after)))).of_run subset_rfl htypedRead happlied
  have hsize₁ := hdelivered.leaves_cell.size
  -- All documents that were read before were read into older records.
  have hbefore₁ : ∀ e' ∈ before ++ [e], e'.record.serial < g.cells.size := by
    intro e' he'
    rcases List.mem_append.1 he' with he' | he'
    · exact (hbefore e' he').trans_le hreads.size
    · rwa [List.mem_singleton.1 he']
  obtain ⟨new, rfl, hexplored, hleaves, hheld⟩ := followNames_explores hd hcoherent htrees hsteps
    hchosen.distinct htyped₁ (hs.trans hstore) (hlater (hafter hr)) hmade hltRead hbounds
    (fun name hname name' hname' => hapart name name' hname hname')
    (fun e' he' => ⟨(hbefore₁ e' he').trans_le hsize₁, fun name hname hin =>
      Nat.not_lt.2 ((hbounds name hname).1.trans hin.1) (hbefore₁ e' he')⟩) hfollowed
  have hoff : ∀ name ∈ Fields.keys fields,
      ¬((bounds name).1 ≤ e.record.serial ∧ e.record.serial < (bounds name).2) := fun name hname hin =>
    Nat.not_lt.2 ((hbounds name hname).1.trans hin.1) hltRead
  have hown : ∀ name, S'.graph.own? e.record name = S₁.graph.own? e.record name := fun name =>
    hleaves.own? (hltRead.trans_le hsize₁) hoff name
  have hall : before ++ [e] ++ new = before ++ e :: new := by simp
  rw [hall] at hexplored hheld
  have hcomplete : e.Complete d s S'.graph :=
    (hdelivered.complete hnamed hselector honly hchosen hcell hnamedIdentifier hkey hdocument).leaves
      hleaves (hltRead.trans_le hsize₁) hoff
  have hthis : ∀ name ∈ e.selector.names, ∀ r' ∈ S'.graph.held e.record name,
      r' ∈ RecordRef.Region S.graph.cells.size S'.graph.cells.size ∧
        Followed d s S'.graph (before ++ e :: new) (e.selector.get name) r' := by
    intro name hname r' hr'
    rw [honly] at hname ⊢
    rw [Graph.held_congr (hown name)] at hr'
    obtain ⟨hlo, hhi, hlaid⟩ := hbounds name hname
    exact ⟨Graph.region_subset (hreads.size.trans hlo) (hhi.trans hleaves.size) (hlaid.mem hr'),
      (hheld name hname r' hr').1⟩
  exact ⟨fields, new, honly, by rw [hall], hchosen, ⟨g₁, hdelivered⟩,
    .cons rfl ((hltRead.trans_le hsize₁).trans_le hleaves.size) hcomplete hthis hexplored
      (fun _ => hreads.size.trans) (hreads.size.trans hsize₁), hown,
    fun name hname r' hr' => ⟨_, _, (hheld name hname r' hr').2⟩⟩

theorem explores (htrees : s.Trees) (steps : Nat) : Explores d s steps := by
  induction steps with
  | zero =>
    intro r asked throwIfMissing found before visited' S S' known _ _ _ _ _ _ h
    cases h
  | succ steps ih =>
    intro r asked throwIfMissing found before visited' S S' known htyped hs hr hmade hcalm hbefore h
    obtain ⟨-, identifier, hidentifier, houtcome⟩ := loadWithin_steps hmade h
    cases houtcome with
    | visited hvisited =>
      rw [hs.collectionName_eq] at hvisited
      obtain ⟨e, he, hcollection, hname, hsame⟩ := exists_of_wasVisited hvisited
      refine ⟨[], by rw [List.append_nil], .nil _, .visited he hcollection ?_ hsame rfl rfl,
        fun name v hfirst => ⟨v, (Graph.identifier?_eq_some hfirst).2.1, .inl rfl⟩⟩
      rw [hidentifier, hname]
    | @missing selector _ hnew hselector hstored hstore =>
      let e : Visit := ⟨r, asked, selector, identifier⟩
      have hnone : e.document? s = none := by rwa [Visit.document?, ← hs.stored?_eq]
      have hexplored := explored_of_missing hd (e := e) htyped hr hmade hcalm hidentifier hselector
        hnone (before ++ [e])
      refine ⟨[e], by simp [e, Visit.entry, hs.collectionName_eq], hexplored,
        .read (List.mem_singleton.2 rfl) rfl rfl ⟨_, hselector⟩ (by rw [hnone]; rfl),
        (hexplored.complete e (List.mem_singleton.2 rfl)).keepsIdentifier hmade hidentifier⟩
    | @found selector g document S₁ _ _ hnew hselector hstored happlied hstore hfollowed =>
      let e : Visit := ⟨r, asked, selector, identifier⟩
      have hentries : before.map (Visit.entry s) ++ [(S.store.collectionName r.cls, [identifier])] =
          (before ++ [e]).map (Visit.entry s) := by
        simp [e, Visit.entry, hs.collectionName_eq]
      rw [hentries] at hfollowed
      obtain ⟨fields, new, -, rfl, hbrought⟩ := found_brings hd hnamed hcoherent htrees ih (e := e)
        htyped hs hr hmade hcalm hbefore hidentifier hselector hstored happlied hstore hfollowed
      have hdocument : e.document? s = some document := by rwa [Visit.document?, ← hs.stored?_eq]
      exact ⟨e :: new, rfl, hbrought.explored,
        .read List.mem_cons_self rfl rfl ⟨_, hselector⟩ (by rw [hdocument]; rfl),
        (hbrought.explored.complete e List.mem_cons_self).keepsIdentifier hmade hidentifier⟩

/-- A load delivers of its record what the document presents of the attributes that were asked for, and it
follows all records that these hold: each is loaded as well, unless its document was read into another
record before. What it loads for one of them is delivered and followed in the same way. -/
theorem load_follows (htrees : S.store.Trees) {known : Set RecordRef}
    (htyped : S.graph.Typed d known) {x : RecordRef} (hx : x ∈ known) (hmade : x.base? = none)
    (hcalm : S.graph.isResolving x = false) {asked : Selector} {throwIfMissing : Bool}
    {y : RecordRef} (h : load d x asked throwIfMissing S = (.ok (some y), S')) :
    ∃ visits : List Visit, (∃ e ∈ visits, e.record = x ∧ e.asked = asked ∧
        (∃ g, readSelector d x asked S.graph = (.ok e.selector, g)) ∧
        (e.document? S.store).isSome) ∧
      ∀ e ∈ visits, e.Complete d S.store S'.graph ∧
        ((e.document? S.store).isSome → ∀ a ∈ d.attributes e.record.cls, e.asked.Selects a.name →
          ∀ r ∈ S'.graph.held e.record a.name,
            Followed d S.store S'.graph visits (e.selector.get a.name) r) := by
  unfold load at h
  obtain ⟨S₁, hrun, hgraph, -⟩ := tracing_eq h
  obtain ⟨steps, _, hsteps, hrun⟩ := Stateful.bind_eq_ok hrun
  cases hsteps
  obtain ⟨⟨found, visited⟩, S₂, hwithin, hpure⟩ := Stateful.bind_eq_ok hrun
  obtain ⟨new, -, hexplored, hattended, -⟩ := explores hd hnamed hcoherent htrees _ x asked throwIfMissing
    found [] visited S S₂ known htyped (.refl _) hx hmade hcalm (by simp) hwithin
  cases found with
  | false => cases hpure
  | true =>
    cases hpure
    rw [List.nil_append] at hexplored
    rw [hgraph]
    cases hattended with
    | @read _ e he hrecord hasked hchosen hdocument =>
      refine ⟨new, ⟨e, he, hrecord, hasked, hchosen, hdocument.symm⟩,
        fun e he => ⟨hexplored.complete e he, ?_⟩⟩
      intro hstored a ha hs r hr
      exact (hexplored.held e he hstored a.name ((hexplored.complete e he).names a ha hs) r hr).2
    | visited he => cases he

end

/-! ### A document that is referred to twice -/

def artistClass : ClassRef := .declared 0 "Person"
def pictureClass : ClassRef := .declared 1 "Movie"

/-- People with names, and movies with a director and a producer. -/
def pictureClasses : Directory where
  classes := #[
    { definition := {
        attributes := [("id", ⟨"id", .primary, .scalar .string {}, none⟩),
          ("name", ⟨"name", .plain, .scalar .string { optional := true }, none⟩)]
        indexes := [], embedded := false, storable := true }
      registry := some ⟨0⟩ },
    { definition := {
        attributes := [("id", ⟨"id", .primary, .scalar .string {}, none⟩),
          ("director", ⟨"director", .plain, .reference "Person" false { optional := true }, none⟩),
          ("producer", ⟨"producer", .plain, .reference "Person" false { optional := true }, none⟩)]
        indexes := [], embedded := false, storable := true }
      registry := some ⟨0⟩ }]
  registries := #[{ members := [("Person", artistClass), ("Movie", pictureClass)] }]

def storedArtist : Value := .object [("__component", .string "Person"), ("id", .string "p")]

/-- A movie of which the identifier is known. It is stored with one person as director and producer. -/
def pictureSession : Session where
  graph := { cells := #[{ slots := [("id", some ⟨.string "m", .here⟩)], isNew := false }] }
  store := {
    ref := ⟨0⟩
    registry := ⟨0⟩
    storables := [("Person", artistClass), ("Movie", pictureClass)]
    database := { collections := [
      ("Movie", { documents := [[("__component", .string "Movie"), ("id", .string "m"),
        ("director", storedArtist), ("producer", storedArtist)]] }),
      ("Person", { documents := [[("__component", .string "Person"), ("id", .string "p"),
        ("name", .string "Anna")]] })] } }

def picture : RecordRef := .made 0 pictureClass

def loadedPicture : Session := (load pictureClasses picture .all true pictureSession).2

theorem pictureClasses_lawful : pictureClasses.Lawful :=
  Directory.lawful_of_entries (by decide) (by decide)

theorem pictureClasses_coherent : pictureClasses.Coherent :=
  Directory.coherent_of_members (by decide)

theorem picture_bare : picture.Bare pictureSession.graph where
  made := rfl
  cell := ⟨_, rfl, rfl⟩
  keys name own hown := by
    have hmem : (name, own) ∈ [("id", some (⟨.string "m", .here⟩ : Slot))] := Fields.mem_of_get? hown
    obtain ⟨-, rfl⟩ := Prod.mk.inj (List.mem_singleton.1 hmem)
    exact ⟨_, rfl, .inl ⟨_, rfl⟩⟩

theorem pictureSession_trees : pictureSession.store.Trees := by
  refine Database.forall_documents fun entry hentry document hdocument => ?_
  simp only [pictureSession, List.mem_cons, List.not_mem_nil, or_false] at hentry
  rcases hentry with rfl | rfl <;> obtain rfl := List.mem_singleton.1 hdocument <;>
    exact fun r hr => by cases hr

theorem loadedPicture_found :
    (load pictureClasses picture .all true pictureSession).1 = .ok (some picture) := by
  cbv

theorem loadedPicture_graph : loadedPicture.graph = { cells := #[
    { slots := [("id", some ⟨.string "m", .store⟩),
        ("director", some ⟨.record (.made 1 artistClass), .store⟩),
        ("producer", some ⟨.record (.made 2 artistClass), .store⟩)], isNew := false },
    { slots := [("id", some ⟨.string "p", .store⟩), ("name", some ⟨.string "Anna", .store⟩)],
      isNew := false },
    { slots := [("id", some ⟨.string "p", .store⟩)], isNew := false }] } := by
  cbv

theorem load_follows_picture :
    ∃ visits : List Visit, (∃ e ∈ visits, e.record = picture ∧ e.asked = .all ∧
        (∃ g, readSelector pictureClasses picture .all pictureSession.graph = (.ok e.selector, g)) ∧
        (e.document? pictureSession.store).isSome) ∧
      ∀ e ∈ visits, e.Complete pictureClasses pictureSession.store loadedPicture.graph ∧
        ((e.document? pictureSession.store).isSome →
          ∀ a ∈ pictureClasses.attributes e.record.cls, e.asked.Selects a.name →
            ∀ r ∈ loadedPicture.graph.held e.record a.name,
              Followed pictureClasses pictureSession.store loadedPicture.graph visits
                (e.selector.get a.name) r) := by
  have hload : load pictureClasses picture .all true pictureSession =
      (.ok (some picture), loadedPicture) := by
    rw [← loadedPicture_found, loadedPicture]
    exact (Prod.eta _).symm
  exact load_follows pictureClasses_lawful (Directory.forall_attributes (by decide))
    pictureClasses_coherent pictureSession_trees
    (picture_bare.typed (Directory.inherits_declared _ (by decide))) (Set.mem_singleton picture) rfl rfl
    hload

/-- The producer is the director, but was not loaded. -/
theorem load_leaves_producer :
    (load pictureClasses picture .all true pictureSession).1 = .ok (some picture) ∧
      ∃ director producer : RecordRef, ∃ document : Document,
        loadedPicture.graph.held picture "director" = [director] ∧
        loadedPicture.graph.held picture "producer" = [producer] ∧
        pictureSession.store.isRegistered producer.cls = true ∧
        loadedPicture.graph.identifier? pictureClasses producer = some ("id", .string "p") ∧
        pictureSession.store.stored? producer.cls [("id", .string "p")] = some document ∧
        Fields.get? "name" document = some (.string "Anna") ∧
        loadedPicture.graph.own? director "name" = some (some ⟨.string "Anna", .store⟩) ∧
        loadedPicture.graph.own? producer "name" = none := by
  rw [loadedPicture_graph]
  exact ⟨loadedPicture_found, .made 1 artistClass, .made 2 artistClass, _, rfl, rfl, rfl, rfl, rfl, rfl,
    rfl, rfl⟩

end Store

end TypedRecords
