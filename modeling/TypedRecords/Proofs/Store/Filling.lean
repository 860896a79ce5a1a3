import Mathlib
import TypedRecords.Proofs.Store.Conveying
import TypedRecords.Proofs.Store.Delivering
import TypedRecords.Proofs.Store.Interrupted
import TypedRecords.Proofs.Store.Thinned

/-! # What a load writes

A load writes the attributes that its selector lists, and nothing else of its record: what is read of the
document is decoded, and what it leaves out is missing. The tags of a document are not attributes, so an
attribute that has the name of one stays as it was where the document has something under that name.
-/

namespace TypedRecords

open TypedRecords.Graph (Leaves)

variable {d : Directory} {registry : RegistryRef} {r : RecordRef} {names : List String}
  {g g₀ g₁ g' : Graph} {picked : Object}

theorem Graph.own?_marked (g : Graph) (r : RecordRef) (fields : Object) (q : RecordRef) (name : String) :
    (g.marked r fields).own? q name = g.own? q name := by
  unfold marked
  split
  · exact own?_mark g r _ q name
  · rfl

/-- A tree was decoded to a value, in a graph that had grown out of the first one. The records that were
made for it are in the other graph as they were made. -/
def DecodedSince (d : Directory) (registry : RegistryRef) (t v : Value) (g g₁ : Graph) : Prop :=
  ∃ before after, g.cells.size ≤ before.cells.size ∧
    Record.decode d registry .store t before = (.ok v, after) ∧
      Leaves (before.cells.size ≤ ·) after g₁

/-- A record was filled with what was picked of a document for the names: `g₁` is the graph in which that
was done, `g'` the one that was left in the end. -/
structure Fills (d : Directory) (registry : RegistryRef) (r : RecordRef) (names : List String)
    (picked : Object) (g g₁ g' : Graph) : Prop where
  attributes : ∀ name ∈ names, ∃ a, (d.definition r.cls).attribute? name = some a
  assigned : ∀ name ∈ names, name ≠ Tree.classTag → name ≠ Tree.newTag → ∀ t,
    Fields.get? name picked = some t →
      ∃ v, g'.own? r name = some (some ⟨v, .store⟩) ∧ DecodedSince d registry t v g g₁
  missing : ∀ name ∈ names, Fields.get? name picked = none → ∀ a,
    (d.definition r.cls).attribute? name = some a → g'.own? r name = some (Store.missingSlot a)
  tagged : ∀ name, name = Tree.classTag ∨ name = Tree.newTag → Fields.get? name picked ≠ none →
    g'.own? r name = g.own? r name
  others : ∀ name ∉ names, g'.own? r name = g.own? r name
  isNew : g'.isNew r = false

namespace Fills

/-- What is done elsewhere afterwards does not matter. -/
theorem spared (h : Fills d registry r names picked g g₁ g₁) (hspares : g₁.Spares r g') :
    Fills d registry r names picked g g₁ g' where
  attributes := h.attributes
  assigned name hname hclass hnew t ht := by
    obtain ⟨v, hv, hdecoded⟩ := h.assigned name hname hclass hnew t ht
    exact ⟨v, (hspares.own name).trans hv, hdecoded⟩
  missing name hname hnone a ha := (hspares.own name).trans (h.missing name hname hnone a ha)
  tagged name htag hsome := (hspares.own name).trans (h.tagged name htag hsome)
  others name hname := (hspares.own name).trans (h.others name hname)
  isNew := hspares.isNew.trans h.isNew

/-- Nor does what was done elsewhere before. -/
theorem before (h : Fills d registry r names picked g g₁ g') (hsize : g₀.cells.size ≤ g.cells.size)
    (hspares : g₀.Spares r g) : Fills d registry r names picked g₀ g₁ g' where
  attributes := h.attributes
  assigned name hname hclass hnew t ht := by
    obtain ⟨v, hv, start, last, hstart, hdecode, hleaves⟩ := h.assigned name hname hclass hnew t ht
    exact ⟨v, hv, start, last, hsize.trans hstart, hdecode, hleaves⟩
  missing := h.missing
  tagged name htag hsome := (h.tagged name htag hsome).trans (hspares.own name)
  others name hname := (h.others name hname).trans (hspares.own name)
  isNew := h.isNew

/-- What has the name of a tag still holds no records, be it read or not. -/
theorem records_eq_nil (h : Fills d registry r names picked g g₁ g') {name : String} (hname : name ∈ names)
    (htag : name = Tree.classTag ∨ name = Tree.newTag)
    (hplain : ∀ v, g.value? r name = some v → v.records = []) {v : Value}
    (hv : g'.value? r name = some v) : v.records = [] := by
  cases hget : Fields.get? name picked with
  | none =>
    obtain ⟨a, ha⟩ := h.attributes name hname
    rw [Graph.value?, h.missing name hname hget a ha, Store.missingSlot] at hv
    split at hv <;> cases hv
    rfl
  | some t =>
    rw [Graph.value?_congr (h.tagged name htag (by simp [hget]))] at hv
    exact hplain v hv

end Fills

namespace Store

variable {fields : Fields Selector} {document : Document}

theorem applyDocument_fills (hr : r.serial < g.cells.size)
    (hnames : ∀ name ∈ Fields.keys fields, ∃ a, (d.definition r.cls).attribute? name = some a)
    (h : applyDocument d registry r (.only fields)
      (Document.project document (Projection.ofSelector? (.only fields))) g = (.ok (), g')) :
    Fills d registry r (Fields.keys fields) (document.selected fields) g g' g' := by
  obtain ⟨picked, g₁, hpick, hstaged⟩ := applyDocument_staged (s := .only fields) hr hnames h
  obtain rfl : picked = document.selected fields := by
    rw [Selector.pick_object] at hpick
    exact (Value.object.inj hpick).symm
  obtain ⟨cell, hcell⟩ : ∃ cell, (g.marked r (document.selected fields)).cell? r = some cell := by
    refine ⟨_, Array.getElem?_eq_getElem ?_⟩
    rwa [Graph.size_marked]
  have hassigns := Record.assigns_of_distinct (document.distinct_selected fields) hcell hstaged.assigned
  refine ⟨hnames, ?_, hstaged.missing, ?_, ?_, hstaged.isNew⟩
  · intro name _ hclass hnew t ht
    have hmem : (name, t) ∈ (document.selected fields).filter fun e => e.1 != Tree.newTag := by
      simpa [hnew] using Fields.mem_of_get? ht
    obtain ⟨v, hv, before, after, hbefore, hdecoded, hafter⟩ := hassigns.assigned name t hmem hclass
    have hsize := hbefore.size
    rw [Graph.size_marked] at hsize
    refine ⟨v, ?_, before, after, hsize, hdecoded, ?_⟩
    · rw [hstaged.kept name (.inr (by simp [ht])), hv]
    · exact (hafter.trans hstaged.leaves).imp fun n hn => by omega
  · intro name htag hpresent
    rw [hstaged.kept name (.inr hpresent), hassigns.other name, Graph.own?_marked]
    intro t hmem
    refine htag.resolve_right fun hnew => ?_
    simpa [hnew] using (List.mem_filter.1 hmem).2
  · intro name hname
    rw [hstaged.kept name (.inl hname), hassigns.other name, Graph.own?_marked]
    intro t hmem
    have hkeys := Fields.mem_keys_of_mem (List.mem_filter.1 hmem).1
    exact (Document.keys_selected hkeys).resolve_left hname

/-! ### Loads that find a document -/

theorem readSelector_size {known : Set RecordRef} {asked : Selector} {result : Except Error Selector}
    (hsound : g.Sound known) (hr : r ∈ known) (h : readSelector d r asked g = (result, g')) :
    g.cells.size ≤ g'.cells.size := by
  have hreading := Graph.viewed_allowsReading g known
  obtain ⟨after, -, hviewed, -⟩ :=
    (keepsIn_readSelector hreading hr asked).of_run subset_rfl hsound.viewed h
  exact hviewed.size

theorem Alike.of_load {S S' : Session} (htrees : S.store.Trees) {asked : Selector}
    {throwIfMissing : Bool} {result : Except Error (Option RecordRef)}
    (h : load d r asked throwIfMissing S = (result, S')) : S.store.Alike S'.store := by
  have hI := anywhere_allowsWriting d
  have hJ := alike_allowsLoading (d := d) (C := fun _ => True) htrees fun _ _ _ _ => trivial
  obtain ⟨-, -, ⟨-, halike⟩, -⟩ :=
    (keepsIn_load hI hJ (Set.mem_univ r) asked throwIfMissing).of_run subset_rfl ⟨rfl, .refl S.store⟩ h
  exact halike

/-- A load that has read a document, in the session `S₁` once that had been applied. -/
structure Loaded (d : Directory) (r : RecordRef) (asked s : Selector) (picked : Object)
    (S S₁ S' : Session) : Prop where
  selected : (readSelector d r asked S.graph).1 = .ok s
  read : ∃ identifier document, S.graph.identifier? d r = some identifier ∧
    S.store.stored? r.cls [identifier] = some document ∧
    Selector.pick [Tree.classTag] s (.object (Document.project document (Projection.ofSelector? s))) =
      .object picked
  fills : Fills d S.store.registry r s.names picked S.graph S₁.graph S'.graph
  followed : ∃ steps visited visited' T, followNames d steps r s s.names visited S₁ = (.ok visited', T) ∧
    T.graph = S'.graph
  store : S.store.Alike S'.store

theorem Alike.of_loadWithin {S S' : Session} (htrees : S.store.Trees) {steps : Nat} {asked : Selector}
    {throwIfMissing : Bool} {visited : Visited} {result : Except Error (Bool × Visited)}
    (h : loadWithin d steps r asked throwIfMissing visited S = (result, S')) :
    S.store.Alike S'.store := by
  have hI := anywhere_allowsWriting d
  have hJ := alike_allowsLoading (d := d) (C := fun _ => True) htrees fun _ _ _ _ => trivial
  obtain ⟨-, -, ⟨-, halike⟩, -⟩ := (keepsIn_loadWithin hI hJ steps (Set.mem_univ r) asked
    throwIfMissing visited).of_run subset_rfl ⟨rfl, .refl S.store⟩ h
  exact halike

theorem loadWithin_fills (hd : d.Lawful) {known : Set RecordRef} {S S' : Session}
    (hsound : S.graph.Sound known) (hr : r ∈ known) (hmade : r.base? = none)
    (hresting : S.graph.isResolving r = false) (htrees : S.store.Trees)
    (hplain : ∀ a ∈ d.attributes r.cls, a.name = Tree.classTag ∨ a.name = Tree.newTag →
      ∀ v, S.graph.value? r a.name = some v → v.records = [])
    {asked : Selector} {throwIfMissing : Bool} {steps : Nat} {visited' : Visited}
    (h : loadWithin d (steps + 1) r asked throwIfMissing [] S = (.ok (true, visited'), S')) :
    ∃ s picked S₁, Loaded d r asked s picked S S₁ S' := by
  have halike := Alike.of_loadWithin htrees h
  obtain ⟨-, identifier, hidentifier, hsteps⟩ := loadWithin_steps hmade h
  cases hsteps with
  | visited hvisited => cases hvisited
  | @found s g document S₁ _ _ new selector stored applied store followed =>
    have hattribute := readSelector_attribute? hd hmade hresting selector
    obtain ⟨fields, rfl, hchosen⟩ := readSelector_chosen hd hmade hresting selector
    obtain ⟨hspares, hlt⟩ := readSelector_spares hsound hr hmade selector
    have hsize := readSelector_size hsound hr selector
    have hfills := (applyDocument_fills hlt hattribute applied).before hsize hspares
    have hdocument := (Value.partOf_project document (Projection.ofSelector? (.only fields))).within
      (htrees _ document (stored?_eq_some stored).1)
    obtain ⟨-, hi, hlo, hhi, hconfined, hheld⟩ :=
      applyDocument_eq_ok_confined hlt hattribute hdocument applied
    have hwithin : ∀ name ∈ Fields.keys fields,
        Record.HoldsWithin S₁.graph r g.cells.size hi name := by
      intro name hname
      by_cases htag : name = Tree.classTag ∨ name = Tree.newTag
      · obtain ⟨a, ha, rfl⟩ := hchosen.names name hname
        intro v hv q hq
        rw [hfills.records_eq_nil hname htag (hplain a ha htag) hv] at hq
        cases hq
      · exact hheld name hname htag
    have hspared : S₁.graph.Spares r S'.graph :=
      followNames_spares (store.trees htrees) hmade hlt hlo hhi hconfined hwithin followed
    refine ⟨.only fields, document.selected fields, S₁, congrArg Prod.fst selector, ?_,
      hfills.spared hspared, ⟨steps, _, _, S', followed, rfl⟩, halike⟩
    exact ⟨identifier, document, hidentifier, stored, Selector.pick_object _ _ _⟩

/-- A load that finds a document writes what its selector lists, and nothing else of its record. -/
theorem load_fills (hd : d.Lawful) {known : Set RecordRef} {S S' : Session}
    (hsound : S.graph.Sound known) (hr : r ∈ known) (hmade : r.base? = none)
    (hresting : S.graph.isResolving r = false) (htrees : S.store.Trees)
    (hplain : ∀ a ∈ d.attributes r.cls, a.name = Tree.classTag ∨ a.name = Tree.newTag →
      ∀ v, S.graph.value? r a.name = some v → v.records = [])
    {asked : Selector} {throwIfMissing : Bool} {x : RecordRef}
    (h : load d r asked throwIfMissing S = (.ok (some x), S')) :
    x = r ∧ ∃ s picked S₁, Loaded d r asked s picked S S₁ S' := by
  have halike := Alike.of_load htrees h
  obtain ⟨steps, run, T, hloaded, hgraph, hresult⟩ := load_eq h
  cases run with
  | error e => cases hresult
  | ok answer =>
    obtain ⟨found, visited'⟩ := answer
    cases found with
    | false => cases hresult
    | true =>
      obtain ⟨s, picked, S₁, hread⟩ :=
        loadWithin_fills hd hsound hr hmade hresting htrees hplain hloaded
      obtain ⟨steps, visited, visited', U, hfollowed, hU⟩ := hread.followed
      exact ⟨Option.some.inj (Except.ok.inj hresult), s, picked, S₁, hread.selected, hread.read,
        hgraph ▸ hread.fills, ⟨steps, visited, visited', U, hfollowed, hU.trans hgraph.symm⟩, halike⟩

/-! ### An example: books that say whether they are new -/

namespace Shelf

def bookClass : ClassRef := .declared 0 "Book"

/-- Books on shelves, with an attribute that has the name of a tag. -/
def classes : Directory where
  classes := #[
    { definition := {
        attributes := [("id", ⟨"id", .primary, .scalar .string {}, none⟩),
          ("title", ⟨"title", .plain, .scalar .string { optional := true }, none⟩),
          ("shelf", ⟨"shelf", .plain, .scalar .string {}, none⟩),
          ("sequel", ⟨"sequel", .plain, .reference "Book" false { optional := true }, none⟩),
          (Tree.newTag, ⟨Tree.newTag, .plain, .scalar .boolean {}, none⟩)]
        indexes := [], embedded := false, storable := true }
      registry := some ⟨0⟩ }]
  registries := #[{ members := [("Book", bookClass)] }]

def book : RecordRef := .made 0 bookClass

def storedBook : Document :=
  [(Tree.classTag, .string "Book"), ("id", .string "b"), ("title", .string "Dune"),
    ("sequel", .object [(Tree.classTag, .string "Book"), ("id", .string "c")]),
    (Tree.newTag, .boolean true)]

def storedSequel : Document :=
  [(Tree.classTag, .string "Book"), ("id", .string "c"), ("title", .string "Dune Messiah"),
    (Tree.newTag, .boolean true)]

/-- A book that is on another shelf than it was, and no longer new. -/
def session : Session where
  graph := { cells := #[{ isNew := false, slots := [("id", some ⟨.string "b", .here⟩),
    ("title", some ⟨.string "Dune 1", .here⟩), ("shelf", some ⟨.string "novels", .here⟩),
    (Tree.newTag, some ⟨.boolean false, .here⟩)] }] }
  store := {
    ref := ⟨0⟩, registry := ⟨0⟩, storables := [("Book", bookClass)]
    database := { collections := [("Book", { documents := [storedBook, storedSequel]
                                             indexes := [] })] } }

/-- All but the title. -/
def asked : Selector :=
  .only [("shelf", .all), ("sequel", .all), (Tree.newTag, .all)]

/-- The identifier is read as well. -/
def listed : Selector :=
  .only [("id", .all), ("shelf", .all), ("sequel", .all), (Tree.newTag, .all)]

def loaded : Session := (load classes book asked true session).2

theorem load_ok : load classes book asked true session = (.ok (some book), loaded) := by
  have hfound : (load classes book asked true session).1 = .ok (some book) := by
    cbv
  rw [← hfound, loaded]
  exact (Prod.eta _).symm

theorem readSelector_listed : (readSelector classes book asked session.graph).1 = .ok listed := by
  cbv

theorem classes_lawful : classes.Lawful :=
  Directory.lawful_of_entries (by decide) (by decide)

theorem session_trees : session.store.Trees := by
  refine Database.forall_documents fun entry hentry document hdocument => ?_
  obtain rfl := List.mem_singleton.1 hentry
  rcases List.mem_pair.1 hdocument with rfl | rfl <;> exact fun r hr => by cases hr

theorem session_sound : session.graph.Sound {book} :=
  .of_list [book] (by simp) (by decide) (by decide)

/-- The book is on no shelf any more, its sequel is read and followed, and the title is as it was. -/
theorem load_fills_book : load classes book asked true session = (.ok (some book), loaded) ∧
    ∃ s picked S₁, Loaded classes book asked s picked session S₁ loaded := by
  refine ⟨load_ok, (load_fills classes_lawful session_sound (Set.mem_singleton book) rfl rfl
    session_trees ?_ load_ok).2⟩
  intro a _ htag v hv
  rcases htag with htag | htag <;> rw [htag] at hv <;> cases hv
  rfl

/-- The document says that the book is new, and that is selected. It is not read. -/
theorem load_keeps_newTag :
    ∃ picked, (readSelector classes book asked session.graph).1 = .ok listed ∧
      Selector.pick [Tree.classTag] listed
        (.object (Document.project storedBook (Projection.ofSelector? listed))) = .object picked ∧
      Tree.newTag ∈ listed.names ∧ Fields.get? Tree.newTag picked = some (.boolean true) ∧
      load classes book asked true session = (.ok (some book), loaded) ∧
      loaded.graph.own? book Tree.newTag = some (some ⟨.boolean false, .here⟩) := by
  refine ⟨_, readSelector_listed, Selector.pick_object _ _ _, ?_, ?_, load_ok, ?_⟩
  · simp [listed, Selector.names, Fields.keys]
  · cbv
  · cbv

end Shelf

end Store

end TypedRecords
