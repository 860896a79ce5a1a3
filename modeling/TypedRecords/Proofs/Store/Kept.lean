import TypedRecords.Proofs.Document.Written
import TypedRecords.Proofs.Store.Saves
import TypedRecords.Proofs.Store.Spelled
import TypedRecords.Proofs.Store.Working

/-! # Documents that are kept

What holds of every document that a store has written, and of any two of one collection: a document is
shaped like its class, and no two have one primary identifier. Only a document that is created is checked
against the others, but one that is patched keeps its primary identifier: either the record is described
by it, or the record sees none.
-/

namespace TypedRecords

open Stateful (KeepsIn)

/-! ### One document -/

/-- A document with fields for attributes of a class, in which everything is plain and defined. -/
structure Document.Shaped (d : Directory) (c : ClassRef) (document : Document) : Prop where
  distinct : Fields.Distinct document
  names : ∀ name ∈ Fields.keys document,
    name = Tree.classTag ∨ ∃ a ∈ d.attributes c, a.name = name
  tag : (∀ a ∈ d.attributes c, a.name ≠ Tree.classTag) →
    Fields.get? Tree.classTag document = some (.string c.name)
  concrete : (Value.object document).Concrete

/-- Attributes have names that are not empty and have no point in them. -/
def Directory.NamesProperly (d : Directory) : Prop := ∀ c, ∀ a ∈ d.attributes c, Path.IsName a.name

variable {d : Directory} {c : ClassRef} {r : RecordRef} {g : Graph} {p : Store.Prepared}
  {known : Set RecordRef}

namespace Document.Shaped

theorem congr {document : Document} (h : Document.Shaped d c document) {d' : Directory} {c' : ClassRef}
    (hdefinition : d'.definition c' = d.definition c) (hname : c'.name = c.name) :
    Document.Shaped d' c' document := by
  have hattributes : d'.attributes c' = d.attributes c := by
    rw [Directory.attributes, hdefinition, Directory.attributes]
  exact ⟨h.distinct, hattributes ▸ h.names, by rw [hattributes, hname]; exact h.tag, h.concrete⟩

/-- What is created for a record. -/
theorem created (h : p.Spells d g r) : Document.Shaped d r.cls (Value.stripFields p.document) where
  distinct := Value.distinct_stripFields h.distinct
  names name hname := h.names name ((Value.keys_stripFields_sublist _).subset hname)
  tag hnamed := by
    refine Fields.get?_of_mem (Value.distinct_stripFields h.distinct) (Value.mem_stripFields.2 ?_)
    exact ⟨.string r.className, Fields.mem_of_get? (h.tag hnamed), by simp, rfl⟩
  concrete := Value.concrete_stripFields h.plain

theorem names_of_spells (hd : d.NamesProperly) (h : p.Spells d g r) :
    ∀ name ∈ Fields.keys p.document, Path.IsName name := by
  intro name hname
  rcases h.names name hname with rfl | ⟨a, ha, rfl⟩
  · decide
  · exact hd r.cls a ha

/-- What is left of a document that is patched with a record of its class. -/
theorem patched (hd : d.NamesProperly) (h : p.Spells d g r) {document : Document}
    (hdocument : Document.Shaped d r.cls document) :
    Document.Shaped d r.cls ((Patch.ofDocument p.document).apply document) where
  distinct := Patch.distinct_apply _ hdocument.distinct
  names name hname := by
    rcases Patch.mem_keys_apply_ofDocument (names_of_spells hd h) hname with hname | hname
    · exact h.names name hname
    · exact hdocument.names name hname
  tag hnamed :=
    Patch.get?_apply_ofDocument h.distinct (names_of_spells hd h) (h.tag hnamed) rfl
      hdocument.distinct
  concrete := Patch.concrete_apply_ofDocument h.plain hdocument.concrete

end Document.Shaped

/-! ### Two documents -/

/-- Two documents hold no equal values under a name. -/
def Document.Differ (name : String) (x y : Document) : Prop :=
  ∀ u v, Fields.get? name x = some u → Fields.get? name y = some v →
    u.beq v = false ∧ v.beq u = false

theorem pairwise_set {α : Type} {R : α → α → Prop} {items : List α} {i : Nat} {a b : α}
    (h : items.Pairwise R) (hi : items[i]? = some a) (hleft : ∀ x, R a x → R b x)
    (hright : ∀ x, R x a → R x b) : (items.set i b).Pairwise R := by
  induction items generalizing i with
  | nil => cases hi
  | cons x rest ih =>
    obtain ⟨hx, hrest⟩ := List.pairwise_cons.1 h
    cases i with
    | zero =>
      cases hi
      exact List.pairwise_cons.2 ⟨fun y hy => hleft y (hx y hy), hrest⟩
    | succ i =>
      refine List.pairwise_cons.2 ⟨fun y hy => ?_, ih hrest hi⟩
      rcases List.mem_or_eq_of_mem_set hy with hy | rfl
      · exact hx y hy
      · exact hright x (hx a (List.mem_of_getElem? hi))

namespace Document.Differ

variable {a : Attribute} {x y : Document}

theorem symm {name : String} (h : Document.Differ name x y) : Document.Differ name y x :=
  fun u v hu hv => (h v u hv hu).symm

/-- A document that is created for a record differs from those that the descriptor does not describe. -/
theorem created (h : p.Spells d g r) (ha : (d.definition r.cls).primary? = some a)
    (hname : a.name ≠ Tree.classTag) (hx : Collection.holds x p.descriptor = false) :
    Document.Differ a.name x (Value.stripFields p.document) := by
  intro u t hu ht
  obtain ⟨v, hv, hdefined, rfl⟩ := Value.mem_stripFields.1 (Fields.mem_of_get? ht)
  obtain ⟨hkey, hdescriptor⟩ :=
    (h.primary ha hname (Fields.get?_of_mem h.distinct hv)).resolve_left hdefined
  have hequal : u.beq v = false := by simpa [hdescriptor, Collection.holds, hu] using hx
  rw [hkey.strip]
  exact ⟨hequal, (hkey.beq_comm u).trans hequal⟩

/-- A document that is patched with a record differs from those from which it differed before. -/
theorem patched (hd : d.NamesProperly) (h : p.Spells d g r)
    (ha : (d.definition r.cls).primary? = some a) (hname : a.name ≠ Tree.classTag)
    (hx : Fields.Distinct x) (hholds : Collection.holds x p.descriptor = true)
    (hy : Document.Differ a.name x y) :
    Document.Differ a.name ((Patch.ofDocument p.document).apply x) y := by
  intro t w ht hw
  have hnames := Document.Shaped.names_of_spells hd h
  cases hread : Fields.get? a.name p.document with
  | none =>
    rw [Patch.get?_apply_ofDocument_of_not_mem hnames ((Fields.get?_eq_none_iff _ _).1 hread)] at ht
    exact hy t w ht hw
  | some v =>
    rcases h.primary ha hname hread with rfl | ⟨hkey, hdescriptor⟩
    · rw [Patch.get?_apply_ofDocument h.distinct hnames hread rfl hx] at ht
      cases ht
    · rw [Patch.get?_apply_ofDocument h.distinct hnames hread hkey.asObject? hx, hkey.overlay] at ht
      cases ht
      obtain ⟨u, hu, hequal⟩ := Collection.holds_singleton (hdescriptor ▸ hholds)
      have hbefore := (hy u w hu hw).1
      rw [hkey.beq_congr hequal] at hbefore
      exact ⟨hbefore, (hkey.beq_comm w).symm.trans hbefore⟩

end Document.Differ

namespace Store

/-! ### Stores -/

/-- What a store keeps of all that was written there. -/
structure Kept (d : Directory) (s : Store) : Prop where
  storables : ∀ name c, Fields.get? name s.storables = some c → c.name = name ∧ d.Inherits c
  shaped : ∀ collection, ∀ document ∈ s.database.documents collection,
    ∃ c, Fields.get? c.name s.storables = some c ∧ s.collectionName c = collection ∧
      Document.Shaped d c document
  unique : ∀ c, Fields.get? c.name s.storables = some c → ∀ a,
    (d.definition c).primary? = some a → a.name ≠ Tree.classTag →
      (s.database.documents (s.collectionName c)).Pairwise (Document.Differ a.name)

namespace Kept

variable {s s' : Store}

theorem empty (hstorables : ∀ name c, Fields.get? name s.storables = some c →
      c.name = name ∧ d.Inherits c) (hempty : ∀ name, s.database.documents name = []) :
    s.Kept d where
  storables := hstorables
  shaped collection document hdocument := by
    rw [hempty] at hdocument
    cases hdocument
  unique c _ a _ _ := by
    rw [hempty]
    exact .nil

theorem storable_unique {c c' : ClassRef}
    (hc : Fields.get? c.name s.storables = some c) (hc' : Fields.get? c'.name s.storables = some c')
    (hname : s.collectionName c' = s.collectionName c) : c' = c := by
  have hnames : c'.name = c.name := by
    simpa [collectionName, Settings.collectionName] using hname
  rw [hnames, hc] at hc'
  exact (Option.some.inj hc').symm

theorem shaped_of (h : s.Kept d) (hc : Fields.get? c.name s.storables = some c) :
    ∀ document ∈ s.database.documents (s.collectionName c), Document.Shaped d c document := by
  intro document hdocument
  obtain ⟨c', hc', hname, hshaped⟩ := h.shaped _ document hdocument
  rw [← storable_unique hc hc' hname]
  exact hshaped

theorem thinned (h : s.Kept d) {database : Database} {trace : Option (List TraceEntry)}
    {journal : Option (List JournalEntry)}
    (hdocuments : ∀ name, (database.documents name).Sublist (s.database.documents name)) :
    ({ s with database, trace, journal } : Store).Kept d where
  storables := h.storables
  shaped collection document hdocument :=
    h.shaped collection document ((hdocuments collection).subset hdocument)
  unique c hc a ha hname := (h.unique c hc a ha hname).sublist (hdocuments _)

theorem put (h : s.Kept d) (hc : Fields.get? c.name s.storables = some c) {collection : Collection}
    (hshaped : ∀ document ∈ collection.documents, Document.Shaped d c document)
    (hunique : ∀ a, (d.definition c).primary? = some a → a.name ≠ Tree.classTag →
      collection.documents.Pairwise (Document.Differ a.name)) :
    ({ s with database := s.database.put (s.collectionName c) collection } : Store).Kept d where
  storables := h.storables
  shaped name document hdocument := by
    by_cases hname : name = s.collectionName c
    · subst hname
      refine ⟨c, hc, rfl, hshaped document ?_⟩
      rwa [Database.documents, Database.collection_put_self] at hdocument
    · rw [Database.documents, Database.collection_put_of_ne _ hname] at hdocument
      exact h.shaped name document hdocument
  unique c' hc' a ha hne := by
    have hcollection : ∀ name, ({ s with database := s.database.put (s.collectionName c) collection } :
        Store).collectionName name = s.collectionName name := fun _ => rfl
    rw [hcollection]
    by_cases hname : s.collectionName c' = s.collectionName c
    · obtain rfl := storable_unique hc hc' hname
      rw [Database.documents, Database.collection_put_self]
      exact hunique a ha hne
    · rw [Database.documents, Database.collection_put_of_ne _ hname]
      exact h.unique c' hc' a ha hne

/-- The class in whose collection the documents of a record are. -/
theorem exists_storable (h : s.Kept d) (hr : d.Inherits r.cls)
    (hregistered : s.isRegistered r.cls = true) :
    ∃ c, Fields.get? c.name s.storables = some c ∧ c.name = r.cls.name ∧
      d.definition c = d.definition r.cls := by
  unfold isRegistered at hregistered
  cases hc : Fields.get? r.cls.name s.storables with
  | none =>
    rw [hc] at hregistered
    cases hregistered
  | some c =>
    rw [hc] at hregistered
    have hname := (h.storables _ c hc).1
    exact ⟨c, hname.symm ▸ hc, hname, (hr c hregistered).2.symm⟩

theorem shaped_of_registered (h : s.Kept d) (hc : d.Inherits c) (hregistered : s.isRegistered c = true) :
    ∀ document ∈ s.database.documents (s.collectionName c), Document.Shaped d c document := by
  obtain ⟨c', hc', hname, hdefinition⟩ := h.exists_storable (r := .made 0 c) hc hregistered
  intro document hdocument
  rw [collectionName, show c.name = c'.name from hname.symm] at hdocument
  exact (h.shaped_of hc' document hdocument).congr hdefinition.symm hname.symm

theorem unique_of_registered (h : s.Kept d) (hc : d.Inherits c) (hregistered : s.isRegistered c = true)
    (a : Attribute) (ha : (d.definition c).primary? = some a) (hne : a.name ≠ Tree.classTag) :
    (s.database.documents (s.collectionName c)).Pairwise (Document.Differ a.name) := by
  obtain ⟨c', hc', hname, hdefinition⟩ := h.exists_storable (r := .made 0 c) hc hregistered
  rw [collectionName, show c.name = c'.name from hname.symm]
  exact h.unique c' hc' a (hdefinition ▸ ha) hne

/-- The collection of a class that is not there is empty. -/
theorem documents_eq_nil (h : s.Kept d) (hc : Fields.get? c.name s.storables = none) :
    s.database.documents (s.collectionName c) = [] := by
  refine List.eq_nil_iff_forall_not_mem.2 fun document hdocument => ?_
  obtain ⟨c', hc', hcollection, -⟩ := h.shaped _ document hdocument
  have hnames : c'.name = c.name := by
    simpa [collectionName, Settings.collectionName] using hcollection
  rw [hnames, hc] at hc'
  cases hc'

/-- The call of a save keeps all of this, whether the record is new or not. -/
theorem saved (hd : d.NamesProperly) (h : s.Kept d) (hr : d.Inherits r.cls)
    (hregistered : s.isRegistered r.cls = true) (hp : p.Spells d g r) (isNew : Bool) :
    ({ s with database := ((savingCall isNew p).run (s.collectionName r.cls) s.database).2 } :
      Store).Kept d := by
  obtain ⟨c, hc, hname, hdefinition⟩ := h.exists_storable hr hregistered
  have hcollection : s.collectionName r.cls = s.collectionName c := by
    rw [collectionName, ← hname]
    rfl
  have hof : ∀ {document}, Document.Shaped d r.cls document → Document.Shaped d c document :=
    fun hshaped => hshaped.congr hdefinition hname
  have hshaped := h.shaped_of hc
  have hprimary : ∀ a, (d.definition c).primary? = some a → (d.definition r.cls).primary? = some a :=
    fun a ha => hdefinition ▸ ha
  rw [hcollection]
  cases isNew with
  | true =>
    simp only [savingCall, if_true, Call.run, Call.run.answer]
    rcases hcreate : s.database.create (s.collectionName c) p.descriptor
      (Value.stripFields p.document) with ⟨outcome, after⟩
    rcases Database.create_cases hcreate with rfl | ⟨hnone, rfl⟩
    · exact h
    · refine h.put hc (fun document hdocument => ?_) fun a ha hne => ?_
      · rcases List.mem_append.1 hdocument with hdocument | hdocument
        · exact hshaped document hdocument
        · rw [List.mem_singleton.1 hdocument]
          exact hof (.created hp)
      · refine List.pairwise_append.2 ⟨h.unique c hc a ha hne, List.pairwise_singleton _ _, ?_⟩
        intro x hx y hy
        rw [List.mem_singleton.1 hy]
        exact .created hp (hprimary a ha) hne (Collection.holds_eq_false hp.descriptor_ne_nil hnone hx)
  | false =>
    simp only [savingCall, Bool.false_eq_true, if_false, Call.run, Call.run.answer]
    rcases hupdate : s.database.update (s.collectionName c) p.descriptor
      (Patch.ofDocument p.document) with ⟨outcome, after⟩
    rcases Database.update_cases hupdate with rfl | ⟨i, stored, hi, hstored, rfl⟩
    · exact h
    · obtain ⟨stored', hstored', hholds⟩ := Collection.position?_eq_some hi
      obtain rfl := Option.some.inj (hstored.symm.trans hstored')
      have hbefore := hshaped stored (List.mem_of_getElem? hstored)
      refine h.put hc (fun document hdocument => ?_) fun a ha hne => ?_
      · rcases List.mem_or_eq_of_mem_set hdocument with hdocument | rfl
        · exact hshaped document hdocument
        · exact hof (.patched hd hp (hbefore.congr hdefinition.symm hname.symm))
      · have hdiffer : ∀ y, Document.Differ a.name stored y →
            Document.Differ a.name ((Patch.ofDocument p.document).apply stored) y :=
          fun y => .patched hd hp (hprimary a ha) hne hbefore.distinct hholds
        exact pairwise_set (h.unique c hc a ha hne) hstored hdiffer
          fun y hy => (hdiffer y hy.symm).symm

end Kept

/-! ### Operations -/

theorem kept_allowsLoading (hcoherent : d.Coherent) :
    AllowsLoading d d.Inherits (fun call => call.adds = false) (fun _ s => s.Kept d) where
  call _ s collection call _ hcall h :=
    h.thinned fun name => Call.documents_run hcall collection s.database name
  trace _ _ _ h := h.thinned fun _ => .refl _
  mono _ _ _ _ h := h
  read _ _ := rfl
  within known s name h document hdocument := by
    obtain ⟨c, -, -, hshaped⟩ := h.shaped name document hdocument
    exact hshaped.concrete.within known
  found := hcoherent

/-- A save keeps what holds of a store if the call that it makes keeps it. -/
theorem keepsIn_save_of {A : RecordRef → String → Value → Prop} {C : ClassRef → Prop}
    {I : Set RecordRef → Graph → Prop} {J : Store → Prop} (hI : AllowsWriting d A C I)
    (halike : ∀ s s' : Store, J s → s.Alike s' → J s')
    (hsaved : ∀ {known : Set RecordRef} {g g' : Graph} {s : Store} {selector : Selector} {p : Prepared},
      I known g → J s → r ∈ known → s.isRegistered r.cls = true →
        prepare d r selector g = (.ok p, g') → ∀ isNew, J { s with
          database := ((savingCall isNew p).run (s.collectionName r.cls) s.database).2 })
    (hr : r ∈ known) (s : Selector) (expected : Expectation) :
    KeepsIn (Holding I fun _ s => J s) known (save d r s expected) fun _ _ => True := by
  have hcalls : AllowsCalls (fun _ => True) fun (_ : Set RecordRef) (_ : Store) => True :=
    ⟨fun _ _ _ _ _ _ _ => trivial, fun _ _ _ _ => trivial, fun _ _ _ _ _ => trivial⟩
  rintro before hknown S ⟨hg, hs⟩
  obtain ⟨after, hafter, ⟨hg', -⟩, -⟩ := keepsIn_save hI hcalls (fun _ _ => trivial)
    (fun _ _ => trivial) hr s expected before hknown S ⟨hg, trivial⟩
  refine ⟨after, hafter, ⟨hg', ?_⟩, fun _ _ => trivial⟩
  cases save_saves (d := d) (r := r) (s := s) (S := S) expected with
  | nothing store => exact halike _ _ hs store
  | document hregistered hprepared store =>
    exact halike _ _ (hsaved hg hs (hknown hr) hregistered hprepared _) store

theorem Kept.alike {s s' : Store} (h : s.Kept d) (hs : s.Alike s') : s'.Kept d := by
  obtain ⟨trace, journal, rfl⟩ := hs
  exact h.thinned fun _ => .refl _

/-- A save keeps what is kept, whether it succeeds or not. -/
theorem keepsIn_save_kept (hd : d.Lawful) (hnamed : d.NamesProperly) (hr : r ∈ known) (s : Selector)
    (expected : Expectation) :
    KeepsIn (Holding (fun known g => g.Typed d known) fun _ s => s.Kept d) known
      (save d r s expected) fun _ _ => True := by
  refine keepsIn_save_of (Graph.typed_allowsWriting hd) (fun _ _ => .alike)
    (fun hg hs hr hregistered hprepared isNew => ?_) hr s expected
  exact hs.saved hnamed (hg.inherits _ hr) hregistered (prepare_spells hd hg hr hprepared) isNew

end Store

end TypedRecords
