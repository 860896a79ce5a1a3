import TypedRecords.Proofs.Document.Taken
import TypedRecords.Proofs.Record.Primary
import TypedRecords.Proofs.Store.Interrupted
import TypedRecords.Proofs.Store.Kept

/-! # Loads of records under keys

Records whose primary identifiers equal keys of their own are loaded, at any depth and whether that
succeeds or not: they stay under their keys, and are not new only if there is a document with the key.
-/

namespace TypedRecords

open TypedRecords.Graph (Leaves)
open Stateful (Keeps KeepsIn)

variable {d : Directory} {registry : RegistryRef} {r : RecordRef} {key : String × Value}
  {g g' : Graph} {s asked : Selector}

/-! ### What is read of a record -/

namespace Store

/-- Completing references leaves what is selected entirely. -/
theorem get_withReferenceIdentifiers (hd : d.Lawful) {c : ClassRef} {a : Attribute}
    (ha : a ∈ d.attributes c) (h : s.get a.name = .all) :
    (withReferenceIdentifiers d c s).get a.name = .all := by
  have hfold : withReferenceIdentifiers d c s = (d.attributes c).foldl (completeAttribute d c) s := rfl
  rw [hfold]
  cases s with
  | none => cases h
  | only fields =>
    obtain ⟨fields', heq, -, hget⟩ :=
      foldl_completeAttribute (d := d) (c := c) (hd.definition c).names_nodup fields
    have hcompleted : (Selector.only fields').get a.name =
        completed d c a ((Selector.only fields).get a.name) := hget a ha
    rw [show (d.attributes c).foldl (completeAttribute d c) (.only fields) = .only fields' from heq,
      hcompleted, h]
    rfl
  | all =>
    have hall : ∀ attributes : List Attribute,
        attributes.foldl (completeAttribute d c) .all = .all := by
      intro attributes
      induction attributes with
      | nil => rfl
      | cons b rest ih => exact ih
    rw [hall]
    rfl

/-- Identifiers are read entirely, also of a record that is being resolved. -/
theorem readSelector_takes (hd : d.Lawful) (hmade : r.base? = none) {a : Attribute}
    (ha : a ∈ (d.definition r.cls).identifiers) (h : readSelector d r asked g = (.ok s, g')) :
    s.Takes a.name := by
  obtain ⟨resolved, g₁, hresolve, hpure⟩ := Stateful.bind_eq_ok h
  cases hpure
  obtain ⟨steps, g₂, hsteps, hwithin⟩ := Stateful.bind_eq_ok hresolve
  cases hsteps
  have hmem := Definition.mem_attributeList_of_identifier ha
  have hall : (toRead d r.cls asked).get a.name = .all := toRead_identifier asked ha
  have hselects : (toRead d r.cls asked).Selects a.name := by
    rw [Selector.Selects, hall]
    rfl
  refine Selector.takes_of_get (get_withReferenceIdentifiers hd hmem ?_)
  rcases Record.resolveWithin_eq_ok (toRead_isNone asked) hwithin with ⟨-, rfl⟩ | ⟨g₃, hfold, -⟩
  · exact (Selector.get_normalize hselects).trans (by rw [hall]; rfl)
  · obtain ⟨fields, rfl, hnarrowed⟩ := Record.foldlM_narrowAttribute_eq_ok
      (fun _ _ _ _ _ => Record.resolveInner_isNone) rfl rfl hmade (hd.definition r.cls).names_nodup
      (J := fun _ => True) (fun _ _ _ _ _ _ _ _ => trivial) trivial hfold
    obtain ⟨_, _, t, -, hnarrow, hget⟩ := hnarrowed.get a hmem hselects.normalize
    have hplain := ValueType.recordClass?_of_canIdentify ((hd.definition r.cls).identifies a hmem
      (Definition.isIdentifier_of_mem_identifiers ha))
    rw [hget, narrow_of_recordClass?_none hplain hselects.normalize hnarrow]
    rfl

/-! ### What applying a document leaves -/

theorem keeps_assignMissing {name : String} {I : Graph → Prop}
    (hset : ∀ v, Keeps I (Record.setFrom d .store r name v) fun _ => True)
    (hunset : ∀ g, I g → I (g.write r name none)) :
    Keeps I (assignMissing d r name) fun _ => True := by
  refine (Record.keeps_ofExcept _).bind fun a _ => ?_
  split
  · exact hset .undefined
  · exact (Record.keeps_ofExcept _).bind fun _ _ g hg => ⟨hunset g hg, fun _ _ => trivial⟩

/-- Applying a document to a record changes no other one. -/
theorem keeps_applyDocument_others (g₀ : Graph) (s : Selector) (document : Document) :
    Keeps (Leaves (Ne r.serial) g₀) (applyDocument d registry r s document) fun _ => True := by
  have hr : g₀.cells.size ≤ r.serial ∨ ¬Ne r.serial r.serial := .inr fun hne => hne rfl
  unfold applyDocument
  split
  · refine (Record.keeps_decodeInto hr _).bind fun _ _ => ?_
    refine (Keeps.forM fun name _ => keeps_assignMissing (fun v => Record.keeps_setFrom hr name v)
      fun g hg => hg.modify hr _).bind fun _ _ => ?_
    exact Record.keeps_mark hr false
  · exact .throw _

/-- A document with the key of a record leaves the record under its key, up to whichever field it is
applied. -/
theorem keeps_applyDocument_key {exist : Prop} (hs : s.Takes key.1) (hname : Path.IsName key.1)
    {document : Document} (hdistinct : Fields.Distinct document) {t : Value}
    (ht : Fields.get? key.1 document = some t) (hkey : t.IsKey) (hequal : t.beq key.2 = true)
    (hnew : exist → Tree.newTag ∉ Fields.keys document) :
    Keeps (Graph.Settled d r key exist) (applyDocument d registry r s
      (Document.project document (Projection.ofSelector? s))) fun _ => True := by
  obtain ⟨picked, hpick, hmem, hentries, hsubset⟩ := hs.pick_project hname hdistinct ht hkey
  have hagrees : Value.Agrees key picked := by
    rintro ⟨name, w⟩ hentry rfl
    rw [hentries w hentry]
    exact ⟨hkey, hequal⟩
  unfold applyDocument
  simp only [hpick]
  refine (Graph.Settled.keeps_decodeInto hagrees fun hexist hpicked => hnew hexist (hsubset hpicked)).bind
    fun _ _ => ?_
  refine (Keeps.forM fun name hmissing => ?_).bind fun _ _ g hg => ⟨hg.mark fun _ => rfl, fun _ _ => trivial⟩
  have hne : name ≠ key.1 := by
    rintro rfl
    have hunlisted := (List.mem_filter.1 hmissing).2
    rw [Fields.contains_iff.2 hmem] at hunlisted
    cases hunlisted
  exact keeps_assignMissing (fun v => Graph.Settled.keeps_setFrom fun heq => absurd heq hne)
    fun g hg => hg.write fun heq => absurd heq hne

/-! ### Documents under a key -/

/-- How many documents hold a key, in the collection of a class that is registered. -/
def tally (store : Store) (r : RecordRef) (key : String × Value) : Nat :=
  if store.isRegistered r.cls then
    (store.database.documents (store.collectionName r.cls)).countP fun document =>
      Collection.holds document [key]
  else 0

theorem tally_pos {store : Store} : 0 < store.tally r key ↔ store.isRegistered r.cls = true ∧
    ∃ document ∈ store.database.documents (store.collectionName r.cls),
      Collection.holds document [key] = true := by
  unfold tally
  split
  · next hregistered => simp [List.countP_pos_iff, hregistered]
  · next hunregistered => simp [hunregistered]

/-- The documents in the collection of a class are shaped like it. -/
theorem Kept.shaped_record {store : Store} (h : store.Kept d) (hr : d.Inherits r.cls)
    (hregistered : store.isRegistered r.cls = true) :
    ∀ document ∈ store.database.documents (store.collectionName r.cls),
      Document.Shaped d r.cls document := by
  intro document hdocument
  obtain ⟨c, hc, hname, hdefinition⟩ := h.exists_storable hr hregistered
  have hcollection : store.collectionName r.cls = store.collectionName c := by
    rw [collectionName, ← hname]
    rfl
  exact (h.shaped_of hc document (hcollection ▸ hdocument)).congr hdefinition.symm hname.symm

theorem Kept.trees {store : Store} (h : store.Kept d) : store.Trees := by
  intro name document hdocument
  obtain ⟨c, -, -, hshaped⟩ := h.shaped name document hdocument
  exact hshaped.concrete.within ∅

theorem holds_congr {name : String} {v w : Value} (hv : v.IsKey) (h : v.beq w = true)
    (document : Document) :
    Collection.holds document [(name, v)] = Collection.holds document [(name, w)] := by
  have hw : w.IsKey := hv.of_beq ((hv.beq_comm w).symm.trans h)
  have hsame : ∀ t : Value, t.beq v = t.beq w := fun t => by
    rw [← hv.beq_comm t, ← hw.beq_comm t, hw.beq_congr h t]
  simp only [Collection.holds, List.all_cons, List.all_nil, Bool.and_true]
  split <;> simp only [hsame]

/-! ### Loads -/

/-- Some of the known records are under keys of their own and track whether documents hold these. -/
def Tracked (d : Directory) (records : Set RecordRef) (key : RecordRef → String × Value)
    (store : Store) (known : Set RecordRef) (g : Graph) : Prop :=
  g.Typed d known ∧ records ⊆ known ∧ ∀ r ∈ records, g.Tracks d r (key r) (0 < store.tally r (key r))

section

variable {records known : Set RecordRef} {key : RecordRef → String × Value} {store : Store}
  {document : Document}

theorem tracked_allowsReading (hd : d.Lawful) (hmade : ∀ r ∈ records, r.base? = none) :
    AllowsReading (Tracked d records key store) :=
  (Graph.typed_allowsWriting hd).toAllowsReading.sparing (fun _ _ hg => hg.sound) hmade
    fun _ _ hspares htracks r hr => (htracks r hr).retains (hspares r hr).retains

variable (hd : d.Lawful) (hcoherent : d.Coherent) (hnamed : d.NamesProperly) (hkept : store.Kept d)

include hd hcoherent hnamed hkept

/-- A document is applied to a record that is read by its key, or to one that is not tracked. -/
theorem keepsIn_applyDocument_tracked (hr : r ∈ known) (hregistered : store.isRegistered r.cls = true)
    (hdocument : document ∈ store.database.documents (store.collectionName r.cls))
    (hholds : r ∈ records → Collection.holds document [key r] = true)
    (hs : r ∈ records → s.Takes (key r).1) :
    KeepsIn (Tracked d records key store) known (applyDocument d registry r s
      (Document.project document (Projection.ofSelector? s))) fun _ _ => True := by
  rintro before hknown g ⟨htyped, hrecords, htracks⟩
  rcases hrun : applyDocument d registry r s
    (Document.project document (Projection.ofSelector? s)) g with ⟨result, g'⟩
  have hshaped := hkept.shaped_record (htyped.inherits r (hknown hr)) hregistered document hdocument
  have hpart : (Value.object (Document.project document (Projection.ofSelector? s))).Within known :=
    (Value.partOf_project document _).within (hshaped.concrete.within known)
  have htypes : KeepsIn (fun known g => g.Typed d known) known (applyDocument d registry r s
      (Document.project document (Projection.ofSelector? s))) fun _ _ => True :=
    keepsIn_applyDocument (Graph.typed_allowsWriting hd) (hcoherent registry) hr s hpart
  obtain ⟨after, hafter, htyped', -⟩ := htypes.of_run hknown htyped hrun
  refine ⟨after, hafter, ⟨htyped', hrecords.trans hafter, fun q hq => ?_⟩, fun _ _ => trivial⟩
  have hbounded := htyped.sound.bounded q (hrecords hq)
  by_cases hqr : q = r
  · subst hqr
    -- What is read is the key, and nothing but an attribute could say that the record is new.
    let unnamed : Prop := ∀ a ∈ d.attributes q.cls, a.name ≠ Tree.newTag
    have hstored : 0 < store.tally q (key q) := tally_pos.2 ⟨hregistered, document, hdocument, hholds hq⟩
    have hunder := (htracks q hq).under
    have hbefore : g.Settled d q (key q) unnamed :=
      ⟨hbounded, hunder, fun hunnamed => (htracks q hq).isNew hunnamed hstored⟩
    obtain ⟨a, ha, hname⟩ := hunder.primary
    have hpath : Path.IsName (key q).1 := hname ▸ hnamed q.cls a
      (Definition.mem_attributeList_of_identifier (Definition.mem_identifiers_of_primary ha))
    obtain ⟨t, ht, hequal⟩ := Collection.holds_singleton (hholds hq)
    have hunmarked : unnamed → Tree.newTag ∉ Fields.keys document := by
      intro hunnamed hmem
      rcases hshaped.names _ hmem with heq | ⟨a, ha, heq⟩
      · exact absurd heq (by decide)
      · exact hunnamed a ha heq
    have hsettled := (keeps_applyDocument_key (hs hq) hpath hshaped.distinct ht
      (hunder.isKey.of_beq hequal) hequal hunmarked).of_run hbefore hrun
    exact ⟨hsettled.under, fun _ => hstored, fun hunnamed _ => hsettled.isNew hunnamed⟩
  · have hleaves := (keeps_applyDocument_others g s _).of_run (.refl _ g) hrun
    have hserial : r.serial ≠ q.serial := fun heq =>
      hqr (htyped.sound.alone r (hknown hr) q (hrecords hq) heq).symm
    exact (htracks q hq).retains (Graph.Spares.of_leaves hleaves hbounded hserial).retains

/-- What a tracked record is described by when a document is asked for. -/
def DescribesKey (records : Set RecordRef) (key : RecordRef → String × Value) (r : RecordRef)
    (descriptor : Object) : Prop :=
  r ∈ records → ∃ v, descriptor = [((key r).1, v)] ∧ v.IsKey ∧ v.beq (key r).2 = true

variable (hmade : ∀ r ∈ records, r.base? = none)

include hmade

theorem keepsIn_readInto_tracked (hr : r ∈ known) (hregistered : store.isRegistered r.cls = true)
    {descriptor : Object} (hdescribed : DescribesKey records key r descriptor) :
    KeepsIn (Holding (Tracked d records key store) fun _ s' => store.Alike s') known
      (readInto d (store.collectionName r.cls) r asked descriptor) fun _ _ => True := by
  have hI : AllowsReading (Tracked d records key store) := tracked_allowsReading hd hmade
  have hJ := alike_allowsLoading (d := d) (C := d.Inherits) hkept.trees hcoherent
  have hselect : KeepsIn (Tracked d records key store) known (readSelector d r asked)
      fun _ s => True ∧ (r ∈ records → s.Takes (key r).1) := by
    refine (keepsIn_readSelector hI hr asked).and_of_run fun before g s g' hg hrun hrecord => ?_
    obtain ⟨a, ha, hname⟩ := (hg.2.2 r hrecord).under.primary
    exact hname ▸ readSelector_takes hd (hmade r hrecord) (Definition.mem_identifiers_of_primary ha) hrun
  refine (keepsIn_onRecords hJ.toAllowsCalls hselect).bind fun s after₁ h₁ hs => ?_
  have hread : KeepsIn (Holding (Tracked d records key store) fun _ s' => store.Alike s') after₁
      (callDocument (store.collectionName r.cls) (.read descriptor (Projection.ofSelector? s)))
        fun _ found => True ∧ ∀ part, found = some part →
          ∃ document ∈ store.database.documents (store.collectionName r.cls),
            Collection.holds document descriptor = true ∧
              part = Document.project document (Projection.ofSelector? s) := by
    refine ((keepsIn_callDocument hJ _).imp fun _ _ _ _ => trivial).and_of_run
      fun before S found S' hS hrun part hpart => ?_
    rw [← hS.2.collectionName_eq r.cls] at hrun
    obtain ⟨hfound, -⟩ := callDocument_read_eq_ok hrun
    obtain ⟨document, hstored, hproject⟩ := Option.map_eq_some_iff.1 (hfound.symm.trans hpart)
    rw [hS.2.stored?_eq] at hstored
    obtain ⟨hdocument, hholds⟩ := stored?_eq_some hstored
    exact ⟨document, hdocument, hholds, hproject.symm⟩
  refine hread.bind fun found after₂ h₂ hfound => ?_
  split
  · exact .pure fun _ _ => trivial
  · next part =>
    obtain ⟨document, hdocument, hholds, rfl⟩ := hfound.2 part rfl
    have hheld : r ∈ records → Collection.holds document [key r] = true := by
      intro hrecord
      obtain ⟨v, rfl, hkey, hequal⟩ := hdescribed hrecord
      exact (holds_congr hkey hequal document).symm.trans hholds
    refine KeepsIn.get.bind fun T after₃ h₃ _ => ?_
    refine (keepsIn_onRecords hJ.toAllowsCalls (keepsIn_applyDocument_tracked hd hcoherent hnamed hkept
      (h₃ (h₂ (h₁ hr))) hregistered hdocument hheld hs.2)).bind fun _ _ _ _ => .pure fun _ _ => trivial

/-- A load keeps track, of its record and of all that it follows. -/
theorem keepsIn_load_tracked (hr : r ∈ known) (s : Selector) (throwIfMissing : Bool) :
    KeepsIn (Holding (Tracked d records key store) fun _ s' => store.Alike s') known
      (load d r s throwIfMissing) fun _ _ => True := by
  have hI : AllowsReading (Tracked d records key store) := tracked_allowsReading hd hmade
  have hJ := alike_allowsLoading (d := d) (C := d.Inherits) hkept.trees hcoherent
  have hdescribed : ∀ known r, r ∈ known → KeepsIn (Tracked d records key store) known
      (Record.descriptor d r) fun _ descriptor => DescribesKey records key r descriptor := by
    intro known r hr
    refine ((hI.descriptor hr).and_of_run fun before g descriptor g' hg hrun hrecord => ?_).imp
      fun _ _ _ h => h.2
    obtain ⟨v, hv, hkey⟩ := (hg.2.2 r hrecord).under.descriptor (hmade r hrecord)
    rw [hv] at hrun
    cases hrun
    exact ⟨v, rfl, hkey⟩
  unfold load
  -- A load may come to any of the records, so each document that is read goes to a record with its key.
  refine keepsIn_tracing hJ.toAllowsCalls (keepsIn_loadSteps.bind fun steps after hafter _ => ?_)
  refine (keepsIn_loadWithin_of hI hJ.toAllowsCalls hdescribed ?_ steps (hafter hr) s throwIfMissing
    []).bind fun _ _ _ _ => .pure fun _ _ => trivial
  intro known s s' r asked descriptor hs hs' hregistered hr hdescribed
  rw [hs'.collectionName_eq]
  exact keepsIn_readInto_tracked hd hcoherent hnamed hkept hmade hr
    ((hs.isRegistered_eq r.cls).symm.trans hregistered) hdescribed

end

end Store

end TypedRecords
