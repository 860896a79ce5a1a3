import TypedRecords.Proofs.Record.Omitted
import TypedRecords.Proofs.Record.Relaid
import TypedRecords.Proofs.Store.Identifying
import TypedRecords.Proofs.Store.RoundTrip
import TypedRecords.Proofs.Store.Saves
import TypedRecords.Proofs.Store.Tracking

/-! # Undefined attributes and the store

What is undefined is left out of the document that a save writes, at any depth. A load makes up for it in
the attributes of its own record, which become undefined again. Those of embedded records stay unset.
-/

namespace TypedRecords

open RecordRef (Region)

variable {d : Directory} {registry : RegistryRef} {full : Prop} {g g' : Graph} {x y : RecordRef}
  {identifier : String × Value} {trees document : Object}

/-! ### Documents that are written -/

namespace EncodesFields

theorem wellFormed (h : EncodesFields full d registry g x trees) (hd : d.Lawful)
    (hnamed : d.WellNamed) {name : String} {t : Value} (ht : Fields.get? name trees = some t) :
    t.WellFormed := by
  by_cases hne : name = Tree.classTag
  · rw [hne, h.tag] at ht
    rw [← Option.some.inj ht]
    trivial
  · obtain ⟨a, v, -, -, -, hencodes⟩ := h.field name t ht hne
    exact hencodes.wellFormed hd hnamed

/-- What is stored of a record that is new. -/
theorem storedAs_strip (h : EncodesFields full d registry g x trees) (hd : d.Lawful)
    (hnamed : d.WellNamed) : Value.FieldsStoredAs trees (Value.stripFields trees) :=
  Value.fieldsStoredAs_strip h.distinct fun _ _ ht => Value.storedAs_strip (h.wellFormed hd hnamed ht)

/-- What is stored of a record that takes the place of what was stored before. -/
theorem storedAs_overlay (h : EncodesFields full d registry g x trees) (hd : d.Lawful)
    (hnamed : d.WellNamed) (hdocument : Document.WellFormed document) :
    Value.FieldsStoredAs trees (Value.overlayFields trees document) :=
  Value.fieldsStoredAs_overlay h.distinct hdocument.distinct (by simp [h.tag])
    fun _ _ _ ht hw => Value.storedAs_overlay (h.wellFormed hd hnamed ht)
      (fun _ hu => hdocument.field hu) hw

end EncodesFields

namespace Store

/-- What a save leaves stored of a record: a document that is found by its identifier, with all attributes
that are set and defined. -/
structure Saved (d : Directory) (s s' : Store) (g : Graph) (x : RecordRef)
    (identifier : String × Value) (trees document : Object) : Prop where
  identified : g.identifier? d x = some identifier
  fields : EncodesFields True d s.registry g x trees
  allows : ∀ a ∈ d.attributes x.cls, g.seen? x a.name = some .undefined →
    a.type.allowsUndefined = true
  found : s'.stored? x.cls [identifier] = some document
  stored : Value.FieldsStoredAs trees document

variable {S S' T T' : Session} {known : Set RecordRef}

/-- What is stored of a record is found by its identifier. -/
theorem holds_of_stored (hd : d.Lawful) (hnamed : d.WellNamed)
    (hx : Record.Storable d registry g x) (hfields : EncodesFields True d registry g x trees)
    (hstored : Value.FieldsStoredAs trees document)
    (hidentifier : g.identifier? d x = some identifier) :
    Collection.holds document [identifier] = true := by
  obtain ⟨name, v⟩ := identifier
  obtain ⟨a, ha, rfl, hv, hkey, -⟩ := identified hd hx hidentifier
  have hmem := Definition.mem_attributeList_of_identifier ha
  obtain ⟨t, ht⟩ := Fields.mem_keys_iff.1 (hfields.complete trivial a hmem v hv)
  obtain ⟨b, u, -, hu, -, hencodes⟩ := hfields.field a.name t ht (hnamed.ne_classTag x.cls a hmem)
  obtain rfl := Option.some.inj (hv.symm.trans hu)
  obtain rfl := eq_of_key hkey hencodes
  obtain ⟨w, hw, hsame⟩ := hstored.kept a.name t ht hkey.ne_undefined
  have hkept : w = t := by
    rcases hkey with ⟨s, rfl⟩ | ⟨n, rfl⟩ <;> cases hsame <;> rfl
  simp only [Collection.holds, List.all_cons, List.all_nil, Bool.and_true, hw, hkept]
  exact hx.keyed a ha t hv

/-- A save changes nothing of a store but the database and what is noted of the calls. -/
theorem store_save (d : Directory) (r : RecordRef) (s : Selector) (expected : Expectation) (S : Session) :
    ∃ database trace journal,
      (save d r s expected S).2.store = { S.store with database, trace, journal } := by
  cases save_saves (d := d) (r := r) (s := s) (S := S) expected with
  | nothing store =>
    obtain ⟨trace, journal, heq⟩ := store
    exact ⟨S.store.database, trace, journal, heq⟩
  | document registered prepared store =>
    obtain ⟨trace, journal, heq⟩ := store
    exact ⟨_, trace, journal, heq⟩

/-- A document that takes the place of a stored one is found as that one was, if it is described by the
same. -/
theorem stored?_of_put {s s' : Store} {c : ClassRef} {descriptor : Object} {i : Nat}
    (hname : s'.collectionName c = s.collectionName c)
    (hput : s'.database = s.database.put (s.collectionName c)
      { s.database.collection (s.collectionName c) with
        documents := (s.database.collection (s.collectionName c)).documents.set i document })
    (hi : (s.database.collection (s.collectionName c)).position? descriptor = some i)
    (hlt : i < (s.database.collection (s.collectionName c)).documents.length)
    (hholds : Collection.holds document descriptor = true) :
    s'.stored? c descriptor = some document := by
  rw [stored?, hname, hput, Database.documents, Database.collection_put_self,
    Collection.position?_set hi hholds, Option.bind_some]
  exact List.getElem?_set_self hlt

/-- A save that succeeds leaves the record stored, whether it is new or not. -/
theorem save_saved (hd : d.Lawful) (hnamed : d.WellNamed) (hsound : S.graph.Sound known) (hx : x ∈ known)
    (hstorable : Record.Storable d S.store.registry S.graph x)
    (hdocuments : ∀ document ∈ S.store.database.documents (S.store.collectionName x.cls),
      Document.WellFormed document)
    (h : save d x .all {} S = (.ok (some x), S')) :
    ∃ identifier trees document, Saved d S.store S'.store S.graph x identifier trees document := by
  cases hnew : S.graph.isNew x with
  | true =>
    obtain ⟨identifier, trees, hidentifier, hcreated⟩ :=
      save_created hd hnamed hsound hx hstorable hnew h
    refine ⟨identifier, trees, Value.stripFields trees, hidentifier, hcreated.fields, hcreated.allows,
      ?_, hcreated.fields.storedAs_strip hd hnamed⟩
    rw [hcreated.written.stored?_eq]
    exact hcreated.stored
  | false =>
    obtain ⟨database, trace, journal, hsame⟩ := store_save d x .all {} S
    rw [h] at hsame
    unfold save at h
    obtain ⟨S₁, hrun, -, trace, hstore⟩ := tracing_eq h
    obtain ⟨p, g, hprepare, hupdate⟩ := saveRecord_update hnew hrun
    obtain ⟨⟨identifier, hidentifier, hdescriptor⟩, hfields, hallows⟩ :=
      prepare_of hd hnamed hsound hx hstorable hprepare
    have hfields : EncodesFields True d S.store.registry S.graph x p.document := by
      simpa using hfields
    have hencoded := hfields.encoded hd hnamed
    rw [hdescriptor] at hupdate
    obtain ⟨i, before, hi, hbefore, hdatabase⟩ := Database.update_eq_ok_true hupdate
    rw [Patch.apply_ofDocument hencoded.isTagged hencoded.object] at hdatabase
    have hstored := hfields.storedAs_overlay hd hnamed (hdocuments before (List.mem_of_getElem? hbefore))
    have hholds := holds_of_stored hd hnamed hstorable hfields hstored hidentifier
    have hput : S'.store.database = S₁.store.database := by rw [hstore]
    refine ⟨identifier, p.document, _, hidentifier, hfields, hallows rfl, ?_, hstored⟩
    exact stored?_of_put (by rw [hsame]; rfl) (hput.trans hdatabase) hi
      (List.getElem?_eq_some_iff.1 hbefore).1 hholds

/-! ### Documents that are read -/

/-- The storables of a store are of classes that can be stored. -/
def Storables (d : Directory) (s : Store) : Prop :=
  ∀ name c, Fields.get? name s.storables = some c → (d.definition c).storable = true

/-- Records that are made of a tree are of classes that its registry finds. -/
theorem found_of_decode {source : Source} {t v : Value} (ht : t.Within ∅)
    (h : Record.decode d registry source t g = (.ok v, g')) {r : RecordRef} (hr : r ∈ v.records) :
    ∃ name, d.find? registry name = some r.cls := by
  induction t using Value.induction generalizing v g g' with
  | array items ih =>
    obtain ⟨vs, g₁, hvs, hpure⟩ := Stateful.bind_eq_ok h
    cases hpure
    obtain ⟨v, hv, hr⟩ := Value.mem_records_array.1 hr
    obtain ⟨t, hmem, g₂, g₃, -, hdecode, -⟩ :=
      Fields.mem_right_of_forall₂ (Record.decodeItems_eq_ok hvs).1 hv
    exact ih t hmem (Value.within_array.1 ht t hmem) hdecode hr
  | object fields ih =>
    cases htag : Fields.get? Tree.classTag fields with
    | none =>
      obtain ⟨vs, rfl, hvs⟩ := Record.decode_untagged_eq_ok htag h
      obtain ⟨entry', hentry', hr⟩ := Value.mem_records_object.1 hr
      obtain ⟨entry, hentry, -, g₂, g₃, -, hdecode, -⟩ :=
        Fields.mem_right_of_forall₂ (Record.decodeFields_eq_ok hvs).1 hentry'
      exact ih entry hentry (Value.within_object.1 ht entry hentry) hdecode hr
    | some tag =>
      rcases Record.decode_tagged_eq_ok htag h with ⟨c, -, -, -, -, -, rfl, -⟩ |
        ⟨c, name, -, -, hfound, rfl, -⟩
      · cases hr
      · rw [List.mem_singleton.1 hr]
        exact ⟨name, hfound⟩
  | other t harray hobject =>
    have hsame : v = t := by
      cases t with
      | array items => cases harray
      | object fields => cases hobject
      | _ =>
        cases h
        rfl
    exact absurd (ht r (hsame ▸ hr)) (Set.notMem_empty r)

/-- The records of an embedded class that a tree of the store was decoded to are not loaded, so that what
they hold stays as it is. -/
theorem undisturbed_of_settled (hd : d.Lawful) (hcoherent : d.Coherent) {s : Store} (hkept : s.Kept d)
    (hstorables : s.Storables d) {G G' : Graph} {t v : Value} (ht : t.Within ∅) (hdecode : Record.decode d s.registry .store t g = (.ok v, g'))
    (hsettled : ∀ r ∈ v.records, ∃ lo hi, Settled d s lo hi r G G') :
    ∃ R, G.Undisturbed G' R ∧
      ∀ r ∈ v.records, (d.definition r.cls).referenceable = false → r ∈ R := by
  refine ⟨{r | ∃ lo hi, r ∈ Region lo hi ∧ G.Confined lo hi ∧
    ∀ r' ∈ Region lo hi, G'.cell? r' = G.cell? r'}, ⟨?_, ?_, ?_⟩, fun r hr hembedded => ?_⟩
  · rintro r ⟨lo, hi, hr, -⟩
    exact hr.1
  · rintro r ⟨lo, hi, hr, hconfined, hcells⟩ name slot hslot r' hr'
    exact ⟨lo, hi, hconfined.closed r hr name slot hslot r' hr', hconfined, hcells⟩
  · rintro r ⟨lo, hi, hr, -, hcells⟩ name
    rw [Graph.own?, Graph.own?, hcells r hr]
  · have hunregistered : s.isRegistered r.cls = false := by
      by_contra hregistered
      rw [Bool.not_eq_false] at hregistered
      obtain ⟨name, hfound⟩ := found_of_decode ht hdecode hr
      obtain ⟨c, hc, -, hdefinition⟩ :=
        hkept.exists_storable (hcoherent s.registry name r.cls hfound) hregistered
      have hreferenceable := (hd.definition c).stored (hstorables c.name c hc)
      rw [hdefinition, hembedded] at hreferenceable
      cases hreferenceable
    obtain ⟨lo, hi, hr⟩ := hsettled r hr
    obtain ⟨lo', hi', -, -, hregion, hconfined, hcells⟩ := hr.unregistered hunregistered
    exact ⟨lo', hi', hregion, hconfined, hcells⟩

/-- The names that a load of everything reads. -/
def everything (d : Directory) (c : ClassRef) : Fields Selector :=
  (d.attributes c).map fun a => (a.name, .all)

theorem entire_eq (d : Directory) (c : ClassRef) : d.entire c = .only (everything d c) := by
  rw [Directory.entire, Selector.entire, List.map_map]
  rfl

/-- A load of everything into a record of which no more than identifiers are known brings the document
that is stored for it. -/
theorem load_brings (hd : d.Lawful) (hnamed : d.WellNamed) (hcoherent : d.Coherent)
    (htrees : T.store.Trees) (hy : y.Bare T.graph) (hinherits : d.Inherits y.cls)
    {throwIfMissing : Bool} {found : RecordRef}
    (h : load d y .all throwIfMissing T = (.ok (some found), T')) :
    ∃ identifier document T₁ T₂ visits new, T.graph.identifier? d y = some identifier ∧
      T.store.stored? y.cls [identifier] = some document ∧
      applyDocument d T.store.registry y (.only (everything d y.cls))
        (Document.project document (Projection.ofSelector? (.only (everything d y.cls)))) T.graph =
          (.ok (), T₁.graph) ∧
      Brought d T.store T.store.registry ⟨y, .all, d.entire y.cls, identifier⟩ (everything d y.cls)
        document T.graph.cells.size visits new T.graph T₁ T₂ ∧ T'.graph = T₂.graph := by
  unfold load at h
  obtain ⟨T₂, hrun, hgraph, -⟩ := tracing_eq h
  obtain ⟨steps, _, hsteps, hrun⟩ := Stateful.bind_eq_ok hrun
  cases hsteps
  obtain ⟨⟨wasFound, visited⟩, _, hwithin, hpure⟩ := Stateful.bind_eq_ok hrun
  obtain ⟨-, identifier, hidentifier, houtcome⟩ := loadWithin_steps hy.made hwithin
  cases houtcome with
  | visited hvisited => cases hvisited
  | missing => cases hpure
  | @found selector g document T₁ _ _ _ hselector hstored happlied hstore hfollowed =>
    cases hpure
    obtain ⟨hentire, rfl⟩ := Prod.mk.inj (hselector.symm.trans (readSelector_of_bare hd hy))
    cases hentire
    let e : Visit := ⟨y, .all, d.entire y.cls, identifier⟩
    have hrun : followNames d _ e.record e.selector e.selector.names
        (([] ++ [e]).map (Visit.entry T.store)) T₁ = _ := hfollowed
    obtain ⟨fields, new, honly, -, hbrought⟩ := found_brings hd hnamed hcoherent htrees
      (explores hd hnamed hcoherent htrees _) (e := e) (hy.typed hinherits) (.refl _)
      (Set.mem_singleton y) hy.made hy.calm (by simp) hidentifier hselector hstored happlied hstore hrun
    obtain rfl := Selector.only.inj ((entire_eq d y.cls).symm.trans honly)
    rw [entire_eq] at happlied
    exact ⟨identifier, document, T₁, T₂, _, new, hidentifier, hstored, happlied, hbrought, hgraph⟩

/-- What a load of everything leaves in an attribute of its record. What is missing in the document becomes
undefined or unset, and otherwise the attribute omits what was omitted in the document. -/
structure Delivers (d : Directory) (registry : RegistryRef) (y : RecordRef) (document : Document)
    (G : Graph) (a : Attribute) : Prop where
  missing : Fields.get? a.name document = none → G.own? y a.name = some (missingSlot a)
  omits : ∀ w, Fields.get? a.name document = some w → w ≠ .undefined →
    ∃ v', G.seen? y a.name = some v' ∧
      ∀ (g : Graph) v t, Encodes True d registry g v t → t.StoredAs w → Omits d g G v v'

theorem load_delivers (hd : d.Lawful) (hnamed : d.WellNamed) (hcoherent : d.Coherent)
    (hkept : T.store.Kept d) (hstorables : T.store.Storables d) (hy : y.Bare T.graph)
    (hinherits : d.Inherits y.cls) {throwIfMissing : Bool} {found : RecordRef}
    (h : load d y .all throwIfMissing T = (.ok (some found), T')) :
    ∃ identifier document, T.graph.identifier? d y = some identifier ∧
      T.store.stored? y.cls [identifier] = some document ∧
      ∀ a ∈ d.attributes y.cls, Delivers d T.store.registry y document T'.graph a := by
  obtain ⟨identifier, document, T₁, T₂, visits, new, hidentifier, hstored, happlied, hbrought, hgraph⟩ :=
    load_brings hd hnamed hcoherent hkept.trees hy hinherits h
  refine ⟨identifier, document, hidentifier, hstored, fun a ha => ?_⟩
  rw [hgraph]
  have hlisted : (a.name, Selector.all) ∈ everything d y.cls := List.mem_map_of_mem ha
  obtain ⟨cell, hcell, -⟩ := hy.cell
  obtain ⟨g₁, hdelivered, hmissing⟩ := applyDocument_selected hd hnamed hbrought.chosen hcell happlied
  refine ⟨fun hnone => ?_, fun w hw hdefined => ?_⟩
  · rw [hbrought.own]
    refine hmissing a ha (Fields.mem_keys_of_mem hlisted) ?_
    exact (Fields.get?_eq_none_iff _ _).1 (Document.get?_selected_eq_none hnone)
  · obtain ⟨hname, htag, -⟩ := hnamed y.cls a ha
    have hread : Fields.get? a.name (document.selected (everything d y.cls)) = some w :=
      Selector.get?_pickFields_project_all hbrought.chosen.distinct hlisted hname htag hw hdefined
    obtain ⟨t, v', ht, hv', hdecoded⟩ := hdelivered.own? (Document.distinct_selected _ document)
      (hbrought.chosen.ne_newTag hnamed document) hcell (Fields.mem_keys_iff.2 ⟨w, hread⟩) htag
    obtain rfl := Option.some.inj (hread.symm.trans ht)
    have hlt := Graph.lt_of_cell? hcell
    obtain ⟨ga, gb, hdecode, hleaves⟩ := hdecoded.later hdelivered.leaves fun n hn =>
      ⟨(hlt.trans_le hn).ne', (hlt.trans_le hn).ne'⟩
    have hwithin : w.Within ∅ := Value.within_object.1
      (hkept.trees _ document (stored?_eq_some hstored).1) _ (Fields.mem_of_get? hw)
    obtain ⟨R, hR, hrecords⟩ := undisturbed_of_settled hd hcoherent hkept hstorables hwithin hdecode
      fun r hr => hbrought.settled a.name (Fields.mem_keys_of_mem hlisted) r (Graph.held_of_own? hv' ▸ hr)
    refine ⟨v', ?_, fun g v t hencodes hstoredAs => ?_⟩
    · rw [seen?_of_own ((hbrought.own a.name).trans hv')]
      rfl
    · exact (hencodes.omits hd hnamed hstoredAs hdecode hleaves).undisturbed hR hrecords

/-- What a load brings of an attribute that was saved. -/
theorem Saved.delivered (hnamed : d.WellNamed) {s s' : Store} {G : Graph}
    (h : Saved d s s' g x identifier trees document) {a : Attribute} (ha : a ∈ d.attributes x.cls)
    (hdelivers : Delivers d s.registry y document G a) {v : Value} (hv : g.seen? x a.name = some v) :
    ∃ v', G.seen? y a.name = some v' ∧ (v = .undefined → v' = .undefined) ∧ Omits d g G v v' := by
  obtain ⟨t, ht⟩ := Fields.mem_keys_iff.1 (h.fields.complete trivial a ha v hv)
  obtain ⟨b, u, -, hu, -, hencodes⟩ := h.fields.field a.name t ht (hnamed.ne_classTag x.cls a ha)
  obtain rfl := Option.some.inj (hv.symm.trans hu)
  by_cases hdefined : v = .undefined
  · subst hdefined
    obtain rfl := hencodes.eq_undefined
    have hown := hdelivers.missing (h.stored.omitted a.name ht)
    rw [missingSlot, if_pos (h.allows a ha hv)] at hown
    refine ⟨.undefined, by rw [seen?_of_own hown]; rfl, fun _ => rfl, fun place r hplace => ?_⟩
    exact absurd rfl (Graph.ne_undefined_of_part? hplace)
  · have htree := hencodes.ne_undefined hdefined
    obtain ⟨w, hw, hstoredAs⟩ := h.stored.kept a.name t ht htree
    obtain ⟨v', hv', homits⟩ := hdelivers.omits w hw (hstoredAs.ne_undefined htree)
    exact ⟨v', hv', fun hundefined => absurd hundefined hdefined, homits g v t hencodes hstoredAs⟩

/-- A record is saved, and loaded again into a record of which the identifier is known. Attributes that
were undefined become undefined. But wherever an embedded record stands in an attribute, of all that is
set there exactly what was undefined is unset in the record that stands there in the end. -/
theorem save_load_omits (hd : d.Lawful) (hnamed : d.WellNamed) (hcoherent : d.Coherent)
    (htyped : S.graph.Typed d known) (hkept : S.store.Kept d) (hstorables : S.store.Storables d)
    (hx : x ∈ known)
    (hstorable : Record.Storable d S.store.registry S.graph x)
    (hdocuments : ∀ document ∈ S.store.database.documents (S.store.collectionName x.cls),
      Document.WellFormed document)
    (hsave : save d x .all {} S = (.ok (some x), S')) (hstore : T.store = S'.store)
    (hy : y.Bare T.graph) (hcls : y.cls = x.cls)
    (hidentifier : T.graph.identifier? d y = S.graph.identifier? d x)
    (hload : load d y .all true T = (.ok (some y), T')) :
    ∀ a ∈ d.attributes x.cls, ∀ v, S.graph.seen? x a.name = some v →
      ∃ v', T'.graph.seen? y a.name = some v' ∧ (v = .undefined → v' = .undefined) ∧
        Omits d S.graph T'.graph v v' := by
  obtain ⟨identifier, trees, document, hsaved⟩ :=
    save_saved hd hnamed htyped.sound hx hstorable hdocuments hsave
  obtain ⟨database, trace, journal, hsame⟩ := store_save d x .all {} S
  rw [hsave] at hsame
  have hkept' : T.store.Kept d := by
    have hkeeps := keepsIn_save_kept hd (fun c a ha => (hnamed c a ha).1) hx .all {}
    obtain ⟨after, -, ⟨-, hafter⟩, -⟩ := hkeeps.of_run subset_rfl ⟨htyped, hkept⟩ hsave
    exact hstore ▸ hafter
  have hregistry : T.store.registry = S.store.registry := by rw [hstore, hsame]
  have hstorables' : T.store.Storables d := by
    rw [hstore, hsame]
    exact hstorables
  obtain ⟨identifier', document', hidentifier', hfound, hdelivers⟩ :=
    load_delivers hd hnamed hcoherent hkept' hstorables' hy (hcls ▸ htyped.inherits x hx) hload
  obtain rfl := Option.some.inj ((hidentifier'.symm.trans hidentifier).trans hsaved.identified)
  rw [hstore, hcls, hsaved.found] at hfound
  obtain rfl := Option.some.inj hfound
  intro a ha v hv
  have hdelivered := hdelivers a (hcls ▸ ha)
  rw [hregistry] at hdelivered
  exact hsaved.delivered hnamed ha hdelivered hv

/-! ### A role without a part -/

namespace Recalling

def roleClass : ClassRef := .declared 0 "Role"
def movieClass : ClassRef := .declared 1 "Movie"

/-- Movies with a title and a leading role, and roles with a part. All of these may be unknown. -/
def classes : Directory where
  classes := #[
    { definition := {
        attributes := [("part", ⟨"part", .plain, .scalar .string { optional := true }, none⟩)]
        indexes := [], embedded := true, storable := false }
      registry := some ⟨0⟩ },
    { definition := {
        attributes := [("id", ⟨"id", .primary, .scalar .string {}, none⟩),
          ("title", ⟨"title", .plain, .scalar .string { optional := true }, none⟩),
          ("lead", ⟨"lead", .plain, .reference "Role" false { optional := true }, none⟩)]
        indexes := [], embedded := false, storable := true }
      registry := some ⟨0⟩ }]
  registries := #[{ members := [("Role", roleClass), ("Movie", movieClass)] }]

def movie : RecordRef := .made 0 movieClass
def lead : RecordRef := .made 1 roleClass

/-- Stands for the movie when it is loaded. -/
def recalled : RecordRef := .made 2 movieClass

/-- A new movie with a leading role, of both of which hardly anything is known. -/
def opened : Session where
  graph := { cells := #[
    { slots := [("id", some ⟨.string "m", .here⟩), ("title", some ⟨.undefined, .here⟩),
        ("lead", some ⟨.record lead, .here⟩)], isNew := true },
    { slots := [("part", some ⟨.undefined, .here⟩)], isNew := true },
    { slots := [("id", some ⟨.string "m", .here⟩)], isNew := false }] }
  store := { ref := ⟨0⟩, registry := ⟨0⟩, storables := [("Movie", movieClass)] }

def saved : Session := (save classes movie .all {} opened).2

def loaded : Session := (load classes recalled .all true saved).2

theorem classes_lawful : classes.Lawful :=
  Directory.lawful_of_entries (by decide) (by decide)

theorem opened_storables : opened.store.Storables classes := by
  intro name c hread
  have hmem := List.mem_singleton.1 (Fields.mem_of_get? hread)
  obtain ⟨rfl, rfl⟩ := Prod.mk.inj hmem
  rfl

theorem opened_kept : opened.store.Kept classes := by
  refine .empty (fun name c hread => ?_) fun name => rfl
  have hmem := List.mem_singleton.1 (Fields.mem_of_get? hread)
  obtain ⟨rfl, rfl⟩ := Prod.mk.inj hmem
  exact ⟨rfl, Directory.inherits_declared _ (by decide)⟩

theorem opened_sound : opened.graph.Sound {movie, lead} :=
  .of_list [movie, lead] (by simp) (by decide) (by decide)

theorem opened_typed : opened.graph.Typed classes {movie, lead} where
  sound := opened_sound
  inherits := by rintro r (rfl | rfl) <;> exact Directory.inherits_declared _ (by decide)
  forks := by rintro serial c base (heq | heq) <;> cases heq
  keys := by
    rintro r hr name slot hown a ha rfl
    rcases hr with rfl | rfl
    · obtain rfl : a = ⟨"id", .primary, .scalar .string {}, none⟩ := List.mem_singleton.1 ha
      cases hown
      exact .inr (.inl ⟨_, rfl⟩)
    · cases ha

theorem movie_storable : Record.Storable classes opened.store.registry opened.graph movie := by
  have hattributes : ∀ a ∈ classes.attributes movie.cls, ∀ v, opened.graph.seen? movie a.name = some v →
      (v = .undefined ∨ a.type.check (classes.site movie.cls a.name) v = .ok ()) ∧
        Held classes opened.store.registry opened.graph v := by
    intro a ha v hv
    have hthree : classes.attributes movie.cls = [_, _, _] := rfl
    simp only [hthree, List.mem_cons, List.not_mem_nil, or_false] at ha
    rcases ha with rfl | rfl | rfl <;> cases hv
    · exact ⟨.inr rfl, .leaf rfl⟩
    · exact ⟨.inl rfl, .undefined⟩
    · have hpart : ∀ a ∈ classes.attributes lead.cls, ∀ v, opened.graph.seen? lead a.name = some v →
          v = .undefined := by
        intro a ha v hv
        obtain rfl : a = ⟨"part", .plain, .scalar .string { optional := true }, none⟩ :=
          List.mem_singleton.1 ha
        cases hv
        rfl
      refine ⟨.inr rfl, .embedded rfl rfl (fun a ha v hv => .inl (hpart a ha v hv)) fun a ha v hv => ?_⟩
      rw [hpart a ha v hv]
      exact .undefined
  refine ⟨rfl, rfl, fun a ha v hv => ?_, fun a ha v hv => (hattributes a ha v hv).1,
    fun a ha v hv => (hattributes a ha v hv).2⟩
  obtain rfl : a = ⟨"id", .primary, .scalar .string {}, none⟩ := List.mem_singleton.1 ha
  cases hv
  rfl

theorem save_ok : save classes movie .all {} opened = (.ok (some movie), saved) := by
  have hfound : (save classes movie .all {} opened).1 = .ok (some movie) := by cbv
  rw [← hfound, saved]
  exact (Prod.eta _).symm

theorem load_ok : load classes recalled .all true saved = (.ok (some recalled), loaded) := by
  have hfound : (load classes recalled .all true saved).1 = .ok (some recalled) := by cbv
  rw [← hfound, loaded]
  exact (Prod.eta _).symm

theorem saved_graph : saved.graph = { cells := #[
    { slots := [("id", some ⟨.string "m", .store⟩), ("title", some ⟨.undefined, .store⟩),
        ("lead", some ⟨.record lead, .store⟩)], isNew := false },
    { slots := [("part", some ⟨.undefined, .store⟩)], isNew := true },
    { slots := [("id", some ⟨.string "m", .here⟩)], isNew := false }] } := by
  cbv

theorem recalled_bare : recalled.Bare saved.graph := by
  rw [saved_graph]
  refine ⟨rfl, ⟨_, rfl, rfl⟩, fun name own hown => ?_⟩
  have hmem : (name, own) ∈ [("id", some (⟨.string "m", .here⟩ : Slot))] := Fields.mem_of_get? hown
  obtain ⟨-, rfl⟩ := Prod.mk.inj (List.mem_singleton.1 hmem)
  exact ⟨_, rfl, .inl ⟨_, rfl⟩⟩

theorem save_load_omits_movie :
    load classes recalled .all true saved = (.ok (some recalled), loaded) ∧
      ∀ a ∈ classes.attributes movie.cls, ∀ v, opened.graph.seen? movie a.name = some v →
        ∃ v', loaded.graph.seen? recalled a.name = some v' ∧ (v = .undefined → v' = .undefined) ∧
          Omits classes opened.graph loaded.graph v v' := by
  have hempty : ∀ document ∈ opened.store.database.documents (opened.store.collectionName movie.cls),
      Document.WellFormed document := by
    intro document hdocument
    cases hdocument
  have hidentifier : saved.graph.identifier? classes recalled = opened.graph.identifier? classes movie := by
    rw [saved_graph]
    rfl
  exact ⟨load_ok, save_load_omits classes_lawful (Directory.forall_attributes (by decide))
    (Directory.coherent_of_members (by decide)) opened_typed opened_kept opened_storables
    (Set.mem_insert movie _) movie_storable hempty save_ok rfl recalled_bare rfl hidentifier load_ok⟩

/-- The title and the part were undefined. The title is so again, but the part cannot be read any more. -/
theorem part_unset :
    save classes movie .all {} opened = (.ok (some movie), saved) ∧
      load classes recalled .all true saved = (.ok (some recalled), loaded) ∧
      opened.graph.seen? movie "title" = some .undefined ∧
      opened.graph.seen? lead "part" = some .undefined ∧
      ∃ role, loaded.graph.seen? recalled "lead" = some (.record role) ∧
        (Record.read classes recalled "title" loaded.graph).1 = .ok .undefined ∧
        (Record.read classes role "part" loaded.graph).1 = .error (.unsetAttribute "Role" "part") := by
  have hloaded : loaded.graph = { cells := #[
      { slots := [("id", some ⟨.string "m", .store⟩), ("title", some ⟨.undefined, .store⟩),
          ("lead", some ⟨.record lead, .store⟩)], isNew := false },
      { slots := [("part", some ⟨.undefined, .store⟩)], isNew := true },
      { slots := [("id", some ⟨.string "m", .store⟩),
          ("lead", some ⟨.record (.made 3 roleClass), .store⟩), ("title", some ⟨.undefined, .store⟩)],
        isNew := false },
      { slots := [], isNew := false }] } := by
    cbv
  refine ⟨save_ok, load_ok, rfl, rfl, .made 3 roleClass, ?_⟩
  rw [hloaded]
  exact ⟨rfl, rfl, rfl⟩

end Recalling

end Store

end TypedRecords
