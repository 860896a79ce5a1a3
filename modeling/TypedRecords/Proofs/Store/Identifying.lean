import TypedRecords.Proofs.Store.Conveying
import TypedRecords.Proofs.Store.Exploring

/-! # Loading keeps references

A load into a record of which no more than identifiers are known delivers the references that its
document holds in the attributes that were asked for, with the identifiers that are stored for them. The
identifiers of what an attribute itself refers to are read even if they were not asked for. Those of what
an embedded record refers to are read only if they were asked for.
-/

namespace TypedRecords

open TypedRecords.Graph (Leaves)
open RecordRef (Region)
open Record (narrowAttribute)

variable {d : Directory} {g g' : Graph} {x r : RecordRef} {asked : Selector}

/-! ### Classes that are known -/

/-- A class finds the class to whose records an attribute of it refers. -/
def Directory.Knows (d : Directory) (c : ClassRef) (a : Attribute) : Prop :=
  ∀ name, a.type.recordClass? = some name → ∃ other, d.component? c name = some other

namespace Store

/-! ### What is read of an attribute -/

/-- What is read for what was asked for of an attribute: at least that, and the identifiers of what the
attribute refers to. -/
structure Sufficient (d : Directory) (c : ClassRef) (a : Attribute) (asked s : Selector) : Prop where
  wellFormed : s.WellFormed
  asked : ∀ path, asked.walk path = .all → s.walk path = .all
  identifiers : ∀ name, a.type.recordClass? = some name → ∀ other, d.component? c name = some other →
    (d.definition other).referenceable = true →
      ∀ b ∈ (d.definition other).identifiers, s.get b.name = .all
  whole : a.type.recordClass? = none → s = .all

theorem sufficient_all (d : Directory) (c : ClassRef) (a : Attribute) (asked : Selector) :
    Sufficient d c a asked .all where
  wellFormed := Selector.wellFormed_all
  asked path _ := Selector.walk_all path
  identifiers _ _ _ _ _ _ _ := rfl
  whole _ := rfl

/-- Completing what is read of an attribute that refers to records makes it sufficient. -/
theorem sufficient_completed {c : ClassRef} {a : Attribute} {name : String}
    (ha : a.type.recordClass? = some name) {s : Selector} (hs : s.WellFormed)
    (hsome : s.isNone = false) (hasked : ∀ path, asked.walk path = .all → s.walk path = .all) :
    Sufficient d c a asked (completed d c a s) := by
  have hwhole : a.type.recordClass? ≠ none := by
    rw [ha]
    exact nofun
  cases s with
  | none => cases hsome
  | all => exact sufficient_all d c a asked
  | only fields =>
    cases hother : d.component? c name with
    | none =>
      have hsame : completed d c a (.only fields) = .only fields := by
        simp [completed, ha, hother]
      rw [hsame]
      refine ⟨hs, hasked, fun name' ha' other hother' => ?_, fun hnone => absurd hnone hwhole⟩
      rw [ha] at ha'
      cases ha'
      rw [hother] at hother'
      cases hother'
    | some other =>
      by_cases hreferenceable : (d.definition other).referenceable = true
      · have hcompleted : completed d c a (.only fields) =
            ((Selector.only fields).merge (d.definition other).identifierSelector).normalize := by
          simp [completed, ha, hother, hreferenceable]
        have hids : (d.definition other).identifierSelector.WellFormed :=
          Selector.wellFormed_ofNames _
        have hmerge := hs.merge hids
        rw [hcompleted]
        refine ⟨hmerge.normalize, fun path hpath => ?_, fun name' ha' other' hother' _ b hb => ?_,
          fun hnone => absurd hnone hwhole⟩
        · rw [Selector.walk_normalize hmerge, Selector.walk_merge hs hids, hasked path hpath]
          rfl
        · rw [ha] at ha'
          cases ha'
          rw [hother] at hother'
          cases hother'
          rw [Selector.get_normalize_of_wellFormed hmerge, Selector.get_merge_of_wellFormed hs hids,
            Definition.identifierSelector, Selector.get_ofNames_of_mem (List.mem_map_of_mem hb),
            Selector.merge_all]
          rfl
      · have hsame : completed d c a (.only fields) = .only fields := by
          simp [completed, ha, hother, hreferenceable]
        rw [hsame]
        refine ⟨hs, hasked, fun name' ha' other' hother' hother'' => ?_,
          fun hnone => absurd hnone hwhole⟩
        rw [ha] at ha'
        cases ha'
        rw [hother] at hother'
        cases hother'
        exact absurd hother'' hreferenceable

theorem narrowAttribute_bare {onRecord : RecordRef → Selector → Action Selector}
    (hmade : x.base? = none) (hkeys : ∀ name v, g.value? x name = some v → v.IsKey) (s acc : Selector)
    (a : Attribute) : ∃ acc', narrowAttribute {} onRecord x s acc a g = (.ok acc', g) := by
  unfold narrowAttribute
  by_cases hnone : (s.get a.name).isNone = true
  · exact ⟨acc, by simp only [hnone, if_true]; rfl⟩
  · rw [Bool.not_eq_true] at hnone
    simp only [hnone, Bool.false_eq_true, if_false]
    rw [Stateful.bind_of_ok (Record.lift_value?_made hmade a.name g)]
    simp only [Bool.false_and, Bool.false_eq_true, if_false]
    rw [Record.narrow_of_key a.type hnone fun w hw => hkeys a.name w hw]
    exact ⟨_, rfl⟩

/-- What is read of a record of which no more than keys are known. -/
theorem readSelector_sufficient (hd : d.Lawful) (hx : x.Bare g) (hasked : asked.WellFormed)
    {selector : Selector} (h : readSelector d x asked g = (.ok selector, g')) :
    g' = g ∧ ∀ a ∈ d.attributes x.cls, asked.Selects a.name →
      Sufficient d x.cls a (asked.get a.name) (selector.get a.name) := by
  have hkeys : ∀ name v, (g.markResolving x true).value? x name = some v → v.IsKey := by
    intro name v hv
    rw [Graph.value?_congr (Graph.own?_markResolving g x true x name)] at hv
    exact hx.isKey hv
  obtain ⟨steps, g₁, narrowed, fields, rfl, rfl, rfl, hchosen, hnarrowed, hget⟩ :=
    readSelector_eq_ok hd hx.made hx.calm (J := (· = g.markResolving x true))
      (fun steps a _ acc g₁ acc' g₂ hg₁ hstep => by
        subst hg₁
        obtain ⟨acc₁, hbare⟩ := narrowAttribute_bare hx.made hkeys
          (toRead d x.cls asked).normalize acc a
        rw [hbare] at hstep
        exact (Prod.mk.inj hstep).2.symm) rfl h
  refine ⟨Graph.markResolving_markResolving hx.calm, fun a ha hs => ?_⟩
  cases hplain : a.type.recordClass? with
  | none =>
    rw [hchosen.whole a ha hs hplain]
    exact sufficient_all d x.cls a _
  | some name =>
    have hids : (d.definition x.cls).identifierSelector.WellFormed := Selector.wellFormed_ofNames _
    have hread : (toRead d x.cls asked).WellFormed := hids.merge hasked
    have hselects := (toRead_selects (d := d) (c := x.cls) hs).1
    obtain ⟨g₀, g₀', t, rfl, hnarrow, hnarrowedGet⟩ := hnarrowed.get a ha hselects.normalize
    rw [Record.narrow_of_key a.type hselects.normalize fun w hw => hkeys a.name w hw, hplain,
      Option.isSome_some, if_pos rfl] at hnarrow
    obtain ⟨ht, -⟩ := Prod.mk.inj hnarrow
    cases ht
    rw [hget a ha, hnarrowedGet, Selector.get_normalize_of_wellFormed hread]
    have hwell := hread.get a.name
    refine sufficient_completed hplain hwell.normalize.normalize.normalize ?_ fun path hpath => ?_
    · simp only [Selector.isNone_normalize]
      exact hselects
    · rw [Selector.walk_normalize hwell.normalize.normalize, Selector.walk_normalize hwell.normalize,
        Selector.walk_normalize hwell, toRead, Selector.get_merge_of_wellFormed hids hasked,
        Selector.walk_merge (hids.get _) (hasked.get _), hpath, Selector.merge_all]
      rfl

/-! ### What is delivered -/

/-- The objects under a name that is read are those of the document, reduced. -/
theorem selected_objects {fields : Fields Selector} (hdistinct : Fields.Distinct fields) {name : String}
    {s : Selector} (hs : (name, s) ∈ fields) (hwell : s.WellFormed) (hsome : s.isNone = false)
    (hname : Path.IsName name) (htag : name ≠ Tree.classTag) :
    ∃ part, s.Reduces part ∧ ∀ (document : Document) v, Fields.get? name document = some v → v.Nests →
      ∃ w, Fields.get? name (document.selected fields) = some w ∧ w.objects = v.objects.map part := by
  obtain ⟨paths, hleads, hproject⟩ := Selector.project_leads fields
  have hbelow := Selector.ReadBy.along (hleads.following hs hname)
  obtain ⟨part, hpart, hobjects⟩ := Selector.pick_reduces hwell hbelow
  refine ⟨part, hpart, fun document v hv hnests => ?_⟩
  obtain ⟨w, hw, hwnests⟩ := hbelow.nests hnests
  have hread : Fields.get? name (Document.project document
      (Projection.ofSelector? (.only fields))) = some w := by
    rw [hproject document, hleads.get?_project hs hsome hname, hv, Option.bind_some, hw]
  exact ⟨_, Selector.get?_pickFields_of_get? hdistinct hs htag hread
    (Selector.pick_ne_undefined hsome hwnests), hobjects hsome v w hw⟩

/-- Of an object that an attribute holds, an identifier is read where it is asked for, and where the class
of a reference is known. -/
theorem Sufficient.get_identifier (hcoherent : d.Coherent) {registry : RegistryRef} {a : Attribute}
    {sub s : Selector} (h : Sufficient d x.cls a sub s) {c : ClassRef}
    (hfound : d.find? registry c.name = some c)
    (hadmitted : ∀ name other, a.type.recordClass? = some name → d.component? x.cls name = some other →
      c.isSameOrForkOf other = true)
    {b : Attribute} (hb : b ∈ (d.definition c).identifiers)
    (hread : ((d.definition c).referenceable = true ∧ d.Knows x.cls a) ∨ sub.walk [b.name] = .all) :
    s.get b.name = .all := by
  rcases hread with ⟨hreferenceable, hknows⟩ | hwalk
  · cases hplain : a.type.recordClass? with
    | none =>
      rw [h.whole hplain]
      rfl
    | some name =>
      obtain ⟨other, hother⟩ := hknows name hplain
      have hdefinition := (hcoherent _ _ _ hfound other (hadmitted name other hplain hother)).2
      rw [hdefinition] at hb hreferenceable
      exact h.identifiers name hplain other hother hreferenceable b hb
  · exact h.asked [b.name] hwalk

theorem Delivered.conveys (hd : d.Lawful) (hnamed : d.WellNamed) (hcoherent : d.Coherent)
    {registry : RegistryRef} {fields : Fields Selector} {document : Document} {g₁ : Graph}
    (h : Delivered d registry x (document.selected fields) g g₁ g') (hchosen : Chosen d x asked fields)
    {cell : Cell} (hcell : g.cell? x = some cell) (hdocument : document.WellFormed) {a : Attribute}
    (ha : a ∈ d.attributes x.cls) {s : Selector} (hs : (a.name, s) ∈ fields) (hsome : s.isNone = false)
    {sub : Selector} (hsufficient : Sufficient d x.cls a sub s) {v : Value}
    (hv : Fields.get? a.name document = some v) {o : Object} (ho : o ∈ v.objects) {c : ClassRef}
    (hc : Tree.Tags d registry o c) :
    ∃ r ∈ g'.held x a.name, r.cls = c ∧ r.base? = none ∧
      (∀ id v, identifierIn? d c o = some (id, v) →
        ((d.definition c).referenceable = true ∧ d.Knows x.cls a) ∨ sub.walk [id] = .all →
          g'.identifier? d r = some (id, v)) ∧
      ∀ path id, sub.walk (path ++ [id]) = .all → Conveys d registry g' id path o r := by
  obtain ⟨hname, htag, hnewTag⟩ := hnamed x.cls a ha
  obtain ⟨part, hpart, hselected⟩ := selected_objects hchosen.distinct hs hsufficient.wellFormed hsome
    hname htag
  obtain ⟨w, hw, hobjects⟩ := hselected document v hv (Value.nests_of_mem_objects ho)
  have hwell := Value.wellFormed_of_mem_objects (hdocument.field hv) ho
  have hkey := Fields.mem_keys_iff.2 ⟨w, hw⟩
  have hdistinct := Document.distinct_selected fields document
  have hnew := hchosen.ne_newTag hnamed document
  obtain ⟨t, u, ht, hown, g₂, g₃, hbefore, hdecode, hafter⟩ := h.own? hdistinct hnew hcell hkey htag
  rw [hw] at ht
  cases ht
  have hmem : part o ∈ w.objects := by
    rw [hobjects]
    exact List.mem_map_of_mem ho
  obtain ⟨r, hr, g₄, g₅, isNew, hstart, rfl, hattributes, hend⟩ :=
    Record.decode_objects hd hdecode hmem (hc.of_tag (hpart.tag o))
  have hpartDistinct := hpart.distinct o (Value.wellFormed_object.1 hwell).1
  have hlt := Graph.lt_of_cell? hcell
  have hadmitted : ∀ name other, a.type.recordClass? = some name →
      d.component? x.cls name = some other → c.isSameOrForkOf other = true := by
    intro name other hplain hother
    have hassigns := Record.decodeAttributes_assigns hdistinct hnew hcell h.assigned
    obtain ⟨a', ha', hcheck⟩ := hassigns.accepted a.name hkey htag _
      ((h.held a.name hkey).symm.trans hown)
    rw [(hd.definition x.cls).attribute?_of_mem ha] at ha'
    cases ha'
    have hadmits := ValueType.admits_of_check hplain hcheck hr
    have hexpected : (d.site x.cls a.name).expected name = some other := hother
    rw [Site.admits, hexpected] at hadmits
    exact hadmits
  have hleaves : Leaves (g₄.cells.size ≤ ·) g₅ g' := by
    have hafter' : Leaves (· ≠ x.serial) g₃ g' := hafter.trans h.leaves
    have hsize := (hlt.trans_le hbefore.size).trans_le hstart.size
    exact (hend.imp fun _ _ => trivial).trans (hafter'.imp fun n hn => (hsize.trans_le hn).ne')
  refine ⟨(g₄.instantiate c isNew).1, ?_, rfl, rfl, fun id v hv hread => ?_, fun path id hwalk => ?_⟩
  · rw [Graph.held_of_own? hown]
    exact hr
  · obtain ⟨⟨b, hb, rfl⟩, hfield, hdefined⟩ := identifierIn?_eq_some hv
    obtain ⟨hbname, hbtag, -⟩ := hnamed c b (Definition.mem_attributeList_of_identifier hb)
    have hall := hsufficient.get_identifier hcoherent hc.found hadmitted hb hread
    have hkept : Fields.get? b.name (part o) = some v :=
      hpart.retains o hwell [] b.name hall hbname hbtag v hfield hdefined
    have hidentifier := (identifier?_of_decode hd hnamed hpartDistinct hattributes).trans
      (identifierIn?_of_retained hnamed (hpart.absent o) hv hkept)
    rw [← hidentifier]
    refine Graph.identifier?_congr fun b _ => seen?_congr_made rfl ?_
    refine hleaves.own? ?_ (Nat.le_refl _) b.name
    exact (Graph.lt_of_cell? (Graph.cell?_instantiate_self g₄ c isNew)).trans_le
      ((Record.keeps_decodeAttributes (.inr fun hne => hne rfl) (part o)).of_run
        (.refl (· ≠ (g₄.instantiate c isNew).1.serial) _) hattributes).size
  · exact Conveys.of_decode hd hnamed hpartDistinct
      (hpart.retains o hwell path id (hsufficient.asked _ hwalk)) hattributes hleaves

/-! ### What stays of it -/

variable {S S' : Session} {s : Store} {registry : RegistryRef} {o : Object} {id : String}
  {path : List String}

/-- A record that was followed conveys what it did: if it was loaded, it has kept its identifier. -/
theorem Settled.conveys (hd : d.Lawful) (hlawful : s.Lawful d) {lo hi : Nat}
    (h : Settled d s lo hi r g g') (hfound : d.find? s.registry r.cls.name = some r.cls)
    (hidentifier : path = [] → (d.definition r.cls).referenceable = true →
      ∀ v, identifierIn? d r.cls o = some (id, v) → g.identifier? d r = some (id, v))
    (hconveys : path ≠ [] → Conveys d registry g id path o r) :
    Conveys d registry g' id path o r := by
  cases hreferenceable : (d.definition r.cls).referenceable with
  | true =>
    cases path with
    | nil =>
      intro _ v hv
      obtain ⟨w, hw, hequal⟩ := h.identifier id v (hidentifier rfl hreferenceable v hv)
      exact ⟨w, (seen?_made h.mem.1 g' id).symm.trans hw, hequal⟩
    | cons name path =>
      intro hembedded
      rw [hreferenceable] at hembedded
      cases hembedded
  | false =>
    have hregistered : s.isRegistered r.cls = false := by
      by_contra hregistered
      rw [Bool.not_eq_false] at hregistered
      have htrue := (hlawful.of_isRegistered hd (hlawful.members _ _ hfound) hregistered).1
      rw [hreferenceable] at htrue
      cases htrue
    obtain ⟨lo', hi', -, -, hr, hconfined, hcells⟩ := h.unregistered hregistered
    cases path with
    | nil =>
      intro htrue
      rw [hreferenceable] at htrue
      cases htrue
    | cons name path =>
      refine (hconveys (List.cons_ne_nil _ _)).of_own? hr hconfined fun r' hr' name' => ?_
      rw [Graph.own?, Graph.own?, hcells r' hr']

/-- A load into a record of which no more than identifiers are known delivers what the document refers to
in the attributes that were asked for: what an attribute refers to by itself or in an array has the
identifier that is stored for it, if the class to which the attribute refers is known. So has what embedded
records refer to, at any depth, where the identifier was asked for. -/
theorem load_conveys (hd : d.Lawful) (hnamed : d.WellNamed) (hcoherent : d.Coherent)
    (hlawful : S.store.Lawful d) (htrees : S.store.Trees)
    (hwell : ∀ name, ∀ document ∈ S.store.database.documents name, Document.WellFormed document)
    (hx : x.Bare S.graph) (hinherits : d.Inherits x.cls) (hasked : asked.WellFormed)
    {throwIfMissing : Bool} {y : RecordRef}
    (h : load d x asked throwIfMissing S = (.ok (some y), S')) :
    ∃ identifier document, S.graph.identifier? d x = some identifier ∧
      S.store.stored? x.cls [identifier] = some document ∧
      ∀ a ∈ d.attributes x.cls, asked.Selects a.name → ∀ v, Fields.get? a.name document = some v →
        ∀ o ∈ v.objects, ∀ c, Tree.Tags d S.store.registry o c →
          ∃ r ∈ S'.graph.held x a.name, r.cls = c ∧
            ∀ path id, (path = [] ∧ d.Knows x.cls a) ∨ (asked.get a.name).walk (path ++ [id]) = .all →
              Conveys d S.store.registry S'.graph id path o r := by
  unfold load at h
  obtain ⟨S₀, hrun, hgraph, -⟩ := tracing_eq h
  obtain ⟨steps, _, hsteps, hrun⟩ := Stateful.bind_eq_ok hrun
  cases hsteps
  obtain ⟨⟨found, visited⟩, S₂, hwithin, hpure⟩ := Stateful.bind_eq_ok hrun
  obtain ⟨-, identifier, hidentifier, houtcome⟩ := loadWithin_steps hx.made hwithin
  cases houtcome with
  | visited hvisited => cases hvisited
  | missing => cases hpure
  | @found selector g document S₁ _ _ _ hselector hstored happlied hstore hfollowed =>
    cases hpure
    refine ⟨identifier, document, hidentifier, hstored, ?_⟩
    let e : Visit := ⟨x, asked, selector, identifier⟩
    obtain ⟨rfl, hsufficient⟩ := readSelector_sufficient hd hx hasked hselector
    have hrun : followNames d _ e.record e.selector e.selector.names
        (([] ++ [e]).map (Visit.entry S.store)) S₁ = _ := hfollowed
    obtain ⟨fields, new, honly, -, hbrought⟩ := found_brings hd hnamed hcoherent htrees
      (explores hd hnamed hcoherent htrees _) (e := e) (hx.typed hinherits) (.refl _)
      (Set.mem_singleton x) hx.made hx.calm (by simp) hidentifier hselector hstored happlied hstore hrun
    obtain ⟨cell, hcell, -⟩ := hx.cell
    obtain ⟨g₁, hdelivered⟩ := hbrought.delivered
    intro a ha hs v hv o ho c hc
    have hselects := hbrought.chosen.selects a ha hs
    have hmem : (a.name, (Selector.only fields).get a.name) ∈ fields := Selector.mem_of_get rfl hselects
    have hread := hsufficient a ha hs
    rw [show selector = .only fields from honly] at hread
    obtain ⟨r, hr, rfl, hmade, hidentified, hconveys⟩ := hdelivered.conveys hd hnamed hcoherent
      hbrought.chosen hcell (hwell _ document (stored?_eq_some hstored).1) ha hmem hselects hread hv ho hc
    obtain ⟨lo, hi, hsettled⟩ := hbrought.settled a.name (Fields.mem_keys_of_mem hmem) r hr
    refine ⟨r, ?_, rfl, fun path id hpath => ?_⟩
    · rw [hgraph, Graph.held_congr (hbrought.own a.name)]
      exact hr
    · rw [hgraph]
      refine hsettled.conveys hd hlawful hc.found (fun hnil hreferenceable v hv => ?_) fun hne =>
        hconveys path id (hpath.resolve_left fun hdirect => hne hdirect.1)
      subst hnil
      exact hidentified id v hv (hpath.imp_left fun hdirect => ⟨hreferenceable, hdirect.2⟩)

/-! ### An actor in a role -/

def performerClass : ClassRef := .declared 0 "Person"
def roleClass : ClassRef := .declared 1 "Role"
def playClass : ClassRef := .declared 2 "Play"

/-- People, who are part of plays by the roles that they have. -/
def playClasses : Directory where
  classes := #[
    { definition := {
        attributes := [("id", ⟨"id", .primary, .scalar .string {}, none⟩),
          ("name", ⟨"name", .plain, .scalar .string { optional := true }, none⟩)]
        indexes := [], embedded := false, storable := true }
      registry := some ⟨0⟩ },
    { definition := {
        attributes := [("actor", ⟨"actor", .plain, .reference "Person" false { optional := true }, none⟩)]
        indexes := [], embedded := true, storable := false }
      registry := some ⟨0⟩ },
    { definition := {
        attributes := [("id", ⟨"id", .primary, .scalar .string {}, none⟩),
          ("lead", ⟨"lead", .plain, .reference "Role" false { optional := true }, none⟩)]
        indexes := [], embedded := false, storable := true }
      registry := some ⟨0⟩ }]
  registries := #[{
    members := [("Person", performerClass), ("Role", roleClass), ("Play", playClass)] }]

def storedActor : Object := [("__component", .string "Person"), ("id", .string "p")]

def storedRole : Object := [("__component", .string "Role"), ("actor", .object storedActor)]

def storedPlay : Document :=
  [("__component", .string "Play"), ("id", .string "m"), ("lead", .object storedRole)]

/-- A play of which the identifier is known. It is stored with a role, and that with an actor. -/
def playSession : Session where
  graph := { cells := #[{ slots := [("id", some ⟨.string "m", .here⟩)], isNew := false }] }
  store := {
    ref := ⟨0⟩
    registry := ⟨0⟩
    storables := [("Person", performerClass), ("Play", playClass)]
    database := { collections := [("Play", { documents := [storedPlay] })] } }

def play : RecordRef := .made 0 playClass

/-- Asks for the name of the actor. -/
def nameOfActor : Selector := .only [("lead", .only [("actor", .only [("name", .all)])])]

/-- What is read for it. -/
def readOfActor : Selector :=
  .only [("id", .all), ("lead", .only [("actor", .only [("name", .all)])])]

def readPlay : Document :=
  [("__component", .string "Play"), ("id", .string "m"),
    ("lead", .object [("__component", .string "Role"),
      ("actor", .object [("__component", .string "Person")])])]

def graphOfActor : Graph where
  cells := #[
    { slots := [("id", some ⟨.string "m", .store⟩),
        ("lead", some ⟨.record (.made 1 roleClass), .store⟩)], isNew := false },
    { slots := [("actor", some ⟨.record (.made 2 performerClass), .store⟩)], isNew := false },
    { slots := [], isNew := false }]

theorem playClasses_lawful : playClasses.Lawful :=
  Directory.lawful_of_entries (by decide) (by decide)

theorem play_bare : play.Bare playSession.graph where
  made := rfl
  cell := ⟨_, rfl, rfl⟩
  keys name own hown := by
    have hmem : (name, own) ∈ [("id", some (⟨.string "m", .here⟩ : Slot))] := Fields.mem_of_get? hown
    obtain ⟨-, rfl⟩ := Prod.mk.inj (List.mem_singleton.1 hmem)
    exact ⟨_, rfl, .inl ⟨_, rfl⟩⟩

theorem storedPlay_wellFormed : storedPlay.WellFormed := by
  have hactor : Document.WellFormed storedActor :=
    (Document.WellFormed.empty.insert (v := .string "Person") trivial "__component").insert
      (v := .string "p") trivial "id"
  have hrole : Document.WellFormed storedRole :=
    (Document.WellFormed.empty.insert (v := .string "Role") trivial "__component").insert hactor "actor"
  exact ((Document.WellFormed.empty.insert (v := .string "Play") trivial "__component").insert
    (v := .string "m") trivial "id").insert hrole "lead"

theorem playSession_documents {P : Document → Prop} (h : P storedPlay) :
    ∀ name, ∀ document ∈ playSession.store.database.documents name, P document := by
  refine Database.forall_documents fun entry hentry document hdocument => ?_
  obtain rfl := List.mem_singleton.1 hentry
  rwa [List.mem_singleton.1 hdocument]

theorem playSession_lawful : playSession.store.Lawful playClasses := by
  refine ⟨fun name c hc => ?_, fun name c hc => ?_⟩
  · have hmem : (name, c) ∈ [("Person", performerClass), ("Play", playClass)] :=
      Fields.mem_of_get? hc
    rcases List.mem_pair.1 hmem with heq | heq <;> obtain ⟨rfl, rfl⟩ := Prod.mk.inj heq <;>
      exact ⟨rfl, rfl, rfl, rfl⟩
  · have hmem : (name, c) ∈ [("Person", performerClass), ("Role", roleClass), ("Play", playClass)] :=
      Fields.mem_of_get? hc
    simp only [List.mem_cons, List.not_mem_nil, or_false, Prod.mk.injEq] at hmem
    rcases hmem with ⟨-, rfl⟩ | ⟨-, rfl⟩ | ⟨-, rfl⟩ <;> rfl

def loadedPlay : Session := (load playClasses play .all true playSession).2

theorem loadedPlay_found : (load playClasses play .all true playSession).1 = .ok (some play) := by
  cbv

theorem load_conveys_play :
    ∃ identifier document, playSession.graph.identifier? playClasses play = some identifier ∧
      playSession.store.stored? play.cls [identifier] = some document ∧
      ∀ a ∈ playClasses.attributes play.cls, Selector.all.Selects a.name →
        ∀ v, Fields.get? a.name document = some v → ∀ o ∈ v.objects,
          ∀ c, Tree.Tags playClasses playSession.store.registry o c →
            ∃ r ∈ loadedPlay.graph.held play a.name, r.cls = c ∧
              ∀ path id, (path = [] ∧ playClasses.Knows play.cls a) ∨
                  (Selector.all.get a.name).walk (path ++ [id]) = .all →
                Conveys playClasses playSession.store.registry loadedPlay.graph id path o r := by
  have hload : load playClasses play .all true playSession = (.ok (some play), loadedPlay) := by
    rw [← loadedPlay_found, loadedPlay]
    exact (Prod.eta _).symm
  have htrees : playSession.store.Trees := playSession_documents fun r hr => by cases hr
  have hwell : ∀ name, ∀ document ∈ playSession.store.database.documents name,
      Document.WellFormed document := playSession_documents storedPlay_wellFormed
  exact load_conveys playClasses_lawful (Directory.forall_attributes (by decide))
    (Directory.coherent_of_members (by decide)) playSession_lawful htrees hwell play_bare
    (Directory.inherits_declared _ (by decide)) Selector.wellFormed_all hload

/-- Of an actor in a role, no more than the name is read where only that was asked for. -/
theorem load_loses_actor :
    Fields.get? "lead" storedPlay = some (.object storedRole) ∧
      Fields.get? "actor" storedRole = some (.object storedActor) ∧
      identifierIn? playClasses performerClass storedActor = some ("id", .string "p") ∧
      ∃ S, load playClasses play nameOfActor true playSession = (.ok (some play), S) ∧
        ∃ role actor : RecordRef, S.graph.held play "lead" = [role] ∧
          S.graph.held role "actor" = [actor] ∧ actor.cls = performerClass ∧
          S.graph.identifier? playClasses actor = none := by
  refine ⟨rfl, rfl, rfl, ?_⟩
  have hselector : readSelector playClasses play nameOfActor playSession.graph =
      (.ok readOfActor, playSession.graph) := by
    cbv
  have hdocument : Document.project storedPlay (Projection.ofSelector? readOfActor) = readPlay := by
    rw [show Projection.ofSelector? readOfActor = some ["__component", "id", "lead.__component",
      "lead.actor.__component", "lead.actor.name"] from rfl]
    simp [Document.project, PathTree.ofProjection, PathTree.insert, PathTree.empty, Path.segments,
      Text.cutAt, Fields.insert, Fields.get?, PathTree.project, PathTree.projectChildren, storedPlay,
      storedRole, storedActor, readPlay, PathTree.isEnd, Value.keepObjects?]
  have happlied : applyDocument playClasses playSession.store.registry play readOfActor readPlay
      playSession.graph = (.ok (), graphOfActor) := by
    cbv
  have hfollowed : followNames playClasses 4 play readOfActor readOfActor.names
      [("Play", [("id", .string "m")])] { playSession with graph := graphOfActor } =
        (.ok [("Play", [("id", .string "m")])], { playSession with graph := graphOfActor }) := by
    cbv
  have hwithin : loadWithin playClasses 5 play nameOfActor true [] playSession =
      (.ok (true, [("Play", [("id", .string "m")])]), { playSession with graph := graphOfActor }) :=
    loadWithin_of_found rfl rfl rfl rfl hselector rfl rfl rfl (by rw [hdocument]; exact happlied)
      hfollowed true
  have hsteps : loadSteps playSession = (.ok 5, playSession) := rfl
  obtain ⟨S, hload, hgraph⟩ := load_of_loadWithin hsteps hwithin
  refine ⟨S, hload, .made 1 roleClass, .made 2 performerClass, ?_⟩
  rw [hgraph]
  exact ⟨rfl, rfl, rfl, rfl⟩

end Store

end TypedRecords
