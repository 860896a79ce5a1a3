import TypedRecords.Proofs.Document.Placed
import TypedRecords.Proofs.Record.Primary
import TypedRecords.Proofs.Store.Kept
import TypedRecords.Proofs.Types.Compared

/-! # References that are saved

A record that is referred to by identifier is saved as its tag and its first identifier. In the document
of a record that holds it, the tagged objects therefore lead to the primary identifier, if that is defined:
along the path that an index has for the reference, unless the record is of a class with another one.
-/

namespace TypedRecords

open TypedRecords.Graph (Stands Viewed)
open Stateful (KeepsIn)

variable {d : Directory} {known₀ known : Set RecordRef} {r r' q q' : RecordRef} {g₀ g g' : Graph}
  {s : Selector} {a p : Attribute} {v : Value}

/-! ### Places of references -/

/-- Where a class refers to records that have a primary identifier of their own. -/
theorem Directory.referencePath?_eq_some {c : ClassRef} {name path : String}
    (h : d.referencePath? c name = .ok (some path)) :
    ∃ a other target p, (d.definition c).attribute? name = some a ∧ a.type.recordClass? = some other ∧
      d.component? c other = some target ∧ (d.definition target).referenceable = true ∧
      (d.definition target).primary? = some p ∧ path = name ++ "." ++ p.name := by
  unfold referencePath? at h
  split at h
  · cases h
  · next other hother =>
    obtain ⟨a, ha, htype⟩ := Option.bind_eq_some_iff.1 hother
    obtain ⟨target, htarget, hpure⟩ := bind_eq_ok h
    have hfound : d.component? c other = some target := by
      unfold component at htarget
      split at htarget
      · next found hfound =>
        cases htarget
        exact hfound
      · cases htarget
    have hplace := Except.ok.inj hpure
    split at hplace
    · next hreferenceable =>
      obtain ⟨p, hp, hpath⟩ := Option.map_eq_some_iff.1 hplace
      exact ⟨a, other, target, p, ha, htype, hfound, hreferenceable, hp, hpath.symm⟩
    · cases hplace

/-- A record that a class accepts at a reference has its primary identifier at the place of the
reference. -/
theorem Directory.primary_of_accepted {c : ClassRef} {path : String}
    (hpath : d.referencePath? c a.name = .ok (some path))
    (ha : (d.definition c).attribute? a.name = some a) (hq : d.Inherits q.cls)
    (haccepted : a.type.check (d.site c a.name) (.record q) = .ok ()) :
    (d.definition q.cls).referenceable = true ∧
      ∃ p, (d.definition q.cls).primary? = some p ∧ path = a.name ++ "." ++ p.name := by
  obtain ⟨b, other, target, p, hb, hother, htarget, hreferenceable, hp, rfl⟩ :=
    referencePath?_eq_some hpath
  obtain rfl := Option.some.inj (ha.symm.trans hb)
  have hadmits := ValueType.admits_of_check hother haccepted (List.mem_singleton.2 rfl)
  rw [Site.admits, show (d.site c a.name).expected other = some target from htarget] at hadmits
  rw [(hq target hadmits).2]
  exact ⟨hreferenceable, p, hp, rfl⟩

/-! ### References -/

theorem Graph.identifier?_of_seen (hp : (d.definition q.cls).primary? = some p)
    (hv : g.seen? q p.name = some v) (hdefined : v ≠ .undefined) :
    g.identifier? d q = some (p.name, v) := by
  rw [identifier?, Definition.identifiers_of_primary hp, List.findSome?_cons, hv]
  cases v <;> first | rfl | exact absurd rfl hdefined

namespace Record

/-- A reference to a record. -/
def referenceTo (q : RecordRef) (identifier : String × Value) : Value :=
  .object (Fields.insert identifier.1 identifier.2 [(Tree.classTag, .string q.className)])

theorem keeps_encodeReference_referenceTo (hq : Stands g₀ known₀ known q q')
    (hkeys : ∀ a ∈ (d.definition q.cls).identifiers, ∀ v, g₀.seen? q a.name = some v →
      v = .undefined ∨ v.IsKey) :
    KeepsIn (Viewed g₀ known₀) known (encodeReference d .store q') fun _ t =>
      ∃ identifier, g₀.identifier? d q = some identifier ∧ t = referenceTo q identifier := by
  refine (keeps_header_store q').bind fun tags after hafter htags => ?_
  have hdescriptor : KeepsIn (Viewed g₀ known₀) after (descriptor d q') fun _ described =>
      ∃ identifier, g₀.identifier? d q = some identifier ∧ described = [identifier] := by
    unfold descriptor
    rw [hq.descends.cls]
    exact keeps_descriptorAmong (hq.mono hafter) hkeys
  refine hdescriptor.bind fun described _ _ hdescribed => .pure fun _ _ => ?_
  obtain ⟨identifier, hidentifier, rfl⟩ := hdescribed
  have hname : q'.className = q.className := congrArg ClassRef.name hq.descends.cls
  exact ⟨identifier, hidentifier, by rw [htags, hname]; rfl⟩

/-- A record within another is encoded as a reference if it can be referred to. -/
theorem keeps_encode_referenceTo (hreferenceable : (d.definition q.cls).referenceable = true)
    (hkeys : ∀ a ∈ (d.definition q.cls).identifiers, ∀ v, g₀.seen? q a.name = some v →
      v = .undefined ∨ v.IsKey) {v' : Value}
    (hforked : (Value.record q).Reforked (Stands g₀ known₀ known) v') (steps : Nat)
    (visiting : List RecordRef) (s : Selector) :
    KeepsIn (Viewed g₀ known₀) known (v'.encode (encodeWithin d .store steps visiting false) s)
      fun _ t => ∃ identifier, g₀.identifier? d q = some identifier ∧ t = referenceTo q identifier := by
  cases hforked with
  | leaf hleaf => cases hleaf
  | record hq =>
    cases steps with
    | zero => exact .throw _
    | succ steps =>
      simp only [Value.encode, encodeWithin, hq.descends.cls, hreferenceable, Bool.not_false,
        Bool.and_true, beq_self_eq_true, Bool.or_true, if_true]
      exact keeps_encodeReference_referenceTo hq hkeys

/-! ### Fields of the document -/

/-- The field of an attribute that is selected and set is what its value is encoded as. -/
theorem keeps_encodeWithin_field (hd : d.Lawful) (hr : r ∈ known₀) (ha : a ∈ d.attributes r.cls)
    (hselects : s.Selects a.name) (hv : g₀.seen? r a.name = some v) {P : Value → Prop}
    {steps : Nat} (hencode : ∀ after v', known₀ ⊆ after → v.Reforked (Stands g₀ known₀ after) v' →
      KeepsIn (Viewed g₀ known₀) after (v'.encode (encodeWithin d .store steps [r] false) (s.get a.name))
        fun _ t => P t) :
    KeepsIn (Viewed g₀ known₀) known₀ (encodeWithin d .store (steps + 1) [] true r s)
      fun _ t => ∃ fields e, t = .object fields ∧ Fields.get? a.name fields = some e ∧ P e := by
  have hreading : AllowsReading (Viewed g₀ known₀) := Graph.viewed_allowsReading g₀ known₀
  have hwithin : ∀ known r' s', r' ∈ known → KeepsIn (Viewed g₀ known₀) known
      (encodeWithin d .store steps [r] false r' s') fun _ _ => True :=
    fun _ _ s' hr' => hreading.encodeWithin .store steps [r] false hr' s'
  obtain ⟨before, after, hsplit⟩ := List.append_of_mem ha
  have hnodup := (hd.definition r.cls).names_nodup
  rw [show (d.definition r.cls).attributeList = before ++ a :: after from hsplit, List.map_append,
    List.map_cons] at hnodup
  have hlater : ∀ b ∈ after, a.name ≠ b.name := fun b hb heq =>
    (List.nodup_cons.1 (List.nodup_append.1 hnodup).2.1).1 (heq ▸ List.mem_map_of_mem hb)
  simp only [encodeWithin, List.contains_nil, Bool.not_true, Bool.false_and, Bool.or_self,
    Bool.false_eq_true, if_false]
  refine (keeps_header .store r).bind fun tags known₁ h₁ _ => ?_
  rw [hsplit, List.foldlM_append]
  -- Attributes before this one add what they like.
  refine KeepsIn.bind (KeepsIn.bind (Q := fun _ _ => True) (.foldlM (fun b _ acc later hknown _ =>
    hreading.encodeAttribute hwithin (hknown (h₁ hr)) s acc b) (fun _ _ _ _ _ => trivial) trivial)
    fun acc known₂ h₂ _ => ?_) (Q := fun _ fields => ∃ e, Fields.get? a.name fields = some e ∧ P e)
      fun fields _ _ hfields => .pure fun _ _ => ?_
  · rw [List.foldlM_cons]
    have hstands : Stands g₀ known₀ known₂ r r := ⟨hr, h₂ (h₁ hr), .refl⟩
    refine (keeps_encodeAttribute (R := fun _ t => P t) hstands (fun v' hv' last w hlast hw => ?_)
      acc).bind fun acc' known₃ h₃ hstep => ?_
    · obtain rfl := Option.some.inj (hv.symm.trans hv')
      exact hencode last w ((h₁.trans h₂).trans hlast) hw
    · obtain ⟨e, hread, he⟩ : ∃ e, Fields.get? a.name acc' = some e ∧ P e := by
        rcases hstep with ⟨-, hnone | hunset⟩ | ⟨v', e, -, he, rfl⟩
        · rw [Selector.Selects, hnone] at hselects
          cases hselects
        · cases hv.symm.trans hunset
        · exact ⟨e, Fields.get?_insert_self _ _ _, he⟩
      refine (KeepsIn.foldlM (P := fun _ fields => Fields.get? a.name fields = some e)
        (fun b hb acc later hknown hacc => ?_) (fun _ _ _ _ hacc => hacc) hread).imp
          fun _ _ _ hfields => ⟨e, hfields, he⟩
      refine (hreading.encodeAttribute_trees .trivial hwithin
        (hknown (h₃ (h₂ (h₁ hr)))) s acc b).imp ?_
      rintro _ _ acc' (rfl | ⟨t, -, rfl⟩)
      · exact hacc
      · rw [Fields.get?_insert_of_ne (hlater b hb)]
        exact hacc
  · obtain ⟨e, hread, he⟩ := hfields
    exact ⟨fields, e, rfl, hread, he⟩

end Record

/-! ### What is prepared -/

theorem Value.leads_referenceTo {name : String} (hname : Path.IsName name) (v : Value) :
    ∃ inner, Record.referenceTo q (name, v) = .object inner ∧ Tree.isTagged inner = true ∧
      v.Leads [name] inner := by
  have htag : Path.IsName Tree.classTag := by decide
  have hheader : Fields.Distinct [(Tree.classTag, Value.string q.className)] := List.nodup_singleton _
  refine ⟨_, rfl, ?_, hheader.insert name v, fun key hkey => ?_, Fields.get?_insert_self _ _ _⟩
  · exact Fields.contains_iff.2 (Fields.mem_keys_insert.2 (.inr (List.mem_singleton.2 rfl)))
  · rcases Fields.mem_keys_insert.1 hkey with rfl | hkey
    · exact hname
    · rw [List.mem_singleton.1 hkey]
      exact htag

namespace Store

/-- What a save prepares leads to the primary identifier of a record that the saved one refers to. -/
theorem prepare_leads (hd : d.Lawful) (hnamed : d.NamesProperly) (hg : g.Typed d known)
    (hr : r ∈ known) {prepared : Prepared} (h : prepare d r s g = (.ok prepared, g'))
    (ha : a ∈ d.attributes r.cls) (hselects : prepared.selector.Selects a.name)
    (hq : g.seen? r a.name = some (.record q))
    (hreferenceable : (d.definition q.cls).referenceable = true)
    (hp : (d.definition q.cls).primary? = some p) (hv : g.seen? q p.name = some v)
    (hdefined : v ≠ .undefined) : v.Leads [a.name, p.name] prepared.document := by
  obtain ⟨g₁, g₂, g₃, hselector, hvalidate, hdescriptor, hdocument⟩ := prepare_eq_ok h
  obtain ⟨steps, hencode⟩ := documentOf_eq_ok hdocument
  have hreading : AllowsReading (Viewed g known) := Graph.viewed_allowsReading g known
  obtain ⟨known₁, h₁, hg₁, -⟩ :=
    (hreading.resolve _ hr _).of_run subset_rfl hg.sound.viewed hselector
  obtain ⟨known₂, h₂, hg₂, -⟩ := (hreading.validate (h₁ hr) _).of_run subset_rfl hg₁ hvalidate
  obtain ⟨known₃, h₃, hg₃, -⟩ := (hreading.descriptor (h₂ (h₁ hr))).of_run subset_rfl hg₂ hdescriptor
  have hknown : q ∈ known := Value.within_record.1 (hg.sound.seen hr hq)
  have hkeys : ∀ b ∈ (d.definition q.cls).identifiers, ∀ v, g.seen? q b.name = some v →
      v = .undefined ∨ v.IsKey := fun b hb v hv => hg.seen hknown hv b hb rfl
  have hidentifier := Graph.identifier?_of_seen hp hv hdefined
  -- Forks that reading has made since stand for the records as they were.
  have hfield : ∃ e, Fields.get? a.name prepared.document = some e ∧ e = Record.referenceTo q (p.name, v) := by
    cases steps with
    | zero => cases hencode
    | succ steps =>
      obtain ⟨-, -, -, hfields⟩ := (Record.keeps_encodeWithin_field hd hr ha hselects hq
        fun after v' hafter hforked => Record.keeps_encode_referenceTo hreferenceable hkeys hforked
          steps [r] _).of_run (h₁.trans (h₂.trans h₃)) hg₃ hencode
      obtain ⟨fields, e, heq, hread, identifier, hsame, rfl⟩ := hfields _ rfl
      cases heq
      obtain rfl := Option.some.inj (hidentifier.symm.trans hsame)
      exact ⟨_, hread, rfl⟩
  obtain ⟨_, hread, rfl⟩ := hfield
  have hspells := prepare_spells hd hg hr h
  have hname : Path.IsName p.name :=
    hnamed q.cls p (Definition.mem_attributeList_of_identifier (Definition.mem_identifiers_of_primary hp))
  obtain ⟨inner, heq, htagged, hinner⟩ := Value.leads_referenceTo (q := q) hname v
  exact ⟨hspells.distinct, Document.Shaped.names_of_spells hnamed hspells, inner, heq ▸ hread, htagged,
    hinner⟩

/-! ### What is written -/

/-- A save writes an attribute that is set if the selector that it works out selects it. -/
def Writes (d : Directory) (r : RecordRef) (s : Selector) (g : Graph) (name : String) : Prop :=
  ∃ t g', writeSelector d r s g = (.ok t, g') ∧ t.Selects name

theorem Writes.selects {name : String} (hwrites : Writes d r s g name) {prepared : Prepared}
    (h : prepare d r s g = (.ok prepared, g')) : prepared.selector.Selects name := by
  obtain ⟨t, g₁, hselector, hselects⟩ := hwrites
  obtain ⟨g₂, -, -, hprepared, -⟩ := prepare_eq_ok h
  cases hselector.symm.trans hprepared
  exact hselects

/-- Every set attribute of which the given selector selects something is written. -/
theorem writes_of_selects (hmade : r.base? = none) (ha : a ∈ d.attributes r.cls)
    (hs : ((d.definition r.cls).identifierSelector.merge s).Selects a.name) {slot : Slot}
    (hset : g.own? r a.name = some (some slot)) {t : Selector}
    (h : writeSelector d r s g = (.ok t, g')) : Writes d r s g a.name :=
  ⟨t, g', h, Record.resolve_selects rfl hmade ha hs hset h⟩

variable {S S' : Session}

/-- A document that a save has written: it was added for a record that was new, and replaces the one
that the record describes otherwise. -/
inductive Wrote (d : Directory) (r : RecordRef) (S : Session) (s' : Store) (document : Document) : Prop
  | created {identifier : String × Value} (new : S.graph.isNew r = true)
    (described : S.graph.identifier? d r = some identifier)
    (missing : (S.store.database.collection (S.store.collectionName r.cls)).position? [identifier] = none)
    (documents : s'.database.documents (S.store.collectionName r.cls) =
      S.store.database.documents (S.store.collectionName r.cls) ++ [document])
  | patched {identifier : String × Value} {i : Nat} (known : S.graph.isNew r = false)
    (described : S.graph.identifier? d r = some identifier)
    (found : (S.store.database.collection (S.store.collectionName r.cls)).position? [identifier] = some i)
    (documents : s'.database.documents (S.store.collectionName r.cls) =
      (S.store.database.documents (S.store.collectionName r.cls)).set i document)

/-- A save that answers the record has prepared a document and has had it written. -/
theorem save_prepared {expected : Expectation}
    (h : save d r s expected S = (.ok (some r'), S')) : r' = r ∧
      S.store.isRegistered r.cls = true ∧ ∃ prepared g, prepare d r s S.graph = (.ok prepared, g) ∧
        ((savingCall (S.graph.isNew r) prepared).run (S.store.collectionName r.cls)
          S.store.database).1 = .ok (.flag true) ∧
        S'.store.database = ((savingCall (S.graph.isNew r) prepared).run
          (S.store.collectionName r.cls) S.store.database).2 := by
  unfold save at h
  obtain ⟨saved, hsave, -, trace, htrace⟩ := tracing_eq h
  obtain ⟨hregistered, prepared, g, written, called, hprepare, hcall, hresult, hstore, -⟩ :=
    saveRecord_eq_ok hsave
  obtain ⟨-, ⟨journal, hcalled⟩, hflag⟩ := callFlag_eq hcall
  cases written with
  | false => cases hresult
  | true =>
    refine ⟨Option.some.inj hresult, hregistered, prepared, g, hprepare, hflag.1 rfl, ?_⟩
    rw [htrace, hstore, hcalled]

/-- The document that is written holds the primary identifier of a record to which the saved one refers,
at the place of the reference. -/
theorem save_places (hd : d.Lawful) (hnamed : d.NamesProperly) (hg : S.graph.Typed d known)
    (hr : r ∈ known) {expected : Expectation} (h : save d r s expected S = (.ok (some r'), S'))
    (ha : a ∈ d.attributes r.cls) (hwrites : Writes d r s S.graph a.name)
    (hq : S.graph.seen? r a.name = some (.record q))
    (hreferenceable : (d.definition q.cls).referenceable = true)
    (hp : (d.definition q.cls).primary? = some p) (hv : S.graph.seen? q p.name = some v)
    (hdefined : v ≠ .undefined) : ∃ document, Wrote d r S S'.store document ∧
      Path.get? (.object document) (a.name ++ "." ++ p.name) = some v := by
  obtain ⟨-, -, prepared, g, hprepare, hflag, hdatabase⟩ := save_prepared h
  have hknown : q ∈ known := Value.within_record.1 (hg.sound.seen hr hq)
  have hkey : v.IsKey :=
    (hg.seen hknown hv p (Definition.mem_identifiers_of_primary hp) rfl).resolve_left hdefined
  have hleads := prepare_leads hd hnamed hg hr hprepare ha (hwrites.selects hprepare) hq hreferenceable
    hp hv hdefined
  obtain ⟨identifier, hidentifier, hdescriptor⟩ := (prepare_spells hd hg hr hprepare).descriptor
  have hnames : ∀ name ∈ [a.name, p.name], Path.IsName name := by
    refine List.forall_mem_cons.2 ⟨hnamed r.cls a ha, List.forall_mem_singleton.2 (hnamed q.cls p ?_)⟩
    exact Definition.mem_attributeList_of_identifier (Definition.mem_identifiers_of_primary hp)
  have hpath : ∀ w, Path.get? w (a.name ++ "." ++ p.name) = Path.getAlong [a.name, p.name] w := by
    intro w
    rw [← Path.get?_ofNames (by simp) hnames]
    simp [Path.ofNames, Path.join, (hnamed r.cls a ha).1]
  rcases savingCall_writes hflag with ⟨hnew, hnone, hput⟩ | ⟨hstored, i, stored, hi, -, hput⟩
  · refine ⟨Value.stripFields prepared.document,
      .created hnew hidentifier (hdescriptor ▸ hnone) ?_, ?_⟩
    · rw [hdatabase, hput, Database.documents, Database.collection_put_self]
    · rw [hpath]
      exact hleads.getAlong_stripFields hkey
  · refine ⟨(Patch.ofDocument prepared.document).apply stored,
      .patched hstored hidentifier (hdescriptor ▸ hi) ?_, ?_⟩
    · rw [hdatabase, hput, Database.documents, Database.collection_put_self]
    · rw [hpath]
      exact Patch.getAlong_apply_of_leads hleads hkey stored

end Store

end TypedRecords
