import TypedRecords.Proofs.Record.Stored
import TypedRecords.Proofs.Record.Typed
import TypedRecords.Proofs.Store.Updating

/-! # What a save spells out

Whatever its attributes hold, a record is prepared as fields under the names of its attributes, in which
no record is left. The identifiers among them are those that the record sees, and its descriptor is the
first of these that is defined.
-/

namespace TypedRecords

open TypedRecords.Graph (Stands Viewed Typed)
open Stateful (KeepsIn)

variable {d : Directory} {known₀ known : Set RecordRef} {r r' : RecordRef} {g₀ g g' : Graph}

/-- Fields for attributes of a record, among them keys as the record sees them. -/
structure Graph.Spells (d : Directory) (g : Graph) (r : RecordRef) (fields : Object) : Prop where
  distinct : Fields.Distinct fields
  names : ∀ name ∈ Fields.keys fields,
    name = Tree.classTag ∨ ∃ a ∈ d.attributes r.cls, a.name = name
  tag : (∀ a ∈ d.attributes r.cls, a.name ≠ Tree.classTag) →
    Fields.get? Tree.classTag fields = some (.string r.className)
  keys : ∀ name, name ≠ Tree.classTag → ∀ t, Fields.get? name fields = some t →
    ∃ v, g.seen? r name = some v ∧ (v = .undefined ∨ v.IsKey → t = v)

namespace Graph.Spells

theorem header (d : Directory) (g : Graph) (r : RecordRef) :
    g.Spells d r [(Tree.classTag, .string r.className)] where
  distinct := List.nodup_singleton _
  names name hname := .inl (List.mem_singleton.1 hname)
  tag _ := rfl
  keys name hne t ht := by
    have hmem := List.mem_singleton.1 (Fields.mem_of_get? ht)
    exact absurd (congrArg Prod.fst hmem) hne

theorem insert {fields : Object} (h : g.Spells d r fields) {a : Attribute}
    (ha : a ∈ d.attributes r.cls) {v t : Value} (hv : g.seen? r a.name = some v)
    (ht : v = .undefined ∨ v.IsKey → t = v) : g.Spells d r (Fields.insert a.name t fields) where
  distinct := h.distinct.insert a.name t
  names name hname := by
    rcases Fields.mem_keys_insert.1 hname with rfl | hname
    · exact .inr ⟨a, ha, rfl⟩
    · exact h.names name hname
  tag hnamed := by
    rw [Fields.get?_insert_of_ne (hnamed a ha).symm]
    exact h.tag hnamed
  keys name hne t' ht' := by
    by_cases hname : name = a.name
    · subst hname
      rw [Fields.get?_insert_self] at ht'
      cases ht'
      exact ⟨v, hv, ht⟩
    · rw [Fields.get?_insert_of_ne hname] at ht'
      exact h.keys name hne t' ht'

end Graph.Spells

namespace Record

/-- Keys and what is undefined are encoded as they are. -/
theorem keeps_encode_key {onRecord : RecordRef → Selector → Action Value}
    (honRecord : ∀ known r s, r ∈ known →
      KeepsIn (Viewed g₀ known₀) known (onRecord r s) fun _ _ => True) {v w : Value}
    (hw : v.Reforked (Stands g₀ known₀ known) w) (s : Selector) :
    KeepsIn (Viewed g₀ known₀) known (w.encode onRecord s)
      fun _ t => v = .undefined ∨ v.IsKey → t = v := by
  by_cases hkey : v = .undefined ∨ v.IsKey
  · rcases hkey with rfl | ⟨text, rfl⟩ | ⟨x, rfl⟩ <;> cases hw <;> exact .pure fun _ _ _ => rfl
  · have hwithin : w.Within known := hw.within fun _ _ hr => hr.known
    exact (keeps_encode honRecord w s hwithin).imp fun _ _ _ _ hv => absurd hv hkey

/-- A record is spelled out when it is encoded for a store. -/
theorem keeps_encode_spells (hr : r ∈ known₀) (steps : Nat) (s : Selector) :
    KeepsIn (Viewed g₀ known₀) known₀ (encodeWithin d .store steps [] true r s)
      fun _ t => ∃ fields, t = .object fields ∧ g₀.Spells d r fields := by
  have hreading : AllowsReading (Viewed g₀ known₀) := Graph.viewed_allowsReading g₀ known₀
  have hstands : ∀ after, known₀ ⊆ after → Stands g₀ known₀ after r r :=
    fun after hafter => ⟨hr, hafter hr, .refl⟩
  cases steps with
  | zero => exact .throw _
  | succ steps =>
    simp only [encodeWithin, List.contains_nil, Bool.not_true, Bool.false_and, Bool.or_self,
      Bool.false_eq_true, if_false]
    refine (keeps_header_store r).bind fun tags after hafter htags => ?_
    subst htags
    refine KeepsIn.bind (Q := fun _ acc => g₀.Spells d r acc)
      (.foldlM (fun a ha acc later hlater hacc => ?_) (fun _ _ _ _ hacc => hacc) (.header d g₀ r))
      fun fields _ _ hfields => .pure fun _ _ => ⟨fields, rfl, hfields⟩
    refine (keeps_encodeAttribute (hstands later (hafter.trans hlater))
      (fun v _ last w _ hw => keeps_encode_key (fun _ r' s hr' =>
        hreading.encodeWithin .store steps [r] false hr' s) hw (s.get a.name)) acc).imp ?_
    rintro _ _ acc' (⟨rfl, -⟩ | ⟨v, t, hv, ht, rfl⟩)
    · exact hacc
    · exact hacc.insert ha hv ht

end Record

/-! ### Descriptors -/

namespace AllowsWriting

variable {A : RecordRef → String → Value → Prop} {C : ClassRef → Prop}
  {I : Set RecordRef → Graph → Prop} (hI : AllowsWriting d A C I)
  (hA : ∀ r name v, A r name v → IdentifierKey d r name v)

include hI hA

theorem keeps_descriptorAmong_plain (hr : r ∈ known) {attributes : List Attribute}
    (hattributes : ∀ a ∈ attributes, a ∈ (d.definition r.cls).identifiers) :
    KeepsIn I known (Record.descriptorAmong r attributes)
      fun _ described => ∀ entry ∈ described, entry.2.hasReferences = false := by
  induction attributes generalizing known with
  | nil => exact .throw _
  | cons a rest ih =>
    obtain ⟨ha, hrest⟩ := List.forall_mem_cons.1 hattributes
    rw [Record.descriptorAmong]
    refine (hI.keeps_value hr a.name).bind fun v after hafter hv => ?_
    split
    · exact ih (hafter hr) hrest
    · exact ih (hafter hr) hrest
    · next v hdefined =>
      refine .pure fun _ _ entry hentry => ?_
      rw [List.mem_singleton.1 hentry]
      rcases hA _ _ _ (hv v rfl).1 a ha rfl with rfl | ⟨s, rfl⟩ | ⟨x, rfl⟩
      · exact absurd rfl hdefined
      · rfl
      · rfl

/-- No record is left in what is encoded. -/
theorem keeps_encodeWithin_plain (hr : r ∈ known) (target : Target) (steps : Nat)
    (visiting : List RecordRef) (isRoot : Bool) (s : Selector) :
    KeepsIn I known (Record.encodeWithin d target steps visiting isRoot r s)
      fun _ t => t.hasReferences = false :=
  hI.toAllowsReading.encodeWithin_trees
    ⟨fun _ hv _ _ => hv, fun _ => Value.hasReferences_array.2, fun _ => Value.hasReferences_object.2⟩
    (fun _ _ hr => hI.keeps_descriptorAmong_plain hA hr fun _ ha => ha) target steps visiting isRoot
    hr s

/-- No record is left in what a save prepares. -/
theorem prepare_plain {s : Selector} {p : Store.Prepared} (hg : I known g) (hr : r ∈ known)
    (h : Store.prepare d r s g = (.ok p, g')) :
    ∀ entry ∈ p.document, entry.2.hasReferences = false := by
  obtain ⟨g₁, g₂, g₃, hselector, hvalidate, hdescriptor, hdocument⟩ := Store.prepare_eq_ok h
  obtain ⟨steps, hencode⟩ := Store.documentOf_eq_ok hdocument
  have hreading := hI.toAllowsReading
  obtain ⟨known₁, h₁, hg₁, -⟩ := (hreading.resolve _ hr _).of_run subset_rfl hg hselector
  obtain ⟨known₂, h₂, hg₂, -⟩ := (hreading.validate (h₁ hr) _).of_run subset_rfl hg₁ hvalidate
  obtain ⟨known₃, h₃, hg₃, -⟩ := (hreading.descriptor (h₂ (h₁ hr))).of_run subset_rfl hg₂ hdescriptor
  obtain ⟨-, -, -, hplain⟩ := (hI.keeps_encodeWithin_plain hA (h₃ (h₂ (h₁ hr))) .store steps [] true
    p.selector).of_run subset_rfl hg₃ hencode
  exact Value.hasReferences_object.1 (hplain _ rfl)

end AllowsWriting

namespace Store

/-- What a save has prepared of a record whose identifiers are keys or undefined. -/
structure Prepared.Spells (d : Directory) (g : Graph) (r : RecordRef) (p : Prepared) : Prop
    extends g.Spells d r p.document where
  plain : ∀ entry ∈ p.document, entry.2.hasReferences = false
  keyed : ∀ a ∈ (d.definition r.cls).identifiers, ∀ v, g.seen? r a.name = some v →
    v = .undefined ∨ v.IsKey
  descriptor : ∃ identifier, g.identifier? d r = some identifier ∧ p.descriptor = [identifier]

theorem Prepared.Spells.descriptor_ne_nil {p : Prepared} (h : p.Spells d g r) :
    p.descriptor ≠ [] := by
  obtain ⟨identifier, -, hdescriptor⟩ := h.descriptor
  simp [hdescriptor]

/-- A primary identifier that is prepared is what the record is described by, unless it is undefined. -/
theorem Prepared.Spells.primary {p : Prepared} (h : p.Spells d g r) {a : Attribute}
    (ha : (d.definition r.cls).primary? = some a) (hname : a.name ≠ Tree.classTag) {t : Value}
    (ht : Fields.get? a.name p.document = some t) :
    t = .undefined ∨ t.IsKey ∧ p.descriptor = [(a.name, t)] := by
  obtain ⟨v, hv, hsame⟩ := h.keys a.name hname t ht
  have hidentifiers : (d.definition r.cls).identifiers = a :: (d.definition r.cls).secondaries := by
    rw [Definition.identifiers, ha]
    rfl
  have hkey := h.keyed a (hidentifiers ▸ List.mem_cons_self) v hv
  obtain rfl := hsame hkey
  refine hkey.imp_right fun hkey => ⟨hkey, ?_⟩
  obtain ⟨identifier, hidentifier, hdescriptor⟩ := h.descriptor
  rw [Graph.identifier?, hidentifiers, List.findSome?_cons, hv] at hidentifier
  rw [hdescriptor]
  rcases hkey with ⟨s, rfl⟩ | ⟨x, rfl⟩ <;> cases hidentifier <;> rfl

theorem prepare_spells (hd : d.Lawful) (hg : g.Typed d known₀) (hr : r ∈ known₀) {s : Selector}
    {p : Prepared} (h : prepare d r s g = (.ok p, g')) : p.Spells d g r := by
  obtain ⟨g₁, g₂, g₃, hselector, hvalidate, hdescriptor, hdocument⟩ := prepare_eq_ok h
  obtain ⟨steps, hencode⟩ := documentOf_eq_ok hdocument
  have hviewing : AllowsReading (Viewed g known₀) := Graph.viewed_allowsReading g known₀
  obtain ⟨known₁, h₁, hg₁, -⟩ :=
    (hviewing.resolve _ hr _).of_run subset_rfl hg.sound.viewed hselector
  obtain ⟨known₂, h₂, hg₂, -⟩ := (hviewing.validate (h₁ hr) _).of_run subset_rfl hg₁ hvalidate
  obtain ⟨known₃, h₃, hg₃, hdescribed⟩ := (Record.keeps_descriptorAmong (hg₂.stands hr)
    fun a ha v hv => hg.seen hr hv a ha rfl).of_run subset_rfl hg₂ hdescriptor
  obtain ⟨-, -, -, hspelled⟩ :=
    (Record.keeps_encode_spells hr steps p.selector).of_run hg₃.more hg₃ hencode
  have hplain := (Graph.typed_allowsWriting hd).prepare_plain (fun _ _ _ hkey => hkey) hg hr h
  obtain ⟨fields, heq, hfields⟩ := hspelled _ rfl
  cases heq
  exact ⟨hfields, hplain, fun a ha v hv => hg.seen hr hv a ha rfl, hdescribed _ rfl⟩

end Store

end TypedRecords
