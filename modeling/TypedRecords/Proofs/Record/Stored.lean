import TypedRecords.Proofs.Record.Encoding
import TypedRecords.Proofs.Record.Spanning

/-! # Trees of held values

What a held value is encoded as for a store. What is encoded may be a value that stands for it, with forks
that were made when the records were read.
-/

namespace TypedRecords

open TypedRecords.Graph (Stands Viewed)
open Stateful (KeepsIn)

/-! ### Trees -/

/-- A tree for a value. Of an embedded record it has some of the set attributes, all of them if it is
`full`; of one that is referred to by identifier, the first identifier. -/
inductive Encodes (full : Prop) (d : Directory) (registry : RegistryRef) (g : Graph) :
    Value → Value → Prop
  | leaf {v : Value} (h : v.isLeaf = true) : Encodes full d registry g v v
  | undefined : Encodes full d registry g .undefined .undefined
  | array {items trees : List Value} (length : items.length = trees.length)
    (h : ∀ (i : Nat) v t, items[i]? = some v → trees[i]? = some t → Encodes full d registry g v t) :
    Encodes full d registry g (.array items) (.array trees)
  | object {fields trees : Object} (untagged : Fields.get? Tree.classTag fields = none)
    (distinct : Fields.Distinct fields) (names : Fields.keys fields = Fields.keys trees)
    (h : ∀ name v t, Fields.get? name fields = some v → Fields.get? name trees = some t →
      Encodes full d registry g v t) :
    Encodes full d registry g (.object fields) (.object trees)
  | classRef {c : ClassRef} (found : d.find? registry c.name = some c) :
    Encodes full d registry g (.classRef c) (Tree.ofClass c)
  | reference {r : RecordRef} {name : String} {v : Value}
    (found : d.find? registry r.cls.name = some r.cls)
    (referenceable : (d.definition r.cls).referenceable = true)
    (identifier : g.identifier? d r = some (name, v)) (key : v.IsKey) (equal : v.beq v = true)
    (accepted : ∃ a, (d.definition r.cls).attribute? name = some a ∧
      a.type.check (d.site r.cls name) v = .ok ()) :
    Encodes full d registry g (.record r)
      (.object [(Tree.classTag, .string r.className), (name, v)])
  | embedded {r : RecordRef} {trees : Object} (value : String → Value)
    (found : d.find? registry r.cls.name = some r.cls)
    (embedded : (d.definition r.cls).referenceable = false)
    (tag : Fields.get? Tree.classTag trees = some (.string r.className))
    (distinct : Fields.Distinct trees)
    (accepted : ∀ name t, Fields.get? name trees = some t → name ≠ Tree.classTag →
      g.seen? r name = some (value name) ∧ ∃ a, (d.definition r.cls).attribute? name = some a ∧
        (value name = .undefined ∨ a.type.check (d.site r.cls name) (value name) = .ok ()))
    (h : ∀ name t, Fields.get? name trees = some t → name ≠ Tree.classTag →
      Encodes full d registry g (value name) t)
    (complete : full → ∀ a ∈ d.attributes r.cls, ∀ v, g.seen? r a.name = some v →
      a.name ∈ Fields.keys trees) :
    Encodes full d registry g (.record r) (.object trees)

/-- The tree of an attribute that a record has set, among trees for its attributes. -/
theorem Encodes.exists_tree {g : Graph} {r : RecordRef} {trees : Object} {value : String → Value}
    {P : String → Prop}
    (hvalues : ∀ name t, Fields.get? name trees = some t → name ≠ Tree.classTag →
      g.seen? r name = some (value name) ∧ P name)
    {name : String} (hname : name ∈ Fields.keys trees) (hclass : name ≠ Tree.classTag) {v : Value}
    (hv : g.seen? r name = some v) : ∃ t, Fields.get? name trees = some t ∧ value name = v := by
  obtain ⟨t, ht⟩ := Fields.mem_keys_iff.1 hname
  obtain ⟨hvalue, -⟩ := hvalues name t ht hclass
  rw [hv] at hvalue
  exact ⟨t, ht, (Option.some.inj hvalue).symm⟩

/-- Fields for the attributes of a record. -/
structure EncodesFields (full : Prop) (d : Directory) (registry : RegistryRef) (g : Graph)
    (r : RecordRef) (trees : Object) : Prop where
  tag : Fields.get? Tree.classTag trees = some (.string r.className)
  distinct : Fields.Distinct trees
  field : ∀ name t, Fields.get? name trees = some t → name ≠ Tree.classTag → ∃ a v,
    (d.definition r.cls).attribute? name = some a ∧ g.seen? r name = some v ∧
      (v = .undefined ∨ a.type.check (d.site r.cls name) v = .ok ()) ∧
      Encodes full d registry g v t
  complete : full → ∀ a ∈ d.attributes r.cls, ∀ v, g.seen? r a.name = some v →
    a.name ∈ Fields.keys trees

theorem EncodesFields.embedded {full : Prop} {d : Directory} {registry : RegistryRef} {g : Graph}
    {r : RecordRef} {trees : Object} (h : EncodesFields full d registry g r trees)
    (found : d.find? registry r.cls.name = some r.cls)
    (embedded : (d.definition r.cls).referenceable = false) :
    Encodes full d registry g (.record r) (.object trees) := by
  have hvalue : ∀ name t, Fields.get? name trees = some t → name ≠ Tree.classTag → ∃ a v,
      (d.definition r.cls).attribute? name = some a ∧ g.seen? r name = some v ∧
      (g.seen? r name).getD .undefined = v ∧
      (v = .undefined ∨ a.type.check (d.site r.cls name) v = .ok ()) ∧
      Encodes full d registry g v t := by
    intro name t ht hne
    obtain ⟨a, v, ha, hv, haccepted, hencodes⟩ := h.field name t ht hne
    exact ⟨a, v, ha, hv, by rw [hv]; rfl, haccepted, hencodes⟩
  refine .embedded (fun name => (g.seen? r name).getD .undefined) found embedded h.tag h.distinct
    ?_ ?_ h.complete
  · intro name t ht hne
    obtain ⟨a, v, ha, hv, heq, haccepted, -⟩ := hvalue name t ht hne
    rw [heq]
    exact ⟨hv, a, ha, haccepted⟩
  · intro name t ht hne
    obtain ⟨a, v, -, -, heq, -, hencodes⟩ := hvalue name t ht hne
    rw [heq]
    exact hencodes

namespace Record

variable {d : Directory} {registry : RegistryRef} {full : Prop} {g₀ g g' : Graph}
  {known₀ known : Set RecordRef} {r r' : RecordRef}

/-! ### Attributes -/

/-- What encoding attributes one after the other adds to the fields before. -/
structure Adds (g : Graph) (r : RecordRef) (s : Selector) (R : Value → Value → Prop)
    (attributes : List Attribute) (acc fields : Object) : Prop where
  distinct : Fields.Distinct fields
  other : ∀ name, (∀ a ∈ attributes, a.name ≠ name) →
    Fields.get? name fields = Fields.get? name acc
  added : ∀ a ∈ attributes, ∀ t, Fields.get? a.name fields = some t →
    ∃ v, g.seen? r a.name = some v ∧ R v t
  missing : ∀ a ∈ attributes, a.name ∉ Fields.keys fields →
    (s.get a.name).isNone = true ∨ g.seen? r a.name = none

namespace Adds

variable {s : Selector} {R : Value → Value → Prop} {a : Attribute} {rest : List Attribute}
  {acc fields : Object}

theorem skip (hname : ∀ b ∈ rest, b.name ≠ a.name) (hnew : a.name ∉ Fields.keys acc)
    (hleft : (s.get a.name).isNone = true ∨ g.seen? r a.name = none)
    (h : Adds g r s R rest acc fields) : Adds g r s R (a :: rest) acc fields := by
  refine ⟨h.distinct, ?_, ?_, ?_⟩
  · intro name hother
    exact h.other name fun b hb => hother b (List.mem_cons_of_mem _ hb)
  · intro b hb t ht
    rcases List.mem_cons.1 hb with rfl | hb
    · rw [h.other b.name hname] at ht
      exact absurd (Fields.mem_keys_iff.2 ⟨t, ht⟩) hnew
    · exact h.added b hb t ht
  · intro b hb hmissing
    rcases List.mem_cons.1 hb with rfl | hb
    · exact hleft
    · exact h.missing b hb hmissing

theorem insert (hname : ∀ b ∈ rest, b.name ≠ a.name) {v t : Value}
    (hv : g.seen? r a.name = some v) (hR : R v t)
    (h : Adds g r s R rest (Fields.insert a.name t acc) fields) :
    Adds g r s R (a :: rest) acc fields := by
  have hread : Fields.get? a.name fields = some t := by
    rw [h.other a.name hname, Fields.get?_insert_self]
  refine ⟨h.distinct, ?_, ?_, ?_⟩
  · intro name hother
    obtain ⟨hne, hotherRest⟩ := List.forall_mem_cons.1 hother
    rw [h.other name hotherRest, Fields.get?_insert_of_ne (Ne.symm hne)]
  · intro b hb t' ht'
    rcases List.mem_cons.1 hb with rfl | hb
    · rw [hread] at ht'
      cases ht'
      exact ⟨v, hv, hR⟩
    · exact h.added b hb t' ht'
  · intro b hb hmissing
    rcases List.mem_cons.1 hb with rfl | hb
    · exact absurd (Fields.mem_keys_iff.2 ⟨t, hread⟩) hmissing
    · exact h.missing b hb hmissing

end Adds

theorem keeps_encodeAttribute {R : Value → Value → Prop}
    {onRecord : RecordRef → Selector → Action Value} (hr : Stands g₀ known₀ known r r')
    {s : Selector} {a : Attribute}
    (hencode : ∀ v, g₀.seen? r a.name = some v → ∀ after v', known ⊆ after →
      v.Reforked (Stands g₀ known₀ after) v' →
      KeepsIn (Viewed g₀ known₀) after (v'.encode onRecord (s.get a.name)) fun _ t => R v t)
    (acc : Object) :
    KeepsIn (Viewed g₀ known₀) known (encodeAttribute onRecord r' s acc a) fun _ acc' =>
      acc' = acc ∧ ((s.get a.name).isNone = true ∨ g₀.seen? r a.name = none) ∨
        ∃ v t, g₀.seen? r a.name = some v ∧ R v t ∧ acc' = Fields.insert a.name t acc := by
  simp only [encodeAttribute]
  split
  · next hnone => exact .pure fun _ _ => .inl ⟨rfl, .inl hnone⟩
  · refine (Viewed.keeps_value hr a.name).bind fun v' after hafter hv' => ?_
    generalize g₀.seen? r a.name = old at hv' hencode
    cases hv' with
    | none => exact .pure fun _ _ => .inl ⟨rfl, .inr rfl⟩
    | some hforked =>
      refine (hencode _ rfl after _ hafter hforked).bind fun t _ _ ht => .pure fun _ _ => ?_
      exact .inr ⟨_, t, rfl, ht, rfl⟩

theorem foldlM_encodeAttribute {R : Value → Value → Prop}
    {onRecord : RecordRef → Selector → Action Value} (hr : Stands g₀ known₀ known r r')
    {s : Selector} {attributes : List Attribute}
    (hnodup : (attributes.map Attribute.name).Nodup)
    (hencode : ∀ a ∈ attributes, ∀ v, g₀.seen? r a.name = some v → ∀ after v', known ⊆ after →
      v.Reforked (Stands g₀ known₀ after) v' →
      KeepsIn (Viewed g₀ known₀) after (v'.encode onRecord (s.get a.name)) fun _ t => R v t)
    {acc : Object} (hacc : Fields.Distinct acc)
    (hnew : ∀ a ∈ attributes, a.name ∉ Fields.keys acc) :
    KeepsIn (Viewed g₀ known₀) known (attributes.foldlM (encodeAttribute onRecord r' s) acc)
      fun _ fields => Adds g₀ r s R attributes acc fields := by
  induction attributes generalizing acc known with
  | nil => exact .pure fun _ _ => ⟨hacc, fun _ _ => rfl, by simp, by simp⟩
  | cons a rest ih =>
    obtain ⟨hname, hnodupRest⟩ := List.nodup_cons.1 hnodup
    obtain ⟨hfirst, hencodeRest⟩ := List.forall_mem_cons.1 hencode
    obtain ⟨hnewFirst, hnewRest⟩ := List.forall_mem_cons.1 hnew
    have hdiffer : ∀ b ∈ rest, b.name ≠ a.name := by
      intro b hb heq
      exact hname (heq ▸ List.mem_map_of_mem hb)
    rw [List.foldlM_cons]
    refine (keeps_encodeAttribute hr hfirst acc).bind fun acc₁ after hafter hstep => ?_
    have hlater : ∀ b ∈ rest, ∀ v, g₀.seen? r b.name = some v → ∀ later v', after ⊆ later →
        v.Reforked (Stands g₀ known₀ later) v' →
        KeepsIn (Viewed g₀ known₀) later (v'.encode onRecord (s.get b.name)) fun _ t => R v t :=
      fun b hb v hv later v' hlater => hencodeRest b hb v hv later v' (hafter.trans hlater)
    rcases hstep with ⟨rfl, hleft⟩ | ⟨v, t, hv, hR, rfl⟩
    · exact (ih (hr.mono hafter) hnodupRest hlater hacc hnewRest).imp
        fun _ _ _ hadds => hadds.skip hdiffer hnewFirst hleft
    · have hnewRest' : ∀ b ∈ rest, b.name ∉ Fields.keys (Fields.insert a.name t acc) := by
        intro b hb hmem
        rcases Fields.mem_keys_insert.1 hmem with heq | hmem
        · exact hdiffer b hb heq
        · exact hnewRest b hb hmem
      exact (ih (hr.mono hafter) hnodupRest hlater (hacc.insert _ _) hnewRest').imp
        fun _ _ _ hadds => hadds.insert hdiffer hv hR

theorem encodeFields_of_record (hd : d.Lawful)
    (hnames : ∀ a ∈ d.attributes r.cls, a.name ≠ Tree.classTag) (hr : Stands g₀ known₀ known r r')
    (haccepted : g₀.Accepted d r (d.attributes r.cls))
    {onRecord : RecordRef → Selector → Action Value} {s : Selector}
    (hselects : full → ∀ a ∈ d.attributes r.cls, ∀ v, g₀.seen? r a.name = some v →
      s.Selects a.name)
    (hencode : ∀ a ∈ d.attributes r.cls, ∀ v, g₀.seen? r a.name = some v → ∀ after v',
      known ⊆ after → v.Reforked (Stands g₀ known₀ after) v' →
      KeepsIn (Viewed g₀ known₀) after (v'.encode onRecord (s.get a.name))
        fun _ t => Encodes full d registry g₀ v t) :
    KeepsIn (Viewed g₀ known₀) known
      ((d.attributes r.cls).foldlM (encodeAttribute onRecord r' s)
        [(Tree.classTag, .string r.className)])
      fun _ fields => EncodesFields full d registry g₀ r fields := by
  have hlawful := hd.definition r.cls
  have hnew : ∀ a ∈ d.attributes r.cls,
      a.name ∉ Fields.keys [(Tree.classTag, Value.string r.className)] := by
    intro a ha hmem
    exact hnames a ha (List.mem_singleton.1 hmem)
  have htag : Fields.Distinct [(Tree.classTag, Value.string r.className)] :=
    List.nodup_singleton _
  refine (foldlM_encodeAttribute hr hlawful.names_nodup hencode htag hnew).imp
    fun _ _ fields hadds => ?_
  refine ⟨?_, hadds.distinct, ?_, ?_⟩
  · rw [hadds.other Tree.classTag hnames]
    rfl
  · intro name t ht hne
    by_cases hattribute : ∃ a ∈ d.attributes r.cls, a.name = name
    · obtain ⟨a, ha, rfl⟩ := hattribute
      obtain ⟨v, hv, hencodes⟩ := hadds.added a ha t ht
      exact ⟨a, v, hlawful.attribute?_of_mem ha, hv, haccepted a ha v hv, hencodes⟩
    · have hother : ∀ a ∈ d.attributes r.cls, a.name ≠ name :=
        fun a ha heq => hattribute ⟨a, ha, heq⟩
      rw [hadds.other name hother] at ht
      have hmem := Fields.mem_of_get? ht
      rw [List.mem_singleton] at hmem
      exact absurd (congrArg Prod.fst hmem) hne
  · intro hfull a ha v hv
    by_contra hmissing
    rcases hadds.missing a ha hmissing with hnone | hunset
    · rw [hselects hfull a ha v hv] at hnone
      cases hnone
    · rw [hv] at hunset
      cases hunset

/-! ### References -/

theorem keeps_header_store (r : RecordRef) :
    KeepsIn (Viewed g₀ known₀) known (header .store r)
      fun _ tags => tags = [(Tree.classTag, .string r.className)] :=
  ((keeps_header .store r).and_run fun _ _ _ h => (header_eq_ok h).1).imp fun _ _ _ h => h.2

/-- Keys are read as they are seen, so the descriptor is the first identifier that is seen. -/
theorem keeps_descriptorAmong (hr : Stands g₀ known₀ known r r') {attributes : List Attribute}
    (hkeys : ∀ a ∈ attributes, ∀ v, g₀.seen? r a.name = some v → v = .undefined ∨ v.IsKey) :
    KeepsIn (Viewed g₀ known₀) known (descriptorAmong r' attributes) fun _ described =>
      ∃ identifier, (attributes.findSome? fun a =>
        match g₀.seen? r a.name with
        | some .undefined => none
        | some v => some (a.name, v)
        | none => none) = some identifier ∧ described = [identifier] := by
  induction attributes generalizing known with
  | nil => exact .throw _
  | cons a rest ih =>
    obtain ⟨hfirst, hrest⟩ := List.forall_mem_cons.1 hkeys
    simp only [descriptorAmong, List.findSome?_cons]
    refine (Viewed.keeps_value hr a.name).bind fun v' after hafter hv' => ?_
    generalize g₀.seen? r a.name = old at hv' hfirst
    cases hv' with
    | none => exact ih (hr.mono hafter) hrest
    | @some v v' hforked =>
      rcases hfirst v rfl with rfl | ⟨s, rfl⟩ | ⟨x, rfl⟩
      · cases hforked with
        | leaf hleaf => cases hleaf
        | undefined => exact ih (hr.mono hafter) hrest
      · cases hforked
        exact .pure fun _ _ => ⟨_, rfl, rfl⟩
      · cases hforked
        exact .pure fun _ _ => ⟨_, rfl, rfl⟩

theorem isKey_of_accepted (hd : d.Lawful) (haccepted : g.Accepted d r (d.definition r.cls).identifiers) :
    ∀ a ∈ (d.definition r.cls).identifiers, ∀ v, g.seen? r a.name = some v →
      v = .undefined ∨ v.IsKey := by
  intro a ha v hv
  rcases haccepted a ha v hv with hundefined | hcheck
  · exact .inl hundefined
  · by_cases hdefined : v = .undefined
    · exact .inl hdefined
    · refine .inr (ValueType.isKey_of_check ?_ hcheck hdefined)
      exact (hd.definition r.cls).identifies a (Definition.mem_attributeList_of_identifier ha)
        (Definition.isIdentifier_of_mem_identifiers ha)

theorem keeps_descriptor (hd : d.Lawful) (hr : Stands g₀ known₀ known r r')
    (haccepted : g₀.Accepted d r (d.definition r.cls).identifiers) :
    KeepsIn (Viewed g₀ known₀) known (descriptor d r') fun _ described =>
      ∃ identifier, g₀.identifier? d r = some identifier ∧ described = [identifier] := by
  unfold descriptor
  rw [hr.descends.cls]
  exact keeps_descriptorAmong hr (isKey_of_accepted hd haccepted)

theorem encodeReference_encodes (hd : d.Lawful)
    (hnames : ∀ a ∈ d.attributes r.cls, a.name ≠ Tree.classTag) (hr : Stands g₀ known₀ known r r')
    (hfound : d.find? registry r.cls.name = some r.cls)
    (hreferenceable : (d.definition r.cls).referenceable = true)
    (haccepted : g₀.Accepted d r (d.definition r.cls).identifiers) (hkeyed : g₀.Keyed d r) :
    KeepsIn (Viewed g₀ known₀) known (encodeReference d .store r')
      fun _ t => Encodes full d registry g₀ (.record r) t := by
  refine (keeps_header_store r').bind fun tags after hafter htags => ?_
  refine (keeps_descriptor hd (hr.mono hafter) haccepted).bind fun described _ _ hdescribed => ?_
  refine .pure fun _ _ => ?_
  obtain ⟨⟨name, v⟩, hidentifier, rfl⟩ := hdescribed
  obtain ⟨⟨a, ha, rfl⟩, hv, hdefined⟩ := Graph.identifier?_eq_some hidentifier
  have hmem : a ∈ (d.definition r.cls).attributeList := Definition.mem_attributeList_of_identifier ha
  have hne : Tree.classTag ≠ a.name := Ne.symm (hnames a hmem)
  have hname : r'.className = r.className := congrArg ClassRef.name hr.descends.cls
  have hfields : Fields.insertAll tags [(a.name, v)] =
      [(Tree.classTag, .string r.className), (a.name, v)] := by
    simp [htags, hname, Fields.insertAll, Fields.insert, hne]
  rw [hfields]
  have hcheck : a.type.check (d.site r.cls a.name) v = .ok () :=
    (haccepted a ha v hv).resolve_left hdefined
  exact .reference hfound hreferenceable hidentifier
    ((isKey_of_accepted hd haccepted a ha v hv).resolve_left hdefined) (hkeyed a ha v hv)
    ⟨a, (hd.definition r.cls).attribute?_of_mem hmem, hcheck⟩

/-! ### Values -/

theorem encodeItems_encodes {R : Value → Value → Prop}
    {onRecord : RecordRef → Selector → Action Value} {s : Selector} {items items' : List Value}
    (h : List.Forall₂ (fun v v' => KeepsIn (Viewed g₀ known₀) known (v'.encode onRecord s)
      fun _ t => R v t) items items') :
    KeepsIn (Viewed g₀ known₀) known (Value.encodeItems onRecord s items')
      fun _ trees => List.Forall₂ R items trees := by
  induction h with
  | nil => exact .pure fun _ _ => .nil
  | cons hv _ ih =>
    refine hv.bind fun t after hafter ht => ?_
    exact (ih.mono hafter).bind fun ts _ _ hts => .pure fun _ _ => .cons ht hts

theorem encodeFields_encodes {R : Value → Value → Prop}
    {onRecord : RecordRef → Selector → Action Value} {fields fields' : Object}
    (h : Fields.Related (fun v v' => KeepsIn (Viewed g₀ known₀) known (v'.encode onRecord .all)
      fun _ t => R v t) fields fields') :
    KeepsIn (Viewed g₀ known₀) known (Value.encodeFields onRecord fields')
      fun _ trees => Fields.Related R fields trees := by
  induction h with
  | nil => exact .pure fun _ _ => .nil
  | @cons entry entry' rest rest' hentry _ ih =>
    obtain ⟨name, v'⟩ := entry'
    obtain ⟨hname, hv⟩ := hentry
    refine hv.bind fun t after hafter ht => ?_
    exact (ih.mono hafter).bind fun ts _ _ hts => .pure fun _ _ => .cons ⟨hname, ht⟩ hts

/-- A record that is not referred to by identifier is encoded to fields for its attributes, if its values
are encoded as they should be. -/
theorem encodeWithin_fields (hd : d.Lawful)
    (hnames : ∀ a ∈ d.attributes r.cls, a.name ≠ Tree.classTag) (hr : Stands g₀ known₀ known r r')
    (haccepted : g₀.Accepted d r (d.attributes r.cls)) {steps : Nat} {visiting : List RecordRef}
    {isRoot : Bool} (hunvisited : r' ∉ visiting)
    (hembedded : isRoot = true ∨ (d.definition r.cls).referenceable = false) {s : Selector}
    (hselects : full → ∀ a ∈ d.attributes r.cls, ∀ v, g₀.seen? r a.name = some v →
      s.Selects a.name)
    (hencode : ∀ a ∈ d.attributes r.cls, ∀ v, g₀.seen? r a.name = some v → ∀ after v',
      known ⊆ after → v.Reforked (Stands g₀ known₀ after) v' →
      KeepsIn (Viewed g₀ known₀) after
        (v'.encode (encodeWithin d .store steps (r' :: visiting) false) (s.get a.name))
        fun _ t => Encodes full d registry g₀ v t) :
    KeepsIn (Viewed g₀ known₀) known (encodeWithin d .store (steps + 1) visiting isRoot r' s)
      fun _ t => ∃ fields, t = .object fields ∧ EncodesFields full d registry g₀ r fields := by
  have hinside : (visiting.contains r' || (!isRoot && Target.store == .store &&
      (d.definition r'.cls).referenceable)) = false := by
    rw [hr.descends.cls]
    rcases hembedded with hroot | hembedded
    · simp [hunvisited, hroot]
    · simp [hunvisited, hembedded]
  simp only [encodeWithin, hinside, Bool.false_eq_true, if_false]
  refine (keeps_header_store r').bind fun tags after hafter htags => ?_
  have hname : r'.className = r.className := congrArg ClassRef.name hr.descends.cls
  rw [htags, hname, hr.descends.cls]
  refine (encodeFields_of_record hd hnames (hr.mono hafter) haccepted hselects
    fun a ha v hv later v' hlater => hencode a ha v hv later v' (hafter.trans hlater)).bind
      fun fields _ _ hfields => .pure fun _ _ => ⟨fields, rfl, hfields⟩

/-- No record that is being encoded stands for one that is embedded in the value. -/
def Unentered (d : Directory) (g₀ : Graph) (known₀ : Set RecordRef) (visiting : List RecordRef)
    (v : Value) : Prop :=
  ∀ w' ∈ visiting, ∀ w ∈ known₀, w.Descends g₀.cells.size w' → ¬Embedded d g₀ w v

namespace Unentered

variable {visiting : List RecordRef} {v : Value}

theorem item {items : List Value} (h : Unentered d g₀ known₀ visiting (.array items)) (hv : v ∈ items) :
    Unentered d g₀ known₀ visiting v :=
  fun w' hw' w hw hdescends hin => h w' hw' w hw hdescends (.item hv hin)

theorem field {fields : Object} {entry : String × Value}
    (h : Unentered d g₀ known₀ visiting (.object fields)) (hentry : entry ∈ fields) :
    Unentered d g₀ known₀ visiting entry.2 :=
  fun w' hw' w hw hdescends hin => h w' hw' w hw hdescends (.field hentry hin)

theorem not_mem (h : Unentered d g₀ known₀ visiting (.record r)) (hr : Stands g₀ known₀ known r r')
    (hembedded : (d.definition r.cls).referenceable = false) : r' ∉ visiting :=
  fun hmem => h r' hmem r hr.before hr.descends (.record hembedded)

/-- What stands for the record stands for no other one, and the record is not embedded in itself. -/
theorem enter (h : Unentered d g₀ known₀ visiting (.record r)) (hg₀ : g₀.Sound known₀)
    (hr : Stands g₀ known₀ known r r') (hheld : Held d registry g₀ (.record r))
    (hembedded : (d.definition r.cls).referenceable = false) {a : Attribute}
    (ha : a ∈ d.attributes r.cls) (hv : g₀.seen? r a.name = some v) :
    Unentered d g₀ known₀ (r' :: visiting) v := by
  intro w' hw' w hw hdescends hin
  rcases List.mem_cons.1 hw' with rfl | hw'
  · obtain rfl := hdescends.eq_of_descends hr.descends (hg₀.bounded w hw) (hg₀.bounded r hr.before)
    exact hheld.acyclic (.record hembedded) ha hv hin
  · exact h w' hw' w hw hdescends (.inner hembedded ha hv hin)

end Unentered

/-- Encoding what stands for a held value gives a tree for that value. -/
theorem encode_encodes (hd : d.Lawful) (hnames : ∀ c, ∀ a ∈ d.attributes c, a.name ≠ Tree.classTag)
    (hg₀ : g₀.Sound known₀) {v : Value} (hv : Held d registry g₀ v) {s : Selector}
    (hspans : full → Spans d g₀ s v) {steps : Nat} {visiting : List RecordRef}
    (hvisiting : Unentered d g₀ known₀ visiting v) {v' : Value} (hv' : v.Reforked (Stands g₀ known₀ known) v') :
    KeepsIn (Viewed g₀ known₀) known (v'.encode (encodeWithin d .store steps visiting false) s)
      fun _ t => Encodes full d registry g₀ v t := by
  induction hv generalizing known s steps visiting v' with
  | @leaf v hleaf =>
    have hsame : v' = v := by cases hv' <;> first | rfl | cases hleaf
    have hpure : v'.encode (encodeWithin d .store steps visiting false) s = pure v := by
      rw [hsame]
      cases v <;> first | rfl | cases hleaf
    rw [hpure]
    exact .pure fun _ _ => .leaf hleaf
  | undefined =>
    cases hv' with
    | leaf hleaf => cases hleaf
    | undefined => exact .pure fun _ _ => .undefined
  | @array items _ ih =>
    cases hv' with
    | leaf hleaf => cases hleaf
    | array hforked =>
      simp only [Value.encode]
      have hitem : ∀ v ∈ items, ∀ v', v.Reforked (Stands g₀ known₀ known) v' →
          KeepsIn (Viewed g₀ known₀) known
            (v'.encode (encodeWithin d .store steps visiting false) s)
            fun _ t => Encodes full d registry g₀ v t :=
        fun v hv v' hv' => ih v hv (fun hfull => (hspans hfull).item v hv) (hvisiting.item hv) hv'
      refine (encodeItems_encodes (forall₂_imp_of_mem hforked hitem)).bind
        fun trees _ _ hforall => .pure fun _ _ => ?_
      obtain ⟨hlength, hget⟩ := Fields.forall₂_iff_getElem?.1 hforall
      exact .array hlength hget
  | @object fields huntagged hdistinct _ ih =>
    cases hv' with
    | leaf hleaf => cases hleaf
    | object hnames' hforked =>
      simp only [Value.encode]
      have hfield : ∀ entry ∈ fields, ∀ entry' : String × Value,
          entry.1 = entry'.1 ∧ entry.2.Reforked (Stands g₀ known₀ known) entry'.2 →
          entry.1 = entry'.1 ∧ KeepsIn (Viewed g₀ known₀) known
            (entry'.2.encode (encodeWithin d .store steps visiting false) .all)
            fun _ t => Encodes full d registry g₀ entry.2 t :=
        fun entry hentry entry' hentry' => ⟨hentry'.1, ih entry hentry (fun _ => .all _)
          (hvisiting.field hentry) hentry'.2⟩
      have hfields := forall₂_imp_of_mem (Fields.related_of_values hnames' hforked) hfield
      refine (encodeFields_encodes hfields).bind fun trees _ _ hrelated => .pure fun _ _ => ?_
      refine .object huntagged hdistinct hrelated.keys_eq ?_
      intro name v t hv ht
      obtain ⟨t', ht', hencodes⟩ := hrelated.get? hv
      rw [ht] at ht'
      cases ht'
      exact hencodes
  | classRef hfound =>
    cases hv' with
    | leaf hleaf => cases hleaf
    | classRef => exact .pure fun _ _ => .classRef hfound
  | @reference r hfound hreferenceable haccepted hkeyed =>
    cases hv' with
    | leaf hleaf => cases hleaf
    | @record _ r' hr =>
      show KeepsIn _ known (encodeWithin d .store steps visiting false r' s) _
      cases steps with
      | zero => exact .throw _
      | succ steps =>
        have hreduced : encodeWithin d .store (steps + 1) visiting false r' s =
            encodeReference d .store r' := by
          simp [encodeWithin, hr.descends.cls, hreferenceable]
        rw [hreduced]
        exact encodeReference_encodes hd (hnames r.cls) hr hfound hreferenceable haccepted hkeyed
  | @embedded r hfound hembedded haccepted hvalues ih =>
    cases hv' with
    | leaf hleaf => cases hleaf
    | @record _ r' hr =>
      show KeepsIn _ known (encodeWithin d .store steps visiting false r' s) _
      cases steps with
      | zero => exact .throw _
      | succ steps =>
        have hheld : Held d registry g₀ (.record r) := .embedded hfound hembedded haccepted hvalues
        have hfields : KeepsIn (Viewed g₀ known₀) known
            (encodeWithin d .store (steps + 1) visiting false r' s)
            fun _ t => ∃ fields, t = .object fields ∧ EncodesFields full d registry g₀ r fields := by
          refine encodeWithin_fields hd (hnames r.cls) hr haccepted (hvisiting.not_mem hr hembedded)
            (.inr hembedded) (fun hfull a ha v hv => ((hspans hfull).inner hembedded ha hv).1) ?_
          intro a ha v hv later v' _ hv'
          exact ih a ha v hv (fun hfull => ((hspans hfull).inner hembedded ha hv).2)
            (hvisiting.enter hg₀ hr hheld hembedded ha hv) hv'
        refine hfields.imp ?_
        rintro _ _ _ ⟨fields, rfl, hfields⟩
        exact hfields.embedded hfound hembedded

/-! ### Documents -/

/-- What can be stored of a record: its attributes are held values, and accepted. -/
structure Storable (d : Directory) (registry : RegistryRef) (g : Graph) (r : RecordRef) : Prop where
  made : r.base? = none
  referenceable : (d.definition r.cls).referenceable = true
  keyed : g.Keyed d r
  accepted : g.Accepted d r (d.attributes r.cls)
  held : ∀ a ∈ d.attributes r.cls, ∀ v, g.seen? r a.name = some v → Held d registry g v

theorem encodeWithin_encodes (hd : d.Lawful)
    (hnames : ∀ c, ∀ a ∈ d.attributes c, a.name ≠ Tree.classTag) (hg₀ : g₀.Sound known₀)
    (hr : Stands g₀ known₀ known r r) (hstorable : Storable d registry g₀ r) {s : Selector}
    (hspans : full → Spanned d g₀ s r) {steps : Nat} :
    KeepsIn (Viewed g₀ known₀) known (encodeWithin d .store steps [] true r s)
      fun _ t => ∃ fields, t = .object fields ∧ EncodesFields full d registry g₀ r fields := by
  cases steps with
  | zero => exact .throw _
  | succ steps =>
    refine encodeWithin_fields hd (hnames r.cls) hr hstorable.accepted List.not_mem_nil (.inl rfl)
      (fun hfull => (hspans hfull).selects) ?_
    intro a ha v hv later v' _ hv'
    refine encode_encodes hd hnames hg₀ (hstorable.held a ha v hv)
      (fun hfull => (hspans hfull).spans a ha v hv) ?_ hv'
    -- The record itself is referred to by identifier, so it is not embedded in anything.
    intro w' hw' w hw hdescends hin
    have hplain := hin.embedded
    rw [← hdescends.cls, List.mem_singleton.1 hw', hstorable.referenceable] at hplain
    cases hplain

end Record

end TypedRecords
