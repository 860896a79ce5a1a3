import TypedRecords.Record.Validation
import TypedRecords.Tree.Encode
import TypedRecords.Proofs.Results
import TypedRecords.Proofs.Value.WellFormed

/-! # Operations that read

Resolving selectors, validating, describing and encoding records do nothing to the graph but what the
reading of slots does, which may fork values, and marking records as being resolved. They go from
record to record through the values that they read, so they stay among the records that are known; those
that forking makes become known as well.
-/

namespace TypedRecords

open Stateful (KeepsIn)

variable {I : Set RecordRef → Graph → Prop} {known after : Set RecordRef}

/-- Every record in a value is known. -/
def Value.Within (known : Set RecordRef) (v : Value) : Prop := ∀ r ∈ v.records, r ∈ known

namespace Value

theorem Within.mono {v : Value} (h : v.Within known) (hafter : known ⊆ after) : v.Within after :=
  fun r hr => hafter (h r hr)

theorem within_record {r : RecordRef} : (Value.record r).Within known ↔ r ∈ known := by
  simp [Within, records]

theorem within_array {items : List Value} :
    (Value.array items).Within known ↔ ∀ v ∈ items, v.Within known := by
  simp only [Within, records]
  induction items with
  | nil => simp [recordsOfItems]
  | cons v rest ih => simp [recordsOfItems, or_imp, forall_and, ih]

theorem within_object {fields : Object} :
    (Value.object fields).Within known ↔ ∀ entry ∈ fields, entry.2.Within known := by
  simp only [Within, records]
  induction fields with
  | nil => simp [recordsOfFields]
  | cons entry rest ih => simp [recordsOfFields, or_imp, forall_and, ih]

theorem mem_records_array {items : List Value} {r : RecordRef} :
    r ∈ (Value.array items).records ↔ ∃ v ∈ items, r ∈ v.records := by
  rw [records]
  induction items with
  | nil => simp [recordsOfItems]
  | cons v rest ih => simp [recordsOfItems, ih]

theorem mem_records_object {fields : Object} {r : RecordRef} :
    r ∈ (Value.object fields).records ↔ ∃ entry ∈ fields, r ∈ entry.2.records := by
  rw [records]
  induction fields with
  | nil => simp [recordsOfFields]
  | cons entry rest ih =>
    rw [recordsOfFields, List.mem_append, ih]
    simp

/-- A value that is not forked holds no records. -/
theorem records_eq_nil {v : Value} (h : v.hasReferences = false) : v.records = [] := by
  induction v using Value.induction with
  | array items ih =>
    refine List.eq_nil_iff_forall_not_mem.2 fun r hr => ?_
    obtain ⟨v, hv, hmem⟩ := mem_records_array.1 hr
    rw [ih v hv (hasReferences_array.1 h v hv)] at hmem
    cases hmem
  | object fields ih =>
    refine List.eq_nil_iff_forall_not_mem.2 fun r hr => ?_
    obtain ⟨entry, hentry, hmem⟩ := mem_records_object.1 hr
    rw [ih entry hentry (hasReferences_object.1 h entry hentry)] at hmem
    cases hmem
  | other v harray hobject =>
    cases v with
    | array items => cases harray
    | object fields => cases hobject
    | record r => cases h
    | _ => rfl

end Value

/-! ### Through values -/

theorem keeps_narrow {combine : Selector → Selector → Selector}
    {onRecord : RecordRef → Selector → Action Selector}
    (h : ∀ known r s, r ∈ known → KeepsIn I known (onRecord r s) fun _ _ => True) (t : ValueType)
    (s : Selector) (v : Option Value) (hv : ∀ w, v = some w → w.Within known) :
    KeepsIn I known (t.narrow combine onRecord s v) fun _ _ => True := by
  induction t generalizing v known with
  | scalar kind traits =>
    simp only [ValueType.narrow]
    split <;> exact .pure fun _ _ => trivial
  | array item traits ih =>
    simp only [ValueType.narrow]
    split
    · exact .pure fun _ _ => trivial
    · split
      · next first rest =>
        have hitems := Value.within_array.1 (hv _ rfl)
        have hitem : ∀ w ∈ first :: rest, ∀ after, known ⊆ after →
            KeepsIn I after (item.narrow combine onRecord s (some w)) fun _ _ => True := by
          intro w hw after hafter
          refine ih (some w) ?_
          intro w' hw'
          cases hw'
          exact (hitems w hw).mono hafter
        refine (hitem first List.mem_cons_self known subset_rfl).bind fun s' after hafter _ => ?_
        refine .foldlM (fun w hw acc later hlater _ => ?_) (fun _ _ _ _ _ => trivial) trivial
        exact (hitem w (List.mem_cons_of_mem _ hw) later (hafter.trans hlater)).bind
          fun _ _ _ _ => .pure fun _ _ => trivial
      · exact ih none fun w hw => by cases hw
  | reference name toClass traits =>
    cases toClass with
    | true =>
      simp only [ValueType.narrow]
      split <;> exact .pure fun _ _ => trivial
    | false =>
      simp only [ValueType.narrow]
      split
      · exact .pure fun _ _ => trivial
      · split
        · next r => exact h known r s (Value.within_record.1 (hv _ rfl))
        · exact .pure fun _ _ => trivial

theorem keeps_failures {onRecord : RecordRef → Selector → Action (List Failure)}
    (h : ∀ known r s, r ∈ known → KeepsIn I known (onRecord r s) fun _ _ => True) (t : ValueType)
    (v : Value) (s : Selector) (hv : v.Within known) :
    KeepsIn I known (t.failures onRecord v s) fun _ _ => True := by
  induction t generalizing v known with
  | scalar kind traits =>
    cases v <;> simp only [ValueType.failures] <;> exact .pure fun _ _ => trivial
  | array item traits ih =>
    cases v with
    | array items =>
      have hitems := Value.within_array.1 hv
      simp only [ValueType.failures]
      refine KeepsIn.bind (Q := fun _ _ => True) ?_ fun _ _ _ _ => .pure fun _ _ => trivial
      clear hv
      generalize 0 = index
      induction items generalizing index known with
      | nil => exact .pure fun _ _ => trivial
      | cons v rest ihRest =>
        obtain ⟨hfirst, hrest⟩ := List.forall_mem_cons.1 hitems
        refine (ih v hfirst).bind fun here after hafter _ => ?_
        exact (ihRest (fun v hv => (hrest v hv).mono hafter) (index + 1)).bind
          fun later _ _ _ => .pure fun _ _ => trivial
    | _ =>
      simp only [ValueType.failures]
      exact .pure fun _ _ => trivial
  | reference name toClass traits =>
    cases toClass with
    | true => cases v <;> simp only [ValueType.failures] <;> exact .pure fun _ _ => trivial
    | false =>
      cases v with
      | record r =>
        simp only [ValueType.failures]
        exact (h known r s (Value.within_record.1 hv)).bind fun _ _ _ _ => .pure fun _ _ => trivial
      | _ =>
        simp only [ValueType.failures]
        exact .pure fun _ _ => trivial

/-- What holds of trees as soon as it holds of their parts. -/
structure Value.Composed (P : Value → Prop) : Prop where
  leaf : ∀ v : Value, v.hasReferences = false → v.asArray? = none → v.asObject? = none → P v
  array : ∀ items : List Value, (∀ v ∈ items, P v) → P (.array items)
  object : ∀ fields : Object, (∀ entry ∈ fields, P entry.2) → P (.object fields)

theorem Value.Composed.trivial : Value.Composed fun _ => True :=
  ⟨fun _ _ _ _ => .intro, fun _ _ => .intro, fun _ _ => .intro⟩

theorem Value.Composed.string {P : Value → Prop} (hP : Value.Composed P) (text : String) :
    P (.string text) :=
  hP.leaf _ rfl rfl rfl

/-- What is encoded is as the records in it are encoded. -/
theorem keeps_encode_trees {P : Value → Prop} (hP : Value.Composed P)
    {onRecord : RecordRef → Selector → Action Value}
    (h : ∀ known r s, r ∈ known → KeepsIn I known (onRecord r s) fun _ t => P t) (v : Value)
    (s : Selector) (hv : v.Within known) :
    KeepsIn I known (v.encode onRecord s) fun _ t => P t := by
  induction v using Value.induction generalizing s known with
  | array items ih =>
    have hitems := Value.within_array.1 hv
    clear hv
    have hencoded : KeepsIn I known (Value.encodeItems onRecord s items)
        fun _ ts => ∀ t ∈ ts, P t := by
      induction items generalizing known with
      | nil => exact .pure fun _ _ => by simp
      | cons v rest ihRest =>
        obtain ⟨hfirst, hrest⟩ := List.forall_mem_cons.1 ih
        obtain ⟨hv, hvs⟩ := List.forall_mem_cons.1 hitems
        refine (hfirst s hv).bind fun t after hafter ht => ?_
        exact (ihRest hrest fun v hv => (hvs v hv).mono hafter).bind
          fun ts _ _ hts => .pure fun _ _ => List.forall_mem_cons.2 ⟨ht, hts⟩
    exact hencoded.bind fun ts _ _ hts => .pure fun _ _ => hP.array ts hts
  | object fields ih =>
    have hfields := Value.within_object.1 hv
    clear hv
    have hencoded : KeepsIn I known (Value.encodeFields onRecord fields)
        fun _ ts => ∀ entry ∈ ts, P entry.2 := by
      induction fields generalizing known with
      | nil => exact .pure fun _ _ => by simp
      | cons entry rest ihRest =>
        obtain ⟨hfirst, hrest⟩ := List.forall_mem_cons.1 ih
        obtain ⟨hv, hvs⟩ := List.forall_mem_cons.1 hfields
        refine (hfirst .all hv).bind fun t after hafter ht => ?_
        exact (ihRest hrest fun entry hentry => (hvs entry hentry).mono hafter).bind
          fun ts _ _ hts => .pure fun _ _ => List.forall_mem_cons.2 ⟨ht, hts⟩
    exact hencoded.bind fun ts _ _ hts => .pure fun _ _ => hP.object ts hts
  | other v harray hobject =>
    cases v with
    | array items => cases harray
    | object fields => cases hobject
    | record r => exact h known r s (Value.within_record.1 hv)
    | classRef c =>
      refine .pure fun _ _ => hP.object _ ?_
      simpa using hP.string _
    | _ => exact .pure fun _ _ => hP.leaf _ rfl rfl rfl

theorem keeps_encode {onRecord : RecordRef → Selector → Action Value}
    (h : ∀ known r s, r ∈ known → KeepsIn I known (onRecord r s) fun _ _ => True) (v : Value)
    (s : Selector) (hv : v.Within known) :
    KeepsIn I known (v.encode onRecord s) fun _ _ => True :=
  keeps_encode_trees .trivial h v s hv

theorem keeps_stepsFor (s : Selector) :
    KeepsIn I known (Record.stepsFor s) fun _ _ => True :=
  KeepsIn.get.bind fun _ _ _ _ => .pure fun _ _ => trivial

theorem keeps_header_trees {P : Value → Prop} (hP : Value.Composed P) (target : Target)
    (r : RecordRef) :
    KeepsIn I known (Record.header target r) fun _ tags => ∀ entry ∈ tags, P entry.2 := by
  unfold Record.header
  refine KeepsIn.get.bind fun g _ _ _ => ?_
  have hname := hP.string r.className
  split
  · refine .pure fun _ _ entry hentry => ?_
    rcases Fields.mem_insert hentry with hmem | rfl
    · rw [List.mem_singleton.1 hmem]
      exact hname
    · exact hP.leaf _ rfl rfl rfl
  · refine .pure fun _ _ entry hentry => ?_
    rw [List.mem_singleton.1 hentry]
    exact hname

theorem keeps_header (target : Target) (r : RecordRef) :
    KeepsIn I known (Record.header target r) fun _ _ => True :=
  (keeps_header_trees .trivial target r).imp fun _ _ _ _ => .intro

/-- How records within a record that is being resolved are narrowed. -/
def Record.resolveInner (d : Directory) (how : Narrowing) (steps : Nat) (inner : RecordRef)
    (s : Selector) : Action Selector :=
  if !how.includeReferenced && (d.definition inner.cls).referenceable then
    pure (d.definition inner.cls).identifierSelector
  else Record.resolveWithin d how steps inner s

/-- Reading the slots of known records keeps what holds of the graph and reads values of known records,
and marking known records keeps it too. -/
structure AllowsReading (I : Set RecordRef → Graph → Prop) : Prop where
  slot : ∀ known r name g, r ∈ known → I known g → ∃ after, known ⊆ after ∧
    I after (r.slot? name g).2 ∧
    ∀ slot, (r.slot? name g).1 = some slot → slot.value.Within after
  resolving : ∀ known r b g, r ∈ known → I known g → I known (g.markResolving r b)

namespace AllowsReading

variable {d : Directory} (hI : AllowsReading I)

include hI

theorem value {r : RecordRef} (hr : r ∈ known) (name : String) :
    KeepsIn I known (Record.lift (r.value? name))
      fun after v => ∀ w, v = some w → w.Within after := by
  intro before hknown g hg
  obtain ⟨after, hafter, hkeeps, hslot⟩ := hI.slot before r name g (hknown hr) hg
  refine ⟨after, hafter, hkeeps, ?_⟩
  rintro v hv w rfl
  have hread : (Record.lift (r.value? name) g).1 = .ok ((r.slot? name g).1.map Slot.value) := rfl
  rw [hread] at hv
  obtain ⟨slot, hsome, rfl⟩ := Option.map_eq_some_iff.1 (Except.ok.inj hv)
  exact hslot slot hsome

theorem markResolving {r : RecordRef} (hr : r ∈ known) (b : Bool) :
    KeepsIn I known (modify fun g => g.markResolving r b : Action PUnit) fun _ _ => True :=
  fun before hknown g hg =>
    ⟨before, subset_rfl, hI.resolving before r b g (hknown hr) hg, fun _ _ => trivial⟩

/-! ### Selections -/

theorem narrowAttribute (how : Narrowing) {onRecord : RecordRef → Selector → Action Selector}
    (h : ∀ known r s, r ∈ known → KeepsIn I known (onRecord r s) fun _ _ => True) {r : RecordRef}
    (hr : r ∈ known) (s acc : Selector) (a : Attribute) :
    KeepsIn I known (Record.narrowAttribute how onRecord r s acc a) fun _ _ => True := by
  simp only [Record.narrowAttribute]
  split
  · exact .pure fun _ _ => trivial
  · refine (hI.value hr a.name).bind fun v after _ hv => ?_
    split
    · exact .pure fun _ _ => trivial
    · exact (keeps_narrow h _ _ _ hv).bind fun _ _ _ _ => .pure fun _ _ => trivial

theorem resolveWithin (how : Narrowing) (steps : Nat) {r : RecordRef} (hr : r ∈ known)
    (s : Selector) : KeepsIn I known (Record.resolveWithin d how steps r s) fun _ _ => True := by
  induction steps generalizing r s known with
  | zero => exact .throw _
  | succ steps ih =>
    have hinner : ∀ known inner s, inner ∈ known →
        KeepsIn I known (Record.resolveInner d how steps inner s) fun _ _ => True := by
      intro known inner s hinner
      unfold Record.resolveInner
      split
      · exact .pure fun _ _ => trivial
      · exact ih hinner s
    simp only [Record.resolveWithin]
    split
    · exact .pure fun _ _ => trivial
    · refine KeepsIn.get.bind fun g after hafter _ => ?_
      split
      · exact .pure fun _ _ => trivial
      · refine (hI.markResolving (hafter hr) true).bind fun _ later hlater _ => ?_
        have hr := hlater (hafter hr)
        refine KeepsIn.bind (Q := fun _ _ => True) (.foldlM (fun a _ acc last hlast _ => ?_)
          (fun _ _ _ _ _ => trivial) trivial) fun resolved last hlast _ => ?_
        · exact hI.narrowAttribute how hinner (hlast hr) _ acc a
        · exact (hI.markResolving (hlast hr) false).bind fun _ _ _ _ => .pure fun _ _ => trivial

theorem resolveInner (how : Narrowing) (steps : Nat) {inner : RecordRef} (hinner : inner ∈ known)
    (s : Selector) : KeepsIn I known (Record.resolveInner d how steps inner s) fun _ _ => True := by
  unfold Record.resolveInner
  split
  · exact .pure fun _ _ => trivial
  · exact hI.resolveWithin how steps hinner s

theorem resolve (how : Narrowing) {r : RecordRef} (hr : r ∈ known) (s : Selector) :
    KeepsIn I known (Record.resolve d how r s) fun _ _ => True :=
  (keeps_stepsFor s).bind fun steps _ hafter _ => hI.resolveWithin how steps (hafter hr) s

/-! ### Validation -/

theorem attributeFailures {onRecord : RecordRef → Selector → Action (List Failure)}
    (h : ∀ known r s, r ∈ known → KeepsIn I known (onRecord r s) fun _ _ => True) {r : RecordRef}
    (hr : r ∈ known) (s : Selector) (a : Attribute) :
    KeepsIn I known (Record.attributeFailures onRecord r s a) fun _ _ => True := by
  simp only [Record.attributeFailures]
  split
  · exact .pure fun _ _ => trivial
  · refine (hI.value hr a.name).bind fun v after _ hv => ?_
    split
    · exact .pure fun _ _ => trivial
    · next w =>
      exact (keeps_failures h _ _ _ (hv w rfl)).bind fun _ _ _ _ => .pure fun _ _ => trivial

theorem failuresWithin (steps : Nat) {r : RecordRef} (hr : r ∈ known) (s : Selector) :
    KeepsIn I known (Record.failuresWithin d steps r s) fun _ _ => True := by
  induction steps generalizing r s known with
  | zero => exact .throw _
  | succ steps ih =>
    refine (hI.resolve Record.validated hr s).bind fun resolved after hafter _ => ?_
    refine KeepsIn.bind (P := fun _ _ => True)
      (.mapM (P := fun _ _ => True) (fun a _ => ?_) fun _ _ _ _ _ => trivial)
      fun _ _ _ _ => .pure fun _ _ => trivial
    exact hI.attributeFailures (fun _ r s hr => ih hr s) (hafter hr) resolved a

theorem validate {r : RecordRef} (hr : r ∈ known) (s : Selector) :
    KeepsIn I known (Record.validate d r s) fun _ _ => True := by
  have hfailures : KeepsIn I known (Record.failures d r s) fun _ _ => True :=
    (keeps_stepsFor s).bind fun steps _ hafter _ => hI.failuresWithin steps (hafter hr) s
  refine hfailures.bind fun fs _ _ _ => ?_
  split
  · exact .pure fun _ _ => trivial
  · exact .throw _

/-! ### Description -/

theorem descriptorAmong {r : RecordRef} (hr : r ∈ known) (attributes : List Attribute) :
    KeepsIn I known (Record.descriptorAmong r attributes) fun _ _ => True := by
  induction attributes generalizing known with
  | nil => exact .throw _
  | cons a rest ih =>
    refine (hI.value hr a.name).bind fun v after hafter _ => ?_
    split
    · exact ih (hafter hr)
    · exact ih (hafter hr)
    · exact .pure fun _ _ => trivial

theorem descriptor {r : RecordRef} (hr : r ∈ known) :
    KeepsIn I known (Record.descriptor d r) fun _ _ => True :=
  hI.descriptorAmong hr _

/-! ### Encoding -/

/-- An attribute is left out, or the tree of its value is added. -/
theorem encodeAttribute_trees {P : Value → Prop} (hP : Value.Composed P)
    {onRecord : RecordRef → Selector → Action Value}
    (h : ∀ known r s, r ∈ known → KeepsIn I known (onRecord r s) fun _ t => P t) {r : RecordRef}
    (hr : r ∈ known) (s : Selector) (acc : Object) (a : Attribute) :
    KeepsIn I known (Record.encodeAttribute onRecord r s acc a) fun _ acc' =>
      acc' = acc ∨ ∃ t, P t ∧ acc' = Fields.insert a.name t acc := by
  simp only [Record.encodeAttribute]
  split
  · exact .pure fun _ _ => .inl rfl
  · refine (hI.value hr a.name).bind fun v after _ hv => ?_
    split
    · exact .pure fun _ _ => .inl rfl
    · next w =>
      exact (keeps_encode_trees hP h _ _ (hv w rfl)).bind fun t _ _ ht =>
        .pure fun _ _ => .inr ⟨t, ht, rfl⟩

theorem encodeAttribute {onRecord : RecordRef → Selector → Action Value}
    (h : ∀ known r s, r ∈ known → KeepsIn I known (onRecord r s) fun _ _ => True) {r : RecordRef}
    (hr : r ∈ known) (s : Selector) (acc : Object) (a : Attribute) :
    KeepsIn I known (Record.encodeAttribute onRecord r s acc a) fun _ _ => True :=
  (hI.encodeAttribute_trees .trivial h hr s acc a).imp fun _ _ _ _ => .intro

/-- Records are encoded as trees of which holds what holds of their identifiers. -/
theorem encodeWithin_trees {P : Value → Prop} (hP : Value.Composed P)
    (hdescriptor : ∀ known r, r ∈ known → KeepsIn I known (Record.descriptor d r)
      fun _ described => ∀ entry ∈ described, P entry.2)
    (target : Target) (steps : Nat) (visiting : List RecordRef) (isRoot : Bool) {r : RecordRef}
    (hr : r ∈ known) (s : Selector) :
    KeepsIn I known (Record.encodeWithin d target steps visiting isRoot r s) fun _ t => P t := by
  induction steps generalizing visiting isRoot r s known with
  | zero => exact .throw _
  | succ steps ih =>
    simp only [Record.encodeWithin]
    split
    · refine (keeps_header_trees hP target r).bind fun tags _ hafter htags =>
        (hdescriptor _ r (hafter hr)).bind fun described _ _ hdescribed => .pure fun _ _ => ?_
      refine hP.object _ fun entry hentry => ?_
      rcases Fields.mem_insertAll hentry with hmem | hmem
      · exact htags entry hmem
      · exact hdescribed entry hmem
    · refine (keeps_header_trees hP target r).bind fun tags after hafter htags => ?_
      refine KeepsIn.bind (Q := fun _ acc => ∀ entry ∈ acc, P entry.2)
        (.foldlM (fun a _ acc later hlater hacc => ?_) (fun _ _ _ _ hacc => hacc) htags)
        fun fields _ _ hfields => .pure fun _ _ => hP.object fields hfields
      refine (hI.encodeAttribute_trees hP (fun _ r' s hr' => ?_) (hlater (hafter hr)) s acc a).imp ?_
      · exact ih (r :: visiting) false hr' s
      · rintro _ _ acc' (rfl | ⟨t, ht, rfl⟩) entry hentry
        · exact hacc entry hentry
        · rcases Fields.mem_insert hentry with hmem | rfl
          · exact hacc entry hmem
          · exact ht

theorem encodeWithin (target : Target) (steps : Nat) (visiting : List RecordRef) (isRoot : Bool)
    {r : RecordRef} (hr : r ∈ known) (s : Selector) :
    KeepsIn I known (Record.encodeWithin d target steps visiting isRoot r s) fun _ _ => True :=
  hI.encodeWithin_trees .trivial
    (fun _ _ hr => (hI.descriptor hr).imp fun _ _ _ _ _ _ => .intro) target steps visiting isRoot
    hr s

theorem encode (target : Target) (s : Selector) {v : Value} (hv : v.Within known) :
    KeepsIn I known (Record.encode d target s v) fun _ _ => True := by
  refine (keeps_stepsFor s).bind fun steps after hafter _ => ?_
  split
  · next r => exact hI.encodeWithin target steps [] true (hafter (Value.within_record.1 hv)) s
  · exact keeps_encode (fun _ _ s hr => hI.encodeWithin target steps [] false hr s) _ s
      (hv.mono hafter)

end AllowsReading

end TypedRecords
