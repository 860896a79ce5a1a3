import TypedRecords.Proofs.Failing
import TypedRecords.Proofs.Record.Walks
import TypedRecords.Proofs.Record.Encoding

/-! # Records that are entered

Narrowing a selector against a value and encoding a value go into records of the value. If one of these
makes them fail, so does the value, and nothing else does.
-/

namespace TypedRecords

open TypedRecords.Graph (Way)
open Stateful (FailsIff)

/-! ### Which records are entered -/

/-- Narrowing against a type enters the records that stand where the type refers to records. -/
inductive ValueType.Enters : ValueType → Value → RecordRef → Prop
  | reference {name : String} {traits : Traits} {r : RecordRef} :
    Enters (.reference name false traits) (.record r) r
  | item {item : ValueType} {traits : Traits} {items : List Value} {v : Value} {r : RecordRef}
    (hv : v ∈ items) (h : Enters item v r) : Enters (.array item traits) (.array items) r

/-- Encoding enters all records, those in plain objects altogether. -/
inductive Value.Enters : Selector → Value → RecordRef → Selector → Prop
  | record {s : Selector} {r : RecordRef} : Enters s (.record r) r s
  | item {s t : Selector} {items : List Value} {v : Value} {r : RecordRef} (hv : v ∈ items)
    (h : Enters s v r t) : Enters s (.array items) r t
  | field {s t : Selector} {fields : Object} {entry : String × Value} {r : RecordRef}
    (hentry : entry ∈ fields) (h : Enters .all entry.2 r t) : Enters s (.object fields) r t

/-- The records that resolving a selector enters. It may stay out of those that can be referred to. -/
def Narrowing.way (how : Narrowing) (d : Directory) : Way := fun a s v q t =>
  a.type.Enters v q ∧ (how.includeReferenced = true ∨ (d.definition q.cls).referenceable = false) ∧
    t = s

/-- The records that encoding enters. -/
def Record.encodingWay : Way := fun _ s v q t => v.Enters s q t

theorem ValueType.enters_scalar_iff {kind : ScalarKind} {traits : Traits} {v : Value} {r : RecordRef} :
    (scalar kind traits).Enters v r ↔ False :=
  ⟨fun h => (by cases h), False.elim⟩

theorem ValueType.enters_array_iff {item : ValueType} {traits : Traits} {v : Value} {r : RecordRef} :
    (array item traits).Enters v r ↔ ∃ items, v = .array items ∧ ∃ w ∈ items, item.Enters w r := by
  constructor
  · intro h
    cases h with
    | item hv h => exact ⟨_, rfl, _, hv, h⟩
  · intro h
    obtain ⟨items, rfl, w, hw, h⟩ := h
    exact .item hw h

theorem ValueType.enters_reference_iff {name : String} {toClass : Bool} {traits : Traits} {v : Value}
    {r : RecordRef} : (reference name toClass traits).Enters v r ↔ toClass = false ∧ v = .record r := by
  constructor
  · intro h
    cases h
    exact ⟨rfl, rfl⟩
  · intro h
    obtain ⟨rfl, rfl⟩ := h
    exact .reference

theorem Value.enters_record_iff {s t : Selector} {r q : RecordRef} :
    (record r).Enters s q t ↔ q = r ∧ t = s := by
  constructor
  · intro h
    cases h
    exact ⟨rfl, rfl⟩
  · intro h
    obtain ⟨rfl, rfl⟩ := h
    exact .record

theorem Value.enters_array_iff {s t : Selector} {items : List Value} {r : RecordRef} :
    (array items).Enters s r t ↔ ∃ v ∈ items, v.Enters s r t := by
  constructor
  · intro h
    cases h with
    | item hv h => exact ⟨_, hv, h⟩
  · intro h
    obtain ⟨v, hv, h⟩ := h
    exact .item hv h

theorem Value.enters_object_iff {s t : Selector} {fields : Object} {r : RecordRef} :
    (object fields).Enters s r t ↔ ∃ entry ∈ fields, entry.2.Enters .all r t := by
  constructor
  · intro h
    cases h with
    | field hentry h => exact ⟨_, hentry, h⟩
  · intro h
    obtain ⟨entry, hentry, h⟩ := h
    exact .field hentry h

theorem ValueType.Enters.mem {t : ValueType} {v : Value} {r : RecordRef} (h : t.Enters v r) :
    r ∈ v.records := by
  induction h with
  | reference => exact List.mem_singleton.2 rfl
  | item hv _ ih => exact Value.mem_records_array.2 ⟨_, hv, ih⟩

theorem Value.Enters.mem {s t : Selector} {v : Value} {r : RecordRef} (h : v.Enters s r t) :
    r ∈ v.records := by
  induction h with
  | record => exact List.mem_singleton.2 rfl
  | item hv _ ih => exact mem_records_array.2 ⟨_, hv, ih⟩
  | field hentry _ ih => exact mem_records_object.2 ⟨_, hentry, ih⟩

theorem Value.Enters.selects {s t : Selector} {v : Value} {r : RecordRef} (h : v.Enters s r t) :
    t = s ∨ t = .all := by
  induction h with
  | record => exact .inl rfl
  | item _ _ ih => exact ih
  | field _ _ ih => exact .inr (ih.elim id id)

theorem Narrowing.way_enters (how : Narrowing) (d : Directory) : (how.way d).Enters where
  records _ _ _ _ _ h := h.1.mem
  selects _ _ _ _ _ h := .inl h.2.2

theorem Record.encodingWay_enters : encodingWay.Enters where
  records _ _ _ _ _ h := h.mem
  selects _ _ _ _ _ h := h.selects

/-! ### Failing in a value -/

variable {e : Error} {I : Set RecordRef → Graph → Prop} {known : Set RecordRef}
  {R : RecordRef → RecordRef → Prop}

/-- Combining the answers of items fails if one of them does. -/
theorem combineItems_failsIff {E : Value → Prop} (combine : Selector → Selector → Selector)
    {resolve : Value → Action Selector} {items : List Value} {first : Value} {rest : List Value}
    (h : ∀ w w', w.Reforked R w' → FailsIff e (E w) I known (resolve w') fun _ _ => True)
    (hitems : List.Forall₂ (Value.Reforked R) items (first :: rest)) :
    FailsIff e (∃ w ∈ items, E w) I known (ValueType.combineItems combine resolve first rest)
      fun _ _ => True := by
  cases hitems with
  | cons hfirst hrest =>
    have hstep : ∀ {after}, known ⊆ after → ∀ w w', w.Reforked R w' → ∀ acc,
        FailsIff e (E w) I after (do pure (combine acc (← resolve w'))) fun _ _ => True :=
      fun hafter w w' hw _ => ((h w w' hw).mono hafter).bind_never fun _ _ _ _ =>
        .pure fun _ _ => trivial
    have hall := (h _ _ hfirst).bind fun acc _ hafter _ =>
      FailsIff.foldlM_forall₂ hrest (hstep hafter) acc
    exact hall.congr (by simp)

/-- Narrowing against a value fails if it does so in a record that it enters. -/
theorem narrow_failsIff {E : RecordRef → Prop} {combine : Selector → Selector → Selector}
    {onRecord : RecordRef → Selector → Action Selector} {s : Selector} (hs : s.isNone = false)
    (hinner : ∀ r r', R r r' → FailsIff e (E r) I known (onRecord r' s) fun _ _ => True)
    (t : ValueType) {old v : Option Value} (hv : Option.Rel (Value.Reforked R) old v) :
    FailsIff e (∃ w, old = some w ∧ ∃ q, t.Enters w q ∧ E q) I known
      (t.narrow combine onRecord s v) fun _ _ => True := by
  induction t generalizing old v with
  | scalar kind traits =>
    simp only [ValueType.narrow, hs]
    exact .pure_of_not (by simp [ValueType.enters_scalar_iff])
  | array item traits ih =>
    simp only [ValueType.narrow, hs, Bool.false_eq_true, if_false, ValueType.enters_array_iff]
    have hnone : FailsIff e False I known (item.narrow combine onRecord s none) fun _ _ => True :=
      (ih .none).congr (by simp)
    cases hv with
    | none => exact hnone.congr (by simp)
    | @some w w' hforked =>
      cases hforked with
      | array hitems =>
        cases hitems with
        | nil => exact hnone.congr (by simp)
        | cons hfirst hrest =>
          have hall := combineItems_failsIff (E := fun w => ∃ q, item.Enters w q ∧ E q) combine
            (fun w w' h => (ih (.some h)).congr (by simp)) (.cons hfirst hrest)
          exact hall.congr (by grind)
      | leaf hleaf => cases w <;> first | exact hnone.congr (by simp) | cases hleaf
      | undefined => exact hnone.congr (by simp)
      | classRef c => exact hnone.congr (by simp)
      | record hr => exact hnone.congr (by simp)
      | object hnames hvalues => exact hnone.congr (by simp)
  | reference name toClass traits =>
    cases toClass with
    | true =>
      simp only [ValueType.narrow, hs]
      exact .pure_of_not (by simp [ValueType.enters_reference_iff])
    | false =>
      simp only [ValueType.narrow, hs, Bool.false_eq_true, if_false, ValueType.enters_reference_iff]
      cases hv with
      | none => exact .pure_of_not (by simp)
      | @some w w' hforked =>
        cases hforked with
        | record hr => exact (hinner _ _ hr).congr (by simp)
        | leaf hleaf => cases w <;> first | exact .pure_of_not (by simp) | cases hleaf
        | undefined => exact .pure_of_not (by simp)
        | classRef c => exact .pure_of_not (by simp)
        | array hitems => exact .pure_of_not (by simp)
        | object hnames hvalues => exact .pure_of_not (by simp)

theorem encodeItems_failsIff {E : Value → Prop} {onRecord : RecordRef → Selector → Action Value}
    {s : Selector} {items items' : List Value}
    (h : List.Forall₂ (fun v w => FailsIff e (E v) I known (w.encode onRecord s) fun _ _ => True)
      items items') :
    FailsIff e (∃ v ∈ items, E v) I known (Value.encodeItems onRecord s items') fun _ _ => True := by
  induction h with
  | nil => exact .pure_of_not (by simp)
  | cons hv _ ih =>
    have hall := hv.bind fun t _ hafter _ => (ih.mono hafter).map fun ts => t :: ts
    exact hall.congr (by simp)

theorem encodeFields_failsIff {E : Value → Prop} {onRecord : RecordRef → Selector → Action Value}
    {fields fields' : Object}
    (h : Fields.Related
      (fun v w => FailsIff e (E v) I known (w.encode onRecord .all) fun _ _ => True) fields fields') :
    FailsIff e (∃ entry ∈ fields, E entry.2) I known (Value.encodeFields onRecord fields')
      fun _ _ => True := by
  induction h with
  | nil => exact .pure_of_not (by simp)
  | @cons entry entry' _ _ hentry _ ih =>
    have hall := hentry.2.bind fun t _ hafter _ => (ih.mono hafter).map fun ts => (entry'.1, t) :: ts
    exact hall.congr (by simp)

/-- Encoding a value fails if it does so in a record that it enters. -/
theorem encode_failsIff {E : RecordRef → Selector → Prop}
    {onRecord : RecordRef → Selector → Action Value}
    (hinner : ∀ r r' s, R r r' → FailsIff e (E r s) I known (onRecord r' s) fun _ _ => True)
    {v w : Value} (hv : v.Reforked R w) (s : Selector) :
    FailsIff e (∃ q t, v.Enters s q t ∧ E q t) I known (w.encode onRecord s) fun _ _ => True := by
  induction v using Value.induction generalizing w s with
  | array items ih =>
    cases hv with
    | leaf hleaf => cases hleaf
    | array hitems =>
      have hall := encodeItems_failsIff (forall₂_imp_of_mem hitems fun v hv w h => ih v hv h s)
      refine (hall.map Value.array).congr ?_
      simp only [Value.enters_array_iff]
      grind
  | object fields ih =>
    cases hv with
    | leaf hleaf => cases hleaf
    | object hnames hvalues =>
      have hrelated := Fields.related_of_values hnames hvalues
      have hall := encodeFields_failsIff (E := fun v => ∃ q t, v.Enters .all q t ∧ E q t)
        (forall₂_imp_of_mem hrelated fun entry hentry w h => ⟨h.1, ih entry hentry h.2 .all⟩)
      refine (hall.map Value.object).congr ?_
      simp only [Value.enters_object_iff]
      constructor
      · intro h
        obtain ⟨entry, hentry, q, t, henters, hE⟩ := h
        exact ⟨q, t, ⟨entry, hentry, henters⟩, hE⟩
      · intro h
        obtain ⟨q, t, ⟨entry, hentry, henters⟩, hE⟩ := h
        exact ⟨entry, hentry, q, t, henters, hE⟩
  | other v harray hobject =>
    have hplain : ∀ {v t : Value}, v.records = [] →
        FailsIff e (∃ q t, v.Enters s q t ∧ E q t) I known (pure t : Action Value) fun _ _ => True := by
      intro v t hv
      refine .pure_of_not fun henters => ?_
      obtain ⟨q, t, hq, -⟩ := henters
      have hmem := hq.mem
      rw [hv] at hmem
      cases hmem
    cases hv with
    | array _ => cases harray
    | object _ _ => cases hobject
    | record hr => exact (hinner _ _ s hr).congr (by simp [Value.enters_record_iff])
    | leaf hleaf => cases v <;> first | exact hplain rfl | cases hleaf
    | undefined => exact hplain rfl
    | classRef c => exact hplain rfl

/-! ### Failing in an attribute -/

namespace Record

variable {r : RecordRef} {s : Selector} {a : Attribute} {old : Option Value}

/-- Narrowing an attribute fails if it does so in a record that its value has entered. -/
theorem narrowAttribute_failsIff {E : RecordRef → Prop} {how : Narrowing}
    {onRecord : RecordRef → Selector → Action Selector}
    (hread : FailsIff e False I known (lift (r.value? a.name)) fun after v => Option.Rel
      (Value.Reforked fun q q' => FailsIff e (E q) I after (onRecord q' (s.get a.name)) fun _ _ => True)
      old v) (acc : Selector) :
    FailsIff e ((s.get a.name).isNone = false ∧ ∃ v, old = some v ∧ ∃ q, a.type.Enters v q ∧ E q)
      I known (narrowAttribute how onRecord r s acc a) fun _ _ => True := by
  cases hsome : (s.get a.name).isNone with
  | true =>
    simp only [narrowAttribute, hsome, if_true]
    exact .pure_of_not (by simp)
  | false =>
    simp only [narrowAttribute, hsome, Bool.false_eq_true, if_false, true_and]
    refine hread.bind_of_never fun v after _ hv => ?_
    split
    · next hunset =>
      rw [Bool.and_eq_true, Option.isNone_iff_eq_none] at hunset
      rw [hunset.2] at hv
      cases hv
      exact .pure_of_not (by simp)
    · exact (narrow_failsIff hsome (fun _ _ h => h) a.type hv).map (acc.set a.name)

/-- Encoding an attribute fails if it does so in a record that its value has entered. -/
theorem encodeAttribute_failsIff {E : RecordRef → Selector → Prop}
    {onRecord : RecordRef → Selector → Action Value}
    (hread : FailsIff e False I known (lift (r.value? a.name)) fun after v => Option.Rel
      (Value.Reforked fun q q' => ∀ t, FailsIff e (E q t) I after (onRecord q' t) fun _ _ => True) old v)
    (acc : Object) :
    FailsIff e ((s.get a.name).isNone = false ∧
        ∃ v, old = some v ∧ ∃ q t, v.Enters (s.get a.name) q t ∧ E q t) I known
      (encodeAttribute onRecord r s acc a) fun _ _ => True := by
  cases hsome : (s.get a.name).isNone with
  | true =>
    simp only [encodeAttribute, hsome, if_true]
    exact .pure_of_not (by simp)
  | false =>
    simp only [encodeAttribute, hsome, Bool.false_eq_true, if_false, true_and]
    refine hread.bind_of_never fun v after _ hv => ?_
    cases hv with
    | none => exact .pure_of_not (by simp)
    | some hforked =>
      have hencode := encode_failsIff (fun _ _ t h => h t) hforked (s.get a.name)
      exact (hencode.map fun t => Fields.insert a.name t acc).congr (by simp)

end Record

end TypedRecords
