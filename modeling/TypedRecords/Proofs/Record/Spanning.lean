import TypedRecords.Proofs.Record.Held
import TypedRecords.Proofs.Record.Selection

/-! # Spanning selectors

A selector of everything, narrowed to a record, still selects every attribute that is set, and so on
in all embedded records; for an array it selects whatever is set in one of the items.
-/

namespace TypedRecords

open TypedRecords.Graph (Stands Viewed)
open Stateful (KeepsIn)

/-- A selector selects everything that is set in the embedded records of a value. -/
inductive Spans (d : Directory) (g : Graph) : Selector → Value → Prop
  | all (v : Value) : Spans d g .all v
  | leaf {s : Selector} {v : Value} (harray : ∀ items, v ≠ .array items)
    (hrecord : ∀ r, v ≠ .record r) : Spans d g s v
  | array {s : Selector} {items : List Value} (h : ∀ v ∈ items, Spans d g s v) :
    Spans d g s (.array items)
  | reference {s : Selector} {r : RecordRef}
    (hr : (d.definition r.cls).referenceable = true) : Spans d g s (.record r)
  | embedded {s : Selector} {r : RecordRef}
    (selects : ∀ a ∈ d.attributes r.cls, ∀ v, g.seen? r a.name = some v → s.Selects a.name)
    (h : ∀ a ∈ d.attributes r.cls, ∀ v, g.seen? r a.name = some v →
      Spans d g (s.get a.name) v) : Spans d g s (.record r)

namespace Spans

variable {d : Directory} {g : Graph} {s t : Selector} {v : Value}

theorem item {items : List Value} (h : Spans d g s (.array items)) :
    ∀ v ∈ items, Spans d g s v := by
  cases h with
  | all => exact fun v _ => .all v
  | leaf harray _ => exact absurd rfl (harray items)
  | array h => exact h

/-- What spans an embedded record selects what it has, and spans it. -/
theorem inner {r : RecordRef} (h : Spans d g s (.record r))
    (hembedded : (d.definition r.cls).referenceable = false) {a : Attribute}
    (ha : a ∈ d.attributes r.cls) (hv : g.seen? r a.name = some v) :
    s.Selects a.name ∧ Spans d g (s.get a.name) v := by
  cases h with
  | all => exact ⟨Selector.selects_all a.name, .all v⟩
  | leaf _ hrecord => exact absurd rfl (hrecord r)
  | reference hreferenceable =>
    rw [hembedded] at hreferenceable
    cases hreferenceable
  | embedded selects spans => exact ⟨selects a ha v hv, spans a ha v hv⟩

theorem merge_left (h : Spans d g s v) (t : Selector) : Spans d g (s.merge t) v := by
  induction h generalizing t with
  | all v =>
    cases t <;> exact .all v
  | leaf harray hrecord => exact .leaf harray hrecord
  | array _ ih => exact .array fun v hv => ih v hv t
  | reference hr => exact .reference hr
  | @embedded s r selects _ ih =>
    have hget : ∀ a ∈ d.attributes r.cls, ∀ v, g.seen? r a.name = some v →
        (s.merge t).get a.name = (s.get a.name).merge (t.get a.name) :=
      fun a ha v hv => Selector.get_merge (.inl (selects a ha v hv))
    refine .embedded ?_ ?_
    · intro a ha v hv
      rw [Selector.Selects, hget a ha v hv]
      exact Selector.isNone_merge (selects a ha v hv) _
    · intro a ha v hv
      rw [hget a ha v hv]
      exact ih a ha v hv _

theorem merge_right (h : Spans d g t v) (s : Selector) : Spans d g (s.merge t) v := by
  induction h generalizing s with
  | all v =>
    rw [Selector.merge_all]
    exact .all v
  | leaf harray hrecord => exact .leaf harray hrecord
  | array _ ih => exact .array fun v hv => ih v hv s
  | reference hr => exact .reference hr
  | @embedded t r selects _ ih =>
    have hget : ∀ a ∈ d.attributes r.cls, ∀ v, g.seen? r a.name = some v →
        (s.merge t).get a.name = (s.get a.name).merge (t.get a.name) :=
      fun a ha v hv => Selector.get_merge (.inr (selects a ha v hv))
    refine .embedded ?_ ?_
    · intro a ha v hv
      rw [Selector.Selects, hget a ha v hv]
      exact Selector.isNone_merge_right (selects a ha v hv) _
    · intro a ha v hv
      rw [hget a ha v hv]
      exact ih a ha v hv _

theorem normalize (h : Spans d g s v) : Spans d g s.normalize v := by
  rw [← Selector.merge_none]
  exact h.merge_left .none

end Spans

/-! ### Against a type -/

theorem isNone_all : Selector.isNone .all = false := rfl

theorem narrow_items {combine : Selector → Selector → Selector}
    {onRecord : RecordRef → Selector → Action Selector} {s : Selector} (hs : s.isNone = false)
    (item : ValueType) (traits : Traits) (first : Value) (rest : List Value) :
    (ValueType.array item traits).narrow combine onRecord s (some (.array (first :: rest))) =
      ValueType.combineItems combine (fun v => item.narrow combine onRecord s (some v)) first
        rest := by
  simp only [ValueType.narrow, hs, Bool.false_eq_true, if_false]

theorem narrow_record {combine : Selector → Selector → Selector}
    {onRecord : RecordRef → Selector → Action Selector} {s : Selector} (hs : s.isNone = false)
    (name : String) (traits : Traits) (r : RecordRef) :
    (ValueType.reference name false traits).narrow combine onRecord s (some (.record r)) =
      onRecord r s := by
  simp only [ValueType.narrow, hs, Bool.false_eq_true, if_false]

theorem narrow_all_none {combine : Selector → Selector → Selector}
    {onRecord : RecordRef → Selector → Action Selector} (t : ValueType) :
    t.narrow combine onRecord .all none = pure .all := by
  induction t with
  | scalar kind traits => rfl
  | array item traits ih => exact ih
  | reference name toClass traits => cases toClass <;> rfl

section

variable {d : Directory} {registry : RegistryRef} {g₀ : Graph} {known₀ known : Set RecordRef}
  {onRecord : RecordRef → Selector → Action Selector}

/-- The union of what items are narrowed to spans each of them. -/
theorem foldlM_merge_spans {resolve : Value → Action Selector} {items items' before : List Value}
    (h : List.Forall₂ (fun v v' => KeepsIn (Viewed g₀ known₀) known (resolve v')
      fun _ s => Spans d g₀ s v) items items')
    {acc : Selector} (hbefore : ∀ v ∈ before, Spans d g₀ acc v) :
    KeepsIn (Viewed g₀ known₀) known
      (items'.foldlM (fun acc v => do pure (Selector.merge acc (← resolve v))) acc)
      fun _ s => ∀ v ∈ before ++ items, Spans d g₀ s v := by
  induction h generalizing acc before with
  | nil =>
    rw [List.append_nil]
    exact .pure fun _ _ => hbefore
  | @cons v v' items items' hv _ ih =>
    rw [List.foldlM_cons]
    refine KeepsIn.bind (Q := fun _ s => ∀ u ∈ before ++ [v], Spans d g₀ s u) ?_
      fun s after hafter hs => ?_
    · refine hv.bind fun t after _ ht => .pure fun _ _ u hu => ?_
      rcases List.mem_append.1 hu with hold | hnew
      · exact (hbefore u hold).merge_left t
      · rw [List.mem_singleton.1 hnew]
        exact ht.merge_right acc
    · have hall := (ih hs).mono hafter
      rwa [List.append_assoc] at hall

theorem combineItems_spans {resolve : Value → Action Selector} {first first' : Value}
    {rest rest' : List Value}
    (h : List.Forall₂ (fun v v' => KeepsIn (Viewed g₀ known₀) known (resolve v')
      fun _ s => Spans d g₀ s v) (first :: rest) (first' :: rest')) :
    KeepsIn (Viewed g₀ known₀) known (ValueType.combineItems Selector.merge resolve first' rest')
      fun _ s => ∀ v ∈ first :: rest, Spans d g₀ s v := by
  obtain ⟨hfirst, hrest⟩ := List.forall₂_cons.1 h
  refine hfirst.bind fun s after hafter hs => ?_
  have hbefore : ∀ v ∈ [first], Spans d g₀ s v := by simpa using hs
  exact (foldlM_merge_spans hrest hbefore).mono hafter

/-- A selector of everything, narrowed to what stands for a held value, spans that value. -/
theorem narrow_spans
    (honRecord : ∀ known r r', Held d registry g₀ (.record r) → Stands g₀ known₀ known r r' →
      KeepsIn (Viewed g₀ known₀) known (onRecord r' .all) fun _ s => Spans d g₀ s (.record r))
    {t : ValueType} {v v' : Value} (hv : Held d registry g₀ v)
    (hv' : v.Reforked (Stands g₀ known₀ known) v') :
    KeepsIn (Viewed g₀ known₀) known (t.narrow Selector.merge onRecord .all (some v'))
      fun _ s => Spans d g₀ s v := by
  induction t generalizing v v' with
  | scalar kind traits => exact .pure fun _ _ => .all v
  | array item traits ih =>
    by_cases hitems : ∃ first rest, v' = .array (first :: rest)
    · obtain ⟨first', rest', rfl⟩ := hitems
      rw [narrow_items isNone_all]
      cases hv' with
      | leaf hleaf => cases hleaf
      | @array items _ hforked =>
        have hheld : ∀ w ∈ items, Held d registry g₀ w := by
          cases hv with
          | leaf hleaf => cases hleaf
          | array hheld => exact hheld
        have hsteps := forall₂_imp_of_mem hforked fun w hw w' hw' => ih (hheld w hw) hw'
        cases hsteps with
        | cons hfirst hrest =>
          exact (combineItems_spans (.cons hfirst hrest)).imp fun _ _ _ => .array
    · have hnone : (ValueType.array item traits).narrow Selector.merge onRecord .all (some v') =
          pure .all := by
        cases v' with
        | array items =>
          cases items with
          | nil => exact narrow_all_none item
          | cons first rest => exact absurd ⟨first, rest, rfl⟩ hitems
        | _ => exact narrow_all_none item
      rw [hnone]
      exact .pure fun _ _ => .all v
  | reference name toClass traits =>
    cases toClass with
    | true => exact .pure fun _ _ => .all v
    | false =>
      cases hv' with
      | record hr =>
        rw [narrow_record isNone_all]
        exact honRecord known _ _ hv hr
      | leaf hleaf =>
        cases v <;> first | exact .pure fun _ _ => .all _ | cases hleaf
      | _ => exact .pure fun _ _ => .all _

end

/-! ### Against a record -/

namespace Record

variable {d : Directory} {registry : RegistryRef} {g₀ : Graph} {known₀ known : Set RecordRef}
  {how : Narrowing} {r r' : RecordRef}

/-- Everything that is set in a record, and in its embedded records, is selected. -/
structure Spanned (d : Directory) (g : Graph) (s : Selector) (r : RecordRef) : Prop where
  selects : ∀ a ∈ d.attributes r.cls, ∀ v, g.seen? r a.name = some v → s.Selects a.name
  spans : ∀ a ∈ d.attributes r.cls, ∀ v, g.seen? r a.name = some v → Spans d g (s.get a.name) v

theorem Spanned.all (d : Directory) (g : Graph) (r : RecordRef) : Spanned d g .all r :=
  ⟨fun a _ _ _ => Selector.selects_all a.name, fun _ _ v _ => .all v⟩

/-- What narrowing has listed so far spans the attributes that it has gone through. -/
structure SpansSome (d : Directory) (g : Graph) (r : RecordRef) (done : List Attribute)
    (acc : Selector) : Prop where
  only : ∃ fields, acc = .only fields
  spans : ∀ a ∈ done, ∀ v, g.seen? r a.name = some v →
    acc.Selects a.name ∧ Spans d g (acc.get a.name) v

theorem narrowAttribute_spans (hunion : how.aggregation = .union)
    {onRecord : RecordRef → Selector → Action Selector}
    (honRecord : ∀ known r r', Held d registry g₀ (.record r) → Stands g₀ known₀ known r r' →
      KeepsIn (Viewed g₀ known₀) known (onRecord r' .all) fun _ s => Spans d g₀ s (.record r))
    (hsome : ∀ r s g s' g', s.isNone = false → onRecord r s g = (.ok s', g') → s'.isNone = false)
    (hr : Stands g₀ known₀ known r r') {a : Attribute}
    (hheld : ∀ v, g₀.seen? r a.name = some v → Held d registry g₀ v)
    {done : List Attribute} {acc : Selector} (hacc : SpansSome d g₀ r done acc) :
    KeepsIn (Viewed g₀ known₀) known (narrowAttribute how onRecord r' .all acc a)
      fun _ acc' => SpansSome d g₀ r (done ++ [a]) acc' := by
  obtain ⟨⟨fields, rfl⟩, hspans⟩ := hacc
  simp only [narrowAttribute, Selector.get, isNone_all, Bool.false_eq_true, if_false]
  refine (Viewed.keeps_value hr a.name).bind fun v' after hafter hv' => ?_
  split
  · next hunset =>
    obtain ⟨-, hnone⟩ := Bool.and_eq_true_iff.1 hunset
    obtain rfl := Option.isNone_iff_eq_none.1 hnone
    refine .pure fun _ _ => ⟨⟨fields, rfl⟩, fun b hb v hv => ?_⟩
    rcases List.mem_append.1 hb with hb | hb
    · exact hspans b hb v hv
    · rw [List.mem_singleton.1 hb] at hv
      rw [hv] at hv'
      cases hv'
  · have hnarrowed : KeepsIn (Viewed g₀ known₀) after
        (a.type.narrow how.aggregation.combine onRecord .all v')
        fun _ t => (∀ v, g₀.seen? r a.name = some v → Spans d g₀ t v) ∧ t.isNone = false := by
      rw [hunion]
      refine KeepsIn.and_run ?_ fun _ _ _ => narrow_isNone hsome rfl
      generalize g₀.seen? r a.name = old at hv' hheld
      cases hv' with
      | none =>
        rw [narrow_all_none]
        exact .pure fun _ _ v hv => by cases hv
      | some hforked =>
        refine (narrow_spans honRecord (hheld _ rfl) hforked).imp fun _ _ t ht v hv => ?_
        cases hv
        exact ht
    refine hnarrowed.bind fun t later _ ht => .pure fun _ _ => ?_
    obtain ⟨hnew, ht⟩ := ht
    refine ⟨⟨_, Selector.set_only ht⟩, fun b hb v hv => ?_⟩
    by_cases hname : b.name = a.name
    · rw [hname] at hv ⊢
      rw [Selector.Selects, Selector.get_set_self ht, Selector.isNone_normalize]
      exact ⟨ht, (hnew v hv).normalize⟩
    · rw [Selector.Selects, Selector.get_set_of_ne ht hname]
      rcases List.mem_append.1 hb with hb | hb
      · exact hspans b hb v hv
      · exact absurd (congrArg Attribute.name (List.mem_singleton.1 hb)) hname

theorem foldlM_narrowAttribute_spans (hunion : how.aggregation = .union)
    {onRecord : RecordRef → Selector → Action Selector}
    (honRecord : ∀ known r r', Held d registry g₀ (.record r) → Stands g₀ known₀ known r r' →
      KeepsIn (Viewed g₀ known₀) known (onRecord r' .all) fun _ s => Spans d g₀ s (.record r))
    (hsome : ∀ r s g s' g', s.isNone = false → onRecord r s g = (.ok s', g') → s'.isNone = false)
    (hr : Stands g₀ known₀ known r r') {attributes : List Attribute}
    (hheld : ∀ a ∈ attributes, ∀ v, g₀.seen? r a.name = some v → Held d registry g₀ v)
    {done : List Attribute} {acc : Selector} (hacc : SpansSome d g₀ r done acc) :
    KeepsIn (Viewed g₀ known₀) known
      (attributes.foldlM (narrowAttribute how onRecord r' .all) acc)
      fun _ acc' => SpansSome d g₀ r (done ++ attributes) acc' := by
  induction attributes generalizing known done acc with
  | nil =>
    rw [List.append_nil]
    exact .pure fun _ _ => hacc
  | cons a rest ih =>
    obtain ⟨hfirst, hrest⟩ := List.forall_mem_cons.1 hheld
    rw [List.foldlM_cons]
    refine (narrowAttribute_spans hunion honRecord hsome hr hfirst hacc).bind
      fun acc' after hafter hacc' => ?_
    have hall := ih (hr.mono hafter) hrest hacc'
    rwa [List.append_assoc] at hall

/-- A selector of everything, narrowed to what stands for a record, spans that record. -/
theorem resolveWithin_spans (hunion : how.aggregation = .union) {steps : Nat}
    (hr : Stands g₀ known₀ known r r')
    (hheld : ∀ a ∈ d.attributes r.cls, ∀ v, g₀.seen? r a.name = some v → Held d registry g₀ v) :
    KeepsIn (Viewed g₀ known₀) known (resolveWithin d how steps r' .all)
      fun _ s => Spanned d g₀ s r := by
  induction steps generalizing r r' known with
  | zero => exact .throw _
  | succ steps ih =>
    have hreading := Graph.viewed_allowsReading g₀ known₀
    have hinner : ∀ known inner inner', Held d registry g₀ (.record inner) →
        Stands g₀ known₀ known inner inner' → KeepsIn (Viewed g₀ known₀) known
          (resolveInner d how steps inner' .all) fun _ s => Spans d g₀ s (.record inner) := by
      intro known inner inner' hheld hinner
      cases hheld with
      | leaf hleaf => cases hleaf
      | reference _ hreferenceable _ _ =>
        exact (hreading.resolveInner how steps hinner.known .all).imp
          fun _ _ _ _ => .reference hreferenceable
      | embedded _ hembedded _ hvalues =>
        unfold resolveInner
        rw [hinner.descends.cls, hembedded, Bool.and_false, if_neg (by decide)]
        exact (ih hinner hvalues).imp fun _ _ _ hs => .embedded hs.selects hs.spans
    simp only [resolveWithin, Selector.normalize, isNone_all, Bool.false_eq_true, if_false]
    refine KeepsIn.get.bind fun g after hafter _ => ?_
    split
    · exact .pure fun _ _ => .all d g₀ r
    · refine (hreading.markResolving (hafter hr.known) true).bind fun _ later hlater _ => ?_
      have hfold := foldlM_narrowAttribute_spans hunion hinner
        (fun _ _ _ _ _ => resolveInner_isNone) (hr.mono (hafter.trans hlater)) hheld
        (⟨⟨[], rfl⟩, by simp⟩ : SpansSome d g₀ r [] (.only []))
      rw [hr.descends.cls]
      refine hfold.bind fun s _ hlast hs => ?_
      refine (hreading.markResolving (hlast (hlater (hafter hr.known))) false).bind
        fun _ _ _ _ => .pure fun _ _ => ?_
      exact ⟨fun a ha v hv => (hs.spans a ha v hv).1, fun a ha v hv => (hs.spans a ha v hv).2⟩

theorem resolve_spans (hunion : how.aggregation = .union) (hr : Stands g₀ known₀ known r r')
    (hheld : ∀ a ∈ d.attributes r.cls, ∀ v, g₀.seen? r a.name = some v → Held d registry g₀ v) :
    KeepsIn (Viewed g₀ known₀) known (resolve d how r' .all) fun _ s => Spanned d g₀ s r :=
  (keeps_stepsFor .all).bind fun _ _ hafter _ =>
    resolveWithin_spans hunion (hr.mono hafter) hheld

end Record

end TypedRecords
