import TypedRecords.Proofs.Record.Forking
import TypedRecords.Proofs.Class.Lawful
import TypedRecords.Proofs.Selector

/-! # Resolved selectors

A selector that is narrowed to a record still selects something of every attribute that is set and of
which it selected something before.
-/

namespace TypedRecords

/-! ### Against a type -/

theorem narrow_isNone {onRecord : RecordRef → Selector → Action Selector}
    (h : ∀ r s g s' g', s.isNone = false → onRecord r s g = (.ok s', g') → s'.isNone = false)
    {t : ValueType} {s s' : Selector} {v : Option Value} {g g' : Graph} (hs : s.isNone = false)
    (hnarrow : t.narrow Selector.merge onRecord s v g = (.ok s', g')) : s'.isNone = false := by
  induction t generalizing v g s' g' with
  | scalar kind traits =>
    simp only [ValueType.narrow, hs] at hnarrow
    cases hnarrow
    rfl
  | array item traits ih =>
    simp only [ValueType.narrow, hs, Bool.false_eq_true, if_false] at hnarrow
    split at hnarrow
    · next first rest =>
      obtain ⟨acc, g₁, hfirst, hrest⟩ := Stateful.bind_eq_ok hnarrow
      refine Stateful.foldlM_invariant (P := fun acc _ => acc.isNone = false) ?_ (ih hfirst) hrest
      intro v _ acc g acc' g' hacc hstep
      obtain ⟨t, g₂, -, hpure⟩ := Stateful.bind_eq_ok hstep
      cases hpure
      exact Selector.isNone_merge hacc t
    · exact ih hnarrow
  | reference name toClass traits =>
    cases toClass with
    | true =>
      simp only [ValueType.narrow, hs] at hnarrow
      cases hnarrow
      rfl
    | false =>
      simp only [ValueType.narrow, hs, Bool.false_eq_true, if_false] at hnarrow
      split at hnarrow
      · exact h _ _ _ _ _ hs hnarrow
      · cases hnarrow
        rwa [Selector.isNone_normalize]

/-- What does not refer to records is selected entirely. -/
theorem narrow_of_recordClass?_none {onRecord : RecordRef → Selector → Action Selector}
    {t : ValueType} (ht : t.recordClass? = none) {s s' : Selector} (hs : s.isNone = false)
    {v : Option Value} {g g' : Graph}
    (hnarrow : t.narrow Selector.merge onRecord s v g = (.ok s', g')) : s' = .all := by
  induction t generalizing v g s' g' with
  | scalar kind traits =>
    simp only [ValueType.narrow, hs] at hnarrow
    cases hnarrow
    rfl
  | array item traits ih =>
    simp only [ValueType.narrow, hs, Bool.false_eq_true, if_false] at hnarrow
    split at hnarrow
    · next first rest =>
      obtain ⟨acc, g₁, hfirst, hrest⟩ := Stateful.bind_eq_ok hnarrow
      refine Stateful.foldlM_invariant (P := fun acc _ => acc = .all) ?_ (ih ht hfirst) hrest
      rintro v _ _ g acc' g' rfl hstep
      obtain ⟨t, g₂, -, hpure⟩ := Stateful.bind_eq_ok hstep
      cases hpure
      rfl
    · exact ih ht hnarrow
  | reference name toClass traits =>
    cases toClass with
    | true =>
      simp only [ValueType.narrow, hs] at hnarrow
      cases hnarrow
      rfl
    | false => cases ht

/-! ### Against a record -/

namespace Record

variable {d : Directory} {how : Narrowing}

/-- The steps of narrowing a selector to a record that is not being resolved. -/
theorem resolveWithin_eq_ok {steps : Nat} {r : RecordRef} {s s' : Selector} {g g' : Graph}
    (hs : s.isNone = false) (h : resolveWithin d how (steps + 1) r s g = (.ok s', g')) :
    g.isResolving r = true ∧ s' = s.normalize ∨
      ∃ g₁, (d.attributes r.cls).foldlM
        (narrowAttribute how (resolveInner d how steps) r s.normalize) (.only [])
        (g.markResolving r true) = (.ok s', g₁) ∧ g' = g₁.markResolving r false := by
  simp only [resolveWithin, Selector.isNone_normalize, hs, Bool.false_eq_true, if_false] at h
  obtain ⟨_, _, hget, hrest⟩ := Stateful.bind_eq_ok h
  cases hget
  split at hrest
  · next hresolving =>
    cases hrest
    exact .inl ⟨hresolving, rfl⟩
  · obtain ⟨_, _, hmark, hfold⟩ := Stateful.bind_eq_ok hrest
    cases hmark
    obtain ⟨resolved, g₁, hresolved, hunmark⟩ := Stateful.bind_eq_ok hfold
    obtain ⟨_, _, hmark, hpure⟩ := Stateful.bind_eq_ok hunmark
    cases hmark
    cases hpure
    exact .inr ⟨g₁, hresolved, rfl⟩

theorem narrowAttribute_eq_ok {onRecord : RecordRef → Selector → Action Selector} {r : RecordRef}
    {s acc acc' : Selector} {a : Attribute} {g g' : Graph}
    (h : narrowAttribute how onRecord r s acc a g = (.ok acc', g')) :
    acc' = acc ∧ ((s.get a.name).isNone = true ∨
        how.setOnly = true ∧ lift (r.value? a.name) g = (.ok none, g')) ∨
      ∃ v g₁ t, (s.get a.name).isNone = false ∧ lift (r.value? a.name) g = (.ok v, g₁) ∧
        a.type.narrow how.aggregation.combine onRecord (s.get a.name) v g₁ = (.ok t, g') ∧
        acc' = acc.set a.name t := by
  simp only [narrowAttribute] at h
  split at h
  · next hnone =>
    cases h
    exact .inl ⟨rfl, .inl hnone⟩
  · next hsome =>
    obtain ⟨v, g₁, hread, hrest⟩ := Stateful.bind_eq_ok h
    split at hrest
    · next hunset =>
      cases hrest
      obtain ⟨hset, hv⟩ := Bool.and_eq_true_iff.1 hunset
      cases Option.isNone_iff_eq_none.1 hv
      exact .inl ⟨rfl, .inr ⟨hset, hread⟩⟩
    · obtain ⟨t, g₂, ht, hpure⟩ := Stateful.bind_eq_ok hrest
      cases hpure
      exact .inr ⟨v, g₁, t, by simpa using hsome, hread, ht, rfl⟩

theorem narrowAttribute_only {onRecord : RecordRef → Selector → Action Selector} {r : RecordRef}
    {s acc' : Selector} {a : Attribute} {fields : Fields Selector} {g g' : Graph}
    (h : narrowAttribute how onRecord r s (.only fields) a g = (.ok acc', g')) :
    ∃ fields', acc' = .only fields' := by
  rcases narrowAttribute_eq_ok h with ⟨rfl, -⟩ | ⟨v, g₁, t, -, -, -, rfl⟩
  · exact ⟨fields, rfl⟩
  · unfold Selector.set
    dsimp only
    split
    · exact ⟨_, rfl⟩
    · exact ⟨_, rfl⟩

theorem resolveWithin_isNone {steps : Nat} {r : RecordRef} {s s' : Selector} {g g' : Graph}
    (hs : s.isNone = false) (h : resolveWithin d how steps r s g = (.ok s', g')) :
    s'.isNone = false := by
  cases steps with
  | zero => cases h
  | succ steps =>
    rcases resolveWithin_eq_ok hs h with ⟨-, rfl⟩ | ⟨g₁, hfold, -⟩
    · rwa [Selector.isNone_normalize]
    · have honly : ∃ fields, s' = .only fields := by
        refine Stateful.foldlM_invariant (P := fun acc _ => ∃ fields, acc = .only fields) ?_
          ⟨[], rfl⟩ hfold
        rintro a - _ g acc' g' ⟨fields, rfl⟩ hstep
        exact narrowAttribute_only hstep
      obtain ⟨fields, rfl⟩ := honly
      rfl

theorem resolveInner_isNone {steps : Nat} {r : RecordRef} {s s' : Selector} {g g' : Graph}
    (hs : s.isNone = false) (h : resolveInner d how steps r s g = (.ok s', g')) :
    s'.isNone = false := by
  unfold resolveInner at h
  split at h
  · cases h
    rfl
  · exact resolveWithin_isNone hs h

/-- A selector that has been narrowed attribute by attribute, in graphs of which something holds: it
lists attributes, each with what its selector is narrowed to. -/
structure Narrowed (how : Narrowing) (onRecord : RecordRef → Selector → Action Selector)
    (J : Graph → Prop) (r : RecordRef) (s : Selector) (attributes : List Attribute)
    (fields : Fields Selector) : Prop where
  distinct : Fields.Distinct fields
  names : ∀ name ∈ Fields.keys fields, ∃ a ∈ attributes, a.name = name
  get : ∀ a ∈ attributes, s.Selects a.name → ∃ g g' t, J g ∧
    a.type.narrow Selector.merge onRecord (s.get a.name) (g.value? r a.name) g = (.ok t, g') ∧
    (Selector.only fields).get a.name = t.normalize

theorem foldlM_narrowAttribute_eq_ok {onRecord : RecordRef → Selector → Action Selector}
    (honRecord : ∀ r s g s' g', s.isNone = false → onRecord r s g = (.ok s', g') → s'.isNone = false)
    (hunion : how.aggregation = .union) (hall : how.setOnly = false) {r : RecordRef}
    (hr : r.base? = none) {s : Selector} {attributes : List Attribute}
    (hnodup : (attributes.map Attribute.name).Nodup) {J : Graph → Prop}
    (hJ : ∀ a ∈ attributes, ∀ acc g acc' g', J g →
      narrowAttribute how onRecord r s acc a g = (.ok acc', g') → J g')
    {g g' : Graph} (hg : J g) {s' : Selector}
    (h : attributes.foldlM (narrowAttribute how onRecord r s) (.only []) g = (.ok s', g')) :
    ∃ fields, s' = .only fields ∧ Narrowed how onRecord J r s attributes fields := by
  have hstep : ∀ a ∈ attributes, ∀ acc g acc' g',
      narrowAttribute how onRecord r s acc a g = (.ok acc', g') →
      acc' = acc ∧ (s.get a.name).isNone = true ∨ ∃ t, t.isNone = false ∧
        a.type.narrow Selector.merge onRecord (s.get a.name) (g.value? r a.name) g = (.ok t, g') ∧
        acc' = acc.set a.name t := by
    intro a _ acc g acc' g' hnarrow
    rcases narrowAttribute_eq_ok hnarrow with ⟨rfl, hnone | ⟨hset, -⟩⟩ | ⟨v, g₁, t, hs, hv, ht, rfl⟩
    · exact .inl ⟨rfl, hnone⟩
    · rw [hall] at hset
      cases hset
    · rw [lift_value?_made hr] at hv
      cases hv
      rw [hunion] at ht
      exact .inr ⟨t, narrow_isNone honRecord hs ht, ht, rfl⟩
  have hlisted : ∃ fields, s' = .only fields ∧ Fields.Distinct fields ∧
      ∀ name ∈ Fields.keys fields, ∃ a ∈ attributes, a.name = name := by
    refine Stateful.foldlM_invariant (P := fun acc _ => ∃ fields, acc = .only fields ∧
      Fields.Distinct fields ∧ ∀ name ∈ Fields.keys fields, ∃ a ∈ attributes, a.name = name) ?_
      ⟨[], rfl, List.nodup_nil, by simp [Fields.keys]⟩ h
    rintro a ha _ g acc' g' ⟨fields, rfl, hdistinct, hnames⟩ hnarrow
    rcases hstep a ha _ g acc' g' hnarrow with ⟨rfl, -⟩ | ⟨t, ht, -, rfl⟩
    · exact ⟨fields, rfl, hdistinct, hnames⟩
    · refine ⟨_, Selector.set_only ht, hdistinct.insert _ _, fun name hname => ?_⟩
      rcases Fields.mem_keys_insert.1 hname with rfl | hname
      · exact ⟨a, ha, rfl⟩
      · exact hnames name hname
  obtain ⟨fields, rfl, hdistinct, hnames⟩ := hlisted
  refine ⟨fields, rfl, hdistinct, hnames, fun a ha hs => ?_⟩
  let I : Selector → Graph → Prop := fun acc g => (∃ fields, acc = .only fields) ∧ J g
  let P : Selector → Graph → Prop := fun acc _ => ∃ g g' t, J g ∧
    a.type.narrow Selector.merge onRecord (s.get a.name) (g.value? r a.name) g = (.ok t, g') ∧
    acc.get a.name = t.normalize
  have hI : ∀ a' ∈ attributes, ∀ acc g acc' g', I acc g →
      narrowAttribute how onRecord r s acc a' g = (.ok acc', g') → I acc' g' := by
    rintro a' ha' _ g acc' g' ⟨⟨fields, rfl⟩, hg⟩ hnarrow
    exact ⟨narrowAttribute_only hnarrow, hJ a' ha' _ g acc' g' hg hnarrow⟩
  have hreach : ∀ acc g acc' g', I acc g →
      narrowAttribute how onRecord r s acc a g = (.ok acc', g') → P acc' g' := by
    rintro _ g acc' g' ⟨⟨fields, rfl⟩, hg⟩ hnarrow
    rcases hstep a ha _ g acc' g' hnarrow with ⟨-, hnone⟩ | ⟨t, ht, hnarrowed, rfl⟩
    · rw [hs] at hnone
      cases hnone
    · exact ⟨g, g', t, hg, hnarrowed, Selector.get_set_self ht⟩
  refine Stateful.foldlM_reaches (I := I) (P := P) hI ha hreach ?_ ⟨⟨[], rfl⟩, hg⟩ h
  rintro a' ha' _ g acc' g' ⟨⟨fields, rfl⟩, hg⟩ hP hnarrow
  by_cases hname : a.name = a'.name
  · obtain rfl := List.inj_on_of_nodup_map hnodup ha ha' hname
    exact hreach _ g acc' g' ⟨⟨fields, rfl⟩, hg⟩ hnarrow
  · rcases hstep a' ha' _ g acc' g' hnarrow with ⟨rfl, -⟩ | ⟨t, ht, -, rfl⟩
    · exact hP
    · obtain ⟨g₁, g₂, t', hg₁, hnarrowed, hget⟩ := hP
      exact ⟨g₁, g₂, t', hg₁, hnarrowed, (Selector.get_set_of_ne ht hname).trans hget⟩

/-- A set attribute of which something is selected before is narrowed to something. -/
theorem narrowAttribute_selects {steps : Nat} (hunion : how.aggregation = .union) {r : RecordRef}
    (hr : r.base? = none) {s : Selector} {fields : Fields Selector} {acc' : Selector}
    {a : Attribute} {g g' : Graph} (hs : s.Selects a.name) {slot : Slot}
    (hset : g.own? r a.name = some (some slot))
    (h : narrowAttribute how (resolveInner d how steps) r s (.only fields) a g = (.ok acc', g')) :
    acc'.Selects a.name := by
  rcases narrowAttribute_eq_ok h with ⟨-, hnone | ⟨-, hunset⟩⟩ | ⟨v, g₁, t, -, -, ht, rfl⟩
  · rw [hs] at hnone
    cases hnone
  · rw [lift_value?_made hr, Graph.value?, hset] at hunset
    cases hunset
  · rw [hunion] at ht
    have ht := narrow_isNone (fun _ _ _ _ _ => resolveInner_isNone) hs ht
    rw [Selector.Selects, Selector.get_set_self ht, Selector.isNone_normalize]
    exact ht

theorem narrowAttribute_keeps_selects {steps : Nat} (hunion : how.aggregation = .union)
    {r : RecordRef} {s : Selector} {fields : Fields Selector} {acc' : Selector} {a : Attribute}
    {g g' : Graph} {name : String} (hname : (Selector.only fields).Selects name)
    (h : narrowAttribute how (resolveInner d how steps) r s (.only fields) a g = (.ok acc', g')) :
    acc'.Selects name := by
  rcases narrowAttribute_eq_ok h with ⟨rfl, -⟩ | ⟨v, g₁, t, hs, -, ht, rfl⟩
  · exact hname
  · rw [hunion] at ht
    have ht := narrow_isNone (fun _ _ _ _ _ => resolveInner_isNone) hs ht
    by_cases heq : name = a.name
    · rw [heq, Selector.Selects, Selector.get_set_self ht, Selector.isNone_normalize]
      exact ht
    · rw [Selector.Selects, Selector.get_set_of_ne ht heq]
      exact hname

/-- What a selector is resolved to against a record that is not being resolved. -/
theorem resolve_eq_ok (hd : d.Lawful) (hunion : how.aggregation = .union)
    (hall : how.setOnly = false) {r : RecordRef} (hr : r.base? = none) {s s' : Selector}
    (hs : s.isNone = false) {g g' : Graph} (hcalm : g.isResolving r = false) {J : Graph → Prop}
    (hJ : ∀ steps, ∀ a ∈ d.attributes r.cls, ∀ acc g acc' g', J g →
      narrowAttribute how (resolveInner d how steps) r s.normalize acc a g = (.ok acc', g') → J g')
    (hg : J (g.markResolving r true)) (h : resolve d how r s g = (.ok s', g')) :
    ∃ steps g₁ fields, s' = .only fields ∧ J g₁ ∧ g' = g₁.markResolving r false ∧
      Narrowed how (resolveInner d how steps) J r s.normalize (d.attributes r.cls) fields := by
  obtain ⟨steps, g₁, hsteps, hresolve⟩ := Stateful.bind_eq_ok h
  cases hsteps
  have hpositive : g.cells.size + s.depth + 2 = (g.cells.size + s.depth + 1) + 1 := rfl
  rw [hpositive] at hresolve
  rcases resolveWithin_eq_ok hs hresolve with ⟨hresolving, -⟩ | ⟨g₂, hfold, rfl⟩
  · rw [hcalm] at hresolving
    cases hresolving
  · obtain ⟨fields, rfl, hnarrowed⟩ := foldlM_narrowAttribute_eq_ok
      (fun _ _ _ _ _ => resolveInner_isNone) hunion hall hr
      (hd.definition r.cls).names_nodup (hJ _) hg hfold
    have hg₂ : J g₂ := Stateful.foldlM_invariant (P := fun _ g => J g)
      (fun a ha acc g acc' g' => hJ _ a ha acc g acc' g') hg hfold
    exact ⟨_, g₂, fields, rfl, hg₂, rfl, hnarrowed⟩

/-- A resolved selector selects something of every set attribute of which something was selected. -/
theorem resolveWithin_selects (hunion : how.aggregation = .union) {steps : Nat} {r : RecordRef}
    (hr : r.base? = none) {s s' : Selector} {a : Attribute} (ha : a ∈ d.attributes r.cls)
    (hs : s.Selects a.name) {g g' : Graph} {slot : Slot}
    (hset : g.own? r a.name = some (some slot))
    (h : resolveWithin d how steps r s g = (.ok s', g')) : s'.Selects a.name := by
  cases steps with
  | zero => cases h
  | succ steps =>
    have hsome : s.isNone = false := by
      cases s with
      | none => cases hs
      | _ => rfl
    rcases resolveWithin_eq_ok hsome h with ⟨-, rfl⟩ | ⟨g₁, hfold, -⟩
    · exact hs.normalize
    · have hset' : (g.markResolving r true).own? r a.name = some (some slot) := by
        rwa [Graph.own?_markResolving]
      let I : Selector → Graph → Prop := fun acc g =>
        (∃ fields, acc = .only fields) ∧ g.own? r a.name = some (some slot)
      have hI : ∀ a' ∈ d.attributes r.cls, ∀ acc g acc' g', I acc g →
          narrowAttribute how (resolveInner d how steps) r s.normalize acc a' g = (.ok acc', g') →
          I acc' g' := by
        rintro a' - _ g acc' g' ⟨⟨fields, rfl⟩, hown⟩ hstep
        have hreading := readsOnly_allowsReading g
        have hreads : ReadsOnly g g' := .of_run (hreading.narrowAttribute how
          (fun _ inner s hinner => hreading.resolveInner how steps hinner s) (Set.mem_univ r) _ _
          a') hstep
        exact ⟨narrowAttribute_only hstep, hreads.keeps _ _ _ hown⟩
      refine Stateful.foldlM_reaches (I := I) (P := fun acc _ => acc.Selects a.name) hI ha ?_ ?_
        ⟨⟨[], rfl⟩, hset'⟩ hfold
      · rintro _ g acc' g' ⟨⟨fields, rfl⟩, hown⟩ hstep
        exact narrowAttribute_selects hunion hr hs.normalize hown hstep
      · rintro a' - _ g acc' g' ⟨⟨fields, rfl⟩, -⟩ hselects hstep
        exact narrowAttribute_keeps_selects hunion hselects hstep

theorem resolve_selects (hunion : how.aggregation = .union) {r : RecordRef} (hr : r.base? = none)
    {s s' : Selector} {a : Attribute} (ha : a ∈ d.attributes r.cls) (hs : s.Selects a.name)
    {g g' : Graph} {slot : Slot} (hset : g.own? r a.name = some (some slot))
    (h : resolve d how r s g = (.ok s', g')) : s'.Selects a.name := by
  obtain ⟨steps, g₁, hsteps, hresolve⟩ := Stateful.bind_eq_ok h
  cases hsteps
  exact resolveWithin_selects hunion hr ha hs hset hresolve

end Record

end TypedRecords
