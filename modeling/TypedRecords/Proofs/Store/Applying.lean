import TypedRecords.Store.Session
import TypedRecords.Proofs.Document.Entire
import TypedRecords.Proofs.Record.Legible

/-! # Reading a document into a record

A record that holds nothing but keys is read with all of its attributes. What is read is assigned to
the record; its other attributes become undefined where they may be, and are unset elsewhere.
-/

namespace TypedRecords

open TypedRecords.Graph (Leaves)

variable {d : Directory} {registry : RegistryRef} {r : RecordRef} {g g' : Graph}

/-! ### The selector -/

/-- All attributes of a class, each entirely. -/
def Directory.entire (d : Directory) (c : ClassRef) : Selector :=
  .entire ((d.attributes c).map Attribute.name)

namespace Record

/-- Where a record has no more than keys, a selector stays as it is for what refers to records. -/
theorem narrow_of_key {combine : Selector → Selector → Selector}
    {onRecord : RecordRef → Selector → Action Selector} (t : ValueType) {s : Selector}
    (hs : s.isNone = false) {v : Option Value} (hv : ∀ w, v = some w → w.IsKey) :
    t.narrow combine onRecord s v =
      pure (if t.recordClass?.isSome then s.normalize else .all) := by
  induction t generalizing v with
  | scalar kind traits =>
    simp only [ValueType.narrow, hs, Bool.false_eq_true, if_false]
    rfl
  | array item traits ih =>
    have hitem : item.narrow combine onRecord s none =
        pure (if item.recordClass?.isSome then s.normalize else .all) := ih fun w hw => by cases hw
    have hclass : (ValueType.array item traits).recordClass? = item.recordClass? := rfl
    rw [hclass, ← hitem]
    cases v with
    | none => simp only [ValueType.narrow, hs, Bool.false_eq_true, if_false]
    | some w =>
      rcases hv w rfl with ⟨text, rfl⟩ | ⟨x, rfl⟩ <;>
        simp only [ValueType.narrow, hs, Bool.false_eq_true, if_false]
  | reference name toClass traits =>
    cases toClass with
    | true =>
      simp only [ValueType.narrow, hs, Bool.false_eq_true, if_false]
      rfl
    | false =>
      cases v with
      | none =>
        simp only [ValueType.narrow, hs, Bool.false_eq_true, if_false]
        rfl
      | some w =>
        rcases hv w rfl with ⟨text, rfl⟩ | ⟨x, rfl⟩ <;>
          simp only [ValueType.narrow, hs, Bool.false_eq_true, if_false] <;> rfl

theorem narrow_all_of_key {combine : Selector → Selector → Selector}
    {onRecord : RecordRef → Selector → Action Selector} (t : ValueType) {v : Option Value}
    (hv : ∀ w, v = some w → w.IsKey) : t.narrow combine onRecord .all v = pure .all := by
  rw [narrow_of_key t rfl hv]
  split <;> rfl

theorem foldlM_narrowAttribute_bare {onRecord : RecordRef → Selector → Action Selector}
    (hr : r.base? = none) (hkeys : ∀ name v, g.value? r name = some v → v.IsKey)
    {attributes : List Attribute} (before : List String)
    (hnodup : (before ++ attributes.map Attribute.name).Nodup) :
    attributes.foldlM (narrowAttribute {} onRecord r .all) (.entire before) g =
      (.ok (.entire (before ++ attributes.map Attribute.name)), g) := by
  induction attributes generalizing before with
  | nil =>
    rw [List.map_nil, List.append_nil]
    rfl
  | cons a rest ih =>
    have hunused : a.name ∉ Fields.keys (before.map fun name => (name, Selector.all)) := by
      have hbefore : Fields.keys (before.map fun name => (name, Selector.all)) = before := by
        simp [Fields.keys, Function.comp_def]
      rw [hbefore]
      intro hmem
      exact (List.nodup_append.1 hnodup).2.2 a.name hmem a.name List.mem_cons_self rfl
    have hstep : narrowAttribute {} onRecord r .all (.entire before) a g =
        (.ok (.entire (before ++ [a.name])), g) := by
      have hset : (Selector.entire before).set a.name .all = .entire (before ++ [a.name]) := by
        simp only [Selector.entire, Selector.set, isNone_all, Bool.false_eq_true, if_false,
          Fields.insert_of_not_mem hunused, List.map_append, List.map_cons, List.map_nil,
          Selector.normalize]
      have hunfold : narrowAttribute {} onRecord r .all (.entire before) a = (do
          let v ← lift (r.value? a.name)
          let narrowed ← a.type.narrow Selector.merge onRecord .all v
          pure ((Selector.entire before).set a.name narrowed)) := rfl
      rw [hunfold, Stateful.bind_of_ok (lift_value?_made hr a.name g),
        narrow_all_of_key a.type fun w hw => hkeys a.name w hw, ← hset]
      rfl
    rw [List.foldlM_cons, Stateful.bind_of_ok hstep, ih (before ++ [a.name])]
    · simp
    · simpa using hnodup

/-- A record that holds nothing but keys is resolved to all of its attributes. -/
theorem resolve_of_bare (hd : d.Lawful) (hr : r.Bare g) :
    resolve d {} r .all g = (.ok (d.entire r.cls), g) := by
  obtain ⟨cell, hcell, hresolving⟩ := hr.cell
  have hunresolved : g.isResolving r = false := by
    rw [Graph.isResolving, hcell]
    exact hresolving
  have hkeys : ∀ name v, (g.markResolving r true).value? r name = some v → v.IsKey := by
    intro name v hv
    rw [Graph.value?_congr (Graph.own?_markResolving g r true r name), Graph.value?_eq_some_iff] at hv
    obtain ⟨source, hown⟩ := hv
    obtain ⟨slot, hslot, hkey⟩ := hr.keys name _ hown
    cases hslot
    exact hkey
  have hsteps : stepsFor .all g = (.ok (g.cells.size + 2), g) := rfl
  have hunfold : resolveWithin d {} (g.cells.size + 2) r .all = (do
      if (← get).isResolving r then pure .all
      else
        modify fun g => g.markResolving r true
        let resolved ← (d.attributes r.cls).foldlM
          (narrowAttribute {} (resolveInner d {} (g.cells.size + 1)) r .all) (.only [])
        modify fun g => g.markResolving r false
        pure resolved) := rfl
  have hget : (MonadState.get : Action Graph) g = (.ok g, g) := rfl
  have hon : (modify fun g => g.markResolving r true : Action PUnit) g =
      (.ok (), g.markResolving r true) := rfl
  have hfold : (d.attributes r.cls).foldlM
      (narrowAttribute {} (resolveInner d {} (g.cells.size + 1)) r .all) (.only [])
      (g.markResolving r true) = (.ok (d.entire r.cls), g.markResolving r true) :=
    foldlM_narrowAttribute_bare hr.made hkeys [] (hd.definition r.cls).names_nodup
  unfold resolve
  rw [Stateful.bind_of_ok hsteps, hunfold, Stateful.bind_of_ok hget, hunresolved,
    if_neg Bool.false_ne_true, Stateful.bind_of_ok hon, Stateful.bind_of_ok hfold]
  show (Except.ok (d.entire r.cls), (g.markResolving r true).markResolving r false) = _
  rw [Graph.markResolving_markResolving hunresolved]

end Record

namespace Store

theorem withReferenceIdentifiers_entire (d : Directory) (c : ClassRef) :
    withReferenceIdentifiers d c (d.entire c) = d.entire c := by
  have hselected : ∀ a ∈ d.attributes c, (d.entire c).get a.name = .all :=
    fun a ha => Selector.get_entire (List.mem_map_of_mem ha)
  unfold withReferenceIdentifiers
  generalize hattributes : d.attributes c = attributes at hselected
  clear hattributes
  induction attributes with
  | nil => rfl
  | cons a rest ih =>
    obtain ⟨ha, hrest⟩ := List.forall_mem_cons.1 hselected
    rw [List.foldl_cons, ha]
    exact ih hrest

theorem readSelector_of_bare (hd : d.Lawful) (hr : r.Bare g) :
    readSelector d r .all g = (.ok (d.entire r.cls), g) := by
  unfold readSelector
  rw [Selector.merge_all, Stateful.bind_of_ok (Record.resolve_of_bare hd hr)]
  rw [withReferenceIdentifiers_entire]
  rfl

/-! ### Missing attributes -/

/-- What an attribute becomes that a document leaves out. -/
def missingSlot (a : Attribute) : Option Slot :=
  if a.type.allowsUndefined then some ⟨.undefined, .store⟩ else none

theorem assignMissing_of_attribute {a : Attribute} {name : String}
    (ha : (d.definition r.cls).attribute? name = some a) (g : Graph) :
    assignMissing d r name g = (.ok (), g.write r name (missingSlot a)) := by
  have hnamed := Record.attributeNamed_of_some ha
  unfold assignMissing missingSlot
  rw [Stateful.bind_of_ok (Record.ofExcept_of_ok hnamed g)]
  by_cases hundefined : a.type.allowsUndefined = true
  · rw [if_pos hundefined, if_pos hundefined]
    exact Record.setFrom_of_check ha (ValueType.check_undefined hundefined) g
  · rw [if_neg hundefined, if_neg hundefined]
    unfold Record.unset
    rw [Stateful.bind_of_ok (Record.ofExcept_of_ok hnamed g)]
    rfl

/-- Assigning what is missing touches nothing else. -/
theorem forM_assignMissing {names : List String}
    (hnames : ∀ name ∈ names, ∃ a, (d.definition r.cls).attribute? name = some a) {cell : Cell}
    (hcell : g.cell? r = some cell) :
    ∃ g', names.forM (assignMissing d r) g = (.ok (), g') ∧ Leaves (· ≠ r.serial) g g' ∧
      (∀ name ∉ names, g'.own? r name = g.own? r name) ∧
      ∀ name ∈ names, ∀ a, (d.definition r.cls).attribute? name = some a →
        g'.own? r name = some (missingSlot a) := by
  induction names generalizing g cell with
  | nil => exact ⟨g, rfl, .refl _ g, fun _ _ => rfl, by simp⟩
  | cons name rest ih =>
    obtain ⟨⟨a, ha⟩, hrest⟩ := List.forall_mem_cons.1 hnames
    have hcell' := Graph.cell?_write_self hcell name (missingSlot a)
    obtain ⟨g', hrun, hleaves, hother, hmissing⟩ := ih hrest hcell'
    have hwrite : Leaves (· ≠ r.serial) g (g.write r name (missingSlot a)) :=
      (Leaves.refl _ g).modify (.inr fun hne => hne rfl) _
    refine ⟨g', ?_, hwrite.trans hleaves, ?_, ?_⟩
    · rw [List.forM, Stateful.bind_of_ok (assignMissing_of_attribute ha g)]
      exact hrun
    · intro other hunlisted
      obtain ⟨hne, hunlistedRest⟩ := not_or.1 (List.mem_cons.not.1 hunlisted)
      rw [hother other hunlistedRest, Graph.own?_write_of_name_ne hne]
    · intro other hlisted b hb
      by_cases hlater : other ∈ rest
      · exact hmissing other hlater b hb
      · obtain rfl := (List.mem_cons.1 hlisted).resolve_right hlater
        rw [ha] at hb
        cases hb
        rw [hother other hlater, Graph.own?_write_self hcell]

/-! ### Documents -/

theorem decodeInto_of_tagged {picked : Document}
    (htag : Fields.get? Tree.classTag picked = some (.string r.className))
    (hnew : Fields.get? Tree.newTag picked = none) (g : Graph) :
    Record.decodeInto d registry .store r (.object picked) g =
      Record.decodeAttributes d registry .store r picked g := by
  simp only [Record.decodeInto, htag, hnew, if_true]

/-- What applying a document to a record comes to: its fields are assigned, then what it leaves
out. -/
structure Applied (d : Directory) (registry : RegistryRef) (r : RecordRef)
    (document picked : Document) (g g₁ g' : Graph) : Prop where
  distinct : Fields.Distinct picked
  same : ∀ name, Fields.get? name picked = Fields.get? name document
  assigned : Record.decodeAttributes d registry .store r picked g = (.ok (), g₁)
  leaves : Leaves (· ≠ r.serial) g₁ g'
  held : ∀ a ∈ d.attributes r.cls, a.name ∈ Fields.keys document →
    g'.own? r a.name = g₁.own? r a.name
  missing : ∀ a ∈ d.attributes r.cls, a.name ∉ Fields.keys document →
    g'.own? r a.name = some (missingSlot a)

/-- What is picked of a legible document has its fields. -/
theorem pick_of_legible (hd : d.Lawful) (hnamed : d.WellNamed) {checked : Prop} {c : ClassRef}
    {document : Document} (h : Document.Legible d registry checked c document) :
    ∃ picked, Selector.pick [Tree.classTag] (d.entire c)
        (.object (Document.project document (Projection.ofSelector? (d.entire c)))) =
          .object picked ∧
      Fields.Distinct picked ∧ ∀ name, Fields.get? name picked = Fields.get? name document := by
  refine Selector.pick_project (hd.definition c).names_nodup ?_ ?_ ?_ ?_
  · intro name hname
    obtain ⟨a, ha, rfl⟩ := List.mem_map.1 hname
    exact (hnamed c a ha).1
  · intro hmem
    obtain ⟨a, ha, heq⟩ := List.mem_map.1 hmem
    exact hnamed.ne_classTag c a ha heq
  · intro name v hv
    by_cases hclass : name = Tree.classTag
    · rw [hclass, h.tag] at hv
      cases hv
      simp
    · exact Tree.Readable.ne_undefined (h.readable _ (Fields.mem_of_get? hv) hclass)
  · intro name hname
    by_cases hclass : name = Tree.classTag
    · exact .inl hclass
    · obtain ⟨v, hv⟩ := Fields.mem_keys_iff.1 hname
      obtain ⟨-, a, ha, -⟩ := h.accepts _ (Fields.mem_of_get? hv) hclass
      refine .inr (List.mem_map.2 ⟨a, Definition.mem_of_attribute? ha, ?_⟩)
      exact (hd.definition c).name_of_attribute? ha

theorem newTag_of_legible {checked : Prop} {c : ClassRef} {document : Document}
    (h : Document.Legible d registry checked c document) :
    Fields.get? Tree.newTag document = none := by
  rw [Fields.get?_eq_none_iff]
  intro hmem
  obtain ⟨t, ht⟩ := Fields.mem_keys_iff.1 hmem
  have hne : Tree.newTag ≠ Tree.classTag := by decide
  exact (h.accepts _ (Fields.mem_of_get? ht) hne).1 rfl

theorem filter_missing (names : List String) {document picked : Document}
    (hsame : ∀ name, Fields.get? name picked = Fields.get? name document) :
    names.filter (fun name => !Fields.contains name picked) =
      names.filter (fun name => !Fields.contains name document) := by
  refine List.filter_congr fun name _ => ?_
  rw [Fields.contains, Fields.contains, hsame]

theorem applyDocument_eq (hd : d.Lawful) (hnamed : d.WellNamed) {checked : Prop}
    {document : Document} (h : Document.Legible d registry checked r.cls document) :
    ∃ picked, Document.Legible d registry checked r.cls picked ∧
      (∀ name, Fields.get? name picked = Fields.get? name document) ∧
      ∀ g, applyDocument d registry r (d.entire r.cls)
          (Document.project document (Projection.ofSelector? (d.entire r.cls))) g =
        (do
          Record.decodeAttributes d registry .store r picked
          (((d.attributes r.cls).map Attribute.name).filter fun name =>
            !Fields.contains name document).forM (assignMissing d r)
          Record.mark r false : Action Unit) g := by
  obtain ⟨picked, hpick, hdistinct, hsame⟩ := pick_of_legible hd hnamed h
  have hlegible := h.of_same hdistinct hsame
  refine ⟨picked, hlegible, hsame, ?_⟩
  intro g
  have hinto : Record.decodeInto d registry .store r (.object picked) =
      Record.decodeAttributes d registry .store r picked :=
    funext (decodeInto_of_tagged hlegible.tag (newTag_of_legible hlegible))
  have hmissing := filter_missing (d.entire r.cls).names hsame
  unfold applyDocument
  rw [hpick]
  simp only [hinto, hmissing]
  rw [Directory.entire, Selector.names_entire]

theorem forM_missing (document : Document) (hd : d.Lawful) {cell : Cell}
    (hcell : g.cell? r = some cell) :
    ∃ g', (((d.attributes r.cls).map Attribute.name).filter fun name =>
        !Fields.contains name document).forM (assignMissing d r) g = (.ok (), g') ∧
      Leaves (· ≠ r.serial) g g' ∧
      (∀ a ∈ d.attributes r.cls, a.name ∈ Fields.keys document →
        g'.own? r a.name = g.own? r a.name) ∧
      ∀ a ∈ d.attributes r.cls, a.name ∉ Fields.keys document →
        g'.own? r a.name = some (missingSlot a) := by
  have hattribute : ∀ name ∈ ((d.attributes r.cls).map Attribute.name).filter
      (fun name => !Fields.contains name document),
      ∃ a, (d.definition r.cls).attribute? name = some a := by
    intro name hname
    obtain ⟨a, ha, rfl⟩ := List.mem_map.1 (List.mem_filter.1 hname).1
    exact ⟨a, (hd.definition r.cls).attribute?_of_mem ha⟩
  obtain ⟨g', hrun, hleaves, hother, hmissing⟩ := forM_assignMissing hattribute hcell
  refine ⟨g', hrun, hleaves, ?_, ?_⟩
  · intro a ha hmem
    refine hother a.name fun hlisted => ?_
    have hcontains := Fields.contains_iff.2 hmem
    have hfiltered := (List.mem_filter.1 hlisted).2
    rw [hcontains] at hfiltered
    cases hfiltered
  · intro a ha hmem
    refine hmissing a.name (List.mem_filter.2 ⟨List.mem_map_of_mem ha, ?_⟩) a
      ((hd.definition r.cls).attribute?_of_mem ha)
    rw [Bool.not_eq_true', ← Bool.not_eq_true, Fields.contains_iff]
    exact hmem

theorem cell?_of_decodeAttributes {fields : Object} {cell : Cell} (hdistinct : Fields.Distinct fields)
    (hnew : ∀ entry ∈ fields, entry.1 ≠ Tree.newTag) (hcell : g.cell? r = some cell)
    (h : Record.decodeAttributes d registry .store r fields g = (.ok (), g')) :
    ∃ slots, g'.cell? r = some { cell with slots } :=
  (Record.decodeAttributes_assigns hdistinct hnew hcell h).cell cell hcell

theorem applyDocument_eq_ok (hd : d.Lawful) (hnamed : d.WellNamed) {checked : Prop}
    {document : Document} (hdocument : Document.Legible d registry checked r.cls document)
    {cell : Cell} (hcell : g.cell? r = some cell)
    (h : applyDocument d registry r (d.entire r.cls)
      (Document.project document (Projection.ofSelector? (d.entire r.cls))) g = (.ok (), g')) :
    ∃ picked g₁, Applied d registry r document picked g g₁ g' := by
  obtain ⟨picked, hlegible, hsame, hrun⟩ := applyDocument_eq hd hnamed hdocument
  rw [hrun] at h
  obtain ⟨_, g₁, hassigned, hrest⟩ := Stateful.bind_eq_ok h
  obtain ⟨slots, hcell₁⟩ := cell?_of_decodeAttributes hlegible.distinct
    (Record.ne_newTag hlegible.accepts) hcell hassigned
  obtain ⟨g₂, hmissing, hleaves, hheld, hunset⟩ := forM_missing document hd hcell₁
  rw [Stateful.bind_of_ok hmissing] at hrest
  cases hrest
  refine ⟨picked, g₁, hlegible.distinct, hsame, hassigned, ?_, ?_, ?_⟩
  · exact hleaves.modify (.inr fun hne => hne rfl) _
  · intro a ha hmem
    rw [Graph.own?_mark, hheld a ha hmem]
  · intro a ha hmem
    rw [Graph.own?_mark, hunset a ha hmem]

theorem applyDocument_of_legible (hd : d.Lawful) (hnamed : d.WellNamed)
    {document : Document} (hdocument : Document.Legible d registry True r.cls document)
    {cell : Cell} (hcell : g.cell? r = some cell) :
    ∃ g', applyDocument d registry r (d.entire r.cls)
      (Document.project document (Projection.ofSelector? (d.entire r.cls))) g = (.ok (), g') := by
  obtain ⟨picked, hlegible, -, hrun⟩ := applyDocument_eq hd hnamed hdocument
  have hfields : ∀ entry ∈ picked, entry.1 ≠ Tree.classTag →
      Tree.Accepts d registry True r.cls entry.1 entry.2 ∧
        ∀ g, ∃ v g', Record.decode d registry .store entry.2 g = (.ok v, g') ∧
          v.sketch = Tree.outline d registry entry.2 := by
    intro entry hentry hne
    refine ⟨hlegible.accepts entry hentry hne, ?_⟩
    intro g
    have hreadable := hlegible.readable entry hentry hne
    obtain ⟨v, g', hv⟩ := Record.decode_of_readable hd hreadable g
    exact ⟨v, g', hv, (Record.decode_fresh hd hreadable hv).1⟩
  obtain ⟨g₁, hassigned⟩ := Record.decodeAttributes_of_ok hfields g
  obtain ⟨slots, hcell₁⟩ := cell?_of_decodeAttributes hlegible.distinct
    (Record.ne_newTag hlegible.accepts) hcell hassigned
  obtain ⟨g₂, hmissing, -⟩ := forM_missing document hd hcell₁
  refine ⟨g₂.mark r false, ?_⟩
  rw [hrun, Stateful.bind_of_ok hassigned, Stateful.bind_of_ok hmissing]
  rfl

end Store

end TypedRecords
