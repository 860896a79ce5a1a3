import TypedRecords.Proofs.Document.Stored
import TypedRecords.Proofs.Record.Restored
import TypedRecords.Proofs.Store.Conveying

/-! # What a new record leaves unset

Undefined fields are left out of what is stored of an embedded record, and a record that is made from it
has no more attributes than there are fields. So the attributes that were undefined are unset.
-/

namespace TypedRecords

open TypedRecords.Graph (Leaves)

/-! ### Places in a value -/

/-- A step into a value: to an item of an array, to a field of an object, or to an attribute of an embedded
record. -/
inductive Value.Step
  | item (i : Nat)
  | field (name : String)
  | inside (name : String)

namespace Graph

variable (d : Directory) (g : Graph)

/-- What an embedded record sees in one of its attributes. -/
def inside? (r : RecordRef) (name : String) : Option Value :=
  if (d.definition r.cls).referenceable then none
  else ((d.definition r.cls).attribute? name).bind fun _ => g.seen? r name

/-- What a step leads to. -/
def descend? : Value.Step → Value → Option Value
  | .item i, .array items => items[i]?
  | .field name, .object fields => Fields.get? name fields
  | .inside name, .record r => g.inside? d r name
  | _, _ => none

/-- What stands at a place in a value. -/
def part? : List Value.Step → Value → Option Value
  | [], v => some v
  | step :: place, v => (g.descend? d step v).bind (part? place)

end Graph

/-- Wherever an embedded record stands in a value, one of its class stands in another value. Of the
attributes that are set on the one, exactly those are unset on the other that are undefined. -/
def Omits (d : Directory) (g g' : Graph) (v v' : Value) : Prop :=
  ∀ place r, g.part? d place v = some (.record r) → (d.definition r.cls).referenceable = false →
    ∃ r', g'.part? d place v' = some (.record r') ∧ r'.cls = r.cls ∧
      ∀ a ∈ d.attributes r.cls, ∀ u, g.seen? r a.name = some u →
        (g'.seen? r' a.name = none ↔ u = .undefined)

variable {d : Directory} {registry : RegistryRef} {full : Prop} {g g' G G' : Graph} {v v' t w : Value}
  {r r' : RecordRef} {place : List Value.Step}

theorem Graph.ne_undefined_of_part? (h : g.part? d place v = some (.record r)) : v ≠ .undefined := by
  rintro rfl
  cases place with
  | nil => cases h
  | cons step place => cases step <;> cases h

namespace Omits

/-- Nothing is left out of a value that no steps lead into. -/
theorem of_descend? (hv : ∀ r, v = .record r → (d.definition r.cls).referenceable = true)
    (h : ∀ step, g.descend? d step v = none) : Omits d g g' v v' := by
  intro place r hplace hembedded
  cases place with
  | nil =>
    rw [hv r (Option.some.inj hplace)] at hembedded
    cases hembedded
  | cons step place =>
    rw [Graph.part?, h step] at hplace
    cases hplace

theorem array {items items' : List Value}
    (h : ∀ (i : Nat) v, items[i]? = some v → v ≠ .undefined →
      ∃ v', items'[i]? = some v' ∧ Omits d g g' v v') :
    Omits d g g' (.array items) (.array items') := by
  intro place r hplace hembedded
  cases place with
  | nil => cases hplace
  | cons step place =>
    obtain ⟨v, hv, hrest⟩ := Option.bind_eq_some_iff.1 hplace
    cases step with
    | item i =>
      have hdefined := Graph.ne_undefined_of_part? hrest
      obtain ⟨v', hv', homits⟩ := h i v hv hdefined
      obtain ⟨r', hr', hunset⟩ := homits place r hrest hembedded
      exact ⟨r', Option.bind_eq_some_iff.2 ⟨v', hv', hr'⟩, hunset⟩
    | field name => cases hv
    | inside name => cases hv

theorem object {fields fields' : Object}
    (h : ∀ name v, Fields.get? name fields = some v → v ≠ .undefined →
      ∃ v', Fields.get? name fields' = some v' ∧ Omits d g g' v v') :
    Omits d g g' (.object fields) (.object fields') := by
  intro place r hplace hembedded
  cases place with
  | nil => cases hplace
  | cons step place =>
    obtain ⟨v, hv, hrest⟩ := Option.bind_eq_some_iff.1 hplace
    cases step with
    | field name =>
      have hdefined := Graph.ne_undefined_of_part? hrest
      obtain ⟨v', hv', homits⟩ := h name v hv hdefined
      obtain ⟨r', hr', hunset⟩ := homits place r hrest hembedded
      exact ⟨r', Option.bind_eq_some_iff.2 ⟨v', hv', hr'⟩, hunset⟩
    | item i => cases hv
    | inside name => cases hv

theorem record (hd : d.Lawful) (hembedded : (d.definition r.cls).referenceable = false)
    (hcls : r'.cls = r.cls)
    (hunset : ∀ a ∈ d.attributes r.cls, g.seen? r a.name = some .undefined →
      g'.seen? r' a.name = none)
    (hset : ∀ a ∈ d.attributes r.cls, ∀ v, g.seen? r a.name = some v → v ≠ .undefined →
      ∃ v', g'.seen? r' a.name = some v' ∧ Omits d g g' v v') :
    Omits d g g' (.record r) (.record r') := by
  intro place q hplace hq
  cases place with
  | nil =>
    cases hplace
    refine ⟨r', rfl, hcls, fun a ha u hu => ⟨fun hnone => ?_, ?_⟩⟩
    · by_contra hdefined
      obtain ⟨u', hu', -⟩ := hset a ha u hu hdefined
      rw [hnone] at hu'
      cases hu'
    · rintro rfl
      exact hunset a ha hu
  | cons step place =>
    obtain ⟨v, hv, hrest⟩ := Option.bind_eq_some_iff.1 hplace
    cases step with
    | inside name =>
      have hdefined := Graph.ne_undefined_of_part? hrest
      have hinside : g.inside? d r name = some v := hv
      rw [Graph.inside?, if_neg (by simp [hembedded])] at hinside
      obtain ⟨a, ha, hseen⟩ := Option.bind_eq_some_iff.1 hinside
      have hname := (hd.definition r.cls).name_of_attribute? ha
      obtain ⟨v', hv', homits⟩ := hset a (Definition.mem_of_attribute? ha) v (hname ▸ hseen) hdefined
      obtain ⟨q', hq', hunset⟩ := homits place q hrest hq
      refine ⟨q', Option.bind_eq_some_iff.2 ⟨v', ?_, hq'⟩, hunset⟩
      show g'.inside? d r' name = some v'
      rw [Graph.inside?, hcls, if_neg (by simp [hembedded]), ha, Option.bind_some, ← hname]
      exact hv'
    | item i => cases hv
    | field name => cases hv

end Omits

/-! ### Trees of records -/

namespace Encodes

theorem wellFormed (hd : d.Lawful) (hnamed : d.WellNamed) (h : Encodes full d registry g v t) :
    t.WellFormed := by
  induction h with
  | @leaf v hleaf => cases v <;> trivial
  | undefined => trivial
  | @array items trees hlength _ ih =>
    refine Value.wellFormed_array.2 fun t ht => ?_
    obtain ⟨i, hi, rfl⟩ := List.getElem_of_mem ht
    have hi' : i < items.length := by omega
    exact ih i _ _ (List.getElem?_eq_getElem hi') (List.getElem?_eq_getElem hi)
  | @object fields trees _ hdistinct hnames _ ih =>
    have hdistinctTrees := hdistinct.of_keys_eq hnames
    refine Value.wellFormed_object.2 ⟨hdistinctTrees, fun entry hentry => ?_⟩
    have hread := Fields.get?_of_mem hdistinctTrees hentry
    obtain ⟨v, hv⟩ := Fields.exists_get?_of_keys_eq hnames.symm hread
    exact ih entry.1 v entry.2 hv hread
  | classRef _ =>
    exact Value.wellFormed_object.2 ⟨List.nodup_singleton _, fun entry hentry => by
      rw [List.mem_singleton.1 hentry]
      trivial⟩
  | @reference r name v _ _ _ hkey _ haccepted =>
    obtain ⟨a, ha, -⟩ := haccepted
    obtain ⟨-, hclass, -⟩ := hd.wellNamed_of_attribute? hnamed ha
    refine Value.wellFormed_object.2 ⟨?_, fun entry hentry => ?_⟩
    · simpa [Fields.Distinct, Fields.keys] using Ne.symm hclass
    · rcases List.mem_pair.1 hentry with rfl | rfl
      · trivial
      · rcases hkey with ⟨s, rfl⟩ | ⟨x, rfl⟩ <;> trivial
  | @embedded r trees value _ _ htag hdistinct _ _ _ ih =>
    refine Value.wellFormed_object.2 ⟨hdistinct, fun entry hentry => ?_⟩
    have hread := Fields.get?_of_mem hdistinct hentry
    by_cases hne : entry.1 = Tree.classTag
    · rw [hne, htag] at hread
      rw [← Option.some.inj hread]
      trivial
    · exact ih entry.1 entry.2 hread hne

theorem eq_undefined (h : Encodes full d registry g .undefined t) : t = .undefined := by
  cases h with
  | leaf hleaf => cases hleaf
  | undefined => rfl

end Encodes

/-! ### Records that are made anew -/

/-- A tagged object is decoded to a new record. It sees what the fields were decoded to, and nothing
else. -/
theorem Record.decode_new (hnamed : d.WellNamed) {c : ClassRef} {fields : Object}
    (htag : Fields.get? Tree.classTag fields = some (.string c.name))
    (hname : Tree.classNamed? c.name = none) (hfound : d.find? registry c.name = some c)
    (hdistinct : Fields.Distinct fields)
    (hdecode : decode d registry .store (.object fields) G = (.ok v', G'))
    (hleaves : Leaves (G.cells.size ≤ ·) G' g') :
    ∃ r, v' = .record r ∧ r.cls = c ∧ ∀ a ∈ d.attributes c,
      (Fields.get? a.name fields = none → g'.seen? r a.name = none) ∧
      ∀ t, Fields.get? a.name fields = some t → ∃ v, g'.seen? r a.name = some v ∧
        ∃ ga gb, decode d registry .store t ga = (.ok v, gb) ∧ Leaves (ga.cells.size ≤ ·) gb g' := by
  obtain ⟨rfl, hattributes⟩ := decode_record_eq_ok htag hname hfound hdecode
  have hcell := Graph.cell?_instantiate_self G c (Tree.isMarkedNew fields)
  have hassigns := assigns_of_distinct hdistinct hcell hattributes
  have hlt : G.cells.size < (G.instantiate c (Tree.isMarkedNew fields)).2.cells.size :=
    Graph.lt_of_cell? hcell
  have hown : ∀ name, g'.own? (.made G.cells.size c) name = G'.own? (.made G.cells.size c) name :=
    hleaves.own? (hlt.trans_le hassigns.leaves.size) (Nat.le_refl _)
  refine ⟨.made G.cells.size c, rfl, rfl, fun a ha => ?_⟩
  obtain ⟨-, hclass, hnewTag⟩ := hnamed c a ha
  have hfilter : Fields.get? a.name (fields.filter fun e => e.1 != Tree.newTag) =
      Fields.get? a.name fields := Fields.get?_filter fun _ => by simpa using hnewTag
  refine ⟨fun hnone => ?_, fun t ht => ?_⟩
  · rw [← hfilter, Fields.get?_eq_none_iff] at hnone
    have hunset : G'.own? (.made G.cells.size c) a.name = none :=
      hassigns.own?_new fun t hmem => absurd (Fields.mem_keys_of_mem hmem) hnone
    rw [seen?_made rfl, Graph.value?, hown, hunset]
    rfl
  · obtain ⟨v, hv, hbetween⟩ := hassigns.assigned a.name t
      (Fields.mem_of_get? (hfilter.trans ht)) hclass
    refine ⟨v, ?_, hbetween.later hleaves fun n hn => ⟨(hlt.trans_le hn).ne', (hlt.trans_le hn).le⟩⟩
    rw [seen?_made rfl, Graph.value?_eq_some_iff]
    exact ⟨.store, (hown a.name).trans hv⟩

/-- Whatever is decoded from what was stored of a value, and kept, leaves out what was undefined. -/
theorem Encodes.omits (hd : d.Lawful) (hnamed : d.WellNamed)
    (h : Encodes True d registry g v t) (hw : t.StoredAs w)
    (hdecode : Record.decode d registry .store w G = (.ok v', G'))
    (hleaves : Leaves (G.cells.size ≤ ·) G' g') : Omits d g g' v v' := by
  induction h generalizing w v' G G' with
  | @leaf v hleaf =>
    refine .of_descend? (fun r hr => ?_) fun step => ?_
    · rw [hr] at hleaf
      cases hleaf
    · cases v <;> first | (cases step <;> rfl) | cases hleaf
  | undefined => exact .of_descend? nofun fun step => by cases step <;> rfl
  | @array items trees hlength hitems ih =>
    obtain ⟨stored, rfl, hsame, hstored⟩ := hw.array_inv
    obtain ⟨vs, G₁, hvs, hpure⟩ := Stateful.bind_eq_ok hdecode
    cases hpure
    obtain ⟨hcount, hbetween⟩ := Fields.forall₂_iff_getElem?.1 (Record.decodeItems_eq_ok hvs).1
    refine .array fun i v hv hdefined => ?_
    have hi := (List.getElem?_eq_some_iff.1 hv).1
    obtain ⟨t, ht⟩ : ∃ t, trees[i]? = some t := ⟨_, List.getElem?_eq_getElem (by omega)⟩
    obtain ⟨w, hw⟩ : ∃ w, stored[i]? = some w := ⟨_, List.getElem?_eq_getElem (by omega)⟩
    obtain ⟨v', hv'⟩ : ∃ v', vs[i]? = some v' := ⟨_, List.getElem?_eq_getElem (by omega)⟩
    obtain ⟨ga, gb, hdecoded, hkept⟩ := (hbetween i w v' hw hv').later hleaves fun n hn => ⟨trivial, hn⟩
    have hencoded := hitems i v t hv ht
    exact ⟨v', hv', ih i v t hv ht (hstored i t w ht (hencoded.ne_undefined hdefined) hw) hdecoded
      hkept⟩
  | @object fields trees huntagged _ hnames hfields ih =>
    obtain ⟨stored, rfl, hstored⟩ := hw.object_inv
    have hnone := Fields.get?_eq_none_of_keys_eq hnames huntagged
    obtain ⟨vs, rfl, hvs⟩ := Record.decode_untagged_eq_ok (hstored.untagged hnone) hdecode
    refine .object fun name v hv hdefined => ?_
    obtain ⟨t, ht⟩ := Fields.exists_get?_of_keys_eq hnames hv
    have hencoded := hfields name v t hv ht
    obtain ⟨w, hw, hkept⟩ := hstored.kept name t ht (hencoded.ne_undefined hdefined)
    obtain ⟨v', hv', hbetween⟩ := (Record.decodeFields_eq_ok hvs).1.get? hw
    obtain ⟨ga, gb, hdecoded, hlater⟩ := Record.DecodedBetween.later hbetween hleaves fun n hn => ⟨trivial, hn⟩
    exact ⟨v', hv', ih name v t hv ht hkept hdecoded hlater⟩
  | classRef _ => exact .of_descend? nofun fun step => by cases step <;> rfl
  | @reference r _ _ _ hreferenceable _ _ _ _ =>
    refine .of_descend? (fun q hq => ?_) fun step => ?_
    · cases hq
      exact hreferenceable
    · cases step with
      | inside name => exact if_pos hreferenceable
      | _ => rfl
  | @embedded r trees value hfound hembedded htag _ haccepted hencodes hcomplete ih =>
    obtain ⟨stored, rfl, hstored⟩ := hw.object_inv
    obtain ⟨_, htag', hsame⟩ := hstored.kept _ _ htag (by simp)
    rw [hsame.string_inv] at htag'
    obtain ⟨r', rfl, hcls, hnew⟩ := Record.decode_new hnamed htag' (hd.classNamed? hfound) hfound
      hstored.distinct hdecode hleaves
    refine .record hd hembedded hcls (fun a ha hv => ?_) fun a ha v hv hdefined => ?_
    · have hne := hnamed.ne_classTag r.cls a ha
      obtain ⟨t, ht, hvalue⟩ := exists_tree haccepted (hcomplete trivial a ha _ hv) hne hv
      have hencoded := hencodes a.name t ht hne
      rw [hvalue] at hencoded
      rw [hencoded.eq_undefined] at ht
      exact (hnew a ha).1 (hstored.omitted a.name ht)
    · have hne := hnamed.ne_classTag r.cls a ha
      obtain ⟨t, ht, rfl⟩ := exists_tree haccepted (hcomplete trivial a ha v hv) hne hv
      have hencoded := hencodes a.name t ht hne
      obtain ⟨w, hw, hkept⟩ := hstored.kept a.name t ht (hencoded.ne_undefined hdefined)
      obtain ⟨v', hv', ga, gb, hdecoded, hlater⟩ := (hnew a ha).2 w hw
      exact ⟨v', hv', ih a.name t ht hne hkept hdecoded hlater⟩

/-! ### Records that are left alone -/

/-- Records that are no forks, hold none but such records, and are as they were. -/
structure Graph.Undisturbed (g g' : Graph) (R : Set RecordRef) : Prop where
  made : ∀ r ∈ R, r.base? = none
  closed : ∀ r ∈ R, ∀ name slot, g.own? r name = some (some slot) → slot.value.Within R
  same : ∀ r ∈ R, ∀ name, g'.own? r name = g.own? r name

namespace Graph.Undisturbed

variable {R : Set RecordRef}

theorem seen? (h : g.Undisturbed g' R) (hr : r ∈ R) (name : String) : g'.seen? r name = g.seen? r name :=
  seen?_congr_made (h.made r hr) (h.same r hr name)

/-- A step leads to what it led to before. Its embedded records are left alone, if those of the value are
that the step is made from. -/
theorem descend? (h : g.Undisturbed g' R) {step : Value.Step}
    (hv : ∀ r ∈ v.records, (d.definition r.cls).referenceable = false → r ∈ R)
    (hstep : g.descend? d step v = some w) :
    g'.descend? d step v = some w ∧
      ∀ r ∈ w.records, (d.definition r.cls).referenceable = false → r ∈ R := by
  cases step with
  | item i =>
    cases v with
    | array items =>
      exact ⟨hstep, fun r hr => hv r (Value.mem_records_array.2 ⟨w, List.mem_of_getElem? hstep, hr⟩)⟩
    | _ => cases hstep
  | field name =>
    cases v with
    | object fields =>
      exact ⟨hstep, fun r hr => hv r (Value.mem_records_object.2 ⟨_, Fields.mem_of_get? hstep, hr⟩)⟩
    | _ => cases hstep
  | inside name =>
    cases v with
    | record q =>
      have hinside : g.inside? d q name = some w := hstep
      by_cases hq : (d.definition q.cls).referenceable = true
      · rw [Graph.inside?, if_pos hq] at hinside
        cases hinside
      · have hmem := hv q (List.mem_singleton.2 rfl) (by simpa using hq)
        have hsame : g'.inside? d q name = g.inside? d q name := by
          rw [Graph.inside?, Graph.inside?, h.seen? hmem]
        rw [Graph.inside?, if_neg hq] at hinside
        obtain ⟨a, -, hseen⟩ := Option.bind_eq_some_iff.1 hinside
        rw [seen?_made (h.made q hmem)] at hseen
        obtain ⟨source, hown⟩ := Graph.value?_eq_some_iff.1 hseen
        exact ⟨hsame.trans hstep, fun r hr _ => h.closed q hmem name _ hown r hr⟩
    | _ => cases hstep

/-- What stands in a value is where it was, if its embedded records are left alone. -/
theorem part? (h : g.Undisturbed g' R)
    (hv : ∀ r ∈ v.records, (d.definition r.cls).referenceable = false → r ∈ R)
    (hplace : g.part? d place v = some (.record r)) (hr : (d.definition r.cls).referenceable = false) :
    g'.part? d place v = some (.record r) ∧ r ∈ R := by
  induction place generalizing v with
  | nil =>
    cases hplace
    exact ⟨rfl, hv r (List.mem_singleton.2 rfl) hr⟩
  | cons step place ih =>
    obtain ⟨w, hw, hrest⟩ := Option.bind_eq_some_iff.1 hplace
    obtain ⟨hstep, hrecords⟩ := h.descend? hv hw
    obtain ⟨hpart, hmem⟩ := ih hrecords hrest
    exact ⟨Option.bind_eq_some_iff.2 ⟨w, hstep, hpart⟩, hmem⟩

end Graph.Undisturbed

theorem Omits.undisturbed {R : Set RecordRef} (h : Omits d g G v v') (hR : G.Undisturbed G' R)
    (hv' : ∀ r ∈ v'.records, (d.definition r.cls).referenceable = false → r ∈ R) :
    Omits d g G' v v' := by
  intro place r hplace hembedded
  obtain ⟨r', hr', hcls, hunset⟩ := h place r hplace hembedded
  obtain ⟨hpart, hmem⟩ := hR.part? hv' hr' (hcls ▸ hembedded)
  refine ⟨r', hpart, hcls, fun a ha u hu => ?_⟩
  rw [hR.seen? hmem]
  exact hunset a ha u hu

end TypedRecords
