import TypedRecords.Proofs.Class.Lawful
import TypedRecords.Proofs.Types.Check
import TypedRecords.Proofs.Tree.Decode

/-! # Readable trees

A tree can be decoded if its tags name classes of the registry and its fields are attributes that
accept what they are decoded to. What it is decoded to is known from the tree, but for the cells of
the new records.
-/

namespace TypedRecords

open TypedRecords.Graph (Leaves)

theorem Value.isLeaf_of_isKey {v : Value} (h : v.IsKey) : v.isLeaf = true := by
  rcases h with ⟨s, rfl⟩ | ⟨x, rfl⟩ <;> rfl

/-- A record that holds nothing but keys. -/
structure RecordRef.Bare (g : Graph) (r : RecordRef) : Prop where
  made : r.base? = none
  cell : ∃ cell, g.cell? r = some cell ∧ cell.resolving = false
  keys : ∀ name own, g.own? r name = some own → ∃ slot, own = some slot ∧ slot.value.IsKey

namespace Tree

section

variable (d : Directory) (registry : RegistryRef)

mutual

/-- What checking sees of the value that a tree is decoded to. -/
def outline : Value → Value
  | .array items => .array (outlineItems items)
  | .object fields =>
    match Fields.get? classTag fields with
    | some (.string tag) =>
      match classNamed? tag with
      | some name => ((d.find? registry name).map Value.classRef).getD (.object [])
      | none => ((d.find? registry tag).map fun c => Value.record (.made 0 c)).getD (.object [])
    | _ => .object []
  | v => v

def outlineItems : List Value → List Value
  | [] => []
  | v :: rest => outline v :: outlineItems rest

end

theorem outlineItems_eq_map (items : List Value) :
    outlineItems d registry items = items.map (outline d registry) := by
  induction items with
  | nil => rfl
  | cons v rest ih => rw [outlineItems, ih, List.map_cons]

/-- A field stands under the name of an attribute; if values are `checked`, it is accepted there. -/
def Accepts (checked : Prop) (c : ClassRef) (name : String) (t : Value) : Prop :=
  name ≠ newTag ∧ ∃ a, (d.definition c).attribute? name = some a ∧
    (checked → a.type.check (d.site c name) (outline d registry t) = .ok ())

/-- A tree that can be decoded. Unless values are `checked`, an attribute may refuse what its field
is decoded to. -/
inductive Readable (checked : Prop) : Value → Prop
  | leaf {v : Value} (h : v.isLeaf = true) : Readable checked v
  | array {items : List Value} (h : ∀ t ∈ items, Readable checked t) :
    Readable checked (.array items)
  | object {fields : Object} (untagged : Fields.get? classTag fields = none)
    (distinct : Fields.Distinct fields) (h : ∀ entry ∈ fields, Readable checked entry.2) :
    Readable checked (.object fields)
  | classRef {c : ClassRef} (found : d.find? registry c.name = some c) :
    Readable checked (.object [(classTag, .string (classPhrase ++ c.name))])
  | record {fields : Object} {c : ClassRef}
    (tag : Fields.get? classTag fields = some (.string c.name))
    (found : d.find? registry c.name = some c) (distinct : Fields.Distinct fields)
    (accepts : ∀ entry ∈ fields, entry.1 ≠ classTag →
      Accepts d registry checked c entry.1 entry.2)
    (keys : (d.definition c).referenceable = true →
      ∀ entry ∈ fields, entry.1 ≠ classTag → entry.2.IsKey)
    (h : ∀ entry ∈ fields, entry.1 ≠ classTag → Readable checked entry.2) :
    Readable checked (.object fields)

end

section

variable {d : Directory} {registry : RegistryRef} {checked checked' : Prop}

theorem Accepts.imp (himp : checked' → checked) {c : ClassRef} {name : String} {t : Value}
    (h : Accepts d registry checked c name t) : Accepts d registry checked' c name t := by
  obtain ⟨hnew, a, ha, hcheck⟩ := h
  exact ⟨hnew, a, ha, fun hchecked => hcheck (himp hchecked)⟩

theorem Readable.imp (himp : checked' → checked) {t : Value} (h : Readable d registry checked t) :
    Readable d registry checked' t := by
  induction h with
  | leaf hleaf => exact .leaf hleaf
  | array _ ih => exact .array ih
  | object huntagged hdistinct _ ih => exact .object huntagged hdistinct ih
  | classRef hfound => exact .classRef hfound
  | record htag hfound hdistinct haccepts hkeys _ ih =>
    exact .record htag hfound hdistinct (fun entry hentry hne => (haccepts entry hentry hne).imp himp)
      hkeys ih

end

/-! ### New records -/

/-- Records that were made one after the other, of classes of a registry; those that are referred to
by identifier hold keys only. -/
structure Fresh (d : Directory) (registry : RegistryRef) (g g' : Graph) (rs : List RecordRef) :
    Prop where
  sorted : (rs.map RecordRef.serial).Pairwise (· < ·)
  fresh : ∀ r ∈ rs, g.cells.size ≤ r.serial ∧ r.serial < g'.cells.size
  found : ∀ r ∈ rs, r.base? = none ∧ d.find? registry r.cls.name = some r.cls
  bare : ∀ r ∈ rs, (d.definition r.cls).referenceable = true → r.Bare g'

end Tree

variable {d : Directory} {registry : RegistryRef} {g g₁ g₂ g' : Graph} {r : RecordRef}

theorem RecordRef.Bare.leaves {kept : Nat → Prop} (hr : r.Bare g) (h : Leaves kept g g')
    (hkept : kept r.serial) : r.Bare g' := by
  obtain ⟨cell, hcell, hresolving⟩ := hr.cell
  have hlt := Graph.lt_of_cell? hcell
  refine ⟨hr.made, ⟨cell, ?_, hresolving⟩, ?_⟩
  · rw [h.cell? hlt hkept, hcell]
  · intro name own hown
    rw [h.own? hlt hkept] at hown
    exact hr.keys name own hown

theorem RecordRef.Bare.isKey (hr : r.Bare g) {name : String} {v : Value}
    (hv : g.value? r name = some v) : v.IsKey := by
  obtain ⟨source, hown⟩ := Graph.value?_eq_some_iff.1 hv
  obtain ⟨slot, hslot, hkey⟩ := hr.keys name _ hown
  cases hslot
  exact hkey

namespace Tree.Fresh

variable {rs rs' : List RecordRef}

theorem nil : Fresh d registry g g' [] where
  sorted := List.Pairwise.nil
  fresh := by simp
  found := by simp
  bare := by simp

theorem leaves {kept : Nat → Prop} (hrs : Fresh d registry g g₁ rs) (h : Leaves kept g₁ g₂)
    (hkept : ∀ r ∈ rs, kept r.serial) : Fresh d registry g g₂ rs where
  sorted := hrs.sorted
  fresh r hr := by
    have hfresh := hrs.fresh r hr
    have hsize := h.size
    omega
  found := hrs.found
  bare r hr hreference := (hrs.bare r hr hreference).leaves h (hkept r hr)

theorem append (hrs : Fresh d registry g g₁ rs) (hrs' : Fresh d registry g₁ g₂ rs')
    (h : g.cells.size ≤ g₁.cells.size) (h' : Leaves (fun _ => True) g₁ g₂) :
    Fresh d registry g g₂ (rs ++ rs') := by
  have hlater : Fresh d registry g g₂ rs := hrs.leaves h' fun _ _ => trivial
  refine ⟨?_, ?_, ?_, ?_⟩
  · rw [List.map_append, List.pairwise_append]
    refine ⟨hrs.sorted, hrs'.sorted, ?_⟩
    intro m hm n hn
    obtain ⟨r, hr, rfl⟩ := List.mem_map.1 hm
    obtain ⟨r', hr', rfl⟩ := List.mem_map.1 hn
    have hfirst := hrs.fresh r hr
    have hsecond := hrs'.fresh r' hr'
    omega
  · intro r hr
    rcases List.mem_append.1 hr with hr | hr
    · exact hlater.fresh r hr
    · have hfresh := hrs'.fresh r hr
      omega
  · intro r hr
    rcases List.mem_append.1 hr with hr | hr
    · exact hrs.found r hr
    · exact hrs'.found r hr
  · intro r hr
    rcases List.mem_append.1 hr with hr | hr
    · exact hlater.bare r hr
    · exact hrs'.bare r hr

end Tree.Fresh

namespace Record

open TypedRecords.Tree (outline Readable Fresh)

variable {source : Source} {checked : Prop}

/-! ### Assigned fields -/

/-- What assigning the fields of a tree comes to. -/
structure Assigns (d : Directory) (registry : RegistryRef) (source : Source) (r : RecordRef)
    (fields : Object) (g g' : Graph) : Prop where
  leaves : Leaves (· ≠ r.serial) g g'
  cell : ∀ cell, g.cell? r = some cell → ∃ slots, g'.cell? r = some { cell with slots }
  other : ∀ name, (∀ t, (name, t) ∈ fields → name = Tree.classTag) → g'.own? r name = g.own? r name
  assigned : ∀ name t, (name, t) ∈ fields → name ≠ Tree.classTag → ∃ v,
    g'.own? r name = some (some ⟨v, source⟩) ∧
      DecodedBetween d registry source (· ≠ r.serial) g g' t v
  accepted : ∀ name ∈ Fields.keys fields, name ≠ Tree.classTag → ∀ slot,
    g'.own? r name = some (some slot) → ∃ a, (d.definition r.cls).attribute? name = some a ∧
      a.type.check (d.site r.cls name) slot.value = .ok ()

theorem decodeAttributes_assigns {fields : Object} (hdistinct : Fields.Distinct fields)
    (hnew : ∀ entry ∈ fields, entry.1 ≠ Tree.newTag) {cell : Cell} (hcell : g.cell? r = some cell)
    (h : decodeAttributes d registry source r fields g = (.ok (), g')) :
    Assigns d registry source r fields g g' := by
  have hleaves : Leaves (· ≠ r.serial) g g' :=
    (keeps_decodeAttributes (.inr fun hne => hne rfl) fields).of_run (.refl _ g) h
  induction fields generalizing g cell with
  | nil =>
    cases h
    exact ⟨hleaves, fun cell hcell => ⟨cell.slots, hcell⟩, fun _ _ => rfl, by simp,
      by simp [Fields.keys]⟩
  | cons entry rest ih =>
    obtain ⟨name, t⟩ := entry
    obtain ⟨hname, hrest⟩ := Fields.distinct_cons.1 hdistinct
    obtain ⟨hnewName, hnewRest⟩ := List.forall_mem_cons.1 hnew
    by_cases hclass : name = Tree.classTag
    · rw [decodeAttributes_tag (.inl hclass)] at h
      have htail := ih hrest hnewRest hcell h hleaves
      refine ⟨hleaves, htail.cell, ?_, ?_, ?_⟩
      · intro other hother
        exact htail.other other fun t ht => hother t (List.mem_cons_of_mem _ ht)
      · intro other t' ht' hne
        rcases List.mem_cons.1 ht' with heq | hmem
        · cases heq
          exact absurd hclass hne
        · exact htail.assigned other t' hmem hne
      · intro other hother hne
        rcases List.mem_cons.1 hother with heq | hmem
        · exact absurd (heq.trans hclass) hne
        · exact htail.accepted other hmem hne
    · obtain ⟨a, v, g₁, ha, hv, hcheck, hlater⟩ := decodeAttributes_cons_eq_ok hclass hnewName h
      have hdecode := decode_leaves hv
      have hcell₁ : g₁.cell? r = some cell := by
        rw [hdecode.cell? (Graph.lt_of_cell? hcell) trivial, hcell]
      have hwrite : Leaves (· ≠ r.serial) g (g₁.write r name (some ⟨v, source⟩)) :=
        (hdecode.imp fun _ _ => trivial).modify (.inr fun hne => hne rfl) _
      have hcell₂ := Graph.cell?_write_self hcell₁ name (some ⟨v, source⟩)
      have hleaves₂ : Leaves (· ≠ r.serial) (g₁.write r name (some ⟨v, source⟩)) g' :=
        (keeps_decodeAttributes (.inr fun hne => hne rfl) rest).of_run (.refl _ _) hlater
      have htail := ih hrest hnewRest hcell₂ hlater hleaves₂
      have hown : g'.own? r name = some (some ⟨v, source⟩) := by
        rw [htail.other name fun t ht => absurd (Fields.mem_keys_of_mem ht) hname,
          Graph.own?_write_self hcell₁]
      refine ⟨hleaves, ?_, ?_, ?_, ?_⟩
      · intro cell' hcell'
        rw [hcell] at hcell'
        cases hcell'
        obtain ⟨slots, hslots⟩ := htail.cell _ hcell₂
        exact ⟨slots, hslots⟩
      · intro other hother
        have hne : other ≠ name := by
          rintro rfl
          exact hclass (hother t List.mem_cons_self)
        rw [htail.other other fun t ht => hother t (List.mem_cons_of_mem _ ht),
          Graph.own?_write_of_name_ne hne, hdecode.own? (Graph.lt_of_cell? hcell) trivial]
      · intro other t' ht' hne
        rcases List.mem_cons.1 ht' with heq | hmem
        · cases heq
          have hafter : Leaves (· ≠ r.serial) g₁ (g₁.write r name (some ⟨v, source⟩)) :=
            (Leaves.refl _ g₁).modify (.inr fun hne => hne rfl) _
          exact ⟨v, hown, g, g₁, .refl _ g, hv, hafter.trans hleaves₂⟩
        · obtain ⟨v', hown', hbetween⟩ := htail.assigned other t' hmem hne
          exact ⟨v', hown', hbetween.after hwrite⟩
      · intro other hother hne slot hslot
        rcases List.mem_cons.1 hother with rfl | hmem
        · rw [hown] at hslot
          cases hslot
          exact ⟨a, ha, hcheck⟩
        · exact htail.accepted other hmem hne slot hslot

/-- What the first field of a tree was decoded to is what its name holds in the end, and assigning it and
the fields after it changes nothing else that was there by then. -/
theorem decodeAttributes_first {name : String} {t : Value} {rest : Object}
    (hname : name ∉ Fields.keys rest) (hdistinct : Fields.Distinct rest)
    (hclass : name ≠ Tree.classTag) (hnewName : name ≠ Tree.newTag)
    (hnew : ∀ entry ∈ rest, entry.1 ≠ Tree.newTag) {cell : Cell} (hcell : g.cell? r = some cell)
    (h : decodeAttributes d registry source r ((name, t) :: rest) g = (.ok (), g')) :
    ∃ v g₁ g₂ cell', decode d registry source t g = (.ok v, g₁) ∧
      g₂.cells.size = g₁.cells.size ∧ g₂.cell? r = some cell' ∧
      decodeAttributes d registry source r rest g₂ = (.ok (), g') ∧
      Leaves (· ≠ r.serial) g₁ g' ∧ g'.own? r name = some (some ⟨v, source⟩) := by
  obtain ⟨a, v, g₁, -, hv, -, hlater⟩ := decodeAttributes_cons_eq_ok hclass hnewName h
  have hcell₁ : g₁.cell? r = some cell := by
    rw [(decode_leaves hv).cell? (Graph.lt_of_cell? hcell) trivial, hcell]
  have hcell₂ := Graph.cell?_write_self hcell₁ name (some ⟨v, source⟩)
  have hassigns := decodeAttributes_assigns hdistinct hnew hcell₂ hlater
  have hwrite : Leaves (· ≠ r.serial) g₁ (g₁.write r name (some ⟨v, source⟩)) :=
    (Leaves.refl _ g₁).modify (.inr fun hne => hne rfl) _
  refine ⟨v, g₁, _, _, hv, Graph.size_modify _ _ _, hcell₂, hlater, hwrite.trans hassigns.leaves, ?_⟩
  rw [hassigns.other name fun t ht => absurd (Fields.mem_keys_of_mem ht) hname,
    Graph.own?_write_self hcell₁]

/-- A new record has nothing under the names that are not assigned. -/
theorem Assigns.own?_new {c : ClassRef} {isNew : Bool} {fields : Object}
    (h : Assigns d registry source (g.instantiate c isNew).1 fields (g.instantiate c isNew).2 g')
    {name : String} (hother : ∀ t, (name, t) ∈ fields → name = Tree.classTag) :
    g'.own? (g.instantiate c isNew).1 name = none := by
  rw [h.other name hother]
  exact g.own?_instantiate_self c isNew name

/-! ### Decoded values -/

theorem decodeItems_fresh {items vs : List Value}
    (ih : ∀ t ∈ items, ∀ g v g', decode d registry source t g = (.ok v, g') →
      v.sketch = outline d registry t ∧ Fresh d registry g g' v.records)
    (h : decodeItems d registry source items g = (.ok vs, g')) :
    vs.map Value.sketch = items.map (outline d registry) ∧
      Fresh d registry g g' (Value.recordsOfItems vs) := by
  induction items generalizing g vs with
  | nil =>
    cases h
    exact ⟨rfl, .nil⟩
  | cons t rest ihRest =>
    obtain ⟨ht, hrest⟩ := List.forall_mem_cons.1 ih
    obtain ⟨v, g₁, hv, hlater⟩ := Stateful.bind_eq_ok h
    obtain ⟨vs', g₂, hvs, hpure⟩ := Stateful.bind_eq_ok hlater
    cases hpure
    obtain ⟨hsketch, hfresh⟩ := ht _ _ _ hv
    obtain ⟨hsketches, hfreshes⟩ := ihRest hrest hvs
    have hleaves := decode_leaves hv
    refine ⟨?_, hfresh.append hfreshes hleaves.size (decodeItems_eq_ok hvs).2⟩
    rw [List.map_cons, List.map_cons, hsketch, hsketches]

theorem decodeFields_fresh {fields vs : Object}
    (ih : ∀ entry ∈ fields, ∀ g v g', decode d registry source entry.2 g = (.ok v, g') →
      Fresh d registry g g' v.records)
    (h : decodeFields d registry source fields g = (.ok vs, g')) :
    Fresh d registry g g' (Value.recordsOfFields vs) := by
  induction fields generalizing g vs with
  | nil =>
    cases h
    exact .nil
  | cons entry rest ihRest =>
    obtain ⟨name, t⟩ := entry
    obtain ⟨ht, hrest⟩ := List.forall_mem_cons.1 ih
    obtain ⟨v, g₁, hv, hlater⟩ := Stateful.bind_eq_ok h
    obtain ⟨vs', g₂, hvs, hpure⟩ := Stateful.bind_eq_ok hlater
    cases hpure
    have hleaves := decode_leaves hv
    exact (ht _ _ _ hv).append (ihRest hrest hvs) hleaves.size (decodeFields_eq_ok hvs).2

theorem decodeFields_of_ok {fields : Object}
    (ih : ∀ entry ∈ fields, ∀ g, ∃ v g', decode d registry source entry.2 g = (.ok v, g'))
    (g : Graph) : ∃ vs g', decodeFields d registry source fields g = (.ok vs, g') := by
  induction fields generalizing g with
  | nil => exact ⟨[], g, rfl⟩
  | cons entry rest ihRest =>
    obtain ⟨name, t⟩ := entry
    obtain ⟨ht, hrest⟩ := List.forall_mem_cons.1 ih
    obtain ⟨v, g₁, hv⟩ := ht g
    obtain ⟨vs, g₂, hvs⟩ := ihRest hrest g₁
    refine ⟨(name, v) :: vs, g₂, ?_⟩
    simp only [decodeFields]
    rw [Stateful.bind_of_ok hv, Stateful.bind_of_ok hvs]
    rfl

theorem decodeItems_of_ok {items : List Value}
    (ih : ∀ t ∈ items, ∀ g, ∃ v g', decode d registry source t g = (.ok v, g')) (g : Graph) :
    ∃ vs g', decodeItems d registry source items g = (.ok vs, g') := by
  induction items generalizing g with
  | nil => exact ⟨[], g, rfl⟩
  | cons t rest ihRest =>
    obtain ⟨ht, hrest⟩ := List.forall_mem_cons.1 ih
    obtain ⟨v, g₁, hv⟩ := ht g
    obtain ⟨vs, g₂, hvs⟩ := ihRest hrest g₁
    refine ⟨v :: vs, g₂, ?_⟩
    simp only [decodeItems]
    rw [Stateful.bind_of_ok hv, Stateful.bind_of_ok hvs]
    rfl

/-- Assigning fields that are decoded to what is accepted where they stand. -/
theorem decodeAttributes_of_check {fields : Object}
    (ih : ∀ entry ∈ fields, entry.1 ≠ Tree.classTag → entry.1 ≠ Tree.newTag →
      ∃ a, (d.definition r.cls).attribute? entry.1 = some a ∧
        ∀ g, ∃ v g', decode d registry source entry.2 g = (.ok v, g') ∧
          a.type.check (d.site r.cls entry.1) v = .ok ()) (g : Graph) :
    ∃ g', decodeAttributes d registry source r fields g = (.ok (), g') := by
  induction fields generalizing g with
  | nil => exact ⟨g, rfl⟩
  | cons entry rest ihRest =>
    obtain ⟨name, t⟩ := entry
    obtain ⟨hfirst, hrest⟩ := List.forall_mem_cons.1 ih
    by_cases htag : name = Tree.classTag ∨ name = Tree.newTag
    · rw [decodeAttributes_tag htag]
      exact ihRest hrest g
    · obtain ⟨hclass, hnew⟩ := not_or.1 htag
      obtain ⟨a, ha, hdecode⟩ := hfirst hclass hnew
      obtain ⟨v, g₁, hv, hcheck⟩ := hdecode g
      rw [decodeAttributes_cons_of_check hclass hnew rest ha hv hcheck]
      exact ihRest hrest _

/-- Assigning fields that are decoded, and of which the trees tell that they are accepted. -/
theorem decodeAttributes_of_ok {fields : Object}
    (ih : ∀ entry ∈ fields, entry.1 ≠ Tree.classTag →
      Tree.Accepts d registry True r.cls entry.1 entry.2 ∧
        ∀ g, ∃ v g', decode d registry source entry.2 g = (.ok v, g') ∧
          v.sketch = outline d registry entry.2) (g : Graph) :
    ∃ g', decodeAttributes d registry source r fields g = (.ok (), g') := by
  refine decodeAttributes_of_check (fun entry hentry hclass _ => ?_) g
  obtain ⟨⟨-, a, ha, hcheck⟩, hdecode⟩ := ih entry hentry hclass
  refine ⟨a, ha, fun g => ?_⟩
  obtain ⟨v, g₁, hv, hsketch⟩ := hdecode g
  refine ⟨v, g₁, hv, ?_⟩
  rw [← ValueType.check_sketch, hsketch]
  exact hcheck trivial

theorem decode_leaf {v : Value} (h : v.isLeaf = true) (g : Graph) :
    decode d registry source v g = (.ok v, g) := by
  cases v <;> first | rfl | cases h

theorem outline_leaf {v : Value} (h : v.isLeaf = true) : outline d registry v = v.sketch := by
  cases v <;> first | rfl | cases h

theorem outline_record {fields : Object} {c : ClassRef}
    (htag : Fields.get? Tree.classTag fields = some (.string c.name))
    (hname : Tree.classNamed? c.name = none) (hfound : d.find? registry c.name = some c) :
    outline d registry (.object fields) = .record (.made 0 c) := by
  simp only [outline, htag, hname, hfound]
  rfl

theorem outline_classRef {fields : Object} {c : ClassRef}
    (htag : Fields.get? Tree.classTag fields = some (.string (Tree.classPhrase ++ c.name)))
    (hfound : d.find? registry c.name = some c) :
    outline d registry (.object fields) = .classRef c := by
  simp only [outline, htag, Tree.classNamed?_classPhrase, hfound]
  rfl

theorem ne_newTag {c : ClassRef} {fields : Object}
    (h : ∀ entry ∈ fields, entry.1 ≠ Tree.classTag →
      Tree.Accepts d registry checked c entry.1 entry.2) :
    ∀ entry ∈ fields, entry.1 ≠ Tree.newTag := by
  intro entry hentry
  by_cases htag : entry.1 = Tree.classTag
  · rw [htag]
    decide
  · exact (h entry hentry htag).1

theorem fresh_of_assigns {c : ClassRef} {isNew : Bool} {fields : Object}
    (hfound : d.find? registry c.name = some c)
    (h : Assigns d registry source (g.instantiate c isNew).1 fields (g.instantiate c isNew).2 g')
    (hkeys : (d.definition c).referenceable = true →
      ∀ entry ∈ fields, entry.1 ≠ Tree.classTag → entry.2.IsKey) :
    Fresh d registry g g' [(g.instantiate c isNew).1] := by
  have hcell := Graph.cell?_instantiate_self g c isNew
  obtain ⟨slots, hslots⟩ := h.cell _ hcell
  refine ⟨List.pairwise_singleton _ _, ?_, ?_, ?_⟩
  · intro r hr
    rw [List.mem_singleton.1 hr]
    exact ⟨Nat.le_refl _, Graph.lt_of_cell? hslots⟩
  · intro r hr
    rw [List.mem_singleton.1 hr]
    exact ⟨rfl, hfound⟩
  · intro r hr hreference
    rw [List.mem_singleton.1 hr] at hreference ⊢
    refine ⟨rfl, ⟨_, hslots, rfl⟩, ?_⟩
    intro name own hown
    by_cases hfield : ∃ t, (name, t) ∈ fields ∧ name ≠ Tree.classTag
    · obtain ⟨t, ht, hne⟩ := hfield
      have hkey : t.IsKey := hkeys hreference (name, t) ht hne
      obtain ⟨v, hv, g₁, g₂, -, hdecode, -⟩ := h.assigned name t ht hne
      rw [decode_leaf (Value.isLeaf_of_isKey hkey)] at hdecode
      cases hdecode
      rw [hv] at hown
      cases hown
      exact ⟨_, rfl, hkey⟩
    · have hother : ∀ t, (name, t) ∈ fields → name = Tree.classTag := by
        intro t ht
        by_contra hne
        exact hfield ⟨t, ht, hne⟩
      rw [h.own?_new hother] at hown
      cases hown

/-- What a readable tree is decoded to: all of its records are new. -/
theorem decode_fresh (hd : d.Lawful) {t : Value} (ht : Readable d registry checked t) {v : Value}
    (h : decode d registry source t g = (.ok v, g')) :
    v.sketch = outline d registry t ∧ Fresh d registry g g' v.records := by
  induction ht generalizing g v g' with
  | @leaf t hleaf =>
    rw [decode_leaf hleaf] at h
    cases h
    refine ⟨(outline_leaf hleaf).symm, ?_⟩
    rw [Value.records_of_isLeaf hleaf]
    exact .nil
  | @array items _ ih =>
    simp only [decode] at h
    obtain ⟨vs, g₁, hvs, hpure⟩ := Stateful.bind_eq_ok h
    cases hpure
    obtain ⟨hsketch, hfresh⟩ := decodeItems_fresh (fun t ht g v g' h => ih t ht h) hvs
    refine ⟨?_, hfresh⟩
    rw [Value.sketch, outline, Value.sketchItems_eq_map, Tree.outlineItems_eq_map, hsketch]
  | @object fields huntagged _ _ ih =>
    obtain ⟨vs, rfl, hvs⟩ := decode_untagged_eq_ok huntagged h
    refine ⟨?_, decodeFields_fresh (fun entry he g v g' h => (ih entry he h).2) hvs⟩
    simp only [Value.sketch, outline, huntagged]
  | classRef hfound =>
    rw [decode_classRef rfl hfound] at h
    cases h
    exact ⟨(outline_classRef rfl hfound).symm, .nil⟩
  | @record fields c htag hfound hdistinct haccepts hkeys _ ih =>
    have hname := hd.classNamed? hfound
    rw [decode_record htag hname hfound] at h
    obtain ⟨_, g₁, hattributes, hpure⟩ := Stateful.bind_eq_ok h
    cases hpure
    refine ⟨(outline_record htag hname hfound).symm, ?_⟩
    exact fresh_of_assigns hfound (decodeAttributes_assigns hdistinct (ne_newTag haccepts)
      (Graph.cell?_instantiate_self g c _) hattributes) hkeys

theorem decode_of_readable (hd : d.Lawful) {t : Value} (ht : Readable d registry True t)
    (g : Graph) : ∃ v g', decode d registry source t g = (.ok v, g') := by
  induction ht generalizing g with
  | leaf hleaf => exact ⟨_, g, decode_leaf hleaf g⟩
  | @array items _ ih =>
    obtain ⟨vs, g₁, hvs⟩ := decodeItems_of_ok ih g
    refine ⟨.array vs, g₁, ?_⟩
    simp only [decode]
    rw [Stateful.bind_of_ok hvs]
    rfl
  | @object fields huntagged _ _ ih =>
    obtain ⟨vs, g₁, hvs⟩ := decodeFields_of_ok ih g
    refine ⟨.object vs, g₁, ?_⟩
    simp only [decode, huntagged]
    rw [Stateful.bind_of_ok hvs]
    rfl
  | classRef hfound => exact ⟨_, g, decode_classRef rfl hfound g⟩
  | @record fields c htag hfound hdistinct haccepts hkeys hreadable ih =>
    have hname := hd.classNamed? hfound
    have hfields : ∀ entry ∈ fields, entry.1 ≠ Tree.classTag →
        Tree.Accepts d registry True c entry.1 entry.2 ∧
          ∀ g, ∃ v g', decode d registry source entry.2 g = (.ok v, g') ∧
            v.sketch = outline d registry entry.2 := by
      intro entry hentry hne
      refine ⟨haccepts entry hentry hne, ?_⟩
      intro g
      obtain ⟨v, g', hv⟩ := ih entry hentry hne g
      exact ⟨v, g', hv, (decode_fresh hd (hreadable entry hentry hne) hv).1⟩
    have hassign : ∃ g₁, decodeAttributes d registry source
        (g.instantiate c (Tree.isMarkedNew fields)).1 fields
        (g.instantiate c (Tree.isMarkedNew fields)).2 = (.ok (), g₁) :=
      decodeAttributes_of_ok hfields _
    obtain ⟨g₁, hg₁⟩ := hassign
    refine ⟨.record (g.instantiate c (Tree.isMarkedNew fields)).1, g₁, ?_⟩
    rw [decode_record htag hname hfound, Stateful.bind_of_ok hg₁]
    rfl

end Record

end TypedRecords
