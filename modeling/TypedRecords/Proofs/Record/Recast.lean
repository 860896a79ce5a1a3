import TypedRecords.Proofs.Class.StandIn
import TypedRecords.Proofs.Record.Graph
import TypedRecords.Proofs.Tree.Outlined
import TypedRecords.Store.Session

/-! # Records seen as instances of forked classes

A record holds what it holds as an instance of whatever class. As an instance of a fork of its class it is
described, resolved and filled in as before, but for what is compared with the name of the class.
-/

namespace TypedRecords

/-- A record as an instance of another class. -/
def RecordRef.recast : RecordRef → ClassRef → RecordRef
  | .made serial _, c => .made serial c
  | .fork serial _ base, c => .fork serial c base

namespace RecordRef

variable (r : RecordRef) (c : ClassRef)

@[simp] theorem serial_recast : (r.recast c).serial = r.serial := by
  cases r <;> rfl

@[simp] theorem cls_recast : (r.recast c).cls = c := by
  cases r <;> rfl

theorem slot?_recast (name : String) : (r.recast c).slot? name = r.slot? name := by
  cases r <;> rfl

theorem value?_recast (name : String) : (r.recast c).value? name = r.value? name := by
  rw [value?, slot?_recast, value?]

end RecordRef

/-- Nothing in the fields of a tree is compared with the name of a class but what belongs to it. -/
def Tree.FieldsWithin (d : Directory) (registry : RegistryRef) (c : ClassRef) (fields : Object) : Prop :=
  ∀ entry ∈ fields, entry.1 ≠ Tree.classTag → entry.1 ≠ Tree.newTag →
    ∀ a, (d.definition c).attribute? entry.1 = some a →
      a.type.OwnWithin c (Tree.outline d registry entry.2)

theorem ValueType.ownWithin_sketch {c : ClassRef} {t : ValueType} {v : Value} :
    t.OwnWithin c v.sketch ↔ t.OwnWithin c v := by
  simp only [OwnWithin, compared_sketch]

namespace Record

variable {d : Directory} {fork base : ClassRef} {registry : RegistryRef} {source : Source}
  {g g' : Graph} {r r' : RecordRef} {name : String} {v : Value} {fields : Object}

/-! ### Assigning values -/

theorem set_eq_ok (h : set d r name v g = (.ok (), g')) :
    ∃ a, (d.definition r.cls).attribute? name = some a ∧
      a.type.check (d.site r.cls name) (a.type.sanitize v) = .ok () ∧
      g' = g.write r name (some ⟨a.type.sanitize v, .here⟩) := by
  obtain ⟨a, g₁, hread, hset⟩ := Stateful.bind_eq_ok h
  obtain ⟨hnamed, rfl⟩ := ofExcept_eq_ok hread
  obtain ⟨⟨a', ha', hcheck⟩, rfl⟩ := setFrom_eq_ok hset
  have ha := attributeNamed_eq_ok hnamed
  rw [ha] at ha'
  cases ha'
  exact ⟨a, ha, hcheck, rfl⟩

theorem set_of_check {a : Attribute} (ha : (d.definition r.cls).attribute? name = some a)
    (hcheck : a.type.check (d.site r.cls name) (a.type.sanitize v) = .ok ()) (g : Graph) :
    set d r name v g = (.ok (), g.write r name (some ⟨a.type.sanitize v, .here⟩)) := by
  unfold set
  rw [Stateful.bind_of_ok (ofExcept_of_ok (attributeNamed_of_some ha) g)]
  exact setFrom_of_check ha hcheck g

/-- A value that can be assigned as it is can be assigned after sanitizing. -/
theorem set_iff_check (hd : d.Lawful) (h : d.StandsIn fork base) (hr' : r'.cls = fork) {a : Attribute}
    (ha : (d.definition base).attribute? name = some a)
    (hcheck : a.type.check (d.site base name) (a.type.sanitize v) = .ok ()) (g : Graph) :
    (∃ g₁, set d r' name v g = (.ok (), g₁)) ↔ a.type.OwnWithin fork v := by
  have hiff := h.check_iff hd hcheck
  rw [ValueType.OwnWithin, ValueType.compared_sanitize] at hiff
  have ha' : (d.definition r'.cls).attribute? name = some a := by rw [hr', h.attribute?, ha]
  refine Iff.trans ⟨?_, fun hfork => ?_⟩ hiff
  · rintro ⟨g₁, hset⟩
    obtain ⟨b, hb, hfork, -⟩ := set_eq_ok hset
    rw [ha'] at hb
    cases hb
    rwa [hr'] at hfork
  · exact ⟨_, set_of_check ha' (by rwa [hr']) g⟩

/-! ### Assigning trees -/

theorem decodeAttributes_iff (hd : d.Lawful) (h : d.StandsIn fork base) (hr : r.cls = base)
    (hr' : r'.cls = fork) {g₁ : Graph}
    (hrun : decodeAttributes d registry source r fields g = (.ok (), g₁)) (source' : Source)
    (g' : Graph) : (∃ g₂, decodeAttributes d registry source' r' fields g' = (.ok (), g₂)) ↔
      Tree.FieldsWithin d registry fork fields := by
  subst hr hr'
  have hfields := decodeAttributes_fields hrun
  constructor
  · rintro ⟨g₂, hfork⟩ entry hentry hclass hnew a ha
    obtain ⟨b, hb, _, v, _, hv, hcheck⟩ := hfields entry hentry hclass hnew
    obtain ⟨b', hb', _, w, _, hw, hcheck'⟩ := decodeAttributes_fields hfork entry hentry hclass hnew
    rw [ha] at hb'
    cases hb'
    rw [h.attribute?, hb] at ha
    cases ha
    rw [check_of_decode hv hw] at hcheck'
    rw [← ValueType.ownWithin_sketch, ← decode_sketch hv, ValueType.ownWithin_sketch]
    exact (h.check_iff hd hcheck).1 hcheck'
  · intro hwithin
    refine decodeAttributes_of_check (fun entry hentry hclass hnew => ?_) g'
    obtain ⟨a, ha, _, v, _, hv, hcheck⟩ := hfields entry hentry hclass hnew
    have ha' : (d.definition r'.cls).attribute? entry.1 = some a := by rw [h.attribute?, ha]
    have hown := hwithin entry hentry hclass hnew a ha'
    rw [← ValueType.ownWithin_sketch, ← decode_sketch hv, ValueType.ownWithin_sketch] at hown
    refine ⟨a, ha', fun g => ?_⟩
    obtain ⟨w, g₂, hw⟩ := decode_anywhere hv source' g
    exact ⟨w, g₂, hw, (check_of_decode hv hw).trans ((h.check_iff hd hcheck).2 hown)⟩

/-- A tree that can be applied to a record of a class can be applied to one of its fork exactly if nothing
in its fields is compared with the name of the class but what belongs to the fork. -/
theorem decodeInto_iff (hd : d.Lawful) (h : d.StandsIn fork base) (hr : r.cls = base)
    (hr' : r'.cls = fork) {g₁ : Graph}
    (hrun : decodeInto d registry source r (.object fields) g = (.ok (), g₁)) (source' : Source)
    (g' : Graph) : (∃ g₂, decodeInto d registry source' r' (.object fields) g' = (.ok (), g₂)) ↔
      Tree.FieldsWithin d registry fork fields := by
  obtain ⟨htag, hassigned⟩ := decodeInto_eq_ok_iff.1 hrun
  have hname : r'.className = r.className := by
    rw [RecordRef.className, RecordRef.className, hr, hr', h.name_eq]
  rw [← decodeAttributes_iff hd h hr hr' hassigned source' (g'.marked r' fields)]
  simp only [decodeInto_eq_ok_iff, hname, exists_and_left]
  exact and_iff_right htag

/-! ### What stays the same -/

theorem marked_recast (r : RecordRef) (c : ClassRef) (g : Graph) (fields : Object) :
    g.marked (r.recast c) fields = g.marked r fields := by
  unfold Graph.marked
  split
  · rw [Graph.mark, Graph.mark, Graph.modify, Graph.modify, r.serial_recast]
  · rfl

theorem write_recast (r : RecordRef) (c : ClassRef) (g : Graph) (name : String) (slot : Option Slot) :
    g.write (r.recast c) name slot = g.write r name slot := by
  rw [Graph.write, Graph.write, Graph.modify, Graph.modify, r.serial_recast]

theorem decodeAttributes_recast {c : ClassRef} {g₁ g₂ : Graph}
    (hrun : decodeAttributes d registry source r fields g = (.ok (), g₁))
    (hfork : decodeAttributes d registry source (r.recast c) fields g = (.ok (), g₂)) : g₂ = g₁ := by
  induction fields generalizing g with
  | nil =>
    cases hrun
    cases hfork
    rfl
  | cons entry rest ih =>
    obtain ⟨name, t⟩ := entry
    by_cases htag : name = Tree.classTag ∨ name = Tree.newTag
    · rw [decodeAttributes_tag htag] at hrun hfork
      exact ih hrun hfork
    · obtain ⟨hclass, hnew⟩ := not_or.1 htag
      obtain ⟨_, v, g₃, -, hv, -, hlater⟩ := decodeAttributes_cons_eq_ok hclass hnew hrun
      obtain ⟨_, w, g₄, -, hw, -, hlater'⟩ := decodeAttributes_cons_eq_ok hclass hnew hfork
      rw [hv] at hw
      cases hw
      rw [write_recast] at hlater'
      exact ih hlater hlater'

theorem decodeInto_recast (hd : d.Lawful) (h : d.StandsIn fork base) (hr : r.cls = base)
    (hrun : decodeInto d registry source r (.object fields) g = (.ok (), g'))
    (hwithin : Tree.FieldsWithin d registry fork fields) :
    decodeInto d registry source (r.recast fork) (.object fields) g = (.ok (), g') := by
  obtain ⟨g₂, hfork⟩ := (decodeInto_iff hd h hr (r.cls_recast fork) hrun source g).2 hwithin
  rw [hfork]
  have hassigned := (decodeInto_eq_ok_iff.1 hrun).2
  have hassigned' := (decodeInto_eq_ok_iff.1 hfork).2
  rw [marked_recast] at hassigned'
  rw [decodeAttributes_recast hassigned hassigned']

section

variable (h : d.StandsIn fork base) (hr : r.cls = base)
include h hr

theorem className_recast : (r.recast fork).className = r.className := by
  rw [RecordRef.className, RecordRef.className, r.cls_recast, hr, h.name_eq]

theorem definition_recast : d.definition (r.recast fork).cls = d.definition r.cls := by
  rw [r.cls_recast, hr, h.definition]

theorem descriptor_recast : descriptor d (r.recast fork) = descriptor d r := by
  have hamong : ∀ as, descriptorAmong (r.recast fork) as = descriptorAmong r as := by
    intro as
    induction as with
    | nil => rw [descriptorAmong, descriptorAmong, className_recast h hr]
    | cons a rest ih => simp only [descriptorAmong, r.value?_recast, ih]
  rw [descriptor, descriptor, definition_recast h hr, hamong]

theorem resolve_recast (how : Narrowing) (s : Selector) :
    resolve d how (r.recast fork) s = resolve d how r s := by
  have hwithin : ∀ steps, resolveWithin d how steps (r.recast fork) s = resolveWithin d how steps r s := by
    intro steps
    cases steps with
    | zero => rfl
    | succ steps =>
      have hnarrow : ∀ onRecord s, narrowAttribute how onRecord (r.recast fork) s =
          narrowAttribute how onRecord r s := by
        intro onRecord s
        funext acc a
        simp only [narrowAttribute, r.value?_recast]
      have hmark : ∀ b g, Graph.markResolving g (r.recast fork) b = g.markResolving r b := by
        intro b g
        rw [Graph.markResolving, Graph.markResolving, Graph.modify, Graph.modify, r.serial_recast]
      have hresolving : ∀ g, Graph.isResolving g (r.recast fork) = g.isResolving r := by
        intro g
        rw [Graph.isResolving, Graph.isResolving, Graph.cell?, Graph.cell?, r.serial_recast]
      simp only [resolveWithin, hnarrow, hmark, hresolving, Directory.attributes,
        definition_recast h hr]
  unfold resolve
  simp only [hwithin]

end

end Record

end TypedRecords
