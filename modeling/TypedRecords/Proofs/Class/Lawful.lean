import TypedRecords.Class.Directory
import TypedRecords.Tree
import TypedRecords.Proofs.Fields
import TypedRecords.Proofs.Types.Specifier

/-! # Lawful classes

What the rules of declaring make sure of, and what the operations of a directory keep.
-/

namespace TypedRecords

/-! ### Forks of classes -/

namespace ClassRef

variable {c base base' other : ClassRef}

theorem isSameOrForkOf_iff : c.isSameOrForkOf base = true ↔ c = base ∨ c.isForkOf base = true := by
  simp [isSameOrForkOf]

theorem name_of_isSameOrForkOf (h : c.isSameOrForkOf base = true) : base.name = c.name := by
  induction c with
  | declared serial name =>
    rcases isSameOrForkOf_iff.1 h with rfl | hfork
    · rfl
    · cases hfork
  | fork serial c ih =>
    rcases isSameOrForkOf_iff.1 h with rfl | hfork
    · rfl
    · exact ih hfork

theorem isSameOrForkOf_trans (h : c.isSameOrForkOf base = true)
    (hbase : base.isSameOrForkOf other = true) : c.isSameOrForkOf other = true := by
  induction c with
  | declared serial name =>
    rcases isSameOrForkOf_iff.1 h with rfl | hfork
    · exact hbase
    · cases hfork
  | fork serial c ih =>
    rcases isSameOrForkOf_iff.1 h with rfl | hfork
    · exact hbase
    · exact isSameOrForkOf_fork (ih hfork) serial

/-- A class comes from one class that is no fork. -/
theorem base_unique (h : c.isSameOrForkOf base = true) (h' : c.isSameOrForkOf base' = true)
    (hbase : base.base? = none) (hbase' : base'.base? = none) : base = base' := by
  induction c with
  | declared serial name =>
    rcases isSameOrForkOf_iff.1 h with rfl | hfork
    · rcases isSameOrForkOf_iff.1 h' with rfl | hfork
      · rfl
      · cases hfork
    · cases hfork
  | fork serial c ih =>
    rcases isSameOrForkOf_iff.1 h with rfl | hfork
    · cases hbase
    · rcases isSameOrForkOf_iff.1 h' with rfl | hfork'
      · cases hbase'
      · exact ih hfork hfork'

end ClassRef

/-! ### Definitions -/

/-- Attributes stand under their own names, identifiers are strings or numbers, and records of a
storable class are referred to by identifier. -/
structure Definition.Lawful (d : Definition) : Prop where
  distinct : Fields.Distinct d.attributes
  keyed : ∀ entry ∈ d.attributes, entry.2.name = entry.1
  identifies : ∀ a ∈ d.attributeList, a.role.isIdentifier = true →
    ClassDeclaration.canIdentify a.type = true
  stored : d.storable = true → d.referenceable = true

instance (d : Definition) : Decidable d.Lawful :=
  decidable_of_iff (Fields.Distinct d.attributes ∧ (∀ entry ∈ d.attributes, entry.2.name = entry.1) ∧
    (∀ a ∈ d.attributeList, a.role.isIdentifier = true → ClassDeclaration.canIdentify a.type = true) ∧
      (d.storable = true → d.referenceable = true))
    ⟨fun ⟨distinct, keyed, identifies, stored⟩ => ⟨distinct, keyed, identifies, stored⟩,
      fun h => ⟨h.distinct, h.keyed, h.identifies, h.stored⟩⟩

namespace Definition

variable {d : Definition} {a : Attribute} {name : String}

theorem Lawful.empty : Definition.empty.Lawful where
  distinct := List.nodup_nil
  keyed := by simp [Definition.empty]
  identifies := by simp [Definition.empty, attributeList, Fields.values]
  stored := by simp [Definition.empty]

/-! ### Attributes by name -/

theorem mem_attributeList_iff : a ∈ d.attributeList ↔ ∃ key, (key, a) ∈ d.attributes := by
  simp [attributeList, Fields.values]

theorem Lawful.attribute?_of_mem (hd : d.Lawful) (ha : a ∈ d.attributeList) :
    d.attribute? a.name = some a := by
  obtain ⟨key, hmem⟩ := mem_attributeList_iff.1 ha
  have hname : a.name = key := hd.keyed (key, a) hmem
  rw [attribute?, hname]
  exact Fields.get?_of_mem hd.distinct hmem

theorem mem_of_attribute? (h : d.attribute? name = some a) : a ∈ d.attributeList :=
  mem_attributeList_iff.2 ⟨name, Fields.mem_of_get? h⟩

theorem Lawful.name_of_attribute? (hd : d.Lawful) (h : d.attribute? name = some a) :
    a.name = name :=
  hd.keyed (name, a) (Fields.mem_of_get? h)

theorem Lawful.names (hd : d.Lawful) :
    d.attributeList.map Attribute.name = Fields.keys d.attributes := by
  rw [attributeList, Fields.values, List.map_map]
  exact List.map_congr_left hd.keyed

theorem Lawful.names_nodup (hd : d.Lawful) : (d.attributeList.map Attribute.name).Nodup := by
  rw [hd.names]
  exact hd.distinct

/-! ### Identifiers -/

theorem isIdentifier_of_mem_identifiers (h : a ∈ d.identifiers) : a.role.isIdentifier = true := by
  rcases List.mem_append.1 h with hprimary | hsecondary
  · have hrole := List.find?_some (Option.mem_toList.1 hprimary)
    have : a.role = .primary := by simpa using hrole
    rw [this]
    rfl
  · have hrole := (List.mem_filter.1 hsecondary).2
    have : a.role = .secondary := by simpa using hrole
    rw [this]
    rfl

theorem mem_attributeList_of_identifier (h : a ∈ d.identifiers) : a ∈ d.attributeList := by
  rcases List.mem_append.1 h with h | h
  · exact List.mem_of_find?_eq_some (Option.mem_toList.1 h)
  · exact (List.mem_filter.1 h).1

end Definition

theorem ValueType.recordClass?_of_canIdentify {t : ValueType}
    (h : ClassDeclaration.canIdentify t = true) : t.recordClass? = none := by
  cases t with
  | scalar kind traits => rfl
  | array item traits => cases h
  | reference name toClass traits => cases h

/-- What holds of the attributes of every class that was entered. -/
theorem Directory.forall_attributes {d : Directory} {P : Attribute → Prop}
    (h : ∀ entry ∈ d.classes, ∀ a ∈ entry.definition.attributeList, P a) (c : ClassRef) :
    ∀ a ∈ d.attributes c, P a := by
  intro a ha
  rw [attributes, definition, entry] at ha
  cases hentry : d.classes[c.serial]? with
  | none =>
    rw [hentry] at ha
    cases ha
  | some e =>
    rw [hentry] at ha
    exact h e (Array.mem_of_getElem? hentry) a ha

/-! ### Declaring -/

namespace ClassDeclaration

/-- What the attributes defined so far keep. -/
structure Sorted (defined : Fields Attribute) : Prop where
  distinct : Fields.Distinct defined
  keyed : ∀ entry ∈ defined, entry.2.name = entry.1
  identifies : ∀ entry ∈ defined, entry.2.role.isIdentifier = true →
    canIdentify entry.2.type = true

theorem Sorted.insert {defined : Fields Attribute} (h : Sorted defined) {a : Attribute}
    (ha : a.role.isIdentifier = true → canIdentify a.type = true) :
    Sorted (Fields.insert a.name a defined) where
  distinct := h.distinct.insert _ _
  keyed := by
    intro entry hentry
    rcases Fields.mem_insert hentry with hmem | rfl
    · exact h.keyed entry hmem
    · rfl
  identifies := by
    intro entry hentry
    rcases Fields.mem_insert hentry with hmem | rfl
    · exact h.identifies entry hmem
    · exact ha

theorem Sorted.define {component : String} {defined defined' : Fields Attribute}
    {a : AttributeDeclaration} (h : Sorted defined)
    (hdefine : ClassDeclaration.define component defined a = .ok defined') : Sorted defined' := by
  obtain ⟨-, hdefine⟩ := guard_eq_ok hdefine
  obtain ⟨t, -, hdefine⟩ := bind_eq_ok hdefine
  dsimp only at hdefine
  split at hdefine
  · obtain ⟨hkind, hdefine⟩ := guard_eq_ok hdefine
    obtain ⟨-, hdefine⟩ := guard_eq_ok hdefine
    cases hdefine
    have hkind : canIdentify t = true := by simpa using hkind
    exact h.insert (a := ⟨a.name, a.role, t, initialOf a t⟩) fun _ => hkind
  · next hrole =>
    cases hdefine
    exact h.insert (a := ⟨a.name, a.role, t, initialOf a t⟩) fun hidentifier =>
      absurd hidentifier hrole

theorem Sorted.foldlM {component : String} {declared : List AttributeDeclaration}
    {defined defined' : Fields Attribute} (h : Sorted defined)
    (hfold : declared.foldlM (ClassDeclaration.define component) defined = .ok defined') :
    Sorted defined' := by
  induction declared generalizing defined with
  | nil =>
    cases hfold
    exact h
  | cons a rest ih =>
    rw [List.foldlM_cons] at hfold
    obtain ⟨next, hnext, hrest⟩ := bind_eq_ok hfold
    exact ih (h.define hnext) hrest

/-- A definition that passed the rules is lawful. -/
theorem build_lawful {c : ClassDeclaration} {d : Definition} (h : c.build = .ok d) : d.Lawful := by
  obtain ⟨-, h⟩ := guard_eq_ok h
  obtain ⟨hembedded, h⟩ := guard_eq_ok h
  obtain ⟨attributes, hattributes, h⟩ := bind_eq_ok h
  obtain ⟨hprimary, h⟩ := guard_eq_ok h
  obtain ⟨_, -, h⟩ := bind_eq_ok h
  cases h
  have hempty : Sorted [] :=
    ⟨List.nodup_nil, fun _ h => absurd h List.not_mem_nil, fun _ h => absurd h List.not_mem_nil⟩
  have hsorted : Sorted attributes := hempty.foldlM hattributes
  refine ⟨hsorted.distinct, hsorted.keyed, ?_, ?_⟩
  · intro a ha
    obtain ⟨key, hmem⟩ := Definition.mem_attributeList_iff.1 ha
    exact hsorted.identifies (key, a) hmem
  · intro hstorable
    have hstorable : c.storable = true := hstorable
    have hplain : c.embedded = false := by simpa [hstorable] using hembedded
    obtain ⟨a, ha, hrole⟩ : ∃ a ∈ Fields.values attributes, a.role = .primary := by
      simpa [hstorable] using hprimary
    have hfound : ((Fields.values attributes).find? fun a => a.role == .primary).isSome = true :=
      List.find?_isSome.2 ⟨a, ha, by simp [hrole]⟩
    simp only [Definition.referenceable, hplain, Bool.not_false, Bool.true_and]
    exact hfound

end ClassDeclaration

/-- A name of a class is not a phrase that means a class. -/
theorem Tree.classNamed?_of_isClassName {name : String}
    (h : Specifier.isClassName name.toList = true) : Tree.classNamed? name = none := by
  have hdrop : Text.dropStart? Tree.classPhrase.toList name.toList = none :=
    Specifier.dropStart?_of_isClassName h
  rw [Tree.classNamed?, hdrop]
  rfl

/-! ### Directories -/

/-- Every class has a lawful definition, and registries find classes under their own names. -/
structure Directory.Lawful (d : Directory) : Prop where
  definition : ∀ c, (d.definition c).Lawful
  members : ∀ r name c, d.find? r name = some c →
    c.name = name ∧ Specifier.isClassName name.toList = true

namespace Directory

variable {d d' : Directory}

theorem Lawful.empty : Directory.Lawful {} where
  definition c := by simpa [Directory.definition, entry] using Definition.Lawful.empty
  members r name c h := by
    have hnone : Fields.get? name ([] : Fields ClassRef) = some c := h
    cases hnone

/-- What a registry finds was entered in it. -/
theorem mem_of_find? {r : RegistryRef} {name : String} {c : ClassRef} (h : d.find? r name = some c) :
    ∃ registry ∈ d.registries, (name, c) ∈ registry.members := by
  rw [find?, members, registry?] at h
  cases hregistry : d.registries[r.serial]? with
  | none =>
    rw [hregistry] at h
    cases h
  | some registry =>
    rw [hregistry] at h
    exact ⟨registry, Array.mem_of_getElem? hregistry, Fields.mem_of_get? h⟩

theorem lawful_of_entries (hclasses : ∀ entry ∈ d.classes, entry.definition.Lawful)
    (hmembers : ∀ registry ∈ d.registries, ∀ member ∈ registry.members,
      member.2.name = member.1 ∧ Specifier.isClassName member.1.toList = true) : d.Lawful where
  definition c := by
    rw [definition, entry]
    cases hentry : d.classes[c.serial]? with
    | none => exact Definition.Lawful.empty
    | some e => exact hclasses e (Array.mem_of_getElem? hentry)
  members r name c hfind := by
    obtain ⟨registry, hregistry, hmember⟩ := mem_of_find? hfind
    exact hmembers registry hregistry _ hmember

theorem Lawful.classNamed? (hd : d.Lawful) {r : RegistryRef} {c : ClassRef}
    (hfound : d.find? r c.name = some c) : Tree.classNamed? c.name = none :=
  Tree.classNamed?_of_isClassName (hd.members r c.name c hfound).2

theorem Lawful.declare (hd : d.Lawful) {name : String} {definition : Definition}
    (h : definition.Lawful) : (d.declare name definition).2.Lawful where
  definition c := by
    simp only [Directory.definition, entry, Directory.declare, Array.getElem?_push]
    split
    · exact h
    · exact hd.definition c
  members := hd.members

/-- A fork of a class is as lawful as the class. -/
theorem Lawful.forkClass (hd : d.Lawful) (c : ClassRef) : (d.forkClass c).2.Lawful where
  definition other := by
    simp only [Directory.definition, entry, Directory.forkClass, Array.getElem?_push]
    split
    · exact hd.definition c
    · exact hd.definition other
  members := hd.members

/-- The classes that declarations define are lawful. -/
theorem Lawful.define (hd : d.Lawful) {declaration : ClassDeclaration} {c : ClassRef}
    (h : d.define declaration = .ok (c, d')) : d'.Lawful := by
  obtain ⟨definition, hbuild, hpure⟩ := bind_eq_ok h
  cases hpure
  show (d.declare declaration.name definition).2.Lawful
  exact hd.declare (ClassDeclaration.build_lawful hbuild)

theorem Lawful.setEntry (hd : d.Lawful) {f : ClassEntry → ClassEntry}
    (hf : ∀ e, (f e).definition = e.definition) (c : ClassRef) : (d.setEntry c f).Lawful where
  definition other := by
    have hother := hd.definition other
    simp only [Directory.definition, entry, Directory.setEntry, Array.getElem?_modify] at hother ⊢
    split
    · cases hentry : d.classes[other.serial]? with
      | none => simpa [hentry] using hother
      | some e => simpa [hentry, hf] using hother
    · exact hother
  members := hd.members

theorem find?_enter {r r' : RegistryRef} {c c' : ClassRef} {name : String}
    (h : (d.setRegistry r fun registry =>
      { registry with members := Fields.insert c.name c registry.members }).find? r' name =
        some c') : name = c.name ∧ c' = c ∨ d.find? r' name = some c' := by
  simp only [find?, members, registry?, setRegistry, Array.getElem?_modify] at h ⊢
  by_cases hr : r.serial = r'.serial
  · rw [if_pos hr] at h
    cases hregistry : d.registries[r'.serial]? with
    | none =>
      rw [hregistry] at h
      cases h
    | some registry =>
      rw [hregistry] at h
      have hread : Fields.get? name (Fields.insert c.name c registry.members) = some c' := h
      by_cases hname : name = c.name
      · rw [hname, Fields.get?_insert_self] at hread
        cases hread
        exact .inl ⟨hname, rfl⟩
      · rw [Fields.get?_insert_of_ne hname] at hread
        exact .inr hread
  · rw [if_neg hr] at h
    exact .inr h

theorem Lawful.register (hd : d.Lawful) {r : RegistryRef} {c : ClassRef}
    (hname : Specifier.isClassName c.name.toList = true) (h : d.register r c = .ok d') :
    d'.Lawful := by
  unfold Directory.register at h
  split at h
  · split at h
    · cases h
      exact hd
    · cases h
  · have hentered : (d.setRegistry r fun registry =>
        { registry with members := Fields.insert c.name c registry.members }).Lawful := by
      refine ⟨hd.definition, ?_⟩
      intro r' name c' hfind
      rcases find?_enter hfind with ⟨rfl, rfl⟩ | hbefore
      · exact ⟨rfl, hname⟩
      · exact hd.members r' name c' hbefore
    dsimp only at h
    split at h
    · cases h
      exact hentered
    · cases h
      exact hentered.setEntry (f := fun e => { e with registry := some r }) (fun _ => rfl) c

end Directory

end TypedRecords
