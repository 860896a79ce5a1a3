import TypedRecords.Proofs.Class.Lawful

/-! # Directories that grow

What a directory says of the classes that it has does not change while more are declared, forked and
registered. A fork of a class is defined as the class is.
-/

namespace TypedRecords.Directory

variable {d d' d'' : Directory} {c : ClassRef}

/-- A class and those that it was forked from are there, and all are defined alike. -/
def Inherits (d : Directory) (c : ClassRef) : Prop :=
  ∀ base, c.isSameOrForkOf base = true →
    base.serial < d.classes.size ∧ d.definition c = d.definition base

/-- Registries find classes that are there. -/
def Coherent (d : Directory) : Prop :=
  ∀ registry name c, d.find? registry name = some c → d.Inherits c

/-- A directory that has come from another: the classes that were there are defined as before. -/
structure Extends (d d' : Directory) : Prop where
  size : d.classes.size ≤ d'.classes.size
  definition : ∀ c : ClassRef, c.serial < d.classes.size → d'.definition c = d.definition c

/-! ### Classes that are there -/

theorem Inherits.bound (h : d.Inherits c) : c.serial < d.classes.size :=
  (h c (ClassRef.isSameOrForkOf_self c)).1

theorem inherits_declared {serial : Nat} (name : String) (h : serial < d.classes.size) :
    d.Inherits (.declared serial name) := by
  intro base hbase
  have heq : ClassRef.declared serial name = base := by
    simpa [ClassRef.isSameOrForkOf, ClassRef.isForkOf] using hbase
  subst heq
  exact ⟨h, rfl⟩

/-- Registries into which only declared classes were entered. -/
theorem coherent_of_members (h : ∀ registry ∈ d.registries, ∀ member ∈ registry.members,
    member.2.base? = none ∧ member.2.serial < d.classes.size) : d.Coherent := by
  intro r name c hfound
  obtain ⟨registry, hregistry, hmember⟩ := mem_of_find? hfound
  obtain ⟨hbase, hbound⟩ := h registry hregistry (name, c) hmember
  cases c with
  | declared serial name => exact inherits_declared name hbound
  | fork serial base => cases hbase

theorem Extends.refl (d : Directory) : d.Extends d := ⟨Nat.le_refl _, fun _ _ => rfl⟩

theorem Extends.trans (h : d.Extends d') (h' : d'.Extends d'') : d.Extends d'' where
  size := Nat.le_trans h.size h'.size
  definition c hc :=
    (h'.definition c (Nat.lt_of_lt_of_le hc h.size)).trans (h.definition c hc)

theorem Inherits.extend (h : d.Inherits c) (hd : d.Extends d') : d'.Inherits c := by
  intro base hbase
  obtain ⟨hbound, hdefinition⟩ := h base hbase
  refine ⟨Nat.lt_of_lt_of_le hbound hd.size, ?_⟩
  rw [hd.definition c h.bound, hd.definition base hbound, hdefinition]

/-- The attributes that a directory knows, those that have come from it know as well. -/
theorem Extends.forall_attributes (hd : d.Extends d') {P : Attribute → Prop}
    (h : ∀ c, ∀ a ∈ d'.attributes c, P a) (c : ClassRef) : ∀ a ∈ d.attributes c, P a := by
  intro a ha
  by_cases hc : c.serial < d.classes.size
  · exact h c a (by rwa [attributes, hd.definition c hc])
  · have hnone : d.classes[c.serial]? = none := Array.getElem?_eq_none_iff.2 (Nat.le_of_not_lt hc)
    have hempty : d.attributes c = Definition.empty.attributeList := by
      simp only [attributes, Directory.definition, entry, hnone, Option.getD_none]
    rw [hempty] at ha
    cases ha

/-! ### Operations -/

theorem extends_push (d : Directory) (e : ClassEntry) :
    d.Extends { d with classes := d.classes.push e } where
  size := by simp
  definition c hc := by simp [definition, entry, Array.getElem?_push, Nat.ne_of_lt hc]

theorem extends_declare (d : Directory) (name : String) (definition : Definition) :
    d.Extends (d.declare name definition).2 :=
  extends_push d _

theorem inherits_declare (d : Directory) (name : String) (definition : Definition) :
    (d.declare name definition).2.Inherits (d.declare name definition).1 :=
  inherits_declared name (by simp [declare])

theorem extends_forkClass (d : Directory) (c : ClassRef) : d.Extends (d.forkClass c).2 :=
  extends_push d _

/-- A class that is forked passes its definition on. -/
theorem Inherits.forkClass (h : d.Inherits c) : (d.forkClass c).2.Inherits (d.forkClass c).1 := by
  have hnew : (d.forkClass c).2.definition (d.forkClass c).1 = d.definition c := by
    simp [definition, entry, Directory.forkClass, ClassRef.serial]
  intro base hbase
  rcases Bool.or_eq_true_iff.1 hbase with hsame | hfork
  · obtain rfl : (d.forkClass c).1 = base := eq_of_beq hsame
    exact ⟨by simp [Directory.forkClass, ClassRef.serial], rfl⟩
  · obtain ⟨hbound, hdefinition⟩ := h base hfork
    have hextends := extends_forkClass d c
    exact ⟨Nat.lt_of_lt_of_le hbound hextends.size,
      by rw [hnew, hextends.definition base hbound, hdefinition]⟩

theorem extends_setEntry (d : Directory) (c : ClassRef) {f : ClassEntry → ClassEntry}
    (hf : ∀ e, (f e).definition = e.definition) : d.Extends (d.setEntry c f) where
  size := by simp [setEntry]
  definition other _ := by
    simp only [definition, entry, setEntry, Array.getElem?_modify]
    split
    · cases d.classes[other.serial]? with
      | none => rfl
      | some e => exact hf e
    · rfl

/-- Registering a class changes no definition. -/
theorem extends_register {r : RegistryRef} (h : d.register r c = .ok d') : d.Extends d' := by
  unfold Directory.register at h
  have hextends : d.Extends (d.setRegistry r fun registry =>
      { registry with members := Fields.insert c.name c registry.members }) :=
    ⟨Nat.le_refl _, fun _ _ => rfl⟩
  split at h
  · split at h
    · cases h
      exact .refl d
    · cases h
  · dsimp only at h
    split at h
    · cases h
      exact hextends
    · cases h
      exact hextends.trans (extends_setEntry _ c fun _ => rfl)

/-- Registering a class that is there changes no definition, and the class is found afterwards. -/
theorem Coherent.register (hd : d.Coherent) {r : RegistryRef} (hc : d.Inherits c)
    (h : d.register r c = .ok d') : d.Extends d' ∧ d'.Coherent := by
  refine ⟨extends_register h, ?_⟩
  unfold Directory.register at h
  split at h
  · split at h
    · cases h
      exact hd
    · cases h
  · have hentered : (d.setRegistry r fun registry =>
        { registry with members := Fields.insert c.name c registry.members }).Coherent := by
      intro r' name c' hfind
      rcases find?_enter hfind with ⟨-, rfl⟩ | hbefore
      · exact hc
      · exact hd r' name c' hbefore
    dsimp only at h
    split at h
    · cases h
      exact hentered
    · cases h
      have hset := extends_setEntry (d.setRegistry r fun registry =>
        { registry with members := Fields.insert c.name c registry.members }) c
        (f := fun e => { e with registry := some r }) fun _ => rfl
      exact fun r' name c' hfind => (hentered r' name c' hfind).extend hset

end TypedRecords.Directory
