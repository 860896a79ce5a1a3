import TypedRecords.Proofs.Class.Growing
import TypedRecords.Proofs.Types.Compared

/-! # Forks that stand in for their bases

A fork of a class takes what the class takes, as long as both find other classes alike. The name that they
share is the one exception, since it means the fork itself within the fork: what an attribute compares
with that name has to belong to the fork.
-/

namespace TypedRecords

/-- The classes in a value that a type compares with a class by its own name are that class and forks
of it. -/
def ValueType.OwnWithin (c : ClassRef) (t : ValueType) (v : Value) : Prop :=
  ∀ toClass, t.reference? = some (c.name, toClass) →
    ∀ other ∈ t.compared v, other.isSameOrForkOf c = true

namespace Directory

/-- A fork of a class, or the class, that is defined as the class is, and that finds other classes through
the registry of the class or through none. -/
structure StandsIn (d : Directory) (fork base : ClassRef) : Prop where
  descends : fork.isSameOrForkOf base = true
  definition : d.definition fork = d.definition base
  registry : d.registryOf? fork = d.registryOf? base ∨ d.registryOf? fork = none

variable {d d' : Directory} {fork base other : ClassRef} {name place : String} {t : ValueType} {v : Value}

theorem admits_own (d : Directory) (c other : ClassRef) (place : String) :
    (d.site c place).admits c.name other = other.isSameOrForkOf c := by
  simp only [Site.admits, site, component?_self]

namespace StandsIn

theorem name_eq (h : d.StandsIn fork base) : fork.name = base.name :=
  (ClassRef.name_of_isSameOrForkOf h.descends).symm

theorem attribute? (h : d.StandsIn fork base) (name : String) :
    (d.definition fork).attribute? name = (d.definition base).attribute? name := by
  rw [h.definition]

/-- Forks of forks stand in as well. -/
theorem trans (h : d.StandsIn fork base) (h' : d.StandsIn base other) : d.StandsIn fork other where
  descends := ClassRef.isSameOrForkOf_trans h.descends h'.descends
  definition := h.definition.trans h'.definition
  registry := by
    rcases h.registry with heq | hnone
    · rw [heq]
      exact h'.registry
    · exact .inr hnone

/-! ### Classes by name -/

theorem component? (h : d.StandsIn fork base) (hname : name ≠ base.name) :
    d.component? fork name = d.component? base name ∨ d.component? fork name = none := by
  simp only [Directory.component?, h.name_eq, if_neg hname]
  rcases h.registry with heq | hnone
  · exact .inl (by rw [heq])
  · exact .inr (by rw [hnone, Option.bind_none])

theorem admits (hd : d.Lawful) (h : d.StandsIn fork base) (hname : name ≠ base.name)
    (hadmits : (d.site base place).admits name other = true) :
    (d.site fork place).admits name other = true := by
  simp only [Site.admits, site] at hadmits ⊢
  rcases h.component? hname with heq | hnone
  · rwa [heq]
  · rw [hnone]
    cases hfound : d.component? base name with
    | none =>
      rw [hfound] at hadmits
      exact hadmits
    | some expected =>
      simp only [hfound] at hadmits
      rw [Directory.component?, if_neg hname] at hfound
      obtain ⟨r, -, hfind⟩ := Option.bind_eq_some_iff.1 hfound
      have hcalled := ClassRef.name_of_isSameOrForkOf hadmits
      rw [(hd.members r name expected hfind).1] at hcalled
      exact beq_iff_eq.2 hcalled.symm

/-! ### Values -/

/-- What a class accepts, its fork accepts exactly if nothing in it is compared with the name of the class
but what belongs to the fork. -/
theorem check_iff (hd : d.Lawful) (h : d.StandsIn fork base)
    (hcheck : t.check (d.site base name) v = .ok ()) :
    t.check (d.site fork name) v = .ok () ↔ t.OwnWithin fork v := by
  refine ⟨fun hfork toClass hown c hc => ?_, fun hown => ?_⟩
  · rw [← d.admits_own fork c name]
    exact ValueType.admits_compared hfork hown c hc
  · refine ValueType.check_of_admits hcheck fun called toClass hcalled c hc hadmits => ?_
    by_cases hsame : called = base.name
    · rw [hsame, ← h.name_eq, d.admits_own]
      exact hown toClass (by rw [hcalled, hsame, h.name_eq]) c hc
    · exact h.admits hd hsame hadmits

end StandsIn

/-! ### Forking -/

/-- A fork stands in for the class that it was forked from. -/
theorem standsIn_forkClass (h : base.serial < d.classes.size) :
    (d.forkClass base).2.StandsIn (d.forkClass base).1 base := by
  have hbase : (d.forkClass base).2.entry base = d.entry base := by
    simp [entry, forkClass, Array.getElem?_push, Nat.ne_of_lt h]
  have hfork : (d.forkClass base).2.entry (d.forkClass base).1 = d.entry base := by
    simp [entry, forkClass, ClassRef.serial]
  refine ⟨ClassRef.isSameOrForkOf_fork base.isSameOrForkOf_self _, ?_, .inl ?_⟩
  · rw [Directory.definition, Directory.definition, hfork, hbase]
  · rw [registryOf?, registryOf?, hfork, hbase]

/-- A class that finds others through a registry does so as long as that is held. -/
theorem registryOf?_register {r q : RegistryRef} {c : ClassRef} (hc : d.registryOf? c = some q)
    (h : d.register r other = .ok d') : d'.registryOf? c = some q := by
  obtain ⟨hentry, hlive⟩ := Option.filter_eq_some_iff.1 hc
  unfold Directory.register at h
  split at h
  · split at h
    · cases h
      exact hc
    · cases h
  · have hkept : ∀ (f : Fields ClassRef → Fields ClassRef), (d.setRegistry r fun registry =>
        { registry with members := f registry.members }).isLive q = d.isLive q := by
      intro f
      simp only [isLive, registry?, setRegistry, Array.getElem?_modify]
      split
      · cases d.registries[q.serial]? <;> rfl
      · rfl
    dsimp only at h
    split at h
    · cases h
      exact Option.filter_eq_some_iff.2 ⟨hentry, (hkept _).trans hlive⟩
    · next hother =>
      cases h
      have hne : other.serial ≠ c.serial := by
        intro heq
        have hsame : d.registryOf? other = d.registryOf? c := by
          rw [registryOf?, registryOf?, entry, entry, heq]
        have hnone : d.registryOf? other = none := hother
        rw [hsame, hc] at hnone
        cases hnone
      refine Option.filter_eq_some_iff.2 ⟨?_, (hkept _).trans hlive⟩
      rw [← hentry]
      simp only [entry, setEntry, setRegistry, Array.getElem?_modify, if_neg hne]

end Directory

end TypedRecords
