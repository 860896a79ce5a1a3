import TypedRecords.Proofs.Class.Growing
import TypedRecords.Proofs.Record.Views
import TypedRecords.Proofs.Record.Writing

/-! # Identifiers of records

The identifiers of every record are keys or undefined, whatever is done with records. Forks have the
identifiers of what they were forked from, and so do forks of classes.
-/

namespace TypedRecords

open TypedRecords.Graph (Sound)
open Stateful (KeepsIn)

/-- What may stand under a name of a record, if it is the name of an identifier. -/
def IdentifierKey (d : Directory) (r : RecordRef) (name : String) (v : Value) : Prop :=
  ∀ a ∈ (d.definition r.cls).identifiers, a.name = name → v = .undefined ∨ v.IsKey

/-- Known records have cells of their own, classes that pass on their definitions, and identifiers that
are keys or undefined. -/
structure Graph.Typed (d : Directory) (known : Set RecordRef) (g : Graph) : Prop where
  sound : g.Sound known
  inherits : ∀ r ∈ known, d.Inherits r.cls
  forks : ∀ serial c base, .fork serial c base ∈ known → c.isSameOrForkOf base.cls = true
  keys : ∀ r ∈ known, ∀ name slot, g.own? r name = some (some slot) →
    IdentifierKey d r name slot.value

namespace Graph.Typed

variable {d : Directory} {known : Set RecordRef} {g g' : Graph} {r : RecordRef}

theorem empty (d : Directory) (g : Graph) : g.Typed d ∅ where
  sound := ⟨by simp, by simp, by simp, by simp⟩
  inherits := by simp
  forks := by simp
  keys := by simp

/-- What a record sees as an identifier is a key or undefined. -/
theorem seen (h : g.Typed d known) (hr : r ∈ known) {name : String} {v : Value}
    (hv : g.seen? r name = some v) : IdentifierKey d r name v := by
  have hown : ∀ r ∈ known, ∀ own, g.own? r name = some own → g.seen? r name = some v →
      IdentifierKey d r name v := by
    intro r hr own hown hv
    rw [seen?_of_own hown] at hv
    obtain ⟨slot, rfl, rfl⟩ := Option.map_eq_some_iff.1 hv
    exact h.keys r hr name slot hown
  induction r with
  | made serial c =>
    obtain ⟨source, hslot⟩ := value?_eq_some_iff.1 hv
    exact hown _ hr _ hslot hv
  | fork serial c base ih =>
    cases hslot : g.own? (.fork serial c base) name with
    | some own => exact hown _ hr own hslot hv
    | none =>
      rw [seen?_fork hslot] at hv
      have hdefinition : d.definition c = d.definition base.cls :=
        (h.inherits _ hr _ (h.forks serial c base hr)).2
      have hkey := ih (h.sound.base serial c base hr) hv
      intro a ha
      exact hkey a (hdefinition ▸ ha)

/-- Classes that are there stay as they are when more are declared. -/
theorem extend (h : g.Typed d known) {d' : Directory} (hd : d.Extends d') : g.Typed d' known where
  sound := h.sound
  inherits r hr := (h.inherits r hr).extend hd
  forks := h.forks
  keys r hr name slot hslot := by
    have hkey := h.keys r hr name slot hslot
    rwa [IdentifierKey, ← hd.definition r.cls (h.inherits r hr).bound] at hkey

theorem of_own?_eq (h : g.Typed d known) (hsize : g.cells.size ≤ g'.cells.size)
    (hown : ∀ r name, g'.own? r name = g.own? r name) : g'.Typed d known where
  sound := h.sound.of_own?_eq hsize hown
  inherits := h.inherits
  forks := h.forks
  keys r hr name slot hslot := h.keys r hr name slot (by rwa [hown] at hslot)

/-! ### Writing -/

theorem write (h : g.Typed d known) (hr : r ∈ known) {name : String} {slot : Option Slot}
    (hslot : ∀ s, slot = some s → IdentifierKey d r name s.value ∧ s.value.Within known) :
    (g.write r name slot).Typed d known := by
  refine ⟨h.sound.write r name fun s hs => (hslot s hs).2, h.inherits, h.forks, ?_⟩
  intro r' hr' name' s hs
  rcases h.sound.own?_write hr hr' hs with hs | ⟨rfl, rfl, rfl⟩
  · exact h.keys r' hr' name' s hs
  · exact (hslot s rfl).1

/-! ### Making records -/

/-- A record in a new cell that says nothing yet. -/
theorem insert (h : g.Typed d known) {r : RecordRef} (hserial : r.serial = g.cells.size)
    (hsize : g'.cells.size = g.cells.size + 1) (hown : ∀ r name, g'.own? r name = g.own? r name)
    (hcls : d.Inherits r.cls)
    (hbase : ∀ base, r.base? = some base → base ∈ known ∧ r.cls.isSameOrForkOf base.cls = true) :
    g'.Typed d (Insert.insert r known) := by
  refine ⟨h.sound.insert hserial hsize hown fun base heq => (hbase base heq).1, ?_, ?_, ?_⟩
  · rintro r' (rfl | hr')
    · exact hcls
    · exact h.inherits r' hr'
  · rintro serial c base (rfl | hfork)
    · exact (hbase base rfl).2
    · exact h.forks serial c base hfork
  · rintro r' (rfl | hr') name slot hslot <;> rw [hown] at hslot
    · rw [own?_of_size_le (Nat.le_of_eq hserial.symm)] at hslot
      cases hslot
    · exact h.keys r' hr' name slot hslot

theorem instantiate (h : g.Typed d known) {c : ClassRef} (hc : d.Inherits c) (isNew : Bool) :
    (g.instantiate c isNew).2.Typed d (Insert.insert (g.instantiate c isNew).1 known) :=
  h.insert rfl (by simp [Graph.instantiate]) (own?_push g isNew) hc fun _ hbase => by cases hbase

theorem fork (h : g.Typed d known) (hr : r ∈ known) {c : ClassRef} (hc : d.Inherits c)
    (hsame : c.isSameOrForkOf r.cls = true) :
    (g.fork c r).2.Typed d (Insert.insert (g.fork c r).1 known) := by
  refine h.insert rfl (size_fork g c r) (own?_fork g c r) hc ?_
  rintro base hbase
  cases hbase
  exact ⟨hr, hsame⟩

theorem keeps_fork (hr : r ∈ known) :
    KeepsIn (fun known g => g.Typed d known) known (Record.fork r) fun after r' => r' ∈ after := by
  intro before hknown g hg
  have hr := hknown hr
  refine ⟨_, Set.subset_insert _ _, hg.fork hr (hg.inherits r hr) (ClassRef.isSameOrForkOf_self _), ?_⟩
  rintro r' hr'
  cases hr'
  exact Set.mem_insert _ _

theorem keeps_forkInto (hr : r ∈ known) {c : ClassRef} (hc : d.Inherits c) :
    KeepsIn (fun known g => g.Typed d known) known (Record.forkInto r c)
      fun after r' => r' ∈ after := by
  unfold Record.forkInto
  split
  · next hsame =>
    intro before hknown g hg
    refine ⟨_, Set.subset_insert _ _, hg.fork (hknown hr) hc hsame, ?_⟩
    rintro r' hr'
    cases hr'
    exact Set.mem_insert _ _
  · exact .throw _

/-! ### Reading -/

/-- Reading a slot makes forks known that stand for known records. -/
theorem slot? (h : g.Typed d known) (hr : r ∈ known) (name : String) :
    ∃ after, known ⊆ after ∧ (r.slot? name g).2.Typed d after ∧
      (r.slot? name g).2.seen? r name = (r.slot? name g).1.map Slot.value := by
  obtain ⟨after, hafter, hsound, hread, hcomes, hforks⟩ := h.sound.slot? hr name
  refine ⟨after, hafter, ⟨hsound, ?_, ?_, ?_⟩, hread⟩
  · intro r' hr'
    obtain ⟨q, hq, hcome⟩ := hcomes r' hr'
    rw [hcome.cls]
    exact h.inherits q hq
  · intro serial c base hfork
    rcases hforks serial c base hfork with hbefore | rfl
    · exact h.forks serial c base hbefore
    · exact ClassRef.isSameOrForkOf_self _
  · intro r' hr' name slot hown a ha hname
    obtain ⟨q, hq, hcome⟩ := hcomes r' hr'
    obtain ⟨v, hv, hforked⟩ := hcome.own name slot hown
    rw [hcome.cls] at ha
    generalize slot.value = w at hforked ⊢
    rcases h.seen hq hv a ha hname with rfl | ⟨s, rfl⟩ | ⟨x, rfl⟩
    · cases hforked with
      | leaf hleaf => cases hleaf
      | undefined => exact .inl rfl
    · cases hforked
      exact .inr (.inl ⟨s, rfl⟩)
    · cases hforked
      exact .inr (.inr ⟨x, rfl⟩)

end Graph.Typed

/-- What attributes accept as identifiers are keys or undefined. -/
theorem Graph.typed_allowsWriting {d : Directory} (hd : d.Lawful) :
    AllowsWriting d (IdentifierKey d) d.Inherits (fun known g => g.Typed d known) where
  slot known r name g hr hg := by
    obtain ⟨after, hafter, hg', hread⟩ := hg.slot? hr name
    refine ⟨after, hafter, hg', fun slot hslot => ?_⟩
    rw [hslot] at hread
    exact hg'.sound.seen (hafter hr) hread
  resolving known r b g _ hg := hg.of_own?_eq (Nat.le_of_eq (size_modify g r _).symm)
    (Graph.own?_markResolving g r b)
  accepted r name a v ha hv b hb hname := by
    have hmem := Definition.mem_attributeList_of_identifier hb
    have heq := (hd.definition r.cls).attribute?_of_mem hmem
    rw [hname, ha] at heq
    cases heq
    by_cases hdefined : v = .undefined
    · exact .inl hdefined
    · have hkind := (hd.definition r.cls).identifies a hmem
        (Definition.isIdentifier_of_mem_identifiers hb)
      exact .inr (ValueType.isKey_of_check hkind (hv.resolve_left hdefined) hdefined)
  present known r name g hr hg slot hslot := by
    obtain ⟨after, hafter, hg', hread⟩ := hg.slot? hr name
    rw [hslot] at hread
    exact hg'.seen (hafter hr) hread
  write known r name v source g hr hv hwithin hg := by
    refine hg.write hr fun s hs => ?_
    cases hs
    exact ⟨hv, hwithin⟩
  unset known r name g hr hg := hg.write hr fun s hs => by cases hs
  mark known r b g _ hg := hg.of_own?_eq (Nat.le_of_eq (size_modify g r _).symm)
    (Graph.own?_mark g r b)
  instantiate known c isNew g hc hg := hg.instantiate hc isNew
  given known n g hg := hg.of_own?_eq (Nat.le_refl _) fun _ _ => rfl

end TypedRecords
