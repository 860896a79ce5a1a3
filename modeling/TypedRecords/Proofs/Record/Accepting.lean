import TypedRecords.Proofs.Record.Drafted
import TypedRecords.Proofs.Record.Typed

/-! # Accepted values

Whatever is assigned, decoded, stamped, forked and read, as long as records are forked within their
classes, what they hold was accepted by the types of its attributes, or was left undefined when they were
made. The forks that reading makes are of the classes of what they stand for, so they are accepted where
that was.
-/

namespace TypedRecords

open TypedRecords.Graph (AcceptedOrUndefined)
open Stateful (KeepsIn)

variable {d : Directory} {known : Set RecordRef} {g g' : Graph} {r : RecordRef} {name : String}

/-! ### Accepted values -/

/-- Records of the same classes are accepted alike. -/
theorem Graph.AcceptedOrUndefined.refork {q : RecordRef} {v w : Value}
    (h : AcceptedOrUndefined d q name v) (hcls : r.cls = q.cls)
    (hforked : v.Reforked (fun a b => b.cls = a.cls) w) : AcceptedOrUndefined d r name w := by
  intro a ha
  rw [hcls] at ha ⊢
  rcases h a ha with rfl | hcheck
  · cases hforked with
    | leaf hleaf => cases hleaf
    | undefined => exact .inl rfl
  · refine .inr ?_
    rwa [← ValueType.check_sketch, Record.sketch_of_reforked (fun _ _ hq => hq) hforked,
      ValueType.check_sketch]

/-- What identifiers accept are keys. -/
theorem Graph.AcceptedOrUndefined.identifierKey (hd : d.Lawful) {v : Value}
    (h : AcceptedOrUndefined d r name v) : IdentifierKey d r name v := by
  rintro a ha rfl
  have hmem := Definition.mem_attributeList_of_identifier ha
  by_cases hdefined : v = .undefined
  · exact .inl hdefined
  · have hcheck := (h a ((hd.definition r.cls).attribute?_of_mem hmem)).resolve_left hdefined
    have hkind := (hd.definition r.cls).identifies a hmem
      (Definition.isIdentifier_of_mem_identifiers ha)
    exact .inr (ValueType.isKey_of_check hkind hcheck hdefined)

/-! ### Records that hold accepted values -/

/-- Known records have cells of their own, are forked within their classes, and hold what was accepted or
left undefined. -/
structure Graph.Accepting (d : Directory) (known : Set RecordRef) (g : Graph) : Prop where
  sound : g.Sound known
  forks : ∀ serial c base, .fork serial c base ∈ known → c = base.cls
  slots : ∀ r ∈ known, ∀ name slot, g.own? r name = some (some slot) →
    AcceptedOrUndefined d r name slot.value

namespace Graph.Accepting

theorem empty (d : Directory) (g : Graph) : g.Accepting d ∅ where
  sound := ⟨by simp, by simp, by simp, by simp⟩
  forks := by simp
  slots := by simp

/-- What a record sees was accepted, wherever it reads that from. -/
theorem seen (h : g.Accepting d known) (hr : r ∈ known) {v : Value} (hv : g.seen? r name = some v) :
    AcceptedOrUndefined d r name v := by
  induction r with
  | made serial c =>
    obtain ⟨source, hslot⟩ := value?_eq_some_iff.1 hv
    exact h.slots _ hr name ⟨v, source⟩ hslot
  | fork serial c base ih =>
    cases hslot : g.own? (.fork serial c base) name with
    | some own =>
      rw [seen?_of_own hslot] at hv
      obtain ⟨slot, rfl, rfl⟩ := Option.map_eq_some_iff.1 hv
      exact h.slots _ hr name slot hslot
    | none =>
      rw [seen?_fork hslot] at hv
      have haccepted := ih (h.sound.base serial c base hr) hv
      obtain rfl := h.forks serial c base hr
      exact haccepted

theorem of_own?_eq (h : g.Accepting d known) (hsize : g.cells.size ≤ g'.cells.size)
    (hown : ∀ r name, g'.own? r name = g.own? r name) : g'.Accepting d known where
  sound := h.sound.of_own?_eq hsize hown
  forks := h.forks
  slots r hr name slot hslot := h.slots r hr name slot (by rwa [hown] at hslot)

theorem write (h : g.Accepting d known) (hr : r ∈ known) {slot : Option Slot}
    (hslot : ∀ s, slot = some s → AcceptedOrUndefined d r name s.value ∧ s.value.Within known) :
    (g.write r name slot).Accepting d known where
  sound := h.sound.write r name fun s hs => (hslot s hs).2
  forks := h.forks
  slots r' hr' name' s hs := by
    rcases h.sound.own?_write hr hr' hs with hs | ⟨rfl, rfl, rfl⟩
    · exact h.slots r' hr' name' s hs
    · exact (hslot s rfl).1

/-- A record in a new cell that says nothing yet. -/
theorem insert (h : g.Accepting d known) {r : RecordRef} (hserial : r.serial = g.cells.size)
    (hsize : g'.cells.size = g.cells.size + 1) (hown : ∀ r name, g'.own? r name = g.own? r name)
    (hbase : ∀ base, r.base? = some base → base ∈ known ∧ r.cls = base.cls) :
    g'.Accepting d (Insert.insert r known) := by
  refine ⟨h.sound.insert hserial hsize hown fun base heq => (hbase base heq).1, ?_, ?_⟩
  · rintro serial c base (rfl | hfork)
    · exact (hbase base rfl).2
    · exact h.forks serial c base hfork
  · rintro r' (rfl | hr') name slot hslot <;> rw [hown] at hslot
    · rw [own?_of_size_le (Nat.le_of_eq hserial.symm)] at hslot
      cases hslot
    · exact h.slots r' hr' name slot hslot

theorem keeps_fork (hr : r ∈ known) :
    KeepsIn (fun known g => g.Accepting d known) known (Record.fork r) fun after r' => r' ∈ after := by
  intro before hknown g hg
  refine ⟨_, Set.subset_insert _ _,
    hg.insert (r := (g.fork r.cls r).1) rfl (size_fork g r.cls r) (own?_fork g r.cls r) ?_, ?_⟩
  · rintro base hbase
    cases hbase
    exact ⟨hknown hr, rfl⟩
  · rintro r' hr'
    cases hr'
    exact Set.mem_insert _ _

/-- Reading a slot makes forks known that hold what is accepted. -/
theorem slot? (h : g.Accepting d known) (hr : r ∈ known) (name : String) :
    ∃ after, known ⊆ after ∧ (r.slot? name g).2.Accepting d after ∧
      (r.slot? name g).2.seen? r name = (r.slot? name g).1.map Slot.value := by
  obtain ⟨after, hafter, hsound, hread, hcomes, hforks⟩ := h.sound.slot? hr name
  refine ⟨after, hafter, ⟨hsound, ?_, ?_⟩, hread⟩
  · intro serial c base hfork
    rcases hforks serial c base hfork with hbefore | hsame
    · exact h.forks serial c base hbefore
    · exact hsame
  · intro r' hr' name slot hown
    obtain ⟨q, hq, hcome⟩ := hcomes r' hr'
    obtain ⟨v, hv, hforked⟩ := hcome.own name slot hown
    exact (h.seen hq hv).refork hcome.cls hforked

/-- A value that is read was accepted. -/
theorem read (h : g.Accepting d known) (hr : r ∈ known) {slot : Slot}
    (hread : (r.slot? name g).1 = some slot) : AcceptedOrUndefined d r name slot.value := by
  obtain ⟨after, hafter, hg', hseen⟩ := h.slot? hr name
  rw [hread] at hseen
  exact hg'.seen (hafter hr) hseen

end Graph.Accepting

theorem Graph.accepting_allowsWriting (d : Directory) (C : ClassRef → Prop) :
    AllowsWriting d (AcceptedOrUndefined d) C (fun known g => g.Accepting d known) where
  slot known r name g hr hg := by
    obtain ⟨after, hafter, hg', hread⟩ := hg.slot? hr name
    refine ⟨after, hafter, hg', fun slot hslot => ?_⟩
    rw [hslot] at hread
    exact hg'.sound.seen (hafter hr) hread
  resolving known r b g _ hg := hg.of_own?_eq (Nat.le_of_eq (size_modify g r _).symm)
    (Graph.own?_markResolving g r b)
  accepted r name a v ha hv b hb := by
    rw [ha] at hb
    cases hb
    exact hv
  present known r name g hr hg slot hslot := hg.read hr hslot
  write known r name v source g hr hv hwithin hg := by
    refine hg.write hr fun s hs => ?_
    cases hs
    exact ⟨hv, hwithin⟩
  unset known r name g hr hg := hg.write hr fun s hs => by cases hs
  mark known r b g _ hg := hg.of_own?_eq (Nat.le_of_eq (size_modify g r _).symm)
    (Graph.own?_mark g r b)
  instantiate known c isNew g _ hg :=
    hg.insert rfl (by simp [Graph.instantiate]) (own?_push g isNew) fun _ hbase => by cases hbase
  given known n g hg := hg.of_own?_eq (Nat.le_refl _) fun _ _ => rfl

end TypedRecords
