import TypedRecords.Proofs.Record.Regions
import TypedRecords.Proofs.Store.Loading
import TypedRecords.Proofs.Store.Working

/-! # Loads within a region

A load changes the records that it is given, what they hold and what is new. So the records that lie in
regions of their own can be loaded one after the other: what is not loaded stays as it is, and what is
loaded keeps its identifier.
-/

namespace TypedRecords

open TypedRecords.Graph (Leaves Confined)
open RecordRef (Region)
open Stateful (KeepsIn)

namespace Store

variable {d : Directory} {s : Store} {S S' : Session}

/-! ### Stores that are read from -/

/-- A store of which no document holds a record. -/
def Trees (s : Store) : Prop :=
  ∀ name, ∀ document ∈ s.database.documents name, (Value.object document).Within ∅

namespace Alike

variable {s' : Store}

theorem stored?_eq (h : s.Alike s') (c : ClassRef) (descriptor : Object) :
    s'.stored? c descriptor = s.stored? c descriptor := by
  obtain ⟨trace, journal, rfl⟩ := h
  rfl

theorem trees (h : s.Alike s') (htrees : s.Trees) : s'.Trees := by
  obtain ⟨trace, journal, rfl⟩ := h
  exact htrees

theorem isRegistered_eq (h : s.Alike s') (c : ClassRef) : s'.isRegistered c = s.isRegistered c := by
  obtain ⟨trace, journal, rfl⟩ := h
  rfl

theorem collectionName_eq (h : s.Alike s') (c : ClassRef) :
    s'.collectionName c = s.collectionName c := by
  obtain ⟨trace, journal, rfl⟩ := h
  rfl

end Alike

/-- Calls that read a document. -/
def ReadsOne (c : Call) : Prop := ∃ descriptor projection, c = .read descriptor projection

theorem alike_allowsLoading {C : ClassRef → Prop} (htrees : s.Trees)
    (hC : ∀ registry name c, d.find? registry name = some c → C c) :
    AllowsLoading d C ReadsOne fun _ s' => s.Alike s' where
  call _ s' collection c journal hc hs := by
    obtain ⟨descriptor, projection, rfl⟩ := hc
    obtain ⟨trace, _, rfl⟩ := hs
    refine ⟨trace, journal, ?_⟩
    have hsame : ((Call.read descriptor projection).run collection s.database).2 = s.database := by
      simp only [Call.run, Call.run.answer, Database.read, Database.whenAvailable]
      split <;> rfl
    simp only [hsame]
  trace _ s' trace hs := by
    obtain ⟨_, journal, rfl⟩ := hs
    exact ⟨trace, journal, rfl⟩
  mono _ _ _ _ hs := hs
  read descriptor projection := ⟨descriptor, projection, rfl⟩
  within known s' name hs document hdocument := by
    obtain ⟨_, _, rfl⟩ := hs
    exact (htrees name document hdocument).mono (Set.empty_subset known)
  found := hC

/-- Loads one record after the other, with what is asked of all of them. -/
def followEach (d : Directory) (steps : Nat) (sub : Selector) (rs : List RecordRef)
    (visited : Visited) : StoreAction Visited :=
  followRecords d (fun inner visited => do
    pure (← loadWithin d steps inner sub false visited).2) sub rs visited

section

variable {A : RecordRef → String → Value → Prop} {C : ClassRef → Prop}
  {I : Set RecordRef → Graph → Prop} {known : Set RecordRef} {steps : Nat} {sub : Selector}
  {visited visited' : Visited}

/-- What writing to known records keeps of the records, a load keeps. -/
theorem keeps_loadWithin (hI : AllowsWriting d A C I)
    (hC : ∀ registry name c, d.find? registry name = some c → C c) (htrees : s.Trees)
    (hS : I known S.graph) (hs : s.Alike S.store) {r : RecordRef} (hr : r ∈ known)
    {throwIfMissing : Bool} {result : Except Error (Bool × Visited)}
    (h : loadWithin d steps r sub throwIfMissing visited S = (result, S')) :
    ∃ after, known ⊆ after ∧ I after S'.graph ∧ s.Alike S'.store := by
  obtain ⟨after, hafter, hS', -⟩ := (keepsIn_loadWithin hI (alike_allowsLoading htrees hC) steps hr sub
    throwIfMissing visited).of_run subset_rfl ⟨hS, hs⟩ h
  exact ⟨after, hafter, hS'⟩

theorem keeps_followEach (hI : AllowsWriting d A C I)
    (hC : ∀ registry name c, d.find? registry name = some c → C c) (htrees : s.Trees)
    (hS : I known S.graph) (hs : s.Alike S.store) {rs : List RecordRef} (hrs : ∀ r ∈ rs, r ∈ known)
    {result : Except Error Visited} (h : followEach d steps sub rs visited S = (result, S')) :
    ∃ after, known ⊆ after ∧ I after S'.graph ∧ s.Alike S'.store := by
  have hJ := alike_allowsLoading (s := s) htrees hC
  have hkeeps : KeepsIn (Holding I fun _ s' => s.Alike s') known
      (followEach d steps sub rs visited) fun _ _ => True :=
    keepsIn_followRecords hI.toAllowsReading hJ.toAllowsCalls (fun _ inner visited hinner =>
      (keepsIn_loadWithin hI hJ steps hinner sub false visited).bind
        fun _ _ _ _ => .pure fun _ _ => trivial) sub hrs visited
  obtain ⟨after, hafter, hS', -⟩ := hkeeps.of_run subset_rfl ⟨hS, hs⟩ h
  exact ⟨after, hafter, hS'⟩

/-- Loading records of a region changes no cell outside of it that was there before. -/
theorem followEach_leaves (htrees : s.Trees) {lo hi : Nat} (hconfined : S.graph.Confined lo hi)
    (hs : s.Alike S.store) {rs : List RecordRef} (hrs : ∀ r ∈ rs, r ∈ Region lo hi)
    {result : Except Error Visited} (h : followEach d steps sub rs visited S = (result, S')) :
    Leaves (fun n => ¬(lo ≤ n ∧ n < hi)) S.graph S'.graph ∧ s.Alike S'.store := by
  obtain ⟨after, -, hbeside, halike⟩ := keeps_followEach
    (Graph.beside_allowsWriting d lo hi S.graph) (fun _ _ _ _ => trivial) htrees (.start hconfined)
    hs hrs h
  exact ⟨hbeside.kept, halike⟩

theorem loadWithin_leaves (htrees : s.Trees) {lo hi : Nat} (hconfined : S.graph.Confined lo hi)
    (hs : s.Alike S.store) {r : RecordRef} (hr : r ∈ Region lo hi) {throwIfMissing : Bool}
    {result : Except Error (Bool × Visited)}
    (h : loadWithin d steps r sub throwIfMissing visited S = (result, S')) :
    Leaves (fun n => ¬(lo ≤ n ∧ n < hi)) S.graph S'.graph ∧ s.Alike S'.store := by
  obtain ⟨after, -, hbeside, halike⟩ := keeps_loadWithin
    (Graph.beside_allowsWriting d lo hi S.graph) (fun _ _ _ _ => trivial) htrees (.start hconfined)
    hs hr h
  exact ⟨hbeside.kept, halike⟩

end

/-! ### Records that were followed -/

/-- What becomes of a record of a region that is followed: it keeps its identifier, and if records of its
class are not stored, nothing of it changes. -/
structure Settled (d : Directory) (s : Store) (lo hi : Nat) (r : RecordRef) (g g' : Graph) : Prop where
  mem : r ∈ Region lo hi
  identifier : KeepsIdentifier d g g' r
  unregistered : s.isRegistered r.cls = false → ∃ lo' hi', lo ≤ lo' ∧ hi' ≤ hi ∧ r ∈ Region lo' hi' ∧
    g.Confined lo' hi' ∧ ∀ r' ∈ Region lo' hi', g'.cell? r' = g.cell? r'

namespace Settled

variable {lo hi lo' hi' : Nat} {r : RecordRef} {g g₁ g' : Graph} {kept : Nat → Prop}

theorem refl (hr : r ∈ Region lo hi) (hconfined : g.Confined lo hi) : Settled d s lo hi r g g where
  mem := hr
  identifier _ v hidentifier := ⟨v, (Graph.identifier?_eq_some hidentifier).2.1, .inl rfl⟩
  unregistered _ := ⟨lo, hi, Nat.le_refl _, Nat.le_refl _, hr, hconfined, fun _ _ => rfl⟩

theorem mono (h : Settled d s lo hi r g g') (hlo : lo' ≤ lo) (hhi : hi ≤ hi') :
    Settled d s lo' hi' r g g' where
  mem := Graph.region_subset hlo hhi h.mem
  identifier := h.identifier
  unregistered hregistered := by
    obtain ⟨lo₁, hi₁, hlo₁, hhi₁, hrest⟩ := h.unregistered hregistered
    exact ⟨lo₁, hi₁, hlo.trans hlo₁, hhi₁.trans hhi, hrest⟩

/-- What is done elsewhere afterwards does not matter. -/
theorem after (h : Settled d s lo hi r g g₁) (hhi : hi ≤ g₁.cells.size) (hleaves : Leaves kept g₁ g')
    (hkept : ∀ n, lo ≤ n → n < hi → kept n) : Settled d s lo hi r g g' where
  mem := h.mem
  identifier name v hidentifier := by
    obtain ⟨w, hw, hequal⟩ := h.identifier name v hidentifier
    refine ⟨w, ?_, hequal⟩
    rw [← hw]
    exact seen?_congr_made h.mem.1 (hleaves.own? (h.mem.2.2.trans_le hhi)
      (hkept _ h.mem.2.1 h.mem.2.2) name)
  unregistered hregistered := by
    obtain ⟨lo₁, hi₁, hlo₁, hhi₁, hr, hconfined, hcells⟩ := h.unregistered hregistered
    refine ⟨lo₁, hi₁, hlo₁, hhi₁, hr, hconfined, fun r' hr' => ?_⟩
    obtain ⟨-, hge, hlt⟩ := Graph.region_subset hlo₁ hhi₁ hr'
    rw [hleaves.cell? (hlt.trans_le hhi) (hkept _ hge hlt), hcells r' hr']

/-- Nor does what was done elsewhere before. -/
theorem before (h : Settled d s lo hi r g₁ g') (hhi : hi ≤ g.cells.size) (hleaves : Leaves kept g g₁)
    (hkept : ∀ n, lo ≤ n → n < hi → kept n) : Settled d s lo hi r g g' where
  mem := h.mem
  identifier name v hidentifier := by
    refine h.identifier name v (hidentifier ▸ Graph.identifier?_congr fun a _ => ?_)
    exact seen?_congr_made h.mem.1 (hleaves.own? (h.mem.2.2.trans_le hhi)
      (hkept _ h.mem.2.1 h.mem.2.2) a.name)
  unregistered hregistered := by
    obtain ⟨lo₁, hi₁, hlo₁, hhi₁, hr, hconfined, hcells⟩ := h.unregistered hregistered
    have hsame : ∀ r' ∈ Region lo₁ hi₁, g₁.cell? r' = g.cell? r' := by
      intro r' hr'
      obtain ⟨-, hge, hlt⟩ := Graph.region_subset hlo₁ hhi₁ hr'
      exact hleaves.cell? (hlt.trans_le hhi) (hkept _ hge hlt)
    refine ⟨lo₁, hi₁, hlo₁, hhi₁, hr, ⟨fun r' hr' name slot hslot => ?_, fun r' hr' => ?_⟩,
      fun r' hr' => (hcells r' hr').trans (hsame r' hr')⟩
    · rw [Graph.own?, ← hsame r' hr'] at hslot
      exact hconfined.closed r' hr' name slot hslot
    · rw [Graph.isResolving, ← hsame r' hr']
      exact hconfined.calm r' hr'

end Settled

end Store

end TypedRecords
