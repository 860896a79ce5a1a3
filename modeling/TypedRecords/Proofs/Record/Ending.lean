import TypedRecords.Proofs.Record.Entering
import TypedRecords.Proofs.Record.Held

/-! # When traversals end

A record that is being resolved or encoded already is not entered again. That cuts every cycle of records
which hold each other, but not one that a fork has inherited, where each reading makes forks that are
entered for the first time. Traversals end exactly if no walk along what they enter is endless.
-/

namespace TypedRecords

open TypedRecords.Graph (Answers Sound Stands Viewed)
open Stateful (FailsIff)

/-! ### Marks -/

namespace Graph

variable {g : Graph} {r : RecordRef} {marked : List RecordRef}

/-- The given records are being resolved, and no others. -/
def Marks (g : Graph) (marked : List RecordRef) : Prop :=
  ∀ r, g.isResolving r = true ↔ ∃ w ∈ marked, w.serial = r.serial

theorem isResolving_fork (g : Graph) (c : ClassRef) (base r : RecordRef) :
    (g.fork c base).2.isResolving r = g.isResolving r := by
  simp only [isResolving, fork, cell?, Array.getElem?_push]
  split
  · next h =>
    have hnone : g.cells[r.serial]? = none := Array.getElem?_eq_none_iff.2 (Nat.le_of_eq h.symm)
    rw [hnone]
    rfl
  · rfl

theorem isResolving_write (g : Graph) (r : RecordRef) (name : String) (slot : Option Slot)
    (q : RecordRef) : (g.write r name slot).isResolving q = g.isResolving q := by
  simp only [isResolving, write, cell?_modify]
  split
  · cases g.cell? q <;> rfl
  · rfl

theorem isResolving_eq_false (h : ∀ cell ∈ g.cells, cell.resolving = false) (r : RecordRef) :
    g.isResolving r = false := by
  unfold isResolving
  cases hcell : g.cell? r with
  | none => rfl
  | some cell => exact h cell (Array.mem_of_getElem? hcell)

theorem isResolving_markResolving (g : Graph) (r : RecordRef) (b : Bool) (q : RecordRef) :
    (g.markResolving r b).isResolving q =
      if r.serial = q.serial then (g.cell? q).isSome && b else g.isResolving q := by
  simp only [isResolving, markResolving, cell?_modify]
  split
  · cases g.cell? q <;> simp
  · rfl

namespace Marks

theorem slot? (h : g.Marks marked) (r : RecordRef) (name : String) :
    (r.slot? name g).2.Marks marked := by
  refine slot?_keeps (P := fun g => g.Marks marked) ?_ ?_ r name h
  · exact fun g c base h q => by rw [isResolving_fork, h q]
  · exact fun g r name slot h q => by rw [isResolving_write, h q]

theorem mark (h : g.Marks marked) (hr : r.serial < g.cells.size) :
    (g.markResolving r true).Marks (r :: marked) := by
  intro q
  rw [isResolving_markResolving, List.exists_mem_cons_iff]
  split
  · next heq =>
    have hcell : (g.cell? q).isSome := by
      rw [cell?, ← heq]
      simpa using hr
    simp [hcell, heq]
  · next hne => simp [h q, hne]

theorem unmark (h : g.Marks (r :: marked)) (hr : ∀ w ∈ marked, w.serial ≠ r.serial) :
    (g.markResolving r false).Marks marked := by
  intro q
  rw [isResolving_markResolving]
  split
  · next heq =>
    rw [← heq]
    simpa using hr
  · next hne =>
    rw [h q, List.exists_mem_cons_iff]
    exact or_iff_right hne

end Marks

end Graph

/-! ### While records are traversed -/

/-- A graph after reading, with marks. -/
def Traversed (g₀ : Graph) (known₀ : Set RecordRef) (marked : List RecordRef) (known : Set RecordRef)
    (g : Graph) : Prop :=
  Viewed g₀ known₀ known g ∧ g.Marks marked

section

variable {g₀ g : Graph} {known₀ known : Set RecordRef} {marked : List RecordRef} {r r' : RecordRef}

theorem Traversed.isResolving_iff (h : Traversed g₀ known₀ marked known g)
    (hmarked : ∀ w ∈ marked, w ∈ known) (hr : r ∈ known) : g.isResolving r = true ↔ r ∈ marked := by
  rw [h.2 r]
  constructor
  · intro hsame
    obtain ⟨w, hw, hserial⟩ := hsame
    exact h.1.sound.alone w (hmarked w hw) r hr hserial ▸ hw
  · exact fun hmem => ⟨r, hmem, rfl⟩

/-- What is done while a record is marked fails as it does, and leaves no mark. -/
theorem marked_failsIff {α : Type} {e : Error} {E : Prop} {x : Action α} {Q : Set RecordRef → α → Prop}
    (hr : r ∈ known) (hmarked : ∀ w ∈ marked, w ∈ known) (hunmarked : r ∉ marked)
    (hx : FailsIff e E (Traversed g₀ known₀ (r :: marked)) known x Q) :
    FailsIff e E (Traversed g₀ known₀ marked) known (do
      modify fun g => g.markResolving r true
      let a ← x
      modify fun g => g.markResolving r false
      pure a) Q := by
  have hmarking := (Graph.viewed_allowsReading g₀ known₀).resolving
  intro before hknown g hg
  have hbegun : Traversed g₀ known₀ (r :: marked) before (g.markResolving r true) :=
    ⟨hmarking before r true g (hknown hr) hg.1, hg.2.mark (hg.1.sound.bounded r (hknown hr))⟩
  rcases hx before hknown _ hbegun with ⟨hE, t, hrun⟩ | ⟨hE, a, t, after, hrun, hafter, ht, hq⟩
  · exact .inl ⟨hE, t, (Stateful.bind_of_ok rfl).trans (Stateful.bind_of_error hrun)⟩
  · have hlater := hknown.trans hafter
    have hlast : (t.markResolving r false).Marks marked := by
      refine ht.2.unmark fun w hw hserial => hunmarked ?_
      exact ht.1.sound.alone w (hlater (hmarked w hw)) r (hlater hr) hserial ▸ hw
    exact .inr ⟨hE, a, t.markResolving r false, after,
      (Stateful.bind_of_ok rfl).trans ((Stateful.bind_of_ok hrun).trans rfl), hafter,
      ⟨hmarking after r false t (hlater hr) ht.1, hlast⟩, hq⟩

theorem reads (hr : Stands g₀ known₀ known r r') (name : String) :
    FailsIff .unending False (Traversed g₀ known₀ marked) known (Record.lift (r'.value? name))
      fun after v => Answers g₀ known₀ after r r' name v :=
  (FailsIff.of_keepsIn (Viewed.keeps_answers hr name) fun _ => ⟨_, _, rfl⟩).and_keeps
    fun _ hg => hg.slot? r' name

/-- The records that are read stand where those of before did, within the record that is read. -/
theorem reads_records {R : Set RecordRef → RecordRef → RecordRef → Prop}
    {above : Option (List RecordRef)} {visiting : List RecordRef} (hg₀ : g₀.Sound known₀)
    (hr : Stands g₀ known₀ known r r') (haround : Around g₀.cells.size r r' visiting above)
    (name : String) (h : ∀ after, known ⊆ after → ∀ q q', Stands g₀ known₀ after q q' →
      Around g₀.cells.size q q' (r' :: visiting) (g₀.around above r name) → R after q q') :
    FailsIff .unending False (Traversed g₀ known₀ marked) known (Record.lift (r'.value? name))
      fun after v => Option.Rel (Value.Reforked (R after)) (g₀.seen? r name) v := by
  refine (reads hr name).imp fun after hafter v hv => ?_
  refine Graph.optionRel_imp hv.forked_mem fun q q' hq => ?_
  obtain ⟨hstands, w, rfl, hmem⟩ := hq
  exact h after hafter q q' hstands (haround.step hg₀ hv hmem hr.before hstands)

end

namespace Record

variable {d : Directory} {g₀ g : Graph} {known₀ known : Set RecordRef} {marked : List RecordRef}
  {r r' : RecordRef}

/-! ### Resolving -/

theorem resolveWithin_of_marked {how : Narrowing} {steps : Nat} {s : Selector} (hs : s.IsNormal)
    (hsome : s.isNone = false) (hmarked : g.isResolving r = true) :
    resolveWithin d how (steps + 1) r s g = (.ok s, g) := by
  simp only [resolveWithin, hs.normalize_eq, hsome, Bool.false_eq_true, if_false]
  refine (Stateful.bind_of_ok (a := g) (t := g) rfl).trans ?_
  rw [hmarked]
  rfl

theorem resolveWithin_of_unmarked {how : Narrowing} {steps : Nat} {s : Selector} (hs : s.IsNormal)
    (hsome : s.isNone = false) (hunmarked : g.isResolving r = false) :
    resolveWithin d how (steps + 1) r s g = (do
      modify fun g => g.markResolving r true
      let resolved ← (d.attributes r.cls).foldlM
        (narrowAttribute how (resolveInner d how steps) r s) (.only [])
      modify fun g => g.markResolving r false
      pure resolved : Action Selector) g := by
  simp only [resolveWithin, hs.normalize_eq, hsome, Bool.false_eq_true, if_false]
  refine (Stateful.bind_of_ok (a := g) (t := g) rfl).trans ?_
  rw [hunmarked]
  rfl

theorem resolveInner_failsIff {E : Prop} {how : Narrowing} {steps : Nat} {s : Selector}
    {I : Set RecordRef → Graph → Prop} {e : Error} (hr : r'.cls = r.cls)
    (h : FailsIff e E I known (resolveWithin d how steps r' s) fun _ _ => True) :
    FailsIff e ((how.includeReferenced = true ∨ (d.definition r.cls).referenceable = false) ∧ E)
      I known (resolveInner d how steps r' s) fun _ _ => True := by
  have hstays : (!how.includeReferenced && (d.definition r.cls).referenceable) = false ↔
      how.includeReferenced = true ∨ (d.definition r.cls).referenceable = false := by
    cases how.includeReferenced <;> simp
  rw [resolveInner, hr, ← hstays]
  cases (!how.includeReferenced && (d.definition r.cls).referenceable) with
  | true => exact .pure_of_not (by simp)
  | false => exact h.congr (by simp)

/-- Resolving does not end exactly if there is a walk of as many steps as it may take. -/
theorem resolveWithin_failsIff (hg₀ : g₀.Sound known₀) (how : Narrowing) {n : Nat}
    {above : Option (List RecordRef)} {visiting : List RecordRef} {s : Selector} (hs : s.IsNormal)
    (hr : Stands g₀ known₀ known r r') (haround : Around g₀.cells.size r r' visiting above)
    (hvisiting : ∀ w ∈ visiting, w ∈ known) :
    FailsIff .unending (g₀.Deep d (how.way d) n above r s) (Traversed g₀ known₀ visiting) known
      (resolveWithin d how n r' s) fun _ _ => True := by
  induction n generalizing known r r' s above visiting with
  | zero => exact FailsIff.throw
  | succ n ih =>
    have hwithin : ∀ w ∈ r' :: visiting, w ∈ known := List.forall_mem_cons.2 ⟨hr.known, hvisiting⟩
    have hattribute : ∀ a acc, FailsIff .unending
        ((s.get a.name).isNone = false ∧ ∃ v, g₀.seen? r a.name = some v ∧ ∃ q, a.type.Enters v q ∧
          (how.includeReferenced = true ∨ (d.definition q.cls).referenceable = false) ∧
            g₀.Deep d (how.way d) n (g₀.around above r a.name) q (s.get a.name))
        (Traversed g₀ known₀ (r' :: visiting)) known
        (narrowAttribute how (resolveInner d how n) r' s acc a) fun _ _ => True := by
      intro a acc
      refine narrowAttribute_failsIff (reads_records hg₀ hr haround a.name ?_) acc
      intro after hafter q q' hq haround'
      exact resolveInner_failsIff hq.descends.cls
        (ih (hs.get a.name) hq haround' fun w hw => hafter (hwithin w hw))
    have hfold := FailsIff.foldlM (fun a (_ : a ∈ d.attributes r'.cls) acc => hattribute a acc) (.only [])
    intro before hknown g hg
    have hresolving := hg.isResolving_iff (fun w hw => hknown (hvisiting w hw)) (hknown hr.known)
    cases hsome : s.isNone with
    | true =>
      refine .inr ⟨fun hdeep => ?_, s, g, before, ?_, subset_rfl, hg, trivial⟩
      · obtain ⟨-, a, -, hselects, -⟩ := Graph.deep_succ_iff.1 hdeep
        rw [Selector.isNone_get hsome] at hselects
        cases hselects
      · simp only [resolveWithin, hs.normalize_eq, hsome, if_true]
        rfl
    | false =>
      by_cases hmem : r' ∈ visiting
      · exact .inr ⟨fun hdeep => haround.not_mem hdeep.1 hmem, s, g, before,
          resolveWithin_of_marked hs hsome (hresolving.2 hmem), subset_rfl, hg, trivial⟩
      · have hapart : ∀ around, above = some around → r ∉ around :=
          fun around habove hin => hmem (haround.mem habove hin)
        rw [resolveWithin_of_unmarked hs hsome (Bool.eq_false_iff.2 (hresolving.not.2 hmem))]
        refine ((marked_failsIff hr.known hvisiting hmem hfold).congr ?_) before hknown g hg
        rw [Graph.deep_succ_iff, and_iff_right hapart, hr.descends.cls]
        simp [Narrowing.way, and_assoc]

/-! ### Encoding -/

theorem header_failsIff {I : Set RecordRef → Graph → Prop} {e : Error} (target : Target)
    (r : RecordRef) : FailsIff e False I known (header target r) fun _ _ => True := by
  unfold header
  refine FailsIff.get.bind_of_never fun g _ _ _ => ?_
  split <;> exact .pure fun _ _ => trivial

/-- What stands for a record with an identifier can be described. -/
theorem descriptor_failsIff (hr : Stands g₀ known₀ known r r')
    (hidentified : (g₀.identifier? d r).isSome) :
    FailsIff .unending False (Traversed g₀ known₀ marked) known (descriptor d r') fun _ _ => True := by
  rw [descriptor, hr.descends.cls]
  rw [Graph.identifier?] at hidentified
  generalize (d.definition r.cls).identifiers = attributes at hidentified
  induction attributes generalizing known with
  | nil => cases hidentified
  | cons a rest ih =>
    rw [List.findSome?_cons] at hidentified
    refine (reads hr a.name).bind_of_never fun v after hafter hv => ?_
    have hforked := hv.forked
    generalize g₀.seen? r a.name = old at hforked hidentified
    cases hforked with
    | none => exact ih (hr.mono hafter) hidentified
    | @some w w' hvalue =>
      cases hvalue with
      | undefined => exact ih (hr.mono hafter) hidentified
      | leaf hleaf => cases w <;> first | exact .pure fun _ _ => trivial | cases hleaf
      | classRef c => exact .pure fun _ _ => trivial
      | record _ => exact .pure fun _ _ => trivial
      | array _ => exact .pure fun _ _ => trivial
      | object _ _ => exact .pure fun _ _ => trivial

/-- Encoding does not end exactly if there is a walk of as many steps as it may take. -/
theorem encodeWithin_failsIff (hg₀ : g₀.Sound known₀)
    (hidentified : ∀ r ∈ known₀, (g₀.identifier? d r).isSome) {n : Nat}
    {above : Option (List RecordRef)} {visiting : List RecordRef} {s : Selector} {isRoot : Bool}
    (hr : Stands g₀ known₀ known r r') (haround : Around g₀.cells.size r r' visiting above) :
    FailsIff .unending (g₀.Deep d encodingWay n above r s) (Traversed g₀ known₀ marked) known
      (encodeWithin d .remote n visiting isRoot r' s) fun _ _ => True := by
  induction n generalizing known r r' s above visiting isRoot with
  | zero => exact FailsIff.throw
  | succ n ih =>
    have hapart : (∀ around, above = some around → r ∉ around) ↔ r' ∉ visiting :=
      ⟨haround.not_mem, fun hmem around habove hin => hmem (haround.mem habove hin)⟩
    have hinside : (visiting.contains r' ||
        (!isRoot && Target.remote == .store && (d.definition r'.cls).referenceable)) =
          decide (r' ∈ visiting) := by
      cases isRoot <;> simp
    simp only [encodeWithin, hinside, decide_eq_true_eq, Graph.deep_succ_iff, hapart]
    split
    · next hmem =>
      have hdescribed : ∀ {after}, known ⊆ after → FailsIff .unending False
          (Traversed g₀ known₀ marked) after (descriptor d r') fun _ _ => True :=
        fun hafter => descriptor_failsIff (hr.mono hafter) (hidentified r hr.before)
      have hreference := (header_failsIff .remote r').bind_never fun tags after hafter _ =>
        (hdescribed hafter).map fun described => Value.object (Fields.insertAll tags described)
      exact hreference.congr (by simp [hmem])
    · next hmem =>
      have hattribute : ∀ {after}, known ⊆ after → ∀ a acc, FailsIff .unending
          ((s.get a.name).isNone = false ∧ ∃ v, g₀.seen? r a.name = some v ∧
            ∃ q t, v.Enters (s.get a.name) q t ∧
              g₀.Deep d encodingWay n (g₀.around above r a.name) q t)
          (Traversed g₀ known₀ marked) after
          (encodeAttribute (encodeWithin d .remote n (r' :: visiting) false) r' s acc a)
          fun _ _ => True := by
        intro after hafter a acc
        refine encodeAttribute_failsIff (E := fun q t =>
          g₀.Deep d encodingWay n (g₀.around above r a.name) q t) ?_ acc
        exact reads_records hg₀ (hr.mono hafter) haround a.name
          fun _ _ _ _ hq haround' _ => ih hq haround'
      have hfields := (header_failsIff .remote r').bind_of_never fun tags after hafter _ =>
        (FailsIff.foldlM (fun a (_ : a ∈ d.attributes r'.cls) acc => hattribute hafter a acc)
          tags).map Value.object
      exact hfields.congr (by simp [hmem, hr.descends.cls, encodingWay])

/-! ### Ending -/

/-- With the steps that it gives itself a traversal comes to a result, unless a condition holds. Under the
condition no number of steps is enough. -/
structure EndsUnless {α : Type} (E : Prop) (g : Graph) (run : Action α) (within : Nat → Action α) :
    Prop where
  ends : ¬E → ∃ a, (run g).1 = .ok a
  fails : E → (run g).1 = .error .unending
  never : E → ∀ n, (within n g).1 = .error .unending

theorem EndsUnless.of_failsIff {α : Type} {E : Prop} {P : Nat → Prop} {run : Action α}
    {within : Nat → Action α} {I : Set RecordRef → Graph → Prop} (hI : I known g)
    (hfails : ∀ n, FailsIff .unending (P n) I known (within n) fun _ _ => True) (hE : E → ∀ n, P n)
    {n : Nat} (hn : P n → E) (hrun : run g = within n g) : EndsUnless E g run within := by
  have hnever : E → ∀ n, (within n g).1 = .error .unending := by
    intro hendless n
    rcases hfails n known subset_rfl g hI with ⟨-, t, hwithin⟩ | ⟨hP, -⟩
    · rw [hwithin]
    · exact absurd (hE hendless n) hP
  refine ⟨fun hends => ?_, fun hendless => ?_, hnever⟩
  · rcases hfails n known subset_rfl g hI with ⟨hP, -⟩ | ⟨-, a, t, -, ha, -⟩
    · exact absurd (hn hP) hends
    · exact ⟨a, by rw [hrun, ha]⟩
  · rw [hrun]
    exact hnever hendless n

theorem stepsFor_eq (s : Selector) (g : Graph) :
    stepsFor s g = (.ok (g.cells.size + s.depth + 2), g) := rfl

theorem resolveWithin_normalize (how : Narrowing) (n : Nat) (r : RecordRef) (s : Selector) :
    resolveWithin d how n r s.normalize = resolveWithin d how n r s := by
  cases n with
  | zero => rfl
  | succ n => simp only [resolveWithin, (Selector.isNormal_normalize s).normalize_eq]

theorem traversed_start (hg : g.Sound known) (hidle : ∀ r, g.isResolving r = false) :
    Traversed g known [] known g :=
  ⟨hg.viewed, fun r => by simp [hidle r]⟩

theorem around_start (hg : g.Sound known) (hr : r ∈ known) :
    Around g.cells.size r r [] (some []) :=
  .itself rfl (by simpa using hg.bounded r hr)

theorem resolve_endsUnless (hg : g.Sound known) (hr : r ∈ known)
    (hidle : ∀ r, g.isResolving r = false) (how : Narrowing) (s : Selector) :
    EndsUnless (g.Endless d (how.way d) (some []) r s.normalize) g (resolve d how r s)
      (fun n => resolveWithin d how n r s) := by
  have hdepth := s.depth_normalize_le
  refine .of_failsIff (I := Traversed g known []) (n := g.cells.size + s.depth + 2)
    (traversed_start hg hidle) (fun n => ?_) Graph.Endless.deep
    (fun h => h.endless (how.way_enters d) hg hr (by omega)) (Stateful.bind_of_ok (stepsFor_eq s g))
  rw [← resolveWithin_normalize]
  exact resolveWithin_failsIff hg how (Selector.isNormal_normalize s) (hg.viewed.stands hr)
    (around_start hg hr) (by simp)

theorem encode_endsUnless (hg : g.Sound known) (hr : r ∈ known)
    (hidle : ∀ r, g.isResolving r = false) (hidentified : ∀ r ∈ known, (g.identifier? d r).isSome)
    (s : Selector) :
    EndsUnless (g.Endless d encodingWay (some []) r s) g (encode d .remote s (.record r))
      (fun n => encodeWithin d .remote n [] true r s) := by
  refine .of_failsIff (I := Traversed g known []) (n := g.cells.size + s.depth + 2)
    (traversed_start hg hidle) (fun n => ?_) Graph.Endless.deep
    (fun h => h.endless encodingWay_enters hg hr (by omega)) (Stateful.bind_of_ok (stepsFor_eq s g))
  exact encodeWithin_failsIff hg hidentified (hg.viewed.stands hr) (around_start hg hr)

/-- Resolving a selector and encoding end unless a walk along what they enter is endless. Where no record
is a fork there are no such walks, whatever cycles there are. -/
theorem traversals_end (hg : g.Sound known) (hr : r ∈ known) (hidle : ∀ r, g.isResolving r = false)
    (hidentified : ∀ r ∈ known, (g.identifier? d r).isSome) (how : Narrowing) (s : Selector) :
    EndsUnless (g.Endless d (how.way d) (some []) r s.normalize) g (resolve d how r s)
        (fun n => resolveWithin d how n r s) ∧
      EndsUnless (g.Endless d encodingWay (some []) r s) g (encode d .remote s (.record r))
        (fun n => encodeWithin d .remote n [] true r s) ∧
      ((∀ r ∈ known, r.base? = none) → ¬g.Endless d (how.way d) (some []) r s.normalize ∧
        ¬g.Endless d encodingWay (some []) r s) := by
  refine ⟨resolve_endsUnless hg hr hidle how s, encode_endsUnless hg hr hidle hidentified s, ?_⟩
  intro hmade
  exact ⟨Graph.not_endless_of_made (how.way_enters d) hg hmade hr,
    Graph.not_endless_of_made encodingWay_enters hg hmade hr⟩

end Record

/-! ### An example: two partners -/

namespace Partners

open Record

def memberClass : ClassRef := .declared 0 "Member"

def partnerAttribute : Attribute := ⟨"partner", .plain, .reference "Member" false {}, none⟩

/-- Members, who have a name that identifies them and a partner. -/
def memberClasses : Directory where
  classes := #[
    { definition := {
        attributes := [("name", ⟨"name", .primary, .scalar .string {}, none⟩),
          ("partner", partnerAttribute)]
        indexes := [], embedded := false, storable := false } }]

def member (serial : Nat) : RecordRef := .made serial memberClass

/-- Two members, each of whom is the partner of the other. -/
def partners : Graph where
  cells := #[
    { slots := [("name", some ⟨.string "Ada", .here⟩), ("partner", some ⟨.record (member 1), .here⟩)]
      isNew := true },
    { slots := [("name", some ⟨.string "Bob", .here⟩), ("partner", some ⟨.record (member 0), .here⟩)]
      isNew := true }]

/-- A fork of the first member, and the graph with it. -/
def forked : RecordRef := .fork 2 memberClass (member 0)

def withFork : Graph := (partners.fork memberClass (member 0)).2

theorem partners_sound : partners.Sound {member 0, member 1} := by
  refine .of_cells ?_ ?_ ?_ ?_ <;>
    simp [partners, member, RecordRef.serial, Value.Within, Value.records, -Prod.forall]

theorem withFork_sound : withFork.Sound {member 0, member 1} :=
  partners_sound.of_own?_eq (Nat.le_succ _) (Graph.own?_fork partners memberClass (member 0))

theorem withFork_sound_forked : withFork.Sound {forked, member 0, member 1} := by
  have hown := Graph.own?_fork partners memberClass (member 0)
  refine partners_sound.insert rfl rfl hown fun base hbase => ?_
  cases hbase
  exact Set.mem_insert _ _

theorem withFork_idle (r : RecordRef) : withFork.isResolving r = false :=
  Graph.isResolving_eq_false (by simp [withFork, partners, Graph.fork]) r

theorem withFork_identified : ∀ r ∈ ({forked, member 0, member 1} : Set RecordRef),
    (withFork.identifier? memberClasses r).isSome := by
  rintro r (rfl | rfl | rfl) <;> rfl

theorem withFork_endless {way : Graph.Way} (hway : ∀ r, way partnerAttribute .all (.record r) r .all) :
    withFork.Endless memberClasses way (some []) forked .all := by
  have hleads : ∀ r q, r.cls = memberClass → withFork.seen? r "partner" = some (.record q) →
      withFork.Leads memberClasses way r .all "partner" q .all := by
    intro r q hr hq
    refine ⟨partnerAttribute, ?_, rfl, rfl, _, hq, hway q⟩
    rw [hr]
    exact List.mem_cons_of_mem _ List.mem_cons_self
  have hcycle : Relation.TransGen (withFork.Follows memberClasses way) (member 1) (member 1) :=
    .tail (.single ⟨_, hleads (member 1) (member 0) rfl rfl⟩) ⟨_, hleads (member 0) (member 1) rfl rfl⟩
  exact .step (by simp) (hleads forked (member 1) rfl rfl) (.cycle hcycle)

/-- The original ends and its fork does not, whichever steps are given. -/
theorem traversals_end_partners :
    (∃ s, (resolve memberClasses {} (member 0) .all withFork).1 = .ok s) ∧
      (∃ t, (encode memberClasses .remote .all (.record (member 0)) withFork).1 = .ok t) ∧
      (∀ n, (resolveWithin memberClasses {} n forked .all withFork).1 = .error .unending) ∧
      ∀ n, (encodeWithin memberClasses .remote n [] true forked .all withFork).1 = .error .unending := by
  obtain ⟨hresolve, hencode, hmade⟩ := traversals_end withFork_sound (Set.mem_insert _ _)
    withFork_idle (fun r hr => withFork_identified r (.inr hr)) {} .all
  obtain ⟨hresolve', hencode', -⟩ := traversals_end withFork_sound_forked (Set.mem_insert _ _)
    withFork_idle withFork_identified {} .all
  have hends := hmade fun r hr => (by rcases hr with rfl | rfl <;> rfl)
  refine ⟨hresolve.ends hends.1, hencode.ends hends.2, hresolve'.never ?_, hencode'.never ?_⟩
  · exact withFork_endless fun _ => ⟨.reference, .inl rfl, rfl⟩
  · exact withFork_endless fun _ => .record

/-- The names of a member, of its partner, of the partner of that one and so on. -/
def thrice : Selector :=
  .only [("name", .all), ("partner", .only [("name", .all),
    ("partner", .only [("name", .all), ("partner", .only [("name", .all)])])])]

def tagged (fields : Object) : Value :=
  .object ((Tree.classTag, .string "Member") :: (Tree.newTag, .boolean true) :: fields)

/-- The fork is walked around without end, and as far as a selector tells to. The original is cut where
it comes back to itself. -/
theorem forked_cycle_uncut :
    (resolve memberClasses {} forked .all withFork).1 = .error .unending ∧
      (encode memberClasses .remote .all (.record forked) withFork).1 = .error .unending ∧
      (∀ n, (resolveWithin memberClasses {} n forked .all withFork).1 = .error .unending) ∧
      (∀ n, (encodeWithin memberClasses .remote n [] true forked .all withFork).1 = .error .unending) ∧
      (encode memberClasses .remote thrice (.record (member 0)) withFork).1 = .ok
        (tagged [("name", .string "Ada"), ("partner", tagged [("name", .string "Bob"), ("partner",
          tagged [("name", .string "Ada")])])]) ∧
      (encode memberClasses .remote thrice (.record forked) withFork).1 = .ok
        (tagged [("name", .string "Ada"), ("partner", tagged [("name", .string "Bob"), ("partner",
          tagged [("name", .string "Ada"), ("partner", tagged [("name", .string "Bob")])])])]) := by
  have hresolve := resolve_endsUnless (d := memberClasses) withFork_sound_forked (Set.mem_insert _ _)
    withFork_idle {} .all
  have hencode := encode_endsUnless withFork_sound_forked (Set.mem_insert _ _) withFork_idle
    withFork_identified .all
  have hwalk : withFork.Endless memberClasses (Narrowing.way {} memberClasses) (some []) forked .all :=
    withFork_endless fun _ => ⟨.reference, .inl rfl, rfl⟩
  have hwalk' : withFork.Endless memberClasses encodingWay (some []) forked .all :=
    withFork_endless fun _ => .record
  exact ⟨hresolve.fails hwalk, hencode.fails hwalk', hresolve.never hwalk, hencode.never hwalk',
    rfl, rfl⟩

end Partners

end TypedRecords
