import TypedRecords.Proofs.Record.Narrowed
import TypedRecords.Proofs.Record.Typed
import TypedRecords.Proofs.Store.Interrupted
import TypedRecords.Proofs.Store.Unread

/-! # Loads of any store end

Documents may refer to each other and to themselves, and to documents that are not there. Each document
that a load reads brings new records, which are loaded in turn. But a document is not read again by an
identifier by which it was read before, so a load never goes deeper than the store has fields, and the
records of which the selector is narrowed are no forks.
-/

namespace TypedRecords

open TypedRecords.Graph (Beside)
open RecordRef (Region)
open Stateful (Never)

variable {d : Directory} {registry : RegistryRef} {source : Source} {r : RecordRef} {g g' : Graph}

/-! ### Trees are decoded in the end -/

/-- Errors of stores, and that a traversal does not end: a value that is read or assigned causes none. -/
def Error.OfStore : Error → Prop
  | .store _ => True
  | .unending => True
  | _ => False

section

variable {e : Error} (he : e.OfStore)

include he

theorem Stateful.Never.throw_other {σ α : Type} {e' : Error} (he' : ¬e'.OfStore) :
    Never e (MonadExcept.throw e' : Stateful σ α) :=
  .throw fun heq => he' (heq ▸ he)

theorem ValueType.check_ne (site : Site) (t : ValueType) (v : Value) :
    t.check site v ≠ .error e := by
  have hmismatch : ∀ (t : ValueType) (v : Value), (throw (t.mismatch site v) : Except Error Unit) ≠
      .error e := by
    rintro t v ⟨⟩
    exact he
  have hguard : ∀ (p : Bool) (t : ValueType) (v : Value),
      (if p then pure () else throw (t.mismatch site v) : Except Error Unit) ≠ .error e := by
    intro p t v
    cases p
    · exact hmismatch t v
    · exact nofun
  induction t generalizing v with
  | scalar kind traits =>
    cases kind with
    | any => exact nofun
    | _ => cases v <;> exact hguard _ _ _
  | array item traits ih =>
    cases v with
    | array items => exact forM_ne_error fun v _ => ih v
    | undefined => exact hguard _ _ _
    | _ => exact hmismatch _ _
  | reference name toClass traits =>
    cases toClass <;> cases v <;> first | exact hguard _ _ _ | exact hmismatch _ _

namespace Record

omit he in
theorem never_ofExcept {α : Type} {x : Except Error α} (hx : x ≠ .error e) :
    Never e (ofExcept x) := by
  cases x with
  | ok a => exact .pure a
  | error e' => exact .throw fun heq => hx (heq ▸ rfl)

theorem attributeNamed_never (c : ClassRef) (name : String) :
    Never e (ofExcept (d.attributeNamed c name)) := by
  unfold Directory.attributeNamed
  split
  · exact .pure _
  · exact .throw_other he id

theorem find_never (name : String) : Never e (ofExcept (d.find registry name)) := by
  unfold Directory.find
  split
  · exact .pure _
  · exact .throw_other he id

theorem setFrom_never (name : String) (v : Value) : Never e (setFrom d source r name v) := by
  unfold setFrom check
  refine .bind (.bind (attributeNamed_never he _ _) fun a => never_ofExcept ?_) fun _ => ?_
  · exact ValueType.check_ne he _ _ _
  · intro s h
    cases h

omit he in
theorem mark_never (isNew : Bool) : Never e (mark r isNew) := by
  intro s h
  cases h

theorem decodeAttributes_never_of {fields : Object}
    (ih : ∀ entry ∈ fields, Never e (decode d registry source entry.2)) :
    Never e (decodeAttributes d registry source r fields) := by
  induction fields with
  | nil => exact .pure _
  | cons entry rest ihRest =>
    obtain ⟨name, t⟩ := entry
    obtain ⟨hdecode, hrest⟩ := List.forall_mem_cons.1 ih
    simp only [decodeAttributes]
    split
    · exact ihRest hrest
    · refine (attributeNamed_never he _ _).bind fun _ => hdecode.bind fun v => ?_
      exact (setFrom_never he name v).bind fun _ => ihRest hrest

theorem decode_never (t : Value) : Never e (decode d registry source t) := by
  induction t using Value.induction with
  | array items ih =>
    have hitems : Never e (decodeItems d registry source items) := by
      induction items with
      | nil => exact .pure _
      | cons t rest ihRest =>
        obtain ⟨ht, hrest⟩ := List.forall_mem_cons.1 ih
        exact ht.bind fun v => (ihRest hrest).bind fun vs => .pure _
    exact hitems.bind fun vs => .pure _
  | object fields ih =>
    simp only [decode]
    split
    · split
      · exact (find_never he _).bind fun c => .pure _
      · refine (find_never he _).bind fun c => .bind (f := fun r => _) ?_ fun r => ?_
        · intro s h
          cases h
        · exact (decodeAttributes_never_of he ih).bind fun _ => .pure _
    · exact .throw_other he id
    · next huntagged =>
      clear huntagged
      have hfields : Never e (decodeFields d registry source fields) := by
        induction fields with
        | nil => exact .pure _
        | cons entry rest ihRest =>
          obtain ⟨ht, hrest⟩ := List.forall_mem_cons.1 ih
          exact ht.bind fun v => (ihRest hrest).bind fun vs => .pure _
      exact hfields.bind fun vs => .pure _
  | other t harray hobject =>
    cases t with
    | array items => cases harray
    | object fields => cases hobject
    | _ => exact .pure _

theorem decodeInto_never (t : Value) : Never e (decodeInto d registry source r t) := by
  have hdecoded : ∀ fields, Never e (decodeAttributes d registry source r fields) :=
    fun fields => decodeAttributes_never_of he fun entry _ => decode_never he entry.2
  cases t with
  | object fields =>
    simp only [decodeInto]
    split
    · split
      · split
        · exact (mark_never _).bind fun _ => hdecoded fields
        · exact hdecoded fields
      · exact .throw_other he id
    · exact .throw_other he id
    · split
      · exact (mark_never _).bind fun _ => hdecoded fields
      · exact hdecoded fields
  | _ => exact .throw_other he id

end Record

end

/-! ### Regions of records that are no forks -/

/-- Something was done with records of a region and with new ones, none of them forks, and their
identifiers are keys or undefined. -/
def Graph.Enclosed (d : Directory) (lo hi : Nat) (g₀ : Graph) (known : Set RecordRef) (g : Graph) :
    Prop :=
  Beside lo hi g₀ known g ∧ g.Typed d known

theorem Graph.enclosed_allowsWriting (hd : d.Lawful) (lo hi : Nat) (g₀ : Graph) :
    AllowsWriting d (IdentifierKey d) d.Inherits (Enclosed d lo hi g₀) where
  slot known r name g hr hg := by
    have hread := RecordRef.slot?_made (hg.1.inside r hr).1 name g
    rw [hread]
    exact ⟨known, subset_rfl, hg, fun slot hslot =>
      hg.1.closed r hr name slot (Option.join_eq_some_iff.1 hslot)⟩
  resolving known r b g hr hg := ⟨(beside_allowsWriting d lo hi g₀).resolving known r b g hr hg.1,
    (typed_allowsWriting hd).resolving known r b g hr hg.2⟩
  accepted := (typed_allowsWriting hd).accepted
  present known r name g hr hg := (typed_allowsWriting hd).present known r name g hr hg.2
  write known r name v source g hr hv hwithin hg :=
    ⟨(beside_allowsWriting d lo hi g₀).write known r name v source g hr trivial hwithin hg.1,
      (typed_allowsWriting hd).write known r name v source g hr hv hwithin hg.2⟩
  unset known r name g hr hg := ⟨(beside_allowsWriting d lo hi g₀).unset known r name g hr hg.1,
    (typed_allowsWriting hd).unset known r name g hr hg.2⟩
  mark known r b g hr hg := ⟨(beside_allowsWriting d lo hi g₀).mark known r b g hr hg.1,
    (typed_allowsWriting hd).mark known r b g hr hg.2⟩
  instantiate known c isNew g hc hg :=
    ⟨(beside_allowsWriting d lo hi g₀).instantiate known c isNew g trivial hg.1,
      (typed_allowsWriting hd).instantiate known c isNew g hc hg.2⟩
  given known n g hg := ⟨(beside_allowsWriting d lo hi g₀).given known n g hg.1,
    (typed_allowsWriting hd).given known n g hg.2⟩

namespace Graph

/-- Some of the known records, closed under what they hold. -/
theorem Typed.restrict {known part : Set RecordRef} {g : Graph} (h : g.Typed d known)
    (hpart : part ⊆ known) (hmade : ∀ r ∈ part, r.base? = none) (hclosed : ∀ r ∈ part, ∀ name slot,
      g.own? r name = some (some slot) → slot.value.Within part) : g.Typed d part where
  sound := {
    bounded := fun r hr => h.sound.bounded r (hpart hr)
    alone := fun r hr r' hr' => h.sound.alone r (hpart hr) r' (hpart hr')
    base := fun serial c base hfork => by cases hmade _ hfork
    within := hclosed }
  inherits r hr := h.inherits r (hpart hr)
  forks serial c base hfork := h.forks serial c base (hpart hfork)
  keys r hr := h.keys r (hpart hr)

theorem enclosed_of_made {known : Set RecordRef} {g : Graph} (h : g.Typed d known)
    (hmade : ∀ r ∈ known, r.base? = none) : Enclosed d 0 g.cells.size g known g := by
  refine ⟨⟨.refl _ g, fun r hr => ?_, h.sound.within⟩, h⟩
  exact ⟨hmade r hr, .inl ⟨Nat.zero_le _, h.sound.bounded r hr⟩⟩

end Graph

open TypedRecords.Graph (Enclosed)

namespace Store

section

variable {e : Error} (he : e.OfStore)

include he

theorem assignMissing_never (name : String) : Never e (assignMissing d r name) := by
  refine (Record.attributeNamed_never he _ _).bind fun a => ?_
  split
  · exact Record.setFrom_never he name .undefined
  · refine (Record.attributeNamed_never he _ _).bind fun a s h => ?_
    cases h

theorem applyDocument_never (s : Selector) (document : Document) :
    Never e (applyDocument d registry r s document) := by
  unfold applyDocument
  split
  · refine (Record.decodeInto_never he _).bind fun _ => ?_
    exact (Never.forM fun name _ => assignMissing_never he name).bind fun _ => Record.mark_never false
  · exact .throw_other he id

end

/-! ### What was read stays read -/

variable {s : Store} {S S' : Session} {steps : Nat} {asked sub s' : Selector} {visited visited' : Visited}

theorem followRecords_grows {load : RecordRef → Visited → StoreAction Visited}
    (hload : ∀ r visited visited' S S', load r visited S = (.ok visited', S') → visited ⊆ visited')
    {rs : List RecordRef} (h : followRecords d load sub rs visited S = (.ok visited', S')) :
    visited ⊆ visited' := by
  induction rs generalizing visited S with
  | nil =>
    cases h
    exact List.Subset.refl _
  | cons r rest ih =>
    rw [followRecords] at h
    obtain ⟨_, _, -, h₁⟩ := Stateful.bind_eq_ok h
    obtain ⟨follow, _, -, h₂⟩ := Stateful.bind_eq_ok h₁
    split at h₂
    · obtain ⟨visited₁, _, hstep, hlater⟩ := Stateful.bind_eq_ok h₂
      exact List.Subset.trans (hload _ _ _ _ _ hstep) (ih hlater)
    · exact ih h₂

theorem loadWithin_grows {throwIfMissing found : Bool}
    (h : loadWithin d steps r asked throwIfMissing visited S = (.ok (found, visited'), S')) :
    visited ⊆ visited' := by
  induction steps generalizing r asked throwIfMissing found visited visited' S S' with
  | zero => cases h
  | succ steps ih =>
    rw [loadWithin_succ] at h
    obtain ⟨_, _, -, h₁⟩ := Stateful.bind_eq_ok h
    obtain ⟨_, _, -, h₂⟩ := Stateful.bind_eq_ok h₁
    obtain ⟨descriptor, _, -, h₃⟩ := Stateful.bind_eq_ok h₂
    obtain ⟨_, _, -, h₄⟩ := Stateful.bind_eq_ok h₃
    dsimp only at h₄
    split at h₄
    · cases h₄
      exact List.Subset.refl _
    · obtain ⟨read, _, -, h₅⟩ := Stateful.bind_eq_ok h₄
      split at h₅
      · split at h₅
        · cases h₅
        · cases h₅
          exact List.subset_append_left _ _
      · next s =>
        obtain ⟨visited₁, _, hfold, hpure⟩ := Stateful.bind_eq_ok h₅
        cases hpure
        refine Stateful.foldlM_invariant (P := fun visited₁ _ => visited ⊆ visited₁) ?_
          (List.subset_append_left _ _) hfold
        intro name _ before T after T' hbefore hstep
        refine List.Subset.trans hbefore ?_
        obtain ⟨v, _, -, hrest⟩ := Stateful.bind_eq_ok hstep
        split at hrest
        · cases hrest
          exact List.Subset.refl _
        · refine followRecords_grows (fun r visited visited' S S' hrun => ?_) hrest
          obtain ⟨answer, _, hinner, hlast⟩ := Stateful.bind_eq_ok hrun
          cases hlast
          exact ih hinner

theorem followEach_grows {rs : List RecordRef}
    (h : followEach d steps sub rs visited S = (.ok visited', S')) : visited ⊆ visited' := by
  refine followRecords_grows (fun r visited visited' S S' hrun => ?_) h
  obtain ⟨answer, _, hinner, hlast⟩ := Stateful.bind_eq_ok hrun
  cases hlast
  exact loadWithin_grows hinner

/-! ### Where a load would not end -/

theorem callDocument_never {e : Error} (he : e.OfStore) (collection : String) (descriptor : Object)
    (projection : Option Projection) :
    Never e (callDocument collection (.read descriptor projection)) := by
  refine .bind (fun S hfailed => ?_) fun answer => ?_
  · simp only [call, Call.run, Call.run.answer, Database.read, Database.whenAvailable] at hfailed
    split at hfailed
    · cases hfailed
    · cases hfailed
      exact he
  · split <;> exact .pure _

/-- A load goes on with what a record holds once a document has been applied to it. -/
structure Entered (d : Directory) (r : RecordRef) (asked : Selector) (visited : Visited) (S : Session)
    (s : Selector) (identifier : String × Value) (S₁ : Session) : Prop where
  new : wasVisited visited (S.store.collectionName r.cls) [identifier] = false
  selected : ∃ g, readSelector d r asked S.graph = (.ok s, g) ∧
    ∃ document, S.store.stored? r.cls [identifier] = some document ∧
      applyDocument d S.store.registry r s (Document.project document (Projection.ofSelector? s)) g =
        (.ok (), S₁.graph)
  store : S.store.Alike S₁.store

/-- A load does not end where narrowing its selector does not, or loading what its record holds. -/
theorem loadWithin_eq_unending (hmade : r.base? = none) {throwIfMissing : Bool}
    (h : (loadWithin d (steps + 1) r asked throwIfMissing visited S).1 = .error .unending) :
    S.store.isRegistered r.cls = true ∧ ∃ identifier, S.graph.identifier? d r = some identifier ∧
      ((readSelector d r asked S.graph).1 = .error .unending ∨
        ∃ s S₁, Entered d r asked visited S s identifier S₁ ∧ (followNames d steps r s s.names
          (visited ++ [(S.store.collectionName r.cls, [identifier])]) S₁).1 = .error .unending) := by
  rcases hrun : loadWithin d (steps + 1) r asked throwIfMissing visited S with ⟨result, S'⟩
  rw [hrun] at h
  cases h
  have hofStore : Error.unending.OfStore := trivial
  cases loadWithin_stops hmade hrun with
  | refused failed =>
    unfold requireRegistered at failed
    split at failed <;> cases failed
  | nameless failed => cases failed
  | @unread identifier g described failed =>
    exact ⟨described.registered, identifier, described.identified, .inl (congrArg Prod.fst failed)⟩
  | unanswered _ _ failed => exact absurd (congrArg Prod.fst failed) (callDocument_never hofStore _ _ _ _)
  | absent _ _ _ failed => cases failed
  | unapplied _ _ _ failed => exact absurd (congrArg Prod.fst failed) (applyDocument_never hofStore _ _ _)
  | @unfollowed identifier s g document S₁ _ described selected _ stored applied store failed =>
    have hentered : Entered d r asked visited S s identifier S₁ :=
      ⟨described.new, ⟨g, selected, document, stored, applied⟩, store⟩
    exact ⟨described.registered, identifier, described.identified,
      .inr ⟨s, S₁, hentered, congrArg Prod.fst failed⟩⟩

/-! ### Loads within a region -/

variable {known : Set RecordRef} {lo hi : Nat} {g₀ : Graph}

theorem readSelector_reads (hg : g.Sound known) (hmade : ∀ q ∈ known, q.base? = none) (hr : r ∈ known)
    (asked : Selector) : Stateful.Reads g (readSelector d r asked) :=
  (Record.resolve_reads hg hmade {} hr _).bind fun _ => .pure _

/-- Loads of the records of a region end if there are more steps than fields that describe no document
that was read. -/
def EndsWithin (d : Directory) (s : Store) (lo hi : Nat) (g₀ : Graph) (steps : Nat) : Prop :=
  ∀ (known : Set RecordRef) (S : Session) (r : RecordRef) (asked : Selector) (throwIfMissing : Bool)
    (visited : Visited), Enclosed d lo hi g₀ known S.graph → s.Alike S.store → r ∈ known →
      unread s.database visited < steps →
        (loadWithin d steps r asked throwIfMissing visited S).1 ≠ .error .unending

section

variable (hd : d.Lawful) (hcoherent : d.Coherent) (htrees : s.Trees)

include hd hcoherent htrees

theorem followEach_ne_unending (hends : EndsWithin d s lo hi g₀ steps) {rs : List RecordRef}
    (hS : Enclosed d lo hi g₀ known S.graph) (hs : s.Alike S.store) (hrs : ∀ r ∈ rs, r ∈ known)
    (hunread : unread s.database visited < steps) :
    (followEach d steps sub rs visited S).1 ≠ .error .unending := by
  have hI := Graph.enclosed_allowsWriting hd lo hi g₀
  induction rs generalizing visited S known with
  | nil => exact nofun
  | cons r rest ih =>
    obtain ⟨hr, hrest⟩ := List.forall_mem_cons.1 hrs
    have hmade := (hS.1.inside r hr).1
    have hget : (MonadState.get : StoreAction Session) S = (.ok S, S) := rfl
    rw [followEach, followRecords, Stateful.bind_of_ok hget,
      Stateful.bind_of_ok (onRecords_of_eq (mustFollow_eq hmade S.store sub S.graph))]
    split
    · rcases hload : loadWithin d steps r sub false visited S with ⟨e | ⟨found, visited₁⟩, S₁⟩
      · rw [Stateful.bind_of_error (Stateful.bind_of_error hload)]
        intro h
        cases h
        exact hends known S r sub false visited hS hs hr hunread (congrArg Prod.fst hload)
      · have hstep : (do pure (← loadWithin d steps r sub false visited).2 : StoreAction Visited) S =
            (.ok visited₁, S₁) := by
          rw [Stateful.bind_of_ok hload]
          rfl
        obtain ⟨after, hafter, hS₁, hs₁⟩ := keeps_loadWithin hI hcoherent htrees hS hs hr hload
        have hless := unread_mono s.database (loadWithin_grows hload)
        rw [Stateful.bind_of_ok hstep]
        exact ih hS₁ hs₁ (fun q hq => hafter (hrest q hq)) (by omega)
    · exact ih hS hs hrest hunread

/-- What a record holds is loaded to the end if it stays in the region. -/
theorem followNames_ne_unending (hends : EndsWithin d s lo hi g₀ steps) (hmade : r.base? = none)
    {names : List String} (hheld : ∀ after, known ⊆ after → ∀ g, Enclosed d lo hi g₀ after g →
      ∀ name ∈ names, ∀ v, g.value? r name = some v → v.Within after)
    (hS : Enclosed d lo hi g₀ known S.graph) (hs : s.Alike S.store)
    (hunread : unread s.database visited < steps) :
    (followNames d steps r asked names visited S).1 ≠ .error .unending := by
  have hI := Graph.enclosed_allowsWriting hd lo hi g₀
  induction names generalizing visited S known with
  | nil => exact nofun
  | cons name rest ih =>
    have hrecords : ∀ q ∈ ((S.graph.value? r name).map Value.records).getD [], q ∈ known := by
      intro q hq
      cases hv : S.graph.value? r name with
      | none =>
        rw [hv] at hq
        cases hq
      | some v =>
        rw [hv] at hq
        exact hheld known subset_rfl S.graph hS name List.mem_cons_self v hv q hq
    rw [followNames, List.foldlM_cons]
    apply Stateful.bind_cases (P := fun run => run.1 ≠ .error .unending)
    · intro e T hstep h
      cases h
      rw [followName_eq hmade] at hstep
      exact followEach_ne_unending hd hcoherent htrees hends hS hs hrecords hunread
        (congrArg Prod.fst hstep)
    · intro visited₁ S₁ hstep
      rw [followName_eq hmade] at hstep
      obtain ⟨after, hafter, hS₁, hs₁⟩ := keeps_followEach hI hcoherent htrees hS hs hrecords hstep
      have hless := unread_mono s.database (followEach_grows hstep)
      refine ih (fun later hlater g hg name hname => ?_) hS₁ hs₁ (by omega)
      exact hheld later (hafter.trans hlater) g hg name (List.mem_cons_of_mem _ hname)

/-- Each document that is read takes a field from those that are left, so the steps suffice. -/
theorem loadWithin_ne_unending (steps : Nat) : EndsWithin d s lo hi g₀ steps := by
  induction steps with
  | zero =>
    intro known S r asked throwIfMissing visited _ _ _ hunread
    omega
  | succ steps ih =>
    intro known S r asked throwIfMissing visited hS hs hr hunread hunending
    have hmade : ∀ q ∈ known, q.base? = none := fun q hq => (hS.1.inside q hq).1
    obtain ⟨selector, hselector⟩ := readSelector_reads (d := d) hS.2.sound hmade hr asked
    obtain ⟨-, ⟨name, v⟩, hidentified, hcase⟩ := loadWithin_eq_unending (hmade r hr) hunending
    rcases hcase with hresolve |
      ⟨s', S₁, ⟨hnew, ⟨g, hselected, document, hstored, happlied⟩, hstore⟩, hfollow⟩
    · rw [hselector] at hresolve
      cases hresolve
    · rw [hselector] at hselected
      cases hselected
      obtain ⟨⟨a, ha, rfl⟩, hseen, hdefined⟩ := Graph.identifier?_eq_some hidentified
      have hkey := (hS.2.seen hr hseen a ha rfl).resolve_left hdefined
      have hless := unread_lt hstored hkey hnew
      obtain ⟨trace, journal, heq⟩ := id hs
      have hdatabase : S.store.database = s.database := by rw [heq]
      rw [hdatabase] at hless
      have hdocument : (Value.object (Document.project document
          (Projection.ofSelector? selector))).Within known := by
        refine (Value.partOf_project document _).within ?_
        exact (hs.trees htrees _ document (stored?_eq_some hstored).1).mono (Set.empty_subset known)
      obtain ⟨after, hafter, hS₁, -⟩ := (keepsIn_applyDocument
        (Graph.enclosed_allowsWriting hd lo hi g₀) (hcoherent S.store.registry) hr selector
          hdocument).of_run subset_rfl hS happlied
      refine followNames_ne_unending hd hcoherent htrees ih (hmade r hr) ?_ hS₁ (hs.trans hstore)
        (Nat.lt_of_lt_of_le hless (Nat.le_of_lt_succ hunread)) hfollow
      intro later hlater g hg name _ v hv
      obtain ⟨source, hown⟩ := Graph.value?_eq_some_iff.1 hv
      exact hg.1.closed r (hlater (hafter hr)) name _ hown

end

/-! ### Whole loads -/

theorem load_eq_unending_iff {throwIfMissing : Bool} :
    (load d r asked throwIfMissing S).1 = .error .unending ↔
      (loadWithin d ((handles S.store.database).length + 2) r asked throwIfMissing [] S).1 =
        .error .unending := by
  rcases hload : load d r asked throwIfMissing S with ⟨result, S'⟩
  unfold load at hload
  obtain ⟨T, hrun, -⟩ := tracing_eq hload
  rw [Stateful.bind_of_ok (loadSteps_eq S)] at hrun
  rcases hwithin : loadWithin d ((handles S.store.database).length + 2) r asked throwIfMissing [] S with
    ⟨e | answer, T'⟩
  · rw [Stateful.bind_of_error hwithin] at hrun
    cases hrun
    simp
  · rw [Stateful.bind_of_ok hwithin] at hrun
    cases hrun
    simp

theorem readSelector_eq_unending_iff : (readSelector d r asked g).1 = .error .unending ↔
    (Record.resolve d {} r ((d.definition r.cls).identifierSelector.merge asked) g).1 =
      .error .unending := by
  unfold readSelector
  rcases hresolve : Record.resolve d {} r ((d.definition r.cls).identifierSelector.merge asked) g with
    ⟨e | s, g'⟩
  · rw [Stateful.bind_of_error hresolve]
  · rw [Stateful.bind_of_ok hresolve]
    exact ⟨nofun, nofun⟩

theorem loadWithin_of_unending (hmade : r.base? = none)
    (hregistered : S.store.isRegistered r.cls = true) {identifier : String × Value}
    (hidentifier : S.graph.identifier? d r = some identifier)
    (hresolve : (readSelector d r asked S.graph).1 = .error .unending) (steps : Nat)
    (throwIfMissing : Bool) :
    (loadWithin d (steps + 1) r asked throwIfMissing [] S).1 = .error .unending := by
  have hget : (MonadState.get : StoreAction Session) S = (.ok S, S) := rfl
  have hcheck : check (S.store.requireRegistered r.cls) S = (.ok (), S) := by
    unfold requireRegistered
    rw [hregistered]
    rfl
  have hdescribed : Record.descriptor d r S.graph = (.ok [identifier], S.graph) := by
    rw [Record.descriptor_made hmade, hidentifier]
  rcases hselected : readSelector d r asked S.graph with ⟨result, g'⟩
  rw [hselected] at hresolve
  cases hresolve
  have hread : onRecords (readSelector d r asked) S =
      (.error .unending, { S with graph := g' }) := by
    unfold onRecords
    rw [hselected]
  rw [loadWithin, Stateful.bind_of_ok hget, Stateful.bind_of_ok hcheck,
    Stateful.bind_of_ok (onRecords_of_eq hdescribed), Stateful.bind_of_ok hget]
  show ((_ >>= _ : StoreAction (Bool × Visited)) S).1 = _
  rw [Stateful.bind_of_error hread]

section

variable (hd : d.Lawful) (hcoherent : d.Coherent) (htrees : S.store.Trees)
  (htyped : S.graph.Typed d known) (hr : r ∈ known) (hmade : r.base? = none)

include hd hcoherent htrees htyped hr hmade

/-- Once a document has been applied to a record all that is left to be loaded was made for it. -/
theorem followNames_of_entered (hresting : S.graph.isResolving r = false)
    (huntagged : ∀ a ∈ d.attributes r.cls, a.name ≠ Tree.classTag ∧ a.name ≠ Tree.newTag)
    {identifier : String × Value} {S₁ : Session} (h : Entered d r asked visited S s' identifier S₁)
    (hunread : unread S.store.database visited' < steps) :
    (followNames d steps r s' s'.names visited' S₁).1 ≠ .error .unending := by
  obtain ⟨-, ⟨g, hselected, document, hstored, happlied⟩, hstore⟩ := h
  have hI := Graph.typed_allowsWriting hd
  have hlt := (readSelector_spares htyped.sound hr hmade hselected).2
  have hnames : ∀ name ∈ s'.names, ∃ a ∈ d.attributes r.cls, a.name = name :=
    readSelector_names hd hmade hresting hselected
  have hdocument : (Value.object (Document.project document
      (Projection.ofSelector? s'))).Within ∅ :=
    (Value.partOf_project document _).within (htrees _ document (stored?_eq_some hstored).1)
  obtain ⟨after₁, h₁, hg, -⟩ :=
    (keepsIn_readSelector hI.toAllowsReading hr asked).of_run subset_rfl htyped hselected
  obtain ⟨after₂, h₂, hg₁, -⟩ := (keepsIn_applyDocument hI (hcoherent _) (h₁ hr) s'
    (hdocument.mono (Set.empty_subset after₁))).of_run subset_rfl hg happlied
  obtain ⟨-, hi, hlo, hhi, hconfined, hheld⟩ := applyDocument_eq_ok_confined hlt
    (readSelector_attribute? hd hmade hresting hselected) hdocument happlied
  -- The records of the region that the document has brought, and no others, are loaded.
  let brought : Set RecordRef := { q | q ∈ after₂ ∧ q ∈ Region g.cells.size hi }
  have hclosed : ∀ q ∈ brought, ∀ name slot, S₁.graph.own? q name = some (some slot) →
      slot.value.Within brought := fun q hq name slot hslot q' hq' =>
    ⟨hg₁.sound.within q hq.1 name slot hslot q' hq', hconfined.closed q hq.2 name slot hslot q' hq'⟩
  have henclosed : Enclosed d g.cells.size hi S₁.graph brought S₁.graph := by
    refine ⟨⟨.refl _ _, fun q hq => ⟨hq.2.1, .inl hq.2.2⟩, hclosed⟩, ?_⟩
    exact hg₁.restrict (fun q hq => hq.1) (fun q hq => hq.2.1) hclosed
  refine followNames_ne_unending hd hcoherent (hstore.trees htrees) (loadWithin_ne_unending hd hcoherent
    (hstore.trees htrees) steps) hmade ?_ henclosed (.refl _) ?_
  · intro later hlater g' hg' name hname v hv
    have hsame : g'.value? r name = S₁.graph.value? r name := Graph.value?_congr
      (hg'.1.kept.own? (hlt.trans_le (hlo.trans hhi)) (fun hin => by omega) name)
    rw [hsame] at hv
    obtain ⟨a, ha, rfl⟩ := hnames name hname
    have hregion := hheld a.name hname (not_or.2 (huntagged a ha)) v hv
    exact fun q hq => hlater ⟨hg₁.sound.value (h₂ (h₁ hr)) hv q hq, hregion q hq⟩
  · obtain ⟨trace, journal, heq⟩ := hstore
    rw [heq]
    exact hunread

end

/-! ### An example: guests who bring each other -/

namespace Guests

def guestClass : ClassRef := .declared 0 "Guest"

def bringsAttribute : Attribute :=
  ⟨"brings", .plain, .reference "Guest" false { optional := true }, none⟩

/-- Guests, each of whom may bring another one. -/
def classes : Directory where
  classes := #[
    { definition := {
        attributes := [("name", ⟨"name", .primary, .scalar .string {}, none⟩),
          ("brings", bringsAttribute)]
        indexes := [], embedded := false, storable := true }
      registry := some ⟨0⟩ }]
  registries := #[{ members := [("Guest", guestClass)] }]

def guest (serial : Nat) : RecordRef := .made serial guestClass

def forked : RecordRef := .fork 2 guestClass (guest 0)

/-- Two guests who bring each other, a fork of the first and a guest who brings the fork. -/
def guests : Graph where
  cells := #[
    { slots := [("name", some ⟨.string "Ada", .here⟩), ("brings", some ⟨.record (guest 1), .here⟩)]
      isNew := false },
    { slots := [("name", some ⟨.string "Bob", .here⟩), ("brings", some ⟨.record (guest 0), .here⟩)]
      isNew := false },
    { slots := [], isNew := false },
    { slots := [("name", some ⟨.string "Cleo", .here⟩), ("brings", some ⟨.record forked, .here⟩)]
      isNew := false }]

def stored (name brings : String) : Document :=
  [(Tree.classTag, .string "Guest"), ("name", .string name),
    ("brings", .object [(Tree.classTag, .string "Guest"), ("name", .string brings)])]

/-- Of the stored guests two bring each other, one brings herself, and one a guest who is not stored. -/
def session : Session where
  graph := guests
  store := {
    ref := ⟨0⟩, registry := ⟨0⟩, storables := [("Guest", guestClass)]
    database := { collections := [("Guest", { documents :=
      [stored "Ada" "Bob", stored "Bob" "Ada", stored "Cleo" "Cleo", stored "Dan" "Eve"] })] } }

theorem classes_lawful : classes.Lawful :=
  Directory.lawful_of_entries (by decide) (by decide)

theorem session_trees : session.store.Trees := by
  refine Database.forall_documents fun entry hentry document hdocument => ?_
  obtain rfl := List.mem_singleton.1 hentry
  have hstored : ∀ name brings, (Value.object (stored name brings)).Within ∅ :=
    fun _ _ r hr => by cases hr
  simp only [List.mem_cons, List.not_mem_nil, or_false] at hdocument
  rcases hdocument with rfl | rfl | rfl | rfl <;> exact hstored _ _

theorem guests_typed : session.graph.Typed classes {guest 0, guest 1, forked, guest 3} where
  sound := .of_list [guest 0, guest 1, forked, guest 3] (by simp) (by decide) (by decide)
  inherits := by rintro r (rfl | rfl | rfl | rfl) <;> exact Directory.inherits_declared _ (by decide)
  forks := by
    rintro serial c base (heq | heq | heq | heq) <;> cases heq
    rfl
  keys := by
    rintro r hr name slot hown a ha rfl
    obtain rfl : a = ⟨"name", .primary, .scalar .string {}, none⟩ := by
      rcases hr with rfl | rfl | rfl | rfl <;> exact List.mem_singleton.1 ha
    rcases hr with rfl | rfl | rfl | rfl <;> cases hown <;> exact .inr (.inl ⟨_, rfl⟩)

theorem pair_typed : session.graph.Typed classes {guest 0, guest 1} := by
  refine guests_typed.restrict ?_ ?_ ?_
  · simp [Set.insert_subset_iff]
  · rintro r (rfl | rfl) <;> rfl
  · have hslots : ∀ n q, ∀ entry ∈ [("name", some (⟨.string n, .here⟩ : Slot)),
        ("brings", some ⟨.record q, .here⟩)], ∀ slot, entry.2 = some slot → slot.value.Within {q} := by
      simp [Value.Within, Value.records]
    intro r hr name slot hown
    obtain ⟨cell, hcell, hslot⟩ := Option.bind_eq_some_iff.1 hown
    rcases hr with rfl | rfl <;> cases hcell
    · exact (hslots _ _ _ (Fields.mem_of_get? hslot) slot rfl).mono (by simp)
    · exact (hslots _ _ _ (Fields.mem_of_get? hslot) slot rfl).mono (by simp)

theorem guests_endless : session.graph.Endless classes (Narrowing.way {} classes) (some [])
    (guest 3) .all := by
  have hleads : ∀ r q, r.cls = guestClass → session.graph.seen? r "brings" = some (.record q) →
      session.graph.Leads classes (Narrowing.way {} classes) r .all "brings" q .all := by
    intro r q hr hq
    refine ⟨bringsAttribute, ?_, rfl, rfl, _, hq, ⟨.reference, .inl rfl, rfl⟩⟩
    rw [hr]
    exact List.mem_cons_of_mem _ List.mem_cons_self
  have hcycle : Relation.TransGen (session.graph.Follows classes (Narrowing.way {} classes)) (guest 1)
      (guest 1) :=
    .tail (.single ⟨_, hleads (guest 1) (guest 0) rfl rfl⟩) ⟨_, hleads (guest 0) (guest 1) rfl rfl⟩
  refine .step (by simp) (hleads (guest 3) forked rfl rfl) ?_
  exact .step (by decide) (hleads forked (guest 1) rfl rfl) (.cycle hcycle)

end Guests

end Store

end TypedRecords
