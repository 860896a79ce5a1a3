import TypedRecords.Proofs.Store.Ending

/-! # Documents that are missing

The one document that a load can report as missing is that of its own record. What this record refers to is
loaded where it can be found, and passed over where it cannot.
-/

namespace TypedRecords

open Stateful (Never)

variable {d : Directory} {fault : StoreFault} {r : RecordRef}

/-! ### Selectors that are narrowed -/

theorem ValueType.narrow_never {combine : Selector → Selector → Selector}
    {onRecord : RecordRef → Selector → Action Selector} {e : Error}
    (honRecord : ∀ r s, Never e (onRecord r s)) (t : ValueType) (s : Selector) (v : Option Value) :
    Never e (t.narrow combine onRecord s v) := by
  by_cases hnone : s.isNone = true
  · unfold narrow
    rw [if_pos hnone]
    exact .pure _
  induction t generalizing v with
  | scalar kind traits =>
    unfold narrow
    rw [if_neg hnone]
    exact .pure _
  | array item traits ih =>
    unfold narrow
    rw [if_neg hnone]
    dsimp only
    split
    · exact (ih _).bind fun first => .foldlM (fun v _ acc => (ih (some v)).bind fun s' => .pure _) first
    · exact ih none
  | reference name toClass traits =>
    unfold narrow
    rw [if_neg hnone]
    cases toClass with
    | true => exact .pure _
    | false =>
      dsimp only
      split
      · exact honRecord _ s
      · exact .pure _

namespace Record

theorem lift_never {α : Type} {e : Error} (reading : StateM Graph α) : Never e (lift reading) :=
  fun _ h => by cases h

theorem resolveWithin_never (how : Narrowing) (steps : Nat) (r : RecordRef) (s : Selector) :
    Never (.store fault) (resolveWithin d how steps r s) := by
  induction steps generalizing r s with
  | zero => exact .throw nofun
  | succ steps ih =>
    rw [resolveWithin]
    dsimp only
    split
    · exact .pure _
    · refine Never.get.bind fun g => ?_
      split
      · exact .pure _
      · have hinner : ∀ (inner : RecordRef) (s : Selector), Never (.store fault)
            (if !how.includeReferenced && (d.definition inner.cls).referenceable then
              pure (d.definition inner.cls).identifierSelector
            else resolveWithin d how steps inner s : Action Selector) := by
          intro inner s
          split
          · exact .pure _
          · exact ih inner s
        refine .bind (fun _ h => by cases h) fun _ => .bind (.foldlM (fun a _ acc => ?_) _)
          fun resolved => .bind (fun _ h => by cases h) fun _ => .pure _
        unfold narrowAttribute
        dsimp only
        split
        · exact .pure _
        · refine (lift_never _).bind fun v => ?_
          split
          · exact .pure _
          · exact (a.type.narrow_never hinner _ v).bind fun s' => .pure _

theorem descriptorAmong_never (attributes : List Attribute) :
    Never (.store fault) (descriptorAmong r attributes) := by
  induction attributes with
  | nil => exact .throw nofun
  | cons a rest ih =>
    rw [descriptorAmong]
    refine (lift_never _).bind fun v => ?_
    split
    · exact ih
    · exact ih
    · exact .pure _

end Record

namespace Store

variable {S S' : Session}

theorem readSelector_never (r : RecordRef) (s : Selector) :
    Never (.store fault) (readSelector d r s) := by
  refine .bind (.bind (fun _ h => by cases h) fun steps => ?_) fun resolved => .pure _
  exact Record.resolveWithin_never {} steps r _

theorem onRecords_never {α : Type} {e : Error} {action : Action α} (h : Never e action) :
    Never e (onRecords action) :=
  fun S => h S.graph

/-! ### Loads -/

theorem requireRegistered_never (s : Store) (c : ClassRef) :
    Never (.store fault) (check (s.requireRegistered c)) := by
  unfold requireRegistered
  split
  · exact .pure _
  · exact .throw nofun

theorem readInto_never (collection : String) (r : RecordRef) (asked : Selector) (descriptor : Object) :
    Never (.store fault) (readInto d collection r asked descriptor) := by
  have hofStore : (Error.store fault).OfStore := trivial
  refine (onRecords_never (readSelector_never r asked)).bind fun s =>
    (callDocument_never hofStore collection descriptor _).bind fun found => ?_
  split
  · exact .pure _
  · refine Never.get.bind fun T => ?_
    exact (onRecords_never (applyDocument_never hofStore s _)).bind fun _ => .pure _

theorem mustFollow_never (s : Store) (sub : Selector) (r : RecordRef) :
    Never (.store fault) (mustFollow d s sub r) := by
  unfold mustFollow
  split
  · exact .pure _
  · refine .bind (fun g h => ?_) fun identified => ?_
    · unfold Record.hasIdentifiers at h
      split at h <;> cases h
    · split <;> exact .pure _

theorem followRecords_never {load : RecordRef → Visited → StoreAction Visited} {sub : Selector}
    (hload : ∀ r visited, Never (.store fault) (load r visited)) (rs : List RecordRef)
    (visited : Visited) : Never (.store fault) (followRecords d load sub rs visited) := by
  induction rs generalizing visited with
  | nil => exact .pure _
  | cons r rest ih =>
    rw [followRecords]
    refine Never.get.bind fun T => (onRecords_never (mustFollow_never T.store sub r)).bind fun follow => ?_
    dsimp only
    split
    · exact (hload r visited).bind fun visited => ih visited
    · exact ih visited

/-- A load reports no missing document if it is not to. -/
theorem loadWithin_never (steps : Nat) (r : RecordRef) (s : Selector) (visited : Visited) :
    Never (.store fault) (loadWithin d steps r s false visited) := by
  induction steps generalizing r s visited with
  | zero => exact .throw nofun
  | succ steps ih =>
    rw [loadWithin_succ]
    refine Never.get.bind fun T => (requireRegistered_never T.store r.cls).bind fun _ =>
      (onRecords_never (Record.descriptorAmong_never _)).bind fun descriptor => Never.get.bind fun T' => ?_
    dsimp only
    split
    · exact .pure _
    · refine (readInto_never _ r s descriptor).bind fun found => ?_
      split
      · exact .pure _
      · next s' =>
        refine .bind (.foldlM (fun name _ visited => ?_) _) fun visited => .pure _
        refine (onRecords_never (Record.lift_never _)).bind fun v => ?_
        split
        · exact .pure _
        · exact followRecords_never (fun inner visited =>
            (ih inner _ visited).bind fun answer => .pure _) _ visited

theorem followNames_never (steps : Nat) (r : RecordRef) (s : Selector) (names : List String)
    (visited : Visited) : Never (.store fault) (followNames d steps r s names visited) := by
  refine .foldlM (fun name _ visited => ?_) visited
  refine (onRecords_never (Record.lift_never _)).bind fun v => ?_
  split
  · exact .pure _
  · exact followRecords_never (fun inner visited =>
      (loadWithin_never steps inner _ visited).bind fun answer => .pure _) _ visited

/-- Where a load reports a fault of the store, there is no document with the identifier of its record. -/
theorem stored?_of_loadWithin (hmade : r.base? = none) {steps : Nat} {asked : Selector}
    {throwIfMissing : Bool} {visited : Visited}
    (h : loadWithin d (steps + 1) r asked throwIfMissing visited S = (.error (.store fault), S')) :
    ∃ identifier, S.graph.identifier? d r = some identifier ∧
      S.store.stored? r.cls [identifier] = none := by
  have hofStore : (Error.store fault).OfStore := trivial
  cases loadWithin_stops hmade h with
  | refused failed =>
    unfold requireRegistered at failed
    split at failed <;> cases failed
  | nameless failed => cases failed
  | unread _ failed => exact absurd (congrArg Prod.fst failed) (readSelector_never r asked _)
  | unanswered _ _ failed => exact absurd (congrArg Prod.fst failed) (callDocument_never hofStore _ _ _ _)
  | @absent identifier _ _ _ described _ stored _ => exact ⟨identifier, described.identified, stored⟩
  | unapplied _ _ _ failed => exact absurd (congrArg Prod.fst failed) (applyDocument_never hofStore _ _ _)
  | unfollowed _ _ _ _ _ _ failed =>
    exact absurd (congrArg Prod.fst failed) (followNames_never _ _ _ _ _ _)

/-- A load that has found nothing was not to report it. -/
theorem loadWithin_found {steps : Nat} {asked : Selector} {found : Bool} {visited visited' : Visited}
    (h : loadWithin d steps r asked true visited S = (.ok (found, visited'), S')) : found = true := by
  cases steps with
  | zero => cases h
  | succ steps =>
    rw [loadWithin_succ] at h
    obtain ⟨_, _, -, h₁⟩ := Stateful.bind_eq_ok h
    obtain ⟨_, _, -, h₂⟩ := Stateful.bind_eq_ok h₁
    obtain ⟨descriptor, _, -, h₃⟩ := Stateful.bind_eq_ok h₂
    obtain ⟨_, _, -, h₄⟩ := Stateful.bind_eq_ok h₃
    dsimp only at h₄
    split at h₄
    · cases h₄
      rfl
    · obtain ⟨read, _, -, h₅⟩ := Stateful.bind_eq_ok h₄
      split at h₅
      · cases h₅
      · obtain ⟨_, _, -, hpure⟩ := Stateful.bind_eq_ok h₅
        cases hpure
        rfl

end Store

end TypedRecords
