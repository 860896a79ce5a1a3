import Mathlib.Data.List.Forall2
import TypedRecords.Proofs.Results

/-! # When computations fail

A computation that can fail in one way only, and does so exactly under a condition that the state has no
part in. The condition of a sequence is that of one of its steps. If no step fails with an error, the
sequence does not.
-/

namespace TypedRecords.Stateful

variable {σ α β ι : Type} {I : Set ι → σ → Prop} {J : σ → Prop} {known before : Set ι} {e : Error}
  {E E' : Prop} {x : Stateful σ α} {f : α → Stateful σ β} {Q Q' : Set ι → α → Prop}
  {P : Set ι → β → Prop}

/-- A computation fails with an error if a condition holds. Otherwise it gives a result as stated and
keeps what holds of the known things and the state. More may be known afterwards. -/
def FailsIff (e : Error) (E : Prop) (I : Set ι → σ → Prop) (known : Set ι) (x : Stateful σ α)
    (Q : Set ι → α → Prop) : Prop :=
  ∀ before, known ⊆ before → ∀ s, I before s → (E ∧ ∃ t, x s = (.error e, t)) ∨
    ¬E ∧ ∃ a t after, x s = (.ok a, t) ∧ before ⊆ after ∧ I after t ∧ Q after a

namespace FailsIff

theorem pure {a : α} (ha : ∀ after, known ⊆ after → Q after a) :
    FailsIff e False I known (Pure.pure a : Stateful σ α) Q :=
  fun before hknown s hs => .inr ⟨id, a, s, before, rfl, subset_rfl, hs, ha before hknown⟩

theorem throw : FailsIff e True I known (MonadExcept.throw e : Stateful σ α) Q :=
  fun _ _ s _ => .inl ⟨trivial, s, rfl⟩

theorem get : FailsIff e False I known (MonadState.get : Stateful σ σ) fun _ _ => True :=
  fun before _ s hs => .inr ⟨id, s, s, before, rfl, subset_rfl, hs, trivial⟩

theorem mono (hx : FailsIff e E I known x Q) (h : known ⊆ before) : FailsIff e E I before x Q :=
  fun later hlater => hx later (h.trans hlater)

theorem congr (hx : FailsIff e E I known x Q) (h : E ↔ E') : FailsIff e E' I known x Q := by
  rwa [← propext h]

theorem imp (hx : FailsIff e E I known x Q)
    (h : ∀ after, known ⊆ after → ∀ a, Q after a → Q' after a) : FailsIff e E I known x Q' := by
  intro before hknown s hs
  rcases hx before hknown s hs with hfails | ⟨hE, a, t, after, hrun, hafter, ht, hq⟩
  · exact .inl hfails
  · exact .inr ⟨hE, a, t, after, hrun, hafter, ht, h after (hknown.trans hafter) a hq⟩

theorem bind (hx : FailsIff e E I known x Q)
    (hf : ∀ a after, known ⊆ after → Q after a → FailsIff e E' I after (f a) P) :
    FailsIff e (E ∨ E') I known (x >>= f) P := by
  intro before hknown s hs
  rcases hx before hknown s hs with ⟨hE, t, hrun⟩ | ⟨hE, a, t, after, hrun, hafter, ht, hq⟩
  · exact .inl ⟨.inl hE, t, bind_of_error hrun⟩
  · rw [bind_of_ok hrun]
    rcases hf a after (hknown.trans hafter) hq after subset_rfl t ht with
      ⟨hE', hfails⟩ | ⟨hE', b, u, later, hrun', hlater, hu, hp⟩
    · exact .inl ⟨.inr hE', hfails⟩
    · exact .inr ⟨not_or.2 ⟨hE, hE'⟩, b, u, later, hrun', hafter.trans hlater, hu, hp⟩

/-- A first step that does not fail has no part in the condition. -/
theorem bind_of_never (hx : FailsIff e False I known x Q)
    (hf : ∀ a after, known ⊆ after → Q after a → FailsIff e E I after (f a) P) :
    FailsIff e E I known (x >>= f) P :=
  (hx.bind hf).congr (or_iff_right id)

/-- A last step that does not fail has no part in the condition. -/
theorem bind_never (hx : FailsIff e E I known x Q)
    (hf : ∀ a after, known ⊆ after → Q after a → FailsIff e False I after (f a) P) :
    FailsIff e E I known (x >>= f) P :=
  (hx.bind hf).congr (or_iff_left id)

theorem pure_of_not {a : α} (hE : ¬E) :
    FailsIff e E I known (Pure.pure a : Stateful σ α) fun _ _ => True :=
  (FailsIff.pure fun _ _ => trivial).congr (iff_of_false id hE)

/-- What is made of a result takes no part in whether there is one. -/
theorem map (hx : FailsIff e E I known x Q) (f : α → β) :
    FailsIff e E I known (do let a ← x; Pure.pure (f a)) fun _ _ => True :=
  hx.bind_never fun _ _ _ _ => .pure fun _ _ => trivial

/-- Going through a list fails if one of its items makes it fail, told by what the items stand for. What
holds of the result so far, told by those that it was gone through, holds of the last one. -/
theorem foldlM_tracks {α₀ : Type} {R : α₀ → α → Prop} {E : α₀ → Prop} {P : List α₀ → β → Prop}
    {f : β → α → Stateful σ β} {origins : List α₀} {items : List α}
    (hitems : List.Forall₂ R origins items)
    (hf : ∀ done a₀ a, R a₀ a → ∀ b, P done b →
      FailsIff e (E a₀) I known (f b a) fun _ b => P (done ++ [a₀]) b)
    (done : List α₀) {b : β} (hb : P done b) :
    FailsIff e (∃ a₀ ∈ origins, E a₀) I known (items.foldlM f b) fun _ b => P (done ++ origins) b := by
  induction hitems generalizing known done b with
  | nil => exact (FailsIff.pure fun _ _ => by rwa [List.append_nil]).congr (by simp)
  | @cons a₀ a origins items ha _ ih =>
    rw [List.foldlM_cons]
    have hbind := (hf done a₀ a ha b hb).bind fun b after hafter hb =>
      ih (fun done a₀ a ha b hb => (hf done a₀ a ha b hb).mono hafter) (done ++ [a₀]) hb
    rw [List.append_assoc, List.singleton_append] at hbind
    exact hbind.congr (by simp)

/-- Going through a list fails if one of its items makes it fail, told by what the items stand for. -/
theorem foldlM_forall₂ {α₀ : Type} {R : α₀ → α → Prop} {E : α₀ → Prop}
    {f : β → α → Stateful σ β} {origins : List α₀} {items : List α}
    (hitems : List.Forall₂ R origins items)
    (hf : ∀ a₀ a, R a₀ a → ∀ b, FailsIff e (E a₀) I known (f b a) fun _ _ => True) (b : β) :
    FailsIff e (∃ a₀ ∈ origins, E a₀) I known (items.foldlM f b) fun _ _ => True :=
  foldlM_tracks (P := fun _ _ => True) hitems (fun _ a₀ a ha b _ => hf a₀ a ha b) [] trivial

/-- Going through a list fails if one of its items makes it fail. -/
theorem foldlM {E : α → Prop} {f : β → α → Stateful σ β} {items : List α}
    (hf : ∀ a ∈ items, ∀ b, FailsIff e (E a) I known (f b a) fun _ _ => True) (b : β) :
    FailsIff e (∃ a ∈ items, E a) I known (items.foldlM f b) fun _ _ => True := by
  have hsame : List.Forall₂ (fun a a' => a = a' ∧ a' ∈ items) items items :=
    List.forall₂_same.2 fun a ha => ⟨rfl, ha⟩
  exact foldlM_forall₂ hsame (fun _ a ha b => ha.1 ▸ hf a ha.2 b) b

theorem of_keepsIn (hx : KeepsIn I known x Q) (hok : ∀ s, ∃ a t, x s = (.ok a, t)) :
    FailsIff e False I known x Q := by
  intro before hknown s hs
  obtain ⟨after, hafter, ht, hq⟩ := hx before hknown s hs
  obtain ⟨a, t, hrun⟩ := hok s
  rw [hrun] at ht hq
  exact .inr ⟨id, a, t, after, hrun, hafter, ht, hq a rfl⟩

/-- What a computation keeps besides takes no part in whether it fails. -/
theorem and_keeps (hx : FailsIff e E I known x Q) (hJ : ∀ s, J s → J (x s).2) :
    FailsIff e E (fun known s => I known s ∧ J s) known x Q := by
  intro before hknown s hs
  rcases hx before hknown s hs.1 with hfails | ⟨hE, a, t, after, hrun, hafter, ht, hq⟩
  · exact .inl hfails
  · have hlast := hJ s hs.2
    rw [hrun] at hlast
    exact .inr ⟨hE, a, t, after, hrun, hafter, ⟨ht, hlast⟩, hq⟩

end FailsIff

/-! ### Errors that do not occur -/

/-- A computation does not fail with an error, whatever state it starts from. -/
def Never (e : Error) (x : Stateful σ α) : Prop := ∀ s, (x s).1 ≠ .error e

namespace Never

theorem pure (a : α) : Never e (Pure.pure a : Stateful σ α) := fun _ h => by cases h

theorem throw {e' : Error} (he : e' ≠ e) : Never e (MonadExcept.throw e' : Stateful σ α) := by
  intro s h
  exact he (Except.error.inj h)

theorem bind (hx : Never e x) (hf : ∀ a, Never e (f a)) : Never e (x >>= f) := by
  intro s
  apply bind_cases (P := fun run => run.1 ≠ .error e)
  · intro e' t hrun h
    cases h
    exact hx s (congrArg Prod.fst hrun)
  · exact fun a t _ => hf a t

theorem forM {f : α → Stateful σ PUnit} {items : List α} (hf : ∀ a ∈ items, Never e (f a)) :
    Never e (items.forM f) := by
  induction items with
  | nil => exact .pure _
  | cons a rest ih =>
    obtain ⟨ha, hrest⟩ := List.forall_mem_cons.1 hf
    rw [List.forM]
    exact ha.bind fun _ => ih hrest

theorem foldlM {f : β → α → Stateful σ β} {items : List α} (hf : ∀ a ∈ items, ∀ b, Never e (f b a))
    (b : β) : Never e (items.foldlM f b) := by
  induction items generalizing b with
  | nil => exact .pure b
  | cons a rest ih =>
    obtain ⟨ha, hrest⟩ := List.forall_mem_cons.1 hf
    rw [List.foldlM_cons]
    exact (ha b).bind (ih hrest)

theorem get : Never e (MonadState.get : Stateful σ σ) := fun _ h => by cases h

end Never

/-- A list is gone through if every step succeeds and keeps what holds of the state. -/
theorem forM_succeeds {P : σ → Prop} {f : α → Stateful σ PUnit} {items : List α}
    (hf : ∀ a ∈ items, ∀ s, P s → ∃ t, f a s = (.ok ⟨⟩, t) ∧ P t) {s : σ} (hs : P s) :
    ∃ t, items.forM f s = (.ok ⟨⟩, t) ∧ P t := by
  induction items generalizing s with
  | nil => exact ⟨s, rfl, hs⟩
  | cons a rest ih =>
    obtain ⟨ha, hrest⟩ := List.forall_mem_cons.1 hf
    obtain ⟨t, hstep, ht⟩ := ha s hs
    obtain ⟨u, hlater, hu⟩ := ih hrest ht
    exact ⟨u, by rw [List.forM, bind_of_ok hstep, hlater], hu⟩

end TypedRecords.Stateful
