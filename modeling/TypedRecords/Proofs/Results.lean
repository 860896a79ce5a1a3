import Mathlib.Data.Set.Basic
import TypedRecords.Error

/-! # Results

A computation that gives a result gave one at each of its steps. What the steps of a computation keep
of its state, it keeps itself, whether it gives a result or not.
-/

namespace TypedRecords

variable {α β σ : Type}

theorem bind_eq_ok {x : Except Error α} {f : α → Except Error β} {b : β}
    (h : x >>= f = .ok b) : ∃ a, x = .ok a ∧ f a = .ok b := by
  cases x with
  | error e => cases h
  | ok a => exact ⟨a, rfl, h⟩

theorem guard_eq_ok {p : Prop} [Decidable p] {e : Error} {f : α → Except Error β}
    {x : Except Error β} {b : β} (h : (if p then throw e >>= f else x) = .ok b) :
    ¬p ∧ x = .ok b := by
  by_cases hp : p
  · rw [if_pos hp] at h
    cases h
  · rw [if_neg hp] at h
    exact ⟨hp, h⟩

theorem forM_eq_ok {f : α → Except Error Unit} {items : List α} (h : items.forM f = .ok ())
    {a : α} (ha : a ∈ items) : f a = .ok () := by
  induction items with
  | nil => cases ha
  | cons first rest ih =>
    rw [List.forM] at h
    obtain ⟨_, hfirst, hrest⟩ := bind_eq_ok h
    rcases List.mem_cons.1 ha with rfl | ha
    · exact hfirst
    · exact ih hrest ha

theorem forM_of_ok {f : α → Except Error Unit} {items : List α} (h : ∀ a ∈ items, f a = .ok ()) :
    items.forM f = .ok () := by
  induction items with
  | nil => rfl
  | cons first rest ih =>
    obtain ⟨hfirst, hrest⟩ := List.forall_mem_cons.1 h
    rw [List.forM, hfirst]
    exact ih hrest

theorem forM_ne_error {e : Error} {f : α → Except Error Unit} {items : List α}
    (h : ∀ a ∈ items, f a ≠ .error e) : items.forM f ≠ .error e := by
  induction items with
  | nil => exact nofun
  | cons first rest ih =>
    obtain ⟨hfirst, hrest⟩ := List.forall_mem_cons.1 h
    rw [List.forM]
    cases hrun : f first with
    | error e' =>
      intro heq
      exact hfirst (hrun.trans heq)
    | ok a => exact ih hrest

theorem mapM_eq_ok_mem {f : α → Except Error β} {items : List α} {bs : List β}
    (h : items.mapM f = .ok bs) {a : α} (ha : a ∈ items) : ∃ b ∈ bs, f a = .ok b := by
  induction items generalizing bs with
  | nil => cases ha
  | cons first rest ih =>
    rw [List.mapM_cons] at h
    obtain ⟨b, hfirst, hothers⟩ := bind_eq_ok h
    obtain ⟨later, hrest, hpure⟩ := bind_eq_ok hothers
    cases hpure
    rcases List.mem_cons.1 ha with rfl | ha
    · exact ⟨b, List.mem_cons_self, hfirst⟩
    · obtain ⟨b', hb', hrun⟩ := ih hrest ha
      exact ⟨b', List.mem_cons_of_mem _ hb', hrun⟩

/-! ### Results of computations with a state -/

/-- A computation that can fail; what it wrote before it fails stays written. -/
abbrev Stateful (σ α : Type) := ExceptT Error (StateM σ) α

namespace Stateful

variable {x : Stateful σ α} {f : α → Stateful σ β} {s t u : σ} {a : α} {b : β} {e : Error}

theorem bind_of_ok (h : x s = (.ok a, t)) : (x >>= f) s = f a t := by
  simp only [bind, ExceptT.bind, ExceptT.mk, StateT.bind]
  rw [h]
  rfl

theorem bind_of_error (h : x s = (.error e, t)) : (x >>= f) s = (.error e, t) := by
  simp only [bind, ExceptT.bind, ExceptT.mk, StateT.bind]
  rw [h]
  rfl

theorem bind_eq_ok (h : (x >>= f) s = (.ok b, u)) :
    ∃ a t, x s = (.ok a, t) ∧ f a t = (.ok b, u) := by
  rcases hx : x s with ⟨result, t⟩
  cases result with
  | error e =>
    rw [bind_of_error hx] at h
    cases h
  | ok a =>
    rw [bind_of_ok hx] at h
    exact ⟨a, t, rfl, h⟩

/-- How a computation runs, by whether its first step gives a result. -/
theorem bind_cases {P : Except Error β × σ → Prop}
    (herror : ∀ e t, x s = (.error e, t) → P (.error e, t))
    (hok : ∀ a t, x s = (.ok a, t) → P (f a t)) : P ((x >>= f) s) := by
  rcases hx : x s with ⟨result, t⟩
  cases result with
  | error e =>
    rw [bind_of_error hx]
    exact herror e t hx
  | ok a =>
    rw [bind_of_ok hx]
    exact hok a t hx

/-- What a computation leaves behind, by whether its first step gives a result. -/
theorem snd_bind {P : σ → Prop} (herror : ∀ e t, x s = (.error e, t) → P t)
    (hok : ∀ a t, x s = (.ok a, t) → P (f a t).2) : P ((x >>= f) s).2 :=
  bind_cases (P := fun run => P run.2) herror hok

/-- What every step keeps is left behind, also by a step that fails. -/
theorem snd_mapM {P : σ → Prop} {f : α → Stateful σ β} {items : List α}
    (hf : ∀ a ∈ items, ∀ s, P s → P (f a s).2) {s : σ} (hs : P s) : P (items.mapM f s).2 := by
  induction items generalizing s with
  | nil => exact hs
  | cons a rest ih =>
    obtain ⟨ha, hrest⟩ := List.forall_mem_cons.1 hf
    have hsnd : ∀ {γ : Type} {run : Except Error γ × σ} {result t}, run = (result, t) → P run.2 → P t := by
      rintro γ run result t rfl ht
      exact ht
    rw [List.mapM_cons]
    refine snd_bind (fun e t hrun => hsnd hrun (ha s hs)) fun b t hrun => ?_
    have ht : P t := hsnd hrun (ha s hs)
    exact snd_bind (fun e t' hlater => hsnd hlater (ih hrest ht))
      fun bs t' hlater => hsnd hlater (ih hrest ht)

/-- What every step of a fold keeps holds of its result. -/
theorem foldlM_invariant {P : β → σ → Prop} {f : β → α → Stateful σ β} {items : List α}
    (hf : ∀ a ∈ items, ∀ b s b' s', P b s → f b a s = (.ok b', s') → P b' s') {b b' : β}
    {s s' : σ} (hb : P b s) (h : items.foldlM f b s = (.ok b', s')) : P b' s' := by
  induction items generalizing b s with
  | nil =>
    cases h
    exact hb
  | cons a rest ih =>
    obtain ⟨ha, hrest⟩ := List.forall_mem_cons.1 hf
    rw [List.foldlM_cons] at h
    obtain ⟨b₁, s₁, hstep, hlater⟩ := bind_eq_ok h
    exact ih hrest (ha b s b₁ s₁ hb hstep) hlater

/-- What one step of a fold reaches and the others keep holds of its result. -/
theorem foldlM_reaches {I P : β → σ → Prop} {f : β → α → Stateful σ β} {items : List α}
    (hI : ∀ a ∈ items, ∀ b s b' s', I b s → f b a s = (.ok b', s') → I b' s') {a : α}
    (ha : a ∈ items) (hreach : ∀ b s b' s', I b s → f b a s = (.ok b', s') → P b' s')
    (hkeep : ∀ a' ∈ items, ∀ b s b' s', I b s → P b s → f b a' s = (.ok b', s') → P b' s')
    {b b' : β} {s s' : σ} (hb : I b s) (h : items.foldlM f b s = (.ok b', s')) : P b' s' := by
  obtain ⟨before, after, rfl⟩ := List.append_of_mem ha
  rw [List.foldlM_append] at h
  obtain ⟨b₁, s₁, hbefore, hrest⟩ := bind_eq_ok h
  rw [List.foldlM_cons] at hrest
  obtain ⟨b₂, s₂, hstep, hafter⟩ := bind_eq_ok hrest
  have hI₁ : I b₁ s₁ := foldlM_invariant
    (fun a' ha' => hI a' (List.mem_append_left _ ha')) hb hbefore
  have hI₂ : I b₂ s₂ := hI a ha b₁ s₁ b₂ s₂ hI₁ hstep
  have hP₂ : P b₂ s₂ := hreach b₁ s₁ b₂ s₂ hI₁ hstep
  refine (foldlM_invariant (P := fun b s => I b s ∧ P b s) ?_ ⟨hI₂, hP₂⟩ hafter).2
  rintro a' ha' b s b' s' ⟨hIb, hPb⟩ hstep'
  have hmem : a' ∈ before ++ a :: after :=
    List.mem_append_right _ (List.mem_cons_of_mem _ ha')
  exact ⟨hI a' hmem b s b' s' hIb hstep', hkeep a' hmem b s b' s' hIb hPb hstep'⟩

/-- A step of going through a list, and the state that it started from. -/
theorem mapM_reaches {I : σ → Prop} {f : α → Stateful σ β} {items : List α}
    (hI : ∀ a ∈ items, ∀ s b s', I s → f a s = (.ok b, s') → I s') {a : α} (ha : a ∈ items)
    {s s' : σ} {bs : List β} (hs : I s) (h : items.mapM f s = (.ok bs, s')) :
    ∃ t b t', I t ∧ f a t = (.ok b, t') ∧ b ∈ bs := by
  induction items generalizing s bs with
  | nil => cases ha
  | cons first rest ih =>
    obtain ⟨hfirst, hrest⟩ := List.forall_mem_cons.1 hI
    rw [List.mapM_cons] at h
    obtain ⟨b, s₁, hstep, hlater⟩ := bind_eq_ok h
    obtain ⟨bs', s₂, hbs, hpure⟩ := bind_eq_ok hlater
    cases hpure
    rcases List.mem_cons.1 ha with rfl | ha
    · exact ⟨s, b, s₁, hs, hstep, List.mem_cons_self⟩
    · obtain ⟨t, b', t', ht, hrun, hmem⟩ := ih hrest ha (hfirst s b s₁ hs hstep) hbs
      exact ⟨t, b', t', ht, hrun, List.mem_cons_of_mem _ hmem⟩

/-! ### What computations keep -/

/-- A computation keeps what holds of the state, whether it gives a result or not, and its results
are as stated. -/
def Keeps (I : σ → Prop) (x : Stateful σ α) (Q : α → Prop) : Prop :=
  ∀ s, I s → I (x s).2 ∧ ∀ a, (x s).1 = .ok a → Q a

namespace Keeps

variable {I : σ → Prop} {Q Q' : α → Prop} {P : β → Prop}

theorem of_run {result : Except Error α} (hx : Keeps I x Q) (hs : I s) (h : x s = (result, t)) :
    I t := by
  have hst := (hx s hs).1
  rwa [h] at hst

theorem of_ok (hx : Keeps I x Q) (hs : I s) (h : x s = (.ok a, t)) : Q a := by
  have hst := (hx s hs).2 a
  rw [h] at hst
  exact hst rfl

theorem imp (hx : Keeps I x Q) (h : ∀ a, Q a → Q' a) : Keeps I x Q' :=
  fun s hs => ⟨(hx s hs).1, fun a ha => h a ((hx s hs).2 a ha)⟩

theorem pure (ha : Q a) : Keeps I (Pure.pure a : Stateful σ α) Q := by
  refine fun s hs => ⟨hs, ?_⟩
  intro b hb
  cases hb
  exact ha

theorem throw (e : Error) : Keeps I (MonadExcept.throw e : Stateful σ α) Q := by
  refine fun s hs => ⟨hs, ?_⟩
  intro b hb
  cases hb

theorem bind (hx : Keeps I x Q) (hf : ∀ a, Q a → Keeps I (f a) P) : Keeps I (x >>= f) P := by
  intro s hs
  rcases h : x s with ⟨result, t⟩
  have ht := hx.of_run hs h
  cases result with
  | error e =>
    rw [bind_of_error h]
    refine ⟨ht, ?_⟩
    intro b hb
    cases hb
  | ok a =>
    rw [bind_of_ok h]
    exact hf a (hx.of_ok hs h) t ht

theorem forM {f : α → Stateful σ PUnit} {items : List α} (hf : ∀ a ∈ items, Keeps I (f a) fun _ => True) :
    Keeps I (items.forM f) fun _ => True := by
  induction items with
  | nil => exact .pure trivial
  | cons a rest ih =>
    obtain ⟨ha, hrest⟩ := List.forall_mem_cons.1 hf
    rw [List.forM]
    exact ha.bind fun _ _ => ih hrest

end Keeps

/-! ### What computations keep while more becomes known -/

/-- A computation keeps what holds of the known things and the state, whether it gives a result or not,
and its results are as stated. More may be known afterwards. -/
def KeepsIn {ι : Type} (I : Set ι → σ → Prop) (known : Set ι) (x : Stateful σ α)
    (Q : Set ι → α → Prop) : Prop :=
  ∀ before, known ⊆ before → ∀ s, I before s → ∃ after, before ⊆ after ∧ I after (x s).2 ∧
    ∀ a, (x s).1 = .ok a → Q after a

namespace KeepsIn

variable {ι : Type} {I : Set ι → σ → Prop} {known before : Set ι} {Q Q' : Set ι → α → Prop}
  {P : Set ι → β → Prop}

theorem of_run {result : Except Error α} (hx : KeepsIn I known x Q) (hknown : known ⊆ before)
    (hs : I before s) (h : x s = (result, t)) :
    ∃ after, before ⊆ after ∧ I after t ∧ ∀ a, result = .ok a → Q after a := by
  have hst := hx before hknown s hs
  rwa [h] at hst

theorem mono (hx : KeepsIn I known x Q) (h : known ⊆ before) : KeepsIn I before x Q :=
  fun later hlater => hx later (h.trans hlater)

theorem imp (hx : KeepsIn I known x Q) (h : ∀ after, known ⊆ after → ∀ a, Q after a → Q' after a) :
    KeepsIn I known x Q' := by
  intro before hknown s hs
  obtain ⟨after, hafter, hst, hq⟩ := hx before hknown s hs
  exact ⟨after, hafter, hst, fun a ha => h after (hknown.trans hafter) a (hq a ha)⟩

theorem and_of_run {R : α → Prop} (hx : KeepsIn I known x Q)
    (h : ∀ before s a t, I before s → x s = (.ok a, t) → R a) :
    KeepsIn I known x fun after a => Q after a ∧ R a := by
  intro before hknown s hs
  obtain ⟨after, hafter, hst, hq⟩ := hx before hknown s hs
  exact ⟨after, hafter, hst, fun a ha => ⟨hq a ha, h before s a (x s).2 hs (Prod.ext ha rfl)⟩⟩

theorem and_run {R : α → Prop} (hx : KeepsIn I known x Q) (h : ∀ s a t, x s = (.ok a, t) → R a) :
    KeepsIn I known x fun after a => Q after a ∧ R a :=
  hx.and_of_run fun _ s a t _ => h s a t

theorem pure (ha : ∀ after, known ⊆ after → Q after a) :
    KeepsIn I known (Pure.pure a : Stateful σ α) Q := by
  refine fun before hknown s hs => ⟨before, subset_rfl, hs, ?_⟩
  intro b hb
  cases hb
  exact ha before hknown

theorem throw (e : Error) : KeepsIn I known (MonadExcept.throw e : Stateful σ α) Q := by
  refine fun before hknown s hs => ⟨before, subset_rfl, hs, ?_⟩
  intro b hb
  cases hb

theorem bind (hx : KeepsIn I known x Q)
    (hf : ∀ a after, known ⊆ after → Q after a → KeepsIn I after (f a) P) :
    KeepsIn I known (x >>= f) P := by
  intro before hknown s hs
  rcases h : x s with ⟨result, t⟩
  obtain ⟨after, hafter, ht, hq⟩ := hx.of_run hknown hs h
  cases result with
  | error e =>
    rw [bind_of_error h]
    refine ⟨after, hafter, ht, ?_⟩
    intro b hb
    cases hb
  | ok a =>
    rw [bind_of_ok h]
    obtain ⟨later, hlater, hu, hp⟩ :=
      hf a after (hknown.trans hafter) (hq a rfl) after subset_rfl t ht
    exact ⟨later, hafter.trans hlater, hu, hp⟩

/-- What holds of the state holds of what is got of it. -/
theorem getting : KeepsIn I known (MonadState.get : Stateful σ σ) I := by
  refine fun before _ s hs => ⟨before, subset_rfl, hs, ?_⟩
  intro t ht
  cases ht
  exact hs

theorem get : KeepsIn I known (MonadState.get : Stateful σ σ) fun _ _ => True :=
  getting.imp fun _ _ _ _ => trivial

theorem foldlM {f : β → α → Stateful σ β} {items : List α}
    (hf : ∀ a ∈ items, ∀ b after, known ⊆ after → P after b → KeepsIn I after (f b a) P)
    (hmono : ∀ b before after, before ⊆ after → P before b → P after b) {b : β} (hb : P known b) :
    KeepsIn I known (items.foldlM f b) P := by
  induction items generalizing known b with
  | nil => exact .pure fun after hafter => hmono b known after hafter hb
  | cons a rest ih =>
    obtain ⟨ha, hrest⟩ := List.forall_mem_cons.1 hf
    rw [List.foldlM_cons]
    refine (ha b known subset_rfl hb).bind fun b after hafter hb => ?_
    exact ih (fun a ha b later hlater => hrest a ha b later (hafter.trans hlater)) hb

theorem mapM {P : Set ι → β → Prop} {f : α → Stateful σ β} {items : List α}
    (hf : ∀ a ∈ items, KeepsIn I known (f a) P)
    (hmono : ∀ b before after, before ⊆ after → P before b → P after b) :
    KeepsIn I known (items.mapM f) fun after bs => ∀ b ∈ bs, P after b := by
  induction items generalizing known with
  | nil =>
    rw [List.mapM_nil]
    exact .pure fun _ _ => by simp
  | cons a rest ih =>
    obtain ⟨ha, hrest⟩ := List.forall_mem_cons.1 hf
    rw [List.mapM_cons]
    refine ha.bind fun b after hafter hb => ?_
    refine (ih fun a ha => (hrest a ha).mono hafter).bind fun bs later hlater hbs =>
      .pure fun last hlast => ?_
    exact List.forall_mem_cons.2 ⟨hmono b after last (hlater.trans hlast) hb,
      fun b hb => hmono b later last hlast (hbs b hb)⟩

theorem forM {f : α → Stateful σ PUnit} {items : List α}
    (hf : ∀ a ∈ items, KeepsIn I known (f a) fun _ _ => True) :
    KeepsIn I known (items.forM f) fun _ _ => True := by
  induction items generalizing known with
  | nil => exact .pure fun _ _ => trivial
  | cons a rest ih =>
    obtain ⟨ha, hrest⟩ := List.forall_mem_cons.1 hf
    rw [List.forM]
    exact ha.bind fun _ after hafter _ => ih fun a ha => (hrest a ha).mono hafter

/-- Nothing more becomes known where what holds is about known things that are given. -/
theorem keeps {J : σ → Prop} (hx : KeepsIn (fun before s => before = known ∧ J s) known x Q) :
    Keeps J x (Q known) := by
  intro s hs
  obtain ⟨after, -, ⟨rfl, ht⟩, hq⟩ := hx known subset_rfl s ⟨rfl, hs⟩
  exact ⟨ht, hq⟩

end KeepsIn

end Stateful

end TypedRecords
