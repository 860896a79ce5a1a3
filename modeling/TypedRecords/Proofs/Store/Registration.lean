import TypedRecords.Store
import TypedRecords.Proofs.Class.Entered

/-! # Registration with a store

A registration checks all classes before it enters the first of them. The classes of a registry have
different names, so that what is done for one of them spoils no check of another: what follows the
checks does not fail.
-/

namespace TypedRecords

open Stateful (bind_of_ok bind_of_error)

namespace Store

variable {d d' : Directory} {s : Store} {c other : ClassRef} {e e' e'' : Enrolment} {err : Error}

/-! ### Checks -/

theorem ofExcept_of_ok {α : Type} {x : Except Error α} {a : α} (h : x = .ok a) (e : Enrolment) :
    ofExcept x e = (.ok a, e) := by
  rw [h]
  rfl

theorem ofExcept_of_error {α : Type} {x : Except Error α} (h : x = .error err) (e : Enrolment) :
    ofExcept x e = (.error err, e) := by
  rw [h]
  rfl

/-- A storable of the store. -/
structure Listed (d : Directory) (s : Store) (c : ClassRef) : Prop where
  storable : (d.definition c).storable = true
  listed : Fields.get? c.name s.storables = some c

/-- A class that can become a storable of the store. -/
structure Free (d : Directory) (s : Store) (c : ClassRef) : Prop where
  storable : (d.definition c).storable = true
  unlisted : Fields.get? c.name s.storables = none
  unclaimed : ∀ ref, (d.entry c).store = some ref → ref = s.ref

theorem checkStorable_of_listed (h : Listed d s c) : checkStorable d s c = .ok true := by
  simp [checkStorable, h.storable, h.listed]
  rfl

theorem checkStorable_of_free (h : Free d s c) : checkStorable d s c = .ok false := by
  have hunclaimed : (d.entry c).store.any (fun ref => ref != s.ref) = false := by
    cases hstore : (d.entry c).store with
    | none => rfl
    | some ref => simp [h.unclaimed ref hstore]
  simp [checkStorable, h.storable, h.unlisted, hunclaimed]
  rfl

theorem checkStorable_eq_ok {known : Bool} (h : checkStorable d s c = .ok known) :
    if known then Listed d s c else Free d s c := by
  unfold checkStorable at h
  by_cases hstorable : (d.definition c).storable = true
  · rw [if_neg (by simp [hstorable])] at h
    split at h
    · next registered hlisted =>
      by_cases hsame : registered = c
      · rw [if_pos hsame] at h
        cases h
        rw [hsame] at hlisted
        exact ⟨hstorable, hlisted⟩
      · rw [if_neg hsame] at h
        cases h
    · next hunlisted =>
      split at h
      · cases h
      · next hclaimed =>
        cases h
        refine ⟨hstorable, hunlisted, fun ref href => ?_⟩
        rw [href] at hclaimed
        simpa using hclaimed
  · rw [if_pos (by simpa using hstorable)] at h
    cases h

/-- Nothing speaks against a class that is registered as part of a registry. -/
structure Admits (d : Directory) (s : Store) (c : ClassRef) : Prop where
  named : ∀ other, d.find? s.registry c.name = some other → other = c
  kept : (d.definition c).storable = true → Listed d s c ∨ Free d s c

theorem checkRoot_eq_ok (h : checkRoot d s c = .ok ()) : Admits d s c := by
  have hkept : (if (d.definition c).storable = true then
      (checkStorable d s c >>= fun _ => pure ()) else pure () : Except Error Unit) = .ok () →
      (d.definition c).storable = true → Listed d s c ∨ Free d s c := by
    intro hcheck hstorable
    rw [if_pos hstorable] at hcheck
    obtain ⟨known, hknown, -⟩ := bind_eq_ok hcheck
    have hcases := checkStorable_eq_ok hknown
    cases known with
    | true => exact .inl hcases
    | false => exact .inr hcases
  unfold checkRoot at h
  dsimp only at h
  split at h
  · next registered hfound =>
    split at h
    · next hsame =>
      refine ⟨fun other hother => ?_, hkept h⟩
      rw [hfound] at hother
      cases hother
      exact hsame
    · cases h
  · next hnone =>
    refine ⟨fun other hother => ?_, hkept h⟩
    rw [hnone] at hother
    cases hother

/-! ### What a registration does -/

/-- What a class that is entered in the registry of the store leaves as it was. -/
theorem Free.enters {c' : ClassRef} (h : Free d s c) (hd : d.Enters c' d') : Free d' s c where
  storable := by rw [hd.definition, h.storable]
  unlisted := h.unlisted
  unclaimed ref href := by
    rw [hd.store] at href
    exact h.unclaimed ref href

theorem Listed.enters {c' : ClassRef} (h : Listed d s c) (hd : d.Enters c' d') : Listed d' s c where
  storable := by rw [hd.definition, h.storable]
  listed := h.listed

/-- A class becomes a storable of the store. -/
def claim (d : Directory) (c : ClassRef) (s : Store) : Enrolment where
  directory := d.setEntry c fun entry => { entry with store := some s.ref }
  store := { s with storables := Fields.insert c.name c s.storables }

theorem definition_claim (d : Directory) (c : ClassRef) (s : Store) (other : ClassRef) :
    (claim d c s).directory.definition other = d.definition other :=
  Directory.definition_setEntry (f := fun entry => { entry with store := some s.ref }) (fun _ => rfl)
    c other

/-- A class belongs to the store, or to whom it belonged before. -/
theorem store_claim (d : Directory) (c : ClassRef) (s : Store) (other : ClassRef) :
    ((claim d c s).directory.entry other).store = some s.ref ∧ c.serial = other.serial ∨
      ((claim d c s).directory.entry other).store = (d.entry other).store ∧
        (c.serial = other.serial → d.classes.size ≤ other.serial) := by
  rcases Directory.entry_setEntry d c other fun entry => { entry with store := some s.ref } with
    ⟨hentry, hserial, -⟩ | ⟨hentry, hbound⟩
  · exact .inl ⟨congrArg ClassEntry.store hentry, hserial⟩
  · exact .inr ⟨congrArg ClassEntry.store hentry, hbound⟩

/-- What registering one class with a store does to the store and the directory. -/
inductive Enlists (c : ClassRef) (e : Enrolment) : Enrolment → Prop
  | entered {d : Directory} (h : e.directory.Enters c d) : Enlists c e { e with directory := d }
  | claimed {d : Directory} (h : e.directory.Enters c d) (free : Free e.directory e.store c) :
    Enlists c e (claim d c e.store)

theorem enter_runs (h : ∀ other, e.directory.find? e.store.registry c.name = some other → other = c) :
    ∃ d, e.directory.Enters c d ∧ enter c e = (.ok (), { e with directory := d }) := by
  obtain ⟨d, hregister⟩ := Directory.register_of_free h
  refine ⟨d, Directory.register_enters hregister, ?_⟩
  exact bind_of_ok (ofExcept_of_ok hregister e)

theorem registerStorable_of_listed (h : Listed e.directory e.store c) :
    registerStorable c e = (.ok (), e) :=
  bind_of_ok (ofExcept_of_ok (checkStorable_of_listed h) e)

theorem registerStorable_of_free (h : Free e.directory e.store c) :
    ∃ d, e.directory.Enters c d ∧ registerStorable c e = (.ok (), claim d c e.store) := by
  have hcheck := ofExcept_of_ok (checkStorable_of_free h) e
  cases hfound : e.directory.find? e.store.registry c.name with
  | some other =>
    refine ⟨e.directory, .refl _ c, ?_⟩
    refine (bind_of_ok hcheck).trans ?_
    simp only [hfound]
    rfl
  | none =>
    obtain ⟨d, henters, hrun⟩ := enter_runs (e := e) (c := c) (by simp [hfound])
    refine ⟨d, henters, (bind_of_ok hcheck).trans ?_⟩
    simp only [hfound]
    exact bind_of_ok hrun

theorem registerStorable_of_error (h : checkStorable e.directory e.store c = .error err) :
    registerStorable c e = (.error err, e) :=
  (bind_of_ok (a := e) (t := e) rfl).trans (bind_of_error (ofExcept_of_error h e))

/-- How the registration of a storable runs. -/
theorem registerStorable_runs (c : ClassRef) (e : Enrolment) :
    (∃ err, registerStorable c e = (.error err, e)) ∨
      Listed e.directory e.store c ∧ registerStorable c e = (.ok (), e) ∨
      ∃ e', registerStorable c e = (.ok (), e') ∧ Enlists c e e' ∧
        Listed e'.directory e'.store c := by
  cases hcheck : checkStorable e.directory e.store c with
  | error err => exact .inl ⟨err, registerStorable_of_error hcheck⟩
  | ok known =>
    have hcases := checkStorable_eq_ok hcheck
    cases known with
    | true => exact .inr (.inl ⟨hcases, registerStorable_of_listed hcases⟩)
    | false =>
      obtain ⟨d, henters, hrun⟩ := registerStorable_of_free hcases
      refine .inr (.inr ⟨_, hrun, .claimed henters hcases, ?_, Fields.get?_insert_self ..⟩)
      rw [definition_claim, henters.definition, hcases.storable]

/-- A class is entered in the registry of the store, and becomes a storable if it can be one. -/
theorem enlist_runs (h : Admits e.directory e.store c) {storable : Bool}
    (hstorable : storable = (e.directory.definition c).storable) :
    ∃ e', (do enter c; if storable then registerStorable c else pure ()) e = (.ok (), e') ∧
      Enlists c e e' := by
  obtain ⟨d, henters, hrun⟩ := enter_runs h.named
  cases hcase : storable with
  | false => exact ⟨_, bind_of_ok hrun, .entered henters⟩
  | true =>
    rw [hcase] at hstorable
    rcases h.kept hstorable.symm with hlisted | hfree
    · have hthere : Listed d e.store c := hlisted.enters henters
      exact ⟨_, (bind_of_ok hrun).trans (registerStorable_of_listed hthere), .entered henters⟩
    · obtain ⟨d', henters', hclaim⟩ :=
        registerStorable_of_free (e := { e with directory := d }) (hfree.enters henters)
      exact ⟨_, (bind_of_ok hrun).trans hclaim, .claimed (henters.trans henters') hfree⟩

/-! ### What a registration leaves to other classes -/

theorem Enlists.definition (h : Enlists c e e') (other : ClassRef) :
    e'.directory.definition other = e.directory.definition other := by
  cases h with
  | entered h => exact h.definition other
  | claimed h _ => exact (definition_claim _ c _ other).trans (h.definition other)

/-- A class of another name is admitted as before. -/
theorem Admits.enlists (h : Admits e.directory e.store other) (hname : other.name ≠ c.name)
    (he : Enlists c e e') : Admits e'.directory e'.store other := by
  have hdefinition := he.definition other
  cases he with
  | @entered d henters =>
    refine ⟨fun x hx => h.named x ?_, fun hstorable => ?_⟩
    · exact (henters.find? _ _ hname).symm.trans hx
    · rw [hdefinition] at hstorable
      exact (h.kept hstorable).imp (·.enters henters) (·.enters henters)
  | @claimed d henters hfree =>
    have hstorables : Fields.get? other.name (claim d c e.store).store.storables =
        Fields.get? other.name e.store.storables := Fields.get?_insert_of_ne hname _ _
    refine ⟨fun x hx => h.named x ?_, fun hstorable => ?_⟩
    · exact (henters.find? _ _ hname).symm.trans hx
    · have hstill := hdefinition ▸ hstorable
      rcases h.kept hstill with hlisted | hother
      · exact .inl ⟨hstorable, hstorables.trans hlisted.listed⟩
      · refine .inr ⟨hstorable, hstorables.trans hother.unlisted, fun ref href => ?_⟩
        -- The class may share its entry; then it belongs to this store.
        rcases store_claim d c e.store other with ⟨hstore, -⟩ | ⟨hstore, -⟩
        · exact (Option.some.inj (hstore.symm.trans href)).symm
        · rw [hstore, henters.store] at href
          exact hother.unclaimed ref href

/-- After the checks, all classes are registered. -/
theorem enlistAll_runs {d₀ : Directory} {classes : List ClassRef}
    (hnames : (classes.map ClassRef.name).Nodup)
    (hadmits : ∀ c ∈ classes, Admits e.directory e.store c)
    (hdefinition : ∀ c, d₀.definition c = e.directory.definition c) :
    ∃ e', (classes.forM fun c => do
        enter c
        if (d₀.definition c).storable then registerStorable c) e = (.ok (), e') ∧
      Relation.ReflTransGen (fun e e' => ∃ c, Enlists c e e') e e' := by
  induction classes generalizing e with
  | nil => exact ⟨e, rfl, .refl⟩
  | cons first rest ih =>
    obtain ⟨hfirst, hrest⟩ := List.forall_mem_cons.1 hadmits
    obtain ⟨hnew, hdistinct⟩ := List.nodup_cons.1 hnames
    obtain ⟨e₁, hrun, henlists⟩ := enlist_runs hfirst
      (congrArg Definition.storable (hdefinition first))
    have hadmits₁ : ∀ c ∈ rest, Admits e₁.directory e₁.store c := by
      intro c hc
      refine (hrest c hc).enlists (fun hname => hnew ?_) henlists
      rw [← hname]
      exact List.mem_map_of_mem hc
    have hdefinition₁ : ∀ c, d₀.definition c = e₁.directory.definition c := fun c =>
      (hdefinition c).trans (henlists.definition c).symm
    obtain ⟨e', hlater, hsteps⟩ := ih hdistinct hadmits₁ hdefinition₁
    exact ⟨e', (bind_of_ok hrun).trans hlater, .head ⟨first, henlists⟩ hsteps⟩

/-! ### Registries as a whole -/

/-- A check that fails ends the checks, which change nothing. -/
theorem checkAll_runs {α : Type} (check : α → Except Error Unit) (items : List α) (e : Enrolment) :
    (∃ err, (items.forM fun a => ofExcept (check a)) e = (.error err, e)) ∨
      (items.forM fun a => ofExcept (check a)) e = (.ok (), e) ∧ ∀ a ∈ items, check a = .ok () := by
  induction items with
  | nil => exact .inr ⟨rfl, fun _ h => absurd h List.not_mem_nil⟩
  | cons first rest ih =>
    cases hfirst : check first with
    | error err => exact .inl ⟨err, bind_of_error (ofExcept_of_error hfirst e)⟩
    | ok _ =>
      have hrun := bind_of_ok (f := fun _ => rest.forM fun a => ofExcept (check a))
        (ofExcept_of_ok hfirst e)
      rcases ih with ⟨err, hrest⟩ | ⟨hrest, hall⟩
      · exact .inl ⟨err, hrun.trans hrest⟩
      · exact .inr ⟨hrun.trans hrest, List.forall_mem_cons.2 ⟨hfirst, hall⟩⟩

/-- The store holds a registry. -/
def keepRoot (r : RegistryRef) (e : Enrolment) : Enrolment where
  directory := e.directory.hold r
  store := { e.store with roots := e.store.roots ++ [r] }

theorem registerRoot_of_mem {r : RegistryRef} (h : r ∈ e.store.roots) :
    registerRoot r e = (.ok (), e) := by
  have hcontains : e.store.roots.contains r = true := by simpa using h
  refine (bind_of_ok (a := e) (t := e) rfl).trans ?_
  rw [if_pos hcontains]
  rfl

/-- How the registration of a registry runs. -/
theorem registerRoot_runs (r : RegistryRef) (h : e.directory.Listed) :
    (∃ err, registerRoot r e = (.error err, e)) ∨
      r ∈ e.store.roots ∧ registerRoot r e = (.ok (), e) ∨
      ∃ e', registerRoot r e = (.ok (), keepRoot r e') ∧
        Relation.ReflTransGen (fun e e' => ∃ c, Enlists c e e') e e' := by
  by_cases hroot : r ∈ e.store.roots
  · exact .inr (.inl ⟨hroot, registerRoot_of_mem hroot⟩)
  · have hcontains : ¬e.store.roots.contains r = true := by simpa using hroot
    have hstart : registerRoot r e = (do
        (Fields.values (e.directory.members r)).forM fun c =>
          ofExcept (checkRoot e.directory e.store c)
        (Fields.values (e.directory.members r)).forM fun c => do
          enter c
          if (e.directory.definition c).storable then registerStorable c
        modify (keepRoot r) : Enrolling Unit) e := by
      refine (bind_of_ok (a := e) (t := e) rfl).trans ?_
      rw [if_neg hcontains]
      rfl
    rw [hstart]
    rcases checkAll_runs (checkRoot e.directory e.store) (Fields.values (e.directory.members r)) e with
      ⟨err, hchecks⟩ | ⟨hchecks, hall⟩
    · exact .inl ⟨err, bind_of_error hchecks⟩
    · obtain ⟨e', hrun, hsteps⟩ := enlistAll_runs (h.names_nodup r)
        (fun c hc => checkRoot_eq_ok (hall c hc)) fun _ => rfl
      exact .inr (.inr ⟨e', (bind_of_ok hchecks).trans (bind_of_ok hrun), hsteps⟩)

end Store

end TypedRecords
