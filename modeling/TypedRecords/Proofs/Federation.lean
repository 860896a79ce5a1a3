import TypedRecords.Proofs.Store.Registration

/-! # Stores that share a directory

Classes are declared, forked and entered in registries, and registered with any of several stores, alone
or with a whole registry. A registration is made as a whole or not at all, and once is as good as twice.
No class is a storable of two stores.
-/

namespace TypedRecords

/-! ### What a registration keeps -/

namespace Enrolment

/-- The storables of a store are classes that belong to it. -/
def Owned (d : Directory) (s : Store) : Prop :=
  ∀ c ∈ Fields.values s.storables, (d.entry c).store = some s.ref

/-- What has become of a store and the directory after registrations. -/
structure Grows (e e' : Enrolment) : Prop where
  ref : e'.store.ref = e.store.ref
  stores : e'.directory.stores = e.directory.stores
  classes : e.directory.Extends e'.directory
  listed : e.directory.Listed → e'.directory.Listed
  roots : ∀ r ∈ e.store.roots, r ∈ e'.store.roots
  storables : ∀ name c, Fields.get? name e.store.storables = some c →
    Fields.get? name e'.store.storables = some c
  others : ∀ c ref, ref ≠ e.store.ref → (e.directory.entry c).store = some ref →
    (e'.directory.entry c).store = some ref
  owned : Owned e.directory e.store → Owned e'.directory e'.store

variable {e e' e'' : Enrolment} {c : ClassRef}

theorem Grows.refl (e : Enrolment) : Grows e e :=
  ⟨rfl, rfl, .refl _, id, fun _ => id, fun _ _ => id, fun _ _ _ => id, id⟩

theorem Grows.trans (h : Grows e e') (h' : Grows e' e'') : Grows e e'' where
  ref := h'.ref.trans h.ref
  stores := h'.stores.trans h.stores
  classes := h.classes.trans h'.classes
  listed := h'.listed ∘ h.listed
  roots r := h'.roots r ∘ h.roots r
  storables name c := h'.storables name c ∘ h.storables name c
  others c ref href := h'.others c ref (by rwa [h.ref]) ∘ h.others c ref href
  owned := h'.owned ∘ h.owned

/-- A store is used for other things. -/
theorem grows_of_use (d : Directory) {s s' : Store} (href : s'.ref = s.ref)
    (hroots : s'.roots = s.roots) (hstorables : s'.storables = s.storables) :
    Grows ⟨d, s⟩ ⟨d, s'⟩ where
  ref := href
  stores := rfl
  classes := .refl d
  listed := id
  roots := by simp [hroots]
  storables := by simp [hstorables]
  others _ _ _ := id
  owned h := by rwa [Owned, hstorables, href]

end Enrolment

/-- A class that is storable is there. -/
theorem Directory.bound_of_storable {d : Directory} {c : ClassRef}
    (h : (d.definition c).storable = true) : c.serial < d.classes.size := by
  by_contra hbound
  have hnone : d.classes[c.serial]? = none := Array.getElem?_eq_none_iff.2 (Nat.le_of_not_lt hbound)
  rw [definition, entry, hnone] at h
  cases h

theorem Directory.Enters.extends_ {d d' : Directory} {c : ClassRef} (h : d.Enters c d') :
    d.Extends d' :=
  ⟨Nat.le_of_eq h.size.symm, fun other _ => h.definition other⟩

namespace Store

open Enrolment (Grows Owned)

variable {e e' : Enrolment} {c : ClassRef}

theorem Enlists.grows (h : Enlists c e e') : Grows e e' := by
  cases h with
  | @entered d h =>
    exact {
      ref := rfl
      stores := h.stores
      classes := h.extends_
      listed := h.listed
      roots := fun _ => id
      storables := fun _ _ => id
      others := fun other ref _ hstore => (h.store other).trans hstore
      owned := fun howned other hother => (h.store other).trans (howned other hother) }
  | @claimed d h free =>
    have hbound : c.serial < d.classes.size := by
      rw [h.size]
      exact Directory.bound_of_storable free.storable
    refine {
      ref := rfl
      stores := h.stores
      classes := h.extends_.trans (Directory.extends_setEntry d c fun _ => rfl)
      listed := h.listed
      roots := fun _ => id
      storables := ?_
      others := ?_
      owned := ?_ }
    · intro name other hother
      refine (Fields.get?_insert_of_ne ?_ _ _).trans hother
      rintro rfl
      cases free.unlisted.symm.trans hother
    · intro other ref href hstore
      rcases store_claim d c e.store other with ⟨-, hserial⟩ | ⟨hnow, -⟩
      · -- The entry would belong to another store, and the class to none.
        have hentry : e.directory.entry c = e.directory.entry other := by
          simp only [Directory.entry, hserial]
        exact absurd (free.unclaimed ref (by rw [hentry, hstore])) href
      · rw [hnow, h.store, hstore]
    · intro howned other hother
      rcases store_claim d c e.store other with ⟨hnow, -⟩ | ⟨hnow, hout⟩
      · exact hnow
      · obtain ⟨⟨name, _⟩, hmem, rfl⟩ := List.mem_map.1 hother
        rcases Fields.mem_insert hmem with hbefore | hnew
        · exact hnow.trans ((h.store _).trans (howned _ (List.mem_map_of_mem hbefore)))
        · cases hnew
          exact absurd hbound (Nat.not_lt.2 (hout rfl))

theorem grows_of_steps (h : Relation.ReflTransGen (fun e e' => ∃ c, Enlists c e e') e e') :
    Grows e e' := by
  induction h with
  | refl => exact .refl e
  | tail _ hstep ih =>
    obtain ⟨c, henlists⟩ := hstep
    exact ih.trans henlists.grows

theorem grows_keepRoot (r : RegistryRef) (e : Enrolment) : Grows e (keepRoot r e) where
  ref := rfl
  stores := rfl
  classes := ⟨Nat.le_refl _, fun _ _ => rfl⟩
  listed h := h.hold r
  roots _ := List.mem_append_left _
  storables _ _ := id
  others _ _ _ := id
  owned := id

end Store

/-! ### Registrations -/

/-- What can be registered with a store. -/
inductive Registration
  | root (r : RegistryRef)
  | storable (c : ClassRef)

namespace Registration

open Enrolment (Grows)

variable {registration : Registration} {d d' : Directory} {s s' : Store} {e e' : Enrolment}

def run : Registration → Enrolling Unit
  | .root r => Store.registerRoot r
  | .storable c => Store.registerStorable c

/-- A registration that has been made. -/
def Made (d : Directory) (s : Store) : Registration → Prop
  | .root r => r ∈ s.roots
  | .storable c => Store.Listed d s c

/-- A registration that has been made is not made again. -/
theorem run_of_made (h : registration.Made d s) : registration.run ⟨d, s⟩ = (.ok (), ⟨d, s⟩) := by
  cases registration with
  | root r => exact Store.registerRoot_of_mem h
  | storable c => exact Store.registerStorable_of_listed h

theorem Made.grow (h : registration.Made d s) (hd : d.Extends d')
    (hroots : ∀ r ∈ s.roots, r ∈ s'.roots)
    (hstorables : ∀ name c, Fields.get? name s.storables = some c →
      Fields.get? name s'.storables = some c) : registration.Made d' s' := by
  cases registration with
  | root r => exact hroots r h
  | storable c =>
    have hbound := Directory.bound_of_storable h.storable
    exact ⟨by rw [hd.definition c hbound, h.storable], hstorables _ _ h.listed⟩

/-- How a registration runs: it fails and changes nothing, or it is made. -/
theorem run_cases (registration : Registration) (h : e.directory.Listed) :
    (∃ err, registration.run e = (.error err, e)) ∨
      ∃ e', registration.run e = (.ok (), e') ∧ Grows e e' ∧
        registration.Made e'.directory e'.store := by
  cases registration with
  | root r =>
    rcases Store.registerRoot_runs r h with herror | ⟨hmem, hrun⟩ | ⟨e', hrun, hsteps⟩
    · exact .inl herror
    · exact .inr ⟨e, hrun, .refl e, hmem⟩
    · exact .inr ⟨_, hrun, (Store.grows_of_steps hsteps).trans (Store.grows_keepRoot r e'),
        List.mem_append_right _ (List.mem_singleton.2 rfl)⟩
  | storable c =>
    rcases Store.registerStorable_runs c e with herror | ⟨hlisted, hrun⟩ | ⟨e', hrun, henlists, hlisted⟩
    · exact .inl herror
    · exact .inr ⟨e, hrun, .refl e, hlisted⟩
    · exact .inr ⟨e', hrun, henlists.grows, hlisted⟩

end Registration

/-! ### Stores and their directory -/

/-- Stores that share the classes and registries of one directory. -/
structure Federation where
  directory : Directory := {}
  stores : List Store := []

namespace Federation

open Enrolment (Grows Owned)

/-- Registers with the store at a place, if there is one. -/
def register (F : Federation) (i : Nat) (registration : Registration) :
    Option (Except Error Unit × Federation) :=
  F.stores[i]?.map fun s =>
    let (result, e) := registration.run ⟨F.directory, s⟩
    (result, { directory := e.directory, stores := F.stores.set i e.store })

/-- What can happen: classes are declared, forked and entered in registries, which are held and let go
of; stores are opened, closed, registered with, and used for other things. -/
inductive Step : Federation → Federation → Prop
  | declare {F : Federation} (name : String) (definition : Definition) :
    Step F { F with directory := (F.directory.declare name definition).2 }
  | fork {F : Federation} (c : ClassRef) : Step F { F with directory := (F.directory.forkClass c).2 }
  | openRegistry {F : Federation} : Step F { F with directory := F.directory.openRegistry.2 }
  | enter {F : Federation} {r : RegistryRef} {c : ClassRef} {d : Directory}
    (h : F.directory.register r c = .ok d) : Step F { F with directory := d }
  | hold {F : Federation} (r : RegistryRef) : Step F { F with directory := F.directory.hold r }
  | release {F : Federation} (r : RegistryRef) : Step F { F with directory := F.directory.release r }
  | openStore {F : Federation} (settings : Settings) (journal : Option (List JournalEntry)) :
    Step F {
      directory := (Store.open_ F.directory settings journal).2
      stores := F.stores ++ [(Store.open_ F.directory settings journal).1] }
  | closeStore {F : Federation} {i : Nat} {s : Store} (h : F.stores[i]? = some s) :
    Step F { directory := s.close F.directory, stores := F.stores.eraseIdx i }
  | useStore {F : Federation} {i : Nat} {s s' : Store} (h : F.stores[i]? = some s)
    (ref : s'.ref = s.ref) (roots : s'.roots = s.roots) (storables : s'.storables = s.storables) :
    Step F { F with stores := F.stores.set i s' }
  | register {F F' : Federation} (i : Nat) (registration : Registration)
    {result : Except Error Unit} (h : F.register i registration = some (result, F')) : Step F F'

/-- What comes of nothing. -/
inductive Reached : Federation → Prop
  | start : Reached {}
  | step {F F' : Federation} (before : Reached F) (step : Step F F') : Reached F'

variable {F F' : Federation} {i j : Nat} {s s' t : Store} {registration : Registration}
  {result : Except Error Unit}

/-- The store at a place is replaced, and keeps its number. -/
theorem refs_set (h : F.stores[i]? = some s) (href : s'.ref = s.ref) :
    (F.stores.set i s').map Store.ref = F.stores.map Store.ref := by
  obtain ⟨hi, rfl⟩ := List.getElem?_eq_some_iff.1 h
  rw [List.map_set, href, ← List.getElem_map Store.ref]
  · exact List.set_getElem_self _
  · simpa using hi

/-! ### What holds at all times -/

/-- Stores are told apart by their numbers, and own their storables. -/
structure Sound (F : Federation) : Prop where
  listed : F.directory.Listed
  refs : (F.stores.map Store.ref).Nodup
  fresh : ∀ s ∈ F.stores, s.ref.serial < F.directory.stores
  owned : ∀ s ∈ F.stores, Owned F.directory s

theorem Sound.start : Sound {} where
  listed := Directory.listed_empty
  refs := List.nodup_nil
  fresh _ h := absurd h List.not_mem_nil
  owned _ h := absurd h List.not_mem_nil

theorem Sound.eq_of_ref (h : F.Sound) (hs : s ∈ F.stores) (ht : t ∈ F.stores)
    (href : s.ref = t.ref) : s = t :=
  List.inj_on_of_nodup_map h.refs hs ht href

theorem Sound.ref_ne (h : F.Sound) (hij : i ≠ j) (hs : F.stores[i]? = some s)
    (ht : F.stores[j]? = some t) : s.ref ≠ t.ref := by
  intro href
  obtain ⟨hi, rfl⟩ := List.getElem?_eq_some_iff.1 hs
  obtain ⟨hj, rfl⟩ := List.getElem?_eq_some_iff.1 ht
  have hi' : i < (F.stores.map Store.ref).length := by simpa using hi
  have hj' : j < (F.stores.map Store.ref).length := by simpa using hj
  have hsame : (F.stores.map Store.ref)[i] = (F.stores.map Store.ref)[j] := by
    rw [List.getElem_map, List.getElem_map, href]
  exact hij (h.refs.getElem_inj_iff.1 hsame)

/-- The directory changes, and classes stay with their stores. -/
theorem Sound.redirect (h : F.Sound) {d : Directory} (hlisted : d.Listed)
    (hstores : F.directory.stores ≤ d.stores)
    (hentries : ∀ c ref, (F.directory.entry c).store = some ref → (d.entry c).store = some ref) :
    Sound { F with directory := d } where
  listed := hlisted
  refs := h.refs
  fresh s hs := Nat.lt_of_lt_of_le (h.fresh s hs) hstores
  owned s hs c hc := hentries c s.ref (h.owned s hs c hc)

/-- Another class is entered in the directory. -/
theorem Sound.push (h : F.Sound) (e : ClassEntry) :
    Sound { F with directory := { F.directory with classes := F.directory.classes.push e } } := by
  refine h.redirect h.listed (Nat.le_refl _) fun c ref hc => ?_
  have hbound : c.serial < F.directory.classes.size := by
    by_contra hbound
    have hnone : F.directory.classes[c.serial]? = none :=
      Array.getElem?_eq_none_iff.2 (Nat.le_of_not_lt hbound)
    rw [Directory.entry, hnone] at hc
    cases hc
  simpa [Directory.entry, Array.getElem?_push, Nat.ne_of_lt hbound] using hc

/-- A store that is closed lets go of registries, and that is all. -/
theorem close_keeps (s : Store) (d : Directory) (h : d.Listed) :
    (s.close d).Listed ∧ (s.close d).classes = d.classes ∧ (s.close d).stores = d.stores := by
  unfold Store.close
  generalize s.registry :: s.roots = held
  induction held generalizing d with
  | nil => exact ⟨h, rfl, rfl⟩
  | cons r rest ih => exact ih (d.release r) (h.release r)

/-- One store is replaced by what registrations, if any, have made of it. -/
theorem Sound.replace (h : F.Sound) {e : Enrolment} (hs : F.stores[i]? = some s)
    (hgrows : Grows ⟨F.directory, s⟩ e) :
    Sound { directory := e.directory, stores := F.stores.set i e.store } where
  listed := hgrows.listed h.listed
  refs := by
    rw [refs_set hs hgrows.ref]
    exact h.refs
  fresh t ht := by
    have hstores : e.directory.stores = F.directory.stores := hgrows.stores
    rw [hstores]
    rcases List.mem_or_eq_of_mem_set ht with hbefore | rfl
    · exact h.fresh t hbefore
    · have href : e.store.ref = s.ref := hgrows.ref
      rw [href]
      exact h.fresh s (List.mem_of_getElem? hs)
  owned t ht c hc := by
    obtain ⟨j, hj⟩ := List.mem_iff_getElem?.1 ht
    by_cases hij : i = j
    · subst hij
      obtain ⟨hi, -⟩ := List.getElem?_eq_some_iff.1 hs
      rw [List.getElem?_set_self hi] at hj
      cases hj
      exact hgrows.owned (h.owned s (List.mem_of_getElem? hs)) c hc
    · rw [List.getElem?_set_ne hij] at hj
      exact hgrows.others c t.ref (h.ref_ne hij hs hj).symm
        (h.owned t (List.mem_of_getElem? hj) c hc)

/-- A registration leaves all as it is, or is made. -/
theorem register_cases (h : F.Sound)
    (hrun : F.register i registration = some (result, F')) :
    ∃ s, F.stores[i]? = some s ∧
      ((∃ err, result = .error err ∧ F' = F) ∨
        ∃ e, result = .ok () ∧ F' = { directory := e.directory, stores := F.stores.set i e.store } ∧
          Grows ⟨F.directory, s⟩ e ∧ registration.Made e.directory e.store) := by
  obtain ⟨s, hs, hresult⟩ := Option.map_eq_some_iff.1 hrun
  refine ⟨s, hs, ?_⟩
  rcases registration.run_cases (e := ⟨F.directory, s⟩) h.listed with
    ⟨err, herror⟩ | ⟨e, hok, hgrows, hmade⟩
  · rw [herror] at hresult
    cases hresult
    obtain ⟨hi, hget⟩ := List.getElem?_eq_some_iff.1 hs
    refine .inl ⟨err, rfl, ?_⟩
    rw [← hget, List.set_getElem_self hi]
  · rw [hok] at hresult
    cases hresult
    exact .inr ⟨e, rfl, rfl, hgrows, hmade⟩

theorem Sound.step (h : F.Sound) (hstep : Step F F') : F'.Sound := by
  cases hstep with
  | declare name definition => exact h.push { definition }
  | fork c => exact h.push (F.directory.entry c)
  | openRegistry => exact h.redirect h.listed.openRegistry (Nat.le_refl _) fun _ _ => id
  | enter hregister =>
    have henters := Directory.register_enters hregister
    exact h.redirect (henters.listed h.listed) (Nat.le_of_eq henters.stores.symm)
      fun c _ hc => (henters.store c).trans hc
  | hold r => exact h.redirect (h.listed.hold r) (Nat.le_refl _) fun _ _ => id
  | release r => exact h.redirect (h.listed.release r) (Nat.le_refl _) fun _ _ => id
  | openStore settings journal =>
    -- The number of a store that is opened is larger than all others.
    refine ⟨h.listed.openRegistry, ?_, ?_, ?_⟩
    · rw [List.map_append]
      refine List.nodup_append.2 ⟨h.refs, List.nodup_singleton _, ?_⟩
      intro ref href ref' hnew hsame
      obtain ⟨s, hs, rfl⟩ := List.mem_map.1 href
      obtain rfl := List.mem_singleton.1 hnew
      have hfresh := h.fresh s hs
      rw [hsame] at hfresh
      exact Nat.lt_irrefl _ hfresh
    · intro s hs
      rcases List.mem_append.1 hs with hbefore | hnew
      · exact Nat.lt_succ_of_lt (h.fresh s hbefore)
      · obtain rfl := List.mem_singleton.1 hnew
        exact Nat.lt_succ_self _
    · intro s hs
      rcases List.mem_append.1 hs with hbefore | hnew
      · exact h.owned s hbefore
      · obtain rfl := List.mem_singleton.1 hnew
        exact fun c hc => absurd hc List.not_mem_nil
  | @closeStore i s hs =>
    obtain ⟨hlisted, hclasses, hstores⟩ := close_keeps s F.directory h.listed
    have hsub := List.eraseIdx_sublist F.stores i
    refine ⟨hlisted, h.refs.sublist (hsub.map Store.ref), ?_, ?_⟩
    · intro t ht
      rw [hstores]
      exact h.fresh t (hsub.subset ht)
    · intro t ht c hc
      rw [Directory.entry, hclasses]
      exact h.owned t (hsub.subset ht) c hc
  | @useStore i s s' hs href hroots hstorables =>
    exact h.replace hs (Enrolment.grows_of_use F.directory href hroots hstorables)
  | register i registration hrun =>
    obtain ⟨s, hs, ⟨err, -, rfl⟩ | ⟨e, -, rfl, hgrows, -⟩⟩ := register_cases h hrun
    · exact h
    · exact h.replace hs hgrows

theorem Reached.sound (h : F.Reached) : F.Sound := by
  induction h with
  | start => exact .start
  | step _ hstep ih => exact ih.step hstep

/-! ### What is kept from one state to a later one -/

/-- The stores of a later state are new, or have come from stores of the earlier one, with all that was
registered with them. -/
structure Precedes (F F' : Federation) : Prop where
  stores : F.directory.stores ≤ F'.directory.stores
  classes : F.directory.Extends F'.directory
  origin : ∀ s' ∈ F'.stores, F.directory.stores ≤ s'.ref.serial ∨
    ∃ s ∈ F.stores, s'.ref = s.ref ∧ (∀ r ∈ s.roots, r ∈ s'.roots) ∧
      ∀ name c, Fields.get? name s.storables = some c → Fields.get? name s'.storables = some c

theorem Precedes.refl (F : Federation) : Precedes F F where
  stores := Nat.le_refl _
  classes := .refl _
  origin s hs := .inr ⟨s, hs, rfl, fun _ => id, fun _ _ => id⟩

theorem Precedes.trans {F'' : Federation} (h : Precedes F F') (h' : Precedes F' F'') :
    Precedes F F'' where
  stores := Nat.le_trans h.stores h'.stores
  classes := h.classes.trans h'.classes
  origin s'' hs'' := by
    rcases h'.origin s'' hs'' with hnew | ⟨s', hs', href', hroots', hstorables'⟩
    · exact .inl (Nat.le_trans h.stores hnew)
    · rcases h.origin s' hs' with hnew | ⟨s, hs, href, hroots, hstorables⟩
      · exact .inl (by rwa [href'])
      · exact .inr ⟨s, hs, href'.trans href, fun r => hroots' r ∘ hroots r,
          fun name c => hstorables' name c ∘ hstorables name c⟩

theorem precedes_redirect {d : Directory} (hclasses : F.directory.Extends d)
    (hstores : F.directory.stores ≤ d.stores) : Precedes F { F with directory := d } where
  stores := hstores
  classes := hclasses
  origin s hs := .inr ⟨s, hs, rfl, fun _ => id, fun _ _ => id⟩

theorem precedes_replace {e : Enrolment} (hs : F.stores[i]? = some s)
    (hgrows : Grows ⟨F.directory, s⟩ e) :
    Precedes F { directory := e.directory, stores := F.stores.set i e.store } where
  stores := Nat.le_of_eq hgrows.stores.symm
  classes := hgrows.classes
  origin t ht := by
    rcases List.mem_or_eq_of_mem_set ht with hbefore | rfl
    · exact .inr ⟨t, hbefore, rfl, fun _ => id, fun _ _ => id⟩
    · exact .inr ⟨s, List.mem_of_getElem? hs, hgrows.ref, hgrows.roots, hgrows.storables⟩

theorem Step.precedes (hstep : Step F F') (h : F.Sound) : Precedes F F' := by
  cases hstep with
  | declare name definition =>
    exact precedes_redirect (Directory.extends_declare ..) (Nat.le_refl _)
  | fork c => exact precedes_redirect (Directory.extends_forkClass ..) (Nat.le_refl _)
  | openRegistry => exact precedes_redirect ⟨Nat.le_refl _, fun _ _ => rfl⟩ (Nat.le_refl _)
  | enter hregister =>
    have henters := Directory.register_enters hregister
    exact precedes_redirect henters.extends_ (Nat.le_of_eq henters.stores.symm)
  | hold r => exact precedes_redirect ⟨Nat.le_refl _, fun _ _ => rfl⟩ (Nat.le_refl _)
  | release r => exact precedes_redirect ⟨Nat.le_refl _, fun _ _ => rfl⟩ (Nat.le_refl _)
  | openStore settings journal =>
    refine ⟨Nat.le_succ _, ⟨Nat.le_refl _, fun _ _ => rfl⟩, fun s hs => ?_⟩
    rcases List.mem_append.1 hs with hbefore | hnew
    · exact .inr ⟨s, hbefore, rfl, fun _ => id, fun _ _ => id⟩
    · obtain rfl := List.mem_singleton.1 hnew
      exact .inl (Nat.le_refl _)
  | @closeStore i s hs =>
    obtain ⟨-, hclasses, hstores⟩ := close_keeps s F.directory h.listed
    refine ⟨Nat.le_of_eq hstores.symm, ?_, fun t ht => ?_⟩
    · refine ⟨Nat.le_of_eq (congrArg Array.size hclasses).symm, fun c _ => ?_⟩
      simp only [Directory.definition, Directory.entry, hclasses]
    · exact .inr ⟨t, List.mem_of_mem_eraseIdx ht, rfl, fun _ => id, fun _ _ => id⟩
  | @useStore i s s' hs href hroots hstorables =>
    exact precedes_replace hs (Enrolment.grows_of_use F.directory href hroots hstorables)
  | register i registration hrun =>
    obtain ⟨s, hs, ⟨err, -, rfl⟩ | ⟨e, -, rfl, hgrows, -⟩⟩ := register_cases h hrun
    · exact .refl _
    · exact precedes_replace hs hgrows

/-- Whatever happens, what holds at all times still holds, and what was registered stays so. -/
theorem Sound.later (h : F.Sound) (hsteps : Relation.ReflTransGen Step F F') :
    F'.Sound ∧ Precedes F F' := by
  induction hsteps with
  | refl => exact ⟨h, .refl F⟩
  | tail _ hstep ih => exact ⟨ih.1.step hstep, ih.2.trans (hstep.precedes ih.1)⟩

/-- A registration that has been made with a store is made for good. -/
theorem Precedes.made (hprecedes : Precedes F F') (h : F.Sound) (hs : s ∈ F.stores)
    (hs' : s' ∈ F'.stores) (href : s'.ref = s.ref) (hmade : registration.Made F.directory s) :
    registration.Made F'.directory s' := by
  rcases hprecedes.origin s' hs' with hnew | ⟨t, ht, hreft, hroots, hstorables⟩
  · rw [href] at hnew
    exact absurd (h.fresh s hs) (Nat.not_lt.2 hnew)
  · obtain rfl := h.eq_of_ref hs ht (href.symm.trans hreft)
    exact hmade.grow hprecedes.classes hroots hstorables

theorem register_of_made (hs : F.stores[i]? = some s) (hmade : registration.Made F.directory s) :
    F.register i registration = some (.ok (), F) := by
  obtain ⟨hi, hget⟩ := List.getElem?_eq_some_iff.1 hs
  rw [register, hs, Option.map_some, Registration.run_of_made hmade, ← hget]
  simp only [List.set_getElem_self]

/-- A registration that fails changes nothing. One that was made changes nothing when it is made again
with the same store, however much later. No class is a storable of two stores. -/
theorem register_all_or_nothing (h : F.Reached) :
    (∀ i registration result F', F.register i registration = some (result, F') →
      (∀ err, result = .error err → F' = F) ∧
        (result = .ok () → ∀ later, Relation.ReflTransGen Step F' later → ∀ j s s',
          F'.stores[i]? = some s → later.stores[j]? = some s' → s'.ref = s.ref →
            later.register j registration = some (.ok (), later))) ∧
      ∀ (i j : Nat) (s t : Store), i ≠ j → F.stores[i]? = some s → F.stores[j]? = some t →
        ∀ c ∈ Fields.values s.storables, c ∉ Fields.values t.storables := by
  have hsound := h.sound
  refine ⟨fun i registration result F' hrun => ?_, fun i j s t hij hs ht c hc hc' => ?_⟩
  · obtain ⟨s, hs, hcases⟩ := register_cases hsound hrun
    refine ⟨fun err herror => ?_, fun hok later hlater j s₁ s₂ hs₁ hs₂ href => ?_⟩
    · rcases hcases with ⟨-, -, hsame⟩ | ⟨e, hmade, -⟩
      · exact hsame
      · cases herror.symm.trans hmade
    · rcases hcases with ⟨err, herror, -⟩ | ⟨e, -, rfl, hgrows, hmade⟩
      · cases hok.symm.trans herror
      -- Nothing that comes later takes the registration back, so it is still made when it is repeated.
      · have hnow := hsound.replace hs hgrows
        obtain ⟨hi, -⟩ := List.getElem?_eq_some_iff.1 hs
        rw [List.getElem?_set_self hi] at hs₁
        cases hs₁
        have hprecedes := (hnow.later hlater).2
        have hstill := hprecedes.made hnow (List.mem_set hi e.store)
          (List.mem_of_getElem? hs₂) href hmade
        exact register_of_made hs₂ hstill
  -- A class belongs to one store, and both would own it.
  · have howned := hsound.owned s (List.mem_of_getElem? hs) c hc
    have howned' := hsound.owned t (List.mem_of_getElem? ht) c hc'
    exact hsound.ref_ne hij hs ht (Option.some.inj (howned.symm.trans howned'))

/-! ### An example: films and critics -/

def film : ClassRef := .declared 0 "Film"

def critic : ClassRef := .declared 1 "Critic"

/-- Things that are told apart by their names. -/
def named : Definition where
  attributes := [("name", ⟨"name", .primary, .scalar .string {}, none⟩)]
  indexes := []
  embedded := false
  storable := true

/-- Two stores, the first of which keeps films, and a registry of critics and films. -/
def filmStores : Federation where
  directory := {
    classes := #[{ definition := named, registry := some ⟨0⟩, store := some ⟨0⟩ },
      { definition := named, registry := some ⟨2⟩ }]
    registries := #[{ members := [("Film", film)] }, {},
      { members := [("Critic", critic), ("Film", film)] }]
    stores := 2 }
  stores := [{ ref := ⟨0⟩, registry := ⟨0⟩, storables := [("Film", film)] },
    { ref := ⟨1⟩, registry := ⟨1⟩ }]

theorem filmStores_reached : filmStores.Reached := by
  have hstores : Reached _ := (Reached.start.step (.openStore {} none)).step (.openStore {} none)
  have hclasses : Reached _ := (hstores.step (.declare "Film" named)).step (.declare "Critic" named)
  have hkept : Reached _ := hclasses.step (.register 0 (.storable film) rfl)
  have hregistry : Reached _ := hkept.step .openRegistry
  exact (hregistry.step (.enter (r := ⟨2⟩) (c := critic) rfl)).step
    (.enter (r := ⟨2⟩) (c := film) rfl)

/-- The second store cannot keep the films of the first, and keeps the critics once. -/
theorem register_all_or_nothing_films :
    filmStores.register 1 (.root ⟨2⟩) =
        some (.error (.registration (.inOtherStore "Film")), filmStores) ∧
      (∃ kept, filmStores.register 1 (.storable critic) = some (.ok (), kept) ∧
        kept.register 1 (.storable critic) = some (.ok (), kept)) ∧
      film ∉ Fields.values ([] : Fields ClassRef) := by
  obtain ⟨hruns, hexclusive⟩ := register_all_or_nothing filmStores_reached
  obtain ⟨F, hfails⟩ : ∃ F, filmStores.register 1 (.root ⟨2⟩) =
      some (.error (.registration (.inOtherStore "Film")), F) := ⟨_, rfl⟩
  obtain ⟨kept, hkept, hstore⟩ : ∃ kept, filmStores.register 1 (.storable critic) =
      some (.ok (), kept) ∧ kept.stores[1]?.isSome = true := ⟨_, rfl, rfl⟩
  obtain ⟨s, hs⟩ := Option.isSome_iff_exists.1 hstore
  refine ⟨?_, ⟨kept, hkept, ?_⟩, ?_⟩
  · rw [hfails, (hruns 1 _ _ F hfails).1 _ rfl]
  · exact (hruns 1 _ _ kept hkept).2 rfl kept .refl 1 s s hs hs rfl
  · exact hexclusive 0 1 _ _ Nat.zero_ne_one rfl rfl film (List.mem_singleton.2 rfl)

end Federation

end TypedRecords
