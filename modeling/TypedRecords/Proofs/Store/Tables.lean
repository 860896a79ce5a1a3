import TypedRecords.Proofs.Federation
import TypedRecords.Proofs.Tree.Decode

/-! # The two tables of a store

A store lists its storables by name, and resolves the names in trees through a registry of its own.
However registrations follow each other, the registry resolves the name of every storable, and to the
storable itself exactly if it resolves it to a class that is storable at all: a class that is not, and
was registered under the name before, stays in the way.
-/

namespace TypedRecords

/-! ### Registries -/

namespace Directory

variable {d d' : Directory} {c : ClassRef} {r : RegistryRef}

theorem size_register (h : d.register r c = .ok d') : d'.registries.size = d.registries.size := by
  unfold Directory.register at h
  split at h
  · split at h
    · cases h
      rfl
    · cases h
  · dsimp only at h
    split at h <;> cases h <;> simp [setRegistry, setEntry]

/-- A class that has been entered in a registry is found there. -/
theorem find?_register_self (hr : r.serial < d.registries.size) (h : d.register r c = .ok d') :
    d'.find? r c.name = some c := by
  have hregistry : d.registries[r.serial]? = some d.registries[r.serial] :=
    Array.getElem?_eq_getElem hr
  have hentered : (d.setRegistry r fun registry =>
      { registry with members := Fields.insert c.name c registry.members }).find? r c.name =
        some c := by
    simp only [Directory.find?, members, registry?, setRegistry, Array.getElem?_modify, if_true,
      hregistry, Option.map_some]
    exact Fields.get?_insert_self ..
  unfold Directory.register at h
  split at h
  · next other hother =>
    split at h
    · next hsame =>
      cases h
      rw [hother, hsame]
    · cases h
  · dsimp only at h
    split at h <;> cases h <;> exact hentered

theorem find?_hold (d : Directory) (r r' : RegistryRef) (name : String) :
    (d.hold r).find? r' name = d.find? r' name := by
  simp only [Directory.find?, members, registry?, hold, setRegistry, Array.getElem?_modify]
  by_cases hr : r.serial = r'.serial
  · rw [if_pos hr]
    cases d.registries[r'.serial]? <;> rfl
  · rw [if_neg hr]

end Directory

namespace Store

open Stateful (bind_of_ok)

variable {d d' : Directory} {s s' : Store} {c : ClassRef} {e e' : Enrolment} {name : String}
  {r : RegistryRef}

/-! ### Agreement of the tables -/

/-- What the tables of a store say about one name. -/
structure AgreesAt (d : Directory) (s : Store) (name : String) : Prop where
  storable : ∀ c, Fields.get? name s.storables = some c →
    c.name = name ∧ (d.definition c).storable = true
  resolved : ∀ c, Fields.get? name s.storables = some c →
    ∃ other, d.find? s.registry name = some other
  kept : ∀ other, d.find? s.registry name = some other → (d.definition other).storable = true →
    Fields.get? name s.storables = some other

/-- Tables that say the same of a name and the classes behind it agree alike. -/
theorem AgreesAt.congr (h : AgreesAt d s name)
    (hfind : d'.find? s'.registry name = d.find? s.registry name)
    (hstorables : Fields.get? name s'.storables = Fields.get? name s.storables)
    (hdefinition : ∀ c, Fields.get? name s.storables = some c ∨ d.find? s.registry name = some c →
      d'.definition c = d.definition c) : AgreesAt d' s' name where
  storable c hc := by
    rw [hstorables] at hc
    rw [hdefinition c (.inl hc)]
    exact h.storable c hc
  resolved c hc := by
    rw [hstorables] at hc
    rw [hfind]
    exact h.resolved c hc
  kept other hother hstorable := by
    rw [hfind] at hother
    rw [hdefinition other (.inr hother)] at hstorable
    rw [hstorables]
    exact h.kept other hother hstorable

/-- The registry resolves a name to a class that can be a storable only as the storable of the name. -/
theorem agreesAt_of_find? {other : ClassRef} (hother : d.find? s.registry name = some other)
    (hkept : (d.definition other).storable = true → Fields.get? name s.storables = some other)
    (hstorable : ∀ c, Fields.get? name s.storables = some c →
      c.name = name ∧ (d.definition c).storable = true) : AgreesAt d s name where
  storable := hstorable
  resolved _ _ := ⟨other, hother⟩
  kept x hx hxstorable := by
    obtain rfl := Option.some.inj (hother.symm.trans hx)
    exact hkept hxstorable

/-- The tables of a store agree: its storables are named in its registry, and the storable classes of
its registry are its storables. -/
structure Agrees (e : Enrolment) : Prop where
  listed : e.directory.Listed
  opened : e.store.registry.serial < e.directory.registries.size
  agreesAt : ∀ name, AgreesAt e.directory e.store name

/-! ### One class -/

theorem enter_eq_ok (h : enter c e = (.ok (), e')) :
    ∃ d, e.directory.register e.store.registry c = .ok d ∧ e' = { e with directory := d } := by
  obtain ⟨_, _, hget, h⟩ := Stateful.bind_eq_ok h
  cases hget
  obtain ⟨d, e₁, hregister, hset⟩ := Stateful.bind_eq_ok h
  cases hrun : e.directory.register e.store.registry c with
  | error err =>
    rw [hrun] at hregister
    cases hregister
  | ok d' =>
    rw [hrun] at hregister
    cases hregister
    cases hset
    exact ⟨d, rfl, rfl⟩

/-- A class that becomes a storable is entered in the registry, unless somebody has its name there. -/
theorem registerStorable_eq_ok (h : registerStorable c e = (.ok (), e')) :
    Listed e.directory e.store c ∧ e' = e ∨
      Free e.directory e.store c ∧
        ((∃ other, e.directory.find? e.store.registry c.name = some other) ∧
            e' = claim e.directory c e.store ∨
          ∃ d, e.directory.register e.store.registry c = .ok d ∧ e' = claim d c e.store) := by
  cases hcheck : checkStorable e.directory e.store c with
  | error err => cases (registerStorable_of_error hcheck).symm.trans h
  | ok known =>
    have hcases := checkStorable_eq_ok hcheck
    cases known with
    | true => exact .inl ⟨hcases, by cases (registerStorable_of_listed hcases).symm.trans h; rfl⟩
    | false =>
      refine .inr ⟨hcases, ?_⟩
      have hstart := bind_of_ok (f := fun known => if known = true then pure () else do
          if (e.directory.find? e.store.registry c.name).isNone then enter c
          modify fun e => claim e.directory c e.store)
        (ofExcept_of_ok hcheck e)
      have hrun := hstart.symm.trans h
      cases hfound : e.directory.find? e.store.registry c.name with
      | some other =>
        rw [hfound] at hrun
        cases hrun
        exact .inl ⟨⟨other, rfl⟩, rfl⟩
      | none =>
        rw [hfound] at hrun
        obtain ⟨_, e₁, henter, hclaim⟩ := Stateful.bind_eq_ok hrun
        obtain ⟨d, hregister, rfl⟩ := enter_eq_ok henter
        cases hclaim
        exact .inr ⟨d, hregister, rfl⟩

/-- A class becomes a storable under its name. -/
theorem Agrees.claim (hlisted : d.Listed) (hopened : s.registry.serial < d.registries.size)
    (hothers : ∀ name, name ≠ c.name → AgreesAt d s name) (hfree : Free d s c) {other : ClassRef}
    (hother : d.find? s.registry c.name = some other)
    (hkept : (d.definition other).storable = true → other = c) : Agrees (claim d c s) where
  listed := hlisted
  opened := hopened
  agreesAt name := by
    by_cases hname : name = c.name
    · subst hname
      have hself : Fields.get? c.name (Store.claim d c s).store.storables = some c :=
        Fields.get?_insert_self ..
      refine agreesAt_of_find? hother (fun hstorable => ?_) fun x hx => ?_
      · rw [definition_claim] at hstorable
        rw [hself, hkept hstorable]
      · obtain rfl := Option.some.inj (hself.symm.trans hx)
        exact ⟨rfl, by rw [definition_claim, hfree.storable]⟩
    · exact (hothers name hname).congr rfl (Fields.get?_insert_of_ne hname _ _)
        fun x _ => definition_claim d c s x

/-- What has been entered in the registry speaks of no other name. -/
theorem Agrees.enters (h : Agrees e) (hd : e.directory.Enters c d) (hname : name ≠ c.name) :
    AgreesAt d e.store name :=
  (h.agreesAt name).congr (hd.find? _ _ hname) rfl fun x _ => hd.definition x

theorem Agrees.registerStorable (h : Agrees e) (hrun : registerStorable c e = (.ok (), e')) :
    Agrees e' := by
  rcases registerStorable_eq_ok hrun with
    ⟨-, rfl⟩ | ⟨hfree, ⟨⟨other, hother⟩, rfl⟩ | ⟨d, hd, rfl⟩⟩
  · exact h
  -- Were the class under the name storable, it would be a storable of that name already.
  · refine .claim h.listed h.opened (fun name _ => h.agreesAt name) hfree hother fun hstorable => ?_
    cases hfree.unlisted.symm.trans ((h.agreesAt _).kept other hother hstorable)
  · have henters := Directory.register_enters hd
    refine .claim (henters.listed h.listed) ?_ (fun name => h.enters henters)
      (hfree.enters henters) (Directory.find?_register_self h.opened hd) fun _ => rfl
    rw [Directory.size_register hd]
    exact h.opened

/-- A class that is entered and found under its name leaves the tables in agreement, as far as what is
listed there as a storable allows for it. -/
theorem Agrees.entered (h : Agrees e) (hd : e.directory.register e.store.registry c = .ok d)
    (hkept : (d.definition c).storable = true → Fields.get? c.name e.store.storables = some c)
    (hnamed : ∀ x, Fields.get? c.name e.store.storables = some x →
      x.name = c.name ∧ (d.definition x).storable = true) : Agrees ⟨d, e.store⟩ where
  listed := (Directory.register_enters hd).listed h.listed
  opened := (Directory.size_register hd).symm ▸ h.opened
  agreesAt name := by
    by_cases hname : name = c.name
    · exact hname ▸ agreesAt_of_find? (Directory.find?_register_self h.opened hd) hkept hnamed
    · exact h.enters (Directory.register_enters hd) hname

/-- A class of a registry is entered, and becomes a storable if it can be one. -/
theorem Agrees.enlist (h : Agrees e) {storable : Bool}
    (hstorable : storable = (e.directory.definition c).storable)
    (hrun : (do enter c; if storable then Store.registerStorable c else pure ()) e = (.ok (), e')) :
    Agrees e' ∧ ∀ other, e'.directory.definition other = e.directory.definition other := by
  obtain ⟨_, e₁, henter, hrest⟩ := Stateful.bind_eq_ok hrun
  obtain ⟨d, hregister, rfl⟩ := enter_eq_ok henter
  have henters := Directory.register_enters hregister
  cases hcase : storable with
  | false =>
    rw [hcase] at hrest hstorable
    cases hrest
    refine ⟨h.entered hregister (fun hkept => ?_) fun x hx => ?_, henters.definition⟩
    · rw [henters.definition, ← hstorable] at hkept
      cases hkept
    · rw [henters.definition]
      exact (h.agreesAt _).storable x hx
  | true =>
    rw [hcase] at hrest
    rcases registerStorable_eq_ok hrest with ⟨hkept, rfl⟩ | ⟨hfree, hclaim⟩
    · refine ⟨h.entered hregister (fun _ => hkept.listed) fun x hx => ?_, henters.definition⟩
      obtain rfl := Option.some.inj (hkept.listed.symm.trans hx)
      exact ⟨rfl, hkept.storable⟩
    · have hfound := Directory.find?_register_self h.opened hregister
      have hclaimed : e' = Store.claim d c e.store := by
        rcases hclaim with ⟨-, hsame⟩ | ⟨d', hagain, hsame⟩
        · exact hsame
        · have hagain' : d.register e.store.registry c = .ok d := by
            simp only [Directory.register, hfound, if_true]
            rfl
          cases hagain'.symm.trans hagain
          exact hsame
      rw [hclaimed]
      refine ⟨.claim (henters.listed h.listed) ?_ (fun name => h.enters henters) hfree hfound
        fun _ => rfl, fun other => (definition_claim d c e.store other).trans (henters.definition other)⟩
      exact (Directory.size_register hregister).symm ▸ h.opened

/-! ### Registries -/

theorem Agrees.enlistAll {classes : List ClassRef} {d₀ : Directory} (h : Agrees e)
    (hdefinition : ∀ c, d₀.definition c = e.directory.definition c)
    (hrun : (classes.forM fun c => do
      enter c
      if (d₀.definition c).storable then Store.registerStorable c) e = (.ok (), e')) :
    Agrees e' := by
  induction classes generalizing e with
  | nil =>
    cases hrun
    exact h
  | cons first rest ih =>
    obtain ⟨_, e₁, hfirst, hrest⟩ := Stateful.bind_eq_ok hrun
    obtain ⟨h₁, hdefinition₁⟩ := h.enlist (congrArg Definition.storable (hdefinition first)) hfirst
    exact ih h₁ (fun c => (hdefinition c).trans (hdefinition₁ c).symm) hrest

theorem Agrees.keepRoot (h : Agrees e) (r : RegistryRef) : Agrees (keepRoot r e) where
  listed := h.listed.hold r
  opened := by simpa [Store.keepRoot, Directory.hold, Directory.setRegistry] using h.opened
  agreesAt name := (h.agreesAt name).congr (Directory.find?_hold _ r _ name) rfl fun _ _ => rfl

theorem Agrees.registerRoot (h : Agrees e) (hrun : registerRoot r e = (.ok (), e')) : Agrees e' := by
  by_cases hroot : r ∈ e.store.roots
  · cases (registerRoot_of_mem hroot).symm.trans hrun
    exact h
  · obtain ⟨_, _, hget, hrun⟩ := Stateful.bind_eq_ok hrun
    cases hget
    have hcontains : ¬e.store.roots.contains r = true := by simpa using hroot
    rw [if_neg hcontains] at hrun
    obtain ⟨_, e₁, hchecks, hrun⟩ := Stateful.bind_eq_ok hrun
    obtain ⟨_, e₂, henlists, hkeep⟩ := Stateful.bind_eq_ok hrun
    cases hkeep
    have hsame : e₁ = e := by
      rcases checkAll_runs (checkRoot e.directory e.store)
          (Fields.values (e.directory.members r)) e with ⟨err, herror⟩ | ⟨hok, -⟩
      · cases herror.symm.trans hchecks
      · cases hok.symm.trans hchecks
        rfl
    subst hsame
    exact (h.enlistAll (fun _ => rfl) henlists).keepRoot r

end Store

namespace Enrolment

open Store (Agrees)

/-- What can happen to a store and its directory: registrations with the store, whatever comes of them,
and changes that leave its registry and the classes that it knows as they are. -/
inductive Step (e : Enrolment) : Enrolment → Prop
  | register (registration : Registration) : Step e (registration.run e).2
  | elsewhere {d : Directory} (listed : d.Listed)
    (registries : e.directory.registries.size ≤ d.registries.size)
    (members : ∀ name, d.find? e.store.registry name = e.directory.find? e.store.registry name)
    (definitions : ∀ name c, Fields.get? name e.store.storables = some c ∨
      e.directory.find? e.store.registry name = some c → d.definition c = e.directory.definition c) :
    Step e { e with directory := d }

variable {e e' : Enrolment}

theorem Step.agrees (hstep : Step e e') (h : Agrees e) : Agrees e' := by
  cases hstep with
  | register registration =>
    rcases hrun : registration.run e with ⟨result, e₁⟩
    rcases registration.run_cases h.listed with ⟨err, herror⟩ | ⟨e₂, hok, -⟩
    · cases herror.symm.trans hrun
      exact h
    · cases hok.symm.trans hrun
      cases registration with
      | root r => exact h.registerRoot hok
      | storable c => exact h.registerStorable hok
  | elsewhere listed registries members definitions =>
    exact ⟨listed, Nat.lt_of_lt_of_le h.opened registries,
      fun name => (h.agreesAt name).congr (members name) rfl (definitions name)⟩

/-- A store that is opened, and its directory. -/
def opened (d : Directory) (settings : Settings) (journal : Option (List JournalEntry)) : Enrolment where
  directory := (Store.open_ d settings journal).2
  store := (Store.open_ d settings journal).1

theorem agrees_opened {d : Directory} (h : d.Listed) (settings : Settings)
    (journal : Option (List JournalEntry)) : Agrees (opened d settings journal) where
  listed := h.openRegistry
  opened := by simp [opened, Store.open_, Directory.openRegistry]
  agreesAt name := by
    refine ⟨nofun, nofun, fun other hother => ?_⟩
    simp [opened, Store.open_, Directory.openRegistry, Directory.find?, Directory.members,
      Directory.registry?] at hother

/-- Whatever happens to a store, its tables agree. -/
theorem agrees_of_steps {d : Directory} (h : d.Listed) {settings : Settings}
    {journal : Option (List JournalEntry)}
    (hsteps : Relation.ReflTransGen Step (opened d settings journal) e) : Agrees e := by
  induction hsteps with
  | refl => exact agrees_opened h settings journal
  | tail _ hstep ih => exact hstep.agrees ih

/-- The registry of a store resolves the name of each storable, to the storable itself exactly if it
resolves it to a storable class. References to the name are decoded to records of that class. -/
theorem find?_eq_storable_iff {d : Directory} (h : d.Listed) {settings : Settings}
    {journal : Option (List JournalEntry)}
    (hsteps : Relation.ReflTransGen Step (opened d settings journal) e) (name : String)
    (c : ClassRef) (hc : Fields.get? name e.store.storables = some c) :
    c.name = name ∧ ∃ other, e.directory.find? e.store.registry name = some other ∧
      (other = c ↔ (e.directory.definition other).storable = true) ∧
      ∀ fields source g v g', Fields.get? Tree.classTag fields = some (.string name) →
        Tree.classNamed? name = none →
        Record.decode e.directory e.store.registry source (.object fields) g = (.ok v, g') →
          ∃ r : RecordRef, v = .record r ∧ r.cls = other := by
  have hagrees := (agrees_of_steps h hsteps).agreesAt name
  obtain ⟨hname, hstorable⟩ := hagrees.storable c hc
  obtain ⟨other, hother⟩ := hagrees.resolved c hc
  refine ⟨hname, other, hother, ⟨?_, ?_⟩, fun fields source g v g' htag hclass hdecode => ?_⟩
  · rintro rfl
    exact hstorable
  · intro hresolved
    exact Option.some.inj ((hagrees.kept other hother hresolved).symm.trans hc)
  · rcases Record.decode_tagged_eq_ok htag hdecode with
      ⟨_, text, _, htext, hnamed, -⟩ | ⟨found, text, htext, -, hfound, rfl, -⟩
    · cases htext
      cases hclass.symm.trans hnamed
    · cases htext
      obtain rfl := Option.some.inj (hother.symm.trans hfound)
      exact ⟨_, rfl, rfl⟩

/-! ### An example: two classes of one name -/

def visitor : ClassRef := .declared 0 "Person"

def member : ClassRef := .declared 1 "Person"

/-- A registry with a class of persons that cannot be stored, and a class of persons that can. -/
def homonyms : Directory where
  classes := #[{ definition := { Federation.named with storable := false } },
    { definition := Federation.named }]
  registries := #[{ members := [("Person", visitor)] }]

/-- The registry is registered, then the storable class. -/
def mixed : Enrolment :=
  ((Registration.storable member).run ((Registration.root ⟨0⟩).run (opened homonyms {} none)).2).2

theorem listed_homonyms : homonyms.Listed := by
  intro registry hregistry
  obtain rfl : registry = { members := [("Person", visitor)] } := by simpa [homonyms] using hregistry
  exact ⟨List.nodup_singleton _, List.forall_mem_singleton.2 rfl⟩

theorem mixed_steps : Relation.ReflTransGen Step (opened homonyms {} none) mixed :=
  (Relation.ReflTransGen.single (.register (.root ⟨0⟩))).tail (.register (.storable member))

theorem find?_eq_storable_iff_mixed : Fields.get? "Person" mixed.store.storables = some member ∧
    member.name = "Person" ∧
      ∃ other, mixed.directory.find? mixed.store.registry "Person" = some other ∧
        (other = member ↔ (mixed.directory.definition other).storable = true) ∧
        ∀ fields source g v g', Fields.get? Tree.classTag fields = some (.string "Person") →
          Tree.classNamed? "Person" = none →
          Record.decode mixed.directory mixed.store.registry source (.object fields) g =
              (.ok v, g') →
            ∃ r : RecordRef, v = .record r ∧ r.cls = other := by
  have hmember : Fields.get? "Person" mixed.store.storables = some member := rfl
  exact ⟨hmember, find?_eq_storable_iff listed_homonyms mixed_steps "Person" member hmember⟩

/-- The store keeps members, and reads references to persons as visitors. -/
theorem exists_unresolved_storable : ¬∀ e, Relation.ReflTransGen Step (opened homonyms {} none) e →
    ∀ name c, Fields.get? name e.store.storables = some c →
      e.directory.find? e.store.registry name = some c := by
  intro hall
  have hmember : mixed.directory.find? mixed.store.registry "Person" = some member :=
    hall mixed mixed_steps "Person" member rfl
  have hvisitor : mixed.directory.find? mixed.store.registry "Person" = some visitor := rfl
  cases hmember.symm.trans hvisitor

end Enrolment

end TypedRecords
