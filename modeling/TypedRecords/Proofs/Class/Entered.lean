import TypedRecords.Proofs.Class.Growing

/-! # Classes that are entered in a registry

Registries list classes under their own names, each name once. Entering a class changes who stands under
its name, and may attach the class to the registry; all else stays as it is.
-/

namespace TypedRecords.Directory

variable {d d' d'' : Directory} {c : ClassRef} {r : RegistryRef}

/-! ### Members -/

/-- Registries list classes under their own names, each name once. -/
def Listed (d : Directory) : Prop :=
  ∀ registry ∈ d.registries, Fields.Distinct registry.members ∧
    ∀ member ∈ registry.members, member.2.name = member.1

/-- The classes of a registry have different names. -/
theorem Listed.names_nodup (h : d.Listed) (r : RegistryRef) :
    ((Fields.values (d.members r)).map ClassRef.name).Nodup := by
  rw [members, registry?]
  cases hregistry : d.registries[r.serial]? with
  | none => exact List.nodup_nil
  | some registry =>
    obtain ⟨hdistinct, hnamed⟩ := h registry (Array.mem_of_getElem? hregistry)
    have hnames : (Fields.values registry.members).map ClassRef.name = Fields.keys registry.members := by
      rw [Fields.values, List.map_map]
      exact List.map_congr_left hnamed
    rw [hnames]
    exact hdistinct

theorem listed_empty : Listed {} := fun _ h => absurd h (Array.not_mem_empty _)

theorem Listed.setRegistry (h : d.Listed) {f : Registry → Registry}
    (hf : ∀ registry ∈ d.registries, Fields.Distinct (f registry).members ∧
      ∀ member ∈ (f registry).members, member.2.name = member.1) (r : RegistryRef) :
    (d.setRegistry r f).Listed := by
  intro registry hregistry
  obtain ⟨i, hi⟩ := Array.mem_iff_getElem?.1 hregistry
  simp only [Directory.setRegistry, Array.getElem?_modify] at hi
  split at hi
  · obtain ⟨before, hbefore, rfl⟩ := Option.map_eq_some_iff.1 hi
    exact hf before (Array.mem_of_getElem? hbefore)
  · exact h registry (Array.mem_of_getElem? hi)

/-- Who holds a registry has nothing to do with what it lists. -/
theorem Listed.recount (h : d.Listed) {f : Registry → Registry}
    (hf : ∀ registry, (f registry).members = registry.members) (r : RegistryRef) :
    (d.setRegistry r f).Listed := by
  refine h.setRegistry (fun registry hregistry => ?_) r
  rw [hf]
  exact h registry hregistry

theorem Listed.hold (h : d.Listed) (r : RegistryRef) : (d.hold r).Listed :=
  h.recount (f := fun registry => { registry with holders := registry.holders + 1 }) (fun _ => rfl) r

theorem Listed.release (h : d.Listed) (r : RegistryRef) : (d.release r).Listed :=
  h.recount (f := fun registry => { registry with holders := registry.holders - 1 }) (fun _ => rfl) r

theorem Listed.openRegistry (h : d.Listed) : d.openRegistry.2.Listed := by
  intro registry hregistry
  rcases Array.mem_push.1 hregistry with hbefore | rfl
  · exact h registry hbefore
  · exact ⟨List.nodup_nil, fun _ hmember => absurd hmember List.not_mem_nil⟩

/-! ### Entries -/

theorem entry_setEntry (d : Directory) (c other : ClassRef) (f : ClassEntry → ClassEntry) :
    (d.setEntry c f).entry other = f (d.entry other) ∧ c.serial = other.serial ∧
        other.serial < d.classes.size ∨
      (d.setEntry c f).entry other = d.entry other ∧
        (c.serial = other.serial → d.classes.size ≤ other.serial) := by
  simp only [entry, setEntry, Array.getElem?_modify]
  by_cases hserial : c.serial = other.serial
  · rw [if_pos hserial]
    cases hentry : d.classes[other.serial]? with
    | none => exact .inr ⟨rfl, fun _ => Array.getElem?_eq_none_iff.1 hentry⟩
    | some e =>
      obtain ⟨hlt, -⟩ := Array.getElem?_eq_some_iff.1 hentry
      exact .inl ⟨rfl, hserial, hlt⟩
  · rw [if_neg hserial]
    exact .inr ⟨rfl, fun h => absurd h hserial⟩

theorem definition_setEntry {f : ClassEntry → ClassEntry}
    (hf : ∀ e, (f e).definition = e.definition) (c other : ClassRef) :
    (d.setEntry c f).definition other = d.definition other := by
  rcases entry_setEntry d c other f with ⟨hentry, -⟩ | ⟨hentry, -⟩
  · rw [definition, hentry, hf, definition]
  · rw [definition, hentry, definition]

theorem store_setEntry {f : ClassEntry → ClassEntry} (hf : ∀ e, (f e).store = e.store)
    (c other : ClassRef) : ((d.setEntry c f).entry other).store = (d.entry other).store := by
  rcases entry_setEntry d c other f with ⟨hentry, -⟩ | ⟨hentry, -⟩
  · rw [hentry, hf]
  · rw [hentry]

/-! ### Entering -/

/-- What entering a class changes at most. -/
structure Enters (d : Directory) (c : ClassRef) (d' : Directory) : Prop where
  find? : ∀ r name, name ≠ c.name → d'.find? r name = d.find? r name
  definition : ∀ other, d'.definition other = d.definition other
  store : ∀ other, (d'.entry other).store = (d.entry other).store
  size : d'.classes.size = d.classes.size
  stores : d'.stores = d.stores
  listed : d.Listed → d'.Listed

theorem Enters.refl (d : Directory) (c : ClassRef) : d.Enters c d :=
  ⟨fun _ _ _ => rfl, fun _ => rfl, fun _ => rfl, rfl, rfl, id⟩

theorem Enters.trans (h : d.Enters c d') (h' : d'.Enters c d'') : d.Enters c d'' where
  find? r name hname := (h'.find? r name hname).trans (h.find? r name hname)
  definition other := (h'.definition other).trans (h.definition other)
  store other := (h'.store other).trans (h.store other)
  size := h'.size.trans h.size
  stores := h'.stores.trans h.stores
  listed := h'.listed ∘ h.listed

theorem enters_list (d : Directory) (r : RegistryRef) (c : ClassRef) :
    d.Enters c (d.setRegistry r fun registry =>
      { registry with members := Fields.insert c.name c registry.members }) where
  find? r' name hname := by
    simp only [Directory.find?, members, registry?, setRegistry, Array.getElem?_modify]
    by_cases hr : r.serial = r'.serial
    · rw [if_pos hr]
      cases d.registries[r'.serial]? with
      | none => rfl
      | some registry => exact Fields.get?_insert_of_ne hname c registry.members
    · rw [if_neg hr]
  definition _ := rfl
  store _ := rfl
  size := rfl
  stores := rfl
  listed h := by
    refine h.setRegistry (fun registry hregistry => ?_) r
    obtain ⟨hdistinct, hnamed⟩ := h registry hregistry
    refine ⟨hdistinct.insert _ _, fun member hmember => ?_⟩
    rcases Fields.mem_insert hmember with hbefore | rfl
    · exact hnamed member hbefore
    · rfl

theorem enters_attach (d : Directory) (r : RegistryRef) (c : ClassRef) :
    d.Enters c (d.setEntry c fun e => { e with registry := some r }) where
  find? _ _ _ := rfl
  definition := definition_setEntry (f := fun e => { e with registry := some r }) (fun _ => rfl) c
  store := store_setEntry (f := fun e => { e with registry := some r }) (fun _ => rfl) c
  size := by simp [setEntry]
  stores := rfl
  listed := id

theorem register_enters (h : d.register r c = .ok d') : d.Enters c d' := by
  unfold Directory.register at h
  split at h
  · split at h
    · cases h
      exact .refl d c
    · cases h
  · dsimp only at h
    split at h
    · cases h
      exact enters_list d r c
    · cases h
      exact (enters_list d r c).trans (enters_attach _ r c)

/-- A class can be entered where nobody else has its name. -/
theorem register_of_free (h : ∀ other, d.find? r c.name = some other → other = c) :
    ∃ d', d.register r c = .ok d' := by
  unfold Directory.register
  split
  · next other hother => exact ⟨d, if_pos (h other hother)⟩
  · dsimp only
    split
    · exact ⟨_, rfl⟩
    · exact ⟨_, rfl⟩

end TypedRecords.Directory
