import TypedRecords.Proofs.Record.Depicted
import TypedRecords.Proofs.Types.Check

/-! # Namesakes

A class is sent by its name alone, and arrives as the class of that name in a registry of the receiver.
So of a value that was sent what arrives is the value with every class replaced by its namesake.
-/

namespace TypedRecords

namespace Directory

variable {d : Directory} {registry : RegistryRef} {c : ClassRef}

/-- A class is the one of its name in a registry. -/
def Registers (d : Directory) (registry : RegistryRef) (c : ClassRef) : Prop :=
  d.find? registry c.name = some c

/-- A registry has a class of the same name. -/
def Names (d : Directory) (registry : RegistryRef) (c : ClassRef) : Prop :=
  ∃ c', d.find? registry c.name = some c'

/-- The class of the same name in a registry, if there is one. -/
def namesake (d : Directory) (registry : RegistryRef) (c : ClassRef) : ClassRef :=
  (d.find? registry c.name).getD c

theorem Registers.names (h : d.Registers registry c) : d.Names registry c := ⟨c, h⟩

theorem Registers.namesake (h : d.Registers registry c) : d.namesake registry c = c := by
  rw [Directory.namesake, h, Option.getD_some]

theorem Names.find? (h : d.Names registry c) :
    d.find? registry c.name = some (d.namesake registry c) := by
  obtain ⟨c', hc'⟩ := h
  rw [namesake, hc', Option.getD_some]

theorem Lawful.name_namesake (hd : d.Lawful) (registry : RegistryRef) (c : ClassRef) :
    (d.namesake registry c).name = c.name := by
  unfold namesake
  cases hfind : d.find? registry c.name with
  | none => rfl
  | some c' => exact (hd.members registry c.name c' hfind).1

theorem Names.registers (hd : d.Lawful) (h : d.Names registry c) :
    d.Registers registry (d.namesake registry c) := by
  rw [Registers, hd.name_namesake]
  exact h.find?

end Directory

namespace Value

/-! ### Values that can be sent -/

/-- The classes in a value are among some, and none of its plain objects carries the tag of a class. -/
inductive Portable (classes : ClassRef → Prop) : Value → Prop
  | leaf {v : Value} (h : v.isLeaf = true) : Portable classes v
  | undefined : Portable classes .undefined
  | record (r : RecordRef) : Portable classes (.record r)
  | classRef {c : ClassRef} (found : classes c) : Portable classes (.classRef c)
  | array {items : List Value} (h : ∀ v ∈ items, Portable classes v) :
    Portable classes (.array items)
  | object {fields : Object} (untagged : Fields.get? Tree.classTag fields = none)
    (h : ∀ entry ∈ fields, Portable classes entry.2) : Portable classes (.object fields)

namespace Portable

variable {classes classes' : ClassRef → Prop} {v : Value}

theorem item {items : List Value} (h : (Value.array items).Portable classes) :
    ∀ v ∈ items, v.Portable classes := by
  cases h with
  | leaf hleaf => cases hleaf
  | array hitems => exact hitems

theorem field {fields : Object} (h : (Value.object fields).Portable classes) :
    ∀ entry ∈ fields, entry.2.Portable classes := by
  cases h with
  | leaf hleaf => cases hleaf
  | object _ hfields => exact hfields

/-- Nor does an object with the same names carry the tag. -/
theorem untagged_of_keys_eq {fields trees : Object} (h : (Value.object fields).Portable classes)
    (names : Fields.keys fields = Fields.keys trees) : Fields.get? Tree.classTag trees = none := by
  cases h with
  | leaf hleaf => cases hleaf
  | object untagged _ =>
    rw [Fields.get?_eq_none_iff] at untagged ⊢
    rwa [← names]

theorem of_classRef {c : ClassRef} (h : (Value.classRef c).Portable classes) : classes c := by
  cases h with
  | leaf hleaf => cases hleaf
  | classRef found => exact found

theorem imp (h : v.Portable classes) (himp : ∀ c, classes c → classes' c) : v.Portable classes' := by
  induction h with
  | leaf hleaf => exact .leaf hleaf
  | undefined => exact .undefined
  | record r => exact .record r
  | classRef found => exact .classRef (himp _ found)
  | array _ ih => exact .array ih
  | object untagged _ ih => exact .object untagged ih

end Portable

/-! ### Values with other classes -/

mutual

/-- A value with other classes in the places of its own. -/
def mapClasses (f : ClassRef → ClassRef) : Value → Value
  | .classRef c => .classRef (f c)
  | .array items => .array (mapClassesOfItems f items)
  | .object fields => .object (mapClassesOfFields f fields)
  | v => v

def mapClassesOfItems (f : ClassRef → ClassRef) : List Value → List Value
  | [] => []
  | v :: rest => mapClasses f v :: mapClassesOfItems f rest

def mapClassesOfFields (f : ClassRef → ClassRef) : List (String × Value) → List (String × Value)
  | [] => []
  | (name, v) :: rest => (name, mapClasses f v) :: mapClassesOfFields f rest

end

variable {f : ClassRef → ClassRef} {v : Value}

@[simp] theorem mapClasses_array (f : ClassRef → ClassRef) (items : List Value) :
    (Value.array items).mapClasses f = .array (items.map (mapClasses f)) := by
  have hitems : mapClassesOfItems f items = items.map (mapClasses f) := by
    induction items with
    | nil => rfl
    | cons v rest ih => rw [mapClassesOfItems, ih, List.map_cons]
  rw [mapClasses, hitems]

@[simp] theorem mapClasses_object (f : ClassRef → ClassRef) (fields : Object) :
    (Value.object fields).mapClasses f =
      .object (fields.map fun entry => (entry.1, mapClasses f entry.2)) := by
  have hfields : mapClassesOfFields f fields =
      fields.map fun entry => (entry.1, mapClasses f entry.2) := by
    induction fields with
    | nil => rfl
    | cons entry rest ih => rw [mapClassesOfFields, ih, List.map_cons]
  rw [mapClasses, hfields]

theorem mapClasses_of_isLeaf (h : v.isLeaf = true) : v.mapClasses f = v := by
  cases v <;> first | rfl | cases h

theorem mapClasses_eq_undefined_iff : v.mapClasses f = .undefined ↔ v = .undefined := by
  cases v <;> simp [mapClasses]

theorem mem_records_mapClasses {r : RecordRef} :
    r ∈ (v.mapClasses f).records ↔ r ∈ v.records := by
  induction v using Value.induction with
  | array items ih =>
    rw [mapClasses_array, mem_records_array, mem_records_array]
    constructor
    · intro h
      obtain ⟨w, hw, hr⟩ := h
      obtain ⟨v, hv, rfl⟩ := List.mem_map.1 hw
      exact ⟨v, hv, (ih v hv).1 hr⟩
    · intro h
      obtain ⟨v, hv, hr⟩ := h
      exact ⟨_, List.mem_map_of_mem hv, (ih v hv).2 hr⟩
  | object fields ih =>
    rw [mapClasses_object, mem_records_object, mem_records_object]
    constructor
    · intro h
      obtain ⟨w, hw, hr⟩ := h
      obtain ⟨entry, hentry, rfl⟩ := List.mem_map.1 hw
      exact ⟨entry, hentry, (ih entry hentry).1 hr⟩
    · intro h
      obtain ⟨entry, hentry, hr⟩ := h
      exact ⟨_, List.mem_map_of_mem hentry, (ih entry hentry).2 hr⟩
  | other v harray hobject =>
    cases v with
    | array items => cases harray
    | object fields => cases hobject
    | _ => rfl

namespace Portable

variable {classes classes' : ClassRef → Prop}

theorem mapClasses (h : v.Portable classes) (hf : ∀ c, classes c → classes' (f c)) :
    (v.mapClasses f).Portable classes' := by
  induction h with
  | leaf hleaf =>
    rw [mapClasses_of_isLeaf hleaf]
    exact .leaf hleaf
  | undefined => exact .undefined
  | record r => exact .record r
  | classRef found => exact .classRef (hf _ found)
  | array _ ih =>
    rw [mapClasses_array]
    exact .array (List.forall_mem_map.2 ih)
  | @object fields untagged _ ih =>
    rw [mapClasses_object]
    refine .object ?_ (List.forall_mem_map.2 ih)
    rw [Fields.get?_eq_none_iff] at untagged ⊢
    simpa [Fields.keys] using untagged

theorem mapClasses_eq_self (h : v.Portable classes) (hf : ∀ c, classes c → f c = c) :
    v.mapClasses f = v := by
  induction h with
  | leaf hleaf => exact mapClasses_of_isLeaf hleaf
  | undefined => rfl
  | record r => rfl
  | classRef found => exact congrArg Value.classRef (hf _ found)
  | array _ ih =>
    rw [mapClasses_array, List.map_congr_left ih]
    exact congrArg Value.array (List.map_id _)
  | object untagged _ ih =>
    have hentry : ∀ entry ∈ _, (entry.1, Value.mapClasses f entry.2) = entry :=
      fun entry hentry => Prod.ext rfl (ih entry hentry)
    rw [mapClasses_object, List.map_congr_left hentry]
    exact congrArg Value.object (List.map_id _)

/-- Types go on to accept a value if they accept the other classes where they accepted its own. -/
theorem check_mapClasses (h : v.Portable classes) {site : Site}
    (hadmits : ∀ c name, classes c → site.admits name c = true → site.admits name (f c) = true)
    {t : ValueType} (hcheck : t.check site v = .ok ()) : t.check site (v.mapClasses f) = .ok () := by
  induction t generalizing v with
  | scalar kind traits =>
    by_cases hkind : kind = .any
    · subst hkind
      rfl
    · by_cases hv : v = .undefined
      · subst hv
        exact hcheck
      · have haccepts : kind.accepts (v.mapClasses f) = kind.accepts v := by
          cases kind <;> cases v <;> rfl
        have hv' : v.mapClasses f ≠ .undefined := fun heq => hv (mapClasses_eq_undefined_iff.1 heq)
        rw [ValueType.check_scalar hkind traits _ hv] at hcheck
        rw [ValueType.check_scalar hkind traits _ hv', haccepts]
        cases haccepted : kind.accepts v with
        | true => rfl
        | false =>
          rw [haccepted] at hcheck
          cases hcheck
  | array item traits ih =>
    cases v with
    | array items =>
      rw [mapClasses_array]
      refine forM_of_ok (List.forall_mem_map.2 fun v hv => ?_)
      exact ih (h.item v hv) (forM_eq_ok hcheck hv)
    | classRef c => cases hcheck
    | _ => exact hcheck
  | reference name toClass traits =>
    cases toClass with
    | true =>
      cases v with
      | classRef c =>
        have hadmitted : site.admits name c = true := by
          by_contra hnot
          rw [ValueType.check, if_neg hnot] at hcheck
          cases hcheck
        exact if_pos (hadmits c name h.of_classRef hadmitted)
      | _ => exact hcheck
    | false =>
      cases v with
      | classRef c => cases hcheck
      | _ => exact hcheck

end Portable

end Value

theorem Tree.ofClass_congr {c c' : ClassRef} (h : c.name = c'.name) : ofClass c = ofClass c' := by
  rw [ofClass, ofClass, h]

theorem Depicts.mapClasses {d : Directory} {g : Graph} {v t : Value} {f : ClassRef → ClassRef}
    (h : Depicts d g v t) (hf : ∀ c, (f c).name = c.name) : Depicts d g (v.mapClasses f) t := by
  induction h with
  | leaf hleaf =>
    rw [Value.mapClasses_of_isLeaf hleaf]
    exact .leaf hleaf
  | undefined => exact .undefined
  | classRef c =>
    rw [← Tree.ofClass_congr (hf c)]
    exact .classRef (f c)
  | array length _ ih =>
    rw [Value.mapClasses_array]
    refine .array (by rwa [List.length_map]) fun i v t hv ht => ?_
    rw [List.getElem?_map] at hv
    obtain ⟨w, hw, rfl⟩ := Option.map_eq_some_iff.1 hv
    exact ih i w t hw ht
  | object names _ ih =>
    rw [Value.mapClasses_object]
    refine .object (by simpa [Fields.keys, Function.comp_def] using names) fun i v t hv ht => ?_
    rw [Fields.values, List.map_map, List.getElem?_map] at hv
    obtain ⟨entry, hentry, rfl⟩ := Option.map_eq_some_iff.1 hv
    exact ih i entry.2 t (by simp [Fields.values, hentry]) ht
  | record names h _ => exact .record names h

/-- A class arrives as its namesake. -/
theorem Record.decode_namesake {d : Directory} (hd : d.Lawful) {registry : RegistryRef} {c : ClassRef}
    (h : d.Names registry c) (source : Source) (g : Graph) :
    decode d registry source (Tree.ofClass c) g = (.ok (.classRef (d.namesake registry c)), g) := by
  rw [← Tree.ofClass_congr (hd.name_namesake registry c)]
  exact decode_classRef rfl (h.registers hd) g

end TypedRecords
