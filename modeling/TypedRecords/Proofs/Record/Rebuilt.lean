import TypedRecords.Proofs.Record.Namesakes

/-! # Rebuilt graphs

What the tree of a record is decoded to. A peer accepts the tree exactly if every attribute that is set
in the records that were sent holds what its type accepts. Its records are then new ones, a copy for each
way that leads to a record, and they hold what was held before.
-/

namespace TypedRecords

open TypedRecords.Graph (Leaves)

namespace Graph

/-- All that a record reaches is of classes of a registry, and holds classes among some. -/
structure Sendable (d : Directory) (registry : RegistryRef) (classes : ClassRef → Prop) (g : Graph)
    (r : RecordRef) : Prop extends g.Treelike d r where
  found : ∀ q, g.Reaches d r q → d.Registers registry q.cls
  portable : ∀ q, g.Reaches d r q → ∀ entry ∈ g.fieldsOf d q, entry.2.Portable classes

/-- What a record has set is accepted by the types of its attributes. -/
def Fits (d : Directory) (g : Graph) (r : RecordRef) : Prop :=
  ∀ a ∈ d.attributes r.cls, ∀ v, g.value? r a.name = some v →
    a.type.check (d.site r.cls a.name) v = .ok ()

/-- What arrives of what a record has set is accepted by the types of its attributes. -/
def Lands (d : Directory) (registry : RegistryRef) (g : Graph) (r : RecordRef) : Prop :=
  ∀ a ∈ d.attributes r.cls, ∀ v, g.value? r a.name = some v →
    a.type.check (d.site r.cls a.name) (v.mapClasses (d.namesake registry)) = .ok ()

section

variable {d : Directory} {registry : RegistryRef} {classes classes' : ClassRef → Prop} {g : Graph}
  {r r' : RecordRef}

theorem Sendable.nested (h : g.Sendable d registry classes r) (hr' : g.Nests d r r') :
    g.Sendable d registry classes r' where
  toTreelike := h.toTreelike.nested hr'
  found q hq := h.found q (.head hr' hq)
  portable q hq := h.portable q (.head hr' hq)

theorem Sendable.imp (h : g.Sendable d registry classes r) (himp : ∀ c, classes c → classes' c) :
    g.Sendable d registry classes' r where
  toTreelike := h.toTreelike
  found := h.found
  portable q hq entry hentry := (h.portable q hq entry hentry).imp himp

/-- Classes of the registry arrive as they are. -/
theorem Fits.lands (h : g.Fits d r) (hportable : ∀ entry ∈ g.fieldsOf d r,
    entry.2.Portable (d.Registers registry)) : g.Lands d registry r := by
  intro a ha v hv
  rw [(hportable (a.name, v) (mem_fieldsAmong.2 ⟨a, ha, rfl, hv⟩)).mapClasses_eq_self
    fun _ hc => hc.namesake]
  exact h a ha v hv

end

/-! ### Paths -/

/-- One step from a record: the name of an attribute and which of the records that it holds. -/
def step? (d : Directory) (g : Graph) (r : RecordRef) (step : String × Nat) : Option RecordRef :=
  ((d.definition r.cls).attribute? step.1).bind fun a => (g.held r a.name)[step.2]?

/-- Where steps lead from a record. -/
def follow? (d : Directory) (g : Graph) (r : RecordRef) (path : List (String × Nat)) :
    Option RecordRef :=
  path.foldlM (g.step? d) r

/-- A record is like one of another graph: of its class, new or not as that one, and with the same
attributes set, to values that differ in their records at most. -/
structure Alike (R : RecordRef → RecordRef → Prop) (d : Directory) (source : Source) (g g' : Graph)
    (r r' : RecordRef) : Prop where
  made : r'.base? = none
  cls : r'.cls = r.cls
  isNew : g'.isNew r' = g.isNew r
  slots : ∀ a ∈ d.attributes r.cls, Option.Rel
    (fun v (slot : Slot) => slot.source = source ∧ v.Reforked R slot.value)
    (g.value? r a.name) (g'.own? r' a.name).join

/-- A record is the root of a tree that unfolds what another one reaches in another graph: the same paths
lead to records that are alike, and different paths to different records. -/
structure Unfolds (d : Directory) (source : Source) (g : Graph) (r : RecordRef) (g' : Graph)
    (r' : RecordRef) : Prop where
  alike : ∀ path, Option.Rel (Alike (fun _ _ => True) d source g g') (g.follow? d r path)
    (g'.follow? d r' path)
  apart : ∀ path path' q, g'.follow? d r' path = some q → g'.follow? d r' path' = some q →
    path = path'

variable {R : RecordRef → RecordRef → Prop} {d : Directory} {source : Source} {g g' : Graph}
  {r r' : RecordRef}

theorem Alike.value (h : Alike R d source g g' r r') {a : Attribute} (ha : a ∈ d.attributes r.cls)
    {v v' : Value} (hv : g.value? r a.name = some v) (hv' : g'.value? r' a.name = some v') :
    v.Reforked R v' := by
  have hslots := h.slots a ha
  obtain ⟨source', hown⟩ := value?_eq_some_iff.1 hv'
  rw [hv, hown] at hslots
  cases hslots with
  | some hslot => exact hslot.2

theorem Unfolds.root (h : g.Unfolds d source r g' r') :
    Alike (fun _ _ => True) d source g g' r r' := by
  cases h.alike [] with
  | some halike => exact halike

end Graph

namespace Record

open TypedRecords.Graph (Sendable Fits Alike)

variable {d : Directory} {registry : RegistryRef} {source : Source} {g g₁ g₂ g' : Graph}
  {r r' : RecordRef} {v v' t : Value}

/-! ### Decoding trees of records -/

theorem get?_classTag_tagsOf (g : Graph) (r : RecordRef) (trees : Object) :
    Fields.get? Tree.classTag (g.tagsOf r ++ trees) = some (.string r.className) := by
  unfold Graph.tagsOf
  split <;> rfl

theorem isMarkedNew_tagsOf {trees : Object} (h : Tree.newTag ∉ Fields.keys trees) :
    Tree.isMarkedNew (g.tagsOf r ++ trees) = g.isNew r := by
  have hne : Tree.classTag ≠ Tree.newTag := by decide
  unfold Tree.isMarkedNew Graph.tagsOf
  cases g.isNew r with
  | true => simp [Fields.get?, hne]
  | false => simp [Fields.get?, hne, (Fields.get?_eq_none_iff _ _).2 h]

theorem decodeAttributes_tagsOf (trees : Object) :
    decodeAttributes d registry source r' (g.tagsOf r ++ trees) =
      decodeAttributes d registry source r' trees := by
  unfold Graph.tagsOf
  split
  · exact (decodeAttributes_tag (.inl rfl) _ _).trans (decodeAttributes_tag (.inr rfl) _ _)
  · exact decodeAttributes_tag (.inl rfl) _ _

/-- Attributes that are sent are not named like tags, and are named once. -/
theorem names_of_treelike (hd : d.Lawful) (h : g.Treelike d r) {trees : Object}
    (names : Fields.keys (g.fieldsOf d r) = Fields.keys trees) :
    Fields.Distinct trees ∧ ∀ name ∈ Fields.keys trees, name ≠ Tree.classTag ∧ name ≠ Tree.newTag ∧
      ∃ a ∈ d.attributes r.cls, a.name = name := by
  rw [Fields.Distinct, ← names]
  refine ⟨Graph.distinct_fieldsOf hd g r, fun name hname => ?_⟩
  obtain ⟨v, hv⟩ := Fields.mem_keys_iff.1 hname
  obtain ⟨a, ha, rfl, -⟩ := Graph.mem_fieldsAmong.1 (Fields.mem_of_get? hv)
  exact ⟨(h.names r .refl a ha).1, (h.names r .refl a ha).2, a, ha, rfl⟩

/-- The tree of a record is decoded to a new record, to which its attributes are assigned. -/
theorem decode_tree_eq_ok (hd : d.Lawful) (hfound : d.Registers registry r.cls)
    {trees : Object}
    (h : decode d registry source (.object (g.tagsOf r ++ trees)) g₁ = (.ok v', g₂)) :
    ∃ isNew, isNew = Tree.isMarkedNew (g.tagsOf r ++ trees) ∧
      v' = .record (g₁.instantiate r.cls isNew).1 ∧
      decodeAttributes d registry source (g₁.instantiate r.cls isNew).1 trees
        (g₁.instantiate r.cls isNew).2 = (.ok (), g₂) := by
  rw [decode_record (get?_classTag_tagsOf g r trees) (hd.classNamed? hfound) hfound,
    decodeAttributes_tagsOf] at h
  obtain ⟨_, g₃, hattributes, hpure⟩ := Stateful.bind_eq_ok h
  cases hpure
  exact ⟨_, rfl, rfl, hattributes⟩

/-- A record that was sent arrives as a record of its class that is new or not as it is, to which its
attributes are assigned. -/
theorem decode_tree_assigns (hd : d.Lawful) {classes : ClassRef → Prop}
    (hsend : g.Sendable d registry classes r) {trees : Object}
    (names : Fields.keys (g.fieldsOf d r) = Fields.keys trees)
    (h : decode d registry source (.object (g.tagsOf r ++ trees)) g₁ = (.ok v', g₂)) :
    v' = .record (g₁.instantiate r.cls (g.isNew r)).1 ∧
      decodeAttributes d registry source (g₁.instantiate r.cls (g.isNew r)).1 trees
        (g₁.instantiate r.cls (g.isNew r)).2 = (.ok (), g₂) ∧
      Assigns d registry source (g₁.instantiate r.cls (g.isNew r)).1 trees
        (g₁.instantiate r.cls (g.isNew r)).2 g₂ := by
  obtain ⟨hdistinct, hnames⟩ := names_of_treelike hd hsend.toTreelike names
  have hunmarked : Tree.newTag ∉ Fields.keys trees := fun hmem => (hnames _ hmem).2.1 rfl
  obtain ⟨_, rfl, rfl, hattributes⟩ := decode_tree_eq_ok hd (hsend.found r .refl) h
  rw [isMarkedNew_tagsOf hunmarked] at hattributes ⊢
  exact ⟨rfl, hattributes, decodeAttributes_assigns hdistinct
    (fun entry hentry => (hnames _ (Fields.mem_keys_of_mem hentry)).2.1)
    (g₁.cell?_instantiate_self r.cls (g.isNew r)) hattributes⟩

/-- What a record has set is assigned as what its tree is decoded to, and was accepted. -/
theorem Assigns.set (hd : d.Lawful) {trees : Object} {R : Value → Value → Prop}
    (h : Assigns d registry source r' trees g₁ g₂) (hcls : r'.cls = r.cls) (htree : g.Treelike d r)
    (hrelated : Fields.Related R (g.fieldsOf d r) trees) {a : Attribute}
    (ha : a ∈ d.attributes r.cls) (hv : g.value? r a.name = some v) :
    ∃ t w, R v t ∧ g₂.own? r' a.name = some (some ⟨w, source⟩) ∧
      DecodedBetween d registry source (· ≠ r'.serial) g₁ g₂ t w ∧
      a.type.check (d.site r.cls a.name) w = .ok () := by
  have hget := Fields.get?_of_mem (Graph.distinct_fieldsOf hd g r)
    (Graph.mem_fieldsAmong.2 ⟨a, ha, rfl, hv⟩)
  obtain ⟨t, ht, hR⟩ := hrelated.get? hget
  have hmem := Fields.mem_of_get? ht
  have hclass := (htree.names r .refl a ha).1
  obtain ⟨w, hslot, hbetween⟩ := h.assigned a.name t hmem hclass
  obtain ⟨a', ha', hcheck⟩ := h.accepted a.name (Fields.mem_keys_of_mem hmem) hclass _ hslot
  rw [hcls, (hd.definition r.cls).attribute?_of_mem ha] at ha'
  obtain rfl := Option.some.inj ha'
  exact ⟨t, w, hR, hslot, hbetween, hcls ▸ hcheck⟩

/-- A record that the tree of another one was decoded to, and whose cell and those of all that was made
with it have been left alone since. -/
structure Rebuilt (d : Directory) (registry : RegistryRef) (source : Source) (g g' : Graph)
    (r r' : RecordRef) : Prop where
  cls : r'.cls = r.cls
  decoded : ∃ t g₁ g₂, Depicts d g (.record r) t ∧
    decode d registry source t g₁ = (.ok (.record r'), g₂) ∧ Leaves (g₁.cells.size ≤ ·) g₂ g'

/-- A tree of a value is decoded to that value, with rebuilt records in the places of its own. -/
theorem decode_reforked (hd : d.Lawful) (hportable : v.Portable (d.Registers registry))
    (hfound : ∀ r ∈ v.records, d.Registers registry r.cls) (h : Depicts d g v t)
    (hdecode : decode d registry source t g₁ = (.ok v', g₂))
    (hlater : Leaves (g₁.cells.size ≤ ·) g₂ g') :
    v.Reforked (Rebuilt d registry source g g') v' := by
  induction v using Value.induction generalizing t g₁ g₂ v' with
  | array items ih =>
    cases h with
    | leaf hleaf => cases hleaf
    | @array _ trees length htrees =>
      obtain ⟨vs, g₃, hvs, hpure⟩ := Stateful.bind_eq_ok hdecode
      cases hpure
      refine .array (forall₂_trans_of_mem (Fields.forall₂_iff_getElem?.2 ⟨length, htrees⟩)
        (decodeItems_eq_ok hvs).1 fun v hv t w hdepicts hbetween => ?_)
      obtain ⟨ga, gb, hw, hkept⟩ := hbetween.later hlater fun _ hn => ⟨trivial, hn⟩
      exact ih v hv (hportable.item v hv)
        (fun r hr => hfound r (Value.mem_records_array.2 ⟨v, hv, hr⟩)) hdepicts hw hkept
  | object fields ih =>
    cases h with
    | leaf hleaf => cases hleaf
    | @object _ trees names htrees =>
      obtain ⟨vs, rfl, hvs⟩ := decode_untagged_eq_ok (hportable.untagged_of_keys_eq names) hdecode
      have hvalues : Fields.Related (Value.Reforked (Rebuilt d registry source g g')) fields vs := by
        refine forall₂_trans_of_mem (Fields.related_of_getElem? names htrees)
          (decodeFields_eq_ok hvs).1 fun entry hentry tree entry' hdepicts hbetween => ?_
        obtain ⟨ga, gb, hw, hkept⟩ := hbetween.2.later hlater fun _ hn => ⟨trivial, hn⟩
        refine ⟨hdepicts.1.trans hbetween.1, ih entry hentry (hportable.field entry hentry) ?_
          hdepicts.2 hw hkept⟩
        exact fun r hr => hfound r (Value.mem_records_object.2 ⟨entry, hentry, hr⟩)
      refine .object hvalues.keys_eq ?_
      rw [Fields.values, Fields.values, List.forall₂_map_left_iff, List.forall₂_map_right_iff]
      exact hvalues.imp fun _ _ hentry => hentry.2
  | other v harray hobject =>
    cases h with
    | array _ _ => cases harray
    | object _ _ => cases hobject
    | leaf hleaf =>
      rw [decode_leaf hleaf] at hdecode
      cases hdecode
      exact .leaf hleaf
    | undefined =>
      cases hdecode
      exact .undefined
    | classRef c =>
      rw [Tree.ofClass, decode_classRef rfl hportable.of_classRef] at hdecode
      cases hdecode
      exact .classRef c
    | @record r trees names htrees =>
      obtain ⟨isNew, -, rfl, -⟩ :=
        decode_tree_eq_ok hd (hfound r (List.mem_singleton.2 rfl)) hdecode
      exact .record ⟨rfl, _, g₁, g₂, .record names htrees, hdecode, hlater⟩

/-- A rebuilt record is like the one that was sent, and holds rebuilt records where that one holds
records. -/
theorem Rebuilt.alike (hd : d.Lawful) (h : Rebuilt d registry source g g' r r')
    (hsend : g.Sendable d registry (d.Registers registry) r) :
    Alike (Rebuilt d registry source g g') d source g g' r r' := by
  obtain ⟨-, t, g₁, g₂, hdepicts, hdecode, hlater⟩ := h
  cases hdepicts with
  | leaf hleaf => cases hleaf
  | @record _ trees names htrees =>
    obtain ⟨heq, -, hassigns⟩ := decode_tree_assigns hd hsend names hdecode
    cases heq
    obtain ⟨slots, hslots⟩ := hassigns.cell _ (g₁.cell?_instantiate_self r.cls (g.isNew r))
    have hlt := Graph.lt_of_cell? hslots
    refine ⟨rfl, rfl, ?_, fun a ha => ?_⟩
    · rw [Graph.isNew, hlater.cell? hlt (Nat.le_refl _), hslots]
      rfl
    · rw [hlater.own? hlt (Nat.le_refl _)]
      cases hv : g.value? r a.name with
      | none =>
        have hunset : ∀ t, (a.name, t) ∈ trees → a.name = Tree.classTag := by
          intro t ht
          have hmem := Fields.mem_keys_of_mem ht
          rw [← names] at hmem
          obtain ⟨v, hmem⟩ := Fields.mem_keys_iff.1 hmem
          obtain ⟨-, -, -, hset⟩ := Graph.mem_fieldsAmong.1 (Fields.mem_of_get? hmem)
          rw [hset] at hv
          cases hv
        rw [hassigns.own?_new hunset]
        exact .none
      | some v =>
        have hmem : (a.name, v) ∈ g.fieldsOf d r := Graph.mem_fieldsAmong.2 ⟨a, ha, rfl, hv⟩
        obtain ⟨t, w, hdepicts, hslot, hbetween, -⟩ := hassigns.set (r := r) hd rfl hsend.toTreelike
          (Fields.related_of_getElem? names htrees) ha hv
        rw [hslot]
        -- The cells of this attribute were made after that of the record.
        obtain ⟨ga, gb, hdecoded, hkept⟩ := hbetween.later hlater fun n hn => by
          have hsize : (g₁.instantiate r.cls (g.isNew r)).2.cells.size = g₁.cells.size + 1 :=
            Array.size_push _
          have hserial : (g₁.instantiate r.cls (g.isNew r)).1.serial = g₁.cells.size := rfl
          omega
        exact .some ⟨rfl, decode_reforked hd (hsend.portable r .refl _ hmem)
          (fun q hq => hsend.found q (.single (Graph.nests_of_field hmem hq))) hdepicts hdecoded hkept⟩

theorem optionRel_getElem? {R : RecordRef → RecordRef → Prop} {rs rs' : List RecordRef}
    (h : List.Forall₂ R rs rs') (i : Nat) : Option.Rel R rs[i]? rs'[i]? := by
  induction h generalizing i with
  | nil => exact .none
  | cons hr _ ih =>
    cases i with
    | zero => exact .some hr
    | succ i => exact ih i

/-- Every step from the record that was sent is one from the rebuilt record. -/
theorem Rebuilt.step (hd : d.Lawful) (h : Rebuilt d registry source g g' r r')
    (hsend : g.Sendable d registry (d.Registers registry) r) (step : String × Nat) :
    Option.Rel (fun q q' => g.Nests d r q ∧ Rebuilt d registry source g g' q q')
      (g.step? d r step) (g'.step? d r' step) := by
  have halike := h.alike hd hsend
  simp only [Graph.step?, halike.cls]
  cases ha : (d.definition r.cls).attribute? step.1 with
  | none => exact .none
  | some a =>
    have hmem := Definition.mem_of_attribute? ha
    have hslots := halike.slots a hmem
    have hheld : List.Forall₂ (fun q q' => g.Nests d r q ∧ Rebuilt d registry source g g' q q')
        (g.held r a.name) (g'.held r' a.name) := by
      have hnests : ∀ v, g.value? r a.name = some v → ∀ q ∈ v.records, g.Nests d r q :=
        fun v hv q hq => ⟨a, hmem, Graph.mem_held.2 ⟨v, hv, hq⟩⟩
      have hread : g'.value? r' a.name = (g'.own? r' a.name).join.map Slot.value := rfl
      rw [Graph.held, Graph.held, hread]
      generalize g.value? r a.name = v at hslots hnests ⊢
      generalize (g'.own? r' a.name).join = slot at hslots ⊢
      cases hslots with
      | none => exact .nil
      | some hslot =>
        exact forall₂_imp_of_mem hslot.2.records fun q hq q' hq' => ⟨hnests _ rfl q hq, hq'⟩
    exact optionRel_getElem? hheld step.2

theorem Rebuilt.follow (hd : d.Lawful) (h : Rebuilt d registry source g g' r r')
    (hsend : g.Sendable d registry (d.Registers registry) r) (path : List (String × Nat)) :
    Option.Rel (Alike (fun _ _ => True) d source g g') (g.follow? d r path)
      (g'.follow? d r' path) := by
  induction path generalizing r r' with
  | nil =>
    have halike := h.alike hd hsend
    refine .some ⟨halike.made, halike.cls, halike.isNew, fun a ha => ?_⟩
    have hslots := halike.slots a ha
    generalize g.value? r a.name = v at hslots ⊢
    generalize (g'.own? r' a.name).join = slot at hslots ⊢
    cases hslots with
    | none => exact .none
    | some hslot => exact .some ⟨hslot.1, hslot.2.imp fun _ _ _ => trivial⟩
  | cons step rest ih =>
    have hstep := h.step hd hsend step
    simp only [Graph.follow?, List.foldlM_cons]
    generalize g.step? d r step = q at hstep ⊢
    generalize g'.step? d r' step = q' at hstep ⊢
    cases hstep with
    | none => exact .none
    | some hq => exact ih hq.2 (hsend.nested hq.1)

/-! ### Trees that are accepted -/

theorem sketch_of_reforked {R : RecordRef → RecordRef → Prop} (hR : ∀ q q', R q q' → q'.cls = q.cls)
    (h : v.Reforked R v') : v'.sketch = v.sketch := by
  induction v using Value.induction generalizing v' with
  | array items ih =>
    cases h with
    | leaf hleaf => cases hleaf
    | array hitems =>
      simp only [Value.sketch, Value.array.injEq]
      induction hitems with
      | nil => rfl
      | cons hv _ ihRest =>
        obtain ⟨hfirst, hrest⟩ := List.forall_mem_cons.1 ih
        rw [Value.sketchItems, Value.sketchItems, hfirst hv, ihRest hrest]
  | object fields ih =>
    cases h with
    | leaf hleaf => cases hleaf
    | object _ _ => rfl
  | other v harray hobject =>
    cases h with
    | array _ => cases harray
    | object _ _ => cases hobject
    | record hr => simp only [Value.sketch, hR _ _ hr]
    | _ => rfl

/-- Types accept what a tree is decoded to exactly if they accept what arrives of the value. -/
theorem check_decoded (hd : d.Lawful) (hportable : v.Portable (d.Names registry))
    (hfound : ∀ r ∈ v.records, d.Registers registry r.cls) (h : Depicts d g v t)
    (hdecode : decode d registry source t g₁ = (.ok v', g₂)) (type : ValueType) (site : Site) :
    type.check site v' = type.check site (v.mapClasses (d.namesake registry)) := by
  have hreforked := decode_reforked hd (hportable.mapClasses fun _ hc => hc.registers hd)
    (fun r hr => hfound r (Value.mem_records_mapClasses.1 hr))
    (h.mapClasses (hd.name_namesake registry)) hdecode (.refl _ g₂)
  rw [← ValueType.check_sketch, sketch_of_reforked (fun _ _ hq => hq.cls) hreforked,
    ValueType.check_sketch]

/-- What the records of a value hold can be sent, and is accepted in all that they reach. -/
theorem decode_of_lands (hd : d.Lawful) (h : Depicts d g v t)
    (hportable : v.Portable (d.Names registry))
    (hsend : ∀ r ∈ v.records, g.Sendable d registry (d.Names registry) r)
    (hlands : ∀ r ∈ v.records, ∀ q, g.Reaches d r q → g.Lands d registry q) (g₁ : Graph) :
    ∃ v' g₂, decode d registry source t g₁ = (.ok v', g₂) := by
  induction h generalizing g₁ with
  | leaf hleaf => exact ⟨_, g₁, decode_leaf hleaf g₁⟩
  | undefined => exact ⟨_, g₁, rfl⟩
  | classRef c => exact ⟨_, g₁, decode_namesake hd hportable.of_classRef source g₁⟩
  | @array items trees length _ ih =>
    have hitems : ∀ t ∈ trees, ∀ g, ∃ v g', decode d registry source t g = (.ok v, g') := by
      intro t ht
      obtain ⟨v, hmem, hdecode⟩ :=
        Fields.mem_right_of_forall₂ (Fields.forall₂_iff_getElem?.2 ⟨length, ih⟩) ht
      refine hdecode (hportable.item v hmem) ?_ ?_
      · exact fun r hr => hsend r (Value.mem_records_array.2 ⟨_, hmem, hr⟩)
      · exact fun r hr => hlands r (Value.mem_records_array.2 ⟨_, hmem, hr⟩)
    obtain ⟨vs, g₂, hvs⟩ := decodeItems_of_ok hitems g₁
    refine ⟨.array vs, g₂, ?_⟩
    simp only [decode]
    rw [Stateful.bind_of_ok hvs]
    rfl
  | @object fields trees names _ ih =>
    have hdecode : ∀ entry ∈ trees, ∀ g, ∃ v g',
        decode d registry source entry.2 g = (.ok v, g') := by
      intro entry hentry
      obtain ⟨v, hmem, hdecode⟩ := (Fields.related_of_getElem? names ih).mem_right hentry
      refine hdecode (hportable.field _ hmem) ?_ ?_
      · exact fun r hr => hsend r (Value.mem_records_object.2 ⟨_, hmem, hr⟩)
      · exact fun r hr => hlands r (Value.mem_records_object.2 ⟨_, hmem, hr⟩)
    obtain ⟨vs, g₂, hvs⟩ := decodeFields_of_ok hdecode g₁
    refine ⟨.object vs, g₂, ?_⟩
    simp only [decode, hportable.untagged_of_keys_eq names]
    rw [Stateful.bind_of_ok hvs]
    rfl
  | @record r trees names htrees ih =>
    have hr : r ∈ (Value.record r).records := List.mem_singleton.2 rfl
    have hsendable := hsend r hr
    have hfound := hsendable.found r .refl
    have hassigned : ∀ entry ∈ trees, entry.1 ≠ Tree.classTag → entry.1 ≠ Tree.newTag →
        ∃ a, (d.definition r.cls).attribute? entry.1 = some a ∧
          ∀ g, ∃ v g', decode d registry source entry.2 g = (.ok v, g') ∧
            a.type.check (d.site r.cls entry.1) v = .ok () := by
      intro entry hentry _ _
      obtain ⟨v, hmem, hdepicts, hdecode⟩ := (Fields.related_of_getElem? names
        (R := fun v t => Depicts d g v t ∧ _) fun i v t hv ht =>
          ⟨htrees i v t hv ht, ih i v t hv ht⟩).mem_right hentry
      obtain ⟨a, ha, hname, hset⟩ := Graph.mem_fieldsAmong.1 hmem
      have hnests : ∀ q ∈ v.records, g.Nests d r q := fun q hq => Graph.nests_of_field hmem hq
      have hportable := hsendable.portable r .refl _ hmem
      refine ⟨a, ?_, fun g' => ?_⟩
      · rw [← hname]
        exact (hd.definition r.cls).attribute?_of_mem ha
      · obtain ⟨v', g₂, hv'⟩ := hdecode hportable (fun q hq => hsendable.nested (hnests q hq))
          (fun q hq q' hq' => hlands r hr q' (.head (hnests q hq) hq')) g'
        refine ⟨v', g₂, hv', ?_⟩
        rw [check_decoded hd hportable (fun q hq => hsendable.found q (.single (hnests q hq)))
          hdepicts hv', ← hname]
        exact hlands r hr r .refl a ha v (hname ▸ hset)
    have hattributes : ∃ g₂, decodeAttributes d registry source
        (g₁.instantiate r.cls (Tree.isMarkedNew (g.tagsOf r ++ trees))).1 (g.tagsOf r ++ trees)
        (g₁.instantiate r.cls (Tree.isMarkedNew (g.tagsOf r ++ trees))).2 = (.ok (), g₂) := by
      rw [decodeAttributes_tagsOf]
      exact decodeAttributes_of_check (r := (g₁.instantiate r.cls _).1) hassigned _
    obtain ⟨g₂, hg₂⟩ := hattributes
    refine ⟨.record (g₁.instantiate r.cls (Tree.isMarkedNew (g.tagsOf r ++ trees))).1, g₂, ?_⟩
    rw [decode_record (get?_classTag_tagsOf g r trees) (hd.classNamed? hfound) hfound,
      Stateful.bind_of_ok hg₂]
    rfl

/-- Whatever was decoded was accepted, in all that the records of the value reach. -/
theorem lands_of_decode (hd : d.Lawful) (h : Depicts d g v t)
    (hportable : v.Portable (d.Names registry))
    (hsend : ∀ r ∈ v.records, g.Sendable d registry (d.Names registry) r)
    (hdecode : decode d registry source t g₁ = (.ok v', g₂)) :
    ∀ r ∈ v.records, ∀ q, g.Reaches d r q → g.Lands d registry q := by
  induction h generalizing g₁ g₂ v' with
  | leaf hleaf => simp [Value.records_of_isLeaf hleaf]
  | undefined => simp [Value.records]
  | classRef c => simp [Value.records]
  | @array items trees length _ ih =>
    obtain ⟨vs, g₃, hvs, -⟩ := Stateful.bind_eq_ok hdecode
    have hitems := (decodeItems_eq_ok hvs).1
    intro r hr q hq
    obtain ⟨v, hv, hr⟩ := Value.mem_records_array.1 hr
    obtain ⟨t, ht, hlands⟩ :=
      Fields.mem_left_of_forall₂ (Fields.forall₂_iff_getElem?.2 ⟨length, ih⟩) hv
    obtain ⟨w, -, g', g'', -, hw, -⟩ := Fields.mem_left_of_forall₂ hitems ht
    exact hlands (hportable.item v hv) (fun r hr => hsend r (Value.mem_records_array.2 ⟨_, hv, hr⟩)) hw
      r hr q hq
  | @object fields trees names _ ih =>
    obtain ⟨vs, rfl, hvs⟩ := decode_untagged_eq_ok (hportable.untagged_of_keys_eq names) hdecode
    intro r hr q hq
    obtain ⟨⟨name, v⟩, hv, hr⟩ := Value.mem_records_object.1 hr
    obtain ⟨t, ht, hlands⟩ := (Fields.related_of_getElem? names ih).mem_left hv
    obtain ⟨w, -, g', g'', -, hw, -⟩ := (decodeFields_eq_ok hvs).1.mem_left ht
    exact hlands (hportable.field _ hv) (fun r hr => hsend r (Value.mem_records_object.2 ⟨_, hv, hr⟩)) hw
      r hr q hq
  | @record r trees names htrees ih =>
    have hsendable := hsend r (List.mem_singleton.2 rfl)
    obtain ⟨-, -, hassigns⟩ := decode_tree_assigns hd hsendable names hdecode
    -- What is set was sent as the field of its name, and that field was decoded and accepted.
    have hset : ∀ a ∈ d.attributes r.cls, ∀ v, g.value? r a.name = some v →
        a.type.check (d.site r.cls a.name) (v.mapClasses (d.namesake registry)) = .ok () ∧
          ∀ q ∈ v.records, ∀ q', g.Reaches d q q' → g.Lands d registry q' := by
      intro a ha v hv
      have hmem : (a.name, v) ∈ g.fieldsOf d r := Graph.mem_fieldsAmong.2 ⟨a, ha, rfl, hv⟩
      have hnests : ∀ q ∈ v.records, g.Nests d r q := fun q hq => Graph.nests_of_field hmem hq
      have hportable := hsendable.portable r .refl _ hmem
      obtain ⟨t, w, ⟨hdepicts, hlands⟩, -, ⟨g', g'', -, hdecoded, -⟩, hcheck⟩ :=
        hassigns.set (r := r) hd rfl hsendable.toTreelike (Fields.related_of_getElem? names
          (R := fun v t => Depicts d g v t ∧ _) fun i v t hv ht =>
            ⟨htrees i v t hv ht, @ih i v t hv ht⟩) ha hv
      refine ⟨?_, hlands hportable (fun q hq => hsendable.nested (hnests q hq)) hdecoded⟩
      rw [← check_decoded hd hportable (fun q hq => hsendable.found q (.single (hnests q hq)))
        hdepicts hdecoded]
      exact hcheck
    intro q hq q' hreaches
    rw [List.mem_singleton.1 hq] at hreaches
    cases hreaches.cases_head with
    | inl heq =>
      subst heq
      exact fun a ha v hv => (hset a ha v hv).1
    | inr h =>
      obtain ⟨q'', hnests, hreaches⟩ := h
      obtain ⟨⟨name, v⟩, hmem, hq''⟩ := Graph.nests_iff_field.1 hnests
      obtain ⟨a, ha, rfl, hv⟩ := Graph.mem_fieldsAmong.1 hmem
      exact (hset a ha v hv).2 q'' hq'' q' hreaches

end Record

end TypedRecords
