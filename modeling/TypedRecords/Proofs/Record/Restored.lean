import TypedRecords.Proofs.Record.Correspondence

/-! # Decoding what was stored

The stored tree of a held value is decoded to a value that corresponds to it, but for the gaps in
arrays, which become null. Its records are new; a reference is to a record that has the identifier of
the original and nothing else.
-/

namespace TypedRecords

open TypedRecords.Graph (Leaves)

variable {d : Directory} {registry : RegistryRef} {lo lo' : Nat} {classes classes' : Nat → ClassRef}
  {g G G' : Graph} {v v' t : Value}

/-! ### Restored values -/

/-- A record that was made in a cell from `lo` on, as an instance of the class that is noted for the
cell. -/
def MadeFrom (lo : Nat) (classes : Nat → ClassRef) (G : Graph) (r' : RecordRef) : Prop :=
  lo ≤ r'.serial ∧ r'.serial < G.cells.size ∧ r' = .made r'.serial (classes r'.serial)

/-- A record that has the identifier of another one. -/
def SameIdentifier (d : Directory) (g G : Graph) (r r' : RecordRef) : Prop :=
  ∃ name v, g.identifier? d r = some (name, v) ∧ v.beq v = true ∧
    G.identifier? d r' = some (name, v)

/-- A value with records from `lo` on that stands for a value of another graph. -/
def Restored (d : Directory) (lo : Nat) (classes : Nat → ClassRef) (g G : Graph) :
    Value → Value → Prop :=
  Corresponds d (fun r r' => MadeFrom lo classes G r' ∧ SameIdentifier d g G r r')
    (MadeFrom lo classes G) .null g G

theorem MadeFrom.made {r' : RecordRef} (h : MadeFrom lo classes G r') : r'.base? = none := by
  rw [h.2.2]
  rfl

theorem MadeFrom.keep {r' : RecordRef} (h : MadeFrom lo classes G r') (hlo : lo' ≤ lo)
    (hclasses : ∀ n < G.cells.size, classes' n = classes n) (hsize : G.cells.size ≤ G'.cells.size) :
    MadeFrom lo' classes' G' r' := by
  obtain ⟨hfrom, hlt, hmade⟩ := h
  refine ⟨by omega, by omega, ?_⟩
  rw [hclasses _ hlt]
  exact hmade

theorem Restored.keep (h : Restored d lo classes g G v v') (hlo : lo' ≤ lo)
    (hclasses : ∀ n < G.cells.size, classes' n = classes n) (hleaves : Leaves (lo ≤ ·) G G') :
    Restored d lo' classes' g G' v v' := by
  have hvalue : ∀ r', MadeFrom lo classes G r' → ∀ name, G'.value? r' name = G.value? r' name := by
    intro r' hr' name
    exact Graph.value?_congr (hleaves.own? hr'.2.1 hr'.1 name)
  refine Corresponds.keep h ?_ ?_
  · rintro r r' ⟨hr', name, v, hread, hequal, hread'⟩
    refine ⟨hr'.keep hlo hclasses hleaves.size, name, v, hread, hequal, ?_⟩
    rw [← hread']
    refine Graph.identifier?_congr fun a _ => ?_
    rw [seen?_made hr'.made, seen?_made hr'.made, hvalue r' hr']
  · intro r' hr' _
    exact ⟨hr'.keep hlo hclasses hleaves.size, hvalue r' hr'⟩

/-! ### Parts of trees -/

namespace Record

/-- Whatever the tree is decoded to stands for the value. -/
def Restores (d : Directory) (registry : RegistryRef) (g : Graph) (v t : Value) : Prop :=
  ∀ (lo : Nat) (classes : Nat → ClassRef) (G : Graph) (v' : Value) (G' : Graph),
    lo ≤ G.cells.size → decode d registry .store t G = (.ok v', G') →
    ∃ classes' : Nat → ClassRef, (∀ n < G.cells.size, classes' n = classes n) ∧
      Restored d lo classes' g G' v v'

theorem decodeItems_restored (classes : Nat → ClassRef) {items trees vs' : List Value}
    (h : List.Forall₂ (Restores d registry g) items trees) (hlo : lo ≤ G.cells.size)
    (hrun : decodeItems d registry .store trees G = (.ok vs', G')) :
    ∃ classes', (∀ n < G.cells.size, classes' n = classes n) ∧
      List.Forall₂ (Restored d lo classes' g G') items vs' := by
  induction h generalizing G vs' classes with
  | nil =>
    cases hrun
    exact ⟨classes, fun _ _ => rfl, .nil⟩
  | @cons v t items trees hfirst _ ih =>
    obtain ⟨v', G₁, hv, hlater⟩ := Stateful.bind_eq_ok hrun
    obtain ⟨vs, G₂, hvs, hpure⟩ := Stateful.bind_eq_ok hlater
    cases hpure
    have hsize := (decode_leaves hv).size
    have hleaves := (decodeItems_eq_ok hvs).2
    obtain ⟨classes₁, hagree₁, hrestored⟩ := hfirst lo classes G v' G₁ hlo hv
    obtain ⟨classes₂, hagree₂, hrest⟩ := ih classes₁ (by omega) hvs
    refine ⟨classes₂, ?_, .cons ?_ hrest⟩
    · intro n hn
      rw [hagree₂ n (by omega), hagree₁ n hn]
    · exact hrestored.keep (Nat.le_refl _) hagree₂ (hleaves.imp fun _ _ => trivial)

theorem decodeFields_restored (partner : String → Value) (classes : Nat → ClassRef)
    {trees vs' : Object}
    (h : ∀ entry ∈ trees, Restores d registry g (partner entry.1) entry.2)
    (hlo : lo ≤ G.cells.size)
    (hrun : decodeFields d registry .store trees G = (.ok vs', G')) :
    Fields.keys vs' = Fields.keys trees ∧
      ∃ classes', (∀ n < G.cells.size, classes' n = classes n) ∧
        ∀ entry ∈ vs', Restored d lo classes' g G' (partner entry.1) entry.2 := by
  induction trees generalizing G vs' classes with
  | nil =>
    cases hrun
    exact ⟨rfl, classes, fun _ _ => rfl, by simp⟩
  | cons entry rest ih =>
    obtain ⟨name, t⟩ := entry
    obtain ⟨hfirst, hrest⟩ := List.forall_mem_cons.1 h
    obtain ⟨v', G₁, hv, hlater⟩ := Stateful.bind_eq_ok hrun
    obtain ⟨vs, G₂, hvs, hpure⟩ := Stateful.bind_eq_ok hlater
    cases hpure
    have hsize := (decode_leaves hv).size
    have hleaves := (decodeFields_eq_ok hvs).2
    obtain ⟨classes₁, hagree₁, hrestored⟩ := hfirst lo classes G v' G₁ hlo hv
    obtain ⟨hkeys, classes₂, hagree₂, hlaters⟩ := ih classes₁ hrest (by omega) hvs
    refine ⟨?_, classes₂, ?_, ?_⟩
    · simp only [Fields.keys, List.map_cons] at hkeys ⊢
      rw [hkeys]
    · intro n hn
      rw [hagree₂ n (by omega), hagree₁ n hn]
    · refine List.forall_mem_cons.2 ⟨?_, hlaters⟩
      exact hrestored.keep (Nat.le_refl _) hagree₂ (hleaves.imp fun _ _ => trivial)

/-- Assigning fields to a record in a cell before `lo`. -/
theorem decodeAttributes_restored (partner : String → Value) (classes : Nat → ClassRef)
    {r : RecordRef} {trees : Object}
    (hdistinct : Fields.Distinct trees) (hnew : ∀ entry ∈ trees, entry.1 ≠ Tree.newTag)
    (h : ∀ entry ∈ trees, entry.1 ≠ Tree.classTag →
      Restores d registry g (partner entry.1) entry.2)
    (hlo : lo ≤ G.cells.size) {cell : Cell} (hcell : G.cell? r = some cell) (hr : r.serial < lo)
    (hrun : decodeAttributes d registry .store r trees G = (.ok (), G')) :
    ∃ classes', (∀ n < G.cells.size, classes' n = classes n) ∧
      ∀ entry ∈ trees, entry.1 ≠ Tree.classTag → ∃ v', G'.value? r entry.1 = some v' ∧
        Restored d lo classes' g G' (partner entry.1) v' := by
  induction trees generalizing G cell classes with
  | nil =>
    cases hrun
    exact ⟨classes, fun _ _ => rfl, by simp⟩
  | cons entry rest ih =>
    obtain ⟨name, t⟩ := entry
    obtain ⟨hname, hdistinctRest⟩ := Fields.distinct_cons.1 hdistinct
    obtain ⟨hnewName, hnewRest⟩ := List.forall_mem_cons.1 hnew
    obtain ⟨hfirst, hrest⟩ := List.forall_mem_cons.1 h
    by_cases hclass : name = Tree.classTag
    · rw [decodeAttributes_tag (.inl hclass)] at hrun
      obtain ⟨classes', hagree, hassigned⟩ :=
        ih classes hdistinctRest hnewRest hrest hlo hcell hrun
      refine ⟨classes', hagree, List.forall_mem_cons.2 ⟨?_, hassigned⟩⟩
      intro hne
      exact absurd hclass hne
    · obtain ⟨v', G₁, G₂, cell', hv, hsize, hcell₂, hlater, hleaves, hown⟩ :=
        decodeAttributes_first hname hdistinctRest hclass hnewName hnewRest hcell hrun
      have hsizes := (decode_leaves hv).size
      obtain ⟨classes₁, hagree₁, hrestored⟩ := hfirst hclass lo classes G v' G₁ hlo hv
      obtain ⟨classes₂, hagree₂, hassigned⟩ :=
        ih classes₁ hdistinctRest hnewRest hrest (by omega) hcell₂ hlater
      refine ⟨classes₂, ?_, List.forall_mem_cons.2 ⟨?_, hassigned⟩⟩
      · intro n hn
        rw [hagree₂ n (by omega), hagree₁ n hn]
      · intro _
        refine ⟨v', Graph.value?_eq_some_iff.2 ⟨.store, hown⟩,
          hrestored.keep (Nat.le_refl _) ?_ (hleaves.imp ?_)⟩
        · intro n hn
          exact hagree₂ n (by omega)
        · intro n hn
          omega

/-! ### Records -/

theorem identifier?_of_single {r : RecordRef} (hr : r.base? = none) {name : String}
    (hname : ∃ a ∈ (d.definition r.cls).identifiers, a.name = name)
    (hv : G.value? r name = some v) (hdefined : v ≠ .undefined)
    (hother : ∀ other, other ≠ name → G.value? r other = none) :
    G.identifier? d r = some (name, v) := by
  unfold Graph.identifier?
  simp only [seen?_made hr]
  generalize (d.definition r.cls).identifiers = attributes at hname
  induction attributes with
  | nil =>
    obtain ⟨a, ha, -⟩ := hname
    cases ha
  | cons a rest ih =>
    rw [List.findSome?_cons]
    by_cases hsame : a.name = name
    · rw [hsame, hv]
      cases v with
      | undefined => exact absurd rfl hdefined
      | _ => rfl
    · rw [hother a.name hsame]
      obtain ⟨b, hb, rfl⟩ := hname
      rcases List.mem_cons.1 hb with rfl | hb
      · exact absurd rfl hsame
      · exact ih ⟨b, hb, rfl⟩

theorem decode_record_eq_ok {fields : Object} {c : ClassRef}
    (htag : Fields.get? Tree.classTag fields = some (.string c.name))
    (hname : Tree.classNamed? c.name = none) (hfound : d.find? registry c.name = some c)
    (h : decode d registry .store (.object fields) G = (.ok v', G')) :
    v' = .record (.made G.cells.size c) ∧
      decodeAttributes d registry .store (.made G.cells.size c) fields
        (G.instantiate c (Tree.isMarkedNew fields)).2 = (.ok (), G') := by
  rw [decode_record htag hname hfound] at h
  obtain ⟨_, G₁, hattributes, hpure⟩ := Stateful.bind_eq_ok h
  cases hpure
  exact ⟨rfl, hattributes⟩

/-- The tree of a reference is decoded to a record that has just the identifier. -/
theorem restores_reference (hd : d.Lawful) (hnamed : d.WellNamed) {r : RecordRef} {name : String}
    (hfound : d.find? registry r.cls.name = some r.cls)
    (hreferenceable : (d.definition r.cls).referenceable = true)
    (hidentifier : g.identifier? d r = some (name, v)) (hkey : v.IsKey)
    (hequal : v.beq v = true)
    (hattribute : ∃ a, (d.definition r.cls).attribute? name = some a) :
    Restores d registry g (.record r)
      (.object [(Tree.classTag, .string r.className), (name, v)]) := by
  intro lo classes G v' G' hlo hrun
  obtain ⟨a, ha⟩ := hattribute
  obtain ⟨-, hclass, hnew⟩ := hd.wellNamed_of_attribute? hnamed ha
  obtain ⟨rfl, hattributes⟩ := decode_record_eq_ok rfl (hd.classNamed? hfound) hfound hrun
  rw [decodeAttributes_tag (.inl rfl)] at hattributes
  obtain ⟨b, w, G₁, -, hw, -, hdone⟩ := decodeAttributes_cons_eq_ok hclass hnew hattributes
  rw [decode_leaf (Value.isLeaf_of_isKey hkey)] at hw
  cases hw
  cases hdone
  have hcell := Graph.cell?_instantiate_self G r.cls
    (Tree.isMarkedNew [(Tree.classTag, .string r.className), (name, v)])
  refine ⟨Function.update classes G.cells.size r.cls, ?_, .reference rfl hreferenceable ⟨?_, ?_⟩⟩
  · intro n hn
    exact Function.update_of_ne (Nat.ne_of_lt hn) _ _
  · refine ⟨hlo, ?_, ?_⟩
    · rw [Graph.write, Graph.size_modify]
      exact Graph.lt_of_cell? hcell
    · show _ = RecordRef.made G.cells.size (Function.update classes G.cells.size r.cls G.cells.size)
      rw [Function.update_self]
  · refine ⟨name, v, hidentifier, hequal, ?_⟩
    refine identifier?_of_single rfl (Graph.identifier?_eq_some hidentifier).1 ?_ hkey.ne_undefined ?_
    · rw [Graph.value?_eq_some_iff]
      exact ⟨.store, Graph.own?_write_self hcell name _⟩
    · intro other hother
      have hnone := Graph.own?_instantiate_self G r.cls
        (Tree.isMarkedNew [(Tree.classTag, .string r.className), (name, v)]) other
      rw [Graph.value?, Graph.own?_write_of_name_ne hother, hnone]
      rfl

/-- Fields of an embedded record, by the values that they stand for. -/
theorem restores_embedded (partner : String → Value) (hd : d.Lawful) {r : RecordRef}
    {fields : Object} (hfound : d.find? registry r.cls.name = some r.cls)
    (hembedded : (d.definition r.cls).referenceable = false)
    (htag : Fields.get? Tree.classTag fields = some (.string r.className))
    (hdistinct : Fields.Distinct fields) (hnew : ∀ entry ∈ fields, entry.1 ≠ Tree.newTag)
    (htagged : ∀ a ∈ d.attributes r.cls, a.name ≠ Tree.classTag)
    (hpartner : ∀ a ∈ d.attributes r.cls, a.name ∈ Fields.keys fields →
      g.seen? r a.name = some (partner a.name) ∧ partner a.name ≠ .undefined)
    (hcomplete : ∀ a ∈ d.attributes r.cls, ∀ v, g.seen? r a.name = some v → v ≠ .undefined →
      a.name ∈ Fields.keys fields)
    (h : ∀ entry ∈ fields, entry.1 ≠ Tree.classTag →
      Restores d registry g (partner entry.1) entry.2) :
    Restores d registry g (.record r) (.object fields) := by
  intro lo classes G v' G' hlo hrun
  obtain ⟨rfl, hattributes⟩ := decode_record_eq_ok htag (hd.classNamed? hfound) hfound hrun
  have hcell := Graph.cell?_instantiate_self G r.cls (Tree.isMarkedNew fields)
  have hsize : (G.instantiate r.cls (Tree.isMarkedNew fields)).2.cells.size = G.cells.size + 1 := by
    simp [Graph.instantiate]
  have hassigns := decodeAttributes_assigns hdistinct hnew hcell hattributes
  obtain ⟨classes', hagree, hassigned⟩ := decodeAttributes_restored partner
    (Function.update classes G.cells.size r.cls) hdistinct hnew h (Nat.le_of_eq hsize.symm) hcell
    (by simp [Graph.instantiate, RecordRef.serial]) hattributes
  have hclass : classes' G.cells.size = r.cls := by
    rw [hagree _ (by omega), Function.update_self]
  -- Which attributes the new record has.
  have hset : ∀ a ∈ d.attributes r.cls, a.name ∈ Fields.keys fields →
      ∃ v', G'.value? (.made G.cells.size r.cls) a.name = some v' ∧
        Restored d (G.cells.size + 1) classes' g G' (partner a.name) v' := by
    intro a ha hmem
    obtain ⟨t, ht⟩ := Fields.mem_keys_iff.1 hmem
    exact hassigned (a.name, t) (Fields.mem_of_get? ht) (htagged a ha)
  have hunset : ∀ a ∈ d.attributes r.cls, a.name ∉ Fields.keys fields →
      G'.value? (.made G.cells.size r.cls) a.name = none := by
    intro a ha hmissing
    have hnone : G'.own? (.made G.cells.size r.cls) a.name = none :=
      Assigns.own?_new (g := G) (c := r.cls) hassigns fun t ht =>
        absurd (Fields.mem_keys_of_mem ht) hmissing
    rw [Graph.value?, hnone]
    rfl
  refine ⟨classes', ?_, .embedded rfl hembedded ?_ ?_ ?_⟩
  · intro n hn
    rw [hagree n (by omega), Function.update_of_ne (Nat.ne_of_lt hn)]
  · refine ⟨hlo, ?_, ?_⟩
    · have hgrown := hassigns.leaves.size
      show G.cells.size < G'.cells.size
      omega
    · show _ = RecordRef.made G.cells.size (classes' G.cells.size)
      rw [hclass]
  · intro a ha
    by_cases hmem : a.name ∈ Fields.keys fields
    · obtain ⟨v', hv', hrestored⟩ := hset a ha hmem
      exact iff_of_true ⟨v', hv', hrestored.ne_undefined (by simp)⟩ ⟨_, hpartner a ha hmem⟩
    · refine iff_of_false ?_ ?_
      · rintro ⟨v', hv', -⟩
        rw [hunset a ha hmem] at hv'
        cases hv'
      · rintro ⟨v, hv, hdefined⟩
        exact hmem (hcomplete a ha v hv hdefined)
  · intro a ha v v' hv hdefined hv'
    have hmem := hcomplete a ha v hv hdefined
    obtain ⟨w, hw, hrestored⟩ := hset a ha hmem
    rw [(hpartner a ha hmem).1] at hv
    rw [hw] at hv'
    cases hv
    cases hv'
    exact hrestored.keep (by omega) (fun _ _ => rfl) (.refl _ _)

end Record

/-- An undefined item of an array. -/
theorem Record.restores_gap : Record.Restores d registry g .undefined .null := by
  intro lo classes G v' G' _ hrun
  cases hrun
  exact ⟨classes, fun _ _ => rfl, .gap⟩

theorem Record.restores_array {items trees : List Value}
    (h : List.Forall₂ (Record.Restores d registry g) items trees) :
    Record.Restores d registry g (.array items) (.array trees) := by
  intro lo classes G v' G' hlo hrun
  obtain ⟨vs', G₁, hvs, hpure⟩ := Stateful.bind_eq_ok hrun
  cases hpure
  obtain ⟨classes', hagree, hrestored⟩ := Record.decodeItems_restored classes h hlo hvs
  obtain ⟨hlength, hget⟩ := Fields.forall₂_iff_getElem?.1 hrestored
  exact ⟨classes', hagree, .array hlength hget⟩

theorem Record.restores_object {fields trees : Object}
    (huntagged : Fields.get? Tree.classTag trees = none) (hdistinct : Fields.Distinct trees)
    (hdefined : ∀ name, name ∈ Fields.keys trees ↔
      ∃ v, Fields.get? name fields = some v ∧ v ≠ .undefined)
    (h : ∀ name v t, Fields.get? name fields = some v → Fields.get? name trees = some t →
      Record.Restores d registry g v t) :
    Record.Restores d registry g (.object fields) (.object trees) := by
  intro lo classes G v' G' hlo hrun
  have hfields : ∀ entry ∈ trees, Record.Restores d registry g
      ((Fields.get? entry.1 fields).getD .undefined) entry.2 := by
    rintro ⟨name, t⟩ hentry
    have ht := Fields.get?_of_mem hdistinct hentry
    obtain ⟨v, hv, -⟩ := (hdefined name).1 (Fields.mem_keys_iff.2 ⟨t, ht⟩)
    dsimp only
    rw [hv]
    exact h name v t hv ht
  obtain ⟨vs', rfl, hvs⟩ := Record.decode_untagged_eq_ok huntagged hrun
  obtain ⟨hkeys, classes', hagree, hrestored⟩ := Record.decodeFields_restored
    (fun name => (Fields.get? name fields).getD .undefined) classes hfields hlo hvs
  refine ⟨classes', hagree, .object (by rwa [Fields.Distinct, hkeys]) ?_ ?_⟩
  · intro name
    rw [← hdefined, ← hkeys, Fields.mem_keys_iff]
    constructor
    · rintro ⟨v', hv', -⟩
      exact ⟨v', hv'⟩
    · rintro ⟨v', hv'⟩
      exact ⟨v', hv', (hrestored _ (Fields.mem_of_get? hv')).ne_undefined (by simp)⟩
  · intro name v v' hv _ hv'
    have hentry := hrestored _ (Fields.mem_of_get? hv')
    dsimp only at hentry
    rw [hv] at hentry
    exact hentry

/-- An item of an array, which is null where it was undefined. -/
theorem Encodes.restores_item (h : Encodes True d registry g v t)
    (hrestores : t ≠ .undefined → Record.Restores d registry g v t.strip) :
    Record.Restores d registry g v (if t.isUndefined then .null else t.strip) := by
  by_cases hundefined : t.isUndefined = true
  · have hv : v = .undefined := by
      by_contra hne
      exact h.ne_undefined hne ((Value.isUndefined_iff _).1 hundefined)
    rw [if_pos hundefined, hv]
    exact Record.restores_gap
  · rw [if_neg hundefined]
    exact hrestores fun heq => hundefined ((Value.isUndefined_iff _).2 heq)

/-- What is stored of an object has the names of its defined fields. -/
theorem Encodes.mem_keys_stripFields {fields trees : Object} (hdistinct : Fields.Distinct trees)
    (hnames : Fields.keys fields = Fields.keys trees)
    (hencodes : ∀ name v t, Fields.get? name fields = some v → Fields.get? name trees = some t →
      Encodes True d registry g v t) (name : String) :
    name ∈ Fields.keys (Value.stripFields trees) ↔
      ∃ v, Fields.get? name fields = some v ∧ v ≠ .undefined := by
  constructor
  · intro hmem
    obtain ⟨t', ht'⟩ := Fields.mem_keys_iff.1 hmem
    obtain ⟨t, ht, hne, -⟩ := (Value.get?_stripFields_eq_some_iff hdistinct).1 ht'
    obtain ⟨v, hv⟩ := Fields.exists_get?_of_keys_eq hnames.symm ht
    exact ⟨v, hv, (hencodes name v t hv ht).defined_of_defined hne⟩
  · rintro ⟨v, hv, hdefined⟩
    obtain ⟨t, ht⟩ := Fields.exists_get?_of_keys_eq hnames hv
    have hne := (hencodes name v t hv ht).ne_undefined hdefined
    exact Fields.mem_keys_iff.2
      ⟨_, (Value.get?_stripFields_eq_some_iff hdistinct).2 ⟨t, ht, hne, rfl⟩⟩

/-- The stored tree of a held value is decoded to a value that stands for it. -/
theorem Encodes.restores (hd : d.Lawful) (hnamed : d.WellNamed)
    (h : Encodes True d registry g v t) (hdefined : t ≠ .undefined) :
    Record.Restores d registry g v t.strip := by
  induction h with
  | leaf hleaf =>
    intro lo classes G v' G' _ hrun
    rw [Value.strip_of_isLeaf hleaf, Record.decode_leaf hleaf] at hrun
    cases hrun
    exact ⟨classes, fun _ _ => rfl, .leaf hleaf⟩
  | undefined => exact absurd rfl hdefined
  | @array items trees hlength hencodes ih =>
    rw [Value.strip, Value.stripItems_eq_map]
    refine Record.restores_array (List.forall₂_iff_get.2 ⟨by rw [List.length_map, hlength], ?_⟩)
    intro i hi hi'
    rw [List.length_map] at hi'
    rw [List.get_eq_getElem, List.get_eq_getElem, List.getElem_map]
    have hitem := List.getElem?_eq_getElem hi
    have htree := List.getElem?_eq_getElem hi'
    exact (hencodes i _ _ hitem htree).restores_item (ih i _ _ hitem htree)
  | @object fields trees huntagged hdistinct hnames hencodes ih =>
    have hdistinctTrees := hdistinct.of_keys_eq hnames
    have hnone := Fields.get?_eq_none_of_keys_eq hnames huntagged
    rw [Value.strip]
    refine Record.restores_object (Value.get?_stripFields_eq_none hnone)
      (Value.distinct_stripFields hdistinctTrees)
      (Encodes.mem_keys_stripFields hdistinctTrees hnames hencodes) ?_
    intro name v t' hv ht'
    obtain ⟨t, ht, hne, rfl⟩ := (Value.get?_stripFields_eq_some_iff hdistinctTrees).1 ht'
    exact ih name v t hv ht hne
  | @classRef c hfound =>
    intro lo classes G v' G' _ hrun
    have htree : (Tree.ofClass c).strip = Tree.ofClass c := rfl
    rw [htree, Tree.ofClass, Record.decode_classRef rfl hfound] at hrun
    cases hrun
    exact ⟨classes, fun _ _ => rfl, .classRef c⟩
  | reference hfound hreferenceable hidentifier hkey hequal haccepted =>
    obtain ⟨a, ha, -⟩ := haccepted
    rw [Encodes.strip_reference hkey]
    exact Record.restores_reference hd hnamed hfound hreferenceable hidentifier hkey hequal ⟨a, ha⟩
  | @embedded r trees value hfound hembedded htag hdistinct haccepted hencodes hcomplete ih =>
    have hstripped := (Value.get?_stripFields_eq_some_iff hdistinct).2 ⟨_, htag, by simp, rfl⟩
    have htagged := hnamed.ne_classTag r.cls
    refine Record.restores_embedded value hd hfound hembedded hstripped
      (Value.distinct_stripFields hdistinct) ?_ htagged ?_ ?_ ?_
    · rintro ⟨name, t'⟩ hentry
      obtain ⟨t, hmem, -, rfl⟩ := Value.mem_stripFields.1 hentry
      by_cases hclass : name = Tree.classTag
      · subst hclass
        show Tree.classTag ≠ Tree.newTag
        decide
      · obtain ⟨-, a, ha, -⟩ := haccepted name t (Fields.get?_of_mem hdistinct hmem) hclass
        exact (hd.wellNamed_of_attribute? hnamed ha).2.2
    · intro a ha hmem
      obtain ⟨t', ht'⟩ := Fields.mem_keys_iff.1 hmem
      obtain ⟨t, ht, hne, -⟩ := (Value.get?_stripFields_eq_some_iff hdistinct).1 ht'
      obtain ⟨hvalue, -⟩ := haccepted a.name t ht (htagged a ha)
      exact ⟨hvalue, (hencodes a.name t ht (htagged a ha)).defined_of_defined hne⟩
    · intro a ha v hv hvdefined
      obtain ⟨t, ht, rfl⟩ := exists_tree haccepted (hcomplete trivial a ha v hv) (htagged a ha) hv
      have hne := (hencodes a.name t ht (htagged a ha)).ne_undefined hvdefined
      exact Fields.mem_keys_iff.2
        ⟨_, (Value.get?_stripFields_eq_some_iff hdistinct).2 ⟨t, ht, hne, rfl⟩⟩
    · rintro ⟨name, t'⟩ hentry hclass
      obtain ⟨t, hmem, hne, rfl⟩ := Value.mem_stripFields.1 hentry
      exact ih name t (Fields.get?_of_mem hdistinct hmem) hclass hne

/-! ### Gaps -/

variable {Refers Refers' : RecordRef → RecordRef → Prop} {New New' : RecordRef → Prop}

/-- Without gaps nothing is mistaken for null. -/
theorem Encodes.exact_of_gapless (hnamed : d.WellNamed) (h : Encodes True d registry g v t) (ht : t.Gapless)
    (hdefined : v ≠ .undefined) (hv : Corresponds d Refers New .null g G v v') :
    Corresponds d Refers New .undefined g G v v' := by
  induction h generalizing v' with
  | leaf hleaf =>
    cases hv with
    | leaf _ => exact .leaf hleaf
    | _ => cases hleaf
  | undefined => exact absurd rfl hdefined
  | @array items trees hlength hencodes ih =>
    cases hv with
    | leaf hleaf => cases hleaf
    | @array _ items' hlength' hitems =>
      refine .array hlength' ?_
      intro i v v' hvi hvi'
      have hi : i < trees.length := by
        have hlt := (List.getElem?_eq_some_iff.1 hvi).1
        omega
      have hti := List.getElem?_eq_getElem hi
      -- No item is stored as a gap, so none was undefined.
      obtain ⟨hne, hgapless⟩ := ht.item hti
      exact ih i v _ hvi hti hgapless ((hencodes i v _ hvi hti).defined_of_defined hne)
        (hitems i v v' hvi hvi')
  | @object fields trees huntagged hdistinct hnames hencodes ih =>
    cases hv with
    | leaf hleaf => cases hleaf
    | object hdistinct' hdefined' hfields =>
      refine .object hdistinct' hdefined' ?_
      intro name v v' hvn hne hvn'
      obtain ⟨t, htn⟩ := Fields.exists_get?_of_keys_eq hnames hvn
      exact ih name v t hvn htn (ht.field htn) hne (hfields name v v' hvn hne hvn')
  | classRef _ =>
    cases hv with
    | leaf hleaf => cases hleaf
    | classRef => exact .classRef _
  | reference _ hreferenceable _ _ _ _ =>
    cases hv with
    | leaf hleaf => cases hleaf
    | reference hcls _ hrefers => exact .reference hcls hreferenceable hrefers
    | embedded _ hembedded _ _ _ =>
      rw [hreferenceable] at hembedded
      cases hembedded
  | @embedded r trees value _ hembedded _ _ haccepted hencodes hcomplete ih =>
    cases hv with
    | leaf hleaf => cases hleaf
    | reference _ hreferenceable _ =>
      rw [hembedded] at hreferenceable
      cases hreferenceable
    | @embedded _ r' hcls _ hnew hdefined' hfields =>
      refine .embedded hcls hembedded hnew hdefined' ?_
      intro a ha v v' hva hne hva'
      have hclass := hnamed.ne_classTag r.cls a ha
      obtain ⟨t, hta, rfl⟩ := exists_tree haccepted (hcomplete trivial a ha v hva) hclass hva
      exact ih a.name t hta hclass (ht.field hta) hne (hfields a ha _ v' hva hne hva')

/-- If what a tree is decoded to stands for the value exactly, there was no gap. -/
theorem Encodes.gapless_of_exact (hd : d.Lawful) (h : Encodes True d registry g v t)
    (hv : Corresponds d Refers New .null g G v v')
    (hexact : Corresponds d Refers' New' .undefined g G v v') : t.Gapless := by
  induction h generalizing v' with
  | @leaf v hleaf => cases v <;> trivial
  | undefined => trivial
  | @array items trees hlength hencodes ih =>
    cases hv with
    | leaf hleaf => cases hleaf
    | @array _ items' hlength' hitems =>
      cases hexact with
      | leaf hleaf => cases hleaf
      | array _ hitemsExact =>
        rw [Value.gapless_array]
        intro t hmem
        obtain ⟨i, hi, rfl⟩ := List.getElem_of_mem hmem
        have hvi : items[i]? = some items[i] := List.getElem?_eq_getElem (by omega)
        have hvi' : items'[i]? = some items'[i] := List.getElem?_eq_getElem (by omega)
        have hti := List.getElem?_eq_getElem hi
        have hnull := hitems i _ _ hvi hvi'
        have hundefined := hitemsExact i _ _ hvi hvi'
        refine ⟨?_, ih i _ _ hvi hti hnull hundefined⟩
        refine (hencodes i _ _ hvi hti).ne_undefined ?_
        intro heq
        -- A gap would be null and undefined at once.
        rw [heq] at hnull hundefined
        exact hnull.ne_undefined (by simp) hundefined.eq_of_undefined
  | @object fields trees huntagged hdistinct hnames hencodes ih =>
    cases hv with
    | leaf hleaf => cases hleaf
    | @object _ fields' hdistinct' hdefined' hfields =>
      cases hexact with
      | leaf hleaf => cases hleaf
      | object _ _ hfieldsExact =>
        refine Value.gapless_of_fields (hdistinct.of_keys_eq hnames) fun name t htn =>
          .of_defined fun hdefined => ?_
        obtain ⟨v, hvn⟩ := Fields.exists_get?_of_keys_eq hnames.symm htn
        have hne := (hencodes name v t hvn htn).defined_of_defined hdefined
        obtain ⟨v', hvn', -⟩ := (hdefined' name).2 ⟨v, hvn, hne⟩
        exact ih name v t hvn htn (hfields name v v' hvn hne hvn')
          (hfieldsExact name v v' hvn hne hvn')
  | classRef _ => exact ⟨trivial, trivial⟩
  | @reference r name v _ _ _ hkey _ _ =>
    rcases hkey with ⟨s, rfl⟩ | ⟨x, rfl⟩ <;> exact ⟨trivial, trivial, trivial⟩
  | @embedded r trees value _ hembedded htag hdistinct haccepted hencodes hcomplete ih =>
    cases hv with
    | leaf hleaf => cases hleaf
    | reference _ hreferenceable _ =>
      rw [hembedded] at hreferenceable
      cases hreferenceable
    | @embedded _ r' _ _ _ hdefined' hfields =>
      cases hexact with
      | leaf hleaf => cases hleaf
      | reference _ hreferenceable _ =>
        rw [hembedded] at hreferenceable
        cases hreferenceable
      | embedded _ _ _ _ hfieldsExact =>
        refine Value.gapless_of_tagged hdistinct htag fun name t htn hclass =>
          .of_defined fun hdefined => ?_
        obtain ⟨hvalue, a, ha, -⟩ := haccepted name t htn hclass
        have hattribute := Definition.mem_of_attribute? ha
        obtain rfl := (hd.definition r.cls).name_of_attribute? ha
        have hne := (hencodes a.name t htn hclass).defined_of_defined hdefined
        obtain ⟨v', hva', -⟩ := (hdefined' a hattribute).2 ⟨_, hvalue, hne⟩
        exact ih a.name t htn hclass (hfields a hattribute _ v' hvalue hne hva')
          (hfieldsExact a hattribute _ v' hvalue hne hva')

end TypedRecords
