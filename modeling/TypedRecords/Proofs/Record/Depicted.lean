import TypedRecords.Tree.Encode
import TypedRecords.Proofs.Record.Regions
import TypedRecords.Proofs.Record.Views

/-! # Trees of graphs

The tree of a record that is sent to a peer. Records that are no forks are only read, so if none is held
by itself, directly or through others, encoding answers the tree of the record and leaves the graph as
it is.
-/

namespace TypedRecords

open TypedRecords.Graph (Sound)

namespace Graph

/-! ### What a record holds -/

variable (d : Directory) (g : Graph)

/-- The attributes among some that a record has set, with their values. -/
def fieldsAmong (r : RecordRef) (attributes : List Attribute) : Object :=
  attributes.filterMap fun a => (g.value? r a.name).map fun v => (a.name, v)

/-- The attributes that a record has set, in order of declaration. -/
def fieldsOf (r : RecordRef) : Object := g.fieldsAmong r (d.attributes r.cls)

/-- The tags of a record for a peer. -/
def tagsOf (r : RecordRef) : Object :=
  if g.isNew r then [(Tree.classTag, .string r.className), (Tree.newTag, .boolean true)]
  else [(Tree.classTag, .string r.className)]

/-- One record holds another in an attribute. -/
def Nests (r r' : RecordRef) : Prop := ∃ a ∈ d.attributes r.cls, r' ∈ g.held r a.name

/-- A record holds another, directly or through others, or is that one. -/
abbrev Reaches : RecordRef → RecordRef → Prop := Relation.ReflTransGen (g.Nests d)

variable {d g} {r r' q : RecordRef} {attributes : List Attribute} {among : Set RecordRef}

theorem mem_fieldsAmong {name : String} {v : Value} :
    (name, v) ∈ g.fieldsAmong r attributes ↔
      ∃ a ∈ attributes, a.name = name ∧ g.value? r name = some v := by
  simp only [fieldsAmong, List.mem_filterMap, Option.map_eq_some_iff, Prod.mk.injEq]
  constructor
  · intro h
    obtain ⟨a, ha, v', hv', rfl, rfl⟩ := h
    exact ⟨a, ha, rfl, hv'⟩
  · intro h
    obtain ⟨a, ha, rfl, hv⟩ := h
    exact ⟨a, ha, v, hv, rfl, rfl⟩

theorem keys_fieldsAmong_sublist (g : Graph) (r : RecordRef) (attributes : List Attribute) :
    (Fields.keys (g.fieldsAmong r attributes)).Sublist (attributes.map Attribute.name) := by
  induction attributes with
  | nil => exact .slnil
  | cons a rest ih =>
    simp only [fieldsAmong, List.filterMap_cons, List.map_cons]
    cases g.value? r a.name with
    | none => exact ih.cons _
    | some v => exact ih.cons_cons _

theorem distinct_fieldsOf (hd : d.Lawful) (g : Graph) (r : RecordRef) :
    Fields.Distinct (g.fieldsOf d r) :=
  (hd.definition r.cls).names_nodup.sublist (keys_fieldsAmong_sublist g r _)

theorem nests_of_field {entry : String × Value} (hentry : entry ∈ g.fieldsOf d r)
    (hr' : r' ∈ entry.2.records) : g.Nests d r r' := by
  obtain ⟨a, ha, hname, hv⟩ := mem_fieldsAmong.1 hentry
  refine ⟨a, ha, ?_⟩
  rw [hname]
  exact mem_held.2 ⟨_, hv, hr'⟩

theorem nests_iff_field : g.Nests d r q ↔ ∃ entry ∈ g.fieldsOf d r, q ∈ entry.2.records := by
  constructor
  · intro h
    obtain ⟨a, ha, hheld⟩ := h
    obtain ⟨v, hv, hq⟩ := mem_held.1 hheld
    exact ⟨(a.name, v), mem_fieldsAmong.2 ⟨a, ha, rfl, hv⟩, hq⟩
  · intro h
    obtain ⟨entry, hentry, hq⟩ := h
    exact nests_of_field hentry hq

theorem Sound.nests {known : Set RecordRef} (h : g.Sound known) (hr : r ∈ known)
    (hnests : g.Nests d r r') : r' ∈ known := by
  obtain ⟨a, -, hheld⟩ := hnests
  exact h.held hr hheld

theorem Reaches.mem (hclosed : ∀ r ∈ among, ∀ q, g.Nests d r q → q ∈ among) (hr : r ∈ among)
    (h : g.Reaches d r q) : q ∈ among := by
  induction h with
  | refl => exact hr
  | tail _ hnests ih => exact hclosed _ ih _ hnests

/-- Where each record ranks above those that it holds, none holds itself. -/
theorem acyclic_of_rank (rank : RecordRef → Nat)
    (hclosed : ∀ r ∈ among, ∀ q, g.Nests d r q → q ∈ among)
    (hrank : ∀ r ∈ among, ∀ q, g.Nests d r q → rank q < rank r) (hr : r ∈ among) :
    ¬Relation.TransGen (g.Nests d) r r := by
  have hbelow : ∀ q, Relation.TransGen (g.Nests d) r q → rank q < rank r := by
    intro q hq
    induction hq with
    | single hnests => exact hrank r hr _ hnests
    | tail hreaches hnests ih =>
      have hmem := Reaches.mem hclosed hr hreaches.to_reflTransGen
      exact (hrank _ hmem _ hnests).trans ih
  exact fun h => Nat.lt_irrefl _ (hbelow r h)

end Graph

/-! ### Trees -/

/-- A tree of a value: plain values are as they are, records become objects with their tags and the
attributes that they have set. -/
inductive Depicts (d : Directory) (g : Graph) : Value → Value → Prop
  | leaf {v : Value} (h : v.isLeaf = true) : Depicts d g v v
  | undefined : Depicts d g .undefined .undefined
  | classRef (c : ClassRef) : Depicts d g (.classRef c) (Tree.ofClass c)
  | array {items trees : List Value} (length : items.length = trees.length)
    (h : ∀ (i : Nat) v t, items[i]? = some v → trees[i]? = some t → Depicts d g v t) :
    Depicts d g (.array items) (.array trees)
  | object {fields trees : Object} (names : Fields.keys fields = Fields.keys trees)
    (h : ∀ (i : Nat) v t, (Fields.values fields)[i]? = some v →
      (Fields.values trees)[i]? = some t → Depicts d g v t) :
    Depicts d g (.object fields) (.object trees)
  | record {r : RecordRef} {trees : Object}
    (names : Fields.keys (g.fieldsOf d r) = Fields.keys trees)
    (h : ∀ (i : Nat) v t, (Fields.values (g.fieldsOf d r))[i]? = some v →
      (Fields.values trees)[i]? = some t → Depicts d g v t) :
    Depicts d g (.record r) (.object (g.tagsOf r ++ trees))

namespace Depicts

variable {d : Directory} {g : Graph} {items trees : List Value} {fields fields' : Object}

theorem array_iff :
    Depicts d g (.array items) (.array trees) ↔ List.Forall₂ (Depicts d g) items trees := by
  rw [Fields.forall₂_iff_getElem?]
  constructor
  · intro h
    cases h with
    | leaf hleaf => cases hleaf
    | array length h => exact ⟨length, h⟩
  · exact fun h => .array h.1 h.2

theorem object_of_related (h : Fields.Related (Depicts d g) fields fields') :
    Depicts d g (.object fields) (.object fields') :=
  .object h.keys_eq fun _ _ _ => h.values

theorem record_of_related {r : RecordRef} (h : Fields.Related (Depicts d g) (g.fieldsOf d r) fields) :
    Depicts d g (.record r) (.object (g.tagsOf r ++ fields)) :=
  .record h.keys_eq fun _ _ _ => h.values

end Depicts

/-! ### Encoding -/

namespace Record

variable {d : Directory} {g : Graph} {r : RecordRef} {onRecord : RecordRef → Selector → Action Value}

/-- A value is encoded to a tree of it, if its records are. -/
theorem encode_depicts {v : Value}
    (h : ∀ r ∈ v.records, ∃ t, onRecord r .all g = (.ok t, g) ∧ Depicts d g (.record r) t) :
    ∃ t, v.encode onRecord .all g = (.ok t, g) ∧ Depicts d g v t := by
  induction v using Value.induction with
  | array items ih =>
    have hitems : ∃ trees, Value.encodeItems onRecord .all items g = (.ok trees, g) ∧
        List.Forall₂ (Depicts d g) items trees := by
      have hrecords : ∀ v ∈ items, ∀ r ∈ v.records,
          ∃ t, onRecord r .all g = (.ok t, g) ∧ Depicts d g (.record r) t :=
        fun v hv r hr => h r (Value.mem_records_array.2 ⟨v, hv, hr⟩)
      clear h
      induction items with
      | nil => exact ⟨[], rfl, .nil⟩
      | cons v rest ihRest =>
        obtain ⟨hv, hrest⟩ := List.forall_mem_cons.1 ih
        obtain ⟨hfirst, hlater⟩ := List.forall_mem_cons.1 hrecords
        obtain ⟨t, ht, hdepicts⟩ := hv hfirst
        obtain ⟨trees, htrees, hforall⟩ := ihRest hrest hlater
        refine ⟨t :: trees, ?_, .cons hdepicts hforall⟩
        rw [Value.encodeItems, Stateful.bind_of_ok ht, Stateful.bind_of_ok htrees]
        rfl
    obtain ⟨trees, htrees, hforall⟩ := hitems
    refine ⟨.array trees, ?_, Depicts.array_iff.2 hforall⟩
    rw [Value.encode, Stateful.bind_of_ok htrees]
    rfl
  | object fields ih =>
    have hfields : ∃ trees, Value.encodeFields onRecord fields g = (.ok trees, g) ∧
        Fields.Related (Depicts d g) fields trees := by
      have hrecords : ∀ entry ∈ fields, ∀ r ∈ entry.2.records,
          ∃ t, onRecord r .all g = (.ok t, g) ∧ Depicts d g (.record r) t :=
        fun entry hentry r hr => h r (Value.mem_records_object.2 ⟨entry, hentry, hr⟩)
      clear h
      induction fields with
      | nil => exact ⟨[], rfl, .nil⟩
      | cons entry rest ihRest =>
        obtain ⟨hv, hrest⟩ := List.forall_mem_cons.1 ih
        obtain ⟨hfirst, hlater⟩ := List.forall_mem_cons.1 hrecords
        obtain ⟨t, ht, hdepicts⟩ := hv hfirst
        obtain ⟨trees, htrees, hrelated⟩ := ihRest hrest hlater
        refine ⟨(entry.1, t) :: trees, ?_, .cons ⟨rfl, hdepicts⟩ hrelated⟩
        rw [Value.encodeFields, Stateful.bind_of_ok ht, Stateful.bind_of_ok htrees]
        rfl
    obtain ⟨trees, htrees, hrelated⟩ := hfields
    refine ⟨.object trees, ?_, .object_of_related hrelated⟩
    rw [Value.encode, Stateful.bind_of_ok htrees]
    rfl
  | other v harray hobject =>
    cases v with
    | array items => cases harray
    | object fields => cases hobject
    | record r => exact h r (List.mem_singleton.2 rfl)
    | undefined => exact ⟨_, rfl, .undefined⟩
    | classRef c => exact ⟨_, rfl, .classRef c⟩
    | _ => exact ⟨_, rfl, .leaf rfl⟩

theorem header_remote (r : RecordRef) (g : Graph) : header .remote r g = (.ok (g.tagsOf r), g) := by
  have hread : header .remote r g =
      (.ok (if g.isNew r then
        Fields.insert Tree.newTag (.boolean true) [(Tree.classTag, .string r.className)]
        else [(Tree.classTag, .string r.className)]), g) := by
    have hget : (MonadState.get : Action Graph) g = (.ok g, g) := rfl
    simp only [header, beq_self_eq_true, Bool.true_and]
    rw [Stateful.bind_of_ok hget]
    cases g.isNew r <;> rfl
  rw [hread]
  rfl

/-- The attributes that are set are added one after the other. -/
theorem foldlM_encodeAttribute_depicts (hmade : r.base? = none) {attributes : List Attribute}
    (hnodup : (attributes.map Attribute.name).Nodup)
    (h : ∀ entry ∈ g.fieldsAmong r attributes,
      ∃ t, entry.2.encode onRecord .all g = (.ok t, g) ∧ Depicts d g entry.2 t)
    {acc : Object} (hnew : ∀ a ∈ attributes, a.name ∉ Fields.keys acc) :
    ∃ trees, attributes.foldlM (encodeAttribute onRecord r .all) acc g = (.ok (acc ++ trees), g) ∧
      Fields.Related (Depicts d g) (g.fieldsAmong r attributes) trees := by
  induction attributes generalizing acc with
  | nil =>
    refine ⟨[], ?_, .nil⟩
    rw [List.append_nil]
    rfl
  | cons a rest ih =>
    obtain ⟨hname, hnodupRest⟩ := List.nodup_cons.1 hnodup
    obtain ⟨hfirst, hrest⟩ := List.forall_mem_cons.1 hnew
    rw [List.foldlM_cons]
    cases hv : g.value? r a.name with
    | none =>
      have hsame : g.fieldsAmong r (a :: rest) = g.fieldsAmong r rest := by
        simp [Graph.fieldsAmong, hv]
      have hskipped : encodeAttribute onRecord r .all acc a g = (.ok acc, g) := by
        simp only [encodeAttribute, Selector.get, Selector.isNone, Bool.false_eq_true, if_false]
        rw [Stateful.bind_of_ok (lift_value?_made hmade a.name g), hv]
        rfl
      rw [hsame] at h ⊢
      rw [Stateful.bind_of_ok hskipped]
      exact ih hnodupRest h hrest
    | some v =>
      have hcons : g.fieldsAmong r (a :: rest) = (a.name, v) :: g.fieldsAmong r rest := by
        simp [Graph.fieldsAmong, hv]
      rw [hcons] at h ⊢
      obtain ⟨⟨t, ht, hdepicts⟩, hlater⟩ := List.forall_mem_cons.1 h
      have hadded : encodeAttribute onRecord r .all acc a g =
          (.ok (acc ++ [(a.name, t)]), g) := by
        simp only [encodeAttribute, Selector.get, Selector.isNone, Bool.false_eq_true, if_false]
        rw [Stateful.bind_of_ok (lift_value?_made hmade a.name g), hv]
        dsimp only
        rw [Stateful.bind_of_ok ht, Fields.insert_of_not_mem hfirst]
        rfl
      have hnewRest : ∀ b ∈ rest, b.name ∉ Fields.keys (acc ++ [(a.name, t)]) := by
        intro b hb hmem
        simp only [Fields.keys, List.map_append, List.mem_append, List.map_cons, List.map_nil,
          List.mem_singleton] at hmem
        rcases hmem with hmem | heq
        · exact hrest b hb hmem
        · exact hname (heq ▸ List.mem_map_of_mem hb)
      obtain ⟨trees, htrees, hrelated⟩ := ih hnodupRest hlater hnewRest
      refine ⟨(a.name, t) :: trees, ?_, .cons ⟨rfl, hdepicts⟩ hrelated⟩
      rw [Stateful.bind_of_ok hadded, htrees, List.append_assoc]
      rfl

end Record

/-- Nothing that a record reaches is a fork, holds itself, or has attributes that are named like tags. -/
structure Graph.Treelike (d : Directory) (g : Graph) (r : RecordRef) : Prop where
  made : ∀ q, g.Reaches d r q → q.base? = none
  acyclic : ∀ q, g.Reaches d r q → ¬Relation.TransGen (g.Nests d) q q
  names : ∀ q, g.Reaches d r q → ∀ a ∈ d.attributes q.cls,
    a.name ≠ Tree.classTag ∧ a.name ≠ Tree.newTag

theorem Graph.Treelike.nested {d : Directory} {g : Graph} {r r' : RecordRef} (h : g.Treelike d r)
    (hr' : g.Nests d r r') : g.Treelike d r' where
  made q hq := h.made q (.head hr' hq)
  acyclic q hq := h.acyclic q (.head hr' hq)
  names q hq := h.names q (.head hr' hq)

namespace Record

variable {d : Directory} {g : Graph} {known : Set RecordRef}

/-- The records that are being encoded are different, so there are never more of them than cells. -/
theorem encodeWithin_depicts (hd : d.Lawful) (hg : g.Sound known) {steps : Nat}
    {visiting : List RecordRef} (isRoot : Bool) {r : RecordRef} (hr : r ∈ known)
    (htree : g.Treelike d r)
    (hvisiting : ∀ q ∈ visiting, q ∈ known ∧ Relation.TransGen (g.Nests d) q r)
    (hnodup : visiting.Nodup) (hsteps : g.cells.size < steps + visiting.length) :
    ∃ t, encodeWithin d .remote steps visiting isRoot r .all g = (.ok t, g) ∧
      Depicts d g (.record r) t := by
  induction steps generalizing r visiting isRoot with
  | zero =>
    have hle := hg.length_le (fun q hq => (hvisiting q hq).1) hnodup
    omega
  | succ steps ih =>
    have hunvisited : r ∉ visiting := fun hmem => htree.acyclic r .refl (hvisiting r hmem).2
    have hinside : (visiting.contains r || (!isRoot && Target.remote == .store &&
        (d.definition r.cls).referenceable)) = false := by
      simp [hunvisited]
    have hvalues : ∀ entry ∈ g.fieldsOf d r, ∃ t,
        entry.2.encode (encodeWithin d .remote steps (r :: visiting) false) .all g = (.ok t, g) ∧
          Depicts d g entry.2 t := by
      intro entry hentry
      refine encode_depicts fun q hq => ?_
      have hnests := Graph.nests_of_field hentry hq
      refine ih false (hg.nests hr hnests) (htree.nested hnests) ?_ ?_ ?_
      · intro q' hq'
        rcases List.mem_cons.1 hq' with rfl | hq'
        · exact ⟨hr, .single hnests⟩
        · exact ⟨(hvisiting q' hq').1, (hvisiting q' hq').2.tail hnests⟩
      · exact List.nodup_cons.2 ⟨hunvisited, hnodup⟩
      · rw [List.length_cons]
        omega
    have hnew : ∀ a ∈ d.attributes r.cls, a.name ∉ Fields.keys (g.tagsOf r) := by
      intro a ha hmem
      have hname := htree.names r .refl a ha
      unfold Graph.tagsOf at hmem
      split at hmem <;> simp [Fields.keys, hname.1, hname.2] at hmem
    have hnames : ((d.attributes r.cls).map Attribute.name).Nodup :=
      (hd.definition r.cls).names_nodup
    obtain ⟨trees, htrees, hrelated⟩ :=
      foldlM_encodeAttribute_depicts (htree.made r .refl) hnames hvalues hnew
    refine ⟨.object (g.tagsOf r ++ trees), ?_, .record_of_related hrelated⟩
    simp only [encodeWithin, hinside, Bool.false_eq_true, if_false]
    rw [Stateful.bind_of_ok (header_remote r g), Stateful.bind_of_ok htrees]
    rfl

/-- The tree of a record for a peer. -/
theorem encode_remote (hd : d.Lawful) (hg : g.Sound known) {r : RecordRef} (hr : r ∈ known)
    (htree : g.Treelike d r) :
    ∃ t, encode d .remote .all (.record r) g = (.ok t, g) ∧ Depicts d g (.record r) t := by
  have hsteps : stepsFor .all g = (.ok (g.cells.size + Selector.all.depth + 2), g) := rfl
  unfold encode
  rw [Stateful.bind_of_ok hsteps]
  exact encodeWithin_depicts hd hg true hr htree (by simp) List.nodup_nil
    (by simp only [List.length_nil]; omega)

end Record

end TypedRecords
