import TypedRecords.Proofs.Record.Depicted
import TypedRecords.Proofs.Record.Ending
import TypedRecords.Proofs.Record.Held
import TypedRecords.Proofs.Record.Typed
import TypedRecords.Proofs.Tree.Readable

/-! # Records as plain trees

Records that are no forks are only read while they are encoded, and a record that is being encoded is
not entered again, so encoding always ends. Where it comes to a record that it has to reduce, it needs
an identifier of it; for want of one it fails, and for nothing else. What it gives is a tree without
records and classes, whose objects are tagged records, references and the plain objects that were there.
-/

namespace TypedRecords

/-! ### What encoding comes to -/

/-- Whether a record becomes a reference where encoding comes to it: it is being encoded already, or it
is not the first one and a store holds it in a document of its own. -/
def Target.Reduces (d : Directory) (target : Target) (visiting : List RecordRef) (isRoot : Bool)
    (r : RecordRef) : Prop :=
  r ∈ visiting ∨ isRoot = false ∧ target = .store ∧ (d.definition r.cls).referenceable = true

namespace Graph

variable (d : Directory) (g : Graph)

/-- The tags of a record in a tree. -/
def tagsFor : Target → RecordRef → Object
  | .remote, r => g.tagsOf r
  | .store, r => [(Tree.classTag, .string r.className)]

/-- The attributes of a record that are set and of which something is selected, in order. -/
def chosenFields (s : Selector) (r : RecordRef) : Object :=
  g.fieldsAmong r ((d.attributes r.cls).filter fun a => !(s.get a.name).isNone)

/-- Encoding one record comes to another that it has to reduce. -/
inductive Meets (target : Target) :
    List RecordRef → Bool → RecordRef → Selector → RecordRef → Prop
  | here {visiting : List RecordRef} {isRoot : Bool} {r : RecordRef} {s : Selector}
    (reduced : target.Reduces d visiting isRoot r) : Meets target visiting isRoot r s r
  | inside {visiting : List RecordRef} {isRoot : Bool} {r q x : RecordRef} {s t : Selector}
    {field : String × Value} (whole : ¬target.Reduces d visiting isRoot r)
    (chosen : field ∈ g.chosenFields d s r) (enters : field.2.Enters (s.get field.1) q t)
    (meets : Meets target (r :: visiting) false q t x) : Meets target visiting isRoot r s x

/-- Encoding a value comes to a record that it has to reduce. -/
def MeetsIn (target : Target) (s : Selector) : Value → RecordRef → Prop
  | .record r, x => g.Meets d target [] true r s x
  | v, x => ∃ q t, v.Enters s q t ∧ g.Meets d target [] false q t x

end Graph

/-! ### Trees -/

/-- The tree that encoding makes of a value while some records are being encoded. -/
inductive Serialized (d : Directory) (g : Graph) (target : Target) :
    List RecordRef → Bool → Selector → Value → Value → Prop
  | leaf {visiting : List RecordRef} {isRoot : Bool} {s : Selector} {v : Value}
    (leaf : v.isLeaf = true) : Serialized d g target visiting isRoot s v v
  | undefined {visiting : List RecordRef} {isRoot : Bool} {s : Selector} :
    Serialized d g target visiting isRoot s .undefined .undefined
  | classRef {visiting : List RecordRef} {isRoot : Bool} {s : Selector} (c : ClassRef) :
    Serialized d g target visiting isRoot s (.classRef c) (Tree.ofClass c)
  | array {visiting : List RecordRef} {isRoot : Bool} {s : Selector} {items trees : List Value}
    (length : items.length = trees.length)
    (each : ∀ (i : Nat) v t, items[i]? = some v → trees[i]? = some t →
      Serialized d g target visiting false s v t) :
    Serialized d g target visiting isRoot s (.array items) (.array trees)
  | object {visiting : List RecordRef} {isRoot : Bool} {s : Selector} {fields trees : Object}
    (names : Fields.keys fields = Fields.keys trees)
    (each : ∀ (i : Nat) field tree, fields[i]? = some field → trees[i]? = some tree →
      Serialized d g target visiting false .all field.2 tree.2) :
    Serialized d g target visiting isRoot s (.object fields) (.object trees)
  | reference {visiting : List RecordRef} {isRoot : Bool} {s : Selector} {r : RecordRef}
    {identifier : String × Value} (reduced : target.Reduces d visiting isRoot r)
    (identified : g.identifier? d r = some identifier) :
    Serialized d g target visiting isRoot s (.record r)
      (.object (g.tagsFor target r ++ [identifier]))
  | record {visiting : List RecordRef} {isRoot : Bool} {s : Selector} {r : RecordRef}
    {trees : Object} (whole : ¬target.Reduces d visiting isRoot r)
    (names : Fields.keys (g.chosenFields d s r) = Fields.keys trees)
    (each : ∀ (i : Nat) field tree, (g.chosenFields d s r)[i]? = some field →
      trees[i]? = some tree →
      Serialized d g target (r :: visiting) false (s.get field.1) field.2 tree.2) :
    Serialized d g target visiting isRoot s (.record r) (.object (g.tagsFor target r ++ trees))

/-! ### Actions that need identifiers -/

/-- The action leaves the graph as it is, and it fails exactly if one of some records has no
identifier, which the error then says. -/
def Yields {α : Type} (d : Directory) (g : Graph) (M : RecordRef → Prop) (x : Action α)
    (Q : α → Prop) : Prop :=
  (∃ a, x g = (.ok a, g) ∧ Q a ∧ ∀ q, M q → (g.identifier? d q).isSome = true) ∨
    ∃ q, M q ∧ g.identifier? d q = none ∧ x g = (.error (.missingIdentifier q.className), g)

namespace Yields

variable {α β : Type} {d : Directory} {g : Graph} {M N : RecordRef → Prop} {x : Action α}
  {f : α → Action β} {Q : α → Prop} {R : β → Prop}

theorem pure {a : α} (ha : Q a) (hM : ∀ q, ¬M q) : Yields d g M (Pure.pure a : Action α) Q :=
  .inl ⟨a, rfl, ha, fun q hq => absurd hq (hM q)⟩

theorem imp (h : Yields d g M x Q) {Q' : α → Prop} (hQ : ∀ a, Q a → Q' a) : Yields d g M x Q' := by
  obtain ⟨a, hrun, ha, hall⟩ | hfails := h
  · exact .inl ⟨a, hrun, hQ a ha, hall⟩
  · exact .inr hfails

theorem congr (h : Yields d g M x Q) (hM : ∀ q, N q ↔ M q) : Yields d g N x Q := by
  have heq : N = M := funext fun q => propext (hM q)
  rwa [heq]

theorem bind (hx : Yields d g M x Q) (hf : ∀ a, Q a → Yields d g N (f a) R) :
    Yields d g (fun q => M q ∨ N q) (x >>= f) R := by
  obtain ⟨a, hrun, ha, hall⟩ | ⟨q, hq, hmissing, hrun⟩ := hx
  · obtain ⟨b, hlater, hb, hall'⟩ | ⟨q, hq, hmissing, hlater⟩ := hf a ha
    · refine .inl ⟨b, ?_, hb, fun q hq => hq.elim (hall q) (hall' q)⟩
      rw [Stateful.bind_of_ok hrun, hlater]
    · refine .inr ⟨q, .inr hq, hmissing, ?_⟩
      rw [Stateful.bind_of_ok hrun, hlater]
  · exact .inr ⟨q, .inl hq, hmissing, Stateful.bind_of_error hrun⟩

theorem map (hx : Yields d g M x Q) {f : α → β} (hf : ∀ a, Q a → R (f a)) :
    Yields d g M (do Pure.pure (f (← x))) R :=
  (hx.bind fun a ha => .pure (M := fun _ => False) (hf a ha) (by simp)).congr (by simp)

/-- A first step that only reads. -/
theorem of_read {a : α} (hread : x g = (.ok a, g)) (hf : Yields d g N (f a) R) :
    Yields d g N (x >>= f) R := by
  unfold Yields
  rwa [Stateful.bind_of_ok hread]

end Yields

/-! ### Encoding values -/

section

variable {d : Directory} {g : Graph} {onRecord : RecordRef → Selector → Action Value} {s : Selector}

theorem encodeItems_yields {M : Value → RecordRef → Prop} {R : Value → Value → Prop}
    {items : List Value} (h : ∀ v ∈ items, Yields d g (M v) (v.encode onRecord s) (R v)) :
    Yields d g (fun q => ∃ v ∈ items, M v q) (Value.encodeItems onRecord s items)
      (List.Forall₂ R items) := by
  induction items with
  | nil => exact .pure .nil (by simp)
  | cons v rest ih =>
    obtain ⟨hv, hrest⟩ := List.forall_mem_cons.1 h
    have hall := hv.bind fun t ht => (ih hrest).map fun ts hts => List.Forall₂.cons ht hts
    exact hall.congr (by simp)

theorem encodeFields_yields {M : Value → RecordRef → Prop} {R : Value → Value → Prop}
    {fields : Object}
    (h : ∀ field ∈ fields, Yields d g (M field.2) (field.2.encode onRecord .all) (R field.2)) :
    Yields d g (fun q => ∃ field ∈ fields, M field.2 q) (Value.encodeFields onRecord fields)
      (Fields.Related R fields) := by
  induction fields with
  | nil => exact .pure .nil (by simp)
  | cons field rest ih =>
    obtain ⟨hfield, hrest⟩ := List.forall_mem_cons.1 h
    have hall := hfield.bind fun t ht => (ih hrest).map (f := fun ts => (field.1, t) :: ts)
      (R := Fields.Related R (field :: rest)) fun ts hts => .cons ⟨rfl, ht⟩ hts
    exact hall.congr (by simp)

/-- Encoding a value needs the identifiers that are needed for the records in it. -/
theorem encodeValue_yields {target : Target} {visiting : List RecordRef} {isRoot : Bool}
    {M : RecordRef → Selector → RecordRef → Prop} {v : Value}
    (hroot : ∀ r, v ≠ .record r ∨ isRoot = false)
    (h : ∀ q t, v.Enters s q t → Yields d g (M q t) (onRecord q t)
      (Serialized d g target visiting false t (.record q))) :
    Yields d g (fun x => ∃ q t, v.Enters s q t ∧ M q t x) (v.encode onRecord s)
      (Serialized d g target visiting isRoot s v) := by
  induction v using Value.induction generalizing s isRoot with
  | array items ih =>
    have hall := encodeItems_yields fun v hv =>
      ih v hv (fun _ => .inr rfl) fun q t henters => h q t (.item hv henters)
    refine (hall.map (f := Value.array) (R := Serialized d g target visiting isRoot s (.array items))
      fun trees htrees => ?_).congr fun x => ?_
    · obtain ⟨hlength, heach⟩ := Fields.forall₂_iff_getElem?.1 htrees
      exact .array hlength heach
    · simp only [Value.enters_array_iff]
      grind
  | object fields ih =>
    have hall := encodeFields_yields (M := fun v x => ∃ q t, v.Enters .all q t ∧ M q t x)
      (R := Serialized d g target visiting false .all) fun field hfield => ih field hfield
        (fun _ => .inr rfl) fun q t henters => h q t (.field hfield henters)
    refine (hall.map (f := Value.object) (R := Serialized d g target visiting isRoot s (.object fields))
      fun trees htrees => ?_).congr fun x => ?_
    · exact .object htrees.keys_eq fun i field tree hfield htree =>
        ((Fields.forall₂_iff_getElem?.1 htrees).2 i field tree hfield htree).2
    · simp only [Value.enters_object_iff]
      constructor
      · intro h
        obtain ⟨q, t, ⟨field, hfield, henters⟩, hM⟩ := h
        exact ⟨field, hfield, q, t, henters, hM⟩
      · intro h
        obtain ⟨field, hfield, q, t, henters, hM⟩ := h
        exact ⟨q, t, ⟨field, hfield, henters⟩, hM⟩
  | other v harray hobject =>
    cases v with
    | array items => cases harray
    | object fields => cases hobject
    | record r =>
      obtain hne | rfl := hroot r
      · exact absurd rfl hne
      · exact (h r s .record).congr (by simp [Value.enters_record_iff])
    | undefined => exact .pure .undefined (by rintro x ⟨q, t, henters, -⟩; cases henters)
    | classRef c => exact .pure (.classRef c) (by rintro x ⟨q, t, henters, -⟩; cases henters)
    | _ => exact .pure (.leaf rfl) (by rintro x ⟨q, t, henters, -⟩; cases henters)

end

/-! ### Encoding records -/

namespace Record

variable {d : Directory} {g : Graph} {target : Target} {r : RecordRef} {s : Selector}
  {onRecord : RecordRef → Selector → Action Value}

theorem header_run (target : Target) (r : RecordRef) (g : Graph) :
    header target r g = (.ok (g.tagsFor target r), g) := by
  cases target with
  | remote => exact header_remote r g
  | store => rfl

theorem not_mem_tagsFor (g : Graph) (target : Target) (r : RecordRef) {name : String}
    (h : name ≠ Tree.classTag ∧ name ≠ Tree.newTag) :
    name ∉ Fields.keys (g.tagsFor target r) := by
  cases target with
  | store => simp [Graph.tagsFor, Fields.keys, h.1]
  | remote =>
    simp only [Graph.tagsFor, Graph.tagsOf]
    split <;> simp [Fields.keys, h.1, h.2]

theorem encodeReference_yields (hmade : r.base? = none)
    (hnames : ∀ a ∈ d.attributes r.cls, a.name ≠ Tree.classTag ∧ a.name ≠ Tree.newTag) :
    Yields d g (fun x => x = r) (encodeReference d target r) fun t =>
      ∃ identifier, g.identifier? d r = some identifier ∧
        t = .object (g.tagsFor target r ++ [identifier]) := by
  unfold encodeReference
  refine .of_read (header_run target r g) ?_
  have hdescriptor := descriptor_made (d := d) hmade g
  cases hidentifier : g.identifier? d r with
  | none =>
    simp only [hidentifier] at hdescriptor
    exact .inr ⟨r, rfl, hidentifier, Stateful.bind_of_error hdescriptor⟩
  | some identifier =>
    simp only [hidentifier] at hdescriptor
    obtain ⟨⟨a, ha, hname⟩, -⟩ := Graph.identifier?_eq_some hidentifier
    have hnew := not_mem_tagsFor g target r
      (hnames a (Definition.mem_attributeList_of_identifier ha))
    rw [hname] at hnew
    refine .inl ⟨.object (g.tagsFor target r ++ [identifier]), ?_, ⟨identifier, rfl, rfl⟩, ?_⟩
    · rw [Stateful.bind_of_ok hdescriptor, Fields.insertAll, List.foldl_cons, List.foldl_nil,
        Fields.insert_of_not_mem hnew]
      rfl
    · rintro q rfl
      simp [hidentifier]

/-- The chosen attributes are added one after the other. -/
theorem foldlM_encodeAttribute_yields (hmade : r.base? = none) {attributes : List Attribute}
    (hnodup : (attributes.map Attribute.name).Nodup) {M : String × Value → RecordRef → Prop}
    {R : String × Value → Value → Prop}
    (h : ∀ field ∈ g.fieldsAmong r (attributes.filter fun a => !(s.get a.name).isNone),
      Yields d g (M field) (field.2.encode onRecord (s.get field.1)) (R field))
    {acc : Object} (hnew : ∀ a ∈ attributes, a.name ∉ Fields.keys acc) :
    Yields d g
      (fun x => ∃ field ∈ g.fieldsAmong r (attributes.filter fun a => !(s.get a.name).isNone),
        M field x)
      (attributes.foldlM (encodeAttribute onRecord r s) acc)
      fun fields => ∃ trees, fields = acc ++ trees ∧
        List.Forall₂ (fun field tree => field.1 = tree.1 ∧ R field tree.2)
          (g.fieldsAmong r (attributes.filter fun a => !(s.get a.name).isNone)) trees := by
  induction attributes generalizing acc with
  | nil => exact .pure ⟨[], by simp, .nil⟩ (by simp [Graph.fieldsAmong])
  | cons a rest ih =>
    obtain ⟨hname, hnodupRest⟩ := List.nodup_cons.1 hnodup
    obtain ⟨hfirst, hrest⟩ := List.forall_mem_cons.1 hnew
    rw [List.foldlM_cons]
    cases hselected : (s.get a.name).isNone with
    | true =>
      have hskipped : encodeAttribute onRecord r s acc a g = (.ok acc, g) := by
        simp only [encodeAttribute, hselected, if_true]
        rfl
      simp only [List.filter_cons, hselected, Bool.not_true, Bool.false_eq_true, if_false] at h ⊢
      exact .of_read hskipped (ih hnodupRest h hrest)
    | false =>
      simp only [List.filter_cons, hselected, Bool.not_false, if_true] at h ⊢
      cases hv : g.value? r a.name with
      | none =>
        have hskipped : encodeAttribute onRecord r s acc a g = (.ok acc, g) := by
          simp only [encodeAttribute, hselected, Bool.false_eq_true, if_false]
          rw [Stateful.bind_of_ok (lift_value?_made hmade a.name g), hv]
          rfl
        simp only [Graph.fieldsAmong, List.filterMap_cons, hv, Option.map_none] at h ⊢
        exact .of_read hskipped (ih hnodupRest h hrest)
      | some v =>
        simp only [Graph.fieldsAmong, List.filterMap_cons, hv, Option.map_some] at h ⊢
        obtain ⟨hvalue, hlater⟩ := List.forall_mem_cons.1 h
        have hadded : Yields d g (M (a.name, v)) (encodeAttribute onRecord r s acc a)
            fun acc' => ∃ t, acc' = acc ++ [(a.name, t)] ∧ R (a.name, v) t := by
          simp only [encodeAttribute, hselected, Bool.false_eq_true, if_false]
          refine .of_read (lift_value?_made hmade a.name g) ?_
          simp only [hv]
          exact hvalue.map fun t ht => ⟨t, Fields.insert_of_not_mem hfirst t, ht⟩
        refine (hadded.bind (N := fun x => ∃ field ∈ g.fieldsAmong r
          (rest.filter fun a => !(s.get a.name).isNone), M field x) fun acc' hacc' => ?_).congr
            fun x => List.exists_mem_cons_iff _ _ _
        obtain ⟨t, rfl, ht⟩ := hacc'
        have hnewRest : ∀ b ∈ rest, b.name ∉ Fields.keys (acc ++ [(a.name, t)]) := by
          intro b hb hmem
          simp only [Fields.keys, List.map_append, List.mem_append, List.map_cons, List.map_nil,
            List.mem_singleton] at hmem
          obtain hmem | heq := hmem
          · exact hrest b hb hmem
          · exact hname (heq ▸ List.mem_map_of_mem hb)
        refine (ih hnodupRest hlater hnewRest).imp fun fields hfields => ?_
        obtain ⟨trees, rfl, hrelated⟩ := hfields
        exact ⟨(a.name, t) :: trees, by simp, .cons ⟨rfl, ht⟩ hrelated⟩

variable {known : Set RecordRef}

/-- The records that are being encoded are different, so there are never more of them than cells. -/
theorem encodeWithin_yields (hd : d.Lawful) (hg : g.Sound known)
    (hmade : ∀ r ∈ known, r.base? = none)
    (hnames : ∀ c, ∀ a ∈ d.attributes c, a.name ≠ Tree.classTag ∧ a.name ≠ Tree.newTag)
    (target : Target) {steps : Nat} {visiting : List RecordRef} (isRoot : Bool) {r : RecordRef}
    (s : Selector) (hr : r ∈ known) (hvisiting : ∀ q ∈ visiting, q ∈ known)
    (hnodup : visiting.Nodup) (hsteps : g.cells.size < steps + visiting.length) :
    Yields d g (g.Meets d target visiting isRoot r s)
      (encodeWithin d target steps visiting isRoot r s)
      (Serialized d g target visiting isRoot s (.record r)) := by
  induction steps generalizing r s visiting isRoot with
  | zero =>
    have hle := hg.length_le hvisiting hnodup
    omega
  | succ steps ih =>
    have hreduced : (visiting.contains r || (!isRoot && target == .store &&
        (d.definition r.cls).referenceable)) = true ↔ target.Reduces d visiting isRoot r := by
      simp [Target.Reduces, and_assoc]
    simp only [encodeWithin]
    split
    · next h =>
      rw [hreduced] at h
      refine ((encodeReference_yields (hmade r hr) (hnames r.cls)).imp fun t ht => ?_).congr
        fun x => ?_
      · obtain ⟨identifier, hidentifier, rfl⟩ := ht
        exact .reference h hidentifier
      · constructor
        · intro hmeets
          cases hmeets with
          | here => rfl
          | inside whole => exact absurd h whole
        · rintro rfl
          exact .here h
    · next h =>
      rw [hreduced] at h
      have hunvisited : r ∉ visiting := fun hmem => h (.inl hmem)
      have hfields : ∀ field ∈ g.chosenFields d s r, Yields d g
          (fun x => ∃ q t, field.2.Enters (s.get field.1) q t ∧
            g.Meets d target (r :: visiting) false q t x)
          (field.2.encode (encodeWithin d target steps (r :: visiting) false) (s.get field.1))
          (Serialized d g target (r :: visiting) false (s.get field.1) field.2) := by
        intro field hfield
        refine encodeValue_yields (fun _ => .inr rfl) fun q t henters => ?_
        obtain ⟨a, -, -, hv⟩ := Graph.mem_fieldsAmong.1 hfield
        refine ih false t (hg.value hr hv q henters.mem) ?_ ?_ ?_
        · simpa [hr] using hvisiting
        · exact List.nodup_cons.2 ⟨hunvisited, hnodup⟩
        · rw [List.length_cons]
          omega
      refine .of_read (header_run target r g) ?_
      have hnew : ∀ a ∈ d.attributes r.cls, a.name ∉ Fields.keys (g.tagsFor target r) :=
        fun a ha => not_mem_tagsFor g target r (hnames r.cls a ha)
      have hall := foldlM_encodeAttribute_yields (hmade r hr) (hd.definition r.cls).names_nodup hfields
        hnew
      refine (hall.map (f := Value.object)
        (R := Serialized d g target visiting isRoot s (.record r)) fun fields hfields => ?_).congr
        fun x => ?_
      · obtain ⟨trees, rfl, hrelated⟩ := hfields
        obtain ⟨hlength, heach⟩ := Fields.forall₂_iff_getElem?.1 hrelated
        have hnamed : Fields.Related (fun _ _ => True) (g.chosenFields d s r) trees :=
          hrelated.imp fun _ _ hfield => ⟨hfield.1, trivial⟩
        exact .record h hnamed.keys_eq fun i field tree hfield htree =>
          (heach i field tree hfield htree).2
      · constructor
        · intro hmeets
          cases hmeets with
          | here reduced => exact absurd reduced h
          | inside _ chosen enters meets => exact ⟨_, chosen, _, _, enters, meets⟩
        · rintro ⟨field, chosen, q, t, enters, meets⟩
          exact .inside h chosen enters meets

end Record

/-! ### Objects in trees -/

/-- The object occurs in the value. -/
inductive Value.Contains (o : Object) : Value → Prop
  | self : Contains o (.object o)
  | item {items : List Value} {v : Value} (hv : v ∈ items) (h : Contains o v) :
    Contains o (.array items)
  | field {fields : Object} {entry : String × Value} (hentry : entry ∈ fields)
    (h : Contains o entry.2) : Contains o (.object fields)

theorem Value.not_contains_of_isLeaf {v : Value} (hv : v.isLeaf = true) (o : Object) :
    ¬v.Contains o := by
  intro h
  cases h <;> cases hv

theorem Value.hasReferences_of_isLeaf {v : Value} (h : v.isLeaf = true) :
    v.hasReferences = false := by
  cases v <;> first | rfl | cases h

/-- An object occurs in the value or in what a known record holds. -/
def Graph.Offers (g : Graph) (known : Set RecordRef) (v : Value) (o : Object) : Prop :=
  v.Contains o ∨ ∃ r ∈ known, ∃ name w, g.value? r name = some w ∧ w.Contains o

theorem Fields.exists_getElem?_of_keys_eq {α β : Type} {a : Fields α} {b : Fields β}
    (h : Fields.keys a = Fields.keys b) {i : Nat} {entry : String × β} (hi : b[i]? = some entry) :
    ∃ first, a[i]? = some first ∧ first.1 = entry.1 := by
  have hname : (Fields.keys a)[i]? = some entry.1 := by
    rw [h, Fields.keys, List.getElem?_map, hi]
    rfl
  rw [Fields.keys, List.getElem?_map, Option.map_eq_some_iff] at hname
  exact hname

namespace Serialized

variable {d : Directory} {g : Graph} {target : Target} {known : Set RecordRef}
  {visiting : List RecordRef} {isRoot : Bool} {s : Selector} {v t : Value} {r x : RecordRef}

/-- What a chosen attribute holds consists of known records. -/
theorem within_chosen (hg : g.Sound known) (hr : r ∈ known) {field : String × Value}
    (hfield : field ∈ g.chosenFields d s r) :
    g.value? r field.1 = some field.2 ∧ field.2.Within known := by
  obtain ⟨a, -, -, hv⟩ := Graph.mem_fieldsAmong.1 hfield
  exact ⟨hv, hg.value hr hv⟩

/-- An identifier is a key, without parts. -/
theorem isLeaf_identifier (hg : g.Typed d known) (hr : r ∈ known) {identifier : String × Value}
    (h : g.identifier? d r = some identifier) : identifier.2.isLeaf = true := by
  obtain ⟨⟨a, ha, hname⟩, hseen, hdefined⟩ := Graph.identifier?_eq_some h
  obtain hundefined | hkey := hg.seen hr hseen a ha hname
  · exact absurd hundefined hdefined
  · exact Value.isLeaf_of_isKey hkey

theorem isLeaf_tagsFor {entry : String × Value} (h : entry ∈ g.tagsFor target r) :
    entry.2.isLeaf = true := by
  cases target with
  | store => simp_all [Graph.tagsFor, Value.isLeaf]
  | remote =>
    simp only [Graph.tagsFor, Graph.tagsOf] at h
    split at h <;> simp at h <;> grind [Value.isLeaf]

theorem not_contains_tag {entry : String × Value} (h : entry ∈ g.tagsFor target r) (o : Object) :
    ¬entry.2.Contains o :=
  Value.not_contains_of_isLeaf (isLeaf_tagsFor h) o

theorem newTag_not_mem_tags (r : RecordRef) : Tree.newTag ∉ Fields.keys (g.tagsFor .store r) := by
  intro h
  have heq : Tree.newTag = Tree.classTag := List.mem_singleton.1 h
  exact absurd heq (by decide)

theorem hasReferences_eq_false (hg : g.Typed d known)
    (h : Serialized d g target visiting isRoot s v t) (hv : v.Within known) :
    t.hasReferences = false := by
  induction h with
  | leaf hleaf => exact Value.hasReferences_of_isLeaf hleaf
  | undefined => rfl
  | classRef c => rfl
  | @array _ _ _ items trees hlength heach ih =>
    rw [Value.hasReferences_array]
    intro t ht
    obtain ⟨i, hi⟩ := List.mem_iff_getElem?.1 ht
    have hbound := (List.getElem?_eq_some_iff.1 hi).1
    have hitem := List.getElem?_eq_getElem (hlength ▸ hbound : i < items.length)
    exact ih i _ t hitem hi fun r hr => hv r (Value.mem_records_array.2
      ⟨_, List.mem_of_getElem? hitem, hr⟩)
  | object hnames heach ih =>
    rw [Value.hasReferences_object]
    intro tree htree
    obtain ⟨i, hi⟩ := List.mem_iff_getElem?.1 htree
    obtain ⟨field, hfield, -⟩ := Fields.exists_getElem?_of_keys_eq hnames hi
    exact ih i field tree hfield hi fun r hr => hv r (Value.mem_records_object.2
      ⟨_, List.mem_of_getElem? hfield, hr⟩)
  | reference reduced hidentified =>
    rw [Value.hasReferences_object]
    intro entry hentry
    apply Value.hasReferences_of_isLeaf
    obtain htag | hidentifier := List.mem_append.1 hentry
    · exact isLeaf_tagsFor htag
    · rw [List.mem_singleton.1 hidentifier]
      exact isLeaf_identifier hg (hv _ (List.mem_singleton.2 rfl)) hidentified
  | record whole hnames heach ih =>
    rw [Value.hasReferences_object]
    intro entry hentry
    obtain htag | htree := List.mem_append.1 hentry
    · exact Value.hasReferences_of_isLeaf (isLeaf_tagsFor htag)
    · obtain ⟨i, hi⟩ := List.mem_iff_getElem?.1 htree
      obtain ⟨field, hfield, -⟩ := Fields.exists_getElem?_of_keys_eq hnames hi
      exact ih i field entry hfield hi (within_chosen hg.sound (hv _ (List.mem_singleton.2 rfl))
        (List.mem_of_getElem? hfield)).2

/-- For a store, an object that says whether it is new is a plain object that did so. -/
theorem offers_of_new (hg : g.Typed d known)
    (hnames : ∀ c, ∀ a ∈ d.attributes c, a.name ≠ Tree.classTag ∧ a.name ≠ Tree.newTag)
    (h : Serialized d g .store visiting isRoot s v t) (hv : v.Within known) {o : Object}
    (ho : t.Contains o) (hnew : Tree.newTag ∈ Fields.keys o) :
    ∃ source, g.Offers known v source ∧ Fields.keys source = Fields.keys o := by
  induction h with
  | leaf hleaf => exact absurd ho (Value.not_contains_of_isLeaf hleaf o)
  | undefined => cases ho
  | classRef c =>
    cases ho with
    | self => simp [Fields.keys, Tree.classTag, Tree.newTag] at hnew
    | field hentry ho =>
      rw [List.mem_singleton.1 hentry] at ho
      cases ho
  | @array _ _ _ items trees hlength heach ih =>
    cases ho with
    | item ht ho =>
      obtain ⟨i, hi⟩ := List.mem_iff_getElem?.1 ht
      have hbound := (List.getElem?_eq_some_iff.1 hi).1
      have hitem := List.getElem?_eq_getElem (hlength ▸ hbound : i < items.length)
      have hmem := List.mem_of_getElem? hitem
      obtain ⟨source, hoffers, hkeys⟩ := ih i _ _ hitem hi
        (fun r hr => hv r (Value.mem_records_array.2 ⟨_, hmem, hr⟩)) ho
      exact ⟨source, hoffers.imp_left (.item hmem), hkeys⟩
  | @object _ _ _ fields trees hkeys heach ih =>
    cases ho with
    | self => exact ⟨fields, .inl .self, hkeys⟩
    | field htree ho =>
      obtain ⟨i, hi⟩ := List.mem_iff_getElem?.1 htree
      obtain ⟨field, hfield, -⟩ := Fields.exists_getElem?_of_keys_eq hkeys hi
      have hmem := List.mem_of_getElem? hfield
      obtain ⟨source, hoffers, hsame⟩ := ih i field _ hfield hi
        (fun r hr => hv r (Value.mem_records_object.2 ⟨_, hmem, hr⟩)) ho
      exact ⟨source, hoffers.imp_left (.field hmem), hsame⟩
  | @reference _ _ _ r identifier reduced hidentified =>
    have hr := hv r (List.mem_singleton.2 rfl)
    cases ho with
    | self =>
      obtain ⟨⟨a, ha, hname⟩, -⟩ := Graph.identifier?_eq_some hidentified
      have hne := (hnames r.cls a (Definition.mem_attributeList_of_identifier ha)).2
      rw [Fields.keys, List.map_append, List.mem_append] at hnew
      obtain hnew | hnew := hnew
      · exact absurd hnew (newTag_not_mem_tags r)
      · rw [hname, ← List.mem_singleton.1 hnew] at hne
        exact absurd rfl hne
    | field hentry ho =>
      obtain htagged | hidentifier := List.mem_append.1 hentry
      · exact absurd ho (not_contains_tag htagged o)
      · rw [List.mem_singleton.1 hidentifier] at ho
        exact absurd ho (Value.not_contains_of_isLeaf (isLeaf_identifier hg hr hidentified) o)
  | @record _ _ s r trees whole hkeys heach ih =>
    have hr := hv r (List.mem_singleton.2 rfl)
    cases ho with
    | self =>
      rw [Fields.keys, List.map_append, List.mem_append] at hnew
      obtain hnew | hnew := hnew
      · exact absurd hnew (newTag_not_mem_tags r)
      · rw [← Fields.keys, ← hkeys] at hnew
        obtain ⟨⟨name, w⟩, hfield, hname⟩ := List.mem_map.1 hnew
        obtain ⟨a, ha, haname, -⟩ := Graph.mem_fieldsAmong.1 hfield
        exact absurd (haname.trans hname) (hnames r.cls a (List.mem_filter.1 ha).1).2
    | field hentry ho =>
      obtain htagged | htree := List.mem_append.1 hentry
      · exact absurd ho (not_contains_tag htagged o)
      · obtain ⟨i, hi⟩ := List.mem_iff_getElem?.1 htree
        obtain ⟨field, hfield, -⟩ := Fields.exists_getElem?_of_keys_eq hkeys hi
        obtain ⟨hvalue, hwithin⟩ := within_chosen hg.sound hr (List.mem_of_getElem? hfield)
        obtain ⟨source, hoffers, hsame⟩ := ih i field _ hfield hi hwithin ho
        refine ⟨source, .inr ?_, hsame⟩
        obtain hinside | hknown := hoffers
        · exact ⟨r, hr, field.1, field.2, hvalue, hinside⟩
        · exact hknown

/-- The tree of a record that is entered is a part of the tree. -/
theorem of_enters {q : RecordRef} {u : Selector} (henters : v.Enters s q u)
    (h : Serialized d g target visiting isRoot s v t)
    (hroot : ∀ r, v ≠ .record r ∨ isRoot = false) :
    ∃ part, Serialized d g target visiting false u (.record q) part ∧
      ∀ o, part.Contains o → t.Contains o := by
  induction henters generalizing isRoot t with
  | record =>
    obtain hne | rfl := hroot _
    · exact absurd rfl hne
    · exact ⟨t, h, fun _ ho => ho⟩
  | @item s u items v q hv henters ih =>
    cases h with
    | leaf hleaf => cases hleaf
    | @array _ _ _ _ trees hlength heach =>
      obtain ⟨i, hi⟩ := List.mem_iff_getElem?.1 hv
      have hbound := (List.getElem?_eq_some_iff.1 hi).1
      have htree := List.getElem?_eq_getElem (hlength ▸ hbound : i < trees.length)
      obtain ⟨part, hpart, hcontains⟩ := ih (heach i v _ hi htree) fun _ => .inr rfl
      exact ⟨part, hpart, fun o ho => .item (List.mem_of_getElem? htree) (hcontains o ho)⟩
  | @field s u fields entry q hentry henters ih =>
    cases h with
    | leaf hleaf => cases hleaf
    | @object _ _ _ _ trees hnames heach =>
      obtain ⟨i, hi⟩ := List.mem_iff_getElem?.1 hentry
      obtain ⟨tree, htree, -⟩ := Fields.exists_getElem?_of_keys_eq hnames.symm hi
      obtain ⟨part, hpart, hcontains⟩ := ih (heach i entry tree hi htree) fun _ => .inr rfl
      exact ⟨part, hpart, fun o ho => .field (List.mem_of_getElem? htree) (hcontains o ho)⟩

/-- A record that has to be reduced is in the tree as its tags and one identifier. -/
theorem contains_reference (hmeets : g.Meets d target visiting isRoot r s x)
    (h : Serialized d g target visiting isRoot s (.record r) t) :
    ∃ identifier, g.identifier? d x = some identifier ∧
      t.Contains (g.tagsFor target x ++ [identifier]) := by
  induction hmeets generalizing t with
  | here reduced =>
    cases h with
    | leaf hleaf => cases hleaf
    | reference _ identified => exact ⟨_, identified, .self⟩
    | record whole => exact absurd reduced whole
  | inside whole chosen enters _ ih =>
    cases h with
    | leaf hleaf => cases hleaf
    | reference reduced => exact absurd reduced whole
    | @record _ _ _ _ trees _ hnames heach =>
      obtain ⟨i, hi⟩ := List.mem_iff_getElem?.1 chosen
      obtain ⟨tree, htree, -⟩ := Fields.exists_getElem?_of_keys_eq hnames.symm hi
      obtain ⟨part, hpart, hcontains⟩ :=
        of_enters enters (heach i _ tree hi htree) fun _ => .inr rfl
      obtain ⟨identifier, hidentifier, ho⟩ := ih hpart
      exact ⟨identifier, hidentifier,
        .field (List.mem_append_right _ (List.mem_of_getElem? htree)) (hcontains _ ho)⟩

end Serialized

/-! ### Trees on the wire -/

/-- A value without records and classes has a wire form. -/
theorem Value.exists_toJson {v : Value} (h : v.hasReferences = false) : ∃ j, v.toJson = .ok j := by
  induction v using Value.induction with
  | array items ih =>
    rw [hasReferences_array] at h
    have hitems : ∃ js, itemsToJson items = .ok js := by
      induction items with
      | nil => exact ⟨[], rfl⟩
      | cons v rest ihRest =>
        obtain ⟨hv, hrest⟩ := List.forall_mem_cons.1 ih
        obtain ⟨hplain, hplainRest⟩ := List.forall_mem_cons.1 h
        obtain ⟨j, hj⟩ := hv hplain
        obtain ⟨js, hjs⟩ := ihRest hrest hplainRest
        exact ⟨j :: js, by rw [itemsToJson, hj, hjs]; rfl⟩
    obtain ⟨js, hjs⟩ := hitems
    exact ⟨.array js, by rw [toJson, hjs]; rfl⟩
  | object fields ih =>
    rw [hasReferences_object] at h
    have hfields : ∃ js, fieldsToJson fields = .ok js := by
      induction fields with
      | nil => exact ⟨[], rfl⟩
      | cons entry rest ihRest =>
        obtain ⟨hv, hrest⟩ := List.forall_mem_cons.1 ih
        obtain ⟨hplain, hplainRest⟩ := List.forall_mem_cons.1 h
        obtain ⟨j, hj⟩ := hv hplain
        obtain ⟨js, hjs⟩ := ihRest hrest hplainRest
        exact ⟨(entry.1, j) :: js, by rw [fieldsToJson, hj, hjs]; rfl⟩
    obtain ⟨js, hjs⟩ := hfields
    exact ⟨.object js, by rw [toJson, hjs]; rfl⟩
  | other v harray hobject =>
    cases v with
    | array items => cases harray
    | object fields => cases hobject
    | record r => cases h
    | classRef c => cases h
    | _ => exact ⟨_, rfl⟩

namespace Record

variable {d : Directory} {g : Graph} {known : Set RecordRef} {target : Target} {s : Selector}
  {v : Value}

/-- What is true of the tree of a value. -/
structure PlainTree (d : Directory) (g : Graph) (known : Set RecordRef) (target : Target)
    (s : Selector) (v t : Value) : Prop where
  serialized : Serialized d g target [] true s v t
  plain : t.hasReferences = false
  wire : ∃ j, toJson t = .ok j
  references : ∀ x, g.MeetsIn d target s v x → ∃ identifier, g.identifier? d x = some identifier ∧
    t.Contains (g.tagsFor target x ++ [identifier])
  unmarked : target = .store → ∀ o, t.Contains o → Tree.newTag ∈ Fields.keys o →
    ∃ source, g.Offers known v source ∧ Fields.keys source = Fields.keys o

theorem PlainTree.of_serialized (hg : g.Typed d known)
    (hnames : ∀ c, ∀ a ∈ d.attributes c, a.name ≠ Tree.classTag ∧ a.name ≠ Tree.newTag)
    (hv : v.Within known) {t : Value} (h : Serialized d g target [] true s v t) :
    PlainTree d g known target s v t where
  serialized := h
  plain := h.hasReferences_eq_false hg hv
  wire := by
    obtain ⟨j, hj⟩ := Value.exists_toJson (h.hasReferences_eq_false hg hv)
    exact ⟨j, by rw [toJson, hj]; rfl⟩
  references x hmeets := by
    cases v with
    | record r => exact Serialized.contains_reference hmeets h
    | _ =>
      obtain ⟨q, u, henters, hmeets⟩ := hmeets
      obtain ⟨part, hpart, hcontains⟩ := h.of_enters henters fun r => .inl (by simp)
      obtain ⟨identifier, hidentifier, ho⟩ := Serialized.contains_reference hmeets hpart
      exact ⟨identifier, hidentifier, hcontains _ ho⟩
  unmarked := by
    rintro rfl o ho hnew
    exact h.offers_of_new hg hnames hv ho hnew

/-- Encoding needs the identifiers of the records that it has to reduce, and nothing else. -/
theorem encode_yields (hd : d.Lawful) (hg : g.Sound known) (hmade : ∀ r ∈ known, r.base? = none)
    (hnames : ∀ c, ∀ a ∈ d.attributes c, a.name ≠ Tree.classTag ∧ a.name ≠ Tree.newTag)
    (target : Target) (s : Selector) (hv : v.Within known) :
    Yields d g (g.MeetsIn d target s v) (encode d target s v) (Serialized d g target [] true s v) := by
  have hsteps : stepsFor s g = (.ok (g.cells.size + s.depth + 2), g) := rfl
  have hrecord : ∀ (isRoot : Bool) q t, q ∈ v.records →
      Yields d g (g.Meets d target [] isRoot q t)
        (encodeWithin d target (g.cells.size + s.depth + 2) [] isRoot q t)
        (Serialized d g target [] isRoot t (.record q)) := by
    intro isRoot q t hq
    apply encodeWithin_yields hd hg hmade hnames target isRoot t (hv q hq) (by simp) List.nodup_nil
    simp only [List.length_nil]
    omega
  unfold encode
  refine .of_read hsteps ?_
  cases v with
  | record r => exact hrecord true r s (List.mem_singleton.2 rfl)
  | _ =>
    exact encodeValue_yields (fun r => .inl (by simp)) fun q t henters =>
      hrecord false q t henters.mem

/-- How serializing goes: it ends, it fails for want of an identifier only, and gives a plain tree
otherwise. -/
structure SerializesPlainly (d : Directory) (g : Graph) (known : Set RecordRef) (target : Target)
    (s : Selector) (v : Value) : Prop where
  ends : (encode d target s v g).1 ≠ .error .unending
  fails_iff : (∃ e, (encode d target s v g).1 = .error e) ↔
    ∃ x, g.MeetsIn d target s v x ∧ g.identifier? d x = none
  missing : ∀ e, (encode d target s v g).1 = .error e → ∃ x, g.MeetsIn d target s v x ∧
    g.identifier? d x = none ∧ e = .missingIdentifier x.className
  tree : ∀ t, (encode d target s v g).1 = .ok t → PlainTree d g known target s v t
  unchanged : (encode d target s v g).2 = g

theorem serializes_plainly (hd : d.Lawful) (hg : g.Typed d known)
    (hmade : ∀ r ∈ known, r.base? = none)
    (hnames : ∀ c, ∀ a ∈ d.attributes c, a.name ≠ Tree.classTag ∧ a.name ≠ Tree.newTag)
    (target : Target) (s : Selector) (hv : v.Within known) :
    SerializesPlainly d g known target s v := by
  obtain ⟨t, hrun, ht, hidentified⟩ | ⟨x, hmeets, hmissing, hrun⟩ :=
    encode_yields hd hg.sound hmade hnames target s hv
  · constructor
    case ends => simp [hrun]
    case fails_iff =>
      constructor
      · intro h
        obtain ⟨e, he⟩ := h
        rw [hrun] at he
        cases he
      · intro h
        obtain ⟨x, hmeets, hnone⟩ := h
        have hsome := hidentified x hmeets
        rw [hnone] at hsome
        cases hsome
    case missing =>
      intro e he
      rw [hrun] at he
      cases he
    case tree =>
      intro t' ht'
      rw [hrun] at ht'
      cases ht'
      exact .of_serialized hg hnames hv ht
    case unchanged => rw [hrun]
  · constructor
    case ends => simp [hrun]
    case fails_iff =>
      rw [hrun]
      exact ⟨fun _ => ⟨x, hmeets, hmissing⟩, fun _ => ⟨_, rfl⟩⟩
    case missing =>
      intro e he
      rw [hrun] at he
      cases he
      exact ⟨x, hmeets, hmissing, rfl⟩
    case tree =>
      intro t ht
      rw [hrun] at ht
      cases ht
    case unchanged => rw [hrun]

end Record

/-! ### An example: two partners in a store -/

namespace Partners

open Record

theorem memberClasses_lawful : memberClasses.Lawful :=
  Directory.lawful_of_entries (by decide) (by decide)

theorem partners_typed : partners.Typed memberClasses {member 0, member 1} where
  sound := partners_sound
  inherits := by rintro r (rfl | rfl) <;> exact Directory.inherits_declared _ (by decide)
  forks := by rintro serial c base (heq | heq) <;> cases heq
  keys := by
    rintro r hr name slot hown a ha rfl
    obtain rfl : a = ⟨"name", .primary, .scalar .string {}, none⟩ := by
      rcases hr with rfl | rfl <;> exact List.mem_singleton.1 ha
    rcases hr with rfl | rfl <;> cases hown <;> exact .inr (.inl ⟨_, rfl⟩)

/-- In the document of a member, its partner is a tag and a name. -/
theorem serializes_plainly_partners :
    SerializesPlainly memberClasses partners {member 0, member 1} .store .all (.record (member 0)) ∧
      (encode memberClasses .store .all (.record (member 0)) partners).1 = .ok
        (.object [(Tree.classTag, .string "Member"), ("name", .string "Ada"), ("partner",
          .object [(Tree.classTag, .string "Member"), ("name", .string "Bob")])]) := by
  refine ⟨serializes_plainly memberClasses_lawful partners_typed ?_
    (Directory.forall_attributes (by decide)) .store .all ?_, rfl⟩
  · rintro r (rfl | rfl) <;> rfl
  · simp [Value.Within, Value.records]

end Partners

end TypedRecords
