import Mathlib.Logic.Relation
import TypedRecords.Proofs.Record.Graph
import TypedRecords.Proofs.Record.Reading

/-! # Forked values

Reading a slot may fork the records in its value. That neither changes a slot that is written nor
brings values into the graph but such forks.
-/

namespace TypedRecords

/-! ### Forking a value -/

namespace Value

/-- A value with other records in the places of its records, but for records inside records. `R` says
which record may be in the place of which. -/
inductive Reforked (R : RecordRef → RecordRef → Prop) : Value → Value → Prop
  | leaf {v : Value} (h : v.isLeaf = true) : Reforked R v v
  | undefined : Reforked R .undefined .undefined
  | classRef (c : ClassRef) : Reforked R (.classRef c) (.classRef c)
  | record {r r' : RecordRef} (h : R r r') : Reforked R (.record r) (.record r')
  | array {items items' : List Value} (h : List.Forall₂ (Reforked R) items items') :
    Reforked R (.array items) (.array items')
  | object {fields fields' : Object} (names : Fields.keys fields = Fields.keys fields')
    (h : List.Forall₂ (Reforked R) (Fields.values fields) (Fields.values fields')) :
    Reforked R (.object fields) (.object fields')

theorem forkRecords_spec (v : Value) (g : Graph) :
    Reforked (fun _ _ => True) v (v.forkRecords g).1 ∧
      ∀ r name, (v.forkRecords g).2.own? r name = g.own? r name := by
  induction v using Value.induction generalizing g with
  | array items ih =>
    have hitems : ∀ g, List.Forall₂ (Reforked fun _ _ => True) items (forkItems items g).1 ∧
        ∀ r name, (forkItems items g).2.own? r name = g.own? r name := by
      induction items with
      | nil => exact fun g => ⟨.nil, fun _ _ => rfl⟩
      | cons v rest ihRest =>
        obtain ⟨hv, hrest⟩ := List.forall_mem_cons.1 ih
        intro g
        obtain ⟨hfork, hown⟩ := hv g
        obtain ⟨hforks, howns⟩ := ihRest hrest (v.forkRecords g).2
        exact ⟨.cons hfork hforks, fun r name => (howns r name).trans (hown r name)⟩
    exact ⟨.array (hitems g).1, (hitems g).2⟩
  | object fields ih =>
    have hfields : ∀ g, (Fields.keys fields = Fields.keys (forkFields fields g).1 ∧
        List.Forall₂ (Reforked fun _ _ => True) (Fields.values fields)
          (Fields.values (forkFields fields g).1)) ∧
        ∀ r name, (forkFields fields g).2.own? r name = g.own? r name := by
      induction fields with
      | nil => exact fun g => ⟨⟨rfl, .nil⟩, fun _ _ => rfl⟩
      | cons entry rest ihRest =>
        obtain ⟨name, v⟩ := entry
        obtain ⟨hv, hrest⟩ := List.forall_mem_cons.1 ih
        intro g
        obtain ⟨hfork, hown⟩ := hv g
        obtain ⟨⟨hnames, hforks⟩, howns⟩ := ihRest hrest (v.forkRecords g).2
        exact ⟨⟨congrArg (name :: ·) hnames, .cons hfork hforks⟩,
          fun r name => (howns r name).trans (hown r name)⟩
    exact ⟨.object (hfields g).1.1 (hfields g).1.2, (hfields g).2⟩
  | other v harray hobject =>
    cases v with
    | array items => cases harray
    | object fields => cases hobject
    | record r => exact ⟨.record trivial, fun other name => Graph.own?_fork g r.cls r other name⟩
    | undefined => exact ⟨.undefined, fun _ _ => rfl⟩
    | classRef c => exact ⟨.classRef c, fun _ _ => rfl⟩
    | _ => exact ⟨.leaf rfl, fun _ _ => rfl⟩

/-- Forking a value keeps what making a fork keeps. -/
theorem forkRecords_keeps {P : Graph → Prop} (hfork : ∀ g c base, P g → P (g.fork c base).2)
    (v : Value) {g : Graph} (h : P g) : P (v.forkRecords g).2 := by
  induction v using Value.induction generalizing g with
  | array items ih =>
    have hitems : ∀ g, P g → P (forkItems items g).2 := by
      induction items with
      | nil => exact fun _ h => h
      | cons v rest ihRest =>
        obtain ⟨hv, hrest⟩ := List.forall_mem_cons.1 ih
        exact fun g h => ihRest hrest _ (hv h)
    exact hitems g h
  | object fields ih =>
    have hfields : ∀ g, P g → P (forkFields fields g).2 := by
      induction fields with
      | nil => exact fun _ h => h
      | cons entry rest ihRest =>
        obtain ⟨hv, hrest⟩ := List.forall_mem_cons.1 ih
        exact fun g h => ihRest hrest _ (hv h)
    exact hfields g h
  | other v harray hobject =>
    cases v with
    | array items => cases harray
    | object fields => cases hobject
    | record r => exact hfork g r.cls r h
    | _ => exact h

/-- Forking makes cells, and takes none away. -/
theorem size_forkRecords (v : Value) (g : Graph) :
    g.cells.size ≤ (v.forkRecords g).2.cells.size := by
  refine forkRecords_keeps (P := fun g' => g.cells.size ≤ g'.cells.size) (fun g' c base h => ?_) v
    (Nat.le_refl _)
  exact h.trans ((Nat.le_succ _).trans (Nat.le_of_eq (Array.size_push _).symm))

end Value

/-! ### Reading a slot -/

namespace Graph

/-- A value of the graph, or a fork of one. -/
def HoldsForked (g : Graph) (v : Value) : Prop :=
  ∃ r name slot, g.own? r name = some (some slot) ∧
    Relation.ReflTransGen (Value.Reforked fun _ _ => True) slot.value v

theorem HoldsForked.of_own? {g : Graph} {r : RecordRef} {name : String} {slot : Slot}
    (h : g.own? r name = some (some slot)) : g.HoldsForked slot.value :=
  ⟨r, name, slot, h, .refl⟩

theorem HoldsForked.refork {g : Graph} {v w : Value} (h : g.HoldsForked v)
    (hfork : v.Reforked (fun _ _ => True) w) : g.HoldsForked w := by
  obtain ⟨r, name, slot, hown, hforks⟩ := h
  exact ⟨r, name, slot, hown, hforks.tail hfork⟩

end Graph

/-- Cells and written slots stay, and every value in the graph is as before or a fork of such a
value. -/
structure ReadsOnly (g g' : Graph) : Prop where
  size : g.cells.size ≤ g'.cells.size
  keeps : ∀ r name slot, g.own? r name = some slot → g'.own? r name = some slot
  forks : ∀ v, g'.HoldsForked v → g.HoldsForked v

theorem ReadsOnly.refl (g : Graph) : ReadsOnly g g :=
  ⟨Nat.le_refl _, fun _ _ _ h => h, fun _ h => h⟩

theorem ReadsOnly.trans {g₁ g₂ g₃ : Graph} (h : ReadsOnly g₁ g₂) (h' : ReadsOnly g₂ g₃) :
    ReadsOnly g₁ g₃ :=
  ⟨Nat.le_trans h.size h'.size, fun r name slot hslot => h'.keeps r name slot (h.keeps r name slot hslot),
    fun v hv => h.forks v (h'.forks v hv)⟩

theorem ReadsOnly.of_own?_eq {g g' : Graph} (hsize : g.cells.size ≤ g'.cells.size)
    (h : ∀ r name, g'.own? r name = g.own? r name) : ReadsOnly g g' := by
  refine ⟨hsize, fun r name slot hslot => (h r name).trans hslot, ?_⟩
  rintro v ⟨r, name, slot, hown, hforks⟩
  exact ⟨r, name, slot, (h r name).symm.trans hown, hforks⟩

/-- Writing a value of the graph, or a fork of one, where nothing was written. -/
theorem ReadsOnly.write {g g' : Graph} (h : ReadsOnly g g') {r : RecordRef} {name : String}
    (hnone : g.own? r name = none) {slot : Slot} (hslot : g.HoldsForked slot.value) :
    ReadsOnly g (g'.write r name (some slot)) := by
  refine ⟨h.size.trans (Nat.le_of_eq (Graph.size_modify _ _ _).symm), ?_, ?_⟩
  · intro r' name' slot' hown
    rcases g'.own?_write_cases r name (some slot) r' name' with heq | ⟨hserial, rfl, -⟩
    · rw [heq]
      exact h.keeps r' name' slot' hown
    · rw [Graph.own?_of_serial_eq hserial, hnone] at hown
      cases hown
  · rintro v ⟨r', name', slot', hown, hforks⟩
    rcases g'.own?_write_cases r name (some slot) r' name' with heq | ⟨-, -, heq⟩
    · rw [heq] at hown
      exact h.forks v ⟨r', name', slot', hown, hforks⟩
    · rw [heq] at hown
      cases hown
      obtain ⟨r₀, name₀, slot₀, hown₀, hforks₀⟩ := hslot
      exact ⟨r₀, name₀, slot₀, hown₀, hforks₀.trans hforks⟩

theorem slot?_fork_of_own {serial : Nat} {c : ClassRef} {base : RecordRef} {name : String}
    {g : Graph} {own : Option Slot} (h : g.own? (.fork serial c base) name = some own) :
    RecordRef.slot? name (.fork serial c base) g = (own, g) := by
  simp only [RecordRef.slot?, bind, StateT.bind, get, getThe, MonadStateOf.get, StateT.get, pure, h]
  rfl

theorem Graph.slot?_of_own {g : Graph} {r : RecordRef} {name : String} {slot : Slot}
    (h : g.own? r name = some (some slot)) : r.slot? name g = (some slot, g) := by
  cases r with
  | made serial c =>
    have hread : RecordRef.slot? name (.made serial c) g = ((g.own? (.made serial c) name).join, g) :=
      rfl
    simp [hread, h]
  | fork serial c base => exact slot?_fork_of_own h

/-- What a fork reads where it has written nothing, from what its base reads. -/
theorem slot?_fork_of_base {serial : Nat} {c : ClassRef} {base : RecordRef} {name : String}
    {g g' : Graph} {result : Option Slot} (h : g.own? (.fork serial c base) name = none)
    (hbase : RecordRef.slot? name base g = (result, g')) :
    RecordRef.slot? name (.fork serial c base) g =
      match result with
      | none => (none, g')
      | some slot =>
        if slot.value.hasReferences then
          let pinned : Slot := ⟨(slot.value.forkRecords g').1, slot.source⟩
          (some pinned,
            (slot.value.forkRecords g').2.write (.fork serial c base) name (some pinned))
        else (some slot, g') := by
  simp only [RecordRef.slot?, bind, StateT.bind, get, getThe, MonadStateOf.get, StateT.get, pure, h,
    hbase]
  cases result with
  | none => rfl
  | some slot =>
    dsimp only
    split <;> rfl

/-- Reading a slot keeps what making forks and writing slots keep. -/
theorem slot?_keeps {P : Graph → Prop} (hfork : ∀ g c base, P g → P (g.fork c base).2)
    (hwrite : ∀ (g : Graph) r name slot, P g → P (g.write r name slot)) (r : RecordRef) (name : String)
    {g : Graph} (h : P g) : P (r.slot? name g).2 := by
  induction r with
  | made serial c => exact h
  | fork serial c base ih =>
    cases hown : g.own? (.fork serial c base) name with
    | some own =>
      rw [slot?_fork_of_own hown]
      exact h
    | none =>
      rcases hread : RecordRef.slot? name base g with ⟨slot, g'⟩
      rw [hread] at ih
      rw [slot?_fork_of_base hown hread]
      cases slot with
      | none => exact ih
      | some slot =>
        dsimp only
        split
        · exact hwrite _ _ _ _ (slot.value.forkRecords_keeps hfork ih)
        · exact ih

theorem slot?_readsOnly (r : RecordRef) (name : String) (g : Graph) :
    ReadsOnly g (r.slot? name g).2 ∧
      ∀ slot, (r.slot? name g).1 = some slot → g.HoldsForked slot.value := by
  induction r with
  | made serial c =>
    refine ⟨ReadsOnly.refl g, ?_⟩
    intro slot hslot
    have hslot : (g.own? (.made serial c) name).join = some slot := hslot
    exact .of_own? (Option.join_eq_some_iff.1 hslot)
  | fork serial c base ih =>
    cases hown : g.own? (.fork serial c base) name with
    | some own =>
      rw [slot?_fork_of_own hown]
      refine ⟨ReadsOnly.refl g, ?_⟩
      rintro slot rfl
      exact .of_own? hown
    | none =>
      obtain ⟨hreads, hslots⟩ := ih
      rcases hbase : RecordRef.slot? name base g with ⟨_ | slot, g'⟩
      · rw [slot?_fork_of_base hown hbase]
        rw [hbase] at hreads
        exact ⟨hreads, fun slot h => by cases h⟩
      · rw [slot?_fork_of_base hown hbase]
        rw [hbase] at hreads hslots
        dsimp only at hreads hslots ⊢
        split
        · obtain ⟨hfork, hsame⟩ := slot.value.forkRecords_spec g'
          have hheld : g.HoldsForked (slot.value.forkRecords g').1 :=
            (hslots slot rfl).refork hfork
          have hforked : ReadsOnly g (slot.value.forkRecords g').2 :=
            hreads.trans (.of_own?_eq (slot.value.size_forkRecords g') hsame)
          refine ⟨hforked.write hown hheld, ?_⟩
          rintro pinned heq
          cases heq
          exact hheld
        · exact ⟨hreads, hslots⟩

/-- A graph after reading, where any record may be read. -/
def ReadsFrom (g₀ : Graph) (known : Set RecordRef) (g : Graph) : Prop :=
  known = Set.univ ∧ ReadsOnly g₀ g

theorem readsOnly_allowsReading (g₀ : Graph) : AllowsReading (ReadsFrom g₀) where
  slot known r name g _ hg := ⟨known, subset_rfl, ⟨hg.1, hg.2.trans (slot?_readsOnly r name g).1⟩,
    fun _ _ r' _ => hg.1 ▸ Set.mem_univ r'⟩
  resolving _ r b g _ hg := ⟨hg.1,
    hg.2.trans (.of_own?_eq (Nat.le_of_eq (Graph.size_modify g r _).symm)
      fun other name => Graph.own?_markResolving g r b other name)⟩

theorem ReadsOnly.of_run {α : Type} {x : Action α} {Q : Set RecordRef → α → Prop} {g g' : Graph}
    {result : Except Error α} (hx : Stateful.KeepsIn (ReadsFrom g) Set.univ x Q)
    (h : x g = (result, g')) : ReadsOnly g g' :=
  hx.keeps.of_run (.refl g) h

theorem value?_made {r : RecordRef} (hr : r.base? = none) (name : String) (g : Graph) :
    r.value? name g = (g.value? r name, g) := by
  cases r with
  | made serial c => rfl
  | fork serial c base => cases hr

theorem Record.lift_value?_made {r : RecordRef} (hr : r.base? = none) (name : String) (g : Graph) :
    lift (r.value? name) g = (.ok (g.value? r name), g) := by
  simp only [lift, value?_made hr]

end TypedRecords
