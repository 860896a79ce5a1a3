import TypedRecords.Proofs.Record.Rebuilt

/-! # Planted trees

The records that the tree of a record is decoded to are made one inside the other: each lies before a
region of its own in which everything is made that it holds, attribute by attribute. So no record is held
in two places.
-/

namespace TypedRecords

open TypedRecords.Graph (Leaves)

namespace Graph

/-- Records one after the other, each before a region with what it holds, which is planted like that
itself under each name, apart from what is held under others. -/
inductive Planted (g : Graph) : Nat → List RecordRef → Nat → Prop
  | nil {lo : Nat} : Planted g lo [] lo
  | cons {lo mid hi : Nat} {r : RecordRef} {rest : List RecordRef} (bounds : String → Nat × Nat)
    (first : lo ≤ r.serial)
    (inside : ∀ name, r.serial < (bounds name).1 ∧ (bounds name).2 ≤ mid)
    (apart : ∀ name name', name ≠ name' →
      (bounds name).2 ≤ (bounds name').1 ∨ (bounds name').2 ≤ (bounds name).1)
    (held : ∀ name, Planted g (bounds name).1 (g.held r name) (bounds name).2)
    (tail : Planted g mid rest hi) : Planted g lo (r :: rest) hi

namespace Planted

variable {d : Directory} {g g' : Graph} {lo mid hi : Nat} {rs rs' : List RecordRef}

theorem le (h : g.Planted lo rs hi) : lo ≤ hi := by
  induction h with
  | nil => exact Nat.le_refl _
  | cons bounds first inside _ _ _ ihHeld ihTail =>
    have hinside := inside ""
    have hheld := ihHeld ""
    omega

theorem append (h : g.Planted lo rs mid) (h' : g.Planted mid rs' hi) :
    g.Planted lo (rs ++ rs') hi := by
  induction h with
  | nil => exact h'
  | cons bounds first inside apart held _ _ ihTail =>
    exact .cons bounds first inside apart held (ihTail h')

/-- Changes outside of the region leave what is planted there. -/
theorem leaves {kept : Nat → Prop} (h : g.Planted lo rs hi) (hhi : hi ≤ g.cells.size)
    (hg : Leaves kept g g') (hkept : ∀ n, lo ≤ n → n < hi → kept n) : g'.Planted lo rs hi := by
  induction h with
  | nil => exact .nil
  | @cons lo mid hi r rest bounds first inside apart held tail ihHeld ihTail =>
    have hinside := inside ""
    have hbounds := (held "").le
    have htail := tail.le
    have hown : ∀ name, g'.own? r name = g.own? r name :=
      hg.own? (by omega) (hkept _ first (by omega))
    refine .cons bounds first inside apart (fun name => ?_)
      (ihTail hhi fun n hn hn' => hkept n (by omega) hn')
    rw [held_congr (hown name)]
    have hname := inside name
    exact ihHeld name (by omega) fun n hn hn' => hkept n (by omega) (by omega)

theorem additive : Additive Planted where
  nil _ _ := .nil
  append := .append
  leaves := .leaves

/-! ### Paths in planted trees -/

/-- The first step of a path leads to a record that is held. -/
theorem follow_cons (hd : d.Lawful) {r q : RecordRef} {step : String × Nat}
    {path : List (String × Nat)} (h : g.follow? d r (step :: path) = some q) :
    ∃ r', (g.held r step.1)[step.2]? = some r' ∧ g.follow? d r' path = some q := by
  rw [follow?, List.foldlM_cons] at h
  obtain ⟨r', hstep, hrest⟩ := Option.bind_eq_some_iff.1 h
  obtain ⟨a, ha, hheld⟩ := Option.bind_eq_some_iff.1 hstep
  rw [(hd.definition r.cls).name_of_attribute? ha] at hheld
  exact ⟨r', hheld, hrest⟩

/-- What is reached from planted records lies in their region. -/
theorem follow_bounds (hd : d.Lawful) (h : g.Planted lo rs hi) {i : Nat} {r q : RecordRef}
    {path : List (String × Nat)} (hr : rs[i]? = some r) (hq : g.follow? d r path = some q) :
    lo ≤ q.serial ∧ q.serial < hi := by
  induction h generalizing i r path with
  | nil => simp at hr
  | @cons lo mid hi root rest bounds first inside apart held tail ihHeld ihTail =>
    have hinside := inside ""
    have hbounds := (held "").le
    have htail := tail.le
    cases i with
    | succ i =>
      have hin := ihTail hr hq
      omega
    | zero =>
      obtain rfl : root = r := by simpa using hr
      cases path with
      | nil =>
        cases hq
        omega
      | cons step path =>
        obtain ⟨r', hheld, hrest⟩ := follow_cons hd hq
        have hin := ihHeld step.1 hheld hrest
        have hname := inside step.1
        omega

/-- Different paths from planted records lead to different records. -/
theorem follow_apart (hd : d.Lawful) (h : g.Planted lo rs hi) {i j : Nat} {r r' q : RecordRef}
    {path path' : List (String × Nat)} (hr : rs[i]? = some r) (hr' : rs[j]? = some r')
    (hq : g.follow? d r path = some q) (hq' : g.follow? d r' path' = some q) :
    i = j ∧ path = path' := by
  induction h generalizing i j r r' path path' with
  | nil => simp at hr
  | @cons lo mid hi root rest bounds first inside apart held tail ihHeld ihTail =>
    have hinside := inside ""
    have hbounds := (held "").le
    -- What is reached from the first record lies before what is reached from the others.
    have hfirst : ∀ {r : RecordRef} {path : List (String × Nat)}, root = r →
        g.follow? d r path = some q → q.serial < mid := by
      intro r path heq hq
      subst heq
      have hroot : g.Planted lo [root] mid := .cons bounds first inside apart held .nil
      exact (hroot.follow_bounds hd (i := 0) rfl hq).2
    cases i with
    | succ i =>
      cases j with
      | succ j =>
        obtain ⟨heq, hpath⟩ := ihTail hr hr' hq hq'
        exact ⟨by rw [heq], hpath⟩
      | zero =>
        have hlt := hfirst (by simpa using hr') hq'
        have hge := (tail.follow_bounds hd hr hq).1
        omega
    | zero =>
      have heq : root = r := by simpa using hr
      cases j with
      | succ j =>
        have hlt := hfirst heq hq
        have hge := (tail.follow_bounds hd hr' hq').1
        omega
      | zero =>
        subst heq
        obtain rfl : root = r' := by simpa using hr'
        refine ⟨rfl, ?_⟩
        -- The root itself lies before all that it holds.
        have hbelow : ∀ {step : String × Nat} {path : List (String × Nat)},
            g.follow? d root (step :: path) = some q → ∃ r, (g.held root step.1)[step.2]? = some r ∧
              g.follow? d r path = some q ∧ (bounds step.1).1 ≤ q.serial ∧
                q.serial < (bounds step.1).2 := by
          intro step path hq
          obtain ⟨r, hheld, hrest⟩ := follow_cons hd hq
          exact ⟨r, hheld, hrest, (held step.1).follow_bounds hd hheld hrest⟩
        cases path with
        | nil =>
          cases path' with
          | nil => rfl
          | cons step path' =>
            obtain ⟨r, -, -, hge, -⟩ := hbelow hq'
            have hname := inside step.1
            cases hq
            omega
        | cons step path =>
          obtain ⟨r, hheld, hrest, hge, hlt⟩ := hbelow hq
          cases path' with
          | nil =>
            have hname := inside step.1
            cases hq'
            omega
          | cons step' path' =>
            obtain ⟨r', hheld', hrest', hge', hlt'⟩ := hbelow hq'
            have hname : step.1 = step'.1 := by
              by_contra hne
              have hapart := apart _ _ hne
              omega
            obtain ⟨name, k⟩ := step
            obtain ⟨name', k'⟩ := step'
            dsimp only at hname hheld hheld'
            subst hname
            obtain ⟨rfl, rfl⟩ := ihHeld name hheld hheld' hrest hrest'
            rfl

end Planted

end Graph

namespace Record

variable {d : Directory} {registry : RegistryRef} {source : Source} {g g₁ g₂ : Graph} {v v' t : Value}

/-- What a tree of a value is decoded to is planted in new cells. -/
theorem decode_planted (hd : d.Lawful) (h : Depicts d g v t)
    (hportable : v.Portable (d.Names registry))
    (hsend : ∀ r ∈ v.records, g.Sendable d registry (d.Names registry) r)
    (hdecode : decode d registry source t g₁ = (.ok v', g₂)) :
    g₂.Planted g₁.cells.size v'.records g₂.cells.size := by
  induction h generalizing g₁ g₂ v' with
  | leaf hleaf =>
    rw [decode_leaf hleaf] at hdecode
    cases hdecode
    rw [Value.records_of_isLeaf hleaf]
    exact .nil
  | undefined =>
    cases hdecode
    exact .nil
  | classRef c =>
    rw [decode_namesake hd hportable.of_classRef] at hdecode
    cases hdecode
    exact .nil
  | @array items trees length _ ih =>
    obtain ⟨vs, g₃, hvs, hpure⟩ := Stateful.bind_eq_ok hdecode
    cases hpure
    refine decodeItems_additive Graph.Planted.additive (fun t ht g' w g'' hw => ?_) hvs
    obtain ⟨v, hmem, hplanted⟩ :=
      Fields.mem_right_of_forall₂ (Fields.forall₂_iff_getElem?.2 ⟨length, ih⟩) ht
    exact hplanted (hportable.item v hmem)
      (fun r hr => hsend r (Value.mem_records_array.2 ⟨_, hmem, hr⟩)) hw
  | @object fields trees names _ ih =>
    obtain ⟨vs, rfl, hvs⟩ := decode_untagged_eq_ok (hportable.untagged_of_keys_eq names) hdecode
    refine decodeFields_additive Graph.Planted.additive (fun entry hentry g' w g'' hw => ?_) hvs
    obtain ⟨v, hmem, hplanted⟩ := (Fields.related_of_getElem? names ih).mem_right hentry
    exact hplanted (hportable.field _ hmem)
      (fun r hr => hsend r (Value.mem_records_object.2 ⟨_, hmem, hr⟩)) hw
  | @record r trees names htrees ih =>
    have hsendable := hsend r (List.mem_singleton.2 rfl)
    obtain ⟨rfl, hattributes, hassigns⟩ := decode_tree_assigns hd hsendable names hdecode
    obtain ⟨hdistinct, hnames⟩ := names_of_treelike hd hsendable.toTreelike names
    have hfields : ∀ entry ∈ trees, ∀ g v g', decode d registry source entry.2 g = (.ok v, g') →
        g'.Planted g.cells.size v.records g'.cells.size := by
      intro entry hentry g' w g'' hw
      obtain ⟨v, hmem, hplanted⟩ := (Fields.related_of_getElem? names ih).mem_right hentry
      exact hplanted (hsendable.portable r .refl _ hmem)
        (fun q hq => hsendable.nested (Graph.nests_of_field hmem hq)) hw
    obtain ⟨bounds, hbounds, hapart⟩ := decodeAttributes_parted_of Graph.Planted.additive
      hdistinct (fun entry hentry => (hnames _ (Fields.mem_keys_of_mem hentry)).2.1) hfields
      (g₁.cell?_instantiate_self r.cls (g.isNew r)) hattributes
    have hnothing : ∀ name, True → ¬(name ∈ Fields.keys trees ∧ name ≠ Tree.classTag) →
        g₂.held (g₁.instantiate r.cls (g.isNew r)).1 name = [] := by
      intro name _ hname
      have hother : ∀ t, (name, t) ∈ trees → name = Tree.classTag := by
        intro t ht
        by_contra hclass
        exact hname ⟨Fields.mem_keys_of_mem ht, hclass⟩
      simp [Graph.held, Graph.value?, hassigns.own?_new hother]
    obtain ⟨bounds, hbounds, hapart⟩ :=
      Graph.Planted.additive.extend hassigns.leaves.size hbounds hapart hnothing
    have hserial : (g₁.instantiate r.cls (g.isNew r)).1.serial = g₁.cells.size := rfl
    have hsize : (g₁.instantiate r.cls (g.isNew r)).2.cells.size = g₁.cells.size + 1 :=
      Array.size_push _
    refine .cons bounds (Nat.le_refl _) (fun name => ?_)
      (fun name name' => hapart name name' trivial trivial)
      (fun name => (hbounds name trivial).2.2) .nil
    have hin := hbounds name trivial
    omega

end Record

end TypedRecords
