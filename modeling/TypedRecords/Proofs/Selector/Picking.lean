import TypedRecords.Proofs.Document.Presented

/-! # Picking twice

What is picked of an object stands under its name as what is picked of the field there, whatever the
order of the listed names. Picking from what was picked is therefore picking with the intersection of
both selectors, up to the order of names, unless one of them lists names for a field that is always
included: such a field is cut down by the list where it is reached, but kept whole by the next pick.
-/

namespace TypedRecords

namespace Value

/-! ### Another order of names -/

/-- The same value but for the order of names in its objects, at any depth. -/
inductive Rearranged : Value → Value → Prop
  | refl (v : Value) : Rearranged v v
  | array {items others : List Value} (length : items.length = others.length)
    (each : ∀ (i : Nat) v w, items[i]? = some v → others[i]? = some w → Rearranged v w) :
    Rearranged (.array items) (.array others)
  | object {fields others : Object} (names : (Fields.keys fields).Perm (Fields.keys others))
    (each : ∀ name v w, Fields.get? name fields = some v → Fields.get? name others = some w →
      Rearranged v w) :
    Rearranged (.object fields) (.object others)

theorem rearranged_map {f g : Value → Value} {items : List Value}
    (h : ∀ v ∈ items, Rearranged (f v) (g v)) :
    Rearranged (.array (items.map f)) (.array (items.map g)) := by
  apply Rearranged.array
  · simp
  · intro i v w hv hw
    rw [List.getElem?_map] at hv hw
    cases hitem : items[i]? with
    | none => simp [hitem] at hv
    | some item =>
      simp only [hitem, Option.map_some, Option.some.injEq] at hv hw
      rw [← hv, ← hw]
      exact h item (List.mem_of_getElem? hitem)

theorem rearranged_object {fields others : Object} (hfields : Fields.Distinct fields)
    (hothers : Fields.Distinct others)
    (h : ∀ name, Option.Rel Rearranged (Fields.get? name fields) (Fields.get? name others)) :
    Rearranged (.object fields) (.object others) := by
  apply Rearranged.object
  · rw [List.perm_ext_iff_of_nodup hfields hothers]
    intro name
    have hname := h name
    rw [Fields.mem_keys_iff, Fields.mem_keys_iff]
    cases hv : Fields.get? name fields <;> cases hw : Fields.get? name others <;>
      simp [hv, hw] at hname ⊢
  · intro name v w hv hw
    have hname := h name
    rw [hv, hw] at hname
    cases hname with
    | some hvw => exact hvw

theorem rel_rearranged_refl (v : Option Value) : Option.Rel Rearranged v v := by
  cases v with
  | none => exact .none
  | some v => exact .some (.refl v)

theorem rel_rearranged_or {v w : Option Value} (h : Option.Rel Rearranged v w)
    (other : Option Value) : Option.Rel Rearranged (v.or other) (w.or other) := by
  cases h with
  | some hvw => exact .some hvw
  | none => exact rel_rearranged_refl other

theorem Rearranged.trans {u v w : Value} (huv : Rearranged u v) (hvw : Rearranged v w) :
    Rearranged u w := by
  induction huv generalizing w with
  | refl => exact hvw
  | @array items others hlength heach ih =>
    cases hvw with
    | refl => exact .array hlength heach
    | @array _ more hlength' heach' =>
      apply Rearranged.array (hlength.trans hlength')
      intro i u w hu hw
      have hi : i < others.length := hlength ▸ (List.getElem?_eq_some_iff.1 hu).1
      have hv := List.getElem?_eq_getElem hi
      exact ih i u _ hu hv (heach' i _ w hv hw)
  | @object fields others hnames heach ih =>
    cases hvw with
    | refl => exact .object hnames heach
    | @object _ more hnames' heach' =>
      apply Rearranged.object (hnames.trans hnames')
      intro name u w hu hw
      obtain ⟨v, hv⟩ := Fields.mem_keys_iff.1
        (hnames.mem_iff.1 (Fields.mem_keys_iff.2 ⟨u, hu⟩))
      exact ih name u v hu hv (heach' name v w hv hw)

/-- A value that equals itself equals its rearrangements; one with a number that is not a number
does not. -/
theorem Rearranged.beq {v w : Value} (h : Rearranged v w) (hv : v.beq v = true) :
    v.beq w = true := by
  induction h with
  | refl => exact hv
  | array hlength _ ih =>
    rw [Value.beq, beqItems_iff, Fields.forall₂_iff_getElem?] at hv ⊢
    refine ⟨hlength, fun i v w hi hi' => ih i v w hi hi' (hv.2 i v v hi hi)⟩
  | @object fields others hnames _ ih =>
    simp only [Value.beq, Bool.and_eq_true, beq_iff_eq, beqFields_iff] at hv ⊢
    refine ⟨by simpa [Fields.keys] using hnames.length_eq, fun entry hentry => ?_⟩
    obtain ⟨v, hread, heq⟩ := hv.2 entry hentry
    obtain ⟨w, hread'⟩ := Fields.mem_keys_iff.1
      (hnames.mem_iff.1 (Fields.mem_keys_iff.2 ⟨v, hread⟩))
    obtain ⟨v', hsame, hself⟩ := hv.2 _ (Fields.mem_of_get? hread)
    have hvv : v' = v := by simpa [hread] using hsame.symm
    rw [hvv] at hself
    exact ⟨w, hread', beq_trans heq (ih entry.1 v w hread hread' hself)⟩

/-- An object equals itself if this holds of its fields. -/
theorem beq_self_object_iff {fields : Object} (h : Fields.Distinct fields) :
    (Value.object fields).beq (.object fields) = true ↔
      ∀ name v, Fields.get? name fields = some v → v.beq v = true := by
  simp only [beq, Bool.and_eq_true, beqFields_iff, beq_self_eq_true, true_and]
  constructor
  · intro hfields name v hv
    obtain ⟨w, hw, heq⟩ := hfields _ (Fields.mem_of_get? hv)
    rw [hv] at hw
    cases hw
    exact heq
  · intro hfields entry hentry
    have hread := Fields.get?_of_mem h hentry
    exact ⟨entry.2, hread, hfields _ _ hread⟩

/-! ### Defined values -/

/-- A value, unless it is undefined. -/
def defined? : Value → Option Value
  | .undefined => none
  | v => some v

theorem defined?_eq (v : Value) : v.defined? = if v.isUndefined then none else some v := by
  cases v <;> rfl

theorem Rearranged.defined? {v w : Value} (h : Rearranged v w) :
    Option.Rel Rearranged v.defined? w.defined? := by
  cases h with
  | refl => exact rel_rearranged_refl _
  | array length each => exact .some (.array length each)
  | object names each => exact .some (.object names each)

theorem mapObjectsItems_eq_map (f : Object → Object) (items : List Value) :
    mapObjectsItems f items = items.map (mapObjects f) := by
  induction items with
  | nil => rfl
  | cons v rest ih => simp [mapObjectsItems, ih]

end Value

namespace Selector

variable {always : List String} {s t : Selector} {selected others : Fields Selector}

/-! ### What is picked of an object -/

/-- The fields of an object that are picked where names are listed. -/
def pickInner (always : List String) (selected : Fields Selector) (o : Object) : Object :=
  pickFields always selected o (included always o)

theorem pick_only_object (selected : Fields Selector) (o : Object) :
    pick always (.only selected) (.object o) = .object (pickInner always selected o) :=
  pick_object always selected o

theorem pick_only_array (selected : Fields Selector) (items : List Value) :
    pick always (.only selected) (.array items) =
      .array (items.map (pick always (.only selected))) := by
  rw [pick, Value.mapObjects, Value.mapObjectsItems_eq_map]
  simp only [pick]

theorem pick_only_other (selected : Fields Selector) {v : Value}
    (harray : v.asArray? = Option.none) (hobject : v.asObject? = Option.none) :
    pick always (.only selected) v = v := by
  rw [pick]
  cases v with
  | array items => cases harray
  | object fields => cases hobject
  | _ => rfl

theorem pick_undefined (always : List String) (s : Selector) :
    pick always s .undefined = .undefined := by
  cases s <;> simp [pick, Value.mapObjects]

theorem distinct_pickInner (selected : Fields Selector) (o : Object) :
    Fields.Distinct (pickInner always selected o) := by
  apply distinct_pickFields
  rw [included_eq_copyInto]
  exact Fields.distinct_copyInto _ List.nodup_nil

theorem get?_pickFields_eq (hd : Fields.Distinct selected) (name : String) (o picked : Object) :
    Fields.get? name (pickFields always selected o picked) =
      (pickedField always name ((Selector.only selected).get name) o).defined?.or
        (Fields.get? name picked) := by
  induction selected generalizing picked with
  | nil => cases h : Fields.get? name o <;> simp [pickFields, pickedField, get, pick, h, Value.defined?]
  | cons first rest ih =>
    obtain ⟨key, s⟩ := first
    obtain ⟨hkey, hrest⟩ := Fields.distinct_cons.1 hd
    rw [pickFields_cons]
    by_cases hname : key = name
    · subst hname
      rw [get?_pickFields_of_not_mem hkey, get, Fields.get?, if_pos rfl, Option.getD_some,
        Value.defined?_eq]
      split <;> simp
    · rw [ih hrest, get, get, Fields.get?, if_neg hname]
      congr 1
      split
      · rfl
      · exact Fields.get?_insert_of_ne (Ne.symm hname) _ _

/-- A field is picked as its selector says. Where nothing of it is picked, it is there whole if it is
always included. -/
theorem get?_pickInner (hd : Fields.Distinct selected) (name : String) (o : Object) :
    Fields.get? name (pickInner always selected o) =
      (pickedField always name ((Selector.only selected).get name) o).defined?.or
        (if name ∈ always then Fields.get? name o else Option.none) := by
  rw [pickInner, get?_pickFields_eq hd, included_eq_copyInto, Fields.get?_copyInto, Fields.get?_nil,
    Option.or_none]

/-! ### Selectors of the same paths -/

/-- Selectors that keep the same paths list names both or not at all. -/
theorem kinds_of_keeps (h : ∀ path, s.Keeps path ↔ t.Keeps path) :
    s = .none ∧ t = .none ∨ s = .all ∧ t = .all ∨
      ∃ selected others, s = .only selected ∧ t = .only others := by
  cases s with
  | none =>
    cases t with
    | none => simp
    | _ => exact absurd ((h []).2 rfl) (not_keeps_none [])
  | all =>
    cases t with
    | all => simp
    | none => exact absurd ((h []).1 rfl) (not_keeps_none [])
    | only others =>
      obtain ⟨path, hpath⟩ := not_keeps_fresh others
      exact absurd ((h path).1 (keeps_all path)) hpath
  | only selected =>
    cases t with
    | only others => simp
    | none => exact absurd ((h []).1 rfl) (not_keeps_none [])
    | all =>
      obtain ⟨path, hpath⟩ := not_keeps_fresh selected
      exact absurd ((h path).2 (keeps_all path)) hpath

/-- What is picked depends on the kept paths only. -/
theorem pick_congr (hs : s.WellFormed) (ht : t.WellFormed)
    (h : ∀ path, s.Keeps path ↔ t.Keeps path) (v : Value) :
    (pick always s v).Rearranged (pick always t v) := by
  induction v using Value.induction generalizing s t with
  | array items ih =>
    obtain ⟨rfl, rfl⟩ | ⟨rfl, rfl⟩ | ⟨selected, others, rfl, rfl⟩ := kinds_of_keeps h
    · exact .refl _
    · exact .refl _
    · rw [pick_only_array, pick_only_array]
      exact Value.rearranged_map fun v hv => ih v hv hs ht h
  | object o ih =>
    obtain ⟨rfl, rfl⟩ | ⟨rfl, rfl⟩ | ⟨selected, others, rfl, rfl⟩ := kinds_of_keeps h
    · exact .refl _
    · exact .refl _
    · rw [pick_only_object, pick_only_object]
      apply Value.rearranged_object (distinct_pickInner _ _) (distinct_pickInner _ _)
      intro name
      rw [get?_pickInner (wellFormed_only.1 hs).1, get?_pickInner (wellFormed_only.1 ht).1]
      have hpart : (pickedField always name ((Selector.only selected).get name) o).Rearranged
          (pickedField always name ((Selector.only others).get name) o) := by
        unfold pickedField
        cases hv : Fields.get? name o with
        | none => exact .refl _
        | some v =>
          exact ih _ (Fields.mem_of_get? hv) (hs.get name) (ht.get name) fun path => h (name :: path)
      exact Value.rel_rearranged_or hpart.defined? _
  | other v harray hobject =>
    obtain ⟨rfl, rfl⟩ | ⟨rfl, rfl⟩ | ⟨selected, others, rfl, rfl⟩ := kinds_of_keeps h
    · exact .refl _
    · exact .refl _
    · rw [pick_only_other _ harray hobject, pick_only_other _ harray hobject]
      exact .refl v

theorem pick_normalize (hs : s.WellFormed) (v : Value) :
    (pick always s v).Rearranged (pick always s.normalize v) :=
  pick_congr hs hs.normalize (fun _ => (keeps_normalize hs).symm) v

/-! ### Spared names -/

/-- No list within the selector lists further names for one of the given names. -/
def Spares (always : List String) (s : Selector) : Prop :=
  ∀ path, ∀ name ∈ always, ∀ fields, s.walk (path ++ [name]) ≠ .only fields

theorem Spares.get (h : s.Spares always) (name : String) : (s.get name).Spares always :=
  fun path => h (name :: path)

theorem Spares.get_eq (h : s.Spares always) {name : String} (hname : name ∈ always) :
    s.get name = .all ∨ s.get name = .none := by
  have hlist := h [] name hname
  rw [List.nil_append, walk, List.foldl_cons, List.foldl_nil] at hlist
  cases hs : s.get name with
  | all => simp
  | none => simp
  | only fields => exact absurd hs (hlist fields)

theorem spares_all (always : List String) : Selector.all.Spares always := by
  intro path name _ fields
  simp [walk_all]

theorem spares_none (always : List String) : Selector.none.Spares always := by
  intro path name _ fields
  simp [walk_none]

theorem spares_only (h : ∀ entry ∈ selected,
    (entry.1 ∈ always → entry.2 = .all ∨ entry.2 = .none) ∧ entry.2.Spares always) :
    (Selector.only selected).Spares always := by
  intro path name hname fields
  cases path with
  | nil =>
    rw [List.nil_append, walk, List.foldl_cons, List.foldl_nil, Selector.get]
    cases hread : Fields.get? name selected with
    | none => simp
    | some s =>
      obtain hs | hs := (h _ (Fields.mem_of_get? hread)).1 hname
      · simp only at hs
        simp [hs]
      · simp only at hs
        simp [hs]
  | cons first rest =>
    rw [List.cons_append, walk, List.foldl_cons, ← walk, Selector.get]
    cases hread : Fields.get? first selected with
    | none => exact spares_none always rest name hname fields
    | some s => exact (h _ (Fields.mem_of_get? hread)).2 rest name hname fields

/-- A field that is always included and not cut down stays as it is. -/
theorem get?_pickInner_of_mem (hd : Fields.Distinct selected) {name : String}
    (hname : name ∈ always) (o : Object)
    (h : (Selector.only selected).get name = .all ∨ (Selector.only selected).get name = .none) :
    Fields.get? name (pickInner always selected o) = Fields.get? name o := by
  rw [get?_pickInner hd, if_pos hname]
  rcases h with h | h <;> rw [h, pickedField]
  · cases Fields.get? name o with
    | none => rfl
    | some v => cases v <;> rfl
  · cases Fields.get? name o <;> rfl

theorem get?_pickInner_of_not_mem (hd : Fields.Distinct selected) {name : String}
    (hname : name ∉ always) (o : Object) :
    Fields.get? name (pickInner always selected o) =
      (pickedField always name ((Selector.only selected).get name) o).defined? := by
  rw [get?_pickInner hd, if_neg hname, Option.or_none]

/-- What is picked of a field that was picked. -/
theorem pickedField_pickInner (hd : Fields.Distinct selected) {name : String}
    (hname : name ∉ always) (o : Object) :
    pickedField always name t (pickInner always selected o) =
      pick always t (pickedField always name ((Selector.only selected).get name) o) := by
  rw [pickedField, get?_pickInner_of_not_mem hd hname]
  cases hpart : pickedField always name ((Selector.only selected).get name) o with
  | undefined => exact (pick_undefined always t).symm
  | _ => rfl

/-! ### Intersections -/

/-- It is enough to look at selectors that list names. -/
theorem pick_pick_of_lists {v : Value}
    (h : ∀ {selected others : Fields Selector}, (Selector.only selected).WellFormed →
      (Selector.only others).WellFormed → (Selector.only selected).Spares always →
      (Selector.only others).Spares always →
      (pick always (.only others) (pick always (.only selected) v)).Rearranged
        (pick always ((Selector.only selected).intersect (.only others)) v))
    (hs : s.WellFormed) (ht : t.WellFormed) (hspares : s.Spares always)
    (hspares' : t.Spares always) :
    (pick always t (pick always s v)).Rearranged (pick always (s.intersect t) v) := by
  cases s with
  | none => simpa [pick, none_intersect, pick_undefined] using .refl _
  | all => simpa [pick, all_intersect] using pick_normalize ht v
  | only selected =>
    cases t with
    | none => simpa [pick, intersect_none] using .refl _
    | all => simpa [pick, intersect_all] using pick_normalize hs v
    | only others => exact h hs ht hspares hspares'

/-- Picking from what was picked is picking with the intersection. -/
theorem pick_pick (hs : s.WellFormed) (ht : t.WellFormed) (hspares : s.Spares always)
    (hspares' : t.Spares always) (v : Value) :
    (pick always t (pick always s v)).Rearranged (pick always (s.intersect t) v) := by
  induction v using Value.induction generalizing s t with
  | array items ih =>
    refine pick_pick_of_lists (fun hs ht hspares hspares' => ?_) hs ht hspares hspares'
    rw [pick_only_array, pick_only_array, intersect, pick_only_array, List.map_map]
    exact Value.rearranged_map fun v hv => ih v hv hs ht hspares hspares'
  | object o ih =>
    refine pick_pick_of_lists (fun {selected others} hs ht hspares hspares' => ?_) hs ht hspares
      hspares'
    have hd := (wellFormed_only.1 hs).1
    have hd' := (wellFormed_only.1 ht).1
    have hboth := hs.intersect ht
    have hgets := fun name => get_intersect_of_wellFormed hs ht name
    rw [intersect] at hboth hgets ⊢
    have hd'' := (wellFormed_only.1 hboth).1
    rw [pick_only_object, pick_only_object, pick_only_object]
    apply Value.rearranged_object (distinct_pickInner _ _) (distinct_pickInner _ _)
    intro name
    by_cases hname : name ∈ always
    · have hmeet : (Selector.only (intersectFields selected others)).get name = .all ∨
          (Selector.only (intersectFields selected others)).get name = .none := by
        rw [hgets]
        obtain h | h := hspares.get_eq hname <;> obtain h' | h' := hspares'.get_eq hname <;>
          simp [h, h', intersect, normalize]
      rw [get?_pickInner_of_mem hd' hname _ (hspares'.get_eq hname),
        get?_pickInner_of_mem hd hname _ (hspares.get_eq hname),
        get?_pickInner_of_mem hd'' hname _ hmeet]
      exact Value.rel_rearranged_refl _
    · rw [get?_pickInner_of_not_mem hd' hname, get?_pickInner_of_not_mem hd'' hname,
        pickedField_pickInner hd hname, hgets]
      apply Value.Rearranged.defined?
      unfold pickedField
      cases hv : Fields.get? name o with
      | none =>
        rw [Option.map_none, Option.map_none, Option.getD_none, pick_undefined]
        exact .refl _
      | some v =>
        exact ih _ (Fields.mem_of_get? hv) (hs.get name) (ht.get name) (hspares.get name)
          (hspares'.get name)
  | other v harray hobject =>
    refine pick_pick_of_lists (fun _ _ _ _ => ?_) hs ht hspares hspares'
    rw [intersect, pick_only_other _ harray hobject, pick_only_other _ harray hobject,
      pick_only_other _ harray hobject]
    exact .refl v

/-- What is picked of a value that equals itself equals itself. -/
theorem beq_self_pick (hs : s.WellFormed) {v : Value} (hv : v.beq v = true) :
    (pick always s v).beq (pick always s v) = true := by
  induction v using Value.induction generalizing s with
  | array items ih =>
    cases s with
    | none => rfl
    | all => exact hv
    | only selected =>
      rw [pick_only_array]
      rw [Value.beq, Value.beqItems_iff] at hv ⊢
      rw [List.forall₂_same] at hv
      rw [List.forall₂_map_left_iff, List.forall₂_map_right_iff, List.forall₂_same]
      exact fun v hmem => ih v hmem hs (hv v hmem)
  | object o ih =>
    cases s with
    | none => rfl
    | all => exact hv
    | only selected =>
      have hfields : ∀ name v, Fields.get? name o = some v → v.beq v = true := by
        intro name v hread
        simp only [Value.beq, Bool.and_eq_true, Value.beqFields_iff] at hv
        obtain ⟨w, hw, heq⟩ := hv.2 _ (Fields.mem_of_get? hread)
        rw [hread] at hw
        cases hw
        exact heq
      rw [pick_only_object, Value.beq_self_object_iff (distinct_pickInner _ _)]
      intro name w hw
      rw [get?_pickInner (wellFormed_only.1 hs).1, Option.or_eq_some_iff, Value.defined?_eq] at hw
      obtain hpart | ⟨-, hkept⟩ := hw
      · split at hpart
        · cases hpart
        · rw [← Option.some.inj hpart, pickedField]
          cases hread : Fields.get? name o with
          | none => rfl
          | some v => exact ih _ (Fields.mem_of_get? hread) (hs.get name) (hfields name v hread)
      · split at hkept
        · exact hfields name w hkept
        · cases hkept
  | other v harray hobject =>
    cases s with
    | none => rfl
    | all => exact hv
    | only selected => rwa [pick_only_other _ harray hobject]

/-! ### The laws of picking -/

/-- How picking with one selector and then with another relates to picking once. -/
structure PickingLaws (always : List String) (s t : Selector) (v : Value) : Prop where
  pick_pick : (pick always t (pick always s v)).Rearranged (pick always (s.intersect t) v)
  pick_idem : (pick always s (pick always s v)).Rearranged (pick always s v)
  pick_smaller : s.includes t = true →
    (pick always t (pick always s v)).Rearranged (pick always t v)
  equal : v.beq v = true →
    (pick always t (pick always s v)).beq (pick always (s.intersect t) v) = true

theorem pickingLaws (hs : s.WellFormed) (ht : t.WellFormed) (hspares : s.Spares always)
    (hspares' : t.Spares always) (v : Value) : PickingLaws always s t v := by
  have hboth := hs.intersect ht
  constructor
  case pick_pick => exact Selector.pick_pick hs ht hspares hspares' v
  case pick_idem =>
    have hsame : ∀ path, (s.intersect s).Keeps path ↔ s.Keeps path := by
      intro path
      rw [keeps_intersect hs hs, and_self]
    exact (Selector.pick_pick hs hs hspares hspares v).trans
      (pick_congr (hs.intersect hs) hs hsame v)
  case pick_smaller =>
    intro hincludes
    rw [includes_iff hs ht] at hincludes
    have hsame : ∀ path, (s.intersect t).Keeps path ↔ t.Keeps path := by
      intro path
      rw [keeps_intersect hs ht, and_iff_right_of_imp (hincludes path)]
    exact (Selector.pick_pick hs ht hspares hspares' v).trans (pick_congr hboth ht hsame v)
  case equal =>
    intro hv
    exact (Selector.pick_pick hs ht hspares hspares' v).beq (beq_self_pick ht (beq_self_pick hs hv))

/-- Films with their casts, of which first the names and parts are picked and then the parts only. The
tag is excluded by the one selector and always included. -/
theorem pickingLaws_cast :
    PickingLaws ["__component"]
      (.only [("title", .all), ("__component", .none), ("year", .none),
        ("cast", .only [("name", .all), ("part", .only [("as", .all)])])])
      (.only [("cast", .only [("part", .all), ("age", .all)]), ("year", .all)])
      (.array [.object [("__component", .string "Film"), ("year", .undefined),
        ("cast", .array [.object [("part", .object [("as", .undefined)]), ("name", .string "Ripley")],
          .null])]]) := by
  apply pickingLaws
  · exact ⟨(by decide : ["title", "__component", "year", "cast"].Nodup), trivial, trivial, trivial,
      ⟨(by decide : ["name", "part"].Nodup), trivial, ⟨List.nodup_singleton _, trivial, trivial⟩,
        trivial⟩, trivial⟩
  · exact ⟨(by decide : ["cast", "year"].Nodup), ⟨(by decide : ["part", "age"].Nodup), trivial,
      trivial, trivial⟩, trivial, trivial⟩
  · have hpart : (Selector.only [("as", .all)]).Spares ["__component"] := by
      apply spares_only
      simp [spares_all]
    have hcast : (Selector.only [("name", .all), ("part", .only [("as", .all)])]).Spares
        ["__component"] := by
      apply spares_only
      simp [spares_all, hpart]
    apply spares_only
    simp [spares_all, spares_none, hcast]
  · have hcast : (Selector.only [("part", .all), ("age", .all)]).Spares ["__component"] := by
      apply spares_only
      simp [spares_all]
    apply spares_only
    simp [spares_all, hcast]

end Selector

end TypedRecords
