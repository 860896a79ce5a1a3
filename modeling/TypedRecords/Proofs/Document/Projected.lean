import TypedRecords.Selector.Pick
import TypedRecords.Document.Projection
import TypedRecords.Proofs.Document.Entire
import TypedRecords.Proofs.Selector.Paths
import TypedRecords.Proofs.Value.WellFormed

/-! # What is picked of a projection

Reading a document through the projection of a selector and picking from what was read is picking from
the document itself, as long as a selector that lists names meets objects only. What is neither object
nor array is picked as it is, but no path leads into it, so that a projection leaves it out.
-/

namespace TypedRecords

/-! ### Outermost objects -/

namespace Value

mutual

/-- Whether a value consists of objects with a property, looking through arrays. -/
def allObjects (p : Object → Bool) : Value → Bool
  | .object fields => p fields
  | .array items => allObjectsItems p items
  | _ => false

def allObjectsItems (p : Object → Bool) : List Value → Bool
  | [] => true
  | v :: rest => allObjects p v && allObjectsItems p rest

end

section

variable {f g : Object → Object} {p : Object → Bool}

theorem length_mapObjectsItems (f : Object → Object) (items : List Value) :
    (mapObjectsItems f items).length = items.length := by
  induction items with
  | nil => rfl
  | cons v rest ih => simp [mapObjectsItems, ih]

theorem length_keepObjectItems_le (f : Object → Object) (items : List Value) :
    (keepObjectItems f items).length ≤ items.length := by
  induction items with
  | nil => exact Nat.le_refl _
  | cons v rest ih =>
    have hv : (keepObjects? f v).toList.length ≤ 1 := by cases keepObjects? f v <;> simp
    simp only [keepObjectItems, List.length_append, List.length_cons]
    omega

/-- Items are left out if one of them is not kept, so that fewer remain. -/
theorem mapObjectsItems_keepObjectItems_iff {items : List Value}
    (h : ∀ v ∈ items, (v.keepObjects? f).map (mapObjects g) = some (v.mapObjects g) ↔
      v.allObjects p = true) :
    mapObjectsItems g (keepObjectItems f items) = mapObjectsItems g items ↔
      allObjectsItems p items = true := by
  induction items with
  | nil => simp [keepObjectItems, allObjectsItems]
  | cons v rest ih =>
    obtain ⟨hv, hrest⟩ := List.forall_mem_cons.1 h
    rw [allObjectsItems, Bool.and_eq_true, ← hv, ← ih hrest, keepObjectItems]
    cases hkept : v.keepObjects? f with
    | none =>
      have hfewer := length_keepObjectItems_le f rest
      simp only [Option.toList_none, List.nil_append, Option.map_none, reduceCtorEq, false_and,
        iff_false]
      intro heq
      have hlength := congrArg List.length heq
      simp only [length_mapObjectsItems, List.length_cons] at hlength
      omega
    | some w => simp [mapObjectsItems]

/-- Mapping what is kept of a value is mapping the value exactly if this holds of its objects and
it has nothing besides them. -/
theorem map_keepObjects?_iff (h : ∀ fields, g (f fields) = g fields ↔ p fields = true) (v : Value) :
    (v.keepObjects? f).map (mapObjects g) = some (v.mapObjects g) ↔ v.allObjects p = true := by
  induction v using Value.induction with
  | array items ih =>
    rw [keepObjects?, Option.map_some, mapObjects, mapObjects, allObjects, Option.some.injEq,
      Value.array.injEq]
    exact mapObjectsItems_keepObjectItems_iff ih
  | object fields =>
    rw [keepObjects?, Option.map_some, mapObjects, mapObjects, allObjects, Option.some.injEq,
      Value.object.injEq]
    exact h fields
  | other v harray hobject =>
    cases v with
    | array items => cases harray
    | object fields => cases hobject
    | _ => simp [keepObjects?, allObjects]

end

end Value

/-! ### Paths of a selector -/

namespace Selector

mutual

/-- The paths that are read for a selector, name by name. -/
def reads : Selector → List (List String)
  | .all => [[]]
  | .none => []
  | .only fields => [Tree.classTag] :: readsFields fields

def readsFields : List (String × Selector) → List (List String)
  | [] => []
  | (name, s) :: rest => (reads s).map (name :: ·) ++ readsFields rest

end

theorem mem_readsFields {fields : Fields Selector} {path : List String} :
    path ∈ readsFields fields ↔
      ∃ name s, (name, s) ∈ fields ∧ ∃ rest ∈ s.reads, path = name :: rest := by
  induction fields with
  | nil => simp [readsFields]
  | cons first others ih =>
    obtain ⟨key, t⟩ := first
    rw [readsFields, List.mem_append, ih, List.mem_map]
    constructor
    · rintro (⟨rest, hrest, rfl⟩ | ⟨name, s, hmem, hpath⟩)
      · exact ⟨key, t, List.mem_cons_self, rest, hrest, rfl⟩
      · exact ⟨name, s, List.mem_cons_of_mem _ hmem, hpath⟩
    · rintro ⟨name, s, hmem, rest, hrest, rfl⟩
      rcases List.mem_cons.1 hmem with heq | hmem
      · cases heq
        exact .inl ⟨rest, hrest, rfl⟩
      · exact .inr ⟨name, s, hmem, rest, hrest, rfl⟩

theorem nil_not_mem_reads (fields : Fields Selector) : [] ∉ (Selector.only fields).reads := by
  rw [reads, List.mem_cons, mem_readsFields]
  rintro (heq | ⟨name, s, -, rest, -, heq⟩)
  · cases heq
  · cases heq

theorem cons_mem_reads_iff {fields : Fields Selector} (h : Fields.Distinct fields) {name : String}
    {s : Selector} (hs : (name, s) ∈ fields) (hname : name ≠ Tree.classTag) {rest : List String} :
    name :: rest ∈ (Selector.only fields).reads ↔ rest ∈ s.reads := by
  rw [reads, List.mem_cons, mem_readsFields]
  constructor
  · rintro (heq | ⟨name', s', hs', rest', hrest, heq⟩)
    · exact absurd (List.cons.inj heq).1 hname
    · obtain ⟨rfl, rfl⟩ := List.cons.inj heq
      have hsame : some s = some s' := by
        rw [← Fields.get?_of_mem h hs, ← Fields.get?_of_mem h hs']
      rwa [Option.some.inj hsame]
  · intro hrest
    exact .inr ⟨name, s, hs, rest, hrest, rfl⟩

theorem reads_ne_nil {s : Selector} (h : s ≠ .none) : s.reads ≠ [] := by
  cases s with
  | none => exact absurd rfl h
  | all => simp [reads]
  | only fields => simp [reads]

mutual

/-- Every listed name, at any level, stands for one object level. -/
def Proper : Selector → Prop
  | .only fields => FieldsProper fields
  | _ => True

def FieldsProper : List (String × Selector) → Prop
  | [] => True
  | (name, s) :: rest => Path.IsName name ∧ Proper s ∧ FieldsProper rest

end

theorem fieldsProper_iff {fields : Fields Selector} :
    FieldsProper fields ↔ ∀ entry ∈ fields, Path.IsName entry.1 ∧ entry.2.Proper := by
  induction fields with
  | nil => simp [FieldsProper]
  | cons entry rest ih => simp [FieldsProper, ih, and_assoc]

theorem Proper.isName {s : Selector} (h : s.Proper) {path : List String} (hpath : path ∈ s.reads)
    {name : String} (hname : name ∈ path) : Path.IsName name := by
  induction s using Selector.induction generalizing path with
  | all =>
    rw [reads, List.mem_singleton] at hpath
    subst hpath
    cases hname
  | none => cases hpath
  | only fields ih =>
    rw [Proper, fieldsProper_iff] at h
    rw [reads, List.mem_cons, mem_readsFields] at hpath
    rcases hpath with rfl | ⟨key, s, hs, rest, hrest, rfl⟩
    · rw [List.mem_singleton.1 hname]
      decide
    · rcases List.mem_cons.1 hname with rfl | hname
      · exact (h _ hs).1
      · exact ih _ hs (h _ hs).2 hrest hname

end Selector

namespace Projection

/-- Adds the paths that go on from the given names. -/
def addPaths (start : List String) (paths : List (List String)) (projection : Projection) :
    Projection :=
  paths.foldl (fun acc path => add (Path.ofNames (start ++ path)) acc) projection

theorem addPaths_append (start : List String) (paths others : List (List String))
    (projection : Projection) :
    addPaths start (paths ++ others) projection =
      addPaths start others (addPaths start paths projection) := List.foldl_append

theorem addPaths_map_cons (start : List String) (name : String) (paths : List (List String))
    (projection : Projection) :
    addPaths start (paths.map (name :: ·)) projection =
      addPaths (start ++ [name]) paths projection := by
  simp [addPaths, List.foldl_map]

theorem mem_add {path other : String} {projection : Projection} :
    other ∈ add path projection ↔ other ∈ projection ∨ other = path := by
  unfold add
  split
  · next hmem =>
    rw [List.contains_iff_mem] at hmem
    constructor
    · exact .inl
    · rintro (h | rfl)
      · exact h
      · exact hmem
  · rw [List.mem_append, List.mem_singleton]

theorem mem_addPaths {start : List String} {paths : List (List String)} {projection : Projection}
    {other : String} :
    other ∈ addPaths start paths projection ↔
      other ∈ projection ∨ ∃ path ∈ paths, other = Path.ofNames (start ++ path) := by
  induction paths generalizing projection with
  | nil => simp [addPaths]
  | cons path rest ih =>
    rw [addPaths, List.foldl_cons, ← addPaths, ih, mem_add, or_assoc]
    simp

/-- Adds what is read at a path itself: of everything, this path. -/
def addAt : Selector → String → Projection → Projection
  | .all, path, projection => add path projection
  | s, path, projection => addSelector s path projection

theorem addFields_cons (name : String) (s : Selector) (rest : Fields Selector) (path : String)
    (projection : Projection) :
    addFields ((name, s) :: rest) path projection =
      addFields rest path (addAt s (Path.join path name) projection) := by
  cases s with
  | all => rw [addFields, addAt]
  | none => rw [addFields, addAt, addSelector] <;> simp
  | only fields => rw [addFields, addAt]; simp

theorem addAt_ofNames (s : Selector) (start : List String) (projection : Projection) :
    addAt s (Path.ofNames start) projection = addPaths start s.reads projection := by
  induction s using Selector.induction generalizing start projection with
  | all => simp [addAt, Selector.reads, addPaths]
  | none => simp [addAt, addSelector, Selector.reads, addPaths]
  | only fields ih =>
    have hfields : ∀ (fields : Fields Selector) (projection : Projection),
        (∀ entry ∈ fields, ∀ start projection, addAt entry.2 (Path.ofNames start) projection =
          addPaths start entry.2.reads projection) →
        addFields fields (Path.ofNames start) projection =
          addPaths start (Selector.readsFields fields) projection := by
      intro fields projection h
      induction fields generalizing projection with
      | nil => rfl
      | cons entry rest ihRest =>
        obtain ⟨name, s⟩ := entry
        obtain ⟨hentry, hrest⟩ := List.forall_mem_cons.1 h
        rw [addFields_cons, Path.join_ofNames, hentry, ihRest _ hrest, Selector.readsFields,
          addPaths_append, addPaths_map_cons]
    rw [addAt, addSelector, hfields fields _ ih, Path.join_ofNames, Selector.reads]
    · rfl
    · simp

theorem ofSelector?_only (fields : Fields Selector) :
    ofSelector? (.only fields) = some (addPaths [] (Selector.only fields).reads []) := by
  rw [← addAt_ofNames, ofSelector?, addAt, Path.ofNames_nil] <;> simp

end Projection

/-! ### Trees of paths -/

namespace PathTree

def children : PathTree → List (String × PathTree)
  | .node _ children => children

/-- The tree of some paths, each given by its names. -/
def ofPaths (paths : List (List String)) : PathTree :=
  paths.foldl (fun tree path => insert path tree) empty

theorem ofProjection_eq_ofPaths (projection : Projection) :
    ofProjection projection = ofPaths (projection.map Path.segments) := by
  rw [ofPaths, List.foldl_map]
  rfl

theorem ofPaths_append_singleton (paths : List (List String)) (path : List String) :
    ofPaths (paths ++ [path]) = insert path (ofPaths paths) := by
  simp [ofPaths]

/-- What follows a name in the paths that begin with it. -/
def following (name : String) (paths : List (List String)) : List (List String) :=
  paths.filterMap fun
    | [] => none
    | first :: rest => if first = name then some rest else none

theorem mem_following {name : String} {paths : List (List String)} {rest : List String} :
    rest ∈ following name paths ↔ name :: rest ∈ paths := by
  rw [following, List.mem_filterMap]
  constructor
  · rintro ⟨path, hmem, hpath⟩
    cases path with
    | nil => cases hpath
    | cons first tail =>
      by_cases hfirst : first = name
      · simp only [hfirst, if_true, Option.some.injEq] at hpath
        rwa [hfirst, hpath] at hmem
      · simp [hfirst] at hpath
  · intro hmem
    exact ⟨name :: rest, hmem, by simp⟩

theorem isEnd_ofPaths (paths : List (List String)) :
    (ofPaths paths).isEnd = true ↔ [] ∈ paths := by
  induction paths using List.reverseRecOn with
  | nil => simp [ofPaths, empty, isEnd]
  | append_singleton paths path ih =>
    rw [ofPaths_append_singleton, List.mem_append, ← ih, List.mem_singleton]
    cases hbuilt : ofPaths paths with
    | node wasEnd children => cases path <;> simp [insert, isEnd]

theorem distinct_children_ofPaths (paths : List (List String)) :
    Fields.Distinct (ofPaths paths).children := by
  induction paths using List.reverseRecOn with
  | nil => exact List.nodup_nil
  | append_singleton paths path ih =>
    rw [ofPaths_append_singleton]
    cases hbuilt : ofPaths paths with
    | node wasEnd children =>
      rw [hbuilt] at ih
      cases path with
      | nil => exact ih
      | cons first rest => exact ih.insert first _

theorem get?_children_ofPaths (name : String) (paths : List (List String)) :
    Fields.get? name (ofPaths paths).children =
      if following name paths = [] then none else some (ofPaths (following name paths)) := by
  induction paths using List.reverseRecOn with
  | nil => rfl
  | append_singleton paths path ih =>
    have hfollowing : following name (paths ++ [path]) =
        following name paths ++ following name [path] := List.filterMap_append
    rw [ofPaths_append_singleton, hfollowing]
    cases hbuilt : ofPaths paths with
    | node wasEnd children =>
      rw [hbuilt, PathTree.children] at ih
      cases path with
      | nil => simpa [insert, PathTree.children, following] using ih
      | cons first rest =>
        by_cases hfirst : first = name
        · subst hfirst
          have hold : (Fields.get? first children).getD empty = ofPaths (following first paths) := by
            rw [ih]
            split
            · next hnone => rw [hnone]; rfl
            · rfl
          simp [insert, PathTree.children, following, hold, ofPaths_append_singleton]
        · have hother : following name [first :: rest] = [] := by simp [following, hfirst]
          rw [hother, List.append_nil, ← ih, insert, PathTree.children,
            Fields.get?_insert_of_ne (Ne.symm hfirst)]

/-- What a tree reads of a value that stands at its place. -/
def read? (tree : PathTree) (v : Value) : Option Value :=
  if tree.isEnd then some v else v.keepObjects? tree.project

theorem projectChildren_cons (name : String) (child : PathTree) (rest : List (String × PathTree))
    (fields acc : Object) :
    projectChildren ((name, child) :: rest) fields acc =
      projectChildren rest fields
        (match (Fields.get? name fields).bind child.read? with
          | some part => Fields.insert name part acc
          | none => acc) := by
  rw [projectChildren]
  cases hv : Fields.get? name fields with
  | none => rfl
  | some v =>
    cases hend : child.isEnd with
    | true => simp [read?, hend]
    | false =>
      simp only [read?, hend, Bool.false_eq_true, if_false, Option.bind_some]
      cases v.keepObjects? child.project <;> rfl

theorem get?_projectChildren {children : List (String × PathTree)} (h : Fields.Distinct children)
    (name : String) (fields acc : Object) :
    Fields.get? name (projectChildren children fields acc) =
      ((Fields.get? name children).bind fun child =>
        (Fields.get? name fields).bind child.read?).or (Fields.get? name acc) := by
  induction children generalizing acc with
  | nil => simp [projectChildren]
  | cons first rest ih =>
    obtain ⟨key, child⟩ := first
    obtain ⟨hkey, hrest⟩ := Fields.distinct_cons.1 h
    rw [projectChildren_cons, ih hrest]
    by_cases hname : key = name
    · subst hname
      rw [(Fields.get?_eq_none_iff _ _).2 hkey]
      simp only [Fields.get?, if_true, Option.bind_none, Option.none_or, Option.bind_some]
      cases (Fields.get? key fields).bind child.read? <;> simp
    · simp only [Fields.get?, hname, if_false]
      cases (Fields.get? key fields).bind child.read? with
      | none => rfl
      | some part => simp [Fields.get?_insert_of_ne (Ne.symm hname)]

theorem get?_project (paths : List (List String)) (name : String) (fields : Object) :
    Fields.get? name ((ofPaths paths).project fields) =
      if following name paths = [] then none
      else (Fields.get? name fields).bind (ofPaths (following name paths)).read? := by
  have hproject : (ofPaths paths).project fields =
      projectChildren (ofPaths paths).children fields [] := by
    cases ofPaths paths with
    | node wasEnd children => rw [project, PathTree.children]
  rw [hproject, get?_projectChildren (distinct_children_ofPaths paths), get?_children_ofPaths,
    Fields.get?_nil, Option.or_none]
  split <;> rfl

end PathTree

/-! ### Picking -/

namespace Selector

/-- What is picked of the field under a name. -/
def pickedField (always : List String) (name : String) (s : Selector) (fields : Object) : Value :=
  ((Fields.get? name fields).map (pick always s)).getD .undefined

section

variable {always : List String} {fields other picked : Object}

theorem pickFields_cons (name : String) (s : Selector) (rest : Fields Selector) :
    pickFields always ((name, s) :: rest) fields picked =
      pickFields always rest fields
        (if (pickedField always name s fields).isUndefined then picked
          else Fields.insert name (pickedField always name s fields) picked) := by
  rw [pickFields, pickedField]
  cases Fields.get? name fields <;> rfl

theorem pickFields_congr {selected : Fields Selector}
    (h : ∀ name s, (name, s) ∈ selected →
      pickedField always name s fields = pickedField always name s other) :
    pickFields always selected fields picked = pickFields always selected other picked := by
  induction selected generalizing picked with
  | nil => rfl
  | cons first rest ih =>
    obtain ⟨name, s⟩ := first
    rw [pickFields_cons, pickFields_cons, h name s List.mem_cons_self]
    exact ih fun name s hs => h name s (List.mem_cons_of_mem _ hs)

theorem get?_pickFields_of_not_mem {selected : Fields Selector} {name : String}
    (h : name ∉ Fields.keys selected) :
    Fields.get? name (pickFields always selected fields picked) = Fields.get? name picked := by
  induction selected generalizing picked with
  | nil => rfl
  | cons first rest ih =>
    obtain ⟨key, s⟩ := first
    obtain ⟨hkey, hrest⟩ := List.ne_and_not_mem_of_not_mem_cons h
    rw [pickFields_cons, ih hrest]
    split
    · rfl
    · exact Fields.get?_insert_of_ne hkey _ _

theorem get?_pickFields {selected : Fields Selector} (hd : Fields.Distinct selected) {name : String}
    {s : Selector} (hs : (name, s) ∈ selected) (hnew : Fields.get? name picked = Option.none) :
    (Fields.get? name (pickFields always selected fields picked)).getD .undefined =
      pickedField always name s fields := by
  induction selected generalizing picked with
  | nil => cases hs
  | cons first rest ih =>
    obtain ⟨key, t⟩ := first
    obtain ⟨hkey, hrest⟩ := Fields.distinct_cons.1 hd
    rw [pickFields_cons]
    rcases List.mem_cons.1 hs with heq | hmem
    · cases heq
      rw [get?_pickFields_of_not_mem hkey]
      split
      · next hundefined => rw [hnew, (Value.isUndefined_iff _).1 hundefined]; rfl
      · rw [Fields.get?_insert_self]; rfl
    · have hne : name ≠ key := by
        rintro rfl
        exact hkey (Fields.mem_keys_of_mem hmem)
      refine ih hrest hmem ?_
      split
      · exact hnew
      · rw [Fields.get?_insert_of_ne hne, hnew]

/-- Two objects with the same tag have the same fields picked exactly if this holds of each. -/
theorem pickFields_eq_iff {selected : Fields Selector} (hd : Fields.Distinct selected)
    (htag : Fields.get? Tree.classTag fields = Fields.get? Tree.classTag other) :
    pickFields [Tree.classTag] selected fields (included [Tree.classTag] fields) =
        pickFields [Tree.classTag] selected other (included [Tree.classTag] other) ↔
      ∀ name s, (name, s) ∈ selected → name = Tree.classTag ∨
        pickedField [Tree.classTag] name s fields = pickedField [Tree.classTag] name s other := by
  have hincluded : included [Tree.classTag] fields = included [Tree.classTag] other := by
    simp only [included, List.foldl_cons, List.foldl_nil, htag]
  rw [hincluded]
  constructor
  · intro heq name s hs
    by_cases hname : name = Tree.classTag
    · exact .inl hname
    · have hnew : Fields.get? name (included [Tree.classTag] other) = Option.none := by
        rw [included_eq_copyInto, Fields.get?_copyInto]
        simp [hname]
      right
      rw [← get?_pickFields hd hs hnew, ← get?_pickFields hd hs hnew, heq]
  · intro h
    refine pickFields_congr fun name s hs => ?_
    rcases h name s hs with rfl | h
    · rw [pickedField, pickedField, htag]
    · exact h

end

mutual

/-- Whether names are listed only for what consists of objects. -/
def fits : Selector → Value → Bool
  | .only fields, v => v.isUndefined || v.allObjects fun inner => fieldsFit fields inner
  | _, _ => true

/-- The class tag is read whole, whatever is listed for it. -/
def fieldsFit : List (String × Selector) → Object → Bool
  | [], _ => true
  | (name, s) :: rest, fields =>
    (name == Tree.classTag || fits s ((Fields.get? name fields).getD .undefined)) &&
      fieldsFit rest fields

end

theorem fieldsFit_iff {selected : Fields Selector} {fields : Object} :
    fieldsFit selected fields = true ↔ ∀ name s, (name, s) ∈ selected →
      name = Tree.classTag ∨ s.fits ((Fields.get? name fields).getD .undefined) = true := by
  induction selected with
  | nil => simp [fieldsFit]
  | cons first rest ih =>
    obtain ⟨key, t⟩ := first
    rw [fieldsFit, Bool.and_eq_true, ih, Bool.or_eq_true, beq_iff_eq]
    constructor
    · rintro ⟨hfirst, hrest⟩ name s hs
      rcases List.mem_cons.1 hs with heq | hmem
      · cases heq
        exact hfirst
      · exact hrest name s hmem
    · intro h
      exact ⟨h key t List.mem_cons_self, fun name s hs => h name s (List.mem_cons_of_mem _ hs)⟩

/-! ### Picking from what is read -/

/-- What is read under a listed name is what is there, unless its own paths do not lead to it. -/
theorem pickedField_project_iff {selected : Fields Selector} (hd : Fields.Distinct selected)
    {paths : List (List String)}
    (hpaths : ∀ path, path ∈ paths ↔ path ∈ (Selector.only selected).reads) {name : String}
    {s : Selector} (hs : (name, s) ∈ selected) (hname : name ≠ Tree.classTag)
    (ih : ∀ paths : List (List String), (∀ path, path ∈ paths ↔ path ∈ s.reads) → ∀ v,
      (((PathTree.ofPaths paths).read? v).map (pick [Tree.classTag] s)).getD .undefined =
        pick [Tree.classTag] s v ↔ s.fits v = true) (fields : Object) :
    pickedField [Tree.classTag] name s ((PathTree.ofPaths paths).project fields) =
        pickedField [Tree.classTag] name s fields ↔
      s.fits ((Fields.get? name fields).getD .undefined) = true := by
  have hfollowing : ∀ path, path ∈ PathTree.following name paths ↔ path ∈ s.reads := by
    intro path
    rw [PathTree.mem_following, hpaths, cons_mem_reads_iff hd hs hname]
  rw [pickedField, pickedField, PathTree.get?_project]
  by_cases hnone : s = .none
  · subst hnone
    have hpick : ∀ v : Option Value,
        (v.map (pick [Tree.classTag] .none)).getD .undefined = .undefined := by
      intro v
      cases v <;> simp [pick]
    simp [hpick, fits]
  · have hsome : PathTree.following name paths ≠ [] := by
      obtain ⟨path, hpath⟩ := List.exists_mem_of_ne_nil _ (reads_ne_nil hnone)
      exact List.ne_nil_of_mem ((hfollowing path).2 hpath)
    rw [if_neg hsome]
    cases hv : Fields.get? name fields with
    | none =>
      have hfits : s.fits .undefined = true := by cases s <;> simp [fits, Value.isUndefined]
      simp [hfits]
    | some v => exact ih _ hfollowing v

/-- Picking from what the tree of a selector's paths reads of a value is picking from the value
exactly if the selector fits it. -/
theorem pick_read?_iff {s : Selector} (hs : s.WellFormed) {paths : List (List String)}
    (hpaths : ∀ path, path ∈ paths ↔ path ∈ s.reads) (v : Value) :
    (((PathTree.ofPaths paths).read? v).map (pick [Tree.classTag] s)).getD .undefined =
      pick [Tree.classTag] s v ↔ s.fits v = true := by
  induction s using Selector.induction generalizing paths v with
  | all =>
    have hend : (PathTree.ofPaths paths).isEnd = true := by
      rw [PathTree.isEnd_ofPaths, hpaths, reads]
      exact List.mem_singleton.2 rfl
    simp [PathTree.read?, hend, pick, fits]
  | none => cases (PathTree.ofPaths paths).read? v <;> simp [pick, fits]
  | only selected ih =>
    obtain ⟨hd, hentries⟩ := wellFormed_only.1 hs
    have hinner : (PathTree.ofPaths paths).isEnd = false := by
      rw [← Bool.not_eq_true, PathTree.isEnd_ofPaths, hpaths]
      exact nil_not_mem_reads selected
    have htag : ∀ fields, Fields.get? Tree.classTag ((PathTree.ofPaths paths).project fields) =
        Fields.get? Tree.classTag fields := by
      intro fields
      have hmem : [] ∈ PathTree.following Tree.classTag paths := by
        rw [PathTree.mem_following, hpaths, reads]
        exact List.mem_cons_self
      have hend := (PathTree.isEnd_ofPaths _).2 hmem
      rw [PathTree.get?_project, if_neg (List.ne_nil_of_mem hmem)]
      cases Fields.get? Tree.classTag fields <;> simp [PathTree.read?, hend]
    have hobject : ∀ fields,
        pickFields [Tree.classTag] selected ((PathTree.ofPaths paths).project fields)
            (included [Tree.classTag] ((PathTree.ofPaths paths).project fields)) =
          pickFields [Tree.classTag] selected fields (included [Tree.classTag] fields) ↔
        fieldsFit selected fields = true := by
      intro fields
      rw [pickFields_eq_iff hd (htag fields), fieldsFit_iff]
      refine forall_congr' fun name => forall_congr' fun s => imp_congr_right fun hmem => ?_
      by_cases hname : name = Tree.classTag
      · simp [hname]
      · rw [pickedField_project_iff hd hpaths hmem hname]
        exact fun paths hpaths v => ih _ hmem (hentries _ hmem) hpaths v
    have hread : (PathTree.ofPaths paths).read? v =
        v.keepObjects? (PathTree.ofPaths paths).project := by
      simp [PathTree.read?, hinner]
    have hpick : pick [Tree.classTag] (.only selected) = Value.mapObjects fun fields =>
        pickFields [Tree.classTag] selected fields (included [Tree.classTag] fields) := by
      funext v
      rw [pick]
    have hvalue := Value.map_keepObjects?_iff (g := fun fields =>
      pickFields [Tree.classTag] selected fields (included [Tree.classTag] fields)) hobject v
    rw [← hpick, ← hread] at hvalue
    by_cases hundefined : v = .undefined
    · subst hundefined
      simp [PathTree.read?, hinner, Value.keepObjects?, hpick, Value.mapObjects, fits,
        Value.isUndefined]
    · have hfits : (Selector.only selected).fits v =
          v.allObjects fun fields => fieldsFit selected fields := by
        cases v <;> simp_all [fits, Value.isUndefined]
      have hdefined : pick [Tree.classTag] (.only selected) v ≠ .undefined := by
        rw [hpick]
        cases v <;> simp_all [Value.mapObjects]
      rw [hfits, ← hvalue]
      cases (PathTree.ofPaths paths).read? v with
      | none => simpa using hdefined.symm
      | some part => simp

/-- Reading through a projection loses nothing of what is picked exactly if the selector lists names
only for what consists of objects. -/
theorem pick_project_iff {s : Selector} (hs : s.WellFormed) (hproper : s.Proper)
    (document : Document) :
    pick [Tree.classTag] s
        (.object (Document.project document (Projection.ofSelector? s))) =
      pick [Tree.classTag] s (.object document) ↔ s.fits (.object document) = true := by
  cases s with
  | all => simp [Projection.ofSelector?, Document.project, fits]
  | none => simp [pick, fits]
  | only selected =>
    have hprojection := Projection.ofSelector?_only selected
    have hpaths : ∀ path,
        path ∈ (Projection.addPaths [] (Selector.only selected).reads []).map Path.segments ↔
          path ∈ (Selector.only selected).reads := by
      have hsegments : ∀ path ∈ (Selector.only selected).reads,
          Path.segments (Path.ofNames path) = path := by
        intro path hpath
        refine Path.segments_ofNames ?_ fun name hname => hproper.isName hpath hname
        rintro rfl
        exact nil_not_mem_reads selected hpath
      intro path
      rw [List.mem_map]
      constructor
      · rintro ⟨text, htext, rfl⟩
        rcases Projection.mem_addPaths.1 htext with hmem | ⟨path, hpath, rfl⟩
        · cases hmem
        · rwa [List.nil_append, hsegments path hpath]
      · intro hpath
        exact ⟨Path.ofNames path, Projection.mem_addPaths.2 (.inr ⟨path, hpath, rfl⟩),
          hsegments path hpath⟩
    have hinner : (PathTree.ofPaths
        ((Projection.addPaths [] (Selector.only selected).reads []).map Path.segments)).isEnd =
          false := by
      rw [← Bool.not_eq_true, PathTree.isEnd_ofPaths, hpaths]
      exact nil_not_mem_reads selected
    have hvalue := pick_read?_iff hs hpaths (.object document)
    rw [hprojection, Document.project, PathTree.ofProjection_eq_ofPaths]
    simpa [PathTree.read?, hinner, Value.keepObjects?] using hvalue

/-- The name of a director who also has an age. -/
theorem pick_project_director :
    let s : Selector := .only [("director", .only [("name", .all)])]
    let document : Document :=
      [(Tree.classTag, .string "Movie"), ("director", .object
        [(Tree.classTag, .string "Person"), ("name", .string "Agnes"), ("age", .ofNat 33)])]
    s.WellFormed ∧ s.Proper ∧
      pick [Tree.classTag] s (.object (Document.project document (Projection.ofSelector? s))) =
        pick [Tree.classTag] s (.object document) := by
  intro s document
  have hs : s.WellFormed := by
    simp [s, WellFormed, FieldsWellFormed, Fields.Distinct, Fields.keys]
  have hproper : s.Proper := by
    simp only [s, Proper, FieldsProper, and_true]
    decide
  exact ⟨hs, hproper, (pick_project_iff hs hproper document).2 (by decide)⟩

/-- An absent item among actors of whom the names are read is lost, though picking keeps it. -/
theorem pick_project_absent_actor :
    let s : Selector := .only [("actors", .only [("name", .all)])]
    let document : Document :=
      [(Tree.classTag, .string "Movie"), ("actors", .array
        [.object [(Tree.classTag, .string "Person"), ("name", .string "Agnes")], .null])]
    pick [Tree.classTag] s (.object (Document.project document (Projection.ofSelector? s))) ≠
      pick [Tree.classTag] s (.object document) := by
  intro s document
  have hprojection : Projection.ofSelector? s =
      some ["__component", "actors.__component", "actors.name"] := by
    simp [s, Projection.ofSelector?, Projection.addSelector, Projection.addFields, Projection.add,
      Path.join, Tree.classTag]
  have hread : Document.project document (Projection.ofSelector? s) =
      [(Tree.classTag, .string "Movie"), ("actors", .array
        [.object [(Tree.classTag, .string "Person"), ("name", .string "Agnes")]])] := by
    have htree : PathTree.ofProjection ["__component", "actors.__component", "actors.name"] =
        .node false [("__component", .node true []), ("actors", .node false
          [("__component", .node true []), ("name", .node true [])])] := rfl
    rw [hprojection, Document.project, htree]
    simp [document, PathTree.project, PathTree.projectChildren, PathTree.isEnd, Fields.get?,
      Fields.insert, Value.keepObjects?, Value.keepObjectItems, Tree.classTag]
  rw [hread]
  intro heq
  cases congrArg (fun v : Value => (v.field "actors").length?) heq

end Selector

end TypedRecords
