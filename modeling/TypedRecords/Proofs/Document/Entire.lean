import TypedRecords.Selector.Pick
import TypedRecords.Document.Projection
import TypedRecords.Proofs.Document.Names
import TypedRecords.Proofs.Fields

/-! # Reading all attributes

A selector that lists names, each entirely, reads the tag of a document and its fields under these
names.
-/

namespace TypedRecords

/-! ### Copied fields -/

namespace Fields

variable {α : Type} {fields acc : Fields α}

/-- Writes the fields with the given names, in the order of the names. -/
def copyInto (names : List String) (fields acc : Fields α) : Fields α :=
  names.foldl (fun acc name => match get? name fields with
    | some value => insert name value acc
    | none => acc) acc

theorem get?_copyInto (names : List String) (name : String) :
    get? name (copyInto names fields acc) =
      (if name ∈ names then get? name fields else none).or (get? name acc) := by
  induction names generalizing acc with
  | nil => rfl
  | cons first rest ih =>
    rw [copyInto, List.foldl_cons, ← copyInto, ih]
    by_cases hrest : name ∈ rest
    · rw [if_pos hrest, if_pos (List.mem_cons_of_mem _ hrest)]
      cases hvalue : get? name fields with
      | some value => rfl
      | none =>
        cases hfirst : get? first fields with
        | none => rfl
        | some value =>
          have hne : name ≠ first := by
            rintro rfl
            rw [hvalue] at hfirst
            cases hfirst
          simp [get?_insert_of_ne hne]
    · rw [if_neg hrest]
      by_cases hname : name = first
      · subst hname
        rw [if_pos List.mem_cons_self]
        cases get? name fields <;> simp
      · rw [if_neg (by simp [hname, hrest])]
        cases get? first fields with
        | none => rfl
        | some value => simp [get?_insert_of_ne hname]

theorem distinct_copyInto (names : List String) (h : Distinct acc) :
    Distinct (copyInto names fields acc) := by
  induction names generalizing acc with
  | nil => exact h
  | cons first rest ih =>
    rw [copyInto, List.foldl_cons, ← copyInto]
    refine ih ?_
    cases get? first fields with
    | none => exact h
    | some value => exact h.insert first value

end Fields

/-! ### Selected entirely -/

/-- Lists names, each with everything below it. -/
def Selector.entire (names : List String) : Selector := .only (names.map fun name => (name, .all))

namespace Selector

theorem names_entire (names : List String) : (entire names).names = names := by
  simp [entire, Selector.names, Fields.keys, Function.comp_def]

theorem get_entire {names : List String} {name : String} (h : name ∈ names) :
    (entire names).get name = .all := by
  have hread : Fields.get? name (names.map fun name => (name, Selector.all)) = some .all := by
    induction names with
    | nil => cases h
    | cons first rest ih =>
      rw [List.map_cons, Fields.get?]
      split
      · rfl
      · next hne => exact ih ((List.mem_cons.1 h).resolve_left fun heq => hne heq.symm)
  rw [entire, Selector.get, hread]
  rfl

theorem included_eq_copyInto (always : List String) (fields : Object) :
    included always fields = Fields.copyInto always fields [] := by
  unfold included Fields.copyInto
  congr 1
  funext acc name
  cases Fields.get? name fields <;> rfl

/-- Nothing is left out of an object without undefined fields. -/
theorem pickFields_entire (always : List String) {fields : Object}
    (hdefined : ∀ name v, Fields.get? name fields = some v → v ≠ .undefined) (names : List String)
    (picked : Object) :
    pickFields always (names.map fun name => (name, .all)) fields picked =
      Fields.copyInto names fields picked := by
  induction names generalizing picked with
  | nil => rfl
  | cons first rest ih =>
    rw [List.map_cons, pickFields, Fields.copyInto, List.foldl_cons, ← Fields.copyInto]
    cases hread : Fields.get? first fields with
    | none => exact ih picked
    | some v =>
      have hv : v.isUndefined = false := by
        rw [← Bool.not_eq_true, Value.isUndefined_iff]
        exact hdefined first v hread
      simp only [pick, hv, Bool.false_eq_true, if_false]
      exact ih _

end Selector

/-! ### Projected entirely -/

namespace Projection

theorem addFields_entire {names : List String} (hnodup : names.Nodup) {acc : Projection}
    (hnew : ∀ name ∈ names, name ∉ acc) :
    addFields (names.map fun name => (name, .all)) "" acc = acc ++ names := by
  induction names generalizing acc with
  | nil => rw [List.map_nil, addFields, List.append_nil]
  | cons first rest ih =>
    obtain ⟨hfirst, hrest⟩ := List.nodup_cons.1 hnodup
    obtain ⟨hnewFirst, hnewRest⟩ := List.forall_mem_cons.1 hnew
    have hadd : add (Path.join "" first) acc = acc ++ [first] := by
      simp [add, Path.join_empty, hnewFirst]
    rw [List.map_cons, addFields, hadd, ih hrest, List.append_assoc]
    · rfl
    · intro name hname hmem
      rcases List.mem_append.1 hmem with hmem | hmem
      · exact hnewRest name hname hmem
      · exact hfirst (List.mem_singleton.1 hmem ▸ hname)

theorem ofSelector?_entire {names : List String} (hnodup : names.Nodup)
    (htag : Tree.classTag ∉ names) :
    ofSelector? (Selector.entire names) = some (Tree.classTag :: names) := by
  have hnew : ∀ name ∈ names, name ∉ [Tree.classTag] := by
    intro name hname hmem
    exact htag (List.mem_singleton.1 hmem ▸ hname)
  have hadd : add (Path.join "" Tree.classTag) [] = [Tree.classTag] := rfl
  rw [Selector.entire, ofSelector?]
  · rw [addSelector, hadd, addFields_entire hnodup hnew]
    rfl
  · simp
  · simp

end Projection

namespace PathTree

/-- Paths of single names. -/
def leaves (names : List String) : List (String × PathTree) :=
  names.map fun name => (name, .node true [])

theorem ofProjection_names {names : List String} (hnodup : names.Nodup)
    (hnames : ∀ name ∈ names, Path.IsName name) :
    ofProjection names = .node false (leaves names) := by
  suffices h : ∀ before, (before ++ names).Nodup →
      names.foldl (fun tree path => insert (Path.segments path) tree) (.node false (leaves before)) =
        .node false (leaves (before ++ names)) by
    exact h [] hnodup
  clear hnodup
  induction names with
  | nil => simp
  | cons first rest ih =>
    intro before hnodup
    obtain ⟨hfirst, hrest⟩ := List.forall_mem_cons.1 hnames
    have hunused : first ∉ Fields.keys (leaves before) := by
      have hkeys : Fields.keys (leaves before) = before := by
        simp [leaves, Fields.keys, Function.comp_def]
      rw [hkeys]
      intro hmem
      exact (List.nodup_append.1 hnodup).2.2 first hmem first List.mem_cons_self rfl
    have hinsert : insert (Path.segments first) (.node false (leaves before)) =
        .node false (leaves (before ++ [first])) := by
      rw [Path.segments_of_isName hfirst, insert, (Fields.get?_eq_none_iff _ _).2 hunused,
        Option.getD_none, empty, insert, Fields.insert_of_not_mem hunused]
      simp [leaves]
    rw [List.foldl_cons, hinsert, ih hrest (before ++ [first]) (by simpa using hnodup)]
    simp

theorem projectChildren_leaves (names : List String) (fields acc : Object) :
    projectChildren (leaves names) fields acc = Fields.copyInto names fields acc := by
  induction names generalizing acc with
  | nil => rw [leaves, List.map_nil, projectChildren]; rfl
  | cons first rest ih =>
    rw [leaves, List.map_cons, ← leaves, projectChildren, Fields.copyInto, List.foldl_cons,
      ← Fields.copyInto]
    cases hread : Fields.get? first fields with
    | none => exact ih acc
    | some v => exact ih _

end PathTree

/-! ### Both together -/

/-- What is picked of what is read of a document: all of it, if it has no other fields. -/
theorem Selector.pick_project {names : List String} (hnodup : names.Nodup)
    (hnames : ∀ name ∈ names, Path.IsName name) (htag : Tree.classTag ∉ names)
    {document : Document} (hdefined : ∀ name v, Fields.get? name document = some v → v ≠ .undefined)
    (hkeys : ∀ name ∈ Fields.keys document, name = Tree.classTag ∨ name ∈ names) :
    ∃ picked, Selector.pick [Tree.classTag] (Selector.entire names)
        (.object (Document.project document (Projection.ofSelector? (Selector.entire names)))) =
          .object picked ∧
      Fields.Distinct picked ∧ ∀ name, Fields.get? name picked = Fields.get? name document := by
  have hpaths : (Tree.classTag :: names).Nodup := List.nodup_cons.2 ⟨htag, hnodup⟩
  have hproper : ∀ name ∈ Tree.classTag :: names, Path.IsName name :=
    List.forall_mem_cons.2 ⟨by decide, hnames⟩
  have hproject : Document.project document (Projection.ofSelector? (Selector.entire names)) =
      Fields.copyInto (Tree.classTag :: names) document [] := by
    rw [Projection.ofSelector?_entire hnodup htag, Document.project,
      PathTree.ofProjection_names hpaths hproper, PathTree.project, PathTree.projectChildren_leaves]
  have hread : ∀ name, Fields.get? name (Fields.copyInto (Tree.classTag :: names) document []) =
      Fields.get? name document := by
    intro name
    rw [Fields.get?_copyInto, Fields.get?_nil, Option.or_none]
    by_cases hmem : name ∈ Tree.classTag :: names
    · rw [if_pos hmem]
    · rw [if_neg hmem]
      refine ((Fields.get?_eq_none_iff _ _).2 fun hkey => hmem ?_).symm
      exact List.mem_cons.2 (hkeys name hkey)
  refine ⟨Fields.copyInto names (Fields.copyInto (Tree.classTag :: names) document [])
    (Fields.copyInto [Tree.classTag] (Fields.copyInto (Tree.classTag :: names) document []) []),
    ?_, ?_, ?_⟩
  · rw [hproject, Selector.entire, Selector.pick, Value.mapObjects, included_eq_copyInto,
      pickFields_entire]
    intro name v hv
    rw [hread] at hv
    exact hdefined name v hv
  · exact Fields.distinct_copyInto _ (Fields.distinct_copyInto _ List.nodup_nil)
  · intro name
    rw [Fields.get?_copyInto, hread, Fields.get?_copyInto, hread, Fields.get?_nil, Option.or_none]
    by_cases hmem : name ∈ names
    · rw [if_pos hmem]
      by_cases hclass : name = Tree.classTag
      · exact absurd (hclass ▸ hmem) htag
      · simp [hclass]
    · rw [if_neg hmem, Option.none_or]
      by_cases hclass : name = Tree.classTag
      · simp [hclass]
      · rw [if_neg (by simpa using hclass)]
        refine ((Fields.get?_eq_none_iff _ _).2 fun hkey => ?_).symm
        rcases hkeys name hkey with heq | hkey
        · exact hclass heq
        · exact hmem hkey

end TypedRecords
