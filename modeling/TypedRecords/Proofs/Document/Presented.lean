import TypedRecords.Proofs.Document.Projected

/-! # What is read of a document

The projection of a selector leads to everything that it lists: what stands in a document under a listed
name is read, and what is picked of it stands in what is picked of the document. Only where names are
listed for what is neither object nor array, nothing is read.
-/

namespace TypedRecords

/-- A value in which names can be listed. -/
def Value.Nests : Value → Prop
  | .array _ => True
  | .object _ => True
  | _ => False

theorem Value.Nests.ne_undefined {v : Value} (h : v.Nests) : v ≠ .undefined := by
  rintro rfl
  exact h

namespace Selector

open PathTree (following ofPaths)

variable {fields : Fields Selector} {paths : List (List String)} {name : String} {s : Selector}

/-- Paths that lead to everything that a selector reads. -/
def Leads (s : Selector) (paths : List (List String)) : Prop :=
  ∀ path ∈ s.reads, (∀ name ∈ path, Path.IsName name) → path ∈ paths

namespace Leads

theorem following (h : (Selector.only fields).Leads paths) (hs : (name, s) ∈ fields)
    (hname : Path.IsName name) : s.Leads (following name paths) := by
  intro path hpath hnames
  rw [PathTree.mem_following]
  refine h _ ?_ (List.forall_mem_cons.2 ⟨hname, hnames⟩)
  rw [reads, List.mem_cons, mem_readsFields]
  exact .inr ⟨name, s, hs, path, hpath, rfl⟩

theorem ne_nil (h : s.Leads paths) (hs : s.isNone = false) : paths ≠ [] := by
  cases s with
  | none => cases hs
  | all => exact List.ne_nil_of_mem (h [] (by simp [reads]) (by simp))
  | only fields =>
    refine List.ne_nil_of_mem (h [Tree.classTag] (by simp [reads]) fun name hname => ?_)
    rw [List.mem_singleton.1 hname]
    decide

theorem read?_all (h : Selector.all.Leads paths) (v : Value) : (ofPaths paths).read? v = some v := by
  have hend : (ofPaths paths).isEnd = true :=
    (PathTree.isEnd_ofPaths paths).2 (h [] (by simp [reads]) (by simp))
  rw [PathTree.read?, if_pos hend]

/-- What is read under a listed name is what the paths that go on from there read. -/
theorem get?_project (h : (Selector.only fields).Leads paths) (hs : (name, s) ∈ fields)
    (hsome : s.isNone = false) (hname : Path.IsName name) (document : Document) :
    Fields.get? name ((ofPaths paths).project document) =
      (Fields.get? name document).bind (ofPaths (PathTree.following name paths)).read? := by
  rw [PathTree.get?_project, if_neg ((h.following hs hname).ne_nil hsome)]

/-- The tag of every object is read. -/
theorem get?_project_classTag (h : (Selector.only fields).Leads paths) (document : Document) :
    Fields.get? Tree.classTag ((ofPaths paths).project document) =
      Fields.get? Tree.classTag document := by
  have hmem : [] ∈ PathTree.following Tree.classTag paths := by
    rw [PathTree.mem_following]
    refine h _ (by simp [reads]) fun name hname => ?_
    rw [List.mem_singleton.1 hname]
    decide
  have hend := (PathTree.isEnd_ofPaths _).2 hmem
  rw [PathTree.get?_project, if_neg (List.ne_nil_of_mem hmem)]
  cases Fields.get? Tree.classTag document <;> simp [PathTree.read?, hend]

end Leads

/-- Reading a document for a selector goes along paths that lead to all that it reads. -/
theorem project_leads (fields : Fields Selector) :
    ∃ paths, (Selector.only fields).Leads paths ∧ ∀ document : Document,
      Document.project document (Projection.ofSelector? (.only fields)) =
        (ofPaths paths).project document := by
  have hprojection : Projection.ofSelector? (.only fields) =
      some (Projection.addPaths [] (Selector.only fields).reads []) := by
    rw [← Projection.addAt_ofNames, Projection.ofSelector?, Projection.addAt, Path.ofNames_nil] <;>
      simp
  refine ⟨(Projection.addPaths [] (Selector.only fields).reads []).map Path.segments, ?_, ?_⟩
  · intro path hpath hnames
    have hne : path ≠ [] := by
      rintro rfl
      exact nil_not_mem_reads fields hpath
    exact List.mem_map.2 ⟨Path.ofNames path, Projection.mem_addPaths.2 (.inr ⟨path, hpath, rfl⟩),
      Path.segments_ofNames hne hnames⟩
  · intro document
    rw [hprojection, Document.project, PathTree.ofProjection_eq_ofPaths]

/-! ### Picking -/

theorem pick_object (always : List String) (fields : Fields Selector) (document : Object) :
    pick always (.only fields) (.object document) =
      .object (pickFields always fields document (included always document)) := by
  rw [pick, Value.mapObjects]

theorem get?_included_classTag {document : Object} (h : name ≠ Tree.classTag) :
    Fields.get? name (included [Tree.classTag] document) = Option.none := by
  rw [included_eq_copyInto, Fields.get?_copyInto]
  simp [h]

theorem keys_pickFields {always : List String} {document picked : Object}
    (h : name ∈ Fields.keys (pickFields always fields document picked)) :
    name ∈ Fields.keys fields ∨ name ∈ Fields.keys picked := by
  by_cases hlisted : name ∈ Fields.keys fields
  · exact .inl hlisted
  · obtain ⟨v, hv⟩ := Fields.mem_keys_iff.1 h
    rw [get?_pickFields_of_not_mem hlisted] at hv
    exact .inr (Fields.mem_keys_iff.2 ⟨v, hv⟩)

theorem distinct_pickFields {always : List String} {document picked : Object}
    (h : Fields.Distinct picked) : Fields.Distinct (pickFields always fields document picked) := by
  induction fields generalizing picked with
  | nil => exact h
  | cons entry rest ih =>
    obtain ⟨name, s⟩ := entry
    rw [pickFields_cons]
    refine ih ?_
    split
    · exact h
    · exact h.insert _ _

/-- What is picked of the fields of an object under a listed name. -/
theorem get?_pickFields_of_get? (hd : Fields.Distinct fields) (hs : (name, s) ∈ fields)
    (hname : name ≠ Tree.classTag) {document : Object} {v : Value}
    (hv : Fields.get? name document = some v) (hpick : pick [Tree.classTag] s v ≠ .undefined) :
    Fields.get? name (pickFields [Tree.classTag] fields document
      (included [Tree.classTag] document)) = some (pick [Tree.classTag] s v) := by
  have hpicked : (Fields.get? name (pickFields [Tree.classTag] fields document
      (included [Tree.classTag] document))).getD .undefined =
        pickedField [Tree.classTag] name s document :=
    get?_pickFields hd hs (get?_included_classTag hname)
  rw [pickedField, hv, Option.map_some, Option.getD_some] at hpicked
  cases hread : Fields.get? name (pickFields [Tree.classTag] fields document
    (included [Tree.classTag] document)) with
  | none =>
    rw [hread] at hpicked
    exact absurd hpicked.symm hpick
  | some w =>
    rw [hread, Option.getD_some] at hpicked
    rw [hpicked]

theorem pick_only_of_nests {v : Value} (hv : v.Nests) :
    (pick [Tree.classTag] (.only fields) v).Nests := by
  rw [pick]
  cases v <;> first | exact trivial | exact hv.elim

/-- What is read of a value in which names can be listed. -/
theorem Leads.nests_read? {v : Value} (hv : v.Nests) (paths : List (List String)) :
    ∃ w, (ofPaths paths).read? v = some w ∧ w.Nests := by
  rw [PathTree.read?]
  split
  · exact ⟨v, rfl, hv⟩
  · cases v with
    | array items => exact ⟨_, rfl, trivial⟩
    | object fields => exact ⟨_, rfl, trivial⟩
    | _ => exact hv.elim

/-- What a document presents under a listed name is picked. -/
theorem mem_keys_pickFields_project (hd : Fields.Distinct fields) (hs : (name, s) ∈ fields)
    (hsome : s.isNone = false) (hname : Path.IsName name) (htag : name ≠ Tree.classTag)
    {document : Document} {v : Value} (hv : Fields.get? name document = some v)
    (hdefined : v ≠ .undefined) (hnests : s.isAll = false → v.Nests) :
    let read := Document.project document (Projection.ofSelector? (.only fields))
    name ∈ Fields.keys (pickFields [Tree.classTag] fields read (included [Tree.classTag] read)) := by
  intro read
  obtain ⟨paths, hleads, hproject⟩ := project_leads fields
  have hread : Fields.get? name read = (ofPaths (PathTree.following name paths)).read? v := by
    rw [show read = _ from hproject document, hleads.get?_project hs hsome hname, hv]
    rfl
  have hbelow := hleads.following hs hname
  rw [Fields.mem_keys_iff]
  cases s with
  | none => cases hsome
  | all =>
    rw [hbelow.read?_all] at hread
    exact ⟨_, get?_pickFields_of_get? hd hs htag hread hdefined⟩
  | only inner =>
    obtain ⟨w, hw, hwnests⟩ := Leads.nests_read? (hnests rfl) (PathTree.following name paths)
    rw [hw] at hread
    exact ⟨_, get?_pickFields_of_get? hd hs htag hread (pick_only_of_nests hwnests).ne_undefined⟩

/-- What a document presents under a name that is selected entirely is picked as it is. -/
theorem get?_pickFields_project_all (hd : Fields.Distinct fields) (hs : (name, Selector.all) ∈ fields)
    (hname : Path.IsName name) (htag : name ≠ Tree.classTag) {document : Document} {v : Value}
    (hv : Fields.get? name document = some v) (hdefined : v ≠ .undefined) :
    let read := Document.project document (Projection.ofSelector? (.only fields))
    Fields.get? name (pickFields [Tree.classTag] fields read (included [Tree.classTag] read)) =
      some v := by
  intro read
  obtain ⟨paths, hleads, hproject⟩ := project_leads fields
  refine get?_pickFields_of_get? hd hs htag ?_ hdefined
  rw [show read = _ from hproject document, hleads.get?_project hs rfl hname, hv, Option.bind_some,
    (hleads.following hs hname).read?_all]

end Selector

end TypedRecords
