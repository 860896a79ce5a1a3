import TypedRecords.Document.Projection
import TypedRecords.Selector.Pick
import TypedRecords.Proofs.Fields
import TypedRecords.Proofs.Record.Reading

/-! # Parts of documents

What is projected and picked of a value is a part of it: objects with some of their fields, arrays with
some of their items. No object is of another class than before, though it may have lost its tag, and
no record is held that was not held before.
-/

namespace TypedRecords

namespace Value

/-- A part of a value, which may be nothing of it. -/
inductive PartOf : Value → Value → Prop
  | nothing (v : Value) : PartOf .undefined v
  | whole (v : Value) : PartOf v v
  | array {items part : List Value} (whence : Value → Value) (mem : ∀ v ∈ part, whence v ∈ items)
    (parts : ∀ v ∈ part, PartOf v (whence v)) : PartOf (.array part) (.array items)
  | object {fields part : Object} (whence : String × Value → Value)
    (mem : ∀ entry ∈ part, (entry.1, whence entry) ∈ fields)
    (parts : ∀ entry ∈ part, PartOf entry.2 (whence entry))
    (tag : ∀ text, Fields.get? Tree.classTag part = some (.string text) →
      Fields.get? Tree.classTag fields = some (.string text)) :
    PartOf (.object part) (.object fields)

namespace PartOf

variable {v w : Value} {fields part : Object} {name : String}

theorem array_of {items part : List Value} (h : ∀ w ∈ part, ∃ v ∈ items, PartOf w v) :
    PartOf (.array part) (.array items) := by
  choose! whence hmem hparts using h
  exact .array whence hmem hparts

theorem object_of (h : ∀ entry ∈ part, ∃ v, (entry.1, v) ∈ fields ∧ PartOf entry.2 v)
    (htag : ∀ text, Fields.get? Tree.classTag part = some (.string text) →
      Fields.get? Tree.classTag fields = some (.string text)) :
    PartOf (.object part) (.object fields) := by
  choose! whence hparts using h
  exact .object whence (fun entry he => (hparts entry he).1) (fun entry he => (hparts entry he).2) htag

/-- The fields of a part are parts of fields of the same names. -/
theorem fields_of (h : PartOf (.object part) (.object fields)) :
    ∀ entry ∈ part, ∃ v, (entry.1, v) ∈ fields ∧ PartOf entry.2 v := by
  cases h with
  | whole => exact fun entry he => ⟨entry.2, he, .whole _⟩
  | object whence hmem hparts _ => exact fun entry he => ⟨_, hmem entry he, hparts entry he⟩

theorem tag_of (h : PartOf (.object part) (.object fields)) {text : String}
    (htag : Fields.get? Tree.classTag part = some (.string text)) :
    Fields.get? Tree.classTag fields = some (.string text) := by
  cases h with
  | whole => exact htag
  | object _ _ _ hkept => exact hkept text htag

theorem empty (fields : Object) : PartOf (.object []) (.object fields) :=
  object_of (fun _ he => by cases he) fun _ htag => by cases htag

theorem insert (h : PartOf (.object part) (.object fields)) (hv : Fields.get? name fields = some v)
    (hw : PartOf w v) : PartOf (.object (Fields.insert name w part)) (.object fields) := by
  refine object_of (fun entry hentry => ?_) fun text htag => ?_
  · rcases Fields.mem_insert hentry with hmem | rfl
    · exact h.fields_of entry hmem
    · exact ⟨v, Fields.mem_of_get? hv, hw⟩
  · by_cases hname : Tree.classTag = name
    · subst hname
      rw [Fields.get?_insert_self] at htag
      cases htag
      cases hw
      exact hv
    · rw [Fields.get?_insert_of_ne hname] at htag
      exact h.tag_of htag

theorem within {known : Set RecordRef} (h : PartOf w v) (hv : v.Within known) : w.Within known := by
  induction h with
  | nothing v => exact fun r hr => by cases hr
  | whole v => exact hv
  | array whence mem _ ih =>
    exact within_array.2 fun w hw => ih w hw (within_array.1 hv _ (mem w hw))
  | object whence mem _ _ ih =>
    exact within_object.2 fun entry he => ih entry he (within_object.1 hv _ (mem entry he))

end PartOf

/-! ### Picking -/

theorem partOf_mapObjects {f : Object → Object} (hf : ∀ o, PartOf (.object (f o)) (.object o))
    (v : Value) : PartOf (v.mapObjects f) v := by
  induction v using Value.induction with
  | array items ih =>
    refine .array_of ?_
    induction items with
    | nil => simp [mapObjectsItems]
    | cons v rest ihRest =>
      obtain ⟨hfirst, hrest⟩ := List.forall_mem_cons.1 ih
      intro w hw
      rcases List.mem_cons.1 hw with rfl | hw
      · exact ⟨v, List.mem_cons_self, hfirst⟩
      · obtain ⟨v', hv', hpart⟩ := ihRest hrest w hw
        exact ⟨v', List.mem_cons_of_mem v hv', hpart⟩
  | object fields _ => exact hf fields
  | other v harray hobject =>
    cases v with
    | array items => cases harray
    | object fields => cases hobject
    | _ => exact .whole _

theorem partOf_included (always : List String) (fields : Object) :
    PartOf (.object (Selector.included always fields)) (.object fields) := by
  unfold Selector.included
  refine List.foldlRecOn (motive := fun acc => PartOf (.object acc) (.object fields)) _ _
    (.empty fields) ?_
  intro acc hacc name _
  split
  · next v hv => exact hacc.insert hv (.whole v)
  · exact hacc

mutual

theorem partOf_pick (always : List String) (s : Selector) (v : Value) :
    PartOf (Selector.pick always s v) v := by
  cases s with
  | none => exact .nothing v
  | all => exact .whole v
  | only selected =>
    exact partOf_mapObjects (fun o => partOf_pickFields always selected (partOf_included always o)) v

theorem partOf_pickFields (always : List String) (selected : List (String × Selector))
    {fields picked : Object} (hpicked : PartOf (.object picked) (.object fields)) :
    PartOf (.object (Selector.pickFields always selected fields picked)) (.object fields) := by
  cases selected with
  | nil => exact hpicked
  | cons entry rest =>
    obtain ⟨name, s⟩ := entry
    rw [Selector.pickFields]
    split
    · exact partOf_pickFields always rest hpicked
    · next v hv =>
      refine partOf_pickFields always rest ?_
      split
      · exact hpicked
      · exact hpicked.insert hv (partOf_pick always s v)

end

/-! ### Projecting -/

theorem partOf_keepObjects? {f : Object → Object} (hf : ∀ o, PartOf (.object (f o)) (.object o))
    {v w : Value} (h : v.keepObjects? f = some w) : PartOf w v := by
  induction v using Value.induction generalizing w with
  | array items ih =>
    cases h
    refine .array_of ?_
    induction items with
    | nil => simp [keepObjectItems]
    | cons v rest ihRest =>
      obtain ⟨hfirst, hrest⟩ := List.forall_mem_cons.1 ih
      intro w hw
      rcases List.mem_append.1 hw with hw | hw
      · exact ⟨v, List.mem_cons_self, hfirst (Option.mem_toList.1 hw)⟩
      · obtain ⟨v', hv', hpart⟩ := ihRest hrest w hw
        exact ⟨v', List.mem_cons_of_mem v hv', hpart⟩
  | object fields _ =>
    cases h
    exact hf fields
  | other v harray hobject =>
    cases v with
    | array items => cases harray
    | object fields => cases hobject
    | _ => cases h

mutual

theorem partOf_projectTree (tree : PathTree) (fields : Object) :
    PartOf (.object (tree.project fields)) (.object fields) := by
  cases tree with
  | node isEnd children =>
    rw [PathTree.project]
    exact partOf_projectChildren children (.empty fields)

theorem partOf_projectChildren (children : List (String × PathTree)) {fields acc : Object}
    (hacc : PartOf (.object acc) (.object fields)) :
    PartOf (.object (PathTree.projectChildren children fields acc)) (.object fields) := by
  cases children with
  | nil =>
    rw [PathTree.projectChildren]
    exact hacc
  | cons entry rest =>
    obtain ⟨name, child⟩ := entry
    rw [PathTree.projectChildren]
    split
    · exact partOf_projectChildren rest hacc
    · next v hv =>
      split
      · exact partOf_projectChildren rest (hacc.insert hv (.whole v))
      · split
        · next part hpart =>
          have hkept := partOf_keepObjects? (fun o => partOf_projectTree child o) hpart
          exact partOf_projectChildren rest (hacc.insert hv hkept)
        · exact partOf_projectChildren rest hacc

end

theorem partOf_project (document : Document) (projection : Option Projection) :
    PartOf (.object (Document.project document projection)) (.object document) := by
  cases projection with
  | none => exact .whole _
  | some paths => exact partOf_projectTree _ document

end Value

end TypedRecords
