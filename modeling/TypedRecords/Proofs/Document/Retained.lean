import TypedRecords.Proofs.Document.Presented
import TypedRecords.Proofs.Selector.Paths
import TypedRecords.Proofs.Value.WellFormed

/-! # What stays of the objects in a document

What is read and picked of a value has the objects that the value has, in the same order, each reduced to
what is selected of it. An object keeps its tag and all that is selected entirely, at any depth through
arrays and other objects.
-/

namespace TypedRecords

namespace Value

/-! ### Objects -/

mutual

/-- The outermost objects of a value, in order, looking through arrays. -/
def objects : Value → List Object
  | .object fields => [fields]
  | .array items => objectsOfItems items
  | _ => []

def objectsOfItems : List Value → List Object
  | [] => []
  | v :: rest => objects v ++ objectsOfItems rest

end

theorem objects_mapObjects (f : Object → Object) (v : Value) :
    (v.mapObjects f).objects = v.objects.map f := by
  induction v using Value.induction with
  | array items ih =>
    rw [mapObjects, objects, objects]
    induction items with
    | nil => rfl
    | cons v rest ihRest =>
      obtain ⟨hv, hrest⟩ := List.forall_mem_cons.1 ih
      rw [mapObjectsItems, objectsOfItems, objectsOfItems, hv, ihRest hrest, List.map_append]
  | object fields _ => rfl
  | other v harray hobject =>
    cases v with
    | array items => cases harray
    | object fields => cases hobject
    | _ => rfl

theorem objects_keepObjects? {f : Object → Object} {v w : Value} (h : v.keepObjects? f = some w) :
    w.objects = v.objects.map f := by
  induction v using Value.induction generalizing w with
  | array items ih =>
    cases h
    rw [objects, objects]
    induction items with
    | nil => rfl
    | cons v rest ihRest =>
      obtain ⟨hv, hrest⟩ := List.forall_mem_cons.1 ih
      rw [keepObjectItems, objectsOfItems, List.map_append, ← ihRest hrest]
      cases hkept : v.keepObjects? f with
      | some part =>
        rw [← hv hkept]
        rfl
      | none =>
        have hnone : v.objects = [] := by
          cases v with
          | array items => cases hkept
          | object fields => cases hkept
          | _ => rfl
        rw [hnone]
        rfl
  | object fields _ =>
    cases h
    rfl
  | other v harray hobject =>
    cases v with
    | array items => cases harray
    | object fields => cases hobject
    | _ => cases h

theorem nests_of_mem_objects {v : Value} {o : Object} (h : o ∈ v.objects) : v.Nests := by
  cases v with
  | array items => exact trivial
  | object fields => exact trivial
  | _ => cases h

theorem wellFormed_of_mem_objects {v : Value} (hv : v.WellFormed) {o : Object}
    (h : o ∈ v.objects) : (Value.object o).WellFormed := by
  induction v using Value.induction with
  | array items ih =>
    have hitems := wellFormed_array.1 hv
    rw [objects] at h
    clear hv
    induction items with
    | nil => cases h
    | cons v rest ihRest =>
      obtain ⟨hfirst, hrest⟩ := List.forall_mem_cons.1 ih
      obtain ⟨hv, hvs⟩ := List.forall_mem_cons.1 hitems
      rcases List.mem_append.1 h with h | h
      · exact hfirst hv h
      · exact ihRest hrest h hvs
  | object fields _ =>
    rw [List.mem_singleton.1 h]
    exact hv
  | other v harray hobject =>
    cases v with
    | array items => cases harray
    | object fields => cases hobject
    | _ => cases h

end Value

/-- What is missing in an object is missing in what is read of it. -/
theorem PathTree.get?_project_undefined (paths : List (List String)) (o : Object) (name : String)
    (h : (Fields.get? name o).getD .undefined = .undefined) :
    (Fields.get? name ((PathTree.ofPaths paths).project o)).getD .undefined = .undefined := by
  rw [PathTree.get?_project]
  split
  · rfl
  · cases hv : Fields.get? name o with
    | none => rfl
    | some v =>
      rw [hv, Option.getD_some] at h
      subst h
      rw [Option.bind_some, PathTree.read?]
      split <;> rfl

namespace Selector

open PathTree (ofPaths)

variable {fields : Fields Selector} {name : String} {s : Selector} {read : Value → Option Value}

/-! ### Reading values -/

/-- How a value is read for a selector: as a whole, or along paths that lead to all that is read. -/
inductive ReadBy (s : Selector) : (Value → Option Value) → Prop
  | whole : ReadBy s some
  | along {paths : List (List String)} (h : s.Leads paths) : ReadBy s (ofPaths paths).read?

namespace ReadBy

theorem all (h : Selector.all.ReadBy read) (v : Value) : read v = some v := by
  cases h with
  | whole => rfl
  | along hleads => exact hleads.read?_all v

theorem nests (h : s.ReadBy read) {v : Value} (hv : v.Nests) : ∃ w, read v = some w ∧ w.Nests := by
  cases h with
  | whole => exact ⟨v, rfl, hv⟩
  | @along paths _ => exact Leads.nests_read? hv paths

/-- What is read of a value has its objects, of each of which the listed names are read. -/
theorem objects (h : (Selector.only fields).ReadBy read) :
    ∃ part : Object → Object, (∀ v w, read v = some w → w.objects = v.objects.map part) ∧
      (∀ o, Fields.get? Tree.classTag (part o) = Fields.get? Tree.classTag o) ∧
      (∀ o name, (Fields.get? name o).getD .undefined = .undefined →
        (Fields.get? name (part o)).getD .undefined = .undefined) ∧
      ∀ name s, (name, s) ∈ fields → s.isNone = false → Path.IsName name →
        ∃ below, s.ReadBy below ∧ ∀ o, Fields.get? name (part o) = (Fields.get? name o).bind below := by
  have hwhole : (∀ v w : Value, some v = some w → w.objects = v.objects.map id) ∧
      (∀ o : Object, Fields.get? Tree.classTag (id o) = Fields.get? Tree.classTag o) ∧
      (∀ (o : Object) name, (Fields.get? name o).getD .undefined = .undefined →
        (Fields.get? name (id o)).getD .undefined = .undefined) ∧
      ∀ name s, (name, s) ∈ fields → s.isNone = false → Path.IsName name →
        ∃ below, s.ReadBy below ∧
          ∀ o : Object, Fields.get? name (id o) = (Fields.get? name o).bind below := by
    refine ⟨?_, fun _ => rfl, fun _ _ h => h, fun name s _ _ _ => ⟨some, .whole, fun o => ?_⟩⟩
    · rintro v _ ⟨rfl⟩
      rw [List.map_id]
    · exact (Option.bind_fun_some _).symm
  cases h with
  | whole => exact ⟨id, hwhole⟩
  | @along paths hleads =>
    by_cases hend : (ofPaths paths).isEnd = true
    · have hread : (ofPaths paths).read? = some := by
        funext v
        rw [PathTree.read?, if_pos hend]
      rw [hread]
      exact ⟨id, hwhole⟩
    · refine ⟨(ofPaths paths).project, fun v w hw => ?_, hleads.get?_project_classTag,
        PathTree.get?_project_undefined paths,
        fun name s hs hsome hname => ⟨_, .along (hleads.following hs hname),
          hleads.get?_project hs hsome hname⟩⟩
      rw [PathTree.read?, if_neg hend] at hw
      exact Value.objects_keepObjects? hw

end ReadBy

/-! ### Reducing objects -/

/-- A part of an object has what stands under a name in the objects of the object that are reached by a
path, and it reaches them by objects with the same tags. -/
def Retains (id : String) : List String → Object → Object → Prop
  | [], o, part => Path.IsName id → id ≠ Tree.classTag → ∀ v, Fields.get? id o = some v →
      v ≠ .undefined → Fields.get? id part = some v
  | name :: path, o, part => Path.IsName name → name ≠ Tree.classTag →
      ∀ v, Fields.get? name o = some v → ∀ inner ∈ v.objects,
        ∃ w, Fields.get? name part = some w ∧ ∃ rest ∈ w.objects, Fields.Distinct rest ∧
          (∀ tag, Fields.get? Tree.classTag inner = some (.string tag) →
            Fields.get? Tree.classTag rest = some (.string tag)) ∧
          Retains id path inner rest

theorem retains_self (id : String) (path : List String) {o : Object}
    (ho : (Value.object o).WellFormed) : Retains id path o o := by
  induction path generalizing o with
  | nil => exact fun _ _ v hv _ => hv
  | cons name path ih =>
    intro _ _ v hv inner hinner
    have hwell := Value.wellFormed_of_mem_objects
      ((Value.wellFormed_object.1 ho).2 _ (Fields.mem_of_get? hv)) hinner
    exact ⟨v, hv, inner, hinner, (Value.wellFormed_object.1 hwell).1, fun _ htag => htag, ih hwell⟩

/-- A way to reduce objects that leaves them their tags and all that is selected entirely. -/
structure Reduces (s : Selector) (part : Object → Object) : Prop where
  distinct : ∀ o, Fields.Distinct o → Fields.Distinct (part o)
  tag : ∀ o tag, Fields.get? Tree.classTag o = some (.string tag) →
    Fields.get? Tree.classTag (part o) = some (.string tag)
  absent : ∀ o name, name ≠ Tree.classTag → (Fields.get? name o).getD .undefined = .undefined →
    (Fields.get? name (part o)).getD .undefined = .undefined
  retains : ∀ o, (Value.object o).WellFormed → ∀ path id, s.walk (path ++ [id]) = .all →
    Retains id path o (part o)

theorem reduces_none : Reduces .none id where
  distinct _ h := h
  tag _ _ h := h
  absent _ _ _ h := h
  retains o _ path id h := by
    rw [walk_none] at h
    cases h

theorem reduces_all : Reduces .all id where
  distinct _ h := h
  tag _ _ h := h
  absent _ _ _ h := h
  retains _ ho path id _ := retains_self id path ho

theorem get?_pickFields_classTag {document picked : Object} {tag : String}
    (hdocument : Fields.get? Tree.classTag document = some (.string tag))
    (hpicked : Fields.get? Tree.classTag picked = some (.string tag)) :
    Fields.get? Tree.classTag (pickFields [Tree.classTag] fields document picked) =
      some (.string tag) := by
  induction fields generalizing picked with
  | nil => exact hpicked
  | cons entry rest ih =>
    obtain ⟨name, s⟩ := entry
    rw [pickFields_cons]
    refine ih ?_
    split
    · exact hpicked
    · next hdefined =>
      by_cases hname : Tree.classTag = name
      · subst hname
        rw [pickedField, hdocument, Option.map_some, Option.getD_some] at hdefined ⊢
        rw [Fields.get?_insert_self]
        cases s with
        | none => cases hdefined rfl
        | _ => rfl
      · rw [Fields.get?_insert_of_ne hname, hpicked]

theorem get?_included_self {document : Object} {v : Value}
    (h : Fields.get? Tree.classTag document = some v) :
    Fields.get? Tree.classTag (included [Tree.classTag] document) = some v := by
  rw [included_eq_copyInto, Fields.get?_copyInto]
  simp [h]

/-- The fields of an object that are picked where names are listed. -/
def pickListed (fields : Fields Selector) (o : Object) : Object :=
  pickFields [Tree.classTag] fields o (included [Tree.classTag] o)

theorem distinct_pickListed (fields : Fields Selector) (o : Object) :
    Fields.Distinct (pickListed fields o) := by
  refine distinct_pickFields ?_
  rw [included_eq_copyInto]
  exact Fields.distinct_copyInto _ List.nodup_nil

theorem get?_pickListed_undefined (hdistinct : Fields.Distinct fields) (o : Object)
    (hname : name ≠ Tree.classTag) (h : (Fields.get? name o).getD .undefined = .undefined) :
    (Fields.get? name (pickListed fields o)).getD .undefined = .undefined := by
  by_cases hlisted : name ∈ Fields.keys fields
  · obtain ⟨s, hs⟩ := Fields.mem_keys_iff.1 hlisted
    rw [pickListed, get?_pickFields hdistinct (Fields.mem_of_get? hs) (get?_included_classTag hname),
      pickedField]
    cases hv : Fields.get? name o with
    | none => rfl
    | some v =>
      rw [hv, Option.getD_some] at h
      subst h
      cases s <;> rfl
  · rw [pickListed, get?_pickFields_of_not_mem hlisted, get?_included_classTag hname]
    rfl

theorem pick_ne_undefined (hs : s.isNone = false) {v : Value} (hv : v.Nests) :
    pick [Tree.classTag] s v ≠ .undefined := by
  cases s with
  | none => cases hs
  | all => exact hv.ne_undefined
  | only fields => exact (pick_only_of_nests hv).ne_undefined

/-- The objects of what is read and picked of a value are those of the value, reduced. -/
theorem pick_reduces (hs : s.WellFormed) (hread : s.ReadBy read) :
    ∃ part, Reduces s part ∧ (s.isNone = false → ∀ v w, read v = some w →
      (pick [Tree.classTag] s w).objects = v.objects.map part) := by
  induction s using Selector.induction generalizing read with
  | none => exact ⟨id, reduces_none, fun hsome => by cases hsome⟩
  | all =>
    refine ⟨id, reduces_all, fun _ v w hw => ?_⟩
    rw [hread.all] at hw
    cases hw
    rw [pick, List.map_id]
  | only fields ih =>
    obtain ⟨hdistinct, hinner⟩ := wellFormed_only.1 hs
    obtain ⟨first, hobjects, htag, habsent, hlisted⟩ := hread.objects
    refine ⟨fun o => pickListed fields (first o), ⟨fun _ _ => distinct_pickListed _ _,
      fun o tag ho => ?_, fun o name hname ho =>
        get?_pickListed_undefined hdistinct _ hname (habsent o name ho),
      fun o ho path id hall => ?_⟩, fun _ v w hw => ?_⟩
    · have hfirst := (htag o).trans ho
      exact get?_pickFields_classTag hfirst (get?_included_self hfirst)
    · cases path with
      | nil =>
        intro hname hne v hv hdefined
        have hmem : (id, Selector.all) ∈ fields := mem_of_get hall rfl
        obtain ⟨below, hbelow, hget⟩ := hlisted id .all hmem rfl hname
        have hv' : Fields.get? id (first o) = some v := by
          rw [hget, hv, Option.bind_some, hbelow.all]
        exact get?_pickFields_of_get? hdistinct hmem hne hv' hdefined
      | cons name path =>
        intro hname hne v hv inner hmemInner
        have hsome : ((Selector.only fields).get name).isNone = false := by
          cases hget : (Selector.only fields).get name with
          | none =>
            have hwalk : ((Selector.only fields).get name).walk (path ++ [id]) = .all := hall
            rw [hget, walk_none] at hwalk
            cases hwalk
          | _ => rfl
        have hmem := mem_of_get rfl hsome
        obtain ⟨below, hbelow, hget⟩ := hlisted name _ hmem hsome hname
        obtain ⟨part, hpart, hpicked⟩ := ih _ hmem (hinner _ hmem) hbelow
        obtain ⟨w, hw, hnests⟩ := hbelow.nests (Value.nests_of_mem_objects hmemInner)
        have hw' : Fields.get? name (first o) = some w := by
          rw [hget, hv, Option.bind_some, hw]
        have hdefined := pick_ne_undefined hsome hnests
        have hwell := Value.wellFormed_of_mem_objects
          ((Value.wellFormed_object.1 ho).2 _ (Fields.mem_of_get? hv)) hmemInner
        refine ⟨_, get?_pickFields_of_get? hdistinct hmem hne hw' hdefined, part inner, ?_,
          hpart.distinct _ (Value.wellFormed_object.1 hwell).1, hpart.tag inner,
          hpart.retains inner hwell path id hall⟩
        rw [hpicked hsome v w hw]
        exact List.mem_map_of_mem hmemInner
    · rw [pick, Value.objects_mapObjects, hobjects v w hw, List.map_map]
      rfl

end Selector

end TypedRecords
