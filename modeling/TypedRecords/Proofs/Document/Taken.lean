import TypedRecords.Proofs.Document.Parts
import TypedRecords.Proofs.Document.Projected
import TypedRecords.Proofs.Selector
import TypedRecords.Proofs.Types.Check

/-! # Keys that are read

A key of a document is read whatever else a selector selects, if the selector selects everything under the
name of the key.
-/

namespace TypedRecords

variable {name : String} {document : Document} {v : Value}

namespace Selector

/-- Everything under a name is selected. -/
def Takes (name : String) : Selector → Prop
  | .all => True
  | .none => False
  | .only fields => (name, .all) ∈ fields

theorem takes_of_get {s : Selector} (h : s.get name = .all) : s.Takes name := by
  cases s with
  | all => trivial
  | none => cases h
  | only fields => exact mem_of_get h rfl

/-- A field that is selected entirely is projected as it is. -/
theorem get?_project_of_takes {fields : Fields Selector} (h : (Selector.only fields).Takes name)
    (hname : Path.IsName name) (document : Document) :
    Fields.get? name (Document.project document (Projection.ofSelector? (.only fields))) =
      Fields.get? name document := by
  rw [Projection.ofSelector?_only, Document.project, PathTree.ofProjection_eq_ofPaths,
    PathTree.get?_project]
  have hread : [name] ∈ (Selector.only fields).reads :=
    List.mem_cons_of_mem _ (mem_readsFields.2 ⟨name, .all, h, [], List.mem_singleton_self _, rfl⟩)
  have hpath : [] ∈ PathTree.following name
      ((Projection.addPaths [] (Selector.only fields).reads []).map Path.segments) := by
    rw [PathTree.mem_following, ← Path.segments_of_isName hname]
    refine List.mem_map_of_mem (Projection.mem_addPaths.2 (.inr ⟨[name], hread, ?_⟩))
    exact (Path.join_empty name).symm
  rw [if_neg (List.ne_nil_of_mem hpath)]
  have hend := (PathTree.isEnd_ofPaths _).2 hpath
  cases Fields.get? name document with
  | none => rfl
  | some v => exact if_pos hend

/-- Of a key nothing is picked or all of it. -/
theorem pick_key (always : List String) (s : Selector) (h : v.IsKey) :
    pick always s v = .undefined ∨ pick always s v = v := by
  cases s with
  | all => exact .inr rfl
  | none => exact .inl rfl
  | only fields => rcases h with ⟨text, rfl⟩ | ⟨x, rfl⟩ <;> exact .inr rfl

/-- Whatever is picked under the name of a key is the key, and it is picked if it is selected. -/
theorem pickFields_key {always : List String} {selected : Fields Selector} {fields picked : Object}
    (hv : Fields.get? name fields = some v) (hkey : v.IsKey)
    (hpicked : ∀ w, (name, w) ∈ picked → w = v) :
    (∀ w, (name, w) ∈ pickFields always selected fields picked → w = v) ∧
      (name ∈ Fields.keys picked ∨ (name, .all) ∈ selected →
        name ∈ Fields.keys (pickFields always selected fields picked)) := by
  induction selected generalizing picked with
  | nil => exact ⟨hpicked, fun h => h.resolve_right List.not_mem_nil⟩
  | cons first rest ih =>
    obtain ⟨key, s⟩ := first
    rw [pickFields_cons]
    have hpart : key = name → pickedField always key s fields = .undefined ∨
        pickedField always key s fields = v := by
      rintro rfl
      rw [pickedField, hv]
      exact pick_key always s hkey
    split
    · next hundefined =>
      obtain ⟨hentries, htaken⟩ := ih hpicked
      refine ⟨hentries, fun h => htaken (h.imp_right fun hlisted => ?_)⟩
      refine (List.mem_cons.1 hlisted).resolve_left fun heq => ?_
      cases heq
      rw [pickedField, hv, Value.isUndefined_iff] at hundefined
      exact hkey.ne_undefined hundefined
    · next hdefined =>
      have hinserted : ∀ w, (name, w) ∈ Fields.insert key (pickedField always key s fields) picked →
          w = v := by
        intro w hw
        rcases Fields.mem_insert hw with hmem | heq
        · exact hpicked w hmem
        · cases heq
          refine (hpart rfl).resolve_left fun hundefined => hdefined ?_
          exact (Value.isUndefined_iff _).2 hundefined
      obtain ⟨hentries, htaken⟩ := ih hinserted
      refine ⟨hentries, fun h => htaken ?_⟩
      rw [Fields.mem_keys_insert]
      rcases h with hmem | hlisted
      · exact .inl (.inr hmem)
      · rcases List.mem_cons.1 hlisted with heq | hlater
        · cases heq
          exact .inl (.inl rfl)
        · exact .inr hlater

/-- What is read of a document under the name of a key is the key, and nothing is read that is not
there. -/
theorem Takes.pick_project {s : Selector} (hs : s.Takes name) (hname : Path.IsName name)
    (hdistinct : Fields.Distinct document) (hv : Fields.get? name document = some v) (hkey : v.IsKey) :
    ∃ picked, pick [Tree.classTag] s
        (.object (Document.project document (Projection.ofSelector? s))) = .object picked ∧
      name ∈ Fields.keys picked ∧ (∀ w, (name, w) ∈ picked → w = v) ∧
      Fields.keys picked ⊆ Fields.keys document := by
  have hsubset : ∀ {part fields : Object}, Value.PartOf (.object part) (.object fields) →
      Fields.keys part ⊆ Fields.keys fields := by
    intro part fields hpart name hmem
    obtain ⟨w, hw⟩ := Fields.mem_keys_iff.1 hmem
    obtain ⟨u, hu, -⟩ := hpart.fields_of _ (Fields.mem_of_get? hw)
    exact List.mem_map_of_mem (f := Prod.fst) hu
  cases s with
  | none => cases hs
  | all =>
    refine ⟨document, rfl, Fields.mem_keys_iff.2 ⟨v, hv⟩, fun w hw => ?_, List.Subset.refl _⟩
    rw [Fields.get?_of_mem hdistinct hw] at hv
    exact Option.some.inj hv
  | only fields =>
    have hread := (get?_project_of_takes hs hname document).trans hv
    have hincluded : ∀ w, (name, w) ∈ included [Tree.classTag]
        (Document.project document (Projection.ofSelector? (.only fields))) → w = v := by
      intro w hw
      simp only [included, List.foldl_cons, List.foldl_nil] at hw
      split at hw
      · next u hu =>
        obtain ⟨rfl, rfl⟩ := Prod.mk.inj (List.mem_singleton.1 hw)
        exact Option.some.inj (hu.symm.trans hread)
      · cases hw
    obtain ⟨hentries, htaken⟩ := pickFields_key hread hkey hincluded
    refine ⟨_, rfl, htaken (.inr hs), hentries, ?_⟩
    have hpicked := Value.partOf_pick [Tree.classTag] (.only fields)
      (.object (Document.project document (Projection.ofSelector? (.only fields))))
    exact List.Subset.trans (hsubset hpicked) (hsubset (Value.partOf_project document _))

end Selector

end TypedRecords
