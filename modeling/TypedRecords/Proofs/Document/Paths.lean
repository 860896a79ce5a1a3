import TypedRecords.Proofs.Document.Edits
import TypedRecords.Proofs.Document.Untouched
import TypedRecords.Proofs.Document.WellFormed

/-! # Laws of dotted paths

What is written at a path of a document is read there, and of what stood there before nothing remains.
What is written or removed at one path leaves alone what stands at another, unless one of the paths
leads to the other. A removal says whether something stood at its path, and leaves nothing there.
-/

namespace TypedRecords

/-! ### Pieces of a text -/

namespace Text

variable {mark : Char}

theorem cutAt_eq_splitOn (mark : Char) (cs : List Char) : cutAt mark cs = cs.splitOn mark := by
  induction cs with
  | nil => rfl
  | cons c rest ih =>
    cases h : rest.splitOn mark with
    | nil => exact absurd (ih.trans h) (cutAt_ne_nil mark rest)
    | cons piece pieces =>
      rw [cutAt, ih, h]
      rw [List.splitOn] at h ⊢
      by_cases hc : c = mark <;> simp [List.splitOnP_cons_eq_if_modifyHead, h, hc]

theorem intercalate_cutAt (mark : Char) (cs : List Char) : [mark].intercalate (cutAt mark cs) = cs := by
  rw [cutAt_eq_splitOn, List.intercalate_splitOn]

theorem intercalate_append {pieces more : List (List Char)} (h : pieces ≠ []) (hmore : more ≠ []) :
    [mark].intercalate (pieces ++ more) =
      [mark].intercalate pieces ++ mark :: [mark].intercalate more := by
  induction pieces with
  | nil => exact absurd rfl h
  | cons piece rest ih =>
    cases rest with
    | nil =>
      obtain ⟨next, others, rfl⟩ := List.exists_cons_of_ne_nil hmore
      simp
    | cons next rest =>
      have hrest := ih (by simp)
      simp only [List.cons_append, List.intercalate_cons_cons] at hrest ⊢
      simp [hrest]

/-- A text whose pieces go on after those of another goes on after it. -/
theorem eq_or_append_of_cutAt_prefix {cs ds : List Char} (h : cutAt mark cs <+: cutAt mark ds) :
    ds = cs ∨ ∃ rest, ds = cs ++ mark :: rest := by
  obtain ⟨more, hmore⟩ := h
  by_cases hend : more = []
  · left
    rw [← intercalate_cutAt mark ds, ← hmore, hend, List.append_nil, intercalate_cutAt]
  · right
    refine ⟨[mark].intercalate more, ?_⟩
    rw [← intercalate_cutAt mark ds, ← hmore, intercalate_append (cutAt_ne_nil mark cs) hend,
      intercalate_cutAt]

end Text

namespace Path

variable {document removed : Document} {names : List String} {path other : String}

/-! ### Paths that lead to each other -/

theorem segments_prefix_iff :
    segments path <+: segments other ↔ other = path ∨ ∃ rest, other = path ++ "." ++ rest := by
  constructor
  · intro h
    rw [segments, segments,
      List.prefix_map_iff_of_injective fun _ _ => String.ofList_injective] at h
    rcases Text.eq_or_append_of_cutAt_prefix h with heq | ⟨rest, heq⟩
    · exact .inl (String.toList_inj.1 heq)
    · refine .inr ⟨String.ofList rest, String.toList_inj.1 ?_⟩
      simp [heq]
  · rintro (rfl | ⟨rest, rfl⟩)
    · exact List.prefix_rfl
    · rw [segments_append]
      exact List.prefix_append _ _

/-- Two paths are apart if they differ and neither goes on after the other and a point. -/
theorem apart_segments_iff :
    Apart (segments path) (segments other) ↔
      path ≠ other ∧ ∀ rest, other ≠ path ++ "." ++ rest ∧ path ≠ other ++ "." ++ rest := by
  simp only [Apart, segments_prefix_iff, not_or, not_exists, forall_and]
  constructor
  · rintro ⟨⟨hne, hlonger⟩, -, hshorter⟩
    exact ⟨Ne.symm hne, hlonger, hshorter⟩
  · rintro ⟨hne, hlonger, hshorter⟩
    exact ⟨⟨Ne.symm hne, hlonger⟩, hne, hshorter⟩

/-! ### Writing again -/

/-- The objects that the first value needed on its way are there for the second. -/
theorem setAlong_setAlong (v w : Value) (names : List String) (document : Document) :
    setAlong w names (setAlong v names document) = setAlong w names document := by
  induction names generalizing document with
  | nil => rfl
  | cons name rest ih =>
    cases rest with
    | nil => exact Fields.insert_insert_self name v w document
    | cons next rest =>
      simp only [setAlong, Edit.objectAt_insert, Fields.insert_insert_self]
      rw [ih]

theorem set_set (document : Document) (path : String) (v w : Value) :
    set (set document path v) path w = set document path w :=
  setAlong_setAlong v w (segments path) document

theorem get?_set (h : path ≠ "") (document : Document) (v : Value) :
    get? (.object (set document path v)) path = some v := by
  rw [get?_eq_getAlong h]
  exact getAlong_setAlong v _ (segments_ne_nil path) document

/-! ### Removing -/

/-- There is something to remove exactly where something can be read. -/
theorem removeAlong?_eq_none_iff (h : names ≠ []) :
    removeAlong? names document = none ↔ getAlong names (.object document) = none := by
  induction names generalizing document with
  | nil => exact absurd rfl h
  | cons name rest ih =>
    rw [getAlong_cons]
    cases rest with
    | nil =>
      cases hv : Fields.get? name document <;> simp [removeAlong?, Fields.contains, hv, getAlong]
    | cons next rest =>
      cases hv : Fields.get? name document with
      | none => simp [removeAlong?, hv]
      | some v =>
        cases v with
        | object inner => simpa [removeAlong?, hv] using ih (by simp)
        -- Anything else ends the removal and the reading alike.
        | _ => simp [removeAlong?, hv, getAlong, Value.asObject?]

theorem getAlong_removeAlong? (hdocument : document.WellFormed)
    (hremove : removeAlong? names document = some removed) :
    getAlong names (.object removed) = none := by
  induction names generalizing document removed with
  | nil => cases hremove
  | cons name rest ih =>
    rcases removeAlong?_cons_eq_some hremove with ⟨rfl, -, rfl⟩ | ⟨inner, left, hinner, hleft, rfl⟩
    · rw [getAlong_cons, Fields.get?_erase_self hdocument.distinct]
      rfl
    · rw [getAlong_cons, Fields.get?_insert_self]
      exact ih (hdocument.field hinner) hleft

theorem remove?_eq_none_iff (h : path ≠ "") :
    remove? document path = none ↔ get? (.object document) path = none := by
  rw [get?_eq_getAlong h]
  exact removeAlong?_eq_none_iff (segments_ne_nil path)

theorem get?_remove (hdocument : document.WellFormed) (h : path ≠ "") :
    get? (.object (remove document path)) path = none := by
  rcases remove_cases document path with hremoved | ⟨hnone, hsame⟩
  · rw [get?_eq_getAlong h]
    exact getAlong_removeAlong? hdocument hremoved
  · rw [hsame]
    exact (remove?_eq_none_iff h).1 hnone

/-- Only a removal that finds nothing leaves the document as it is. -/
theorem remove_eq_self_iff (hdocument : document.WellFormed) (h : path ≠ "") :
    remove document path = document ↔ remove? document path = none := by
  constructor
  · intro hsame
    rw [remove?_eq_none_iff h, ← hsame]
    exact get?_remove hdocument h
  · intro hnone
    rw [remove, hnone, Option.getD_none]

/-! ### Paths as the places of a store -/

/-- How reading, writing and removing at two paths of a document go together. Writing again gives the very
document that the second write alone gives, its names in the same order. -/
structure StoreLaws (document : Document) (path other : String) : Prop where
  apart_iff : Apart (segments path) (segments other) ↔
    path ≠ other ∧ ∀ rest, other ≠ path ++ "." ++ rest ∧ path ≠ other ++ "." ++ rest
  set_self : ∀ v, get? (.object (set document path v)) path = some v
  set_apart : Apart (segments path) (segments other) → ∀ v,
    get? (.object (set document path v)) other = get? (.object document) other
  set_twice : ∀ v w, set (set document path v) path w = set document path w
  set_wellFormed : ∀ v, v.WellFormed → (set document path v).WellFormed
  remove_self : get? (.object (remove document path)) path = none
  remove_apart : Apart (segments path) (segments other) →
    get? (.object (remove document path)) other = get? (.object document) other
  removes_iff : (remove? document path).isSome = true ↔ (get? (.object document) path).isSome = true
  remove_nothing : remove document path = document ↔ remove? document path = none
  remove_wellFormed : (remove document path).WellFormed

/-- The paths of a document obey the laws of a store. The empty path is left out: reading takes it for the
whole document, writing and removing for the field without a name. -/
theorem storeLaws (hdocument : document.WellFormed) (hpath : path ≠ "") (hother : other ≠ "") :
    StoreLaws document path other where
  apart_iff := apart_segments_iff
  set_self v := get?_set hpath document v
  set_apart hapart v := by
    rw [get?_eq_getAlong hother, get?_eq_getAlong hother, getAlong_set_of_apart hapart]
  set_twice v w := set_set document path v w
  set_wellFormed v hv := Document.WellFormed.allowsEdits.setAlong hv (segments path) hdocument
  remove_self := get?_remove hdocument hpath
  remove_apart hapart := by
    rw [get?_eq_getAlong hother, get?_eq_getAlong hother, getAlong_remove_of_apart hapart]
  removes_iff := by
    rw [Option.isSome_iff_ne_none, Option.isSome_iff_ne_none, Ne, Ne, remove?_eq_none_iff hpath]
  remove_nothing := remove_eq_self_iff hdocument hpath
  remove_wellFormed := Document.WellFormed.allowsEdits.remove path hdocument

/-- A film of whose director only a name is known. -/
def directed : Document :=
  [("title", .string "Inception"), ("director", .object [("name", .string "Nolan")])]

/-- A text stands in the way of one path, the other goes through an empty name. -/
theorem storeLaws_directed :
    directed.WellFormed ∧ Apart (segments "director.name.first") (segments "director..name") ∧
      remove? directed "director.name.first" = none ∧
      StoreLaws directed "director.name.first" "director..name" := by
  have hdirected : directed.WellFormed := by
    refine Value.wellFormed_object.2 ⟨by decide, ?_⟩
    simp [directed, Value.WellFormed, Value.FieldsWellFormed, Fields.Distinct, Fields.keys]
  refine ⟨hdirected, by decide, rfl, ?_⟩
  exact storeLaws hdirected (by decide) (by decide)

end Path

end TypedRecords
