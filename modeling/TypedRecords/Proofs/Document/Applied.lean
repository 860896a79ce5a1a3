import TypedRecords.Document.Patch
import TypedRecords.Proofs.Fields

/-! # Patched documents

What writing a field and removing one keep of objects, patches keep of documents, as long as it holds of
everything that they write.
-/

namespace TypedRecords

/-! ### Removing -/

namespace Path

/-- A removal takes out a field, or goes on within the object under a name. -/
theorem removeAlong?_cons_eq_some {name : String} {rest : List String} {document removed : Document}
    (h : removeAlong? (name :: rest) document = some removed) :
    (rest = [] ∧ name ∈ Fields.keys document ∧ removed = Fields.erase name document) ∨
      ∃ inner left, Fields.get? name document = some (.object inner) ∧
        removeAlong? rest inner = some left ∧
        removed = Fields.insert name (.object left) document := by
  cases rest with
  | nil =>
    simp only [removeAlong?] at h
    split at h
    · next hname =>
      cases h
      exact .inl ⟨rfl, Fields.contains_iff.1 hname, rfl⟩
    · cases h
  | cons next rest =>
    simp only [removeAlong?] at h
    split at h
    · next inner hinner =>
      obtain ⟨left, hleft, rfl⟩ := Option.map_eq_some_iff.1 h
      exact .inr ⟨inner, left, hinner, hleft, rfl⟩
    · cases h

/-- Where nothing can be removed the document stays as it is. -/
theorem remove_cases (document : Document) (path : String) :
    remove? document path = some (remove document path) ∨
      remove? document path = none ∧ remove document path = document := by
  rw [remove]
  cases remove? document path with
  | none => exact .inr ⟨rfl, rfl⟩
  | some removed => exact .inl rfl

end Path

/-! ### What edits keep -/

/-- Writing fields and removing them keeps what holds of objects, and it holds of the objects within
them. -/
structure AllowsEdits (V : Value → Prop) : Prop where
  empty : V (.object [])
  insert : ∀ name v fields, V v → V (.object fields) → V (.object (Fields.insert name v fields))
  erase : ∀ name fields, V (.object fields) → V (.object (Fields.erase name fields))
  field : ∀ name v fields, V (.object fields) → Fields.get? name fields = some v → V v

namespace AllowsEdits

variable {V : Value → Prop} {document : Document} {v : Value}

theorem objectAt (h : AllowsEdits V) (name : String) (hdocument : V (.object document)) :
    V (.object (Path.objectAt name document)) := by
  unfold Path.objectAt
  cases hv : Fields.get? name document with
  | none => exact h.empty
  | some v =>
    cases v with
    | object fields => exact h.field name _ document hdocument hv
    | _ => exact h.empty

theorem setAlong (h : AllowsEdits V) (hv : V v) (names : List String)
    (hdocument : V (.object document)) : V (.object (Path.setAlong v names document)) := by
  induction names generalizing document with
  | nil => exact hdocument
  | cons name rest ih =>
    cases rest with
    | nil => exact h.insert name v document hv hdocument
    | cons next rest => exact h.insert name _ document (ih (h.objectAt name hdocument)) hdocument

theorem removeAlong? (h : AllowsEdits V) {names : List String} {removed : Document}
    (hdocument : V (.object document)) (hr : Path.removeAlong? names document = some removed) :
    V (.object removed) := by
  induction names generalizing document removed with
  | nil => cases hr
  | cons name rest ih =>
    rcases Path.removeAlong?_cons_eq_some hr with ⟨-, -, rfl⟩ | ⟨inner, left, hinner, hleft, rfl⟩
    · exact h.erase name document hdocument
    · exact h.insert name _ document (ih (h.field name _ document hdocument hinner) hleft) hdocument

theorem remove (h : AllowsEdits V) (path : String) (hdocument : V (.object document)) :
    V (.object (Path.remove document path)) := by
  rcases Path.remove_cases document path with hremoved | ⟨-, hsame⟩
  · exact h.removeAlong? hdocument hremoved
  · exact hsame.symm ▸ hdocument

end AllowsEdits

namespace Path

theorem distinct_set {document : Document} (h : Fields.Distinct document) (path : String)
    (v : Value) : Fields.Distinct (set document path v) := by
  unfold set
  generalize segments path = names
  match names with
  | [] => exact h
  | [name] => exact h.insert name _
  | name :: _ :: _ => exact h.insert name _

theorem distinct_remove {document : Document} (h : Fields.Distinct document) (path : String) :
    Fields.Distinct (remove document path) := by
  obtain ⟨name, rest, hnames⟩ := List.exists_cons_of_ne_nil (segments_ne_nil path)
  rcases remove_cases document path with hremoved | ⟨-, hsame⟩
  · rw [remove?, hnames] at hremoved
    rcases removeAlong?_cons_eq_some hremoved with ⟨-, -, heq⟩ | ⟨inner, left, -, -, heq⟩
    · exact heq ▸ h.erase name
    · exact heq ▸ h.insert name _
  · exact hsame.symm ▸ h

end Path

namespace Patch

/-- What writing and removing at paths keeps, a patch keeps. -/
theorem apply_induction {D : Document → Prop} {p : Patch} {document : Document}
    (hset : ∀ entry ∈ p.written, ∀ document, D document → D (Path.set document entry.1 entry.2))
    (hremove : ∀ path ∈ p.removed, ∀ document, D document → D (Path.remove document path))
    (hdocument : D document) : D (p.apply document) := by
  have hwritten : ∀ (written : Fields Value) (document : Document),
      (∀ entry ∈ written, ∀ document, D document → D (Path.set document entry.1 entry.2)) →
      D document → D (written.foldl (fun doc entry => Path.set doc entry.1 entry.2) document) := by
    intro written
    induction written with
    | nil => exact fun _ _ hdocument => hdocument
    | cons entry rest ih =>
      intro document h hdocument
      obtain ⟨hentry, hrest⟩ := List.forall_mem_cons.1 h
      exact ih _ hrest (hentry document hdocument)
  have hremoved : ∀ (removed : List String) (document : Document),
      (∀ path ∈ removed, ∀ document, D document → D (Path.remove document path)) →
      D document → D (removed.foldl Path.remove document) := by
    intro removed
    induction removed with
    | nil => exact fun _ _ hdocument => hdocument
    | cons path rest ih =>
      intro document h hdocument
      obtain ⟨hpath, hrest⟩ := List.forall_mem_cons.1 h
      exact ih _ hrest (hpath document hdocument)
  exact hremoved _ _ hremove (hwritten _ _ hset hdocument)

theorem apply_allowsEdits {V : Value → Prop} (h : AllowsEdits V) {p : Patch}
    (hp : ∀ entry ∈ p.written, V entry.2) {document : Document} (hdocument : V (.object document)) :
    V (.object (p.apply document)) :=
  apply_induction (D := fun document => V (.object document))
    (fun entry hentry _ hdocument => h.setAlong (hp entry hentry) _ hdocument)
    (fun path _ _ hdocument => h.remove path hdocument) hdocument

/-- A patched document names each of its fields once if it did before. -/
theorem distinct_apply (p : Patch) {document : Document} (h : Fields.Distinct document) :
    Fields.Distinct (p.apply document) :=
  apply_induction (fun entry _ _ hdocument => Path.distinct_set hdocument entry.1 entry.2)
    (fun path _ _ hdocument => Path.distinct_remove hdocument path) h

end Patch

end TypedRecords
