import TypedRecords.Proofs.Document.Applied
import TypedRecords.Proofs.Value.WellFormed

/-! # Well-formed documents

Writing and removing at paths, and with them patches, keep documents well-formed.
-/

namespace TypedRecords

/-- No object within the document, nor the document itself, names a field twice. -/
def Document.WellFormed (document : Document) : Prop := (Value.object document).WellFormed

namespace Document.WellFormed

variable {document : Document} {v : Value}

theorem distinct (h : WellFormed document) : Fields.Distinct document :=
  (Value.wellFormed_object.1 h).1

theorem field (h : WellFormed document) {name : String}
    (hv : Fields.get? name document = some v) : v.WellFormed :=
  (Value.wellFormed_object.1 h).2 _ (Fields.mem_of_get? hv)

theorem empty : WellFormed [] :=
  Value.wellFormed_object.2 ⟨List.nodup_nil, fun _ hentry => by cases hentry⟩

theorem insert (h : WellFormed document) (hv : v.WellFormed) (name : String) :
    WellFormed (Fields.insert name v document) := by
  obtain ⟨hd, hfields⟩ := Value.wellFormed_object.1 h
  refine Value.wellFormed_object.2 ⟨hd.insert name v, ?_⟩
  intro entry hentry
  rcases Fields.mem_insert hentry with hmem | rfl
  · exact hfields entry hmem
  · exact hv

theorem erase (h : WellFormed document) (name : String) :
    WellFormed (Fields.erase name document) := by
  obtain ⟨hd, hfields⟩ := Value.wellFormed_object.1 h
  refine Value.wellFormed_object.2 ⟨hd.erase name, ?_⟩
  intro entry hentry
  exact hfields entry ((Fields.erase_sublist name document).subset hentry)

theorem allowsEdits : AllowsEdits Value.WellFormed where
  empty := empty
  insert name _ _ hv h := insert h hv name
  erase name _ h := erase h name
  field _ _ _ h hv := field h hv

theorem getAlong {names : List String} {w : Value} (h : w.WellFormed)
    (hv : Path.getAlong names w = some v) : v.WellFormed := by
  induction names generalizing w with
  | nil =>
    cases hv
    exact h
  | cons name rest ih =>
    cases w with
    | object fields =>
      simp only [Path.getAlong, Value.asObject?, Option.bind_eq_bind, Option.bind_some] at hv
      obtain ⟨inner, hinner, hv⟩ := Option.bind_eq_some_iff.1 hv
      exact ih (field h hinner) hv
    | _ => simp [Path.getAlong, Value.asObject?] at hv

theorem get (h : WellFormed document) (path : String) :
    (Path.get (.object document) path).WellFormed := by
  unfold Path.get Path.get?
  split
  · exact h
  · cases hv : Path.getAlong (Path.segments path) (.object document) with
    | none => trivial
    | some v => exact getAlong h hv

end Document.WellFormed

namespace Patch

/-- Everything that the patch writes is well-formed. -/
def WellFormed (p : Patch) : Prop := ∀ entry ∈ p.written, entry.2.WellFormed

theorem WellFormed.apply {p : Patch} (h : p.WellFormed) {document : Document}
    (hd : document.WellFormed) : (p.apply document).WellFormed :=
  apply_allowsEdits Document.WellFormed.allowsEdits h hd

end Patch

end TypedRecords
