import TypedRecords.Proofs.Record.Entering
import TypedRecords.Record.Validation

/-! # Places in records

A selector leads to places in a record: to its attributes that are selected and set, to the items of
arrays, and on into the records that stand where types refer to records. Of a record that is referred to
by identifier the identifiers are places, whatever is selected of it. The places come in the order in
which attributes are declared and items stand, each before those beneath it.
-/

namespace TypedRecords

/-! ### Where places are -/

/-- A step from a place to one beneath it. -/
inductive Segment where
  | named (name : String)
  | indexed (index : Nat)
deriving DecidableEq, Repr

def Segment.text : Segment → String
  | .named name => name
  | .indexed index => "[" ++ natText index ++ "]"

/-- Where a type is declared for a value. -/
structure Place where
  path : List Segment
  type : ValueType
  value : Value

namespace Place

/-- The same place seen from one level up. -/
def within (segment : Segment) (p : Place) : Place := { p with path := segment :: p.path }

/-- What the value fails: the validators of the type, or if it is missing where that is not allowed, that
it is required. -/
def faults (p : Place) : List Validator :=
  match p.value with
  | .undefined => if p.type.allowsUndefined then [] else [.required]
  | v => p.type.traits.validators.filter fun validator => !validator.passes v

/-- What the value fails, and the path to it. -/
def failures (p : Place) : List Failure :=
  p.faults.map fun validator => ⟨validator, joinSegments (p.path.map Segment.text)⟩

end Place

/-! ### Paths -/

/-- Joins one more segment to a path, as far as it was joined. -/
def joinSegment (joined segment : String) : String :=
  if segment.isEmpty then joined
  else if joined.isEmpty || segment.toList.head? == some '[' then joined ++ segment
  else joined ++ "." ++ segment

theorem joinSegment_empty (joined : String) : joinSegment joined "" = joined := rfl

theorem empty_joinSegment (segment : String) : joinSegment "" segment = segment := by
  unfold joinSegment
  split
  · next h => exact (String.isEmpty_iff.1 h).symm
  · simp

/-- What a segment is joined with, unless nothing is before it. -/
def separator (segment : String) : String := if segment.toList.head? == some '[' then "" else "."

theorem joinSegment_of_ne {joined segment : String} (hj : joined ≠ "") (hs : segment ≠ "") :
    joinSegment joined segment = joined ++ separator segment ++ segment := by
  simp only [joinSegment, separator, String.isEmpty_iff, hj, hs, Bool.or_eq_true, false_or, if_false]
  split <;> simp

theorem joinSegment_assoc (a b c : String) :
    joinSegment (joinSegment a b) c = joinSegment a (joinSegment b c) := by
  by_cases ha : a = ""
  · rw [ha, empty_joinSegment, empty_joinSegment]
  by_cases hb : b = ""
  · rw [hb, joinSegment_empty, empty_joinSegment]
  by_cases hc : c = ""
  · rw [hc, joinSegment_empty, joinSegment_empty]
  have hseparator : separator (b ++ separator c ++ c) = separator b := by
    cases hchars : b.toList with
    | nil => exact absurd (String.toList_eq_nil_iff.1 hchars) hb
    | cons first rest => simp [separator, String.toList_append, hchars]
  rw [joinSegment_of_ne ha hb, joinSegment_of_ne hb hc, joinSegment_of_ne (by simp [ha]) hc,
    joinSegment_of_ne ha (by simp [hb]), hseparator]
  simp only [String.append_assoc]

theorem joinSegments_eq_foldl (segments : List String) :
    joinSegments segments = segments.foldl joinSegment "" := rfl

theorem foldl_joinSegment (segments : List String) (joined : String) :
    segments.foldl joinSegment joined = joinSegment joined (joinSegments segments) := by
  induction segments generalizing joined with
  | nil => simp [joinSegments, joinSegment]
  | cons segment rest ih =>
    rw [List.foldl_cons, ih, joinSegment_assoc, joinSegments_eq_foldl (segment :: rest),
      List.foldl_cons, ih, empty_joinSegment]

/-- The segments of a path are joined one level after the other. -/
theorem joinSegments_cons (segment : String) (rest : List String) :
    joinSegments (segment :: rest) = joinSegments [segment, joinSegments rest] := by
  simp only [joinSegments_eq_foldl, List.foldl_cons, List.foldl_nil]
  rw [foldl_joinSegment, joinSegments_eq_foldl]

theorem Place.failures_within (segment : Segment) (p : Place) :
    (p.within segment).failures = p.failures.map (·.prefixed segment.text) := by
  simp only [failures, within, List.map_map, List.map_cons]
  congr 1
  funext validator
  simp only [Function.comp, Failure.prefixed]
  rw [joinSegments_cons]

/-- Failures at places beneath and at those after. -/
theorem Place.flatMap_within (segment : Segment) (ps qs : List Place) :
    (ps.map (Place.within segment) ++ qs).flatMap Place.failures =
      (ps.flatMap Place.failures).map (·.prefixed segment.text) ++ qs.flatMap Place.failures := by
  rw [List.flatMap_append, List.flatMap_map, List.map_flatMap]
  simp only [Place.failures_within]

/-! ### What there is beneath a value -/

namespace ValueType

/-- Whether the type says more of a value than of the value as a whole. -/
def opens : ValueType → Value → Bool
  | .array _ _, .array _ => true
  | .reference _ false _, .record _ => true
  | _, _ => false

theorem Enters.opens {t : ValueType} {v : Value} {r : RecordRef} (h : t.Enters v r) :
    t.opens v = true := by
  cases h <;> rfl

end ValueType

/-- What is selected of a record that is held: of one that is referred to by identifier, its
identifiers. -/
def Directory.asked (d : Directory) (s : Selector) (q : RecordRef) : Selector :=
  if (d.definition q.cls).referenceable then (d.definition q.cls).identifierSelector else s

/-- What there is to go through: the attributes of a record from one of them on, a value, or the items of
an array from an index on. -/
inductive Subject where
  | attributes (r : RecordRef) (s : Selector) (attributes : List Attribute)
  | value (t : ValueType) (v : Value) (s : Selector)
  | items (t : ValueType) (index : Nat) (items : List Value) (s : Selector)

/-- The places that a selector leads to, in order. -/
inductive Graph.Visits (d : Directory) (g : Graph) : Subject → List Place → Prop
  | done {r : RecordRef} {s : Selector} : Visits d g (.attributes r s []) []
  /-- The attribute is not selected or not set. -/
  | passed {r : RecordRef} {s : Selector} {a : Attribute} {rest : List Attribute} {ps : List Place}
    (unset : s.Selects a.name → g.seen? r a.name = none)
    (later : Visits d g (.attributes r s rest) ps) : Visits d g (.attributes r s (a :: rest)) ps
  | set {r : RecordRef} {s : Selector} {a : Attribute} {v : Value} {rest : List Attribute}
    {ps qs : List Place} (selects : s.Selects a.name) (holds : g.seen? r a.name = some v)
    (here : Visits d g (.value a.type v (s.get a.name)) ps)
    (later : Visits d g (.attributes r s rest) qs) :
    Visits d g (.attributes r s (a :: rest)) (ps.map (Place.within (.named a.name)) ++ qs)
  /-- Nothing is beneath the value. -/
  | whole {t : ValueType} {v : Value} {s : Selector} (closed : t.opens v = false) :
    Visits d g (.value t v s) [⟨[], t, v⟩]
  | array {item : ValueType} {traits : Traits} {items : List Value} {s : Selector} {ps : List Place}
    (beneath : Visits d g (.items item 0 items s) ps) :
    Visits d g (.value (.array item traits) (.array items) s)
      (⟨[], .array item traits, .array items⟩ :: ps)
  | record {name : String} {traits : Traits} {q : RecordRef} {s : Selector} {ps : List Place}
    (beneath : Visits d g (.attributes q (d.asked s q) (d.attributes q.cls)) ps) :
    Visits d g (.value (.reference name false traits) (.record q) s)
      (⟨[], .reference name false traits, .record q⟩ :: ps)
  | ended {t : ValueType} {index : Nat} {s : Selector} : Visits d g (.items t index [] s) []
  | item {t : ValueType} {index : Nat} {v : Value} {rest : List Value} {s : Selector}
    {ps qs : List Place} (here : Visits d g (.value t v s) ps)
    (later : Visits d g (.items t (index + 1) rest s) qs) :
    Visits d g (.items t index (v :: rest) s) (ps.map (Place.within (.indexed index)) ++ qs)

/-- The failures at the places that a selector leads to. -/
def Graph.Reports (d : Directory) (g : Graph) (subject : Subject) (failures : List Failure) : Prop :=
  ∃ ps, g.Visits d subject ps ∧ failures = ps.flatMap Place.failures

variable {d : Directory} {g : Graph}

/-- The places are determined. -/
theorem Graph.Visits.unique {subject : Subject} {ps qs : List Place} (h : g.Visits d subject ps)
    (h' : g.Visits d subject qs) : ps = qs := by
  induction h generalizing qs with
  | done =>
    cases h'
    rfl
  | passed unset _ ih =>
    cases h' with
    | passed _ later => exact ih later
    | set selects holds _ _ =>
      rw [unset selects] at holds
      cases holds
  | set selects holds _ _ ihHere ihLater =>
    cases h' with
    | passed unset _ =>
      rw [unset selects] at holds
      cases holds
    | set _ holds' here later =>
      rw [holds] at holds'
      cases holds'
      rw [ihHere here, ihLater later]
  | whole closed =>
    cases h' with
    | whole _ => rfl
    | array _ => cases closed
    | record _ => cases closed
  | array _ ih =>
    cases h' with
    | whole closed => cases closed
    | array beneath => rw [ih beneath]
  | record _ ih =>
    cases h' with
    | whole closed => cases closed
    | record beneath => rw [ih beneath]
  | ended =>
    cases h'
    rfl
  | item _ _ ihHere ihLater =>
    cases h' with
    | item here later => rw [ihHere here, ihLater later]

/-- All records that are mentioned are known. -/
def Subject.Within (known : Set RecordRef) : Subject → Prop
  | .attributes r _ _ => r ∈ known
  | .value _ v _ => v.Within known
  | .items _ _ vs _ => ∀ v ∈ vs, v.Within known

/-- What the places are depends on what known records are seen to hold. -/
theorem Graph.Visits.of_seen {g' : Graph} {known : Set RecordRef} {subject : Subject} {ps : List Place}
    (h : g'.Visits d subject ps) (hg : g.Sound known) (hsubject : subject.Within known)
    (hseen : ∀ r ∈ known, ∀ name, g'.seen? r name = g.seen? r name) : g.Visits d subject ps := by
  induction h with
  | done => exact .done
  | passed unset _ ih => exact .passed (fun hs => (hseen _ hsubject _).symm.trans (unset hs)) (ih hsubject)
  | set selects holds _ _ ihHere ihLater =>
    have holds' := (hseen _ hsubject _).symm.trans holds
    exact .set selects holds' (ihHere (hg.seen hsubject holds')) (ihLater hsubject)
  | whole closed => exact .whole closed
  | array _ ih => exact .array (ih (Value.within_array.1 hsubject))
  | record _ ih => exact .record (ih (Value.within_record.1 hsubject))
  | ended => exact .ended
  | item _ _ ihHere ihLater =>
    obtain ⟨hfirst, hrest⟩ := List.forall_mem_cons.1 hsubject
    exact .item (ihHere hfirst) (ihLater hrest)

namespace Graph.Reports

variable {r q : RecordRef} {s : Selector} {a : Attribute} {t : ValueType} {v : Value}
  {fs fs' : List Failure}

theorem unique {subject : Subject} (h : g.Reports d subject fs) (h' : g.Reports d subject fs') :
    fs = fs' := by
  obtain ⟨ps, hps, rfl⟩ := h
  obtain ⟨qs, hqs, rfl⟩ := h'
  rw [hps.unique hqs]

theorem whole (closed : t.opens v = false) :
    g.Reports d (.value t v s) (Place.failures ⟨[], t, v⟩) :=
  ⟨_, .whole closed, by simp⟩

theorem array {traits : Traits} {items : List Value} (h : g.Reports d (.items t 0 items s) fs) :
    g.Reports d (.value (.array t traits) (.array items) s)
      (Place.failures ⟨[], .array t traits, .array items⟩ ++ fs) := by
  obtain ⟨ps, hps, rfl⟩ := h
  exact ⟨_, .array hps, rfl⟩

theorem record {name : String} {traits : Traits}
    (h : g.Reports d (.attributes q (d.asked s q) (d.attributes q.cls)) fs) :
    g.Reports d (.value (.reference name false traits) (.record q) s)
      (Place.failures ⟨[], .reference name false traits, .record q⟩ ++ fs) := by
  obtain ⟨ps, hps, rfl⟩ := h
  exact ⟨_, .record hps, rfl⟩

theorem ended {index : Nat} : g.Reports d (.items t index [] s) [] := ⟨[], .ended, rfl⟩

theorem item {index : Nat} {rest : List Value} (h : g.Reports d (.value t v s) fs)
    (h' : g.Reports d (.items t (index + 1) rest s) fs') :
    g.Reports d (.items t index (v :: rest) s)
      (fs.map (·.prefixed (Segment.indexed index).text) ++ fs') := by
  obtain ⟨ps, hps, rfl⟩ := h
  obtain ⟨qs, hqs, rfl⟩ := h'
  exact ⟨_, .item hps hqs, (Place.flatMap_within _ _ _).symm⟩

theorem passed (unset : s.Selects a.name → g.seen? r a.name = none) :
    g.Reports d (.attributes r s [a]) [] :=
  ⟨[], .passed unset .done, rfl⟩

theorem set (selects : s.Selects a.name) (holds : g.seen? r a.name = some v)
    (h : g.Reports d (.value a.type v (s.get a.name)) fs) :
    g.Reports d (.attributes r s [a]) (fs.map (·.prefixed a.name)) := by
  obtain ⟨ps, hps, rfl⟩ := h
  refine ⟨_, .set selects holds hps .done, ?_⟩
  rw [Place.flatMap_within]
  simp [Segment.text]

/-- The failures of one attribute after the other. -/
theorem flatten {attributes : List Attribute} {fss : List (List Failure)}
    (h : List.Forall₂ (fun a fs => g.Reports d (.attributes r s [a]) fs) attributes fss) :
    g.Reports d (.attributes r s attributes) fss.flatten := by
  induction h with
  | nil => exact ⟨[], .done, rfl⟩
  | cons hfirst _ ih =>
    obtain ⟨ps, hps, rfl⟩ := hfirst
    obtain ⟨qs, hqs, hfs⟩ := ih
    rw [List.flatten_cons, hfs, ← List.flatMap_append]
    cases hps with
    | passed unset later =>
      cases later
      exact ⟨_, .passed unset hqs, rfl⟩
    | set selects holds here later =>
      cases later
      rw [List.append_nil]
      exact ⟨_, .set selects holds here hqs, rfl⟩

end Graph.Reports

end TypedRecords
