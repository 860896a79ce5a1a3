import TypedRecords.Document.Patch
import TypedRecords.Proofs.Document.Names
import TypedRecords.Proofs.Fields

/-! # Edits

A patch as a list of edits, each of which writes or removes at one place. Patches write first and
remove afterwards; where no place is within another that comes to the same as the edits in their
order.
-/

namespace TypedRecords

/-- Something written at a place, or nothing left there. -/
structure Edit where
  names : List String
  value : Option Value

namespace Edit

def run (document : Document) (e : Edit) : Document :=
  match e.value with
  | some v => Path.setAlong v e.names document
  | none => (Path.removeAlong? e.names document).getD document

/-- The same edit within what stands under a name. -/
def under (name : String) (e : Edit) : Edit := { e with names := name :: e.names }

/-- The same edit within what stands at a place. -/
def below (outer : List String) (e : Edit) : Edit := { e with names := outer ++ e.names }

/-- Neither place is within the other. -/
def Independent (a b : Edit) : Prop := ¬ a.names <+: b.names ∧ ¬ b.names <+: a.names

theorem Independent.symm {a b : Edit} (h : Independent a b) : Independent b a := ⟨h.2, h.1⟩

theorem Independent.names_ne {a b : Edit} (h : Independent a b) : a.names ≠ b.names :=
  fun he => h.1 (he ▸ List.prefix_rfl)

theorem Independent.of_under {a b : Edit} {name : String}
    (h : Independent (a.under name) (b.under name)) : Independent a b :=
  ⟨fun hp => h.1 ((List.prefix_cons_inj name).2 hp),
    fun hp => h.2 ((List.prefix_cons_inj name).2 hp)⟩

theorem Independent.under {a b : Edit} (h : Independent a b) (name : String) :
    Independent (a.under name) (b.under name) :=
  ⟨fun hp => h.1 ((List.prefix_cons_inj name).1 hp),
    fun hp => h.2 ((List.prefix_cons_inj name).1 hp)⟩

theorem independent_of_ne {name other : String} (h : name ≠ other) (a b : Edit) :
    Independent (a.under name) (b.under other) :=
  ⟨fun hp => h (List.cons_prefix_cons.1 hp).1,
    fun hp => h (List.cons_prefix_cons.1 hp).1.symm⟩

/-! ### Edits under a name -/

theorem objectAt_eq_of_get? {name : String} {document inner : Object}
    (h : Fields.get? name document = some (.object inner)) :
    Path.objectAt name document = inner := by
  simp [Path.objectAt, h, Value.asObject?]

theorem objectAt_of_no_object {name : String} {document : Object}
    (h : ∀ inner, Fields.get? name document ≠ some (.object inner)) :
    Path.objectAt name document = [] := by
  cases hv : Fields.get? name document with
  | none => simp [Path.objectAt, hv]
  | some v =>
    cases v with
    | object inner => exact absurd hv (h inner)
    | _ => simp [Path.objectAt, hv, Value.asObject?]

theorem objectAt_insert (name : String) (inner document : Object) :
    Path.objectAt name (Fields.insert name (.object inner) document) = inner :=
  objectAt_eq_of_get? (Fields.get?_insert_self _ _ _)

theorem run_under_write {e : Edit} (hnames : e.names ≠ []) (hvalue : e.value ≠ none)
    (name : String) (document : Document) :
    run document (e.under name) =
      Fields.insert name (.object (run (Path.objectAt name document) e)) document := by
  obtain ⟨names, value⟩ := e
  cases value with
  | none => exact absurd rfl hvalue
  | some v =>
    cases names with
    | nil => exact absurd rfl hnames
    | cons next rest => rfl

theorem run_under_of_object {e : Edit} (hnames : e.names ≠ []) {name : String}
    {document inner : Object} (h : Fields.get? name document = some (.object inner)) :
    run document (e.under name) = Fields.insert name (.object (run inner e)) document := by
  obtain ⟨names, value⟩ := e
  cases value with
  | some v =>
    rw [run_under_write hnames (by simp), objectAt_eq_of_get? h]
  | none =>
    cases names with
    | nil => exact absurd rfl hnames
    | cons next rest =>
      simp only [run, under, Path.removeAlong?, h]
      cases hr : Path.removeAlong? (next :: rest) inner with
      | none => simp [Fields.insert_get? h]
      | some removed => simp

theorem run_under_remove {e : Edit} (hnames : e.names ≠ []) (hvalue : e.value = none)
    {name : String} {document : Document}
    (h : ∀ inner, Fields.get? name document ≠ some (.object inner)) :
    run document (e.under name) = document := by
  obtain ⟨names, value⟩ := e
  subst hvalue
  cases names with
  | nil => exact absurd rfl hnames
  | cons next rest =>
    have hremove : Path.removeAlong? (name :: next :: rest) document = none := by
      unfold Path.removeAlong?
      split
      · next inner hinner => exact absurd hinner (h inner)
      · rfl
    simp only [run, under, hremove, Option.getD_none]

theorem run_nil_remove {e : Edit} (hvalue : e.value = none) : run [] e = [] := by
  obtain ⟨names, value⟩ := e
  subst hvalue
  cases names with
  | nil => rfl
  | cons name rest => cases rest <;> rfl

theorem foldl_run_under_of_object {es : List Edit} (hnames : ∀ e ∈ es, e.names ≠ [])
    (name : String) (inner document : Object) :
    (es.map (under name)).foldl run (Fields.insert name (.object inner) document) =
      Fields.insert name (.object (es.foldl run inner)) document := by
  induction es generalizing inner with
  | nil => rfl
  | cons e rest ih =>
    obtain ⟨he, hrest⟩ := List.forall_mem_cons.1 hnames
    simp only [List.map_cons, List.foldl_cons]
    rw [run_under_of_object he (Fields.get?_insert_self _ _ _), Fields.insert_insert_self]
    exact ih hrest _

/-- Edits within what stands under a name, which becomes an object as soon as one of them writes. -/
theorem foldl_run_under {es : List Edit} (hnames : ∀ e ∈ es, e.names ≠ [])
    (hwrites : ∃ e ∈ es, e.value ≠ none) (name : String) (document : Document) :
    (es.map (under name)).foldl run document =
      Fields.insert name (.object (es.foldl run (Path.objectAt name document))) document := by
  induction es generalizing document with
  | nil =>
    obtain ⟨e, he, -⟩ := hwrites
    cases he
  | cons e rest ih =>
    obtain ⟨he, hrest⟩ := List.forall_mem_cons.1 hnames
    simp only [List.map_cons, List.foldl_cons]
    by_cases hvalue : e.value = none
    · by_cases hobject : ∃ inner, Fields.get? name document = some (.object inner)
      · obtain ⟨inner, hinner⟩ := hobject
        rw [run_under_of_object he hinner, foldl_run_under_of_object hrest,
          objectAt_eq_of_get? hinner]
      · -- Nothing can be removed before the first write has made the object.
        have hnone : ∀ inner, Fields.get? name document ≠ some (.object inner) :=
          fun inner h => hobject ⟨inner, h⟩
        have hlater : ∃ e' ∈ rest, e'.value ≠ none := by
          obtain ⟨e', he', hv'⟩ := hwrites
          rcases List.mem_cons.1 he' with rfl | hmem
          · exact absurd hvalue hv'
          · exact ⟨e', hmem, hv'⟩
        rw [run_under_remove he hvalue hnone, ih hrest hlater, objectAt_of_no_object hnone,
          run_nil_remove hvalue]
    · rw [run_under_write he hvalue, foldl_run_under_of_object hrest]

/-! ### Order of edits -/

/-- What an edit leaves under a name, from what stood there. -/
def leaves (e : Edit) (stored : Option Value) : Option Value :=
  match e.names, e.value with
  | [], v => v
  | _, some _ => some (.object (run ((stored.bind Value.asObject?).getD []) e))
  | _, none =>
    match stored with
    | some (.object inner) => some (.object (run inner e))
    | other => other

/-- An edit under a name concerns what stands under that name only. -/
theorem run_under (e : Edit) (name : String) (document : Document) :
    run document (e.under name) =
      Fields.assign name (e.leaves (Fields.get? name document)) document := by
  obtain ⟨names, value⟩ := e
  cases names with
  | nil =>
    cases value with
    | some v => rfl
    | none =>
      simp only [run, under, Path.removeAlong?, leaves, Fields.assign]
      split
      · rfl
      · next h => exact (Fields.erase_of_not_mem fun hm => h (Fields.contains_iff.2 hm)).symm
  | cons next rest =>
    cases value with
    | some v => rfl
    | none =>
      simp only [leaves]
      split
      · next inner hinner =>
        rw [run_under_of_object (by simp) hinner]
        rfl
      · next h =>
        rw [run_under_remove (by simp) rfl fun inner hinner => h inner hinner,
          Fields.assign_get?]

/-- What a removal leaves was there before. -/
theorem mem_keys_of_leaves {e : Edit} (hvalue : e.value = none) {name : String}
    {document : Document} {v : Value} (h : e.leaves (Fields.get? name document) = some v) :
    name ∈ Fields.keys document := by
  obtain ⟨names, value⟩ := e
  subst hvalue
  cases hstored : Fields.get? name document with
  | some stored => exact Fields.mem_keys_iff.2 ⟨stored, hstored⟩
  | none =>
    rw [hstored] at h
    cases names <;> cases h

/-- A removal can be brought before a write, if neither place is within the other. -/
theorem run_comm {w r : Edit} (hw : w.value ≠ none) (hr : r.value = none) (h : Independent w r)
    (document : Document) : run (run document w) r = run (run document r) w := by
  obtain ⟨ws, written⟩ := w
  obtain ⟨rs, removed⟩ := r
  induction ws generalizing rs document with
  | nil => exact absurd List.nil_prefix h.1
  | cons name ws ih =>
    cases rs with
    | nil => exact absurd List.nil_prefix h.2
    | cons other rs =>
      let w : Edit := ⟨ws, written⟩
      let r : Edit := ⟨rs, removed⟩
      change run (run document (w.under name)) (r.under other) =
        run (run document (r.under other)) (w.under name)
      by_cases hne : name = other
      · subst hne
        have hin : Independent w r := Independent.of_under h
        have hwn : w.names ≠ [] := fun e => hin.1 (e ▸ List.nil_prefix)
        have hrn : r.names ≠ [] := fun e => hin.2 (e ▸ List.nil_prefix)
        rw [run_under_write hwn hw, run_under_of_object hrn (Fields.get?_insert_self _ _ _),
          Fields.insert_insert_self, ih _ hw rs hr hin]
        by_cases hobject : ∃ inner, Fields.get? name document = some (.object inner)
        · obtain ⟨inner, hinner⟩ := hobject
          rw [run_under_of_object hrn hinner, run_under_write hwn hw, objectAt_insert,
            Fields.insert_insert_self, objectAt_eq_of_get? hinner]
        · have hnone : ∀ inner, Fields.get? name document ≠ some (.object inner) :=
            fun inner hinner => hobject ⟨inner, hinner⟩
          rw [run_under_remove hrn hr hnone, run_under_write hwn hw, objectAt_of_no_object hnone,
            run_nil_remove (e := r) hr]
      · rw [run_under w, run_under r, run_under r, run_under w,
          Fields.get?_assign_of_ne (Ne.symm hne), Fields.get?_assign_of_ne hne]
        refine Fields.assign_comm (Ne.symm hne) ?_ _
        intro v hv
        exact mem_keys_of_leaves (e := r) hr hv

/-- All removals can be brought to the end, if no place is within another. -/
theorem foldl_run_eq {es : List Edit} (h : es.Pairwise Independent) (document : Document) :
    es.foldl run document =
      (es.filter fun e => e.value.isNone).foldl run
        ((es.filter fun e => e.value.isSome).foldl run document) := by
  induction es generalizing document with
  | nil => rfl
  | cons e rest ih =>
    obtain ⟨he, hrest⟩ := List.pairwise_cons.1 h
    rw [List.foldl_cons, ih hrest]
    cases hvalue : e.value with
    | some v => simp [hvalue]
    | none =>
      have hswap : ∀ (ws : List Edit) (document : Document),
          (∀ w ∈ ws, w.value ≠ none ∧ Independent w e) →
          ws.foldl run (run document e) = run (ws.foldl run document) e := by
        intro ws
        induction ws with
        | nil => exact fun _ _ => rfl
        | cons w ws ihw =>
          intro document hws
          obtain ⟨⟨hw, hind⟩, hws⟩ := List.forall_mem_cons.1 hws
          rw [List.foldl_cons, List.foldl_cons, ← run_comm hw hvalue hind, ihw _ hws]
      simp only [List.filter_cons, hvalue, Option.isNone_none, Option.isSome_none,
        List.foldl_cons, if_true]
      rw [hswap]
      · rfl
      · intro w hw
        obtain ⟨hmem, hsome⟩ := List.mem_filter.1 hw
        exact ⟨Option.isSome_iff_ne_none.1 hsome, (he w hmem).symm⟩

end Edit

end TypedRecords
