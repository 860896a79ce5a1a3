import TypedRecords.Proofs.Document.Edits
import TypedRecords.Proofs.Value.WellFormed

/-! # Overlays

What a stored document becomes when the patch of an encoded record is applied to it: every field of
the record replaces the stored one, but tagged objects are laid over the stored object, of which the
fields that they do not name stay.
-/

namespace TypedRecords

namespace Value

/-- The fields of an object; none of what is missing or something else. -/
def fieldsOf (stored : Option Value) : Object := (stored.bind asObject?).getD []

mutual

/-- What stands in the place of a stored value after the patch of another has been applied. -/
def overlay : Value → (stored : Option Value) → Option Value
  | .undefined, _ => none
  | .object fields, stored =>
    if Tree.isTagged fields then some (.object (overlayFields fields (fieldsOf stored)))
    else some (.object (stripFields fields))
  | v, _ => some v.strip

def overlayFields : List (String × Value) → (document : Object) → Object
  | [], document => document
  | (name, v) :: rest, document =>
    overlayFields rest (Fields.assign name (overlay v (Fields.get? name document)) document)

end

/-! ### Reading overlays -/

theorem distinct_overlayFields {fields document : Object} (h : Fields.Distinct document) :
    Fields.Distinct (overlayFields fields document) := by
  induction fields generalizing document with
  | nil => exact h
  | cons entry rest ih => exact ih (h.assign _ _)

theorem get?_overlayFields_of_not_mem {name : String} {fields : Object}
    (h : name ∉ Fields.keys fields) (document : Object) :
    Fields.get? name (overlayFields fields document) = Fields.get? name document := by
  induction fields generalizing document with
  | nil => rfl
  | cons entry rest ih =>
    obtain ⟨key, v⟩ := entry
    have hne : name ≠ key := fun e => h (e ▸ List.mem_cons_self)
    have hrest : name ∉ Fields.keys rest := fun hm => h (List.mem_cons_of_mem _ hm)
    rw [overlayFields, ih hrest, Fields.get?_assign_of_ne hne]

theorem get?_overlayFields_of_mem {name : String} {v : Value} {fields document : Object}
    (hfields : Fields.Distinct fields) (hdocument : Fields.Distinct document)
    (h : (name, v) ∈ fields) :
    Fields.get? name (overlayFields fields document) =
      overlay v (Fields.get? name document) := by
  induction fields generalizing document with
  | nil => cases h
  | cons entry rest ih =>
    obtain ⟨key, w⟩ := entry
    obtain ⟨hkey, hrest⟩ := Fields.distinct_cons.1 hfields
    rw [overlayFields]
    rcases List.mem_cons.1 h with heq | hmem
    · cases heq
      rw [get?_overlayFields_of_not_mem hkey, Fields.get?_assign_self hdocument]
    · have hne : name ≠ key := by
        rintro rfl
        exact hkey (Fields.mem_keys_of_mem hmem)
      rw [ih hrest (hdocument.assign _ _) hmem, Fields.get?_assign_of_ne hne]

/-! ### Patchable values -/

mutual

/-- The tagged objects that a patch goes through name each field once and properly, and their tags
are texts. -/
def Patchable : Value → Prop
  | .object fields =>
    Tree.isTagged fields = true → Fields.Distinct fields ∧
      (∃ tag, Fields.get? Tree.classTag fields = some (.string tag)) ∧ FieldsPatchable fields
  | _ => True

def FieldsPatchable : List (String × Value) → Prop
  | [] => True
  | (name, v) :: rest => Path.IsName name ∧ Patchable v ∧ FieldsPatchable rest

end

theorem fieldsPatchable_iff {fields : Object} :
    FieldsPatchable fields ↔ ∀ entry ∈ fields, Path.IsName entry.1 ∧ entry.2.Patchable := by
  induction fields with
  | nil => simp [FieldsPatchable]
  | cons entry rest ih => simp [FieldsPatchable, ih, and_assoc]

mutual

/-- The edits in the patch of a value. -/
def edits : Value → List Edit
  | .undefined => [⟨[], none⟩]
  | .object fields =>
    if Tree.isTagged fields then fieldEdits fields else [⟨[], some (.object (stripFields fields))⟩]
  | v => [⟨[], some v.strip⟩]

def fieldEdits : List (String × Value) → List Edit
  | [] => []
  | (name, v) :: rest => (edits v).map (Edit.under name) ++ fieldEdits rest

end

/-! ### Edits and overlays -/

theorem mem_fieldEdits {fields : Object} {e : Edit} :
    e ∈ fieldEdits fields ↔ ∃ entry ∈ fields, ∃ inner ∈ edits entry.2, e = inner.under entry.1 := by
  induction fields with
  | nil => simp [fieldEdits]
  | cons entry rest ih =>
    obtain ⟨name, v⟩ := entry
    simp only [fieldEdits, List.mem_append, List.mem_map, ih, List.mem_cons, exists_eq_or_imp]
    constructor
    · rintro (⟨inner, hinner, rfl⟩ | h)
      · exact .inl ⟨inner, hinner, rfl⟩
      · exact .inr h
    · rintro (⟨inner, hinner, rfl⟩ | h)
      · exact .inl ⟨inner, hinner, rfl⟩
      · exact .inr h

theorem names_ne_nil_of_mem_fieldEdits {fields : Object} {e : Edit} (h : e ∈ fieldEdits fields) :
    e.names ≠ [] := by
  obtain ⟨entry, -, inner, -, rfl⟩ := mem_fieldEdits.1 h
  exact List.cons_ne_nil _ _

/-- A tagged object writes at least its tag. -/
theorem fieldEdits_writes {fields : Object} {tag : String}
    (h : Fields.get? Tree.classTag fields = some (.string tag)) :
    ∃ e ∈ fieldEdits fields, e.value ≠ none := by
  have hmem := Fields.mem_of_get? h
  refine ⟨Edit.under Tree.classTag ⟨[], some (.string tag)⟩, ?_, by simp [Edit.under]⟩
  exact mem_fieldEdits.2 ⟨_, hmem, ⟨[], some (.string tag)⟩, by simp [edits, strip], rfl⟩

mutual

theorem foldl_edits (v : Value) (h : v.Patchable) (name : String) (document : Document) :
    ((edits v).map (Edit.under name)).foldl Edit.run document =
      Fields.assign name (overlay v (Fields.get? name document)) document := by
  cases v with
  | undefined =>
    simp only [edits, List.map_cons, List.map_nil, List.foldl_cons, List.foldl_nil, overlay,
      Edit.run_under]
    rfl
  | object fields =>
    simp only [edits, overlay]
    split
    · next htag =>
      obtain ⟨-, ⟨tag, hget⟩, hfields⟩ := h htag
      rw [Edit.foldl_run_under (fun e he => names_ne_nil_of_mem_fieldEdits he)
        (fieldEdits_writes hget), foldl_fieldEdits fields hfields]
      rfl
    · rfl
  | _ => rfl

theorem foldl_fieldEdits (fields : List (String × Value)) (h : FieldsPatchable fields)
    (document : Document) :
    (fieldEdits fields).foldl Edit.run document = overlayFields fields document := by
  cases fields with
  | nil => rfl
  | cons entry rest =>
    obtain ⟨name, v⟩ := entry
    obtain ⟨-, hv, hrest⟩ := h
    rw [fieldEdits, List.foldl_append, foldl_edits v hv, foldl_fieldEdits rest hrest]
    rfl

end

/-! ### The places of the edits -/

mutual

theorem pairwise_edits (v : Value) (h : v.Patchable) : (edits v).Pairwise Edit.Independent := by
  cases v with
  | object fields =>
    simp only [edits]
    split
    · next htag =>
      obtain ⟨hdistinct, -, hfields⟩ := h htag
      exact pairwise_fieldEdits fields hdistinct hfields
    · exact List.pairwise_singleton _ _
  | _ => exact List.pairwise_singleton _ _

theorem pairwise_fieldEdits (fields : List (String × Value)) (hdistinct : Fields.Distinct fields)
    (h : FieldsPatchable fields) : (fieldEdits fields).Pairwise Edit.Independent := by
  cases fields with
  | nil => exact List.Pairwise.nil
  | cons entry rest =>
    obtain ⟨name, v⟩ := entry
    obtain ⟨-, hv, hrest⟩ := h
    obtain ⟨hname, hdistinctRest⟩ := Fields.distinct_cons.1 hdistinct
    refine List.pairwise_append.2 ⟨?_, pairwise_fieldEdits rest hdistinctRest hrest, ?_⟩
    · rw [List.pairwise_map]
      exact (pairwise_edits v hv).imp fun hind => hind.under name
    · intro a ha b hb
      obtain ⟨inner, -, rfl⟩ := List.mem_map.1 ha
      obtain ⟨other, hother, inner', -, rfl⟩ := mem_fieldEdits.1 hb
      refine Edit.independent_of_ne ?_ inner inner'
      rintro rfl
      exact hname (Fields.mem_keys_of_mem hother)

end

mutual

theorem isName_of_mem_edits (v : Value) (h : v.Patchable) :
    ∀ e ∈ edits v, ∀ name ∈ e.names, Path.IsName name := by
  cases v with
  | object fields =>
    simp only [edits]
    split
    · next htag =>
      obtain ⟨-, -, hfields⟩ := h htag
      exact isName_of_mem_fieldEdits fields hfields
    · simp
  | _ => simp [edits]

theorem isName_of_mem_fieldEdits (fields : List (String × Value)) (h : FieldsPatchable fields) :
    ∀ e ∈ fieldEdits fields, ∀ name ∈ e.names, Path.IsName name := by
  cases fields with
  | nil => simp [fieldEdits]
  | cons entry rest =>
    obtain ⟨first, v⟩ := entry
    obtain ⟨hfirst, hv, hrest⟩ := h
    intro e he name hname
    rcases List.mem_append.1 he with he | he
    · obtain ⟨inner, hinner, rfl⟩ := List.mem_map.1 he
      rcases List.mem_cons.1 hname with rfl | hname
      · exact hfirst
      · exact isName_of_mem_edits v hv inner hinner name hname
    · exact isName_of_mem_fieldEdits rest hrest e he name hname

end

end Value

/-! ### Patches as edits -/

namespace Patch

/-- The patch that makes some edits. -/
def ofEdits (es : List Edit) : Patch where
  written := es.filterMap fun e => e.value.map fun v => (Path.ofNames e.names, v)
  removed := es.filterMap fun e =>
    match e.value with
    | some _ => none
    | none => some (Path.ofNames e.names)

/-- The places of edits are paths of proper names, each named once. -/
structure Places (es : List Edit) : Prop where
  names_ne_nil : ∀ e ∈ es, e.names ≠ []
  isName : ∀ e ∈ es, ∀ name ∈ e.names, Path.IsName name
  independent : es.Pairwise Edit.Independent

theorem Places.left {es fs : List Edit} (h : Places (es ++ fs)) : Places es :=
  ⟨fun e he => h.names_ne_nil e (List.mem_append_left _ he),
    fun e he => h.isName e (List.mem_append_left _ he), (List.pairwise_append.1 h.independent).1⟩

/-- The path of an edit that is added is not that of an earlier one. -/
theorem Places.ofNames_ne {es : List Edit} {e : Edit} (h : Places (es ++ [e])) {e' : Edit}
    (he' : e' ∈ es) : Path.ofNames e'.names ≠ Path.ofNames e.names := by
  intro heq
  have hmem' : e' ∈ es ++ [e] := List.mem_append_left _ he'
  have hmem : e ∈ es ++ [e] := List.mem_append_right _ List.mem_cons_self
  have hind := (List.pairwise_append.1 h.independent).2.2 e' he' e List.mem_cons_self
  exact hind.names_ne (Path.ofNames_injective (h.names_ne_nil _ hmem') (h.names_ne_nil _ hmem)
    (h.isName _ hmem') (h.isName _ hmem) heq)

theorem ofEdits_write {es : List Edit} {names : List String} {v : Value}
    (h : Places (es ++ [⟨names, some v⟩])) :
    (ofEdits es).write (Path.ofNames names) v = ofEdits (es ++ [⟨names, some v⟩]) := by
  have hnew : Path.ofNames names ∉ Fields.keys (ofEdits es).written := by
    intro hmem
    obtain ⟨⟨path, w⟩, hentry, rfl⟩ := List.mem_map.1 hmem
    obtain ⟨e, he, heq⟩ := List.mem_filterMap.1 hentry
    obtain ⟨w', -, hpair⟩ := Option.map_eq_some_iff.1 heq
    exact h.ofNames_ne he (congrArg Prod.fst hpair)
  simp only [write, Fields.insert_of_not_mem hnew]
  simp [ofEdits]

theorem ofEdits_remove {es : List Edit} {names : List String}
    (h : Places (es ++ [⟨names, none⟩])) :
    (ofEdits es).remove (Path.ofNames names) = ofEdits (es ++ [⟨names, none⟩]) := by
  have hnew : (ofEdits es).removed.contains (Path.ofNames names) = false := by
    rw [← Bool.not_eq_true, List.contains_iff_mem]
    intro hmem
    obtain ⟨e, he, heq⟩ := List.mem_filterMap.1 hmem
    split at heq
    · cases heq
    · exact h.ofNames_ne he (Option.some.inj heq)
  simp only [remove, hnew]
  simp [ofEdits]

theorem map_below_under (outer : List String) (name : String) (es : List Edit) :
    (es.map (Edit.under name)).map (Edit.below outer) = es.map (Edit.below (outer ++ [name])) := by
  rw [List.map_map]
  refine List.map_congr_left fun e _ => ?_
  simp [Edit.under, Edit.below]

mutual

theorem addField_ofEdits (v : Value) (outer : List String) (es : List Edit)
    (h : Places (es ++ v.edits.map (Edit.below outer))) :
    addField (Path.ofNames outer) v (ofEdits es) =
      ofEdits (es ++ v.edits.map (Edit.below outer)) := by
  cases v with
  | undefined =>
    simp only [Value.edits, List.map_cons, List.map_nil, Edit.below, List.append_nil] at h ⊢
    rw [← ofEdits_remove h]
    rfl
  | object fields =>
    simp only [Value.edits, addField] at h ⊢
    by_cases htag : Tree.isTagged fields = true
    · simp only [htag, if_true] at h ⊢
      exact addFields_ofEdits fields outer es h
    · rw [if_neg htag] at h ⊢
      rw [if_neg htag]
      simp only [List.map_cons, List.map_nil, Edit.below, List.append_nil] at h ⊢
      exact ofEdits_write h
  | _ =>
    simp only [Value.edits, List.map_cons, List.map_nil, Edit.below, List.append_nil] at h ⊢
    exact ofEdits_write h

theorem addFields_ofEdits (fields : List (String × Value)) (outer : List String) (es : List Edit)
    (h : Places (es ++ (Value.fieldEdits fields).map (Edit.below outer))) :
    addFields (Path.ofNames outer) fields (ofEdits es) =
      ofEdits (es ++ (Value.fieldEdits fields).map (Edit.below outer)) := by
  cases fields with
  | nil => simp [addFields, Value.fieldEdits]
  | cons entry rest =>
    obtain ⟨name, v⟩ := entry
    rw [Value.fieldEdits, List.map_append, map_below_under, ← List.append_assoc] at h ⊢
    rw [addFields, Path.join_ofNames, addField_ofEdits v _ es h.left,
      addFields_ofEdits rest outer _ h]

end

theorem foldl_set {es : List Edit} (h : Places es) (document : Document) :
    (ofEdits es).written.foldl (fun doc entry => Path.set doc entry.1 entry.2) document =
      (es.filter fun e => e.value.isSome).foldl Edit.run document := by
  induction es generalizing document with
  | nil => rfl
  | cons e rest ih =>
    have hrest : Places rest :=
      ⟨fun e he => h.names_ne_nil e (List.mem_cons_of_mem _ he),
        fun e he => h.isName e (List.mem_cons_of_mem _ he), (List.pairwise_cons.1 h.independent).2⟩
    obtain ⟨names, value⟩ := e
    cases value with
    | none => exact ih hrest document
    | some v =>
      have hsegments := Path.segments_ofNames (h.names_ne_nil _ List.mem_cons_self)
        (h.isName _ List.mem_cons_self)
      have hset : Path.set document (Path.ofNames names) v =
          Edit.run document ⟨names, some v⟩ := by
        simp only [Path.set, hsegments, Edit.run]
      simpa [ofEdits, hset] using ih hrest (Edit.run document ⟨names, some v⟩)

theorem foldl_remove {es : List Edit} (h : Places es) (document : Document) :
    (ofEdits es).removed.foldl Path.remove document =
      (es.filter fun e => e.value.isNone).foldl Edit.run document := by
  induction es generalizing document with
  | nil => rfl
  | cons e rest ih =>
    have hrest : Places rest :=
      ⟨fun e he => h.names_ne_nil e (List.mem_cons_of_mem _ he),
        fun e he => h.isName e (List.mem_cons_of_mem _ he), (List.pairwise_cons.1 h.independent).2⟩
    obtain ⟨names, value⟩ := e
    cases value with
    | some v => exact ih hrest document
    | none =>
      have hsegments := Path.segments_ofNames (h.names_ne_nil _ List.mem_cons_self)
        (h.isName _ List.mem_cons_self)
      have hremove : Path.remove document (Path.ofNames names) =
          Edit.run document ⟨names, none⟩ := by
        simp only [Path.remove, Path.remove?, hsegments, Edit.run]
      simpa [ofEdits, hremove] using ih hrest (Edit.run document ⟨names, none⟩)

theorem apply_ofEdits {es : List Edit} (h : Places es) (document : Document) :
    (ofEdits es).apply document = es.foldl Edit.run document := by
  rw [Edit.foldl_run_eq h.independent, ← foldl_set h, ← foldl_remove h]
  rfl

theorem places_fieldEdits {fields : Object} (hdistinct : Fields.Distinct fields)
    (h : Value.FieldsPatchable fields) : Places (Value.fieldEdits fields) where
  names_ne_nil _ he := Value.names_ne_nil_of_mem_fieldEdits he
  isName := Value.isName_of_mem_fieldEdits fields h
  independent := Value.pairwise_fieldEdits fields hdistinct h

/-- A patch is the edits of its fields, one after another. -/
theorem apply_of_fieldsPatchable {fields : Object} (hdistinct : Fields.Distinct fields)
    (h : Value.FieldsPatchable fields) (stored : Document) :
    (ofDocument fields).apply stored = Value.overlayFields fields stored := by
  have hplaces := places_fieldEdits hdistinct h
  have hbelow : (Value.fieldEdits fields).map (Edit.below []) = Value.fieldEdits fields :=
    List.map_id _
  have hpatch : ofDocument fields = ofEdits (Value.fieldEdits fields) := by
    have hadd := addFields_ofEdits fields [] []
    rw [hbelow, List.nil_append] at hadd
    exact hadd hplaces
  rw [hpatch, apply_ofEdits hplaces, Value.foldl_fieldEdits fields h]

/-- The patch of an encoded record lays it over the stored document. -/
theorem apply_ofDocument {document : Document} (htag : Tree.isTagged document = true)
    (h : (Value.object document).Patchable) (stored : Document) :
    (ofDocument document).apply stored = Value.overlayFields document stored := by
  obtain ⟨hdistinct, -, hfields⟩ := h htag
  exact apply_of_fieldsPatchable hdistinct hfields stored

/-- The patch of a document lays it over a stored one, and so field by field: what the document names
is laid over what is stored under the name, and what it does not name stays. -/
theorem apply_overlays {fields : Object} (hdistinct : Fields.Distinct fields)
    (h : Value.FieldsPatchable fields) (stored : Document) :
    (ofDocument fields).apply stored = Value.overlayFields fields stored ∧
      (Fields.Distinct stored → ∀ name,
        Fields.get? name ((ofDocument fields).apply stored) =
          match Fields.get? name fields with
          | some v => v.overlay (Fields.get? name stored)
          | none => Fields.get? name stored) := by
  have happly := apply_of_fieldsPatchable hdistinct h stored
  refine ⟨happly, fun hstored name => ?_⟩
  rw [happly]
  cases hv : Fields.get? name fields with
  | some v => exact Value.get?_overlayFields_of_mem hdistinct hstored (Fields.mem_of_get? hv)
  | none =>
    have hmissing := (Fields.get?_eq_none_iff _ _).1 hv
    exact Value.get?_overlayFields_of_not_mem hmissing stored

/-- A film whose director has no name. -/
def nameless : Document :=
  [("__component", .string "Movie"), ("title", .string "Alien"),
    ("director", .object [("__component", .string "Person"), ("name", .undefined),
      ("details", .object [("born", .number Number.one), ("note", .undefined)])])]

def renamed : Document :=
  [("title", .string "Star Beast"), ("year", .number Number.one),
    ("director", .object [("name", .string "Ridley"), ("city", .string "London")])]

theorem apply_overlays_nameless :
    (ofDocument nameless).apply renamed =
      [("title", .string "Alien"), ("year", .number Number.one),
        ("director", .object [("city", .string "London"), ("__component", .string "Person"),
          ("details", .object [("born", .number Number.one)])]),
        ("__component", .string "Movie")] ∧
      Fields.get? "year" ((ofDocument nameless).apply renamed) = some (.number Number.one) := by
  have hdistinct : (Fields.keys nameless).Nodup := by decide
  have hperson : Value.Patchable (.object [("__component", .string "Person"), ("name", .undefined),
      ("details", .object [("born", .number Number.one), ("note", .undefined)])]) := by
    intro _
    have hkeys : ["__component", "name", "details"].Nodup := by decide
    refine ⟨hkeys, ⟨"Person", rfl⟩, by decide, trivial, by decide, trivial, by decide, ?_, trivial⟩
    -- An object without a tag is written whole, so that nothing is asked of its names.
    intro htag
    cases htag
  have hfields : Value.FieldsPatchable nameless :=
    ⟨by decide, trivial, by decide, trivial, by decide, hperson, trivial⟩
  have hstored : (Fields.keys renamed).Nodup := by decide
  obtain ⟨happly, hread⟩ := apply_overlays hdistinct hfields renamed
  exact ⟨happly.trans rfl, (hread hstored "year").trans rfl⟩

end Patch

end TypedRecords
