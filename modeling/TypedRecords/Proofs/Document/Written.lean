import TypedRecords.Proofs.Document.Gapless
import TypedRecords.Proofs.Document.Untouched
import TypedRecords.Proofs.Record.Reading
import TypedRecords.Proofs.Types.Check

/-! # What is written

Documents are written from encoded records, in which no record or class is left. Nothing undefined is
written, the names are those of the record or were there before, and a field that is no object holds
afterwards what the record says.
-/

namespace TypedRecords

namespace Value

/-! ### Stored values -/

/-- A value in which nothing is undefined, a record or a class, at any depth. -/
inductive Concrete : Value → Prop
  | leaf {v : Value} (h : v.isLeaf = true) : Concrete v
  | array {items : List Value} (h : ∀ v ∈ items, Concrete v) : Concrete (.array items)
  | object {fields : Object} (h : ∀ entry ∈ fields, Concrete entry.2) : Concrete (.object fields)

theorem Concrete.fields {fields : Object} (h : (Value.object fields).Concrete) :
    ∀ entry ∈ fields, entry.2.Concrete := by
  cases h with
  | leaf h => cases h
  | object h => exact h

theorem Concrete.ne_undefined {fields : Object} (h : (Value.object fields).Concrete) {name : String}
    {v : Value} (hv : Fields.get? name fields = some v) : v ≠ .undefined := by
  rintro rfl
  have hplain := h.fields _ (Fields.mem_of_get? hv)
  cases hplain with
  | leaf h => cases h

theorem Concrete.within {v : Value} (h : v.Concrete) (known : Set RecordRef) : v.Within known := by
  induction h with
  | leaf h =>
    intro r hr
    rw [records_of_isLeaf h] at hr
    cases hr
  | array _ ih => exact within_array.2 ih
  | object _ ih => exact within_object.2 ih

/-- Without what is undefined in it, a value that holds no record and no class can be stored. -/
theorem concrete_strip {v : Value} (h : v.hasReferences = false) (hdefined : v ≠ .undefined) :
    v.strip.Concrete := by
  induction v using Value.induction with
  | array items ih =>
    have hitems := hasReferences_array.1 h
    refine .array fun t ht => ?_
    rw [stripItems_eq_map] at ht
    obtain ⟨v, hv, rfl⟩ := List.mem_map.1 ht
    cases hundefined : v.isUndefined with
    | true => exact .leaf rfl
    | false =>
      refine ih v hv (hitems v hv) fun heq => ?_
      rw [heq] at hundefined
      cases hundefined
  | object fields ih =>
    have hfields := hasReferences_object.1 h
    refine .object fun entry hentry => ?_
    obtain ⟨v, hv, hne, heq⟩ := mem_stripFields.1 hentry
    exact heq ▸ ih (entry.1, v) hv (hfields _ hv) hne
  | other v harray hobject =>
    cases v with
    | undefined => exact absurd rfl hdefined
    | array items => cases harray
    | object fields => cases hobject
    | record r => cases h
    | classRef c => cases h
    | _ => exact .leaf rfl

theorem concrete_stripFields {fields : Object}
    (h : ∀ entry ∈ fields, entry.2.hasReferences = false) :
    (Value.object (stripFields fields)).Concrete :=
  concrete_strip (v := .object fields) (hasReferences_object.2 h) (by simp)

theorem IsKey.strip {v : Value} (h : v.IsKey) : v.strip = v := by
  rcases h with ⟨s, rfl⟩ | ⟨x, rfl⟩ <;> rfl

theorem IsKey.asObject? {v : Value} (h : v.IsKey) : v.asObject? = none := by
  rcases h with ⟨s, rfl⟩ | ⟨x, rfl⟩ <;> rfl

theorem IsKey.overlay {v : Value} (h : v.IsKey) (stored : Option Value) :
    v.overlay stored = some v := by
  rcases h with ⟨s, rfl⟩ | ⟨x, rfl⟩ <;> rfl

theorem Concrete.allowsEdits : AllowsEdits Concrete where
  empty := .object (by simp)
  insert name v fields hv h := .object fun entry hentry => by
    rcases Fields.mem_insert hentry with hmem | rfl
    · exact h.fields entry hmem
    · exact hv
  erase name fields h := .object fun entry hentry =>
    h.fields entry ((Fields.erase_sublist name fields).subset hentry)
  field name v fields h hv := h.fields (name, v) (Fields.mem_of_get? hv)

end Value

/-! ### Reading a field after one edit -/

namespace Path

variable {path name : String} {document : Document}

theorem getAlong_singleton (name : String) (fields : Object) :
    getAlong [name] (.object fields) = Fields.get? name fields := by
  rw [getAlong_cons]
  cases Fields.get? name fields <;> rfl

theorem get?_set_of_apart (h : Apart (segments path) [name]) (v : Value) :
    Fields.get? name (set document path v) = Fields.get? name document := by
  have hread := getAlong_set_of_apart h v document
  rwa [getAlong_singleton, getAlong_singleton] at hread

theorem get?_remove_of_apart (h : Apart (segments path) [name]) :
    Fields.get? name (remove document path) = Fields.get? name document := by
  have hread := getAlong_remove_of_apart h document
  rwa [getAlong_singleton, getAlong_singleton] at hread

theorem get?_set_self (hname : IsName name) (v : Value) :
    Fields.get? name (set document name v) = some v := by
  rw [set, segments_of_isName hname]
  exact Fields.get?_insert_self name v document

theorem get?_remove_self (hname : IsName name) (hdocument : Fields.Distinct document) :
    Fields.get? name (remove document name) = none := by
  rw [remove, remove?, segments_of_isName hname, removeAlong?]
  split
  · exact Fields.get?_erase_self hdocument name
  · next hmissing =>
    rw [Fields.contains_iff] at hmissing
    exact (Fields.get?_eq_none_iff _ _).2 hmissing

end Path

namespace Patch

open TypedRecords.Path (Apart)

variable {document : Document} {name : String} {v : Value} {w : Option Value} {p : Patch}

theorem allowsFields_concrete : AllowsFields (fun _ => True) (fun v => v.hasReferences = false)
    fun p => ∀ entry ∈ p.written, entry.2.Concrete where
  join _ _ _ := trivial
  field _ h := Value.hasReferences_object.1 h
  write path v p _ hv hdefined hp entry hentry := by
    rcases Fields.mem_insert hentry with hmem | rfl
    · exact hp entry hmem
    · exact Value.concrete_strip hv hdefined
  remove _ _ _ hp := hp

/-- A document that is patched with an encoded record can be stored again. -/
theorem concrete_apply_ofDocument (h : ∀ entry ∈ document, entry.2.hasReferences = false)
    {stored : Document} (hstored : (Value.object stored).Concrete) :
    (Value.object ((ofDocument document).apply stored)).Concrete :=
  apply_allowsEdits Value.Concrete.allowsEdits
    (allowsFields_concrete.addFields trivial h (by simp)) hstored

/-! ### Names -/

/-- Fields that the record does not have stay as they were. -/
theorem get?_apply_ofDocument_of_not_mem (hnames : ∀ key ∈ Fields.keys document, Path.IsName key)
    (h : name ∉ Fields.keys document) (stored : Document) :
    Fields.get? name ((ofDocument document).apply stored) = Fields.get? name stored := by
  have hspares : Value.Spares [name] document := by
    intro entry hentry
    refine ⟨hnames _ (List.mem_map_of_mem hentry), ?_⟩
    rintro rfl
    exact absurd (List.mem_map_of_mem hentry) h
  have hread := getAlong_apply_ofDocument hspares stored
  rwa [Path.getAlong_singleton, Path.getAlong_singleton] at hread

theorem mem_keys_apply_ofDocument (hnames : ∀ key ∈ Fields.keys document, Path.IsName key)
    {stored : Document} (h : name ∈ Fields.keys ((ofDocument document).apply stored)) :
    name ∈ Fields.keys document ∨ name ∈ Fields.keys stored := by
  by_cases hmem : name ∈ Fields.keys document
  · exact .inl hmem
  · refine .inr ?_
    rw [Fields.mem_keys_iff] at h ⊢
    rwa [get?_apply_ofDocument_of_not_mem hnames hmem] at h

/-! ### Fields that are no objects -/

/-- The patch writes a field or removes it, and has to do with nothing below it. -/
structure Settles (name : String) (w : Option Value) (p : Patch) : Prop where
  written : ∀ entry ∈ p.written, Apart (Path.segments entry.1) [name] ∨ entry.1 = name ∧ w = some entry.2
  removed : ∀ path ∈ p.removed, Apart (Path.segments path) [name] ∨ path = name ∧ w = none
  reached : Fields.get? name p.written = w ∧ (w = none → name ∈ p.removed)

theorem Avoids.settles_addField (h : p.Avoids [name]) (hname : Path.IsName name)
    (hv : v.asObject? = none) : (Patch.addField name v p).Settles name (v.overlay none) := by
  have hwritten : ∀ entry ∈ p.written, Apart (Path.segments entry.1) [name] :=
    fun entry hentry => h.written entry.1 (List.mem_map_of_mem hentry)
  have hwrite : ∀ w, (p.write name w).Settles name (some w) := by
    refine fun w => ⟨fun entry hentry => ?_, fun path hpath => .inl (h.removed path hpath),
      Fields.get?_insert_self name w p.written, by simp⟩
    rcases Fields.mem_insert hentry with hmem | rfl
    · exact .inl (hwritten entry hmem)
    · exact .inr ⟨rfl, rfl⟩
  cases v with
  | undefined =>
    refine ⟨fun entry hentry => .inl (hwritten entry hentry), fun path hpath => ?_, ?_, fun _ => ?_⟩
    · rcases mem_removed_remove.1 hpath with rfl | hpath
      · exact .inr ⟨rfl, rfl⟩
      · exact .inl (h.removed path hpath)
    · refine (Fields.get?_eq_none_iff _ _).2 fun hmem => hname.not_apart ?_
      exact h.written name hmem
    · exact mem_removed_remove.2 (.inl rfl)
  | object fields => cases hv
  | _ => exact hwrite _

theorem allowsFields_settles (hname : Path.IsName name) (w : Option Value) :
    AllowsFields (fun path => path ≠ "" ∧ Apart (Path.segments path) [name]) (fun _ => True)
      (Settles name w) where
  join := (allowsFields_avoids [name]).join
  field _ _ _ _ := trivial
  write path v p hpath _ _ hp := by
    refine ⟨fun entry hentry => ?_, hp.removed, ?_, hp.reached.2⟩
    · rcases Fields.mem_insert hentry with hmem | rfl
      · exact hp.written entry hmem
      · exact .inl hpath.2
    · have hne : name ≠ path := by
        rintro rfl
        exact hname.not_apart hpath.2
      exact (Fields.get?_insert_of_ne hne _ _).trans hp.reached.1
  remove path p hpath hp := by
    refine ⟨hp.written, fun other hother => ?_, hp.reached.1, fun hnone => ?_⟩
    · rcases mem_removed_remove.1 hother with rfl | hother
      · exact .inl hpath.2
      · exact hp.removed other hother
    · exact mem_removed_remove.2 (.inr (hp.reached.2 hnone))

theorem Settles.addFields (h : p.Settles name w) (hname : Path.IsName name) {fields : Object}
    (hfields : ∀ key ∈ Fields.keys fields, Path.IsName key ∧ key ≠ name) :
    (Patch.addFields "" fields p).Settles name w := by
  induction fields generalizing p with
  | nil => exact h
  | cons entry rest ih =>
    obtain ⟨key, v⟩ := entry
    obtain ⟨⟨hkey, hne⟩, hrest⟩ := List.forall_mem_cons.1 hfields
    rw [Patch.addFields, Path.join_empty]
    exact ih ((allowsFields_settles hname w).addField ⟨hkey.1, Path.IsName.apart hkey hne⟩ trivial h) hrest

theorem Avoids.settles_addFields (h : p.Avoids [name]) {fields : Object}
    (hdistinct : Fields.Distinct fields) (hnames : ∀ key ∈ Fields.keys fields, Path.IsName key)
    (hv : Fields.get? name fields = some v) (hleaf : v.asObject? = none) :
    (Patch.addFields "" fields p).Settles name (v.overlay none) := by
  induction fields generalizing p with
  | nil => cases hv
  | cons entry rest ih =>
    obtain ⟨key, t⟩ := entry
    obtain ⟨hnew, hdistinctRest⟩ := Fields.distinct_cons.1 hdistinct
    obtain ⟨hkey, hrest⟩ := List.forall_mem_cons.1 hnames
    rw [Patch.addFields, Path.join_empty]
    by_cases hsame : key = name
    · subst hsame
      simp only [Fields.get?, if_true, Option.some.injEq] at hv
      subst hv
      refine (h.settles_addField hkey hleaf).addFields hkey fun other hother => ⟨hrest other hother, ?_⟩
      rintro rfl
      exact hnew hother
    · simp only [Fields.get?, hsame, if_false] at hv
      exact ih (h.addField hkey.1 (Path.IsName.apart hkey hsame) t) hdistinctRest hrest hv

/-- Steps that each leave a field alone or settle it settle it if one of them does. -/
theorem foldl_settles {α : Type} {f : Document → α → Document} {items : List α}
    (hstep : ∀ a ∈ items, ∀ document, Fields.Distinct document → Fields.Distinct (f document a) ∧
      (Fields.get? name (f document a) = Fields.get? name document ∨
        Fields.get? name (f document a) = w)) (hdocument : Fields.Distinct document) :
    Fields.Distinct (items.foldl f document) ∧
      ((Fields.get? name document = w ∨ ∃ a ∈ items, ∀ document, Fields.Distinct document →
        Fields.get? name (f document a) = w) → Fields.get? name (items.foldl f document) = w) := by
  induction items generalizing document with
  | nil =>
    refine ⟨hdocument, ?_⟩
    rintro (hread | ⟨a, ha, -⟩)
    · exact hread
    · cases ha
  | cons a rest ih =>
    obtain ⟨ha, hrest⟩ := List.forall_mem_cons.1 hstep
    obtain ⟨hdistinct, hread⟩ := ha document hdocument
    obtain ⟨hfinal, hsettled⟩ := ih hrest hdistinct
    refine ⟨hfinal, ?_⟩
    rintro (hbefore | ⟨b, hb, hsettles⟩)
    · exact hsettled (.inl (hread.elim (·.trans hbefore) id))
    · rcases List.mem_cons.1 hb with rfl | hb
      · exact hsettled (.inl (hsettles document hdocument))
      · exact hsettled (.inr ⟨b, hb, hsettles⟩)

/-- What the patch says of the field is there in the end. -/
theorem Settles.get?_apply (h : p.Settles name w) (hname : Path.IsName name) {stored : Document}
    (hstored : Fields.Distinct stored) : Fields.get? name (p.apply stored) = w := by
  have hwrite : ∀ entry ∈ p.written, ∀ document, Fields.Distinct document →
      Fields.Distinct (Path.set document entry.1 entry.2) ∧
        (Fields.get? name (Path.set document entry.1 entry.2) = Fields.get? name document ∨
          Fields.get? name (Path.set document entry.1 entry.2) = w) := by
    intro entry hentry document hdocument
    refine ⟨Path.distinct_set hdocument entry.1 entry.2, ?_⟩
    rcases h.written entry hentry with hapart | ⟨heq, hvalue⟩
    · exact .inl (Path.get?_set_of_apart hapart entry.2)
    · rw [heq, hvalue]
      exact .inr (Path.get?_set_self hname entry.2)
  have hremove : ∀ path ∈ p.removed, ∀ document, Fields.Distinct document →
      Fields.Distinct (Path.remove document path) ∧
        (Fields.get? name (Path.remove document path) = Fields.get? name document ∨
          Fields.get? name (Path.remove document path) = w) := by
    intro path hpath document hdocument
    refine ⟨Path.distinct_remove hdocument path, ?_⟩
    rcases h.removed path hpath with hapart | ⟨rfl, hnone⟩
    · exact .inl (Path.get?_remove_of_apart hapart)
    · rw [hnone]
      exact .inr (Path.get?_remove_self hname hdocument)
  obtain ⟨hdistinct, hwritten⟩ := foldl_settles hwrite hstored
  obtain ⟨-, hremoved⟩ := foldl_settles hremove hdistinct
  cases w with
  | none => exact hremoved (.inr ⟨name, h.reached.2 rfl, fun _ => Path.get?_remove_self hname⟩)
  | some t =>
    refine hremoved (.inl (hwritten (.inr ⟨(name, t), Fields.mem_of_get? h.reached.1, ?_⟩)))
    exact fun document _ => Path.get?_set_self hname t

/-- A field of the record that is no object is written as it is, and removed if it is undefined. -/
theorem get?_apply_ofDocument (hdistinct : Fields.Distinct document)
    (hnames : ∀ key ∈ Fields.keys document, Path.IsName key)
    (hv : Fields.get? name document = some v) (hleaf : v.asObject? = none) {stored : Document}
    (hstored : Fields.Distinct stored) :
    Fields.get? name ((ofDocument document).apply stored) = v.overlay none := by
  have hname := hnames name (Fields.mem_keys_iff.2 ⟨v, hv⟩)
  have hempty : Avoids {} [name] := ⟨by simp [Fields.keys], by simp⟩
  exact (hempty.settles_addFields hdistinct hnames hv hleaf).get?_apply hname hstored

end Patch

end TypedRecords
