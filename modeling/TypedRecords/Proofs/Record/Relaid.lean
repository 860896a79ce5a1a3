import TypedRecords.Proofs.Document.Remnants
import TypedRecords.Proofs.Record.Gapped

/-! # Documents that were patched

A patch lays tagged objects over what is stored. The document can be read afterwards if it could be
read before, as long as the fields that stay belong to the same class.
-/

namespace TypedRecords

open TypedRecords.Tree (outline Readable Accepts)

/-! ### Objects that fit -/

namespace Value

mutual

/-- Whether the fields of the stored object in the place of a tagged object may stay: they are of the
same class, or none does. -/
def Fits : Value → (stored : Option Value) → Prop
  | .object fields, stored =>
    Tree.isTagged fields = true →
      (Fields.get? Tree.classTag (fieldsOf stored) = Fields.get? Tree.classTag fields ∨
        ∀ name ∈ Fields.keys (fieldsOf stored), name ∈ Fields.keys fields) ∧
          FieldsFit fields (fieldsOf stored)
  | _, _ => True

def FieldsFit : List (String × Value) → (stored : Object) → Prop
  | [], _ => True
  | (name, v) :: rest, stored => Fits v (Fields.get? name stored) ∧ FieldsFit rest stored

end

theorem fieldsFit_iff {fields stored : Object} :
    FieldsFit fields stored ↔ ∀ entry ∈ fields, entry.2.Fits (Fields.get? entry.1 stored) := by
  induction fields with
  | nil => simp [FieldsFit]
  | cons entry rest ih => simp [FieldsFit, ih]

theorem mem_overlayFields {fields document : Object} (hfields : Fields.Distinct fields)
    (hdocument : Fields.Distinct document) {name : String} {u : Value}
    (h : (name, u) ∈ overlayFields fields document) :
    (∃ v, Fields.get? name fields = some v ∧ v.overlay (Fields.get? name document) = some u) ∨
      name ∉ Fields.keys fields ∧ Fields.get? name document = some u := by
  have hread := Fields.get?_of_mem (distinct_overlayFields hdocument) h
  by_cases hname : name ∈ Fields.keys fields
  · obtain ⟨v, hv⟩ := Fields.mem_keys_iff.1 hname
    rw [get?_overlayFields_of_mem hfields hdocument (Fields.mem_of_get? hv)] at hread
    exact .inl ⟨v, hv, hread⟩
  · rw [get?_overlayFields_of_not_mem hname] at hread
    exact .inr ⟨hname, hread⟩

end Value

/-! ### What can be read -/

variable {d : Directory} {registry : RegistryRef} {full checked : Prop} {g : Graph} {v t u : Value}

/-- Whether an attribute accepts a tree depends on what checking sees of it. -/
theorem Tree.Accepts.of_outline {c : ClassRef} {name : String}
    (h : Accepts d registry checked c name t)
    (hsame : outline d registry u = outline d registry t) :
    Accepts d registry checked c name u := by
  obtain ⟨hnew, a, ha, hcheck⟩ := h
  exact ⟨hnew, a, ha, fun hchecked => hsame ▸ hcheck hchecked⟩

theorem Tree.Readable.fields {stored : Option Value}
    (h : ∀ w ∈ stored, Readable d registry checked w) :
    Fields.Distinct (Value.fieldsOf stored) ∧ ∀ name w, name ≠ Tree.classTag →
      Fields.get? name (Value.fieldsOf stored) = some w → Readable d registry checked w := by
  have hnone : Fields.Distinct ([] : Object) ∧ ∀ name w, name ≠ Tree.classTag →
      Fields.get? name ([] : Object) = some w → Readable d registry checked w :=
    ⟨List.nodup_nil, fun _ _ _ hw => by cases hw⟩
  cases stored with
  | none => exact hnone
  | some w =>
    cases h w rfl with
    | leaf hleaf => cases w <;> first | exact hnone | cases hleaf
    | array _ => exact hnone
    | object _ hdistinct hfields =>
      exact ⟨hdistinct, fun name w _ hw => hfields _ (Fields.mem_of_get? hw)⟩
    | classRef _ =>
      refine ⟨List.nodup_singleton _, fun name w hne hw => ?_⟩
      have hmem := List.mem_singleton.1 (Fields.mem_of_get? hw)
      exact absurd (congrArg Prod.fst hmem) hne
    | record _ _ hdistinct _ _ hfields =>
      exact ⟨hdistinct, fun name w hne hw => hfields _ (Fields.mem_of_get? hw) hne⟩

theorem Tree.Readable.attributes {stored : Option Value}
    (h : ∀ w ∈ stored, Readable d registry checked w) {c : ClassRef}
    (hfound : d.find? registry c.name = some c)
    (htag : Fields.get? Tree.classTag (Value.fieldsOf stored) = some (.string c.name)) {name : String}
    (hne : name ≠ Tree.classTag) (hu : Fields.get? name (Value.fieldsOf stored) = some u) :
    Accepts d registry checked c name u ∧ ((d.definition c).referenceable = true → u.IsKey) := by
  cases stored with
  | none => cases hu
  | some w =>
    cases h w rfl with
    | leaf hleaf => cases w <;> first | cases hu | cases hleaf
    | array _ => cases hu
    | object huntagged _ _ =>
      have hnone : Fields.get? Tree.classTag (Value.fieldsOf (some (.object _))) = none := huntagged
      rw [htag] at hnone
      cases hnone
    | classRef _ =>
      have hmem := List.mem_singleton.1 (Fields.mem_of_get? hu)
      exact absurd (congrArg Prod.fst hmem) hne
    | @record fields c' htag' hfound' _ haccepts hkeys _ =>
      have hstored : Fields.get? Tree.classTag fields = some (.string c.name) := htag
      rw [htag'] at hstored
      have hname : c'.name = c.name := by simpa using hstored
      rw [hname, hfound] at hfound'
      obtain rfl := Option.some.inj hfound'
      have hmem := Fields.mem_of_get? hu
      exact ⟨haccepts _ hmem hne, fun hreferenceable => hkeys hreferenceable _ hmem hne⟩

theorem get?_classTag_overlayFields {fields document : Object} (hfields : Fields.Distinct fields)
    (hdocument : Fields.Distinct document) {name : String}
    (h : Fields.get? Tree.classTag fields = some (.string name)) :
    Fields.get? Tree.classTag (Value.overlayFields fields document) = some (.string name) :=
  Value.get?_overlayFields_of_mem hfields hdocument (Fields.mem_of_get? h)

/-- The tagged object of a record, laid over a stored object that it fits. -/
theorem overlayFields_readable {c : ClassRef} {trees : Object} {stored : Option Value}
    (hfound : d.find? registry c.name = some c)
    (htag : Fields.get? Tree.classTag trees = some (.string c.name))
    (hdistinct : Fields.Distinct trees) (hstored : ∀ w ∈ stored, Readable d registry checked w)
    (hfits : (Value.object trees).Fits stored)
    (hlaid : ∀ name t u, Fields.get? name trees = some t → name ≠ Tree.classTag →
      t.Fits (Fields.get? name (Value.fieldsOf stored)) →
      t.overlay (Fields.get? name (Value.fieldsOf stored)) = some u →
        Accepts d registry checked c name u ∧ Readable d registry checked u ∧
          ((d.definition c).referenceable = true → u.IsKey)) :
    Readable d registry checked (.object (Value.overlayFields trees (Value.fieldsOf stored))) := by
  obtain ⟨hplain, hreadable⟩ := Tree.Readable.fields hstored
  have hclass : Tree.isTagged trees = true :=
    Fields.contains_iff.2 (Fields.mem_keys_iff.2 ⟨_, htag⟩)
  obtain ⟨hsame, hinner⟩ := hfits hclass
  have hentries : ∀ entry ∈ Value.overlayFields trees (Value.fieldsOf stored),
      entry.1 ≠ Tree.classTag → Accepts d registry checked c entry.1 entry.2 ∧
        Readable d registry checked entry.2 ∧
          ((d.definition c).referenceable = true → entry.2.IsKey) := by
    rintro ⟨name, u⟩ hentry hne
    rcases Value.mem_overlayFields hdistinct hplain hentry with ⟨t, ht, hu⟩ | ⟨hother, hu⟩
    · exact hlaid name t u ht hne (Value.fieldsFit_iff.1 hinner _ (Fields.mem_of_get? ht)) hu
    · rcases hsame with hsame | hcovers
      · obtain ⟨haccepts, hkeys⟩ := Tree.Readable.attributes hstored hfound (hsame.trans htag) hne hu
        exact ⟨haccepts, hreadable name u hne hu, hkeys⟩
      · exact absurd (hcovers name (Fields.mem_keys_iff.2 ⟨u, hu⟩)) hother
  exact .record (get?_classTag_overlayFields hdistinct hplain htag) hfound
    (Value.distinct_overlayFields hplain) (fun entry hentry hne => (hentries entry hentry hne).1)
    (fun hreferenceable entry hentry hne => (hentries entry hentry hne).2.2 hreferenceable)
    (fun entry hentry hne => (hentries entry hentry hne).2.1)

theorem overlay_ofClass (hd : d.Lawful) {c : ClassRef} {stored : Option Value}
    (hstored : ∀ w ∈ stored, Readable d registry checked w) (hfits : (Tree.ofClass c).Fits stored) :
    (Tree.ofClass c).overlay stored = some (Tree.ofClass c) := by
  obtain ⟨hplain, -⟩ := Tree.Readable.fields hstored
  obtain ⟨hsame, -⟩ := hfits rfl
  have halone : ∀ name ∈ Fields.keys (Value.fieldsOf stored), name = Tree.classTag := by
    rcases hsame with hsame | hcovers
    · cases stored with
      | none => cases hsame
      | some w =>
        cases hstored w rfl with
        | leaf hleaf => cases w <;> first | cases hsame | cases hleaf
        | array _ => cases hsame
        | object huntagged _ _ =>
          have hnone : Fields.get? Tree.classTag (Value.fieldsOf (some (.object _))) = none := huntagged
          rw [hsame] at hnone
          cases hnone
        | classRef _ => exact fun name hname => List.mem_singleton.1 hname
        | @record fields c' htag hfound _ _ _ _ =>
          -- The name of a class is not one of the phrases that mean classes.
          have hphrase : Fields.get? Tree.classTag fields =
            some (.string (Tree.classPhrase ++ c.name)) := hsame
          rw [htag] at hphrase
          have hname : c'.name = Tree.classPhrase ++ c.name := by simpa using hphrase
          have hnone := hd.classNamed? hfound
          rw [hname, Tree.classNamed?_classPhrase] at hnone
          cases hnone
    · exact fun name hname => List.mem_singleton.1 (hcovers name hname)
  have hover : Value.overlay (Tree.ofClass c) stored = some (.object (Fields.insert Tree.classTag
    (.string (Tree.classPhrase ++ c.name)) (Value.fieldsOf stored))) := rfl
  rw [hover]
  cases hfields : Value.fieldsOf stored with
  | nil => rfl
  | cons entry rest =>
    rw [hfields] at hplain halone
    obtain ⟨name, w⟩ := entry
    obtain ⟨hname, hrest⟩ := List.forall_mem_cons.1 halone
    have hname : name = Tree.classTag := hname
    obtain ⟨hnew, -⟩ := Fields.distinct_cons.1 hplain
    cases rest with
    | nil => simp [Fields.insert, hname, Tree.ofClass]
    | cons entry rest =>
      refine absurd ?_ hnew
      rw [hname, ← hrest entry.1 List.mem_cons_self]
      exact List.mem_cons_self

namespace Encodes

theorem replaced_readable (hd : d.Lawful) (hnamed : d.WellNamed) {stored : Option Value}
    (h : Encodes full d registry g v t) (ht : checked → t.Gapless) (hu : t.overlay stored = some u)
    (hover : t.overlay stored = some t.strip) :
    Readable d registry checked u ∧ outline d registry u = outline d registry t.strip := by
  have hdefined : t ≠ .undefined := by
    rintro rfl
    cases hu
  rw [hu] at hover
  rw [Option.some.inj hover]
  exact ⟨h.readable hd hnamed ht hdefined, rfl⟩

/-- What is laid over a stored value that it fits can be read, and checking sees of it what it sees of
the value where none was stored. -/
theorem overlay_readable (hd : d.Lawful) (hnamed : d.WellNamed)
    (h : Encodes full d registry g v t) (ht : checked → t.Gapless) {stored : Option Value}
    (hstored : ∀ w ∈ stored, Readable d registry checked w) (hfits : t.Fits stored)
    (hu : t.overlay stored = some u) :
    Readable d registry checked u ∧ outline d registry u = outline d registry t.strip := by
  induction h generalizing stored u with
  -- All but tagged objects take the place of what was stored there.
  | @leaf v hleaf =>
    have hencodes : Encodes full d registry g v v := .leaf hleaf
    refine hencodes.replaced_readable hd hnamed ht hu ?_
    cases v <;> first | rfl | cases hleaf
  | undefined => cases hu
  | array hlength hitems _ => exact replaced_readable hd hnamed (.array hlength hitems) ht hu rfl
  | @object fields trees huntagged hdistinct hnames hfields _ =>
    have hplain : Tree.isTagged trees = false := by
      rw [← Bool.not_eq_true, Tree.isTagged, Fields.contains_iff, ← hnames]
      exact (Fields.get?_eq_none_iff _ _).1 huntagged
    refine replaced_readable hd hnamed (.object huntagged hdistinct hnames hfields) ht hu ?_
    simp [Value.overlay, hplain, Value.strip]
  | @classRef c hfound =>
    have hencodes : Encodes full d registry g (.classRef c) (Tree.ofClass c) := .classRef hfound
    exact hencodes.replaced_readable hd hnamed ht hu (overlay_ofClass hd hstored hfits)
  | @reference r name v hfound hreferenceable hidentifier hkey hequal haccepted =>
    obtain ⟨a, ha, hcheck⟩ := haccepted
    obtain ⟨-, hclass, hnewTag⟩ := hd.wellNamed_of_attribute? hnamed ha
    have hdistinct : Fields.Distinct [(Tree.classTag, Value.string r.className), (name, v)] := by
      simpa [Fields.Distinct, Fields.keys] using Ne.symm hclass
    obtain ⟨hplain, -⟩ := Tree.Readable.fields hstored
    obtain rfl := Option.some.inj hu
    have hrecord := hd.classNamed? hfound
    refine ⟨overlayFields_readable hfound rfl hdistinct hstored hfits ?_, ?_⟩
    · intro name' t u ht' hne _ hu'
      -- There is but one field.
      have hmem := Fields.mem_of_get? ht'
      rcases List.mem_pair.1 hmem with heq | heq
      · exact absurd (congrArg Prod.fst heq) hne
      · obtain ⟨rfl, rfl⟩ := Prod.mk.inj heq
        have hkept : u = t := by
          rcases hkey with ⟨s, rfl⟩ | ⟨x, rfl⟩ <;> exact (Option.some.inj hu').symm
        rw [hkept]
        refine ⟨⟨hnewTag, a, ha, fun _ => ?_⟩, .leaf (Value.isLeaf_of_isKey hkey), fun _ => hkey⟩
        rw [Record.outline_leaf (Value.isLeaf_of_isKey hkey), ValueType.check_sketch]
        exact hcheck
    · rw [Record.outline_record (get?_classTag_overlayFields hdistinct hplain rfl) hrecord hfound,
        strip_reference hkey]
      exact (Record.outline_record rfl hrecord hfound).symm
  | @embedded r trees value hfound hembedded htag hdistinct haccepted hencodes hcomplete ih =>
    have hclass : Tree.isTagged trees = true :=
      Fields.contains_iff.2 (Fields.mem_keys_iff.2 ⟨_, htag⟩)
    obtain ⟨hplain, hreadable⟩ := Tree.Readable.fields hstored
    have hover : u = .object (Value.overlayFields trees (Value.fieldsOf stored)) := by
      rw [Value.overlay, if_pos hclass] at hu
      exact (Option.some.inj hu).symm
    rw [hover]
    have hname := hd.classNamed? hfound
    refine ⟨?_, ?_⟩
    · refine overlayFields_readable hfound htag hdistinct hstored hfits ?_
      intro name t u ht' hne hfits' hu'
      obtain ⟨-, a, ha, hcheck⟩ := haccepted name t ht' hne
      have hgapless : checked → t.Gapless := fun hchecked => (ht hchecked).field ht'
      have hfield : ∀ w ∈ Fields.get? name (Value.fieldsOf stored),
          Readable d registry checked w := fun w hw => hreadable name w hne hw
      obtain ⟨hu, hsame⟩ := ih name t ht' hne hgapless hfield hfits' hu'
      have hdefined : t ≠ .undefined := by
        rintro rfl
        cases hu'
      have hencoded := hencodes name t ht' hne
      refine ⟨?_, hu, fun hreferenceable => ?_⟩
      · exact (hencoded.accepts hd (hd.wellNamed_of_attribute? hnamed ha).2.2 ha hcheck
          (hencoded.defined_of_defined hdefined) hgapless).of_outline hsame
      · rw [hembedded] at hreferenceable
        cases hreferenceable
    · have hstripped := (Value.get?_stripFields_eq_some_iff hdistinct).2 ⟨_, htag, by simp, rfl⟩
      rw [Value.strip, Record.outline_record hstripped hname hfound,
        Record.outline_record (get?_classTag_overlayFields hdistinct hplain htag) hname hfound]

theorem patchable (hd : d.Lawful) (hnamed : d.WellNamed) (h : Encodes full d registry g v t) :
    t.Patchable := by
  have hclassTag : Path.IsName Tree.classTag := by decide
  induction h with
  | @leaf v hleaf => cases v <;> trivial
  | undefined => trivial
  | array _ _ => trivial
  | @object fields trees huntagged _ hnames _ _ =>
    intro htagged
    rw [Tree.isTagged, Fields.contains_iff, ← hnames] at htagged
    exact absurd htagged ((Fields.get?_eq_none_iff _ _).1 huntagged)
  | classRef _ =>
    exact fun _ => ⟨List.nodup_singleton _, ⟨_, rfl⟩, hclassTag, trivial, trivial⟩
  | reference _ _ _ hkey _ haccepted =>
    obtain ⟨a, ha, -⟩ := haccepted
    obtain ⟨hname, hclass, -⟩ := hd.wellNamed_of_attribute? hnamed ha
    refine fun _ => ⟨?_, ⟨_, rfl⟩, hclassTag, trivial, hname, ?_, trivial⟩
    · simpa [Fields.Distinct, Fields.keys] using Ne.symm hclass
    · rcases hkey with ⟨s, rfl⟩ | ⟨x, rfl⟩ <;> trivial
  | embedded value _ _ htag hdistinct haccepted _ _ ih =>
    refine fun _ => ⟨hdistinct, ⟨_, htag⟩, Value.fieldsPatchable_iff.2 ?_⟩
    rintro ⟨name, t⟩ hmem
    have hread := Fields.get?_of_mem hdistinct hmem
    by_cases hclass : name = Tree.classTag
    · subst hclass
      rw [htag] at hread
      cases hread
      exact ⟨hclassTag, trivial⟩
    · obtain ⟨-, a, ha, -⟩ := haccepted name t hread hclass
      exact ⟨(hd.wellNamed_of_attribute? hnamed ha).1, ih name t hread hclass⟩

end Encodes

/-- A patch can go through what is stored of a record. -/
theorem EncodesFields.encoded (hd : d.Lawful) (hnamed : d.WellNamed) {r : RecordRef} {trees : Object}
    (h : EncodesFields full d registry g r trees) : Encoded trees where
  distinct := h.distinct
  tagged := ⟨_, h.tag⟩
  patchable := by
    rintro ⟨name, t⟩ hmem
    have hread := Fields.get?_of_mem h.distinct hmem
    by_cases hclass : name = Tree.classTag
    · subst hclass
      rw [h.tag] at hread
      cases hread
      exact ⟨(by decide : Path.IsName Tree.classTag), trivial⟩
    · obtain ⟨a, v, ha, -, -, hencodes⟩ := h.field name t hread hclass
      exact ⟨(hd.wellNamed_of_attribute? hnamed ha).1, hencodes.patchable hd hnamed⟩

/-- A document can still be read after fields of a record of its class were laid over it. -/
theorem EncodesFields.overlay_legible (hd : d.Lawful) (hnamed : d.WellNamed) {r : RecordRef}
    {trees : Object} (h : EncodesFields full d registry g r trees)
    (ht : checked → (Value.object trees).Gapless) {document : Document}
    (hdocument : Document.Legible d registry checked r.cls document)
    (hfits : (Value.object trees).Fits (some (.object document))) :
    Document.Legible d registry checked r.cls (Value.overlayFields trees document) := by
  have hclass : Tree.isTagged trees = true :=
    Fields.contains_iff.2 (Fields.mem_keys_iff.2 ⟨_, h.tag⟩)
  obtain ⟨-, hinner⟩ := hfits hclass
  have hentries : ∀ entry ∈ Value.overlayFields trees document, entry.1 ≠ Tree.classTag →
      Accepts d registry checked r.cls entry.1 entry.2 ∧ Readable d registry checked entry.2 := by
    rintro ⟨name, u⟩ hentry hne
    rcases Value.mem_overlayFields h.distinct hdocument.distinct hentry with
      ⟨t, ht', hu⟩ | ⟨-, hu⟩
    · obtain ⟨a, v, ha, -, hcheck, hencodes⟩ := h.field name t ht' hne
      have hgapless : checked → t.Gapless := fun hchecked => (ht hchecked).field ht'
      have hstored : ∀ w ∈ Fields.get? name document, Readable d registry checked w :=
        fun w hw => hdocument.readable _ (Fields.mem_of_get? hw) hne
      obtain ⟨hreadable, hsame⟩ := hencodes.overlay_readable hd hnamed hgapless hstored
        (Value.fieldsFit_iff.1 hinner _ (Fields.mem_of_get? ht')) hu
      have hdefined : t ≠ .undefined := by
        rintro rfl
        cases hu
      have haccepts : Accepts d registry checked r.cls name t.strip :=
        hencodes.accepts hd (hd.wellNamed_of_attribute? hnamed ha).2.2 ha hcheck
          (hencodes.defined_of_defined hdefined) hgapless
      exact ⟨haccepts.of_outline hsame, hreadable⟩
    · have hmem := Fields.mem_of_get? hu
      exact ⟨hdocument.accepts _ hmem hne, hdocument.readable _ hmem hne⟩
  exact ⟨get?_classTag_overlayFields h.distinct hdocument.distinct h.tag,
    Value.distinct_overlayFields hdocument.distinct,
    fun entry hentry hne => (hentries entry hentry hne).1,
    fun entry hentry hne => (hentries entry hentry hne).2⟩

end TypedRecords
