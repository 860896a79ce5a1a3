import TypedRecords.Proofs.Document.Gapless
import TypedRecords.Proofs.Record.Stored

/-! # Legible documents

What is stored of a record can be read again, as long as no array in it has a gap.
-/

namespace TypedRecords

open TypedRecords.Tree (outline Readable)

/-- A document that can be read as one of a class. Unless values are `checked`, an attribute may
refuse what is stored for it. -/
structure Document.Legible (d : Directory) (registry : RegistryRef) (checked : Prop) (c : ClassRef)
    (document : Document) : Prop where
  tag : Fields.get? Tree.classTag document = some (.string c.name)
  distinct : Fields.Distinct document
  accepts : ∀ entry ∈ document, entry.1 ≠ Tree.classTag →
    Tree.Accepts d registry checked c entry.1 entry.2
  readable : ∀ entry ∈ document, entry.1 ≠ Tree.classTag → Readable d registry checked entry.2

theorem Document.Legible.imp {d : Directory} {registry : RegistryRef} {checked checked' : Prop}
    (himp : checked' → checked) {c : ClassRef} {document : Document}
    (h : Legible d registry checked c document) : Legible d registry checked' c document where
  tag := h.tag
  distinct := h.distinct
  accepts entry hentry hne := (h.accepts entry hentry hne).imp himp
  readable entry hentry hne := (h.readable entry hentry hne).imp himp

/-- Attributes are named properly, and not like a tag. -/
def Directory.WellNamed (d : Directory) : Prop :=
  ∀ c, ∀ a ∈ d.attributes c, Path.IsName a.name ∧ a.name ≠ Tree.classTag ∧ a.name ≠ Tree.newTag

theorem Directory.WellNamed.ne_classTag {d : Directory} (h : d.WellNamed) (c : ClassRef) :
    ∀ a ∈ d.attributes c, a.name ≠ Tree.classTag :=
  fun a ha => (h c a ha).2.1

theorem Directory.Lawful.wellNamed_of_attribute? {d : Directory} (hd : d.Lawful)
    (hnamed : d.WellNamed) {c : ClassRef} {name : String} {a : Attribute}
    (ha : (d.definition c).attribute? name = some a) :
    Path.IsName name ∧ name ≠ Tree.classTag ∧ name ≠ Tree.newTag := by
  have hmem := hnamed c a (Definition.mem_of_attribute? ha)
  rwa [(hd.definition c).name_of_attribute? ha] at hmem

theorem Value.strip_of_isLeaf {v : Value} (h : v.isLeaf = true) : v.strip = v := by
  cases v <;> first | rfl | cases h

theorem Value.isLeaf_ne_undefined {v : Value} (h : v.isLeaf = true) : v ≠ .undefined := by
  rintro rfl
  cases h

namespace Encodes

variable {d : Directory} {registry : RegistryRef} {full checked : Prop} {g : Graph} {v t : Value}

/-- Only what is undefined is stored as undefined. -/
theorem ne_undefined (h : Encodes full d registry g v t) (hv : v ≠ .undefined) :
    t ≠ .undefined := by
  cases h with
  | leaf hleaf => exact Value.isLeaf_ne_undefined hleaf
  | undefined => exact absurd rfl hv
  | _ => simp [Tree.ofClass]

theorem strip_reference {c : String} {name : String} {v : Value} (h : v.IsKey) :
    (Value.object [(Tree.classTag, .string c), (name, v)]).strip =
      .object [(Tree.classTag, .string c), (name, v)] := by
  rcases h with ⟨s, rfl⟩ | ⟨x, rfl⟩ <;> rfl

/-- Checking sees of the stored form of a value what it sees of the value. -/
theorem outline_strip (hd : d.Lawful) (h : Encodes full d registry g v t) (ht : t.Gapless) :
    outline d registry t.strip = v.sketch := by
  induction h with
  | leaf hleaf => rw [Value.strip_of_isLeaf hleaf, Record.outline_leaf hleaf]
  | undefined => rfl
  | @array items trees hlength _ ih =>
    rw [Value.strip, outline, Value.sketch, Tree.outlineItems_eq_map, Value.stripItems_eq_map,
      Value.sketchItems_eq_map, List.map_map]
    congr 1
    refine List.ext_getElem (by simp [hlength]) ?_
    intro i hi hi'
    rw [List.getElem_map, List.getElem_map]
    rw [List.length_map] at hi hi'
    have htree := ht.item (List.getElem?_eq_getElem hi)
    have hdefined : (trees[i]).isUndefined = false := by
      rw [← Bool.not_eq_true, Value.isUndefined_iff]
      exact htree.1
    rw [Function.comp_apply, Value.strip_of_isUndefined hdefined]
    exact ih i _ _ (List.getElem?_eq_getElem hi') (List.getElem?_eq_getElem hi) htree.2
  | @object fields trees huntagged _ hnames _ _ =>
    have hnone := Fields.get?_eq_none_of_keys_eq hnames huntagged
    rw [Value.strip, outline, Value.get?_stripFields_eq_none hnone]
    rfl
  | classRef hfound => exact Record.outline_classRef rfl hfound
  | reference hfound _ _ hkey _ _ =>
    rw [strip_reference hkey, Record.outline_record rfl (hd.classNamed? hfound) hfound]
    rfl
  | embedded _ hfound _ htag hdistinct _ _ _ _ =>
    have hstripped := (Value.get?_stripFields_eq_some_iff hdistinct).2
      ⟨_, htag, by simp, rfl⟩
    rw [Value.strip, Record.outline_record hstripped (hd.classNamed? hfound) hfound]
    rfl

theorem accepts (hd : d.Lawful) {c : ClassRef} {name : String} (hnew : name ≠ Tree.newTag)
    {a : Attribute} (ha : (d.definition c).attribute? name = some a)
    (hcheck : v = .undefined ∨ a.type.check (d.site c name) v = .ok ()) (hv : v ≠ .undefined)
    (h : Encodes full d registry g v t) (ht : checked → t.Gapless) :
    Tree.Accepts d registry checked c name t.strip := by
  refine ⟨hnew, a, ha, ?_⟩
  intro hchecked
  rw [h.outline_strip hd (ht hchecked), ValueType.check_sketch]
  exact hcheck.resolve_left hv

theorem defined_of_defined (h : Encodes full d registry g v t) (ht : t ≠ .undefined) :
    v ≠ .undefined := by
  rintro rfl
  cases h with
  | leaf hleaf => cases hleaf
  | undefined => exact ht rfl

theorem readable (hd : d.Lawful) (hnamed : d.WellNamed)
    (h : Encodes full d registry g v t) (ht : checked → t.Gapless) (hdefined : t ≠ .undefined) :
    Readable d registry checked t.strip := by
  induction h with
  | leaf hleaf =>
    rw [Value.strip_of_isLeaf hleaf]
    exact .leaf hleaf
  | undefined => exact absurd rfl hdefined
  | @array items trees hlength _ ih =>
    refine .array ?_
    intro t' ht'
    rw [Value.stripItems_eq_map] at ht'
    obtain ⟨t, hmem, rfl⟩ := List.mem_map.1 ht'
    by_cases hundefined : t.isUndefined = true
    · rw [if_pos hundefined]
      exact .leaf rfl
    · rw [if_neg hundefined]
      obtain ⟨i, hi, rfl⟩ := List.getElem_of_mem hmem
      have hi' : i < items.length := by omega
      refine ih i items[i] _ (List.getElem?_eq_getElem hi') (List.getElem?_eq_getElem hi) ?_ ?_
      · exact fun hchecked => ((ht hchecked).item (List.getElem?_eq_getElem hi)).2
      · exact fun heq => hundefined ((Value.isUndefined_iff _).2 heq)
  | @object fields trees huntagged hdistinct hnames _ ih =>
    have hnone := Fields.get?_eq_none_of_keys_eq hnames huntagged
    have hdistinctTrees := hdistinct.of_keys_eq hnames
    refine .object (Value.get?_stripFields_eq_none hnone)
      (Value.distinct_stripFields hdistinctTrees) ?_
    rintro ⟨name, t'⟩ hentry
    obtain ⟨t, hmem, hne, rfl⟩ := Value.mem_stripFields.1 hentry
    have hread := Fields.get?_of_mem hdistinctTrees hmem
    obtain ⟨v, hv⟩ := Fields.exists_get?_of_keys_eq hnames.symm hread
    exact ih name v t hv hread (fun hchecked => (ht hchecked).field hread) hne
  | classRef hfound => exact .classRef hfound
  | @reference r name v hfound hreferenceable hidentifier hkey _ haccepted =>
    obtain ⟨a, ha, hcheck⟩ := haccepted
    obtain ⟨-, hclass, hnewTag⟩ := hd.wellNamed_of_attribute? hnamed ha
    rw [strip_reference hkey]
    refine .record rfl hfound ?_ ?_ ?_ ?_
    · simpa [Fields.Distinct, Fields.keys] using Ne.symm hclass
    · rintro entry hentry hne
      rcases List.mem_pair.1 hentry with rfl | rfl
      · exact absurd rfl hne
      · refine ⟨hnewTag, a, ha, fun _ => ?_⟩
        rw [Record.outline_leaf (Value.isLeaf_of_isKey hkey), ValueType.check_sketch]
        exact hcheck
    · rintro - entry hentry hne
      rcases List.mem_pair.1 hentry with rfl | rfl
      · exact absurd rfl hne
      · exact hkey
    · rintro entry hentry hne
      rcases List.mem_pair.1 hentry with rfl | rfl
      · exact absurd rfl hne
      · exact .leaf (Value.isLeaf_of_isKey hkey)
  | @embedded r trees value hfound hembedded htag hdistinct haccepted hencodes _ ih =>
    have hstripped := (Value.get?_stripFields_eq_some_iff hdistinct).2
      ⟨_, htag, by simp, rfl⟩
    refine .record hstripped hfound (Value.distinct_stripFields hdistinct) ?_ ?_ ?_
    · rintro ⟨name, t'⟩ hentry hne
      obtain ⟨t, hmem, hdefined, rfl⟩ := Value.mem_stripFields.1 hentry
      have hread := Fields.get?_of_mem hdistinct hmem
      obtain ⟨-, a, ha, hcheck⟩ := haccepted name t hread hne
      obtain ⟨-, -, hnewTag⟩ := hd.wellNamed_of_attribute? hnamed ha
      have hencoded := hencodes name t hread hne
      exact hencoded.accepts hd hnewTag ha hcheck (hencoded.defined_of_defined hdefined)
        fun hchecked => (ht hchecked).field hread
    · intro hreferenceable
      rw [hembedded] at hreferenceable
      cases hreferenceable
    · rintro ⟨name, t'⟩ hentry hne
      obtain ⟨t, hmem, hdefined, rfl⟩ := Value.mem_stripFields.1 hentry
      have hread := Fields.get?_of_mem hdistinct hmem
      exact ih name t hread hne (fun hchecked => (ht hchecked).field hread) hdefined

end Encodes

theorem Tree.Readable.ne_undefined {d : Directory} {registry : RegistryRef} {checked : Prop}
    {t : Value} (h : Readable d registry checked t) : t ≠ .undefined := by
  cases h with
  | leaf hleaf => exact Value.isLeaf_ne_undefined hleaf
  | _ => simp

theorem Document.Legible.of_same {d : Directory} {registry : RegistryRef} {checked : Prop}
    {c : ClassRef} {document picked : Document} (h : Document.Legible d registry checked c document)
    (hdistinct : Fields.Distinct picked)
    (hsame : ∀ name, Fields.get? name picked = Fields.get? name document) :
    Document.Legible d registry checked c picked := by
  have hmem : ∀ entry ∈ picked, entry ∈ document := by
    intro entry hentry
    have hread := Fields.get?_of_mem hdistinct hentry
    rw [hsame] at hread
    exact Fields.mem_of_get? hread
  exact ⟨by rw [hsame]; exact h.tag, hdistinct, fun entry hentry => h.accepts entry (hmem entry hentry),
    fun entry hentry => h.readable entry (hmem entry hentry)⟩

/-- The document that is created for a record can be read. -/
theorem EncodesFields.legible {d : Directory} {registry : RegistryRef} {full checked : Prop}
    {g : Graph} {r : RecordRef} {trees : Object} (hd : d.Lawful) (hnamed : d.WellNamed)
    (h : EncodesFields full d registry g r trees) (ht : checked → (Value.object trees).Gapless) :
    Document.Legible d registry checked r.cls (Value.stripFields trees) := by
  have hfield : ∀ entry ∈ Value.stripFields trees, entry.1 ≠ Tree.classTag →
      Tree.Accepts d registry checked r.cls entry.1 entry.2 ∧
        Readable d registry checked entry.2 := by
    rintro ⟨name, t'⟩ hentry hne
    obtain ⟨t, hmem, hdefined, rfl⟩ := Value.mem_stripFields.1 hentry
    have hread := Fields.get?_of_mem h.distinct hmem
    obtain ⟨a, v, ha, -, hcheck, hencodes⟩ := h.field name t hread hne
    obtain ⟨-, -, hnewTag⟩ := hd.wellNamed_of_attribute? hnamed ha
    have hgapless : checked → t.Gapless := fun hchecked => (ht hchecked).field hread
    exact ⟨hencodes.accepts hd hnewTag ha hcheck (hencodes.defined_of_defined hdefined) hgapless,
      hencodes.readable hd hnamed hgapless hdefined⟩
  exact ⟨(Value.get?_stripFields_eq_some_iff h.distinct).2 ⟨_, h.tag, by simp, rfl⟩,
    Value.distinct_stripFields h.distinct, fun entry hentry hne => (hfield entry hentry hne).1,
    fun entry hentry hne => (hfield entry hentry hne).2⟩

end TypedRecords
