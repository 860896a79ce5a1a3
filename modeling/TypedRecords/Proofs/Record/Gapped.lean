import TypedRecords.Proofs.Record.Legible

/-! # Gapped values

An undefined item of an array has no stored form of its own. Whether there is one, in a value or in
the records embedded in it, can be told from what is stored.
-/

namespace TypedRecords

/-- An array has an undefined item: the value itself, or one that is inside it at any depth. -/
inductive Gapped (d : Directory) (g : Graph) : Value → Prop
  | gap {items : List Value} (h : .undefined ∈ items) : Gapped d g (.array items)
  | item {items : List Value} {v : Value} (hv : v ∈ items) (h : Gapped d g v) :
    Gapped d g (.array items)
  | field {fields : Object} {name : String} {v : Value} (hv : Fields.get? name fields = some v)
    (h : Gapped d g v) : Gapped d g (.object fields)
  | inner {r : RecordRef} (hr : (d.definition r.cls).referenceable = false) {a : Attribute}
    (ha : a ∈ d.attributes r.cls) {v : Value} (hv : g.seen? r a.name = some v)
    (h : Gapped d g v) : Gapped d g (.record r)

/-- A record of which no attribute has a gap. -/
def Graph.Gapless (d : Directory) (g : Graph) (r : RecordRef) : Prop :=
  ∀ a ∈ d.attributes r.cls, ∀ v, g.seen? r a.name = some v → ¬Gapped d g v

variable {d : Directory} {registry : RegistryRef} {full : Prop} {g : Graph} {r : RecordRef} {v t : Value}

namespace Encodes

theorem gapless (hd : d.Lawful) (h : Encodes full d registry g v t) (hv : ¬Gapped d g v) : t.Gapless := by
  induction h with
  | @leaf v hleaf => cases v <;> trivial
  | undefined => trivial
  | @array items trees hlength hencodes ih =>
    rw [Value.gapless_array]
    intro t hmem
    obtain ⟨i, hi, rfl⟩ := List.getElem_of_mem hmem
    have hi' : i < items.length := by omega
    have hitem : items[i]? = some items[i] := List.getElem?_eq_getElem hi'
    have htree := List.getElem?_eq_getElem hi
    refine ⟨(hencodes i _ _ hitem htree).ne_undefined fun heq => ?_,
      ih i _ _ hitem htree fun hgap => hv (.item (List.getElem_mem hi') hgap)⟩
    exact hv (.gap (heq ▸ List.getElem_mem hi'))
  | @object fields trees _ hdistinct hnames _ ih =>
    refine Value.gapless_of_fields (hdistinct.of_keys_eq hnames) fun name t htree => ?_
    obtain ⟨v, hread⟩ := Fields.exists_get?_of_keys_eq hnames.symm htree
    exact ih name v t hread htree fun hgap => hv (.field hread hgap)
  | classRef _ => exact ⟨trivial, trivial⟩
  | reference _ _ _ hkey _ _ =>
    rcases hkey with ⟨s, rfl⟩ | ⟨x, rfl⟩ <;> exact ⟨trivial, trivial, trivial⟩
  | embedded value _ hembedded htag hdistinct haccepted _ _ ih =>
    refine Value.gapless_of_tagged hdistinct htag fun name t htree hclass => ?_
    obtain ⟨hvalue, a, ha, -⟩ := haccepted name t htree hclass
    obtain rfl := (hd.definition _).name_of_attribute? ha
    have hattribute := Definition.mem_of_attribute? ha
    exact ih a.name t htree hclass fun hgap => hv (.inner hembedded hattribute hvalue hgap)

theorem not_gapped (hnamed : d.WellNamed) (h : Encodes True d registry g v t)
    (ht : t.Gapless) : ¬Gapped d g v := by
  intro hv
  induction hv generalizing t with
  | @gap items hmem =>
    cases h with
    | leaf hleaf => cases hleaf
    | @array _ trees hlength hencodes =>
      obtain ⟨i, hi, heq⟩ := List.getElem_of_mem hmem
      have hi' : i < trees.length := by omega
      have htree := List.getElem?_eq_getElem hi'
      have hitem : items[i]? = some .undefined := by rw [List.getElem?_eq_getElem hi, heq]
      exact (hencodes i _ _ hitem htree).defined_of_defined (ht.item htree).1 rfl
  | @item items v hmem _ ih =>
    cases h with
    | leaf hleaf => cases hleaf
    | @array _ trees hlength hencodes =>
      obtain ⟨i, hi, rfl⟩ := List.getElem_of_mem hmem
      have htree := List.getElem?_eq_getElem (show i < trees.length by omega)
      exact ih (hencodes i _ _ (List.getElem?_eq_getElem hi) htree) (ht.item htree).2
  | @field fields name v hread _ ih =>
    cases h with
    | leaf hleaf => cases hleaf
    | object _ _ hnames hencodes =>
      obtain ⟨t, htree⟩ := Fields.exists_get?_of_keys_eq hnames hread
      exact ih (hencodes name v t hread htree) (ht.field htree)
  | @inner r hr a ha v hread _ ih =>
    cases h with
    | leaf hleaf => cases hleaf
    | reference _ hreferenceable _ _ _ _ =>
      rw [hr] at hreferenceable
      cases hreferenceable
    | embedded value _ _ _ _ haccepted hencodes hcomplete =>
      have hclass := hnamed.ne_classTag r.cls a ha
      obtain ⟨t, htree, rfl⟩ := exists_tree haccepted (hcomplete trivial a ha v hread) hclass hread
      exact ih (hencodes a.name t htree hclass) (ht.field htree)

end Encodes

namespace EncodesFields

variable {trees : Object}

theorem gapless (hd : d.Lawful) (h : EncodesFields full d registry g r trees)
    (hr : g.Gapless d r) : (Value.object trees).Gapless := by
  refine Value.gapless_of_tagged h.distinct h.tag fun name t htree hclass => ?_
  obtain ⟨a, v, ha, hv, -, hencodes⟩ := h.field name t htree hclass
  obtain rfl := (hd.definition _).name_of_attribute? ha
  exact hencodes.gapless hd (hr a (Definition.mem_of_attribute? ha) v hv)

/-- What is stored of all of a record has gaps only where the record has. -/
theorem gapless_iff (hd : d.Lawful) (hnamed : d.WellNamed)
    (h : EncodesFields True d registry g r trees) :
    (Value.object trees).Gapless ↔ g.Gapless d r := by
  refine ⟨fun htrees a ha v hv => ?_, h.gapless hd⟩
  have hclass := hnamed.ne_classTag r.cls a ha
  obtain ⟨t, htree⟩ := Fields.mem_keys_iff.1 (h.complete trivial a ha v hv)
  obtain ⟨b, w, -, hw, -, hencodes⟩ := h.field a.name t htree hclass
  rw [hv] at hw
  cases hw
  exact hencodes.not_gapped hnamed (htrees.field htree)

end EncodesFields

end TypedRecords
