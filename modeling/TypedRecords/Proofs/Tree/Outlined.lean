import TypedRecords.Proofs.Tree.Readable

/-! # Trees that were decoded

Whether a tree is decoded, and what checking sees of the value that it is decoded to, depends on the tree
and the registry alone: not on the graph, nor on where the values are said to come from.
-/

namespace TypedRecords.Record

open TypedRecords.Tree (outline)

variable {d : Directory} {registry : RegistryRef} {source : Source} {g g' : Graph} {r : RecordRef}

/-- Fields that were assigned were decoded somewhere, to what their attributes accept. -/
theorem decodeAttributes_fields {fields : Object}
    (h : decodeAttributes d registry source r fields g = (.ok (), g')) :
    ∀ entry ∈ fields, entry.1 ≠ Tree.classTag → entry.1 ≠ Tree.newTag →
      ∃ a, (d.definition r.cls).attribute? entry.1 = some a ∧
        ∃ g₁ v g₂, decode d registry source entry.2 g₁ = (.ok v, g₂) ∧
          a.type.check (d.site r.cls entry.1) v = .ok () := by
  induction fields generalizing g with
  | nil => simp
  | cons entry rest ih =>
    obtain ⟨name, t⟩ := entry
    by_cases htag : name = Tree.classTag ∨ name = Tree.newTag
    · rw [decodeAttributes_tag htag] at h
      refine List.forall_mem_cons.2 ⟨fun hclass hnew => ?_, ih h⟩
      exact absurd htag (not_or.2 ⟨hclass, hnew⟩)
    · obtain ⟨hclass, hnew⟩ := not_or.1 htag
      obtain ⟨a, v, g₁, ha, hv, hcheck, hlater⟩ := decodeAttributes_cons_eq_ok hclass hnew h
      exact List.forall_mem_cons.2 ⟨fun _ _ => ⟨a, ha, g, v, g₁, hv, hcheck⟩, ih hlater⟩

/-- What checking sees of a value that a tree was decoded to. -/
theorem decode_sketch {t v : Value} (h : decode d registry source t g = (.ok v, g')) :
    v.sketch = (outline d registry t).sketch := by
  induction t using Value.induction generalizing g v g' with
  | array items ih =>
    simp only [decode] at h
    obtain ⟨vs, g₁, hvs, hpure⟩ := Stateful.bind_eq_ok h
    cases hpure
    rw [outline, Value.sketch, Value.sketch, Value.sketchItems_eq_map, Value.sketchItems_eq_map,
      Tree.outlineItems_eq_map, List.map_map]
    congr 1
    have hitems := (decodeItems_eq_ok hvs).1
    clear h hvs
    induction hitems with
    | nil => rfl
    | cons hfirst _ ihRest =>
      obtain ⟨ht, hrest⟩ := List.forall_mem_cons.1 ih
      obtain ⟨_, _, -, hdecode, -⟩ := hfirst
      rw [List.map_cons, List.map_cons, ht hdecode, ihRest fun t ht => hrest t ht]
      rfl
  | object fields _ =>
    cases htag : Fields.get? Tree.classTag fields with
    | none =>
      obtain ⟨vs, rfl, -⟩ := decode_untagged_eq_ok htag h
      simp only [Value.sketch, outline, htag]
    | some tag =>
      rcases decode_tagged_eq_ok htag h with ⟨c, text, name, rfl, hclass, hfound, rfl, -⟩ |
        ⟨c, name, rfl, hclass, hfound, rfl, -⟩
      · simp only [Value.sketch, outline, htag, hclass, hfound]
        rfl
      · simp only [Value.sketch, outline, htag, hclass, hfound]
        rfl
  | other t harray hobject =>
    cases t with
    | array items => cases harray
    | object fields => cases hobject
    | _ =>
      cases h
      rfl

/-- A tree is decoded to what checking sees alike. -/
theorem check_of_decode {t v w : Value} {type : ValueType} {site : Site} {source' : Source}
    {g₁ g₂ : Graph} (hv : decode d registry source t g = (.ok v, g'))
    (hw : decode d registry source' t g₁ = (.ok w, g₂)) : type.check site w = type.check site v := by
  rw [← ValueType.check_sketch type w, decode_sketch hw, ← decode_sketch hv, ValueType.check_sketch]

/-- A tree that was decoded once is decoded in any other graph. -/
theorem decode_anywhere {t v : Value} (h : decode d registry source t g = (.ok v, g'))
    (source' : Source) (g₁ : Graph) : ∃ w g₂, decode d registry source' t g₁ = (.ok w, g₂) := by
  induction t using Value.induction generalizing g v g' g₁ with
  | array items ih =>
    simp only [decode] at h ⊢
    obtain ⟨vs, g₂, hvs, -⟩ := Stateful.bind_eq_ok h
    have hitems : ∀ t ∈ items, ∀ g₁, ∃ w g₂, decode d registry source' t g₁ = (.ok w, g₂) := by
      intro t ht g₁
      obtain ⟨v, -, _, _, -, hdecode, -⟩ := Fields.mem_left_of_forall₂ (decodeItems_eq_ok hvs).1 ht
      exact ih t ht hdecode g₁
    obtain ⟨ws, g₃, hws⟩ := decodeItems_of_ok hitems g₁
    rw [Stateful.bind_of_ok hws]
    exact ⟨_, _, rfl⟩
  | object fields ih =>
    cases htag : Fields.get? Tree.classTag fields with
    | none =>
      obtain ⟨vs, rfl, hvs⟩ := decode_untagged_eq_ok htag h
      have hfields : ∀ entry ∈ fields, ∀ g₁, ∃ w g₂,
          decode d registry source' entry.2 g₁ = (.ok w, g₂) := by
        intro entry hentry g₁
        obtain ⟨v, -, -, _, _, -, hdecode, -⟩ :=
          Fields.mem_left_of_forall₂ (decodeFields_eq_ok hvs).1 hentry
        exact ih entry hentry hdecode g₁
      obtain ⟨ws, g₃, hws⟩ := decodeFields_of_ok hfields g₁
      simp only [decode, htag]
      rw [Stateful.bind_of_ok hws]
      exact ⟨_, _, rfl⟩
    | some tag =>
      rcases decode_tagged_eq_ok htag h with ⟨c, text, name, rfl, hclass, hfound, -, -⟩ |
        ⟨c, name, rfl, hclass, hfound, -, hattributes⟩
      · exact ⟨_, _, decode_class htag hclass hfound g₁⟩
      · have hfields : ∀ entry ∈ fields, entry.1 ≠ Tree.classTag → entry.1 ≠ Tree.newTag →
            ∃ a, (d.definition c).attribute? entry.1 = some a ∧
              ∀ g₁, ∃ w g₂, decode d registry source' entry.2 g₁ = (.ok w, g₂) ∧
                a.type.check (d.site c entry.1) w = .ok () := by
          intro entry hentry hclass hnew
          obtain ⟨a, ha, _, v, _, hv, hcheck⟩ :=
            decodeAttributes_fields hattributes entry hentry hclass hnew
          refine ⟨a, ha, fun g₁ => ?_⟩
          obtain ⟨w, g₂, hw⟩ := ih entry hentry hv g₁
          exact ⟨w, g₂, hw, (check_of_decode hv hw).trans hcheck⟩
        obtain ⟨g₂, hassigned⟩ := decodeAttributes_of_check (r := (g₁.instantiate c _).1) hfields
          (g₁.instantiate c (Tree.isMarkedNew fields)).2
        refine ⟨.record (g₁.instantiate c (Tree.isMarkedNew fields)).1, g₂, ?_⟩
        rw [decode_record htag hclass hfound, Stateful.bind_of_ok hassigned]
        rfl
  | other t harray hobject =>
    cases t with
    | array items => cases harray
    | object fields => cases hobject
    | _ => exact ⟨_, _, rfl⟩

end TypedRecords.Record
