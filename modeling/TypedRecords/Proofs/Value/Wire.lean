import TypedRecords.Proofs.Value.Sendable

/-! # Values over the wire

A value that can be sent has a wire form, and reading that form gives an equal value exactly if every
date in the value has whole milliseconds and a year of four digits. Whatever is read from JSON can be
sent.
-/

namespace TypedRecords

/-- JSON as its text can denote it: numbers are finite, and an object names each field once. -/
inductive Json.WellFormed : Json → Prop
  | null : WellFormed .null
  | boolean (b : Bool) : WellFormed (.boolean b)
  | number {x : Number} (h : x.isFinite = true) : WellFormed (.number x)
  | string (s : String) : WellFormed (.string s)
  | array {items : List Json} (h : ∀ j ∈ items, WellFormed j) : WellFormed (.array items)
  | object {fields : Fields Json} (hd : Fields.Distinct fields)
    (h : ∀ entry ∈ fields, WellFormed entry.2) : WellFormed (.object fields)

namespace Value

variable {v w : Value} {items : List Value} {fields : Object}

/-! ### Reading JSON -/

theorem ofJsonItems_eq_map (js : List Json) : ofJsonItems js = js.map ofJson := by
  induction js with
  | nil => rfl
  | cons j rest ih => rw [ofJsonItems, ih, List.map_cons]

theorem ofJsonFields_eq_map (js : Fields Json) :
    ofJsonFields js = js.map fun entry => (entry.1, ofJson entry.2) := by
  induction js with
  | nil => rfl
  | cons entry rest ih => rw [ofJsonFields, ih, List.map_cons]

/-- An object is read as an object, unless its one field is a tag. -/
theorem ofJson_object {js : Fields Json} (h : ∀ name j, js = [(name, j)] → ofTag? name j = none) :
    ofJson (.object js) = .object (ofJsonFields js) := by
  match js with
  | [] => rw [ofJson]; simp
  | [(name, j)] => rw [ofJson, h name j rfl]; rfl
  | _ :: _ :: _ => rw [ofJson]; simp

theorem ofTag?_eq_some {name : String} {j : Json} (h : ofTag? name j = some v) :
    (name = undefinedTag ∧ j = .boolean true ∧ v = .undefined) ∨
    (∃ s t, name = dateTag ∧ j = .string s ∧ Timestamp.parse? s = some t ∧ v = .date t) ∨
    ∃ s p, name = patternTag ∧ j = .string s ∧ Pattern.parse? s = some p ∧ v = .pattern p := by
  unfold ofTag? at h
  split at h
  · obtain ⟨hname, h⟩ := Option.ite_none_right_eq_some.1 h
    exact .inl ⟨hname, rfl, (Option.some.inj h).symm⟩
  · rename_i s
    by_cases hdate : name = dateTag
    · rw [if_pos hdate] at h
      obtain ⟨t, ht, hv⟩ := Option.map_eq_some_iff.1 h
      exact .inr (.inl ⟨s, t, hdate, rfl, ht, hv.symm⟩)
    · rw [if_neg hdate] at h
      obtain ⟨hname, h⟩ := Option.ite_none_right_eq_some.1 h
      obtain ⟨p, hp, hv⟩ := Option.map_eq_some_iff.1 h
      exact .inr (.inr ⟨s, p, hname, rfl, hp, hv.symm⟩)
  · cases h

/-! ### Writing JSON -/

theorem toJson_array {js : List Json} (h : itemsToJson items = .ok js) :
    (Value.array items).toJson = .ok (.array js) := by
  rw [toJson, h]
  rfl

theorem toJson_object {js : Fields Json} (h : fieldsToJson fields = .ok js) :
    (Value.object fields).toJson = .ok (.object js) := by
  rw [toJson, h]
  rfl

theorem itemsToJson_of_forall₂ {js : List Json}
    (h : List.Forall₂ (fun v j => v.toJson = .ok j) items js) : itemsToJson items = .ok js := by
  induction h with
  | nil => rfl
  | cons hj _ ih =>
    rw [itemsToJson, hj, ih]
    rfl

theorem fieldsToJson_of_related {js : Fields Json}
    (h : Fields.Related (fun v j => v.toJson = .ok j) fields js) : fieldsToJson fields = .ok js := by
  induction h with
  | nil => rfl
  | @cons entry entry' _ _ hj _ ih =>
    obtain ⟨name, v⟩ := entry
    obtain ⟨name', j⟩ := entry'
    obtain ⟨rfl, hj⟩ := hj
    rw [fieldsToJson, hj, ih]
    rfl

/-- Strings and booleans are written as themselves, and nothing else is written as one. -/
theorem eq_of_toJson_leaf {j : Json} (h : v.toJson = .ok j) :
    (∀ s, j = .string s → v = .string s) ∧ ∀ b, j = .boolean b → v = .boolean b := by
  cases v with
  | array items =>
    rw [toJson] at h
    cases hitems : itemsToJson items with
    | error e => rw [hitems] at h; cases h
    | ok js => rw [hitems] at h; cases h; simp
  | object fields =>
    rw [toJson] at h
    cases hfields : fieldsToJson fields with
    | error e => rw [hfields] at h; cases h
    | ok js => rw [hfields] at h; cases h; simp
  | number x =>
    rw [toJson] at h
    obtain rfl := Except.ok.inj h
    unfold numberToJson
    split
    · simp
    · split <;> simp
  | _ =>
    rw [toJson] at h
    cases h
    try simp

/-! ### There and back -/

theorem beq_numberToJson {x : Number} (h : x.isFinite = true) :
    (ofJson (numberToJson x)).beq (.number x) = true := by
  have hnan : x.isNaN = false := by
    simp only [Number.isFinite, decide_eq_true_eq] at h
    simp only [Number.isNaN, beq_eq_false_iff_ne]
    omega
  unfold numberToJson
  by_cases hzero : x.magnitude = 0
  · have hrank : x.rank = 0 := by simp [Number.rank, hzero]
    have hrank' : Number.zero.rank = 0 := rfl
    have hnan' : Number.zero.isNaN = false := by decide
    rw [if_pos hzero, ofJson, beq, Number.beq, hnan, hnan', hrank, hrank']
    rfl
  · rw [if_neg hzero, if_pos h, ofJson, beq]
    exact (Number.beq_self_iff x).2 hnan

theorem wellFormed_numberToJson {x : Number} (h : x.isFinite = true) :
    (numberToJson x).WellFormed := by
  unfold numberToJson
  by_cases hzero : x.magnitude = 0
  · rw [if_pos hzero]
    exact .number (by decide)
  · rw [if_neg hzero, if_pos h]
    exact .number h

theorem beq_ofJson_text {t : Instant} (h : t.WellFormed) :
    (ofJson (.object [(dateTag, .string (Timestamp.text t))])).beq (.date t) = true ↔
      t.nano % 1000000 = 0 ∧ t.InYears := by
  have hne : dateTag ≠ undefinedTag := by decide
  by_cases hyears : t.InYears
  · have htag : ofTag? dateTag (.string (Timestamp.text t)) = some (.date t.cut) := by
      rw [ofTag?, if_pos rfl, Timestamp.parse?_text h hyears]
      rfl
    rw [ofJson, htag, Option.getD_some, beq, beq_iff_eq, Instant.cut_eq_iff]
    simp [hyears]
  · have htag : ofTag? dateTag (.string (Timestamp.text t)) = none := by
      rw [ofTag?, if_pos rfl, Timestamp.parse?_text_eq_none hyears]
      rfl
    rw [ofJson, htag, Option.getD_none, beq]
    · simp [hyears]
    all_goals simp

theorem ofJson_text {p : Pattern} (h : '/' ∉ p.flags.toList) :
    ofJson (.object [(patternTag, .string p.text)]) = .pattern p := by
  have hne : patternTag ≠ dateTag := by decide
  have htag : ofTag? patternTag (.string p.text) = some (.pattern p) := by
    rw [ofTag?, if_neg hne, if_pos rfl, Pattern.parse?_eq_some_iff.2 ⟨rfl, h⟩]
    rfl
  rw [ofJson, htag, Option.getD_some]

theorem ofTag?_eq_none {name : String} {j : Json} (hv : v.toJson = .ok j) (h : ¬Tagged [(name, v)]) :
    ofTag? name j = none := by
  rw [Option.eq_none_iff_forall_ne_some]
  intro w hw
  obtain ⟨hstring, hboolean⟩ := eq_of_toJson_leaf hv
  rcases ofTag?_eq_some hw with ⟨rfl, rfl, -⟩ | ⟨s, t, rfl, rfl, ht, -⟩ | ⟨s, p, rfl, rfl, hp, -⟩
  · exact h (hboolean _ rfl ▸ .undefined)
  · exact h (hstring _ rfl ▸ .date ht)
  · exact h (hstring _ rfl ▸ .pattern hp)

/-- The wire form of an object that is no tag is read as an object. -/
theorem ofJson_object_of_untagged {js : Fields Json}
    (hjs : Fields.Related (fun v j => v.toJson = .ok j) fields js) (h : ¬Tagged fields) :
    ofJson (.object js) = .object (ofJsonFields js) := by
  refine ofJson_object ?_
  rintro name j rfl
  cases hjs with
  | @cons entry _ _ _ hentry hrest =>
    cases hrest
    obtain ⟨key, v⟩ := entry
    obtain ⟨rfl, hj⟩ := hentry
    exact ofTag?_eq_none hj h

theorem wellFormed_field {name : String} {j : Json} (h : j.WellFormed) :
    (Json.object [(name, j)]).WellFormed :=
  .object (List.nodup_singleton name) (List.forall_mem_singleton.2 h)

/-- The wire form of a value, and what reading it gives. -/
structure Returns (v : Value) (j : Json) : Prop where
  toJson : v.toJson = .ok j
  wellFormed : j.WellFormed
  beq_iff : (ofJson j).beq v = true ↔ v.Exact

theorem returns_array {js : List Json} (h : List.Forall₂ Returns items js) :
    Returns (.array items) (.array js) where
  toJson := toJson_array (itemsToJson_of_forall₂ (h.imp fun _ _ hj => hj.toJson))
  wellFormed := by
    refine .array fun j hj => ?_
    obtain ⟨v, -, hv⟩ := Fields.mem_right_of_forall₂ h hj
    exact hv.wellFormed
  beq_iff := by
    rw [exact_array, ofJson, ofJsonItems_eq_map, beq, beqItems_iff, List.forall₂_map_left_iff]
    induction h with
    | nil => simp
    | cons hj _ ih => rw [List.forall₂_cons, hj.beq_iff, ih, List.forall_mem_cons]

theorem returns_object {js : Fields Json} (hd : Fields.Distinct fields) (hu : ¬Tagged fields)
    (h : Fields.Related Returns fields js) : Returns (.object fields) (.object js) := by
  have hjs : Fields.Related (fun v j => v.toJson = .ok j) fields js :=
    h.imp fun _ _ hentry => ⟨hentry.1, hentry.2.toJson⟩
  refine ⟨toJson_object (fieldsToJson_of_related hjs), .object ?_ ?_, ?_⟩
  · rwa [Fields.Distinct, ← h.keys_eq]
  · rintro ⟨name, j⟩ hj
    obtain ⟨v, -, hreturns⟩ := h.mem_right hj
    exact hreturns.wellFormed
  have hlength : (ofJsonFields js).length = fields.length := by
    rw [ofJsonFields_eq_map, List.length_map]
    exact h.length_eq.symm
  rw [exact_object, ofJson_object_of_untagged hjs hu, beq, hlength, beq_self_eq_true, Bool.true_and,
    beqFields_iff, ofJsonFields_eq_map, List.forall_mem_map]
  constructor
  · rintro hread ⟨name, v⟩ hentry
    obtain ⟨j, hj, hreturns⟩ := h.mem_left hentry
    obtain ⟨b, hb, heq⟩ := hread (name, j) hj
    obtain rfl := Option.some.inj ((Fields.get?_of_mem hd hentry).symm.trans hb)
    exact hreturns.beq_iff.1 heq
  · rintro hexact ⟨name, j⟩ hj
    obtain ⟨v, hentry, hreturns⟩ := h.mem_right hj
    exact ⟨v, Fields.get?_of_mem hd hentry, hreturns.beq_iff.2 (hexact _ hentry)⟩

/-- Every value that can be sent has a wire form, which is read as an equal value exactly if its
dates are exact. -/
theorem Sendable.exists_returns (h : v.Sendable) : ∃ j, Returns v j := by
  induction v using Value.induction with
  | array items ih =>
    obtain ⟨js, hjs⟩ := Fields.exists_forall₂ fun w hw => ih w hw (sendable_array.1 h w hw)
    exact ⟨_, returns_array hjs⟩
  | object fields ih =>
    obtain ⟨hd, hu, hfields⟩ := sendable_object.1 h
    have hentries (entry : String × Value) (hentry : entry ∈ fields) :
        ∃ entry' : String × Json, entry.1 = entry'.1 ∧ Returns entry.2 entry'.2 := by
      obtain ⟨j, hj⟩ := ih entry hentry (hfields entry hentry)
      exact ⟨(entry.1, j), rfl, hj⟩
    obtain ⟨js, hjs⟩ := Fields.exists_forall₂ hentries
    exact ⟨_, returns_object hd hu hjs⟩
  | other v harray hobject =>
    have hexact := exact_other harray hobject
    cases v with
    | array items => cases harray
    | object fields => cases hobject
    | record r => cases h.noReferences
    | classRef c => cases h.noReferences
    | date t =>
      exact ⟨_, rfl, wellFormed_field (.string _),
        (beq_ofJson_text (h.dates t (.self _))).trans exact_date.symm⟩
    | number x =>
      have hx := h.finite x (.self _)
      exact ⟨_, rfl, wellFormed_numberToJson hx, iff_of_true (beq_numberToJson hx) (hexact (by simp))⟩
    | pattern p =>
      refine ⟨_, rfl, wellFormed_field (.string _), iff_of_true ?_ (hexact (by simp))⟩
      rw [ofJson_text (h.flags p (.self _)), beq, beq_self_eq_true]
    | undefined =>
      exact ⟨_, rfl, wellFormed_field (.boolean true), iff_of_true rfl (hexact (by simp))⟩
    | null => exact ⟨_, rfl, .null, iff_of_true rfl (hexact (by simp))⟩
    | boolean b =>
      exact ⟨_, rfl, .boolean b, iff_of_true (beq_self_eq_true b) (hexact (by simp))⟩
    | string s => exact ⟨_, rfl, .string s, iff_of_true (beq_self_eq_true s) (hexact (by simp))⟩

/-! ### Values that were read -/

/-- An object is read as an object, or its one field is a tag. -/
theorem ofJson_object_or_tag (js : Fields Json) :
    (ofJson (.object js) = .object (ofJsonFields js) ∧
      ∀ name j, js = [(name, j)] → ofTag? name j = none) ∨
    ∃ name j v, js = [(name, j)] ∧ ofTag? name j = some v ∧ ofJson (.object js) = v := by
  by_cases h : ∀ name j, js = [(name, j)] → ofTag? name j = none
  · exact .inl ⟨ofJson_object h, h⟩
  · push Not at h
    obtain ⟨name, j, rfl, htag⟩ := h
    obtain ⟨v, hv⟩ := Option.ne_none_iff_exists'.1 htag
    exact .inr ⟨name, j, v, rfl, hv, by rw [ofJson, hv, Option.getD_some]⟩

/-- Only a string is read as a string, and only a boolean as a boolean. -/
theorem eq_of_ofJson_leaf (j : Json) :
    (∀ s, ofJson j = .string s → j = .string s) ∧
      ∀ b, ofJson j = .boolean b → j = .boolean b := by
  cases j with
  | object js =>
    rcases ofJson_object_or_tag js with ⟨hread, -⟩ | ⟨name, j, v, -, htag, hread⟩
    · simp [hread]
    · rw [hread]
      rcases ofTag?_eq_some htag with ⟨-, -, rfl⟩ | ⟨_, _, -, -, -, rfl⟩ | ⟨_, _, -, -, -, rfl⟩ <;>
        simp
  | _ => simp [ofJson]

theorem sendable_of_tag {name : String} {j : Json} (h : ofTag? name j = some v) : v.Sendable := by
  rcases ofTag?_eq_some h with ⟨-, -, rfl⟩ | ⟨s, t, -, -, ht, rfl⟩ | ⟨s, p, -, -, hp, rfl⟩
  · exact sendable_undefined
  · exact sendable_date (Timestamp.wellFormed_of_parse? ht)
  · exact sendable_pattern (Pattern.parse?_eq_some_iff.1 hp).2

/-- An object that was read as an object has no tag. -/
theorem not_tagged_ofJsonFields {js : Fields Json}
    (h : ∀ name j, js = [(name, j)] → ofTag? name j = none) : ¬Tagged (ofJsonFields js) := by
  intro htagged
  have hsingle : ∀ name v, ofJsonFields js = [(name, v)] →
      ∃ j, js = [(name, j)] ∧ ofJson j = v := by
    intro name v hjs
    match js, hjs with
    | [(_, j)], rfl => exact ⟨j, rfl, rfl⟩
  generalize hfields : ofJsonFields js = fields at htagged
  cases htagged with
  | undefined =>
    obtain ⟨j, rfl, hj⟩ := hsingle _ _ hfields
    obtain rfl := (eq_of_ofJson_leaf j).2 _ hj
    cases h _ _ rfl
  | date ht =>
    obtain ⟨j, rfl, hj⟩ := hsingle _ _ hfields
    obtain rfl := (eq_of_ofJson_leaf j).1 _ hj
    have htag := h _ _ rfl
    rw [ofTag?, if_pos rfl, ht] at htag
    cases htag
  | pattern hp =>
    obtain ⟨j, rfl, hj⟩ := hsingle _ _ hfields
    obtain rfl := (eq_of_ofJson_leaf j).1 _ hj
    have htag := h _ _ rfl
    have hne : patternTag ≠ dateTag := by decide
    rw [ofTag?, if_neg hne, if_pos rfl, hp] at htag
    cases htag

theorem sendable_ofJson {j : Json} (h : j.WellFormed) : (ofJson j).Sendable := by
  induction h with
  | null => exact sendable_null
  | boolean b => exact sendable_boolean b
  | string s => exact sendable_string s
  | number hx => exact sendable_number hx
  | array _ ih =>
    rw [ofJson, ofJsonItems_eq_map, sendable_array, List.forall_mem_map]
    exact ih
  | @object js hd _ ih =>
    rcases ofJson_object_or_tag js with ⟨hread, huntagged⟩ | ⟨name, j, v, -, htag, hread⟩
    · have hkeys : Fields.keys (ofJsonFields js) = Fields.keys js := by
        rw [ofJsonFields_eq_map, Fields.keys, List.map_map]
        rfl
      rw [hread, sendable_object]
      refine ⟨by rwa [Fields.Distinct, hkeys], not_tagged_ofJsonFields huntagged, ?_⟩
      rw [ofJsonFields_eq_map, List.forall_mem_map]
      exact ih
    · exact hread ▸ sendable_of_tag htag

/-! ### Round trips -/

/-- A value that can be sent, with exact dates, has a wire form. Reading the form gives an equal
value, so that no other such value has it. -/
theorem ofJson_toJson (h : v.Sendable) (hexact : v.Exact) :
    ∃ j, v.toJson = .ok j ∧ (ofJson j).beq v = true ∧
      ∀ w : Value, w.Sendable → w.Exact → w.toJson = .ok j → w.beq v = true := by
  obtain ⟨j, hj⟩ := h.exists_returns
  have hread := hj.beq_iff.2 hexact
  refine ⟨j, hj.toJson, hread, fun w hw hwexact hsame => ?_⟩
  obtain ⟨j', hj'⟩ := hw.exists_returns
  obtain rfl := Except.ok.inj (hj'.toJson.symm.trans hsame)
  have hwell := (sendable_ofJson hj.wellFormed).wellFormed
  exact beq_trans (beq_symm hwell hw.wellFormed (hj'.beq_iff.2 hwexact)) hread

/-- A leap second, a negative zero, a slash in a source, and a date that is none. -/
def parcel : Value :=
  .object
    [("at", .date ⟨730484, 86399, 1500000000⟩), ("size", .number Number.negativeZero),
      ("find", .pattern ⟨"a/b", "gi"⟩), ("note", .object [(dateTag, .string "tomorrow")]),
      ("rest", .array [.undefined, .null])]

theorem sendable_parcel : parcel.Sendable := by
  have hat : (Value.date ⟨730484, 86399, 1500000000⟩).Sendable :=
    sendable_date ⟨by decide, by decide, by decide⟩
  have hsize : (Value.number Number.negativeZero).Sendable := sendable_number (by decide)
  have hfind : (Value.pattern ⟨"a/b", "gi"⟩).Sendable := sendable_pattern (by decide)
  have hnote : (Value.object [(dateTag, .string "tomorrow")]).Sendable := by
    refine sendable_object.2
      ⟨List.nodup_singleton _, not_tagged_string (fun _ => by decide) (fun _ => by decide), ?_⟩
    exact List.forall_mem_singleton.2 (sendable_string _)
  have hrest : (Value.array [.undefined, .null]).Sendable :=
    sendable_array.2 (List.forall_mem_cons.2
      ⟨sendable_undefined, List.forall_mem_singleton.2 sendable_null⟩)
  refine sendable_object.2
    ⟨by simp [Fields.Distinct, Fields.keys], fun h => absurd h.length_eq (by decide), ?_⟩
  simp only [List.forall_mem_cons]
  exact ⟨hat, hsize, hfind, hnote, hrest, List.forall_mem_nil _⟩

theorem exact_parcel : parcel.Exact := by
  refine exact_object.2 ?_
  simp only [List.forall_mem_cons]
  refine ⟨exact_date.2 ⟨by decide, by decide⟩,
    exact_other rfl rfl (by simp), exact_other rfl rfl (by simp), exact_object.2 ?_, exact_array.2 ?_,
    List.forall_mem_nil _⟩
  · exact List.forall_mem_singleton.2 (exact_other rfl rfl (by simp))
  · exact List.forall_mem_cons.2
      ⟨exact_other rfl rfl (by simp), List.forall_mem_singleton.2 (exact_other rfl rfl (by simp))⟩

theorem ofJson_toJson_parcel : parcel.Sendable ∧ parcel.Exact ∧
    ∃ j, parcel.toJson = .ok j ∧ (ofJson j).beq parcel = true ∧
      ∀ w : Value, w.Sendable → w.Exact → w.toJson = .ok j → w.beq parcel = true :=
  ⟨sendable_parcel, exact_parcel, ofJson_toJson sendable_parcel exact_parcel⟩

/-- What is read from JSON can be written again, and reads back equal exactly if its dates have
whole milliseconds and years of four digits in UTC. -/
theorem toJson_ofJson {j : Json} (h : j.WellFormed) :
    ∃ k, (ofJson j).toJson = .ok k ∧ ((ofJson k).beq (ofJson j) = true ↔ (ofJson j).Exact) := by
  obtain ⟨k, hk⟩ := (sendable_ofJson h).exists_returns
  exact ⟨k, hk.toJson, hk.beq_iff⟩

/-- A date with an offset and a pattern without an end, in an array. -/
def letter : Json :=
  .array [.object [(dateTag, .string "2000-02-29t23:59:60.5-23:59")],
    .object [(patternTag, .string "/x")], .number Number.negativeZero]

theorem wellFormed_letter : letter.WellFormed := by
  refine .array ?_
  simp only [List.forall_mem_cons]
  exact ⟨wellFormed_field (.string _), wellFormed_field (.string _), .number (by decide), nofun⟩

theorem toJson_ofJson_letter : letter.WellFormed ∧
    ∃ k, (ofJson letter).toJson = .ok k ∧
      ((ofJson k).beq (ofJson letter) = true ↔ (ofJson letter).Exact) :=
  ⟨wellFormed_letter, toJson_ofJson wellFormed_letter⟩

theorem not_beq_of_date {s : String} {t : Instant} (h : Timestamp.parse? s = some t)
    (ht : ¬(t.nano % 1000000 = 0 ∧ t.InYears)) {k : Json}
    (hk : (ofJson (.object [(dateTag, .string s)])).toJson = .ok k) :
    ¬(ofJson k).beq (ofJson (.object [(dateTag, .string s)])) = true := by
  have htag : ofTag? dateTag (.string s) = some (.date t) := by
    rw [ofTag?, if_pos rfl, h]
    rfl
  rw [ofJson, htag, Option.getD_some] at hk ⊢
  obtain rfl := Except.ok.inj hk
  rwa [beq_ofJson_text (Timestamp.wellFormed_of_parse? h)]

/-- Parts of a millisecond are lost, and so is a date that an offset moves before the year 0. -/
theorem exists_unstable_date :
    (∃ j : Json, j = .object [(dateTag, .string "2000-03-01T00:00:00.0001Z")] ∧ j.WellFormed ∧
      ¬∃ k, (ofJson j).toJson = .ok k ∧ (ofJson k).beq (ofJson j) = true) ∧
    ∃ j : Json, j = .object [(dateTag, .string "0000-01-01T00:00:00+00:01")] ∧ j.WellFormed ∧
      ¬∃ k, (ofJson j).toJson = .ok k ∧ (ofJson k).beq (ofJson j) = true := by
  have hfine : Timestamp.parse? "2000-03-01T00:00:00.0001Z" = some ⟨730485, 0, 100000⟩ := by
    decide +kernel
  have hearly : Timestamp.parse? "0000-01-01T00:00:00+00:01" = some ⟨-61, 86340, 0⟩ := by
    decide +kernel
  refine ⟨⟨_, rfl, wellFormed_field (.string _), ?_⟩, _, rfl, wellFormed_field (.string _), ?_⟩
  · rintro ⟨k, hk, hread⟩
    exact not_beq_of_date hfine (by decide) hk hread
  · rintro ⟨k, hk, hread⟩
    exact not_beq_of_date hearly (by decide) hk hread

end Value

end TypedRecords
