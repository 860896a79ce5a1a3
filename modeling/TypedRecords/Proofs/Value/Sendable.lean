import TypedRecords.Proofs.Calendar.Timestamps
import TypedRecords.Proofs.Value.WellFormed
import TypedRecords.Value.Wire

/-! # Values that can be sent

A value can be sent if it holds no records, classes or infinite numbers, the flags of its patterns can
be told from their sources, and no plain object in it is what the wire takes for a tag. All of this is
a matter of the parts of the value.
-/

namespace TypedRecords

/-! ### Patterns -/

namespace Pattern

variable {p : Pattern} {s : String}

theorem toList_text (p : Pattern) :
    p.text.toList = '/' :: (p.source.toList ++ '/' :: p.flags.toList) := by
  simp [text]

/-- The literal form of a pattern is read as it, unless a slash among its flags is taken for the end
of its source. -/
theorem parse?_eq_some_iff : parse? s = some p ↔ s = p.text ∧ '/' ∉ p.flags.toList := by
  constructor
  · intro h
    unfold parse? at h
    split at h
    · rename_i rest hs
      dsimp only at h
      split at h
      · rename_i source hdrop
        obtain rfl := Option.some.inj h
        have htake := List.prefix_iff_eq_take.1 (List.takeWhile_prefix (l := rest.reverse) (· != '/'))
        have hrest : rest = source.reverse ++ '/' :: (rest.reverse.takeWhile (· != '/')).reverse := by
          have hsplit := List.take_append_drop (rest.reverse.takeWhile (· != '/')).length rest.reverse
          rw [← htake, hdrop] at hsplit
          simpa using (congrArg List.reverse hsplit).symm
        refine ⟨String.toList_inj.1 ?_, ?_⟩
        · rw [hs, toList_text, String.toList_ofList, String.toList_ofList, ← hrest]
        · simp only [String.toList_ofList, List.mem_reverse]
          intro hmem
          simpa using List.mem_takeWhile_imp hmem
      · cases h
    · cases h
  · rintro ⟨rfl, hflags⟩
    have hreverse : (p.source.toList ++ '/' :: p.flags.toList).reverse =
        p.flags.toList.reverse ++ '/' :: p.source.toList.reverse := by simp
    have htake : (p.flags.toList.reverse ++ '/' :: p.source.toList.reverse).takeWhile (· != '/') =
        p.flags.toList.reverse := by
      rw [List.takeWhile_append_of_pos]
      · simp
      · intro c hc
        simp only [bne_iff_ne]
        rintro rfl
        exact hflags (List.mem_reverse.1 hc)
    simp [parse?, toList_text, hreverse, htake]

end Pattern

namespace Value

/-! ### What occurs in a value -/

/-- The first value is the second, or is in an array or object that occurs in it. -/
inductive Occurs : Value → Value → Prop
  | self (v : Value) : Occurs v v
  | item {v w : Value} {items : List Value} (h : w ∈ items) (hv : Occurs v w) :
    Occurs v (.array items)
  | field {v : Value} {entry : String × Value} {fields : Object} (h : entry ∈ fields)
    (hv : Occurs v entry.2) : Occurs v (.object fields)

/-- An object that the wire takes for a value without fields. -/
inductive Tagged : Object → Prop
  | undefined : Tagged [(undefinedTag, .boolean true)]
  | date {s : String} {t : Instant} (h : Timestamp.parse? s = some t) :
    Tagged [(dateTag, .string s)]
  | pattern {s : String} {p : Pattern} (h : Pattern.parse? s = some p) :
    Tagged [(patternTag, .string s)]

theorem Tagged.length_eq {fields : Object} (h : Tagged fields) : fields.length = 1 := by
  cases h <;> rfl

theorem not_tagged_string {name s : String} (hdate : name = dateTag → Timestamp.parse? s = none)
    (hpattern : name = patternTag → Pattern.parse? s = none) : ¬Tagged [(name, .string s)] := by
  intro h
  generalize hfields : [(name, Value.string s)] = fields at h
  cases h with
  | undefined => simp at hfields
  | date ht =>
    simp only [List.cons.injEq, Prod.mk.injEq, string.injEq, and_true] at hfields
    obtain ⟨hname, rfl⟩ := hfields
    cases (hdate hname).symm.trans ht
  | pattern hp =>
    simp only [List.cons.injEq, Prod.mk.injEq, string.injEq, and_true] at hfields
    obtain ⟨hname, rfl⟩ := hfields
    cases (hpattern hname).symm.trans hp

/-- A value that has a wire form of its own. -/
structure Sendable (v : Value) : Prop where
  wellFormed : v.WellFormed
  noReferences : v.hasReferences = false
  finite : ∀ x, Occurs (.number x) v → x.isFinite = true
  dates : ∀ t, Occurs (.date t) v → t.WellFormed
  flags : ∀ p, Occurs (.pattern p) v → '/' ∉ p.flags.toList
  untagged : ∀ fields, Occurs (.object fields) v → ¬Tagged fields

/-- Every date has whole milliseconds and a year of four digits. -/
def Exact (v : Value) : Prop :=
  ∀ t, Occurs (.date t) v → t.nano % 1000000 = 0 ∧ t.InYears

variable {v w : Value} {items : List Value} {fields : Object}

theorem occurs_iff_eq (harray : w.asArray? = none) (hobject : w.asObject? = none) :
    Occurs v w ↔ v = w := by
  constructor
  · intro h
    cases h with
    | self => rfl
    | item => cases harray
    | field => cases hobject
  · rintro rfl
    exact .self v

theorem sendable_array : (Value.array items).Sendable ↔ ∀ v ∈ items, v.Sendable := by
  constructor
  · intro h v hv
    exact
      { wellFormed := wellFormed_array.1 h.wellFormed v hv
        noReferences := hasReferences_array.1 h.noReferences v hv
        finite := fun x hx => h.finite x (.item hv hx)
        dates := fun t ht => h.dates t (.item hv ht)
        flags := fun p hp => h.flags p (.item hv hp)
        untagged := fun fields hf => h.untagged fields (.item hv hf) }
  · intro h
    refine ⟨wellFormed_array.2 fun v hv => (h v hv).wellFormed,
      hasReferences_array.2 fun v hv => (h v hv).noReferences, ?_, ?_, ?_, ?_⟩
    · rintro x (_ | ⟨hv, hx⟩)
      exact (h _ hv).finite x hx
    · rintro t (_ | ⟨hv, ht⟩)
      exact (h _ hv).dates t ht
    · rintro p (_ | ⟨hv, hp⟩)
      exact (h _ hv).flags p hp
    · rintro fields (_ | ⟨hv, hf⟩)
      exact (h _ hv).untagged fields hf

theorem sendable_object : (Value.object fields).Sendable ↔
    Fields.Distinct fields ∧ ¬Tagged fields ∧ ∀ entry ∈ fields, entry.2.Sendable := by
  constructor
  · intro h
    obtain ⟨hd, hwell⟩ := wellFormed_object.1 h.wellFormed
    refine ⟨hd, h.untagged _ (.self _), fun entry hentry => ?_⟩
    exact
      { wellFormed := hwell entry hentry
        noReferences := hasReferences_object.1 h.noReferences entry hentry
        finite := fun x hx => h.finite x (.field hentry hx)
        dates := fun t ht => h.dates t (.field hentry ht)
        flags := fun p hp => h.flags p (.field hentry hp)
        untagged := fun fields hf => h.untagged fields (.field hentry hf) }
  · rintro ⟨hd, hu, h⟩
    refine ⟨wellFormed_object.2 ⟨hd, fun entry hentry => (h entry hentry).wellFormed⟩,
      hasReferences_object.2 fun entry hentry => (h entry hentry).noReferences, ?_, ?_, ?_, ?_⟩
    · rintro x (_ | _ | ⟨hentry, hx⟩)
      exact (h _ hentry).finite x hx
    · rintro t (_ | _ | ⟨hentry, ht⟩)
      exact (h _ hentry).dates t ht
    · rintro p (_ | _ | ⟨hentry, hp⟩)
      exact (h _ hentry).flags p hp
    · rintro other (_ | _ | ⟨hentry, hf⟩)
      · exact hu
      · exact (h _ hentry).untagged other hf

/-- A value without parts can be sent unless it is of a kind that cannot. -/
theorem sendable_other (harray : v.asArray? = none) (hobject : v.asObject? = none)
    (hrefs : v.hasReferences = false) (hnumber : ∀ x, v = .number x → x.isFinite = true)
    (hdate : ∀ t, v = .date t → t.WellFormed)
    (hpattern : ∀ p, v = .pattern p → '/' ∉ p.flags.toList) : v.Sendable where
  wellFormed := by cases v <;> trivial
  noReferences := hrefs
  finite x hx := hnumber x ((occurs_iff_eq harray hobject).1 hx).symm
  dates t ht := hdate t ((occurs_iff_eq harray hobject).1 ht).symm
  flags p hp := hpattern p ((occurs_iff_eq harray hobject).1 hp).symm
  untagged fields hf := by
    obtain rfl := (occurs_iff_eq harray hobject).1 hf
    cases hobject

theorem sendable_undefined : Value.undefined.Sendable :=
  sendable_other rfl rfl rfl (by simp) (by simp) (by simp)

theorem sendable_null : Value.null.Sendable :=
  sendable_other rfl rfl rfl (by simp) (by simp) (by simp)

theorem sendable_boolean (b : Bool) : (Value.boolean b).Sendable :=
  sendable_other rfl rfl rfl (by simp) (by simp) (by simp)

theorem sendable_string (s : String) : (Value.string s).Sendable :=
  sendable_other rfl rfl rfl (by simp) (by simp) (by simp)

theorem sendable_number {x : Number} (hx : x.isFinite = true) : (Value.number x).Sendable :=
  sendable_other rfl rfl rfl (by simpa using hx) (by simp) (by simp)

theorem sendable_date {t : Instant} (ht : t.WellFormed) : (Value.date t).Sendable :=
  sendable_other rfl rfl rfl (by simp) (by simpa using ht) (by simp)

theorem sendable_pattern {p : Pattern} (hp : '/' ∉ p.flags.toList) : (Value.pattern p).Sendable :=
  sendable_other rfl rfl rfl (by simp) (by simp) (by simpa using hp)

theorem exact_array : (Value.array items).Exact ↔ ∀ v ∈ items, v.Exact := by
  constructor
  · exact fun h v hv t ht => h t (.item hv ht)
  · intro h t ht
    cases ht with
    | item hv ht => exact h _ hv t ht

theorem exact_object : (Value.object fields).Exact ↔ ∀ entry ∈ fields, entry.2.Exact := by
  constructor
  · exact fun h entry hentry t ht => h t (.field hentry ht)
  · intro h t ht
    cases ht with
    | field hentry ht => exact h _ hentry t ht

theorem exact_other (harray : v.asArray? = none) (hobject : v.asObject? = none)
    (hdate : ∀ t, v ≠ .date t) : v.Exact :=
  fun t ht => absurd ((occurs_iff_eq harray hobject).1 ht).symm (hdate t)

theorem exact_date {t : Instant} :
    (Value.date t).Exact ↔ t.nano % 1000000 = 0 ∧ t.InYears := by
  constructor
  · exact fun h => h t (.self _)
  · intro h t ht
    cases ht with
    | self => exact h

end Value

end TypedRecords
