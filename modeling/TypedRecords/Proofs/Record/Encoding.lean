import TypedRecords.Proofs.Class.Lawful
import TypedRecords.Proofs.Document.Overlay
import TypedRecords.Proofs.Record.Selection

/-! # Encoded records

An encoded record is an object that a patch can go through, and it has every attribute that is set
and selected.
-/

namespace TypedRecords

open Stateful (KeepsIn)

/-! ### Values to encode -/

namespace Value

theorem Patchable.refork {v w : Value} (h : v.Reforked (fun _ _ => True) w) (hv : v.Patchable) :
    w.Patchable := by
  induction v using Value.induction generalizing w with
  | array items ih =>
    cases h with
    | leaf hleaf => cases hleaf
    | array _ => trivial
  | object fields ih =>
    cases h with
    | leaf hleaf => cases hleaf
    | @object _ fields' names values =>
      have hrelated := Fields.related_of_values names values
      intro htag
      have htagged : Tree.isTagged fields = true := by
        rw [Tree.isTagged, Fields.contains_iff] at htag ⊢
        rwa [names]
      obtain ⟨hdistinct, ⟨tag, hget⟩, hfields⟩ := hv htagged
      have hfields := fieldsPatchable_iff.1 hfields
      refine ⟨?_, ⟨tag, ?_⟩, fieldsPatchable_iff.2 ?_⟩
      · rwa [Fields.Distinct, ← names]
      · obtain ⟨w, hw, hfork⟩ := hrelated.get? hget
        cases hfork
        exact hw
      · rintro ⟨name, w⟩ hw
        obtain ⟨v, hmem, hfork⟩ := hrelated.mem_right hw
        obtain ⟨hname, hv⟩ := hfields _ hmem
        exact ⟨hname, ih _ hmem hfork hv⟩
  | other v harray hobject =>
    cases h with
    | array _ => cases harray
    | object _ _ => cases hobject
    | record _ => trivial
    | _ => exact hv

end Value

/-- Every plain object in the graph that looks like a record can be gone through by a patch. -/
def Graph.Patchable (g : Graph) : Prop :=
  ∀ r name slot, g.own? r name = some (some slot) → slot.value.Patchable

theorem Graph.Patchable.of_holdsForked {g : Graph} (hg : g.Patchable) {v : Value}
    (hv : g.HoldsForked v) : v.Patchable := by
  obtain ⟨r, name, slot, hown, hforks⟩ := hv
  have h := hg r name slot hown
  clear hown
  induction hforks with
  | refl => exact h
  | tail _ hfork ih => exact ih.refork hfork

theorem Graph.Patchable.readsOnly {g g' : Graph} (hg : g.Patchable) (h : ReadsOnly g g') :
    g'.Patchable :=
  fun _ _ _ hown => hg.of_holdsForked (h.forks _ (.of_own? hown))

theorem Graph.Patchable.value? {g g' : Graph} (hg : g.Patchable) {r : RecordRef} {name : String}
    {v : Value} (h : Record.lift (r.value? name) g = (.ok (some v), g')) : v.Patchable := by
  have hslot := (slot?_readsOnly r name g).2
  cases hread : (r.slot? name g).1 with
  | none =>
    have hnone : (Record.lift (r.value? name) g).1 = .ok ((r.slot? name g).1.map Slot.value) := rfl
    rw [h, hread] at hnone
    cases hnone
  | some slot =>
    have hsome : (Record.lift (r.value? name) g).1 = .ok ((r.slot? name g).1.map Slot.value) := rfl
    rw [h, hread] at hsome
    cases hsome
    exact hg.of_holdsForked (hslot slot hread)

/-! ### Encoded objects -/

/-- Fields of an encoded record: named once and properly, tagged by a text. -/
structure Encoded (fields : Object) : Prop where
  distinct : Fields.Distinct fields
  tagged : ∃ tag, Fields.get? Tree.classTag fields = some (.string tag)
  patchable : ∀ entry ∈ fields, Path.IsName entry.1 ∧ entry.2.Patchable

namespace Encoded

theorem object {fields : Object} (h : Encoded fields) : (Value.object fields).Patchable :=
  fun _ => ⟨h.distinct, h.tagged, Value.fieldsPatchable_iff.2 h.patchable⟩

theorem isTagged {fields : Object} (h : Encoded fields) : Tree.isTagged fields = true := by
  obtain ⟨tag, htag⟩ := h.tagged
  exact Fields.contains_iff.2 (Fields.mem_keys_iff.2 ⟨_, htag⟩)

theorem tag (name : String) : Encoded [(Tree.classTag, .string name)] where
  distinct := List.nodup_singleton _
  tagged := ⟨name, rfl⟩
  patchable := by
    intro entry hentry
    rw [List.mem_singleton.1 hentry]
    exact ⟨(by decide : Path.IsName Tree.classTag), trivial⟩

theorem insert {fields : Object} (h : Encoded fields) {name : String} (hname : Path.IsName name)
    (hne : name ≠ Tree.classTag) {v : Value} (hv : v.Patchable) :
    Encoded (Fields.insert name v fields) where
  distinct := h.distinct.insert name v
  tagged := by
    obtain ⟨tag, htag⟩ := h.tagged
    exact ⟨tag, (Fields.get?_insert_of_ne hne.symm v fields).trans htag⟩
  patchable := by
    intro entry hentry
    rcases Fields.mem_insert hentry with hmem | rfl
    · exact h.patchable entry hmem
    · exact ⟨hname, hv⟩

end Encoded

/-- Attributes are named properly, and not like the tag of the class. -/
def Directory.ProperNames (d : Directory) : Prop :=
  ∀ c, ∀ a ∈ d.attributes c, Path.IsName a.name ∧ a.name ≠ Tree.classTag

namespace Record

theorem descriptorAmong_eq_ok {r : RecordRef} {attributes : List Attribute} {g g' : Graph}
    {descriptor : Object} (h : descriptorAmong r attributes g = (.ok descriptor, g')) :
    ∃ a ∈ attributes, ∃ v g₁, v ≠ .undefined ∧ descriptor = [(a.name, v)] ∧
      ReadsOnly g g₁ ∧ lift (r.value? a.name) g₁ = (.ok (some v), g') := by
  induction attributes generalizing g with
  | nil => cases h
  | cons a rest ih =>
    obtain ⟨read, g₁, hread, h⟩ := Stateful.bind_eq_ok h
    have hreads : ReadsOnly g g₁ :=
      .of_run ((readsOnly_allowsReading g).value (Set.mem_univ r) a.name) hread
    have hlater : descriptorAmong r rest g₁ = (.ok descriptor, g') →
        ∃ a' ∈ a :: rest, ∃ v g₂, v ≠ .undefined ∧ descriptor = [(a'.name, v)] ∧
          ReadsOnly g g₂ ∧ lift (r.value? a'.name) g₂ = (.ok (some v), g') := by
      intro h
      obtain ⟨a', ha', v, g₂, hv, hd, hreads', hread'⟩ := ih h
      exact ⟨a', List.mem_cons_of_mem _ ha', v, g₂, hv, hd, hreads.trans hreads', hread'⟩
    split at h
    · exact hlater h
    · exact hlater h
    · next v hv =>
      cases h
      exact ⟨a, List.mem_cons_self, v, g, hv, rfl, ReadsOnly.refl g, hread⟩

end Record

/-! ### Encoding -/

section

variable {onRecord : RecordRef → Selector → Action Value}

theorem encodeFields_eq_ok (hreads : ∀ g known r s, r ∈ known →
      KeepsIn (ReadsFrom g) known (onRecord r s) fun _ _ => True)
    {fields : Object} {g g' : Graph} {fields' : Object}
    (h : Value.encodeFields onRecord fields g = (.ok fields', g')) :
    Fields.Related (fun v e => ∃ g₁ g₂, ReadsOnly g g₁ ∧ v.encode onRecord .all g₁ = (.ok e, g₂))
      fields fields' := by
  induction fields generalizing g fields' with
  | nil =>
    cases h
    exact .nil
  | cons entry rest ih =>
    obtain ⟨name, v⟩ := entry
    obtain ⟨e, g₁, he, h⟩ := Stateful.bind_eq_ok h
    obtain ⟨rest', g₂, hrest, h⟩ := Stateful.bind_eq_ok h
    cases h
    have hfirst : ReadsOnly g g₁ :=
      .of_run (keeps_encode (hreads g) v .all fun r _ => Set.mem_univ r) he
    refine .cons ⟨rfl, g, g₁, ReadsOnly.refl g, he⟩ ((ih hrest).imp ?_)
    rintro a b ⟨hname, g₃, g₄, hreads', hencode⟩
    exact ⟨hname, g₃, g₄, hfirst.trans hreads', hencode⟩

theorem encode_patchable (hreads : ∀ g known r s, r ∈ known →
      KeepsIn (ReadsFrom g) known (onRecord r s) fun _ _ => True)
    (honRecord : ∀ r s g e g', g.Patchable → onRecord r s g = (.ok e, g') → e.Patchable)
    (v : Value) (hv : v.Patchable) (s : Selector) {g g' : Graph} (hg : g.Patchable) {e : Value}
    (h : v.encode onRecord s g = (.ok e, g')) : e.Patchable := by
  induction v using Value.induction generalizing s g e g' with
  | array items ih =>
    simp only [Value.encode] at h
    obtain ⟨items', g₁, -, h⟩ := Stateful.bind_eq_ok h
    cases h
    trivial
  | object fields ih =>
    simp only [Value.encode] at h
    obtain ⟨fields', g₁, hfields', h⟩ := Stateful.bind_eq_ok h
    cases h
    have hrelated := encodeFields_eq_ok hreads hfields'
    intro htag
    have htagged : Tree.isTagged fields = true := by
      rw [Tree.isTagged, Fields.contains_iff] at htag ⊢
      rwa [hrelated.keys_eq]
    obtain ⟨hdistinct, ⟨tag, hget⟩, hfields⟩ := hv htagged
    have hfields := Value.fieldsPatchable_iff.1 hfields
    refine ⟨?_, ⟨tag, ?_⟩, Value.fieldsPatchable_iff.2 ?_⟩
    · rwa [Fields.Distinct, ← hrelated.keys_eq]
    · obtain ⟨w, hw, g₂, g₃, -, hencode⟩ := hrelated.get? hget
      cases hencode
      exact hw
    · rintro ⟨name, w⟩ hw
      obtain ⟨v, hmem, g₂, g₃, hreads', hencode⟩ := hrelated.mem_right hw
      obtain ⟨hname, hv⟩ := hfields _ hmem
      exact ⟨hname, ih _ hmem hv .all (hg.readsOnly hreads') hencode⟩
  | other v harray hobject =>
    cases v with
    | array items => cases harray
    | object fields => cases hobject
    | record r => exact honRecord r s g e g' hg h
    | classRef c =>
      cases h
      exact (Encoded.tag _).object
    | _ =>
      cases h
      trivial

end

namespace Record

variable {d : Directory}

theorem header_eq_ok {r : RecordRef} {g g' : Graph} {tags : Object}
    (h : header .store r g = (.ok tags, g')) :
    tags = [(Tree.classTag, .string r.className)] ∧ g' = g := by
  cases h
  exact ⟨rfl, rfl⟩

theorem encodeReference_encoded (hd : d.ProperNames) {r : RecordRef} {g g' : Graph}
    (hg : g.Patchable) {e : Value} (h : encodeReference d .store r g = (.ok e, g')) :
    ∃ fields, e = .object fields ∧ Encoded fields := by
  unfold encodeReference at h
  obtain ⟨tags, g₁, htags, hrest⟩ := Stateful.bind_eq_ok h
  obtain ⟨described, g₂, hdescriptor, hpure⟩ := Stateful.bind_eq_ok hrest
  obtain ⟨rfl, rfl⟩ := header_eq_ok htags
  cases hpure
  obtain ⟨a, ha, v, g₃, -, rfl, hreads, hread⟩ := descriptorAmong_eq_ok hdescriptor
  obtain ⟨hname, hne⟩ := hd r.cls a (Definition.mem_attributeList_of_identifier ha)
  exact ⟨_, rfl, (Encoded.tag r.className).insert hname hne ((hg.readsOnly hreads).value? hread)⟩

theorem encodeAttribute_eq_ok {onRecord : RecordRef → Selector → Action Value} {r : RecordRef}
    {s : Selector} {acc acc' : Object} {a : Attribute} {g g' : Graph}
    (h : encodeAttribute onRecord r s acc a g = (.ok acc', g')) :
    acc' = acc ∧ ((s.get a.name).isNone = true ∧ g' = g ∨
        lift (r.value? a.name) g = (.ok none, g')) ∨
      ∃ v g₁ e, (s.get a.name).isNone = false ∧ lift (r.value? a.name) g = (.ok (some v), g₁) ∧
        v.encode onRecord (s.get a.name) g₁ = (.ok e, g') ∧ acc' = Fields.insert a.name e acc := by
  simp only [encodeAttribute] at h
  split at h
  · next hnone =>
    cases h
    exact .inl ⟨rfl, .inl ⟨hnone, rfl⟩⟩
  · next hsome =>
    obtain ⟨read, g₁, hread, h⟩ := Stateful.bind_eq_ok h
    split at h
    · cases h
      exact .inl ⟨rfl, .inr hread⟩
    · next v =>
      obtain ⟨e, g₂, he, h⟩ := Stateful.bind_eq_ok h
      cases h
      exact .inr ⟨v, g₁, e, by simpa using hsome, hread, he, rfl⟩

theorem encodeAttribute_encoded (hd : d.ProperNames)
    {onRecord : RecordRef → Selector → Action Value}
    (hreads : ∀ g known r s, r ∈ known →
      KeepsIn (ReadsFrom g) known (onRecord r s) fun _ _ => True)
    (honRecord : ∀ r s g e g', g.Patchable → onRecord r s g = (.ok e, g') → e.Patchable)
    {r : RecordRef} {s : Selector} {a : Attribute} (ha : a ∈ d.attributes r.cls)
    {acc acc' : Object} (hacc : Encoded acc) {g g' : Graph} (hg : g.Patchable)
    (h : encodeAttribute onRecord r s acc a g = (.ok acc', g')) : Encoded acc' := by
  rcases encodeAttribute_eq_ok h with ⟨rfl, -⟩ | ⟨v, g₁, e, -, hread, hencode, rfl⟩
  · exact hacc
  · obtain ⟨hname, hne⟩ := hd r.cls a ha
    have hg₁ : g₁.Patchable := hg.readsOnly
      (.of_run ((readsOnly_allowsReading g).value (Set.mem_univ r) a.name) hread)
    have he := encode_patchable hreads honRecord v (hg.value? hread) _ hg₁ hencode
    exact hacc.insert hname hne he

theorem foldlM_encodeAttribute_encoded (hd : d.ProperNames)
    {onRecord : RecordRef → Selector → Action Value}
    (hreads : ∀ g known r s, r ∈ known →
      KeepsIn (ReadsFrom g) known (onRecord r s) fun _ _ => True)
    (honRecord : ∀ r s g e g', g.Patchable → onRecord r s g = (.ok e, g') → e.Patchable)
    {r : RecordRef} {s : Selector} {acc fields : Object} (hacc : Encoded acc) {g g' : Graph}
    (hg : g.Patchable)
    (h : (d.attributes r.cls).foldlM (encodeAttribute onRecord r s) acc g = (.ok fields, g')) :
    Encoded fields := by
  have hstep : ∀ a ∈ d.attributes r.cls, ∀ acc g acc' g', Encoded acc ∧ g.Patchable →
      encodeAttribute onRecord r s acc a g = (.ok acc', g') → Encoded acc' ∧ g'.Patchable := by
    rintro a ha acc g acc' g' ⟨hacc, hg⟩ h
    have hstepReads : ReadsOnly g g' := .of_run ((readsOnly_allowsReading g).encodeAttribute
      (hreads g) (Set.mem_univ r) s acc a) h
    exact ⟨encodeAttribute_encoded hd hreads honRecord ha hacc hg h, hg.readsOnly hstepReads⟩
  exact (Stateful.foldlM_invariant (P := fun acc g => Encoded acc ∧ g.Patchable) hstep
    ⟨hacc, hg⟩ h).1

/-- A record is encoded as an object that a patch can go through. -/
theorem encodeWithin_encoded (hd : d.ProperNames) {steps : Nat} {visiting : List RecordRef}
    {isRoot : Bool} {r : RecordRef} {s : Selector} {g g' : Graph} (hg : g.Patchable) {e : Value}
    (h : encodeWithin d .store steps visiting isRoot r s g = (.ok e, g')) :
    ∃ fields, e = .object fields ∧ Encoded fields := by
  induction steps generalizing visiting isRoot r s g g' e with
  | zero => cases h
  | succ steps ih =>
    have hreads : ∀ g known r' s, r' ∈ known → KeepsIn (ReadsFrom g) known
        (encodeWithin d .store steps (r :: visiting) false r' s) fun _ _ => True :=
      fun g _ r' s hr' => (readsOnly_allowsReading g).encodeWithin .store steps _ false hr' s
    have honRecord : ∀ r' s' g e g', g.Patchable →
        encodeWithin d .store steps (r :: visiting) false r' s' g = (.ok e, g') →
        e.Patchable := by
      intro r' s' g e g' hg h
      obtain ⟨fields, rfl, hfields⟩ := ih hg h
      exact hfields.object
    simp only [encodeWithin] at h
    split at h
    · exact encodeReference_encoded hd hg h
    · obtain ⟨tags, g₁, htags, hrest⟩ := Stateful.bind_eq_ok h
      obtain ⟨fields, g₂, hfields, hpure⟩ := Stateful.bind_eq_ok hrest
      obtain ⟨rfl, rfl⟩ := header_eq_ok htags
      cases hpure
      exact ⟨fields, rfl, foldlM_encodeAttribute_encoded hd hreads honRecord (.tag r.className) hg
        hfields⟩

/-! ### What is encoded -/

/-- What holds as soon as an attribute is inserted, whatever is inserted under other names, holds of what a
record is encoded as, if the attribute is set and something of it is selected. -/
theorem encodeWithin_reaches {steps : Nat} {r : RecordRef} (hr : r.base? = none) {s : Selector}
    {a : Attribute} (ha : a ∈ d.attributes r.cls) (hs : s.Selects a.name) {g g' : Graph}
    {slot : Slot} (hset : g.own? r a.name = some (some slot)) {P : Object → Prop}
    (hwritten : ∀ (onRecord : RecordRef → Selector → Action Value) acc e g g',
      slot.value.encode onRecord (s.get a.name) g = (.ok e, g') → P (Fields.insert a.name e acc))
    (hkept : ∀ name e acc, name ≠ a.name → P acc → P (Fields.insert name e acc)) {fields : Object}
    (h : encodeWithin d .store steps [] true r s g = (.ok (.object fields), g')) : P fields := by
  cases steps with
  | zero => cases h
  | succ steps =>
    have hreads : ∀ g known r' s, r' ∈ known → KeepsIn (ReadsFrom g) known
        (encodeWithin d .store steps [r] false r' s) fun _ _ => True :=
      fun g _ r' s hr' => (readsOnly_allowsReading g).encodeWithin .store steps _ false hr' s
    simp only [encodeWithin, List.contains_nil, Bool.not_true, Bool.false_and, Bool.or_self,
      Bool.false_eq_true, if_false] at h
    obtain ⟨tags, g₁, htags, hrest⟩ := Stateful.bind_eq_ok h
    obtain ⟨fields', g₂, hfields, hpure⟩ := Stateful.bind_eq_ok hrest
    obtain ⟨rfl, rfl⟩ := header_eq_ok htags
    cases hpure
    have hwrites : ∀ a' : Attribute, a'.name = a.name → ∀ acc g acc' g',
        g.own? r a.name = some (some slot) →
        encodeAttribute (encodeWithin d .store steps [r] false) r s acc a' g = (.ok acc', g') →
          P acc' := by
      intro a' hname acc g acc' g' hown hstep
      rcases encodeAttribute_eq_ok hstep with ⟨-, ⟨hnone, -⟩ | hunset⟩ | ⟨v, g₃, e, -, hread, he, rfl⟩
      · rw [hname, hs] at hnone
        cases hnone
      · rw [hname, lift_value?_made hr, Graph.value?, hown] at hunset
        cases hunset
      · rw [hname, lift_value?_made hr, Graph.value?, hown] at hread
        cases hread
        rw [hname] at he ⊢
        exact hwritten _ acc e _ _ he
    refine Stateful.foldlM_reaches (I := fun _ g => g.own? r a.name = some (some slot))
      (P := fun acc _ => P acc) ?_ ha (hwrites a rfl) ?_ hset hfields
    · intro a' _ acc g acc' g' hown hstep
      have hstepReads : ReadsOnly g g' := .of_run ((readsOnly_allowsReading g).encodeAttribute
        (hreads g) (Set.mem_univ r) s acc a') hstep
      exact hstepReads.keeps _ _ _ hown
    · intro a' _ acc g acc' g' hown hacc hstep
      by_cases hname : a'.name = a.name
      · exact hwrites a' hname acc g acc' g' hown hstep
      · rcases encodeAttribute_eq_ok hstep with ⟨rfl, -⟩ | ⟨v, g₃, e, -, -, -, rfl⟩
        · exact hacc
        · exact hkept a'.name e acc hname hacc

/-- An attribute that is set and of which something is selected is encoded. -/
theorem encodeWithin_mem_keys {steps : Nat} {r : RecordRef} (hr : r.base? = none) {s : Selector}
    {a : Attribute} (ha : a ∈ d.attributes r.cls) (hs : s.Selects a.name) {g g' : Graph}
    {slot : Slot} (hset : g.own? r a.name = some (some slot)) {fields : Object}
    (h : encodeWithin d .store steps [] true r s g = (.ok (.object fields), g')) :
    a.name ∈ Fields.keys fields :=
  encodeWithin_reaches (P := fun fields => a.name ∈ Fields.keys fields) hr ha hs hset
    (fun _ _ _ _ _ _ => Fields.mem_keys_insert.2 (.inl rfl))
    (fun _ _ _ _ hmem => Fields.mem_keys_insert.2 (.inr hmem)) h

end Record

end TypedRecords
