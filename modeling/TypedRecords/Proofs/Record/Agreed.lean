import TypedRecords.Proofs.Record.Ending
import TypedRecords.Proofs.Record.Places

/-! # What a resolved selector agrees on

A selector that is resolved against a record lists the attributes that are set and were selected. For an
array it unites what the items answer, so it can list more than one of them has, and where the items are
of different classes, or some are missing, more than was selected. As long as the records that stand where
a type refers to a class have one definition, and arrays of records that are referred to by identifier have
no gaps, it selects in each record what the selector itself does.
-/

namespace TypedRecords

open TypedRecords.Graph (Sound Stands Viewed)
open Stateful (FailsIff)

/-! ### Paths through records within each other -/

/-- The path leads to an attribute that is set, through records that are not referred to by identifier. -/
inductive Graph.Shows (d : Directory) (g : Graph) : RecordRef → List String → Prop
  | here {r : RecordRef} {a : Attribute} {v : Value} (declared : a ∈ d.attributes r.cls)
    (holds : g.seen? r a.name = some v) : Shows d g r [a.name]
  | within {r q : RecordRef} {a : Attribute} {v : Value} {path : List String}
    (declared : a ∈ d.attributes r.cls) (holds : g.seen? r a.name = some v) (enters : a.type.Enters v q)
    (nested : (d.definition q.cls).referenceable = false) (inside : Shows d g q path) :
    Shows d g r (a.name :: path)

/-- The path leads to an attribute that is declared, through classes whose records are not referred to by
identifier, by what the names of classes stand for. -/
inductive Definition.Declares (defs : String → Definition) : Definition → List String → Prop
  | here {c : Definition} {a : Attribute} (declared : a ∈ c.attributeList) : Declares defs c [a.name]
  | within {c : Definition} {a : Attribute} {name : String} {path : List String}
    (declared : a ∈ c.attributeList) (refers : a.type.recordClass? = some name)
    (nested : (defs name).referenceable = false) (inside : Declares defs (defs name) path) :
    Declares defs c (a.name :: path)

/-! ### Records that answer alike -/

/-- Where the type refers to records there are records, and in every array there are some. -/
def ValueType.Filled : ValueType → Value → Prop
  | .array item _, .array items => items ≠ [] ∧ ∀ v ∈ items, Filled item v
  | .reference _ false _, .record _ => True
  | _, _ => False

/-- The records in the value have the definition that the name of their class stands for. If they are
referred to by identifier, no item is missing among them. -/
structure ValueType.Regular (d : Directory) (defs : String → Definition) (t : ValueType) (v : Value) :
    Prop where
  alike : ∀ q, t.Enters v q → ∀ name, t.recordClass? = some name → d.definition q.cls = defs name
  filled : ∀ q, t.Enters v q → (d.definition q.cls).referenceable = true → t.Filled v

/-- What is selected is regular, and no record that is not referred to by identifier is within itself or
more than so many others. -/
def Graph.Shallow (d : Directory) (defs : String → Definition) (g : Graph) :
    (depth : Nat) → (visiting : List RecordRef) → RecordRef → Selector → Prop
  | 0, _, _, _ => False
  | depth + 1, visiting, r, s => r ∉ visiting ∧ ∀ a ∈ d.attributes r.cls, s.Selects a.name →
      ∀ v, g.seen? r a.name = some v → a.type.Regular d defs v ∧
        ∀ q, a.type.Enters v q → (d.definition q.cls).referenceable = false →
          Shallow d defs g depth (r :: visiting) q (s.get a.name)

/-- A selector that was resolved against a record selects what was selected of it and is set, and of what
the class declares nothing else. Of records that are referred to by identifier it selects the
identifiers. -/
structure Graph.Agrees (d : Directory) (defs : String → Definition) (g : Graph) (r : RecordRef)
    (s t : Selector) : Prop where
  wellFormed : t.WellFormed
  isNone : t.isNone = s.isNone
  shown : ∀ path, g.Shows d r path → s.Keeps path → t.Keeps path
  declared : ∀ path, (d.definition r.cls).Declares defs path → t.Keeps path → s.Keeps path
  referred : ∀ a ∈ d.attributes r.cls, s.Selects a.name → ∀ v, g.seen? r a.name = some v →
    ∀ q, a.type.Enters v q → (d.definition q.cls).referenceable = true →
      ∀ path, (t.get a.name).Keeps path ↔ (d.definition q.cls).identifierSelector.Keeps path

/-- What a record that is held answers. -/
def Graph.Replies (d : Directory) (defs : String → Definition) (g : Graph) (s : Selector) (q : RecordRef)
    (t : Selector) : Prop :=
  if (d.definition q.cls).referenceable then t = (d.definition q.cls).identifierSelector
  else g.Agrees d defs q s t

section

variable {d : Directory} {defs : String → Definition} {g : Graph} {r q : RecordRef} {s t u : Selector}

theorem ValueType.Filled.opens {t : ValueType} {v : Value} (h : t.Filled v) : t.opens v = true := by
  cases t with
  | scalar kind traits => cases h
  | array item traits => cases v <;> first | rfl | cases h
  | reference name toClass traits => cases toClass <;> cases v <;> first | rfl | cases h

theorem ValueType.Enters.refers {t : ValueType} {v : Value} (h : t.Enters v q) :
    t.recordClass? ≠ none := by
  induction h with
  | reference => exact fun hnone => by cases hnone
  | item _ _ ih => exact ih

theorem Graph.Replies.wellFormed (h : g.Replies d defs s q t) : t.WellFormed := by
  unfold Replies at h
  split at h
  · exact h ▸ Selector.wellFormed_ofNames _
  · exact h.wellFormed

theorem Graph.Replies.isNone (h : g.Replies d defs s q t) (hs : s.isNone = false) :
    t.isNone = false := by
  unfold Replies at h
  split at h
  · subst h
    rfl
  · exact h.isNone.trans hs

theorem Graph.Replies.of_nested (h : g.Replies d defs s q t)
    (hq : (d.definition q.cls).referenceable = false) : g.Agrees d defs q s t := by
  rwa [Replies, if_neg (by simp [hq])] at h

theorem Graph.Replies.of_referenceable (h : g.Replies d defs s q t)
    (hq : (d.definition q.cls).referenceable = true) :
    t = (d.definition q.cls).identifierSelector := by
  rwa [Replies, if_pos hq] at h

namespace Graph.Shallow

/-- What is shallow for a selector is so for one that selects no more, within fewer records. -/
theorem mono {depth : Nat} {visiting visiting' : List RecordRef} (h : g.Shallow d defs depth visiting r s)
    (hvisiting : visiting' ⊆ visiting) (hle : ∀ path, g.Shows d r path → t.Keeps path → s.Keeps path) :
    g.Shallow d defs depth visiting' r t := by
  induction depth generalizing r s t visiting visiting' with
  | zero => exact h
  | succ depth ih =>
    refine ⟨fun hmem => h.1 (hvisiting hmem), fun a ha hselects v hv => ?_⟩
    obtain ⟨hregular, hinner⟩ := h.2 a ha (hle _ (.here ha hv) hselects) v hv
    refine ⟨hregular, fun q hq hnested => ih (hinner q hq hnested) ?_ fun path hpath hkeeps => ?_⟩
    · exact List.cons_subset_cons r hvisiting
    · exact hle (a.name :: path) (.within ha hv hq hnested hpath) hkeeps

theorem normalize {depth : Nat} {visiting : List RecordRef} (h : g.Shallow d defs depth visiting r s)
    (hs : s.WellFormed) : g.Shallow d defs depth visiting r s.normalize :=
  h.mono (List.Subset.refl _) fun _ _ => (Selector.keeps_normalize hs).1

end Graph.Shallow

namespace Graph.Agrees

theorem of_normalize (hs : s.WellFormed) (h : g.Agrees d defs r s.normalize t) :
    g.Agrees d defs r s t where
  wellFormed := h.wellFormed
  isNone := h.isNone.trans s.isNone_normalize
  shown path hpath hkeeps := h.shown path hpath ((Selector.keeps_normalize hs).2 hkeeps)
  declared path hpath hkeeps := (Selector.keeps_normalize hs).1 (h.declared path hpath hkeeps)
  referred a ha hselects := h.referred a ha hselects.normalize

/-- What selects nothing is resolved to itself. -/
theorem self (hs : s.WellFormed) (hnone : s.isNone = true) : g.Agrees d defs r s s where
  wellFormed := hs
  isNone := rfl
  shown _ _ := id
  declared _ _ := id
  referred a _ hselects := by
    rw [Selector.Selects, Selector.isNone_get hnone] at hselects
    cases hselects

/-- Of what is shown, a resolved selector selects what was selected. -/
theorem keeps_iff (h : g.Agrees d defs r s t) {depth : Nat} {visiting : List RecordRef}
    (hs : g.Shallow d defs depth visiting r s) {path : List String} (hpath : g.Shows d r path) :
    t.Keeps path ↔ s.Keeps path := by
  refine ⟨fun hkeeps => ?_, h.shown path hpath⟩
  have hdeclared := h.declared
  clear h
  induction hpath generalizing depth visiting s t with
  | here ha _ => exact hdeclared _ (.here ha) hkeeps
  | @within r q a v path ha hv henters hnested _ ih =>
    cases depth with
    | zero => exact hs.elim
    | succ depth =>
      have hselects : s.Selects a.name :=
        hdeclared [a.name] (.here ha) (Selector.Keeps.isNone (s := t.get a.name) hkeeps)
      obtain ⟨hregular, hinner⟩ := hs.2 a ha hselects v hv
      obtain ⟨name, hname⟩ := Option.ne_none_iff_exists'.1 henters.refers
      have hclass := hregular.alike q henters name hname
      refine ih (hinner q henters hnested) (s := s.get a.name) (t := t.get a.name) hkeeps
        fun path hpath hkeeps => ?_
      rw [hclass] at hpath hnested
      exact hdeclared (a.name :: path) (.within ha hname hnested hpath) hkeeps

end Graph.Agrees

end


/-! ### Against a value -/

/-- No record is entered of a value, and something is missing of it, or there is none. -/
def ValueType.Vacant (t : ValueType) (v : Option Value) : Prop :=
  ∀ w, v = some w → ¬t.Filled w ∧ ∀ q, ¬t.Enters w q

namespace ValueType.Vacant

variable {item t : ValueType} {traits : Traits} {w : Value}

theorem missing : t.Vacant none := nofun

theorem noItems : (array item traits).Vacant (some (.array [])) := by
  rintro _ ⟨⟩
  refine ⟨fun hfilled => hfilled.1 rfl, fun q hq => ?_⟩
  obtain ⟨_, ⟨⟩, w, hw, -⟩ := enters_array_iff.1 hq
  cases hw

theorem of_opens (hopens : t.opens w = false) : t.Vacant (some w) := by
  rintro _ ⟨⟩
  constructor
  · intro hfilled
    rw [hfilled.opens] at hopens
    cases hopens
  · intro q henters
    rw [henters.opens] at hopens
    cases hopens

end ValueType.Vacant

/-- A selector that was gathered from what the records in a value answer. It selects what one of them does,
and nothing else, unless something is missing among them. -/
structure Collects (answers : RecordRef → Selector → Prop) (t : ValueType) (v : Option Value)
    (s u : Selector) : Prop where
  wellFormed : u.WellFormed
  isNone : u.isNone = false
  keeps : ∀ w, v = some w → ∀ q, t.Enters w q → ∃ x, answers q x ∧ ∀ path, x.Keeps path → u.Keeps path
  kept : ∀ path, u.Keeps path → (∃ w q x, v = some w ∧ t.Enters w q ∧ answers q x ∧ x.Keeps path) ∨
    s.Keeps path ∧ ∀ w, v = some w → ¬t.Filled w

namespace Collects

variable {answers : RecordRef → Selector → Prop} {item : ValueType} {traits : Traits}
  {items : List Value} {w : Value} {s t u : Selector}

/-- Where there are no records, a selector stays as it is. -/
theorem normalize (hs : s.WellFormed) (hsome : s.isNone = false) {t : ValueType} {v : Option Value}
    (hnone : t.Vacant v) : Collects answers t v s s.normalize where
  wellFormed := hs.normalize
  isNone := by rwa [Selector.isNone_normalize]
  keeps w hw q hq := absurd hq ((hnone w hw).2 q)
  kept path hkeeps := .inr ⟨(Selector.keeps_normalize hs).1 hkeeps, fun w hw => (hnone w hw).1⟩

theorem answer (hwell : t.WellFormed) (hsome : t.isNone = false) {name : String} {q : RecordRef}
    (h : answers q t) : Collects answers (.reference name false traits) (some (.record q)) s t where
  wellFormed := hwell
  isNone := hsome
  keeps w hw q' hq' := by
    cases hw
    cases hq'
    exact ⟨t, h, fun _ => id⟩
  kept path hkeeps := .inl ⟨_, q, t, rfl, .reference, h, hkeeps⟩

/-- What has no items is gathered like a missing item. -/
theorem gap {v : Option Value} (h : Collects answers item none s u)
    (hnone : (ValueType.array item traits).Vacant v) : Collects answers (.array item traits) v s u where
  wellFormed := h.wellFormed
  isNone := h.isNone
  keeps w hw q hq := absurd hq ((hnone w hw).2 q)
  kept path hkeeps := by
    rcases h.kept path hkeeps with ⟨w, q, x, hw, -⟩ | ⟨hkept, -⟩
    · cases hw
    · exact .inr ⟨hkept, fun w hw => (hnone w hw).1⟩

theorem single (h : Collects answers item (some w) s u) :
    Collects answers (.array item traits) (some (.array [w])) s u where
  wellFormed := h.wellFormed
  isNone := h.isNone
  keeps := by
    rintro _ ⟨⟩ q hq
    obtain ⟨_, ⟨⟩, w', hw', henters⟩ := ValueType.enters_array_iff.1 hq
    obtain rfl := List.mem_singleton.1 hw'
    exact h.keeps _ rfl q henters
  kept path hkeeps := by
    rcases h.kept path hkeeps with ⟨_, q, x, ⟨⟩, hq, hx, hkept⟩ | ⟨hkept, hfilled⟩
    · exact .inl ⟨_, q, x, rfl, .item (List.mem_singleton.2 rfl) hq, hx, hkept⟩
    · refine .inr ⟨hkept, ?_⟩
      rintro _ ⟨⟩ hall
      exact hfilled w rfl (hall.2 w (List.mem_singleton.2 rfl))

/-- One more item is united with those before. -/
theorem merge (hitems : items ≠ []) (h : Collects answers (.array item traits) (some (.array items)) s t)
    (hw : Collects answers item (some w) s u) :
    Collects answers (.array item traits) (some (.array (items ++ [w]))) s (t.merge u) where
  wellFormed := h.wellFormed.merge hw.wellFormed
  isNone := Selector.isNone_merge h.isNone u
  keeps := by
    rintro _ ⟨⟩ q hq
    obtain ⟨_, ⟨⟩, w', hw', henters⟩ := ValueType.enters_array_iff.1 hq
    have hmerge : ∀ path, (t.merge u).Keeps path ↔ t.Keeps path ∨ u.Keeps path :=
      fun _ => Selector.keeps_merge h.wellFormed hw.wellFormed
    rcases List.mem_append.1 hw' with hw' | hw'
    · obtain ⟨x, hx, hle⟩ := h.keeps _ rfl q (.item hw' henters)
      exact ⟨x, hx, fun path hkeeps => (hmerge path).2 (.inl (hle path hkeeps))⟩
    · obtain rfl := List.mem_singleton.1 hw'
      obtain ⟨x, hx, hle⟩ := hw.keeps _ rfl q henters
      exact ⟨x, hx, fun path hkeeps => (hmerge path).2 (.inr (hle path hkeeps))⟩
  kept path hkeeps := by
    rcases (Selector.keeps_merge h.wellFormed hw.wellFormed).1 hkeeps with hkeeps | hkeeps
    · rcases h.kept path hkeeps with ⟨_, q, x, ⟨⟩, hq, hx, hkept⟩ | ⟨hkept, hfilled⟩
      · obtain ⟨_, ⟨⟩, w', hw', henters⟩ := ValueType.enters_array_iff.1 hq
        exact .inl ⟨_, q, x, rfl, .item (List.mem_append_left _ hw') henters, hx, hkept⟩
      · refine .inr ⟨hkept, ?_⟩
        rintro _ ⟨⟩ hall
        exact hfilled _ rfl ⟨hitems, fun w' hw' => hall.2 w' (List.mem_append_left _ hw')⟩
    · rcases hw.kept path hkeeps with ⟨_, q, x, ⟨⟩, hq, hx, hkept⟩ | ⟨hkept, hfilled⟩
      · exact .inl ⟨_, q, x, rfl, .item (List.mem_append_right _ (List.mem_singleton.2 rfl)) hq, hx, hkept⟩
      · refine .inr ⟨hkept, ?_⟩
        rintro _ ⟨⟩ hall
        exact hfilled w rfl (hall.2 w (List.mem_append_right _ (List.mem_singleton.2 rfl)))

end Collects

section

variable {I : Set RecordRef → Graph → Prop} {known : Set RecordRef} {e : Error}
  {R : RecordRef → RecordRef → Prop} {answers : RecordRef → Selector → Prop} {s : Selector}
  {onRecord : RecordRef → Selector → Action Selector}

/-- What each item of an array gives is united. -/
theorem combineItems_collects {onItem : Value → Action Selector} {item : ValueType} {traits : Traits}
    {first first' : Value} {rest rest' : List Value} (hfirst : first.Reforked R first')
    (hrest : List.Forall₂ (Value.Reforked R) rest rest')
    (hitem : ∀ w ∈ first :: rest, ∀ w', w.Reforked R w' →
      FailsIff e False I known (onItem w') fun _ u => Collects answers item (some w) s u) :
    FailsIff e False I known (ValueType.combineItems Selector.merge onItem first' rest') fun _ u =>
      Collects answers (.array item traits) (some (.array (first :: rest))) s u := by
  refine (hitem first List.mem_cons_self first' hfirst).bind_of_never fun u after hafter hu => ?_
  have hstep : ∀ done w w', w ∈ rest ∧ w.Reforked R w' → ∀ acc,
      (done ≠ [] ∧ Collects answers (.array item traits) (some (.array done)) s acc) →
      FailsIff e False I after (do pure (acc.merge (← onItem w'))) fun _ acc => done ++ [w] ≠ [] ∧
        Collects answers (.array item traits) (some (.array (done ++ [w]))) s acc := by
    rintro done w w' ⟨hw, hforked⟩ acc ⟨hdone, hacc⟩
    refine ((hitem w (List.mem_cons_of_mem _ hw) w' hforked).mono hafter).bind_of_never
      fun u later hlater hu => .pure fun _ _ => ?_
    exact ⟨by simp, hacc.merge hdone hu⟩
  have hall := FailsIff.foldlM_tracks (forall₂_imp_of_mem hrest fun w hw _ h => ⟨hw, h⟩) hstep
    [first] ⟨by simp, hu.single⟩
  exact (hall.congr (by simp)).imp fun _ _ _ h => h.2

/-- Narrowing against a value gathers what the records answer that are entered. -/
theorem narrow_collects (hs : s.WellFormed) (hsome : s.isNone = false)
    (hanswers : ∀ q x, answers q x → x.WellFormed ∧ x.isNone = false) {t : ValueType}
    (ht : t.recordClass? ≠ none) {old v : Option Value} (hv : Option.Rel (Value.Reforked R) old v)
    (hinner : ∀ w, old = some w → ∀ q, t.Enters w q → ∀ q', R q q' →
      FailsIff e False I known (onRecord q' s) fun _ x => answers q x) :
    FailsIff e False I known (t.narrow Selector.merge onRecord s v) fun _ u =>
      Collects answers t old s u := by
  induction t generalizing old v with
  | scalar kind traits => exact absurd rfl ht
  | array item traits ih =>
    simp only [ValueType.narrow, hsome, Bool.false_eq_true, if_false]
    have hgap : ∀ {old}, (ValueType.array item traits).Vacant old →
        FailsIff e False I known (item.narrow Selector.merge onRecord s none) fun _ u =>
          Collects answers (.array item traits) old s u := fun hnone =>
      (ih ht .none fun w hw => by cases hw).imp fun _ _ u hu => hu.gap hnone
    cases hv with
    | none => exact hgap .missing
    | @some w w' hforked =>
      cases hforked with
      | array hitems =>
        cases hitems with
        | nil => exact hgap .noItems
        | cons hfirst hrest =>
          refine combineItems_collects hfirst hrest fun w hw w' hforked => ih ht (.some hforked) ?_
          rintro _ ⟨⟩ q hq
          exact hinner _ rfl q (.item hw hq)
      | leaf hleaf => cases w <;> first | exact hgap (.of_opens rfl) | cases hleaf
      | _ => exact hgap (.of_opens rfl)
  | reference name toClass traits =>
    cases toClass with
    | true => exact absurd rfl ht
    | false =>
      simp only [ValueType.narrow, hsome, Bool.false_eq_true, if_false]
      have hgap : ∀ {old}, (ValueType.reference name false traits).Vacant old →
          FailsIff e False I known (pure s.normalize) fun _ u =>
            Collects answers (.reference name false traits) old s u :=
        fun hnone => .pure fun _ _ => .normalize hs hsome hnone
      cases hv with
      | none => exact hgap .missing
      | @some w w' hforked =>
        cases hforked with
        | @record q q' hq =>
          refine (hinner _ rfl q .reference q' hq).imp fun _ _ x hx => ?_
          obtain ⟨hwell, hx'⟩ := hanswers q x hx
          exact .answer hwell hx' hx
        | leaf hleaf => cases w <;> first | exact hgap (.of_opens rfl) | cases hleaf
        | _ => exact hgap (.of_opens rfl)

end


/-! ### Against a record -/

namespace Graph

/-- What an attribute is narrowed to. -/
structure Narrows (d : Directory) (defs : String → Definition) (g : Graph) (a : Attribute) (v : Value)
    (s u : Selector) : Prop where
  isNone : u.isNone = false
  wellFormed : u.WellFormed
  collects : a.type.recordClass? ≠ none → Collects (g.Replies d defs s) a.type (some v) s u

/-- A selector that was resolved against some of the attributes of a record: those that are set and were
selected, each with what it is narrowed to. -/
structure Taken (d : Directory) (defs : String → Definition) (g : Graph) (r : RecordRef) (s : Selector)
    (attributes : List Attribute) (t : Selector) : Prop where
  only : ∃ fields, t = .only fields
  wellFormed : t.WellFormed
  listed : ∀ name, t.Selects name → ∃ a ∈ attributes, a.name = name ∧ s.Selects name ∧
    ∃ v u, g.seen? r name = some v ∧ g.Narrows d defs a v (s.get name) u ∧ t.get name = u.normalize
  selects : ∀ a ∈ attributes, s.Selects a.name → ∀ v, g.seen? r a.name = some v → t.Selects a.name

variable {d : Directory} {defs : String → Definition} {g : Graph} {r q : RecordRef} {s t u : Selector}
  {attributes : List Attribute} {a : Attribute} {v : Value}

namespace Taken

theorem nil : g.Taken d defs r s [] (.only []) where
  only := ⟨[], rfl⟩
  wellFormed := Selector.wellFormed_only_nil
  listed _ h := by cases h
  selects _ h := by cases h

/-- An attribute that is not set or was not selected is passed over. -/
theorem pass (h : g.Taken d defs r s attributes t) (a : Attribute)
    (hunset : s.Selects a.name → g.seen? r a.name = none) :
    g.Taken d defs r s (attributes ++ [a]) t where
  only := h.only
  wellFormed := h.wellFormed
  listed name hname := by
    obtain ⟨b, hb, hrest⟩ := h.listed name hname
    exact ⟨b, List.mem_append_left _ hb, hrest⟩
  selects b hb hselects v hv := by
    rcases List.mem_append.1 hb with hb | hb
    · exact h.selects b hb hselects v hv
    · obtain rfl := List.mem_singleton.1 hb
      rw [hunset hselects] at hv
      cases hv

theorem set (h : g.Taken d defs r s attributes t) (hselects : s.Selects a.name)
    (hv : g.seen? r a.name = some v) (hu : g.Narrows d defs a v (s.get a.name) u) :
    g.Taken d defs r s (attributes ++ [a]) (t.set a.name u) := by
  obtain ⟨fields, rfl⟩ := h.only
  refine ⟨⟨_, Selector.set_only hu.isNone⟩, h.wellFormed.set hu.wellFormed a.name, ?_, ?_⟩
  · intro name hname
    by_cases heq : name = a.name
    · subst heq
      exact ⟨a, List.mem_append_right _ (List.mem_singleton.2 rfl), rfl, hselects, v, u, hv, hu,
        Selector.get_set_self hu.isNone⟩
    · rw [Selector.Selects, Selector.get_set_of_ne hu.isNone heq] at hname
      obtain ⟨b, hb, hrest⟩ := h.listed name hname
      rw [Selector.get_set_of_ne hu.isNone heq]
      exact ⟨b, List.mem_append_left _ hb, hrest⟩
  · intro b hb hb' w hw
    by_cases heq : b.name = a.name
    · rw [heq, Selector.Selects, Selector.get_set_self hu.isNone, Selector.isNone_normalize]
      exact hu.isNone
    · rw [Selector.Selects, Selector.get_set_of_ne hu.isNone heq]
      rcases List.mem_append.1 hb with hb | hb
      · exact h.selects b hb hb' w hw
      · exact absurd (congrArg Attribute.name (List.mem_singleton.1 hb)) heq

/-- What an attribute that is set and was selected is narrowed to. -/
theorem narrows (h : g.Taken d defs r s (d.attributes r.cls) t) (hd : d.Lawful)
    (ha : a ∈ d.attributes r.cls) (hselects : t.Selects a.name) : s.Selects a.name ∧
      ∃ v u, g.seen? r a.name = some v ∧ g.Narrows d defs a v (s.get a.name) u ∧
        t.get a.name = u.normalize := by
  obtain ⟨b, hb, hname, hrest⟩ := h.listed a.name hselects
  obtain rfl := List.inj_on_of_nodup_map (hd.definition r.cls).names_nodup hb ha hname
  exact hrest

/-- A selector that was resolved against all attributes agrees with what it was before. -/
theorem agrees (h : g.Taken d defs r s (d.attributes r.cls) t) (hd : d.Lawful)
    (hsome : s.isNone = false) (hregular : ∀ a ∈ d.attributes r.cls, s.Selects a.name → ∀ v,
      g.seen? r a.name = some v → a.type.Regular d defs v) : g.Agrees d defs r s t := by
  have hkept : ∀ a ∈ d.attributes r.cls, s.Selects a.name → ∀ v, g.seen? r a.name = some v →
      ∀ q, a.type.Enters v q → ∃ u, Collects (g.Replies d defs (s.get a.name)) a.type (some v)
        (s.get a.name) u ∧ ∀ path, (t.get a.name).Keeps path ↔ u.Keeps path := by
    intro a ha hselects v hv q hq
    obtain ⟨-, w, u, hw, hu, hget⟩ := h.narrows hd ha (h.selects a ha hselects v hv)
    rw [hv] at hw
    cases hw
    refine ⟨u, hu.collects hq.refers, fun path => ?_⟩
    rw [hget, Selector.keeps_normalize hu.wellFormed]
  refine ⟨h.wellFormed, ?_, ?_, ?_, ?_⟩
  · obtain ⟨fields, rfl⟩ := h.only
    exact hsome.symm
  · intro path hpath hkeeps
    cases hpath with
    | here ha hv => exact h.selects _ ha hkeeps _ hv
    | @within _ q a v path ha hv hq hnested hinside =>
      have hselects : s.Selects a.name := Selector.Keeps.isNone (s := s.get a.name) hkeeps
      obtain ⟨u, hu, hget⟩ := hkept a ha hselects v hv q hq
      obtain ⟨x, hx, hle⟩ := hu.keeps v rfl q hq
      exact (hget path).2 (hle path ((hx.of_nested hnested).shown path hinside hkeeps))
  · intro path hpath hkeeps
    cases hpath with
    | here ha => exact (h.narrows hd ha hkeeps).1
    | @within _ a name path ha hname hnested hinside =>
      obtain ⟨hselects, v, u, hv, hu, hget⟩ :=
        h.narrows hd ha (Selector.Keeps.isNone (s := t.get a.name) hkeeps)
      rw [Selector.keeps_cons, hget, Selector.keeps_normalize hu.wellFormed] at hkeeps
      rcases (hu.collects (by simp [hname])).kept path hkeeps with
        ⟨_, q, x, ⟨⟩, hq, hx, hkeeps⟩ | ⟨hkeeps, -⟩
      · have hclass := (hregular a ha hselects v hv).alike q hq name hname
        rw [← hclass] at hnested hinside
        exact (hx.of_nested hnested).declared path hinside hkeeps
      · exact hkeeps
  · intro a ha hselects v hv q hq hreferenceable path
    obtain ⟨u, hu, hget⟩ := hkept a ha hselects v hv q hq
    have hall := hregular a ha hselects v hv
    obtain ⟨name, hname⟩ := Option.ne_none_iff_exists'.1 hq.refers
    rw [hget]
    constructor
    · intro hkeeps
      rcases hu.kept path hkeeps with ⟨_, q', x, ⟨⟩, hq', hx, hkeeps⟩ | ⟨-, hgap⟩
      · have hsame : d.definition q'.cls = d.definition q.cls :=
          (hall.alike q' hq' name hname).trans (hall.alike q hq name hname).symm
        rw [hx.of_referenceable (by rw [hsame, hreferenceable]), hsame] at hkeeps
        exact hkeeps
      · exact absurd (hall.filled q hq hreferenceable) (hgap v rfl)
    · intro hkeeps
      obtain ⟨x, hx, hle⟩ := hu.keeps v rfl q hq
      rw [hx.of_referenceable hreferenceable] at hle
      exact hle path hkeeps

end Taken

end Graph

/-! ### Resolving -/

namespace Record

section

variable {d : Directory} {defs : String → Definition} {g₀ : Graph} {I : Set RecordRef → Graph → Prop}
  {known : Set RecordRef} {e : Error} {onRecord : RecordRef → Selector → Action Selector}
  {s : Selector}

/-- What does not refer to records is selected entirely. -/
theorem narrow_whole {t : ValueType} (ht : t.recordClass? = none) (hsome : s.isNone = false)
    (v : Option Value) :
    FailsIff e False I known (t.narrow Selector.merge onRecord s v) fun _ u => u = .all := by
  induction t generalizing known v with
  | scalar kind traits =>
    simp only [ValueType.narrow, hsome]
    exact .pure fun _ _ => rfl
  | array item traits ih =>
    simp only [ValueType.narrow, hsome, Bool.false_eq_true, if_false]
    split
    · next first rest =>
      refine (ih ht (some first)).bind_of_never fun u after hafter hu => ?_
      have hstep : ∀ (_ : List Value) w w', w = w' → ∀ acc, acc = Selector.all → FailsIff e False I after
          (do pure (acc.merge (← item.narrow Selector.merge onRecord s (some w')))) fun _ acc =>
            acc = .all := by
        rintro - w _ rfl _ rfl
        exact (ih ht (some w)).bind_of_never fun u _ _ _ => .pure fun _ _ => rfl
      have hall := FailsIff.foldlM_tracks (P := fun (_ : List Value) acc => acc = Selector.all)
        (List.forall₂_same.2 fun w (_ : w ∈ rest) => Eq.refl w) hstep [] hu
      exact hall.congr (by simp)
    · exact ih ht none
  | reference name toClass traits =>
    cases toClass with
    | true =>
      simp only [ValueType.narrow, hsome]
      exact .pure fun _ _ => rfl
    | false => cases ht

/-- An attribute is narrowed to what the records answer that are entered. -/
theorem narrowAttribute_taken {r r' : RecordRef} {R : Set RecordRef → RecordRef → RecordRef → Prop}
    {attributes : List Attribute} {acc : Selector} {a : Attribute} (hs : s.WellFormed)
    (hacc : g₀.Taken d defs r s attributes acc)
    (hread : FailsIff e False I known (lift (r'.value? a.name)) fun after v =>
      Option.Rel (Value.Reforked (R after)) (g₀.seen? r a.name) v)
    (hinner : s.Selects a.name → ∀ v, g₀.seen? r a.name = some v → ∀ q, a.type.Enters v q →
      ∀ after, known ⊆ after → ∀ q', R after q q' → FailsIff e False I after
        (onRecord q' (s.get a.name)) fun _ x => g₀.Replies d defs (s.get a.name) q x) :
    FailsIff e False I known (narrowAttribute validated onRecord r' s acc a) fun _ acc =>
      g₀.Taken d defs r s (attributes ++ [a]) acc := by
  cases hsome : (s.get a.name).isNone with
  | true =>
    simp only [narrowAttribute, hsome, if_true]
    refine .pure fun _ _ => hacc.pass a fun hselects => ?_
    rw [Selector.Selects, hsome] at hselects
    cases hselects
  | false =>
    simp only [narrowAttribute, hsome, Bool.false_eq_true, if_false]
    refine hread.bind_of_never fun v after hafter hv => ?_
    cases hold : g₀.seen? r a.name with
    | none =>
      rw [hold] at hv
      cases hv
      exact .pure fun _ _ => hacc.pass a fun _ => hold
    | some w =>
      have hset : v.isNone = false := by
        rw [hold] at hv
        cases hv
        rfl
      have hanswers : ∀ q x, g₀.Replies d defs (s.get a.name) q x → x.WellFormed ∧ x.isNone = false :=
        fun q x hx => ⟨hx.wellFormed, hx.isNone hsome⟩
      have hnarrow : FailsIff e False I after
          (a.type.narrow Selector.merge onRecord (s.get a.name) v)
          fun _ u => g₀.Narrows d defs a w (s.get a.name) u := by
        cases hrefers : a.type.recordClass? with
        | none =>
          refine (narrow_whole hrefers hsome v).imp fun _ _ u hu => ?_
          subst hu
          exact ⟨rfl, Selector.wellFormed_all, fun hne => absurd hrefers hne⟩
        | some name =>
          refine (narrow_collects (hs.get a.name) hsome hanswers (by simp [hrefers]) (hold ▸ hv)
            ?_).imp fun _ _ u hu => ⟨hu.isNone, hu.wellFormed, fun _ => hu⟩
          rintro _ ⟨⟩ q hq q' hq'
          exact hinner hsome w hold q hq after hafter q' hq'
      rw [hset]
      simp only [validated, Bool.and_false, Bool.false_eq_true, if_false]
      exact hnarrow.bind_of_never fun u _ _ hu => .pure fun _ _ => hacc.set hsome hold hu

end

variable {d : Directory} {defs : String → Definition} {g₀ : Graph} {known₀ known : Set RecordRef}
  {marked visiting : List RecordRef} {r r' : RecordRef} {s : Selector} {depth steps : Nat}

theorem resolveInner_replies {I : Set RecordRef → Graph → Prop} {e : Error} (hr : r'.cls = r.cls)
    (h : (d.definition r.cls).referenceable = false →
      FailsIff e False I known (resolveWithin d validated steps r' s) fun _ t =>
        g₀.Agrees d defs r s t) :
    FailsIff e False I known (resolveInner d validated steps r' s) fun _ t =>
      g₀.Replies d defs s r t := by
  unfold resolveInner Graph.Replies
  rw [hr]
  cases hreferenceable : (d.definition r.cls).referenceable with
  | true => exact .pure fun _ _ => rfl
  | false => exact h hreferenceable

/-- What a selector is resolved to agrees with it, if what it selects is shallow. -/
theorem resolveWithin_agrees (hd : d.Lawful) (hg₀ : g₀.Sound known₀) (hsteps : depth ≤ steps)
    (hs : s.IsNormal) (hwell : s.WellFormed) (hshallow : g₀.Shallow d defs depth visiting r s)
    (hr : Stands g₀ known₀ known r r')
    (hmarked : ∀ w' ∈ marked, ∃ w ∈ visiting, Stands g₀ known₀ known w w') :
    FailsIff .unending False (Traversed g₀ known₀ marked) known (resolveWithin d validated steps r' s)
      fun _ t => g₀.Agrees d defs r s t := by
  induction depth generalizing known marked visiting r r' s steps with
  | zero => exact hshallow.elim
  | succ depth ih =>
    obtain ⟨steps, rfl⟩ : ∃ n, steps = n + 1 := ⟨steps - 1, by omega⟩
    have hunmarked : r' ∉ marked := fun hmem => by
      obtain ⟨w, hw, hstands⟩ := hmarked r' hmem
      have hsame := hstands.descends.eq_of_descends hr.descends (hg₀.bounded w hstands.before)
        (hg₀.bounded r hr.before)
      exact hshallow.1 (hsame ▸ hw)
    have hknown : ∀ w' ∈ marked, w' ∈ known := fun w' hw' => by
      obtain ⟨w, -, hstands⟩ := hmarked w' hw'
      exact hstands.known
    have hattribute : ∀ attributes a a', a = a' ∧ a' ∈ d.attributes r.cls → ∀ acc,
        g₀.Taken d defs r s attributes acc →
        FailsIff .unending False (Traversed g₀ known₀ (r' :: marked)) known
          (narrowAttribute validated (resolveInner d validated steps) r' s acc a') fun _ acc =>
            g₀.Taken d defs r s (attributes ++ [a]) acc := by
      rintro attributes a _ ⟨rfl, ha⟩ acc hacc
      refine narrowAttribute_taken (R := fun after q q' => Stands g₀ known₀ after q q') hwell hacc
        ((reads hr a.name).imp fun _ _ _ h => h.forked) ?_
      intro hselects v hv q hq after hafter q' hq'
      refine resolveInner_replies hq'.descends.cls fun hnested => ?_
      refine ih (by omega) (hs.get a.name) (hwell.get a.name)
        ((hshallow.2 a ha hselects v hv).2 q hq hnested) hq' ?_
      intro w' hw'
      rcases List.mem_cons.1 hw' with rfl | hw'
      · exact ⟨r, List.mem_cons_self, hr.mono hafter⟩
      · obtain ⟨w, hw, hstands⟩ := hmarked w' hw'
        exact ⟨w, List.mem_cons_of_mem _ hw, hstands.mono hafter⟩
    have hfold := FailsIff.foldlM_tracks (P := g₀.Taken d defs r s) (E := fun _ => False)
      (List.forall₂_same.2 fun a (ha : a ∈ d.attributes r.cls) => ⟨rfl, ha⟩) hattribute [] .nil
    intro before hbefore g hg
    cases hsome : s.isNone with
    | true =>
      refine .inr ⟨id, s, g, before, ?_, subset_rfl, hg, .self hwell hsome⟩
      simp only [resolveWithin, hs.normalize_eq, hsome, if_true]
      rfl
    | false =>
      have hresolving := hg.isResolving_iff (fun w hw => hbefore (hknown w hw)) (hbefore hr.known)
      rw [resolveWithin_of_unmarked hs hsome (Bool.eq_false_iff.2 (hresolving.not.2 hunmarked)),
        hr.descends.cls]
      refine (((marked_failsIff hr.known hknown hunmarked hfold).imp fun _ _ t ht => ?_).congr
        (by simp)) before hbefore g hg
      exact Graph.Taken.agrees ht hd hsome fun a ha hselects v hv => (hshallow.2 a ha hselects v hv).1

theorem resolve_agrees (hd : d.Lawful) (hg₀ : g₀.Sound known₀) (hdepth : depth ≤ g₀.cells.size + 1)
    (hwell : s.WellFormed) (hshallow : g₀.Shallow d defs depth [] r s)
    (hr : Stands g₀ known₀ known r r') :
    FailsIff .unending False (Traversed g₀ known₀ []) known (resolve d validated r' s) fun _ t =>
      g₀.Agrees d defs r s t := by
  intro before hbefore g hg
  have hsteps : depth ≤ g.cells.size + s.depth + 2 := by
    have hsize := hg.1.size
    omega
  have hresolved : FailsIff .unending False (Traversed g₀ known₀ []) known
      (resolveWithin d validated (g.cells.size + s.depth + 2) r' s) fun _ t =>
        g₀.Agrees d defs r s t := by
    rw [← resolveWithin_normalize]
    exact (resolveWithin_agrees hd hg₀ hsteps (Selector.isNormal_normalize s) hwell.normalize
      (hshallow.normalize hwell) hr (by simp)).imp fun _ _ t ht => .of_normalize hwell ht
  rw [resolve, Stateful.bind_of_ok (stepsFor_eq s g)]
  exact hresolved before hbefore g hg

end Record

end TypedRecords
