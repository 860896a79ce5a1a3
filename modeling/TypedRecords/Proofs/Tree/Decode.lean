import TypedRecords.Tree.Decode
import TypedRecords.Proofs.Record.Graph
import TypedRecords.Proofs.Results
import TypedRecords.Proofs.Value.WellFormed

/-! # Decoding step by step

Decoding makes new records and assigns to them. It changes no record that was there before but the
one to which a tree is applied.
-/

namespace TypedRecords

theorem Directory.find_eq_ok_iff {d : Directory} {registry : RegistryRef} {name : String} {c : ClassRef} :
    d.find registry name = .ok c ↔ d.find? registry name = some c := by
  unfold Directory.find
  cases d.find? registry name with
  | none => exact iff_of_false nofun nofun
  | some other => exact (Except.ok.injEq other c).to_iff.trans (Option.some.injEq other c).to_iff.symm

namespace Record

open TypedRecords.Graph (Leaves)
open Stateful (Keeps)

variable {d : Directory} {registry : RegistryRef} {source : Source} {kept : Nat → Prop}
  {g₀ g g' : Graph} {r : RecordRef}

/-! ### Steps -/

theorem ofExcept_eq_ok {α : Type} {x : Except Error α} {a : α}
    (h : ofExcept x g = (.ok a, g')) : x = .ok a ∧ g' = g := by
  cases x with
  | error e => cases h
  | ok b =>
    cases h
    exact ⟨rfl, rfl⟩

theorem ofExcept_of_ok {α : Type} {x : Except Error α} {a : α} (h : x = .ok a) (g : Graph) :
    ofExcept x g = (.ok a, g) := by
  rw [h]
  rfl

theorem attributeNamed_eq_ok {c : ClassRef} {name : String} {a : Attribute}
    (h : d.attributeNamed c name = .ok a) : (d.definition c).attribute? name = some a := by
  unfold Directory.attributeNamed at h
  split at h
  · next b hb =>
    cases h
    exact hb
  · cases h

theorem attributeNamed_of_some {c : ClassRef} {name : String} {a : Attribute}
    (h : (d.definition c).attribute? name = some a) : d.attributeNamed c name = .ok a := by
  rw [Directory.attributeNamed, h]
  rfl

theorem setFrom_eq_ok {name : String} {v : Value} (h : setFrom d source r name v g = (.ok (), g')) :
    (∃ a, (d.definition r.cls).attribute? name = some a ∧
      a.type.check (d.site r.cls name) v = .ok ()) ∧ g' = g.write r name (some ⟨v, source⟩) := by
  obtain ⟨_, g₁, hcheck, hwrite⟩ := Stateful.bind_eq_ok h
  obtain ⟨a, g₂, hread, hrest⟩ := Stateful.bind_eq_ok hcheck
  obtain ⟨hnamed, rfl⟩ := ofExcept_eq_ok hread
  obtain ⟨hchecked, rfl⟩ := ofExcept_eq_ok hrest
  cases hwrite
  exact ⟨⟨a, attributeNamed_eq_ok hnamed, hchecked⟩, rfl⟩

theorem setFrom_of_check {name : String} {v : Value} {a : Attribute}
    (ha : (d.definition r.cls).attribute? name = some a)
    (hcheck : a.type.check (d.site r.cls name) v = .ok ()) (g : Graph) :
    setFrom d source r name v g = (.ok (), g.write r name (some ⟨v, source⟩)) := by
  have hchecked : check d r name v g = (.ok (), g) := by
    unfold check
    rw [Stateful.bind_of_ok (ofExcept_of_ok (attributeNamed_of_some ha) g),
      ofExcept_of_ok hcheck]
  unfold setFrom
  rw [Stateful.bind_of_ok hchecked]
  rfl

/-! ### What decoding leaves -/

theorem keeps_ofExcept {α : Type} {I : Graph → Prop} (x : Except Error α) :
    Keeps I (ofExcept x) fun a => x = .ok a := by
  cases x with
  | error e => exact .throw e
  | ok a => exact .pure rfl

theorem keeps_instantiate (c : ClassRef) (isNew : Bool) :
    Keeps (Leaves kept g₀) (instantiate c isNew) fun r => g₀.cells.size ≤ r.serial := by
  intro g hg
  refine ⟨hg.instantiate c isNew, ?_⟩
  rintro r hr
  cases hr
  exact hg.size

theorem keeps_write (hr : g₀.cells.size ≤ r.serial ∨ ¬kept r.serial) (name : String) (v : Value) :
    Keeps (Leaves kept g₀) (write r name v source) fun _ => True :=
  fun _ hg => ⟨hg.modify hr _, fun _ _ => trivial⟩

theorem keeps_setFrom (hr : g₀.cells.size ≤ r.serial ∨ ¬kept r.serial) (name : String) (v : Value) :
    Keeps (Leaves kept g₀) (setFrom d source r name v) fun _ => True := by
  have hcheck : Keeps (Leaves kept g₀) (check d r name v) fun _ => True :=
    (keeps_ofExcept _).bind fun a _ => (keeps_ofExcept _).imp fun _ _ => trivial
  exact hcheck.bind fun _ _ => keeps_write hr name v

theorem keeps_decodeAttributes_of (hr : g₀.cells.size ≤ r.serial ∨ ¬kept r.serial)
    {fields : Object} (ih : ∀ entry ∈ fields,
      Keeps (Leaves kept g₀) (decode d registry source entry.2) fun _ => True) :
    Keeps (Leaves kept g₀) (decodeAttributes d registry source r fields) fun _ => True := by
  induction fields with
  | nil => exact .pure trivial
  | cons entry rest ihRest =>
    obtain ⟨name, t⟩ := entry
    obtain ⟨ht, hrest⟩ := List.forall_mem_cons.1 ih
    simp only [decodeAttributes]
    split
    · exact ihRest hrest
    · exact (keeps_ofExcept _).bind fun _ _ => ht.bind fun v _ =>
        (keeps_setFrom hr name v).bind fun _ _ => ihRest hrest

/-- Decoding a tree changes none of the cells that were there. -/
theorem keeps_decode (t : Value) :
    Keeps (Leaves kept g₀) (decode d registry source t) fun _ => True := by
  induction t using Value.induction with
  | array items ih =>
    have hitems : Keeps (Leaves kept g₀) (decodeItems d registry source items) fun _ => True := by
      induction items with
      | nil => exact .pure trivial
      | cons t rest ihRest =>
        obtain ⟨ht, hrest⟩ := List.forall_mem_cons.1 ih
        exact ht.bind fun _ _ => (ihRest hrest).bind fun _ _ => .pure trivial
    exact hitems.bind fun _ _ => .pure trivial
  | object fields ih =>
    simp only [decode]
    split
    · split
      · exact (keeps_ofExcept _).bind fun _ _ => .pure trivial
      · refine (keeps_ofExcept _).bind fun c _ => (keeps_instantiate c _).bind fun r hr => ?_
        exact (keeps_decodeAttributes_of (.inl hr) ih).bind fun _ _ => .pure trivial
    · exact .throw _
    · next huntagged =>
      clear huntagged
      have hfields : Keeps (Leaves kept g₀) (decodeFields d registry source fields)
          fun _ => True := by
        induction fields with
        | nil => exact .pure trivial
        | cons entry rest ihRest =>
          obtain ⟨ht, hrest⟩ := List.forall_mem_cons.1 ih
          exact ht.bind fun _ _ => (ihRest hrest).bind fun _ _ => .pure trivial
      exact hfields.bind fun _ _ => .pure trivial
  | other t harray hobject =>
    cases t with
    | array items => cases harray
    | object fields => cases hobject
    | _ => exact .pure trivial

theorem keeps_decodeAttributes (hr : g₀.cells.size ≤ r.serial ∨ ¬kept r.serial) (fields : Object) :
    Keeps (Leaves kept g₀) (decodeAttributes d registry source r fields) fun _ => True :=
  keeps_decodeAttributes_of hr fun entry _ => keeps_decode entry.2

theorem keeps_mark (hr : g₀.cells.size ≤ r.serial ∨ ¬kept r.serial) (isNew : Bool) :
    Keeps (Leaves kept g₀) (mark r isNew) fun _ => True :=
  fun _ hg => ⟨hg.modify hr _, fun _ _ => trivial⟩

theorem keeps_decodeInto (hr : g₀.cells.size ≤ r.serial ∨ ¬kept r.serial) (t : Value) :
    Keeps (Leaves kept g₀) (decodeInto d registry source r t) fun _ => True := by
  cases t with
  | object fields =>
    have hdecoded : Keeps (Leaves kept g₀) (decodeAttributes d registry source r fields) fun _ => True :=
      keeps_decodeAttributes hr fields
    have hmarked : ∀ isNew : Bool, Keeps (Leaves kept g₀)
        (mark r isNew >>= fun _ => decodeAttributes d registry source r fields) fun _ => True :=
      fun isNew => (keeps_mark hr isNew).bind fun _ _ => hdecoded
    simp only [decodeInto]
    split
    · split
      · split
        · exact hmarked _
        · exact hdecoded
      · exact .throw _
    · exact .throw _
    · split
      · exact hmarked _
      · exact hdecoded
  | _ => exact .throw _

/-- A value that a tree was decoded to somewhere between two graphs. -/
def DecodedBetween (d : Directory) (registry : RegistryRef) (source : Source) (kept : Nat → Prop)
    (g g' : Graph) (t v : Value) : Prop :=
  ∃ g₁ g₂, Leaves kept g g₁ ∧ decode d registry source t g₁ = (.ok v, g₂) ∧ Leaves kept g₂ g'

theorem DecodedBetween.after {t v : Value} (h : DecodedBetween d registry source kept g g' t v)
    (hbefore : Leaves kept g₀ g) : DecodedBetween d registry source kept g₀ g' t v := by
  obtain ⟨g₁, g₂, hstart, hdecode, hend⟩ := h
  exact ⟨g₁, g₂, hbefore.trans hstart, hdecode, hend⟩

theorem decode_leaves {t v : Value} (h : decode d registry source t g = (.ok v, g')) :
    Leaves (fun _ => True) g g' :=
  (keeps_decode t).of_run (.refl _ g) h

/-- What keeps all new cells keeps those that were made for one value. -/
theorem DecodedBetween.later {kept' : Nat → Prop} {t v : Value} {g₁ g₂ : Graph}
    (h : DecodedBetween d registry source kept g₁ g₂ t v) (hlater : Leaves kept' g₂ g')
    (hkept : ∀ n, g₁.cells.size ≤ n → kept n ∧ kept' n) :
    ∃ ga gb, decode d registry source t ga = (.ok v, gb) ∧ Leaves (ga.cells.size ≤ ·) gb g' := by
  obtain ⟨ga, gb, hstart, hdecode, hend⟩ := h
  have hnew : ∀ n, ga.cells.size ≤ n → kept n ∧ kept' n := fun n hn => hkept n (hstart.size.trans hn)
  exact ⟨ga, gb, hdecode, (hend.imp fun n hn => (hnew n hn).1).trans
    (hlater.imp fun n hn => (hnew n hn).2)⟩

/-! ### Parts of trees -/

theorem decodeItems_eq_ok {items vs : List Value}
    (h : decodeItems d registry source items g = (.ok vs, g')) :
    List.Forall₂ (DecodedBetween d registry source (fun _ => True) g g') items vs ∧
      Leaves (fun _ => True) g g' := by
  induction items generalizing g vs with
  | nil =>
    cases h
    exact ⟨.nil, .refl _ _⟩
  | cons t rest ih =>
    obtain ⟨v, g₁, hv, hrest⟩ := Stateful.bind_eq_ok h
    obtain ⟨vs', g₂, hvs, hpure⟩ := Stateful.bind_eq_ok hrest
    cases hpure
    have hleaves := decode_leaves hv
    obtain ⟨hitems, hleaves'⟩ := ih hvs
    refine ⟨.cons ⟨g, g₁, .refl _ g, hv, hleaves'⟩ (hitems.imp ?_), hleaves.trans hleaves'⟩
    exact fun _ _ hbetween => hbetween.after hleaves

theorem decodeFields_eq_ok {fields vs : Object}
    (h : decodeFields d registry source fields g = (.ok vs, g')) :
    Fields.Related (DecodedBetween d registry source (fun _ => True) g g') fields vs ∧
      Leaves (fun _ => True) g g' := by
  induction fields generalizing g vs with
  | nil =>
    cases h
    exact ⟨.nil, .refl _ _⟩
  | cons entry rest ih =>
    obtain ⟨name, t⟩ := entry
    obtain ⟨v, g₁, hv, hrest⟩ := Stateful.bind_eq_ok h
    obtain ⟨vs', g₂, hvs, hpure⟩ := Stateful.bind_eq_ok hrest
    cases hpure
    have hleaves := decode_leaves hv
    obtain ⟨hrelated, hleaves'⟩ := ih hvs
    refine ⟨.cons ⟨rfl, g, g₁, .refl _ g, hv, hleaves'⟩ (hrelated.imp ?_), hleaves.trans hleaves'⟩
    rintro a b ⟨hname, hbetween⟩
    exact ⟨hname, hbetween.after hleaves⟩

theorem decodeAttributes_tag {name : String} (h : name = Tree.classTag ∨ name = Tree.newTag)
    (t : Value) (rest : Object) :
    decodeAttributes d registry source r ((name, t) :: rest) =
      decodeAttributes d registry source r rest := by
  rcases h with rfl | rfl <;> rfl

theorem decodeAttributes_cons_eq_ok {name : String} (hclass : name ≠ Tree.classTag)
    (hnew : name ≠ Tree.newTag) {t : Value} {rest : Object}
    (h : decodeAttributes d registry source r ((name, t) :: rest) g = (.ok (), g')) :
    ∃ a v g₁, (d.definition r.cls).attribute? name = some a ∧
      decode d registry source t g = (.ok v, g₁) ∧
      a.type.check (d.site r.cls name) v = .ok () ∧
      decodeAttributes d registry source r rest (g₁.write r name (some ⟨v, source⟩)) =
        (.ok (), g') := by
  simp only [decodeAttributes, hclass, hnew, decide_false, Bool.or_self, Bool.false_eq_true,
    if_false] at h
  obtain ⟨_, g₁, hread, hrest⟩ := Stateful.bind_eq_ok h
  obtain ⟨-, rfl⟩ := ofExcept_eq_ok hread
  obtain ⟨v, g₂, hv, hlater⟩ := Stateful.bind_eq_ok hrest
  obtain ⟨_, g₃, hset, hrest'⟩ := Stateful.bind_eq_ok hlater
  obtain ⟨⟨a, ha, hcheck⟩, rfl⟩ := setFrom_eq_ok hset
  exact ⟨a, v, g₂, ha, hv, hcheck, hrest'⟩

theorem decodeAttributes_cons_of_check {name : String} (hclass : name ≠ Tree.classTag)
    (hnew : name ≠ Tree.newTag) {t v : Value} (rest : Object) {a : Attribute} {g₁ : Graph}
    (ha : (d.definition r.cls).attribute? name = some a)
    (hv : decode d registry source t g = (.ok v, g₁))
    (hcheck : a.type.check (d.site r.cls name) v = .ok ()) :
    decodeAttributes d registry source r ((name, t) :: rest) g =
      decodeAttributes d registry source r rest (g₁.write r name (some ⟨v, source⟩)) := by
  simp only [decodeAttributes, hclass, hnew, decide_false, Bool.or_self, Bool.false_eq_true,
    if_false]
  rw [Stateful.bind_of_ok (ofExcept_of_ok (attributeNamed_of_some ha) g), Stateful.bind_of_ok hv,
    Stateful.bind_of_ok (setFrom_of_check ha hcheck g₁)]

/-! ### Kinds of objects -/

theorem decode_untagged_eq_ok {fields : Object}
    (huntagged : Fields.get? Tree.classTag fields = none) {v : Value}
    (h : decode d registry source (.object fields) g = (.ok v, g')) :
    ∃ vs, v = .object vs ∧ decodeFields d registry source fields g = (.ok vs, g') := by
  simp only [decode, huntagged] at h
  obtain ⟨vs, g₁, hvs, hpure⟩ := Stateful.bind_eq_ok h
  cases hpure
  exact ⟨vs, rfl, hvs⟩

/-- What a tagged tree is decoded to: a class, or a new record. -/
theorem decode_tagged_eq_ok {fields : Object} {tag v : Value}
    (htag : Fields.get? Tree.classTag fields = some tag)
    (h : decode d registry source (.object fields) g = (.ok v, g')) :
    (∃ c text name, tag = .string text ∧ Tree.classNamed? text = some name ∧
        d.find? registry name = some c ∧ v = .classRef c ∧ g' = g) ∨
      ∃ c name, tag = .string name ∧ Tree.classNamed? name = none ∧ d.find? registry name = some c ∧
        v = .record (g.instantiate c (Tree.isMarkedNew fields)).1 ∧
        decodeAttributes d registry source (g.instantiate c (Tree.isMarkedNew fields)).1 fields
          (g.instantiate c (Tree.isMarkedNew fields)).2 = (.ok (), g') := by
  have hfind : ∀ {name : String} {c : ClassRef} {g' : Graph},
      ofExcept (d.find registry name) g = (.ok c, g') → d.find? registry name = some c ∧ g' = g := by
    intro name c g' hfind
    obtain ⟨hfound, rfl⟩ := ofExcept_eq_ok hfind
    exact ⟨Directory.find_eq_ok_iff.1 hfound, rfl⟩
  cases tag with
  | string name =>
    simp only [decode, htag] at h
    cases hclass : Tree.classNamed? name with
    | some other =>
      rw [hclass] at h
      obtain ⟨c, g₁, hc, hpure⟩ := Stateful.bind_eq_ok h
      obtain ⟨hfound, rfl⟩ := hfind hc
      cases hpure
      exact .inl ⟨c, name, other, rfl, hclass, hfound, rfl, rfl⟩
    | none =>
      rw [hclass] at h
      obtain ⟨c, g₁, hc, h₁⟩ := Stateful.bind_eq_ok h
      obtain ⟨hfound, rfl⟩ := hfind hc
      obtain ⟨r, g₂, hmake, h₂⟩ := Stateful.bind_eq_ok h₁
      cases hmake
      obtain ⟨_, g₃, hattributes, hpure⟩ := Stateful.bind_eq_ok h₂
      cases hpure
      exact .inr ⟨c, name, rfl, hclass, hfound, rfl, hattributes⟩
  | _ =>
    simp only [decode, htag] at h
    cases h

theorem decode_class {fields : Object} {text name : String} {c : ClassRef}
    (htag : Fields.get? Tree.classTag fields = some (.string text))
    (hname : Tree.classNamed? text = some name) (hfound : d.find? registry name = some c) (g : Graph) :
    decode d registry source (.object fields) g = (.ok (.classRef c), g) := by
  simp only [decode, htag, hname]
  rw [Stateful.bind_of_ok (ofExcept_of_ok (Directory.find_eq_ok_iff.2 hfound) g)]
  rfl

theorem decode_classRef {fields : Object} {c : ClassRef}
    (htag : Fields.get? Tree.classTag fields = some (.string (Tree.classPhrase ++ c.name)))
    (hfound : d.find? registry c.name = some c) (g : Graph) :
    decode d registry source (.object fields) g = (.ok (.classRef c), g) :=
  decode_class htag (Tree.classNamed?_classPhrase c.name) hfound g

theorem decode_record {fields : Object} {name : String} {c : ClassRef}
    (htag : Fields.get? Tree.classTag fields = some (.string name))
    (hname : Tree.classNamed? name = none) (hfound : d.find? registry name = some c) (g : Graph) :
    decode d registry source (.object fields) g =
      (do
        decodeAttributes d registry source (g.instantiate c (Tree.isMarkedNew fields)).1 fields
        pure (.record (g.instantiate c (Tree.isMarkedNew fields)).1) : Action Value)
        (g.instantiate c (Tree.isMarkedNew fields)).2 := by
  simp only [decode, htag, hname]
  rw [Stateful.bind_of_ok (ofExcept_of_ok (Directory.find_eq_ok_iff.2 hfound) g)]
  rfl

end Record

/-! ### Trees for a record -/

/-- The graph after a tree has said whether a record is new, if it says so. -/
def Graph.marked (g : Graph) (r : RecordRef) (fields : Object) : Graph :=
  match Fields.get? Tree.newTag fields with
  | some (.boolean isNew) => g.mark r isNew
  | _ => g

theorem Graph.size_marked (g : Graph) (r : RecordRef) (fields : Object) :
    (g.marked r fields).cells.size = g.cells.size := by
  unfold marked
  split
  · exact size_modify g r _
  · rfl

namespace Record

variable {d : Directory} {registry : RegistryRef} {source : Source} {g g' : Graph} {r : RecordRef}
  {fields : Object}

theorem decodeInto_of_tag
    (htag : ∀ tag, Fields.get? Tree.classTag fields = some tag → tag = .string r.className) :
    decodeInto d registry source r (.object fields) g =
      decodeAttributes d registry source r fields (g.marked r fields) := by
  simp only [decodeInto, Graph.marked]
  generalize Fields.get? Tree.newTag fields = isNew
  cases hget : Fields.get? Tree.classTag fields with
  | none =>
    cases isNew with
    | none => rfl
    | some v => cases v <;> rfl
  | some tag =>
    obtain rfl := htag tag hget
    simp only [if_true]
    cases isNew with
    | none => rfl
    | some v => cases v <;> rfl

theorem decodeInto_eq_ok_iff : decodeInto d registry source r (.object fields) g = (.ok (), g') ↔
    (∀ tag, Fields.get? Tree.classTag fields = some tag → tag = .string r.className) ∧
      decodeAttributes d registry source r fields (g.marked r fields) = (.ok (), g') := by
  refine ⟨fun h => ?_, fun ⟨htag, h⟩ => (decodeInto_of_tag htag).trans h⟩
  have htag : ∀ tag, Fields.get? Tree.classTag fields = some tag → tag = .string r.className := by
    intro tag hget
    simp only [decodeInto, hget] at h
    cases tag with
    | string text =>
      by_cases htext : text = r.className
      · rw [htext]
      · simp only [htext, if_false] at h
        cases h
    | _ => cases h
  exact ⟨htag, (decodeInto_of_tag htag).symm.trans h⟩

end Record

end TypedRecords
