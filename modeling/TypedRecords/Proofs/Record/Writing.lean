import Mathlib.Data.Set.Insert
import TypedRecords.Proofs.Class.Lawful
import TypedRecords.Proofs.Record.Reading
import TypedRecords.Proofs.Tree.Decode
import TypedRecords.Proofs.Types.Check

/-! # Operations that write

Assigning, unsetting, making and decoding records write to known records only, and only values that
attributes accept or that were read from them before. What such writes keep of the graph, all of these
operations keep.
-/

namespace TypedRecords

open Stateful (KeepsIn)

variable {d : Directory} {A : RecordRef → String → Value → Prop} {C : ClassRef → Prop}
  {I : Set RecordRef → Graph → Prop} {known : Set RecordRef}

/-! ### Writes -/

/-- Writing to known records what may stand there keeps what holds of the graph, and so does unsetting,
marking and making records of certain classes. What attributes accept and what is read may stand there. -/
structure AllowsWriting (d : Directory) (A : RecordRef → String → Value → Prop)
    (C : ClassRef → Prop) (I : Set RecordRef → Graph → Prop) : Prop extends AllowsReading I where
  accepted : ∀ r name a v, (d.definition r.cls).attribute? name = some a →
    v = .undefined ∨ a.type.check (d.site r.cls name) v = .ok () → A r name v
  present : ∀ known r name g, r ∈ known → I known g →
    ∀ slot, (r.slot? name g).1 = some slot → A r name slot.value
  write : ∀ known r name v source g, r ∈ known → A r name v → v.Within known → I known g →
    I known (g.write r name (some ⟨v, source⟩))
  unset : ∀ known r name g, r ∈ known → I known g → I known (g.write r name none)
  mark : ∀ known r b g, r ∈ known → I known g → I known (g.mark r b)
  instantiate : ∀ known c isNew g, C c → I known g →
    I (insert (g.instantiate c isNew).1 known) (g.instantiate c isNew).2
  given : ∀ known n g, I known g → I known { g with given := n }

theorem Sanitizer.within_apply (sanitizer : Sanitizer) {v : Value} (hv : v.Within known) :
    (sanitizer.apply v).Within known := by
  cases sanitizer with
  | trim => cases v <;> exact hv
  | compact =>
    cases v with
    | array items =>
      exact Value.within_array.2 fun w hw => Value.within_array.1 hv w (List.mem_of_mem_filter hw)
    | _ => exact hv

theorem ValueType.within_sanitize (t : ValueType) {v : Value} (hv : v.Within known) :
    (t.sanitize v).Within known := by
  have hfinish : ∀ (t : ValueType) {v : Value}, v.Within known →
      (ValueType.sanitize.finish t v).Within known := by
    intro t v hv
    unfold ValueType.sanitize.finish
    generalize t.traits.sanitizers = sanitizers
    induction sanitizers generalizing v with
    | nil => exact hv
    | cons sanitizer rest ih => exact ih (sanitizer.within_apply hv)
  induction t generalizing v with
  | array item traits ih =>
    cases v with
    | array items =>
      refine hfinish _ (Value.within_array.2 fun w hw => ?_)
      obtain ⟨v, hmem, rfl⟩ := List.mem_map.1 hw
      exact ih (Value.within_array.1 hv v hmem)
    | _ => exact hfinish _ hv
  | _ => exact hfinish _ hv

/-- What an identifier accepts is a key or undefined, so it holds no records. -/
theorem ValueType.within_of_canIdentify {t : ValueType} (ht : ClassDeclaration.canIdentify t = true)
    {site : Site} {v : Value} (h : t.check site v = .ok ()) : v.Within known := by
  by_cases hdefined : v = .undefined
  · subst hdefined
    exact fun r hr => by cases hr
  · obtain ⟨s, rfl⟩ | ⟨x, rfl⟩ := isKey_of_check ht h hdefined <;> exact fun r hr => by cases hr

theorem keepsIn_ofExcept {α : Type} (x : Except Error α) :
    KeepsIn I known (Record.ofExcept x) fun _ a => x = .ok a := by
  cases x with
  | error e => exact .throw e
  | ok a => exact .pure fun _ _ => rfl

theorem AllowsReading.keeps_read (hI : AllowsReading I) {r : RecordRef} (hr : r ∈ known)
    (name : String) :
    KeepsIn I known (Record.read d r name) fun after v => v.Within after := by
  refine (keepsIn_ofExcept _).bind fun _ after hafter _ => ?_
  refine (hI.value (hafter hr) name).bind fun v _ _ hv => ?_
  split
  · next v => exact .pure fun _ hlater => (hv v rfl).mono hlater
  · exact .throw _

/-! ### Restating sources -/

/-- Writing to known records what was read from them keeps what holds of the graph. -/
structure AllowsRestating (A : RecordRef → String → Value → Prop) (I : Set RecordRef → Graph → Prop) :
    Prop extends AllowsReading I where
  present : ∀ known r name g, r ∈ known → I known g →
    ∀ slot, (r.slot? name g).1 = some slot → A r name slot.value
  write : ∀ known r name v source g, r ∈ known → A r name v → v.Within known → I known g →
    I known (g.write r name (some ⟨v, source⟩))

theorem AllowsWriting.toAllowsRestating (hI : AllowsWriting d A C I) : AllowsRestating A I :=
  ⟨hI.toAllowsReading, hI.present, hI.write⟩

namespace AllowsRestating

variable (hI : AllowsRestating A I)

include hI

theorem keeps_write {r : RecordRef} (hr : r ∈ known) {name : String} {v : Value}
    (hv : A r name v) (hwithin : v.Within known) (source : Source) :
    KeepsIn I known (Record.write r name v source) fun _ _ => True :=
  fun before hknown g hg => ⟨before, subset_rfl,
    hI.write before r name v source g (hknown hr) hv (hwithin.mono hknown) hg, fun _ _ => trivial⟩

/-- A slot that is read holds what may stand there. -/
theorem keeps_slot {r : RecordRef} (hr : r ∈ known) (name : String) :
    KeepsIn I known (Record.lift (r.slot? name)) fun after slot? =>
      ∀ slot, slot? = some slot → A r name slot.value ∧ slot.value.Within after := by
  intro before hknown g hg
  obtain ⟨after, hafter, hkeeps, hwithin⟩ := hI.slot before r name g (hknown hr) hg
  refine ⟨after, hafter, hkeeps, ?_⟩
  intro found hfound slot hslot
  have hread : (r.slot? name g).1 = some slot := (Except.ok.inj hfound).trans hslot
  exact ⟨hI.present before r name g (hknown hr) hg slot hread, hwithin slot hread⟩

theorem keeps_setSourcesWithin (source : Source) (steps : Nat) {r : RecordRef} (hr : r ∈ known)
    (s : Selector) : KeepsIn I known (Record.setSourcesWithin d source steps r s) fun _ _ => True := by
  induction steps generalizing r s known with
  | zero => exact .throw _
  | succ steps ih =>
    refine .forM fun a _ => ?_
    dsimp only
    split
    · exact .pure fun _ _ => trivial
    · refine (hI.keeps_slot hr a.name).bind fun found after hafter hfound => ?_
      split
      · exact .pure fun _ _ => trivial
      · next slot =>
        obtain ⟨hv, hwithin⟩ := hfound slot rfl
        refine KeepsIn.bind (Q := fun _ _ => True) (.forM fun inner hinner => ?_)
          fun _ later hlater _ => hI.keeps_write (hlater (hafter hr)) hv (hwithin.mono hlater) source
        split
        · exact .pure fun _ _ => trivial
        · exact ih (hwithin inner hinner) _

theorem keeps_setSources (source : Source) {r : RecordRef} (hr : r ∈ known) (s : Selector) :
    KeepsIn I known (Record.setSources d source r s) fun _ _ => True :=
  (keeps_stepsFor s).bind fun steps _ hafter _ => hI.keeps_setSourcesWithin source steps (hafter hr) s

end AllowsRestating

namespace AllowsWriting

variable (hI : AllowsWriting d A C I)

include hI

theorem keeps_write {r : RecordRef} (hr : r ∈ known) {name : String} {v : Value}
    (hv : A r name v) (hwithin : v.Within known) (source : Source) :
    KeepsIn I known (Record.write r name v source) fun _ _ => True :=
  hI.toAllowsRestating.keeps_write hr hv hwithin source

theorem keeps_mark {r : RecordRef} (hr : r ∈ known) (b : Bool) :
    KeepsIn I known (Record.mark r b) fun _ _ => True :=
  fun before hknown g hg => ⟨before, subset_rfl, hI.mark before r b g (hknown hr) hg,
    fun _ _ => trivial⟩

theorem keeps_instantiate {c : ClassRef} (hc : C c) (isNew : Bool) :
    KeepsIn I known (Record.instantiate c isNew) fun after r => r ∈ after ∧ r.cls = c := by
  refine fun before _ g hg => ⟨_, Set.subset_insert _ _, hI.instantiate before c isNew g hc hg, ?_⟩
  rintro r hr
  cases hr
  exact ⟨Set.mem_insert _ _, rfl⟩

/-- A slot that is read holds what may stand there. -/
theorem keeps_slot {r : RecordRef} (hr : r ∈ known) (name : String) :
    KeepsIn I known (Record.lift (r.slot? name)) fun after slot? =>
      ∀ slot, slot? = some slot → A r name slot.value ∧ slot.value.Within after :=
  hI.toAllowsRestating.keeps_slot hr name

/-- A value that is read may stand where it was read. -/
theorem keeps_value {r : RecordRef} (hr : r ∈ known) (name : String) :
    KeepsIn I known (Record.lift (r.value? name)) fun after v =>
      ∀ w, v = some w → A r name w ∧ w.Within after := by
  intro before hknown g hg
  obtain ⟨after, hafter, hkeeps, hslot⟩ := hI.keeps_slot hr name before hknown g hg
  refine ⟨after, hafter, hkeeps, ?_⟩
  rintro v hv w rfl
  have hread : (Record.lift (r.value? name) g).1 = .ok ((r.slot? name g).1.map Slot.value) := rfl
  rw [hread] at hv
  obtain ⟨slot, hsome, rfl⟩ := Option.map_eq_some_iff.1 (Except.ok.inj hv)
  exact hslot (some slot) (congrArg Except.ok hsome) slot rfl

/-! ### Assigning -/

theorem keeps_setFrom_of {r : RecordRef} (hr : r ∈ known) (source : Source) (name : String)
    {v : Value} (hv : ∀ a, (d.definition r.cls).attribute? name = some a →
      a.type.check (d.site r.cls name) v = .ok () → v.Within known) :
    KeepsIn I known (Record.setFrom d source r name v) fun _ _ => True := by
  have hcheck : KeepsIn I known (Record.check d r name v)
      fun _ _ => A r name v ∧ v.Within known := by
    refine (keepsIn_ofExcept _).bind fun a _ _ ha => (keepsIn_ofExcept _).imp fun _ _ _ hok => ?_
    have hnamed := Record.attributeNamed_eq_ok ha
    exact ⟨hI.accepted r name a v hnamed (.inr hok), hv a hnamed hok⟩
  exact hcheck.bind fun _ after hafter haccepted =>
    hI.keeps_write (hafter hr) haccepted.1 (haccepted.2.mono hafter) source

theorem keeps_setFrom {r : RecordRef} (hr : r ∈ known) (source : Source) (name : String)
    {v : Value} (hv : v.Within known) :
    KeepsIn I known (Record.setFrom d source r name v) fun _ _ => True :=
  hI.keeps_setFrom_of hr source name fun _ _ _ => hv

theorem keeps_set {r : RecordRef} (hr : r ∈ known) (name : String) {v : Value}
    (hv : v.Within known) : KeepsIn I known (Record.set d r name v) fun _ _ => True :=
  (keepsIn_ofExcept _).bind fun a _ hafter _ =>
    hI.keeps_setFrom (hafter hr) .here name ((a.type.within_sanitize hv).mono hafter)

/-- Whatever is assigned to an identifier, what is accepted there holds no records. -/
theorem keeps_setIdentifier (hd : d.Lawful) {r : RecordRef} (hr : r ∈ known) {name : String}
    {a : Attribute} (ha : (d.definition r.cls).attribute? name = some a)
    (hidentifier : a.role.isIdentifier = true) (v : Value) :
    KeepsIn I known (Record.set d r name v) fun _ _ => True := by
  refine (keepsIn_ofExcept _).bind fun _ after hafter _ => ?_
  refine hI.keeps_setFrom_of (hafter hr) .here name fun b hb hcheck => ?_
  rw [ha] at hb
  cases hb
  have hkind := (hd.definition r.cls).identifies a (Definition.mem_of_attribute? ha) hidentifier
  exact ValueType.within_of_canIdentify hkind hcheck

theorem keeps_unset {r : RecordRef} (hr : r ∈ known) (name : String) :
    KeepsIn I known (Record.unset d r name) fun _ _ => True := by
  refine (keepsIn_ofExcept _).bind fun a after hafter _ => ?_
  exact fun before hbefore g hg => ⟨before, subset_rfl,
    hI.unset before r name g (hbefore (hafter hr)) hg, fun _ _ => trivial⟩

theorem keeps_setSource {r : RecordRef} (hr : r ∈ known) (name : String) (source : Source) :
    KeepsIn I known (Record.setSource d r name source) fun _ _ => True := by
  refine (keepsIn_ofExcept _).bind fun a after hafter _ => ?_
  refine (hI.keeps_slot (hafter hr) name).bind fun found later hlater hfound => ?_
  split
  · next slot =>
    obtain ⟨hv, hwithin⟩ := hfound slot rfl
    exact hI.keeps_write (hlater (hafter hr)) hv hwithin source
  · exact .throw _

theorem keeps_setSources (source : Source) {r : RecordRef} (hr : r ∈ known) (s : Selector) :
    KeepsIn I known (Record.setSources d source r s) fun _ _ => True :=
  hI.toAllowsRestating.keeps_setSources source hr s

/-! ### Making -/

/-- The values that an attribute of a new record may start with are known. -/
def InitialWithin (known : Set RecordRef) (a : Attribute) : Prop :=
  ∀ v, a.initial = some (.value v) ∨ a.initial = some (.supplied v) → v.Within known

theorem keeps_fillIn {r : RecordRef} (hr : r ∈ known) {values : Object}
    (hvalues : (Value.object values).Within known) {a : Attribute}
    (ha : (d.definition r.cls).attribute? a.name = some a) (hinitial : InitialWithin known a) :
    KeepsIn I known (Record.fillIn d r values a) fun _ _ => True := by
  unfold Record.fillIn
  split
  · next v hv =>
    exact hI.keeps_set hr a.name (Value.within_object.1 hvalues _ (Fields.mem_of_get? hv))
  · next initial _ heq =>
    have hvalue : KeepsIn I known (Record.initialValue initial) fun after v => v.Within after := by
      cases initial with
      | value v => exact .pure fun _ hafter => (hinitial v (.inl heq)).mono hafter
      | supplied v => exact .pure fun _ hafter => (hinitial v (.inr heq)).mono hafter
      | freshIdentifier =>
        refine fun before _ g hg => ⟨before, subset_rfl, hI.given before _ g hg, ?_⟩
        rintro v hv
        cases hv
        exact fun r hr => by cases hr
    exact hvalue.bind fun v after hafter hv => hI.keeps_set (hafter hr) a.name hv
  · exact hI.keeps_write hr (hI.accepted r a.name a _ ha (.inl rfl)) (fun r hr => by cases hr) .here

theorem keeps_create (hd : d.Lawful) {c : ClassRef} (hc : C c) {values : Object}
    (hvalues : (Value.object values).Within known)
    (hinitial : ∀ a ∈ d.attributes c, InitialWithin known a) :
    KeepsIn I known (Record.create d c values) fun after r => r ∈ after := by
  refine (hI.keeps_instantiate hc true).bind fun r after₁ h₁ hr => ?_
  refine KeepsIn.bind (Q := fun _ _ => True) (.forM fun name _ => ?_) fun _ after₂ h₂ _ => ?_
  · exact (keepsIn_ofExcept _).bind fun _ _ _ _ => .pure fun _ _ => trivial
  refine KeepsIn.bind (Q := fun _ _ => True) (.forM fun a ha => ?_)
    fun _ after₃ h₃ _ => .pure fun after hafter => hafter (h₃ (h₂ hr.1))
  refine hI.keeps_fillIn (h₂ hr.1) (hvalues.mono (h₁.trans h₂)) ?_
    fun v hv => (hinitial a ha v hv).mono (h₁.trans h₂)
  rw [hr.2]
  exact (hd.definition c).attribute?_of_mem ha

/-- The identifiers of a record hold no records. -/
theorem keeps_withIdentifiers (hd : d.Lawful) {c : ClassRef} (hc : C c) (identifiers : Object) :
    KeepsIn I known (Record.withIdentifiers d c identifiers) fun after r => r ∈ after := by
  refine (hI.keeps_instantiate hc false).bind fun r after hafter hr => ?_
  refine KeepsIn.bind (Q := fun _ _ => True) (.forM fun entry _ => ?_)
    fun _ later hlater _ => .pure fun last hlast => hlast (hlater hr.1)
  refine (keepsIn_ofExcept _).bind fun a later hlater ha => ?_
  split
  · next hidentifier =>
    exact hI.keeps_setIdentifier hd (hlater hr.1)
      (Record.attributeNamed_eq_ok (hr.2 ▸ ha)) hidentifier _
  · exact .throw _

/-! ### Decoding -/

theorem keeps_decodeAttributes_of {registry : RegistryRef} {source : Source} {r : RecordRef}
    (hr : r ∈ known) {fields : Object}
    (ih : ∀ entry ∈ fields, ∀ known, entry.2.Within known →
      KeepsIn I known (Record.decode d registry source entry.2) fun after v => v.Within after)
    (hfields : ∀ entry ∈ fields, entry.2.Within known) :
    KeepsIn I known (Record.decodeAttributes d registry source r fields) fun _ _ => True := by
  induction fields generalizing known with
  | nil => exact .pure fun _ _ => trivial
  | cons entry rest ihRest =>
    obtain ⟨name, t⟩ := entry
    obtain ⟨hdecode, hdecodeRest⟩ := List.forall_mem_cons.1 ih
    obtain ⟨ht, hrest⟩ := List.forall_mem_cons.1 hfields
    have hlater : ∀ after, known ⊆ after → ∀ entry ∈ rest, entry.2.Within after :=
      fun after hafter entry hentry => (hrest entry hentry).mono hafter
    simp only [Record.decodeAttributes]
    split
    · exact ihRest hr hdecodeRest hrest
    · refine (keepsIn_ofExcept _).bind fun a after₁ h₁ _ => ?_
      refine (hdecode after₁ (ht.mono h₁)).bind fun v after₂ h₂ hv => ?_
      refine (hI.keeps_setFrom (h₂ (h₁ hr)) source name hv).bind fun _ after₃ h₃ _ => ?_
      exact ihRest (h₃ (h₂ (h₁ hr))) hdecodeRest (hlater after₃ ((h₁.trans h₂).trans h₃))

/-- Decoding a tree makes records known, of classes that its registry finds. -/
theorem keeps_decode {registry : RegistryRef} (hC : ∀ name c, d.find? registry name = some c → C c)
    (source : Source) {t : Value} (ht : t.Within known) :
    KeepsIn I known (Record.decode d registry source t) fun after v => v.Within after := by
  have hfind : ∀ known name, KeepsIn I known (Record.ofExcept (d.find registry name))
      fun _ c => C c := by
    intro known name
    exact (keepsIn_ofExcept _).imp fun _ _ c hc => hC name c (Directory.find_eq_ok_iff.1 hc)
  induction t using Value.induction generalizing known with
  | array items ih =>
    have hitems := Value.within_array.1 ht
    clear ht
    have hdecoded : KeepsIn I known (Record.decodeItems d registry source items)
        fun after vs => ∀ v ∈ vs, v.Within after := by
      induction items generalizing known with
      | nil => exact .pure fun _ _ => by simp
      | cons t rest ihRest =>
        obtain ⟨hdecode, hdecodeRest⟩ := List.forall_mem_cons.1 ih
        obtain ⟨ht, hrest⟩ := List.forall_mem_cons.1 hitems
        refine (hdecode ht).bind fun v after hafter hv => ?_
        refine (ihRest hdecodeRest fun t ht => (hrest t ht).mono hafter).bind
          fun vs later hlater hvs => .pure fun last hlast => ?_
        exact List.forall_mem_cons.2
          ⟨hv.mono (hlater.trans hlast), fun v hv => (hvs v hv).mono hlast⟩
    exact hdecoded.bind fun vs _ _ hvs => .pure fun after hafter =>
      Value.within_array.2 fun v hv => (hvs v hv).mono hafter
  | object fields ih =>
    have hfields := Value.within_object.1 ht
    clear ht
    simp only [Record.decode]
    split
    · split
      · refine (hfind _ _).bind fun c _ _ _ => .pure fun after _ => ?_
        intro r hr
        cases hr
      · refine (hfind _ _).bind fun c after hafter hc => ?_
        refine (hI.keeps_instantiate hc _).bind fun r later hlater hr => ?_
        refine (hI.keeps_decodeAttributes_of hr.1 (fun entry hentry known => ih entry hentry)
          fun entry hentry => (hfields entry hentry).mono (hafter.trans hlater)).bind
            fun _ last hlast _ => .pure fun after hafter => ?_
        exact Value.within_record.2 (hafter (hlast hr.1))
    · exact .throw _
    · next huntagged =>
      clear huntagged
      have hdecoded : KeepsIn I known (Record.decodeFields d registry source fields)
          fun after vs => ∀ entry ∈ vs, entry.2.Within after := by
        induction fields generalizing known with
        | nil => exact .pure fun _ _ => by simp
        | cons entry rest ihRest =>
          obtain ⟨hdecode, hdecodeRest⟩ := List.forall_mem_cons.1 ih
          obtain ⟨ht, hrest⟩ := List.forall_mem_cons.1 hfields
          refine (hdecode ht).bind fun v after hafter hv => ?_
          refine (ihRest hdecodeRest fun entry hentry => (hrest entry hentry).mono hafter).bind
            fun vs later hlater hvs => .pure fun last hlast => ?_
          exact List.forall_mem_cons.2
            ⟨hv.mono (hlater.trans hlast), fun entry hentry => (hvs entry hentry).mono hlast⟩
      exact hdecoded.bind fun vs _ _ hvs => .pure fun after hafter =>
        Value.within_object.2 fun entry hentry => (hvs entry hentry).mono hafter
  | other t harray hobject =>
    cases t with
    | array items => cases harray
    | object fields => cases hobject
    | _ => exact .pure fun after hafter => ht.mono hafter

theorem keeps_decodeInto {registry : RegistryRef}
    (hC : ∀ name c, d.find? registry name = some c → C c) (source : Source) {r : RecordRef}
    (hr : r ∈ known) {t : Value} (ht : t.Within known) :
    KeepsIn I known (Record.decodeInto d registry source r t) fun _ _ => True := by
  cases t with
  | object fields =>
    have hdecoded : ∀ after, known ⊆ after → KeepsIn I after
        (Record.decodeAttributes d registry source r fields) fun _ _ => True := by
      intro after hafter
      refine hI.keeps_decodeAttributes_of (hafter hr)
        (fun entry _ known hentry => hI.keeps_decode hC source hentry) ?_
      exact Value.within_object.1 (ht.mono hafter)
    have hmarked : ∀ isNew : Bool, KeepsIn I known
        (Record.mark r isNew >>= fun _ => Record.decodeAttributes d registry source r fields)
          fun _ _ => True := fun isNew =>
      (hI.keeps_mark hr isNew).bind fun _ after hafter _ => hdecoded after hafter
    simp only [Record.decodeInto]
    split
    · split
      · split
        · exact hmarked _
        · exact hdecoded known subset_rfl
      · exact .throw _
    · exact .throw _
    · split
      · exact hmarked _
      · exact hdecoded known subset_rfl
  | _ => exact .throw _

end AllowsWriting

end TypedRecords
