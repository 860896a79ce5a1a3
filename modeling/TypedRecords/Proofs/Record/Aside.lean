import TypedRecords.Proofs.Record.Around
import TypedRecords.Proofs.Record.Encoding
import TypedRecords.Proofs.Selector.Paths
import TypedRecords.Proofs.Document.Untouched

/-! # What a selection leaves aside

The places of a document that belong to attributes which a selector leaves out or which are not set,
at any depth through nested records. What a record is encoded to with the resolved selector leads past
all of them.
-/

namespace TypedRecords

open TypedRecords.Graph (Answers Stands Viewed)
open Stateful (KeepsIn)

/-! ### Well-formed selections -/

theorem narrow_wellFormed {onRecord : RecordRef → Selector → Action Selector}
    (h : ∀ r s g s' g', s.WellFormed → onRecord r s g = (.ok s', g') → s'.WellFormed)
    {t : ValueType} {s s' : Selector} {v : Option Value} {g g' : Graph} (hs : s.WellFormed)
    (hnarrow : t.narrow Selector.merge onRecord s v g = (.ok s', g')) : s'.WellFormed := by
  cases hsome : s.isNone with
  | true =>
    unfold ValueType.narrow at hnarrow
    simp only [hsome, if_true] at hnarrow
    cases hnarrow
    exact Selector.wellFormed_none
  | false =>
  induction t generalizing v g s' g' with
  | scalar kind traits =>
    simp only [ValueType.narrow, hsome] at hnarrow
    cases hnarrow
    exact Selector.wellFormed_all
  | array item traits ih =>
    simp only [ValueType.narrow, hsome, Bool.false_eq_true, if_false] at hnarrow
    split at hnarrow
    · next first rest =>
      obtain ⟨acc, g₁, hfirst, hrest⟩ := Stateful.bind_eq_ok hnarrow
      refine Stateful.foldlM_invariant (P := fun acc _ => acc.WellFormed) ?_ (ih hfirst) hrest
      intro v _ acc g acc' g' hacc hstep
      obtain ⟨t, g₂, ht, hpure⟩ := Stateful.bind_eq_ok hstep
      cases hpure
      exact hacc.merge (ih ht)
    · exact ih hnarrow
  | reference name toClass traits =>
    cases toClass with
    | true =>
      simp only [ValueType.narrow, hsome] at hnarrow
      cases hnarrow
      exact Selector.wellFormed_all
    | false =>
      simp only [ValueType.narrow, hsome, Bool.false_eq_true, if_false] at hnarrow
      split at hnarrow
      · exact h _ _ _ _ _ hs hnarrow
      · cases hnarrow
        exact hs.normalize

namespace Record

variable {d : Directory} {how : Narrowing}

theorem resolveInner_wellFormed {steps : Nat}
    (hwithin : ∀ r s g s' g', s.WellFormed → resolveWithin d how steps r s g = (.ok s', g') →
      s'.WellFormed) (r : RecordRef) (s : Selector) (g : Graph) (s' : Selector) (g' : Graph)
    (hs : s.WellFormed) (h : resolveInner d how steps r s g = (.ok s', g')) : s'.WellFormed := by
  unfold resolveInner at h
  split at h
  · cases h
    exact Selector.wellFormed_ofNames _
  · exact hwithin r s g s' g' hs h

theorem resolveWithin_wellFormed (hunion : how.aggregation = .union) {steps : Nat} {r : RecordRef}
    {s s' : Selector} (hs : s.WellFormed) {g g' : Graph}
    (h : resolveWithin d how steps r s g = (.ok s', g')) : s'.WellFormed := by
  induction steps generalizing r s s' g g' with
  | zero => cases h
  | succ steps ih =>
    cases hnone : s.isNone with
    | true =>
      simp only [resolveWithin, Selector.isNone_normalize, hnone, if_true] at h
      cases h
      exact hs.normalize
    | false =>
      rcases resolveWithin_eq_ok hnone h with ⟨-, rfl⟩ | ⟨g₁, hfold, -⟩
      · exact hs.normalize
      · refine Stateful.foldlM_invariant (P := fun acc _ => acc.WellFormed) ?_
          Selector.wellFormed_only_nil hfold
        intro a _ acc g acc' g' hacc hstep
        rcases narrowAttribute_eq_ok hstep with ⟨rfl, -⟩ | ⟨v, g₁, t, -, -, ht, rfl⟩
        · exact hacc
        · rw [hunion] at ht
          have hinner := resolveInner_wellFormed fun r s g s' g' hs h => ih hs h
          exact hacc.set (narrow_wellFormed hinner (hs.normalize.get a.name) ht) a.name

end Record

/-! ### Left aside -/

/-- Every attribute of the name is of the type of a record. -/
def Directory.NestsUnder (d : Directory) (c : ClassRef) (name : String) : Prop :=
  ∀ a ∈ d.attributes c, a.name = name → ∃ other traits, a.type = .reference other false traits

/-- A place below a record, given by names, that saving the record with a selector leaves alone. The
records in `above` are those around it, unless it is read as a fork that is made just then. -/
inductive Aside (d : Directory) (g : Graph) : (above : Option (List RecordRef)) → Selector →
    RecordRef → List String → Prop
  /-- The selector leaves the attribute out. -/
  | unselected {above s r name rest} (untagged : name ≠ Tree.classTag)
      (none : (s.get name).isNone = true) : Aside d g above s r (name :: rest)
  /-- The attribute is not set. -/
  | unset {above s r name rest} (untagged : name ≠ Tree.classTag) (lacks : g.seen? r name = none) :
      Aside d g above s r (name :: rest)
  /-- The attribute holds a record that is stored as a reference, of which the place is no part. -/
  | reference {above s r name inner next rest} (untagged : name ≠ Tree.classTag)
      (holds : g.seen? r name = some (.record inner))
      (referred : (∃ around, g.around above r name = some around ∧ inner ∈ around) ∨
        (d.definition inner.cls).referenceable = true)
      (untaggedNext : next ≠ Tree.classTag)
      (unidentified : ∀ a ∈ (d.definition inner.cls).identifiers, a.name ≠ next) :
      Aside d g above s r (name :: next :: rest)
  /-- The attribute holds a record that is stored within, and the place is left aside there. -/
  | within {above s r name inner rest} (untagged : name ≠ Tree.classTag)
      (nests : d.NestsUnder r.cls name) (holds : g.seen? r name = some (.record inner))
      (apart : ∀ around, g.around above r name = some around → inner ∉ around)
      (embedded : (d.definition inner.cls).referenceable = false)
      (inside : Aside d g (g.around above r name) (s.get name) inner rest) :
      Aside d g above s r (name :: rest)

namespace Aside

variable {d : Directory} {g : Graph} {above : Option (List RecordRef)} {s : Selector}
  {r : RecordRef} {place : List String}

theorem normalize (hs : s.WellFormed) (h : Aside d g above s r place) :
    Aside d g above s.normalize r place := by
  induction h with
  | unselected untagged none =>
    refine .unselected untagged ?_
    rw [Selector.get_normalize_of_wellFormed hs, Selector.isNone_normalize]
    exact none
  | unset untagged lacks => exact .unset untagged lacks
  | reference untagged holds referred untaggedNext unidentified =>
    exact .reference untagged holds referred untaggedNext unidentified
  | within untagged nests holds apart embedded _ ih =>
    refine .within untagged nests holds apart embedded ?_
    rw [Selector.get_normalize_of_wellFormed hs]
    exact ih (hs.get _)

theorem untagged {name : String} {rest : List String} (h : Aside d g above s r (name :: rest)) :
    name ≠ Tree.classTag := by
  cases h <;> assumption

theorem of_get_eq {s' : Selector} (h : Aside d g above s r place)
    (hsame : ∀ name rest, place = name :: rest → s'.get name = s.get name) :
    Aside d g above s' r place := by
  cases h with
  | unselected untagged none =>
    refine .unselected untagged ?_
    rw [hsame _ _ rfl]
    exact none
  | unset untagged lacks => exact .unset untagged lacks
  | reference untagged holds referred untaggedNext unidentified =>
    exact .reference untagged holds referred untaggedNext unidentified
  | within untagged nests holds apart embedded inside =>
    refine .within untagged nests holds apart embedded ?_
    rw [hsame _ _ rfl]
    exact inside

theorem of_isNone {s' : Selector} (h : Aside d g above s r place)
    (hnone : ∀ name rest, place = name :: rest → (s'.get name).isNone = true) :
    Aside d g above s' r place := by
  cases h with
  | unselected untagged none => exact .unselected untagged (hnone _ _ rfl)
  | unset untagged lacks => exact .unselected untagged (hnone _ _ rfl)
  | reference untagged holds referred untaggedNext unidentified =>
    exact .unselected untagged (hnone _ _ rfl)
  | within untagged nests holds apart embedded inside => exact .unselected untagged (hnone _ _ rfl)

end Aside

/-! ### Resolved selectors -/

namespace Record

variable {d : Directory} {how : Narrowing} {g₀ : Graph} {known₀ known : Set RecordRef}
  {r r' : RecordRef} {above : Option (List RecordRef)} {name : String} {rest : List String}

/-- What has been listed so far, without saying anything against a place that is left aside. -/
structure AsideSoFar (d : Directory) (g : Graph) (above : Option (List RecordRef)) (r : RecordRef)
    (place : List String) (acc : Selector) : Prop where
  wellFormed : acc.WellFormed
  only : ∃ fields, acc = .only fields
  aside : Aside d g above acc r place

/-- Narrowing an attribute leaves aside what begins with a name, whichever attribute it is. -/
theorem narrowAttribute_aside (hunion : how.aggregation = .union) {steps : Nat}
    (hinner : ∀ known inner inner' above s, Stands g₀ known₀ known inner inner' → s.WellFormed →
      Aside d g₀ above s inner rest → KeepsIn (Viewed g₀ known₀) known
        (resolveWithin d how steps inner' s) fun _ t => Aside d g₀ above t inner rest)
    (hr : Stands g₀ known₀ known r r') {s : Selector} (hs : s.WellFormed)
    (hplace : Aside d g₀ above s r (name :: rest)) {a : Attribute} (ha : a ∈ d.attributes r.cls)
    {acc : Selector} (hacc : AsideSoFar d g₀ above r (name :: rest) acc) :
    KeepsIn (Viewed g₀ known₀) known (narrowAttribute how (resolveInner d how steps) r' s acc a)
      fun _ acc' => AsideSoFar d g₀ above r (name :: rest) acc' := by
  have hreading := Graph.viewed_allowsReading g₀ known₀
  obtain ⟨hwellFormed, ⟨fields, rfl⟩, haside⟩ := hacc
  suffices hstep : KeepsIn (Viewed g₀ known₀) known
      (narrowAttribute how (resolveInner d how steps) r' s (.only fields) a)
      fun _ acc' => acc'.WellFormed ∧ Aside d g₀ above acc' r (name :: rest) from
    (hstep.and_run fun _ _ _ => narrowAttribute_only).imp fun _ _ _ h => ⟨h.1.1, h.2, h.1.2⟩
  simp only [narrowAttribute]
  split
  · exact .pure fun _ _ => ⟨hwellFormed, haside⟩
  next hselects =>
  refine (Viewed.keeps_answers hr a.name).bind fun v after hafter hv => ?_
  split
  · exact .pure fun _ _ => ⟨hwellFormed, haside⟩
  have hwithin : ∀ w, v = some w → w.Within after := by
    rintro w rfl
    exact hv.within
  have hplain : KeepsIn (Viewed g₀ known₀) after
      (a.type.narrow how.aggregation.combine (resolveInner d how steps) (s.get a.name) v)
      fun _ _ => True :=
    keeps_narrow (fun _ _ s hr => hreading.resolveInner how steps hr s) _ _ _ hwithin
  have hnarrowed : KeepsIn (Viewed g₀ known₀) after
      (a.type.narrow how.aggregation.combine (resolveInner d how steps) (s.get a.name) v)
      fun _ t => t.WellFormed → Aside d g₀ above ((Selector.only fields).set a.name t) r
        (name :: rest) := by
    by_cases hname : a.name = name
    · cases hplace with
      | unselected untagged none =>
        rw [hname] at hselects
        exact absurd none hselects
      | unset untagged lacks => exact hplain.imp fun _ _ _ _ _ => .unset untagged lacks
      | reference untagged holds referred untaggedNext unidentified =>
        exact hplain.imp fun _ _ _ _ _ =>
          .reference untagged holds referred untaggedNext unidentified
      -- This is the only attribute through which the place is reached.
      | within untagged nests holds apart embedded inside =>
        subst hname
        obtain ⟨other, traits, htype⟩ := nests a ha rfl
        obtain ⟨inner', rfl, hstands⟩ := hv.record holds
        have hresolved : a.type.narrow how.aggregation.combine (resolveInner d how steps)
            (s.get a.name) (some (.record inner')) = resolveWithin d how steps inner' (s.get a.name) := by
          simp [htype, ValueType.narrow, hselects, resolveInner, hstands.descends.cls, embedded]
        rw [hresolved]
        refine (hinner _ _ _ _ _ hstands (hs.get a.name) inside).imp fun _ _ t ht htwf => ?_
        refine .within untagged nests holds apart embedded ?_
        rw [Selector.get_set_same hwellFormed rfl a.name t]
        exact ht.normalize htwf
    · refine hplain.imp fun _ _ t _ _ => haside.of_get_eq fun first rest heq => ?_
      obtain ⟨rfl, -⟩ := List.cons.inj heq
      exact Selector.get_set_other (Ne.symm hname) t
  have hnarrowsWell : ∀ g t g', a.type.narrow how.aggregation.combine (resolveInner d how steps)
      (s.get a.name) v g = (.ok t, g') → t.WellFormed := by
    rw [hunion]
    exact fun _ _ _ => narrow_wellFormed
      (resolveInner_wellFormed fun _ _ _ _ _ hs h => resolveWithin_wellFormed hunion hs h)
      (hs.get a.name)
  refine (hnarrowed.and_run hnarrowsWell).bind fun t _ _ ht => .pure fun _ _ => ?_
  exact ⟨hwellFormed.set ht.2 a.name, ht.1 ht.2⟩

/-- What a selector leaves aside of a record, the resolved selector does. -/
theorem resolveWithin_aside (hunion : how.aggregation = .union) {steps : Nat}
    {place : List String} (hr : Stands g₀ known₀ known r r') {s : Selector} (hs : s.WellFormed)
    (hplace : Aside d g₀ above s r place) :
    KeepsIn (Viewed g₀ known₀) known (resolveWithin d how steps r' s)
      fun _ s' => Aside d g₀ above s' r place := by
  induction place generalizing steps above r r' s known with
  | nil => cases hplace
  | cons name rest ih =>
    cases steps with
    | zero => exact .throw _
    | succ steps =>
    have hreading := Graph.viewed_allowsReading g₀ known₀
    have hnormal := hplace.normalize hs
    simp only [resolveWithin]
    split
    · exact .pure fun _ _ => hnormal
    refine KeepsIn.get.bind fun g after hafter _ => ?_
    split
    · exact .pure fun _ _ => hnormal
    refine (hreading.markResolving (hafter hr.known) true).bind fun _ later hlater _ => ?_
    have hinit : AsideSoFar d g₀ above r (name :: rest) (.only []) :=
      ⟨Selector.wellFormed_only_nil, ⟨[], rfl⟩, hplace.of_isNone fun _ _ _ => rfl⟩
    have hstep : ∀ a ∈ d.attributes r.cls, ∀ acc last, later ⊆ last →
        AsideSoFar d g₀ above r (name :: rest) acc → KeepsIn (Viewed g₀ known₀) last
          (narrowAttribute how (resolveInner d how steps) r' s.normalize acc a)
          fun _ acc' => AsideSoFar d g₀ above r (name :: rest) acc' :=
      fun a ha acc last hlast hacc => narrowAttribute_aside hunion
        (fun _ _ _ _ _ hinner hs hplace => ih hinner hs hplace)
        (hr.mono ((hafter.trans hlater).trans hlast)) hs.normalize hnormal ha hacc
    rw [hr.descends.cls]
    refine (KeepsIn.foldlM hstep (fun _ _ _ _ h => h) hinit).bind fun resolved _ hlast hresolved => ?_
    exact (hreading.markResolving (hlast (hlater (hafter hr.known))) false).bind
      fun _ _ _ _ => .pure fun _ _ => hresolved.aside

/-! ### Encoded records -/

theorem isTagged_insert {fields : Object} (h : Tree.isTagged fields = true) (name : String)
    (v : Value) : Tree.isTagged (Fields.insert name v fields) = true := by
  rw [Tree.isTagged, Fields.contains_iff] at h ⊢
  exact Fields.mem_keys_insert.2 (.inr h)

theorem encodeWithin_referred {steps : Nat} {visiting : List RecordRef} {s : Selector}
    {g g' : Graph} {e : Value}
    (hreferred : r ∈ visiting ∨ (d.definition r.cls).referenceable = true)
    (h : encodeWithin d .store steps visiting false r s g = (.ok e, g')) :
    encodeReference d .store r g = (.ok e, g') := by
  cases steps with
  | zero => cases h
  | succ steps =>
    have hreduced : (visiting.contains r || (!false && Target.store == .store &&
        (d.definition r.cls).referenceable)) = true := by
      rcases hreferred with hmem | hreferenceable
      · simp [hmem]
      · simp [hreferenceable]
    simpa only [encodeWithin, hreduced, if_true] using h

/-- A reference leads past everything but its tag and the identifiers. -/
theorem encodeReference_spares (hd : ∀ c, ∀ a ∈ d.attributes c, Path.IsName a.name) {r : RecordRef}
    {g g' : Graph} {e : Value} (h : encodeReference d .store r g = (.ok e, g')) {next : String}
    (htag : next ≠ Tree.classTag) (hid : ∀ a ∈ (d.definition r.cls).identifiers, a.name ≠ next)
    (rest : List String) :
    ∃ fields, e = .object fields ∧ Tree.isTagged fields = true ∧
      Value.Spares (next :: rest) fields := by
  obtain ⟨tags, g₁, htags, hrest⟩ := Stateful.bind_eq_ok h
  obtain ⟨descriptor, g₂, hdescriptor, hpure⟩ := Stateful.bind_eq_ok hrest
  obtain ⟨rfl, rfl⟩ := header_eq_ok htags
  cases hpure
  obtain ⟨a, ha, v, g₃, -, rfl, -, -⟩ := descriptorAmong_eq_ok hdescriptor
  refine ⟨_, rfl, isTagged_insert rfl a.name v, ?_⟩
  intro entry hentry
  rcases Fields.mem_insert hentry with hmem | rfl
  · rw [List.mem_singleton.1 hmem]
    exact ⟨(by decide : Path.IsName Tree.classTag), fun heq => absurd heq.symm htag⟩
  · exact ⟨hd r.cls a (Definition.mem_attributeList_of_identifier ha), fun heq => absurd heq (hid a ha)⟩

theorem encodeAttribute_spares (hd : ∀ c, ∀ a ∈ d.attributes c, Path.IsName a.name)
    (hg₀ : g₀.Sound known₀) {steps : Nat} {visiting : List RecordRef}
    (hinner : ∀ known inner inner' above s, Stands g₀ known₀ known inner inner' →
      Around g₀.cells.size inner inner' (r' :: visiting) above → inner' ∉ r' :: visiting →
      (d.definition inner.cls).referenceable = false → Aside d g₀ above s inner rest →
      KeepsIn (Viewed g₀ known₀) known (encodeWithin d .store steps (r' :: visiting) false inner' s)
        fun _ e => ∃ fields, e = .object fields ∧ Tree.isTagged fields = true ∧
          Value.Spares rest fields)
    (hr : Stands g₀ known₀ known r r') (haround : Around g₀.cells.size r r' visiting above)
    {s : Selector} (hplace : Aside d g₀ above s r (name :: rest)) {a : Attribute}
    (ha : a ∈ d.attributes r.cls) {acc : Object} (htag : Tree.isTagged acc = true)
    (hacc : Value.Spares (name :: rest) acc) :
    KeepsIn (Viewed g₀ known₀) known
      (encodeAttribute (encodeWithin d .store steps (r' :: visiting) false) r' s acc a)
      fun _ acc' => Tree.isTagged acc' = true ∧ Value.Spares (name :: rest) acc' := by
  have hreading := Graph.viewed_allowsReading g₀ known₀
  simp only [encodeAttribute]
  split
  · exact .pure fun _ _ => ⟨htag, hacc⟩
  next hselects =>
  refine (Viewed.keeps_answers hr a.name).bind fun v after hafter hv => ?_
  cases v with
  | none => exact .pure fun _ _ => ⟨htag, hacc⟩
  | some w =>
    have hplain := keeps_encode (fun _ _ s hr => hreading.encodeWithin (d := d) .store steps
      (r' :: visiting) false hr s) w (s.get a.name) hv.within
    have hencoded : KeepsIn (Viewed g₀ known₀) after
        (w.encode (encodeWithin d .store steps (r' :: visiting) false) (s.get a.name))
        fun _ e => a.name = name → ∃ fields, e = .object fields ∧ Tree.isTagged fields = true ∧
          Value.Spares rest fields := by
      by_cases hname : a.name = name
      · subst hname
        cases hplace with
        | unselected untagged none => exact absurd none hselects
        | unset untagged lacks => cases hv.eq_none lacks
        | reference untagged holds referred untaggedNext unidentified =>
          obtain ⟨inner', heq, hstands⟩ := hv.record holds
          cases heq
          have hstep := haround.step hg₀ hv (List.mem_singleton.2 rfl) hr.before hstands
          have hreferred : inner' ∈ r' :: visiting ∨
              (d.definition inner'.cls).referenceable = true := by
            rcases referred with ⟨around, habove, hmem⟩ | hreferenceable
            · exact .inl (hstep.mem habove hmem)
            · exact .inr (hstands.descends.cls ▸ hreferenceable)
          rw [← hstands.descends.cls] at unidentified
          refine (hplain.and_run fun _ e _ hrun => ?_).imp fun _ _ e h _ => h.2
          exact encodeReference_spares hd (encodeWithin_referred hreferred hrun) untaggedNext
            unidentified _
        | within untagged nests holds apart embedded inside =>
          obtain ⟨inner', heq, hstands⟩ := hv.record holds
          cases heq
          have hstep := haround.step hg₀ hv (List.mem_singleton.2 rfl) hr.before hstands
          exact (hinner _ _ _ _ _ hstands hstep (hstep.not_mem apart) embedded inside).imp
            fun _ _ _ h _ => h
      · exact hplain.imp fun _ _ _ _ heq => absurd heq hname
    refine hencoded.bind fun e _ _ he => .pure fun _ _ => ⟨isTagged_insert htag _ _, ?_⟩
    intro entry hentry
    rcases Fields.mem_insert hentry with hmem | rfl
    · exact hacc entry hmem
    · exact ⟨hd r.cls a ha, he⟩

/-- What a record is encoded to leads past what the selector leaves aside. -/
theorem encodeWithin_spares (hd : ∀ c, ∀ a ∈ d.attributes c, Path.IsName a.name)
    (hg₀ : g₀.Sound known₀) {steps : Nat} {visiting : List RecordRef} {isRoot : Bool}
    {place : List String} (hr : Stands g₀ known₀ known r r')
    (haround : Around g₀.cells.size r r' visiting above) (hfirst : r' ∉ visiting)
    (hembedded : isRoot = true ∨ (d.definition r.cls).referenceable = false) {s : Selector}
    (hplace : Aside d g₀ above s r place) :
    KeepsIn (Viewed g₀ known₀) known (encodeWithin d .store steps visiting isRoot r' s)
      fun _ e => ∃ fields, e = .object fields ∧ Tree.isTagged fields = true ∧
        Value.Spares place fields := by
  induction place generalizing steps above visiting isRoot r r' s known with
  | nil => cases hplace
  | cons name rest ih =>
    cases steps with
    | zero => exact .throw _
    | succ steps =>
    have hnested : (visiting.contains r' || (!isRoot && Target.store == .store &&
        (d.definition r'.cls).referenceable)) = false := by
      rw [hr.descends.cls]
      rcases hembedded with hroot | hembedded
      · simp [hfirst, hroot]
      · simp [hfirst, hembedded]
    simp only [encodeWithin, hnested, Bool.false_eq_true, if_false]
    refine ((keeps_header .store r').and_run fun _ _ _ h => (header_eq_ok h).1).bind
      fun tags after hafter htags => ?_
    rw [htags.2, hr.descends.cls]
    have hinit : Tree.isTagged [(Tree.classTag, .string r'.className)] = true ∧
        Value.Spares (name :: rest) [(Tree.classTag, .string r'.className)] := by
      refine ⟨rfl, fun entry hentry => ?_⟩
      rw [List.mem_singleton.1 hentry]
      exact ⟨(by decide : Path.IsName Tree.classTag), fun heq => absurd heq.symm hplace.untagged⟩
    refine (KeepsIn.foldlM (fun a ha acc later hlater hacc => ?_) (fun _ _ _ _ h => h) hinit).bind
      fun fields _ _ hfields => .pure fun _ _ => ⟨fields, rfl, hfields⟩
    exact encodeAttribute_spares hd hg₀
      (fun _ _ _ _ _ hinner haround hfirst hembedded hplace =>
        ih hinner haround hfirst (.inr hembedded) hplace)
      (hr.mono (hafter.trans hlater)) haround hplace ha hacc.1 hacc.2

end Record

end TypedRecords
