import TypedRecords.Proofs.Record.Agreed
import TypedRecords.Proofs.Record.Places

/-! # What validation reports

A record is validated with what its selector is resolved to, and the records in it with what this selects
of them, resolved once more. Each of these selectors agrees with the one that was given, so validation
reports the failures at the places to which that one leads. They are those of the graph in the end: reading
may have forked what is held, and what was read stays.
-/

namespace TypedRecords

open TypedRecords.Graph (Sound Stands Viewed)
open Stateful (FailsIff KeepsIn)

/-! ### Values that stay -/

theorem forall₂_eq_of_mem {α : Type} {R : α → α → Prop} {as bs : List α} (h : List.Forall₂ R as bs)
    (heq : ∀ a ∈ as, ∀ b, R a b → b = a) : bs = as := by
  have hsame := forall₂_imp_of_mem h fun a ha b hab => (heq a ha b hab).symm
  exact (List.forall₂_eq_eq_eq ▸ hsame).symm

theorem Value.Reforked.eq_of_records {R : RecordRef → RecordRef → Prop} {v w : Value}
    (h : v.Reforked R w) (hv : v.records = []) : w = v := by
  have hall : ∀ r, r ∉ v.records := fun r => by simp [hv]
  clear hv
  induction v using Value.induction generalizing w with
  | array items ih =>
    cases h with
    | leaf hleaf => cases hleaf
    | array hitems =>
      rw [forall₂_eq_of_mem hitems fun v hv w h => ih v hv h fun r hr =>
        hall r (mem_records_array.2 ⟨v, hv, hr⟩)]
  | object fields ih =>
    cases h with
    | leaf hleaf => cases hleaf
    | object hnames hvalues =>
      have hrelated := Fields.related_of_values hnames hvalues
      rw [forall₂_eq_of_mem hrelated fun entry hentry entry' h => Prod.ext h.1.symm
        (ih entry hentry h.2 fun r hr => hall r (mem_records_object.2 ⟨entry, hentry, hr⟩))]
  | other v harray hobject =>
    cases h with
    | array _ => cases harray
    | object _ _ => cases hobject
    | record _ => exact absurd (List.mem_singleton.2 rfl) (hall _)
    | _ => rfl

namespace Graph

/-- The value of an attribute that reading leaves as it is: the record says itself what it is, or no
records are in it. -/
structure Fixed (g : Graph) (r : RecordRef) (name : String) (v : Option Value) : Prop where
  seen : g.seen? r name = v
  pinned : (∃ own, g.own? r name = some own) ∨ ∀ w, v = some w → w.records = []

variable {g₀ g g' last : Graph} {known₀ known after : Set RecordRef} {r q : RecordRef} {name : String}
  {v : Option Value}

/-- What was not set is not set afterwards. -/
theorem Viewed.seen?_eq_none (h : Viewed g₀ known₀ known g) (hr : Stands g₀ known₀ known r q)
    (hnone : g₀.seen? r name = none) : g.seen? q name = none := by
  have hseen := h.seen r q hr name
  rw [hnone] at hseen
  generalize g.seen? q name = v at hseen
  cases hseen
  rfl

theorem Fixed.later (h : g.Fixed r name v) (hg : Viewed g known after g') (hr : r ∈ known) :
    g'.Fixed r name v := by
  rcases h.pinned with ⟨own, hown⟩ | hplain
  · have hown' := hg.kept r name own hown
    refine ⟨?_, .inl ⟨own, hown'⟩⟩
    rw [seen?_of_own hown', ← h.seen, seen?_of_own hown]
  · refine ⟨?_, .inr hplain⟩
    cases v with
    | none => exact hg.seen?_eq_none (hg.stands hr) h.seen
    | some v =>
      have hseen := hg.seen r r (hg.stands hr) name
      rw [h.seen] at hseen
      generalize g'.seen? r name = w at hseen
      cases hseen with
      | some hforked => rw [hforked.eq_of_records (hplain v rfl)]

theorem Viewed.fixed (h : Viewed g₀ known₀ known g) (hr : r ∈ known) (name : String) :
    (r.slot? name g).2.Fixed r name ((r.slot? name g).1.map Slot.value) := by
  obtain ⟨after, -, -, hseen, hpinned, -⟩ := h.slot? hr name
  refine ⟨hseen, ?_⟩
  cases hread : (r.slot? name g).1 with
  | none => exact .inr fun w hw => by cases hw
  | some slot =>
    rcases hpinned slot hread with hown | hplain
    · exact .inl ⟨_, hown⟩
    · refine .inr ?_
      rintro _ ⟨⟩
      exact hplain

/-- In the last graph everything is seen that was fixed before. -/
structure Concludes (g₀ : Graph) (known₀ known : Set RecordRef) (g last : Graph) : Prop where
  viewed : ∃ after, known ⊆ after ∧ Viewed g₀ known₀ after last
  seen : ∀ r ∈ known, ∀ name v, g.Fixed r name v → last.seen? r name = v

end Graph

open TypedRecords.Graph (Fixed Concludes)

/-! ### Computations that only read -/

/-- A computation that only reads gives a result. What is known of the result at once is as stated, and so
is what it says of the graph in the end. -/
def Finds {α : Type} (g₀ : Graph) (known₀ known : Set RecordRef) (x : Action α)
    (U : Set RecordRef → α → Prop) (Q : Graph → α → Prop) : Prop :=
  ∀ before, known ⊆ before → ∀ g, Traversed g₀ known₀ [] before g → ∃ a g' after,
    x g = (.ok a, g') ∧ before ⊆ after ∧ Traversed g₀ known₀ [] after g' ∧
      (∀ r ∈ before, ∀ name v, g.Fixed r name v → g'.Fixed r name v) ∧ U after a ∧
        ∀ last, Concludes g₀ known₀ after g' last → Q last a

namespace Finds

variable {α β : Type} {g₀ : Graph} {known₀ known : Set RecordRef} {x : Action α} {f : α → Action β}
  {U : Set RecordRef → α → Prop} {V : Set RecordRef → β → Prop} {Q Q' : Graph → α → Prop}
  {P : Graph → β → Prop}

theorem mono {before : Set RecordRef} (hx : Finds g₀ known₀ known x U Q) (h : known ⊆ before) :
    Finds g₀ known₀ before x U Q :=
  fun later hlater => hx later (h.trans hlater)

theorem pure {a : α} (hu : ∀ after, known ⊆ after → U after a)
    (hq : ∀ after, known ⊆ after → ∀ g last, Concludes g₀ known₀ after g last → Q last a) :
    Finds g₀ known₀ known (Pure.pure a) U Q :=
  fun before hbefore g hg => ⟨a, g, before, rfl, subset_rfl, hg, fun _ _ _ _ h => h, hu before hbefore,
    hq before hbefore g⟩

theorem bind (hx : Finds g₀ known₀ known x U Q) (hf : ∀ a after, known ⊆ after → U after a →
    Finds g₀ known₀ after (f a) V fun last b => Q last a → P last b) :
    Finds g₀ known₀ known (x >>= f) V P := by
  intro before hbefore g hg
  obtain ⟨a, g₁, after, hrun, hafter, hg₁, hkept, hu, hq⟩ := hx before hbefore g hg
  obtain ⟨b, g₂, later, hrun', hlater, hg₂, hkept', hv, hp⟩ :=
    hf a after (hbefore.trans hafter) hu after subset_rfl g₁ hg₁
  refine ⟨b, g₂, later, (Stateful.bind_of_ok hrun).trans hrun', hafter.trans hlater, hg₂,
    fun r hr name v h => hkept' r (hafter hr) name v (hkept r hr name v h), hv, fun last hlast => ?_⟩
  obtain ⟨known', hknown', hviewed⟩ := hlast.viewed
  exact hp last hlast (hq last ⟨⟨known', hlater.trans hknown', hviewed⟩,
    fun r hr name v h => hlast.seen r (hlater hr) name v (hkept' r hr name v h)⟩)

theorem mapM {R : Graph → α → β → Prop} {items : List α}
    (hf : ∀ a ∈ items, Finds g₀ known₀ known (f a) (fun _ _ => True) fun last b => R last a b) :
    Finds g₀ known₀ known (items.mapM f) (fun _ _ => True) fun last bs =>
      List.Forall₂ (R last) items bs := by
  induction items generalizing known with
  | nil =>
    rw [List.mapM_nil]
    exact .pure (fun _ _ => trivial) fun _ _ _ _ _ => .nil
  | cons a rest ih =>
    obtain ⟨ha, hrest⟩ := List.forall_mem_cons.1 hf
    rw [List.mapM_cons]
    refine ha.bind fun b after hafter _ => ?_
    refine (ih fun a ha => (hrest a ha).mono hafter).bind fun bs later hlater _ => ?_
    exact .pure (fun _ _ => trivial) fun _ _ _ _ _ hbs hb => .cons hb hbs

/-- A computation that is known to give a result, and reads only. -/
theorem of_failsIff (hx : FailsIff .unending False (Traversed g₀ known₀ []) known x U)
    (hreads : ∀ before, known ⊆ before → ∀ g, Sound before g →
      KeepsIn (Viewed g before) before x fun _ _ => True) :
    Finds g₀ known₀ known x U fun _ _ => True := by
  intro before hbefore g hg
  rcases hx before hbefore g hg with ⟨hfalse, -⟩ | ⟨-, a, g', after, hrun, hafter, hg', hu⟩
  · exact hfalse.elim
  · obtain ⟨later, -, hviewed, -⟩ :=
      (hreads before hbefore g hg.1.sound).of_run subset_rfl hg.1.sound.viewed hrun
    exact ⟨a, g', after, hrun, hafter, hg', fun r hr name v h => h.later hviewed hr, hu,
      fun _ _ => trivial⟩

/-- What is read of a record is seen in the end. -/
theorem value {r r' : RecordRef} (hr : Stands g₀ known₀ known r r') (name : String) :
    Finds g₀ known₀ known (Record.lift (r'.value? name))
      (fun after v => Option.Rel (Value.Reforked (Stands g₀ known₀ after)) (g₀.seen? r name) v)
      fun last v => last.seen? r' name = v := by
  have hreads : FailsIff .unending False (Traversed g₀ known₀ []) known (Record.lift (r'.value? name))
      fun after v => Graph.Answers g₀ known₀ after r r' name v := reads hr name
  intro before hbefore g hg
  rcases hreads before hbefore g hg with
    ⟨hfalse, -⟩ | ⟨-, v, g', after, hrun, hafter, hg', hanswers⟩
  · exact hfalse.elim
  · have hread : Record.lift (r'.value? name) g =
        (.ok ((r'.slot? name g).1.map Slot.value), (r'.slot? name g).2) := rfl
    have hfixed := hg.1.fixed (hbefore hr.known) name
    obtain ⟨later, -, hviewed, -⟩ := hg.1.sound.viewed.slot? (hbefore hr.known) name
    rw [hread] at hrun
    cases hrun
    exact ⟨_, _, after, hread, hafter, hg', fun q hq name v h => h.later hviewed hq, hanswers.forked,
      fun last hlast => hlast.seen r' (hafter (hbefore hr.known)) name _ hfixed⟩

end Finds

/-! ### Values, items and attributes -/

section

variable {d : Directory} {g₀ : Graph} {known₀ known : Set RecordRef} {s u : Selector}
  {onRecord : RecordRef → Selector → Action (List Failure)}

/-- Validating finds what there is to report of a subject in the end. -/
abbrev Reporting (d : Directory) (g₀ : Graph) (known₀ known : Set RecordRef) (subject : Subject)
    (x : Action (List Failure)) : Prop :=
  Finds g₀ known₀ known x (fun _ _ => True) fun last fs => last.Reports d subject fs

theorem Place.failures_undefined (t : ValueType) :
    Place.failures ⟨[], t, .undefined⟩ = if t.allowsUndefined then [] else [⟨.required, ""⟩] := by
  unfold failures faults
  dsimp only
  split <;> rfl

theorem ValueType.failures_of_closed {m : Type → Type} [Monad m] {t : ValueType} {v : Value}
    (h : t.opens v = false) (onRecord : RecordRef → Selector → m (List Failure)) :
    t.failures onRecord v u = pure (Place.failures ⟨[], t, v⟩) := by
  have hundefined : t.failures onRecord .undefined u = pure (Place.failures ⟨[], t, .undefined⟩) := by
    rw [Place.failures_undefined]
    cases t with
    | reference name toClass traits => cases toClass <;> rfl
    | _ => rfl
  cases t with
  | scalar kind traits => cases v <;> first | exact hundefined | rfl
  | array item traits => cases v <;> first | exact hundefined | rfl | cases h
  | reference name toClass traits =>
    cases toClass <;> cases v <;> first | exact hundefined | rfl | cases h

theorem itemFailures_finds {t : ValueType} {items : List Value} (index : Nat)
    (hitem : ∀ v ∈ items, Reporting d g₀ known₀ known (.value t v s) (t.failures onRecord v u)) :
    Reporting d g₀ known₀ known (.items t index items s)
      (ValueType.itemFailures (fun v => t.failures onRecord v u) index items) := by
  induction items generalizing index known with
  | nil => exact .pure (fun _ _ => trivial) fun _ _ _ _ _ => .ended
  | cons v rest ih =>
    obtain ⟨hfirst, hrest⟩ := List.forall_mem_cons.1 hitem
    refine hfirst.bind fun here after hafter _ => ?_
    refine (ih (index + 1) fun v hv => (hrest v hv).mono hafter).bind fun later _ _ _ => ?_
    exact .pure (fun _ _ => trivial) fun _ _ _ _ _ hlater hhere => hhere.item hlater

/-- What a value and what is in it fails, if this is so for the records that are entered. -/
theorem typeFailures_finds {t : ValueType} {v : Value}
    (hinner : ∀ q, t.Enters v q → Reporting d g₀ known₀ known
      (.attributes q (d.asked s q) (d.attributes q.cls)) (onRecord q u)) :
    Reporting d g₀ known₀ known (.value t v s) (t.failures onRecord v u) := by
  induction t generalizing v with
  | scalar kind traits =>
    rw [ValueType.failures_of_closed rfl]
    exact .pure (fun _ _ => trivial) fun _ _ _ _ _ => .whole rfl
  | array item traits ih =>
    cases hopens : (ValueType.array item traits).opens v with
    | false =>
      rw [ValueType.failures_of_closed hopens]
      exact .pure (fun _ _ => trivial) fun _ _ _ _ _ => .whole hopens
    | true =>
      cases v with
      | array items =>
        have hitems := itemFailures_finds (s := s) (u := u) 0 fun v hv =>
          ih fun q hq => hinner q (.item hv hq)
        exact hitems.bind fun fs _ _ _ => .pure (fun _ _ => trivial) fun _ _ _ _ _ hfs => hfs.array
      | _ => cases hopens
  | reference name toClass traits =>
    cases hopens : (ValueType.reference name toClass traits).opens v with
    | false =>
      rw [ValueType.failures_of_closed hopens]
      exact .pure (fun _ _ => trivial) fun _ _ _ _ _ => .whole hopens
    | true =>
      cases toClass with
      | true => cases hopens
      | false =>
        cases v with
        | record q =>
          exact (hinner q .reference).bind fun fs _ _ _ =>
            .pure (fun _ _ => trivial) fun _ _ _ _ _ hfs => hfs.record
        | _ => cases hopens

/-- What is entered in a value stands for what was entered in the other one. -/
theorem Value.Reforked.enters {R : RecordRef → RecordRef → Prop} {v w : Value} (h : v.Reforked R w)
    {t : ValueType} {q' : RecordRef} (hq' : t.Enters w q') : ∃ q, t.Enters v q ∧ R q q' := by
  induction hq' generalizing v with
  | reference =>
    cases h with
    | leaf hleaf => cases hleaf
    | record hr => exact ⟨_, .reference, hr⟩
  | @item item traits items w q' hw _ ih =>
    cases h with
    | leaf hleaf => cases hleaf
    | array hitems =>
      obtain ⟨v, hv, hforked⟩ := Fields.mem_right_of_forall₂ hitems hw
      obtain ⟨q, hq, hstands⟩ := ih hforked
      exact ⟨q, .item hv hq, hstands⟩

/-- What a record that stands for another one is seen to hold in the end. -/
theorem Graph.Concludes.seen?_eq_none {g last : Graph} {r r' : RecordRef} {name : String}
    (h : Concludes g₀ known₀ known g last) (hr : Stands g₀ known₀ known r r')
    (hunset : g₀.seen? r name = none) : last.seen? r' name = none := by
  obtain ⟨after, hafter, hviewed⟩ := h.viewed
  exact hviewed.seen?_eq_none (hr.mono hafter) hunset

/-- An attribute is validated by a selector that selects it if it is set and was selected. -/
theorem attributeFailures_finds {r r' : RecordRef} {a : Attribute} (hr : Stands g₀ known₀ known r r')
    (hselects : ∀ v, g₀.seen? r a.name = some v → (u.Selects a.name ↔ s.Selects a.name))
    (hinner : u.Selects a.name → ∀ v, g₀.seen? r a.name = some v → ∀ q, a.type.Enters v q →
      ∀ after, known ⊆ after → ∀ q', Stands g₀ known₀ after q q' → Reporting d g₀ known₀ after
        (.attributes q' (d.asked (s.get a.name) q') (d.attributes q'.cls)) (onRecord q' (u.get a.name))) :
    Reporting d g₀ known₀ known (.attributes r' s [a]) (Record.attributeFailures onRecord r' u a) := by
  cases hsome : (u.get a.name).isNone with
  | true =>
    simp only [Record.attributeFailures, hsome, if_true]
    refine .pure (fun _ _ => trivial) fun after hafter g last hlast => .passed fun hs => ?_
    refine hlast.seen?_eq_none (hr.mono hafter) (Option.eq_none_iff_forall_ne_some.2 fun v hv => ?_)
    have hu : u.Selects a.name := (hselects v hv).2 hs
    rw [Selector.Selects, hsome] at hu
    cases hu
  | false =>
    simp only [Record.attributeFailures, hsome, Bool.false_eq_true, if_false]
    refine (Finds.value hr a.name).bind fun v after hafter hforked => ?_
    cases v with
    | none => exact .pure (fun _ _ => trivial) fun _ _ _ _ _ hseen => .passed fun _ => hseen
    | some w =>
      generalize hold : g₀.seen? r a.name = old at hforked
      cases hforked with
      | @some v _ hforked =>
        refine (typeFailures_finds (s := s.get a.name) fun q' hq' => ?_).bind fun fs _ _ _ =>
          .pure (fun _ _ => trivial) fun _ _ _ _ _ hfs hseen => .set ((hselects v hold).1 hsome) hseen hfs
        obtain ⟨q, hq, hstands⟩ := hforked.enters hq'
        exact hinner hsome v hold q hq after hafter q' hstands

end

/-! ### Records -/

namespace Record

section

variable {d : Directory} {defs : String → Definition} {g₀ : Graph} {known₀ known : Set RecordRef}
  {r r' q q' : RecordRef} {s s₀ u : Selector} {depth steps : Nat}

/-- A record is validated by a selector that selects the same of it, if that is so of the records in it
for each selector that agrees. -/
theorem failuresWithin_finds (hd : d.Lawful) (hg₀ : g₀.Sound known₀) (hdepth : depth ≤ g₀.cells.size + 1)
    (hwell : s.WellFormed) (hshallow : g₀.Shallow d defs depth [] r s) (hr : Stands g₀ known₀ known r r')
    (hsame : ∀ path, g₀.Shows d r path → (s.Keeps path ↔ s₀.Keeps path))
    (hinner : ∀ t, g₀.Agrees d defs r s t → ∀ a ∈ d.attributes r.cls, s.Selects a.name → ∀ v,
      g₀.seen? r a.name = some v → ∀ q, a.type.Enters v q → ∀ after, known ⊆ after → ∀ q',
        Stands g₀ known₀ after q q' → Reporting d g₀ known₀ after
          (.attributes q' (d.asked (s₀.get a.name) q') (d.attributes q'.cls))
          (failuresWithin d steps q' (t.get a.name))) :
    Reporting d g₀ known₀ known (.attributes r' s₀ (d.attributes r'.cls))
      (failuresWithin d (steps + 1) r' s) := by
  have hresolved : Finds g₀ known₀ known (resolve d validated r' s)
      (fun _ t => g₀.Agrees d defs r s t) fun _ _ => True :=
    .of_failsIff (resolve_agrees hd hg₀ hdepth hwell hshallow hr) fun before hbefore g _ =>
      (Graph.viewed_allowsReading g before).resolve validated (hbefore hr.known) s
  refine hresolved.bind fun t after hafter ht => ?_
  have hattribute : ∀ a ∈ d.attributes r'.cls, Reporting d g₀ known₀ after (.attributes r' s₀ [a])
      (attributeFailures (failuresWithin d steps) r' t a) := by
    intro a ha
    rw [hr.descends.cls] at ha
    refine attributeFailures_finds (hr.mono hafter) (fun v hv => ?_) ?_
    · have hshown : g₀.Shows d r [a.name] := .here ha hv
      exact (ht.keeps_iff hshallow hshown).trans (hsame _ hshown)
    · intro hselects v hv q hq later hlater
      have hs : s.Selects a.name := (ht.keeps_iff hshallow (.here ha hv)).1 hselects
      exact hinner t ht a ha hs v hv q hq later (hafter.trans hlater)
  exact (Finds.mapM (R := fun last a fs => last.Reports d (.attributes r' s₀ [a]) fs) hattribute).bind
    fun fss _ _ _ => .pure (fun _ _ => trivial) fun _ _ _ _ _ hfss _ => .flatten hfss

/-- Of a record that is referred to by identifier the identifiers are validated, if just they are
selected. -/
theorem failuresWithin_identifiers (hd : d.Lawful) (hg₀ : g₀.Sound known₀)
    (hr : Stands g₀ known₀ known r r') (hwell : u.WellFormed)
    (hu : ∀ path, u.Keeps path ↔ (d.definition r.cls).identifierSelector.Keeps path) :
    Reporting d g₀ known₀ known
      (.attributes r' (d.definition r'.cls).identifierSelector (d.attributes r'.cls))
      (failuresWithin d (steps + 1) r' u) := by
  have hplain : ∀ a ∈ d.attributes r.cls, u.Selects a.name → ∀ v q, ¬a.type.Enters v q := by
    intro a ha hselects v q hq
    obtain ⟨b, hb, hname⟩ := List.mem_map.1 (Selector.mem_of_selects_ofNames ((hu [a.name]).1 hselects))
    obtain rfl := List.inj_on_of_nodup_map (hd.definition r.cls).names_nodup
      (Definition.mem_attributeList_of_identifier hb) ha hname
    exact hq.refers (ValueType.recordClass?_of_canIdentify
      ((hd.definition r.cls).identifies b ha (Definition.isIdentifier_of_mem_identifiers hb)))
  have hshallow : g₀.Shallow d (fun _ => d.definition r.cls) 1 [] r u := by
    refine ⟨by simp, fun a ha hselects v _ => ⟨⟨?_, ?_⟩, ?_⟩⟩ <;>
      exact fun q hq => absurd hq (hplain a ha hselects v q)
  refine failuresWithin_finds hd hg₀ (by omega) hwell hshallow hr
    (fun path _ => hr.descends.cls ▸ hu path) ?_
  · exact fun t ht a ha hselects v hv q hq => absurd hq (hplain a ha hselects v q)

/-- Validation reports what there is to report, if what is selected is shallow. -/
theorem failuresWithin_reports (hd : d.Lawful) (hg₀ : g₀.Sound known₀) (hsteps : depth < steps)
    (hdepth : depth ≤ g₀.cells.size + 1) (hwell : s.WellFormed)
    (hshallow : g₀.Shallow d defs depth [] r s) (hr : Stands g₀ known₀ known r r')
    (hsame : ∀ path, g₀.Shows d r path → (s.Keeps path ↔ s₀.Keeps path)) :
    Reporting d g₀ known₀ known (.attributes r' s₀ (d.attributes r'.cls))
      (failuresWithin d steps r' s) := by
  induction depth generalizing known r r' s s₀ steps with
  | zero => exact hshallow.elim
  | succ depth ih =>
    obtain ⟨steps, rfl⟩ : ∃ n, steps = n + 2 := ⟨steps - 2, by omega⟩
    refine failuresWithin_finds hd hg₀ hdepth hwell hshallow hr hsame ?_
    intro t ht a ha hselects v hv q hq after hafter q' hq'
    unfold Directory.asked
    cases hreferenceable : (d.definition q'.cls).referenceable with
    | true =>
      rw [if_pos rfl]
      rw [hq'.descends.cls] at hreferenceable
      exact failuresWithin_identifiers hd hg₀ hq' (ht.wellFormed.get a.name)
        (ht.referred a ha hselects v hv q hq hreferenceable)
    | false =>
      rw [if_neg (by simp)]
      rw [hq'.descends.cls] at hreferenceable
      have hinside : ∀ {path}, g₀.Shows d q path → g₀.Shows d r (a.name :: path) :=
        fun hpath => .within ha hv hq hreferenceable hpath
      refine ih (by omega) (by omega) (ht.wellFormed.get a.name)
        (((hshallow.2 a ha hselects v hv).2 q hq hreferenceable).mono (by simp) fun path hpath hkeeps =>
          (ht.keeps_iff hshallow (hinside hpath)).1 hkeeps) hq' fun path hpath => ?_
      exact (ht.keeps_iff hshallow (hinside hpath)).trans (hsame _ (hinside hpath))

end

end Record

end TypedRecords
