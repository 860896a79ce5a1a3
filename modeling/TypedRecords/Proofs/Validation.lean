import TypedRecords.Proofs.Record.Validated
import TypedRecords.Proofs.Record.Walks

/-! # Validation

Where no record is within itself, validation ends, and reports what fails at the places to which the
selector leads, in their order. An exception are arrays of records that are referred to by identifier, if
items are missing or their classes merely share a name: of these records more is validated than the
identifiers.
-/

namespace TypedRecords

open TypedRecords.Graph (Viewed)

namespace Graph

variable {d : Directory} {defs : String → Definition} {g : Graph} {known : Set RecordRef}
  {r q : RecordRef} {s t : Selector}

/-- The records that validation enters from a record, with what is selected of them: from each those that
it holds without being referred to by identifier. -/
inductive Entered (d : Directory) (g : Graph) (r : RecordRef) (s : Selector) :
    RecordRef → Selector → Prop
  | self : Entered d g r s r s
  | within {q q' : RecordRef} {t t' : Selector} {name : String} (h : Entered d g r s q t)
    (leads : g.Leads d (Record.validated.way d) q t name q' t') : Entered d g r s q' t'

/-- No record that validation can enter holds itself, at any depth. -/
def Acyclic (d : Directory) (g : Graph) (r : RecordRef) : Prop :=
  ∀ q, Relation.ReflTransGen (g.Follows d (Record.validated.way d)) r q →
    ¬Relation.TransGen (g.Follows d (Record.validated.way d)) q q

/-- What is selected of the records that validation enters is regular. -/
def Regular (d : Directory) (defs : String → Definition) (g : Graph) (r : RecordRef) (s : Selector) :
    Prop :=
  ∀ q t, g.Entered d r s q t → ∀ a ∈ d.attributes q.cls, t.Selects a.name → ∀ v,
    g.seen? q a.name = some v → a.type.Regular d defs v

theorem Leads.follows {name : String} (h : g.Leads d (Record.validated.way d) r s name q t) :
    g.Follows d (Record.validated.way d) r q := by
  obtain ⟨a, ha, rfl, -, v, hv, henters, hnested, -⟩ := h
  exact ⟨a.name, a, ha, rfl, rfl, v, hv, henters, hnested, rfl⟩

theorem Entered.reaches (h : g.Entered d r s q t) :
    Relation.ReflTransGen (g.Follows d (Record.validated.way d)) r q := by
  induction h with
  | self => exact .refl
  | within _ leads ih => exact ih.tail leads.follows

/-- There are no more records to be within than there are. -/
theorem Acyclic.shallow (h : g.Acyclic d r) (hg : g.Sound known) (hregular : g.Regular d defs r s)
    {depth : Nat} {visiting : List RecordRef} (hentered : g.Entered d r s q t) (hq : q ∈ known)
    (hvisiting : ∀ w ∈ visiting, w ∈ known ∧
      Relation.TransGen (g.Follows d (Record.validated.way d)) w q)
    (hnodup : visiting.Nodup) (hdepth : g.cells.size < depth + visiting.length) :
    g.Shallow d defs depth visiting q t := by
  induction depth generalizing q t visiting with
  | zero =>
    have hle := hg.length_le (fun w hw => (hvisiting w hw).1) hnodup
    omega
  | succ depth ih =>
    have hmem : q ∉ visiting := fun hmem => h q hentered.reaches (hvisiting q hmem).2
    refine ⟨hmem, fun a ha hselects v hv => ⟨hregular q t hentered a ha hselects v hv, ?_⟩⟩
    intro q' henters hnested
    have hleads : g.Leads d (Record.validated.way d) q t a.name q' (t.get a.name) :=
      ⟨a, ha, rfl, hselects, v, hv, henters, .inr hnested, rfl⟩
    refine ih (hentered.within hleads) (hg.seen hq hv q' henters.mem) ?_ (hnodup.cons hmem) ?_
    · intro w hw
      rcases List.mem_cons.1 hw with rfl | hw
      · exact ⟨hq, .single hleads.follows⟩
      · exact ⟨(hvisiting w hw).1, (hvisiting w hw).2.tail hleads.follows⟩
    · rw [List.length_cons]
      omega

/-- Records are acyclic if each comes after those that enter it. -/
theorem Acyclic.of_rising {region : Set RecordRef} (hr : r ∈ region)
    (hrising : ∀ q ∈ region, ∀ q', g.Follows d (Record.validated.way d) q q' →
      q' ∈ region ∧ q.serial < q'.serial) : g.Acyclic d r := by
  have hmem : ∀ {q q'}, q ∈ region → Relation.ReflTransGen (g.Follows d (Record.validated.way d)) q q' →
      q' ∈ region := by
    intro q q' hq hreaches
    induction hreaches with
    | refl => exact hq
    | tail _ hstep ih => exact (hrising _ ih _ hstep).1
  intro q hreaches hcycle
  have hrises : ∀ q', Relation.TransGen (g.Follows d (Record.validated.way d)) q q' →
      q.serial < q'.serial := by
    intro q' hpath
    induction hpath with
    | single hstep => exact (hrising _ (hmem hr hreaches) _ hstep).2
    | tail hpath hstep ih =>
      exact ih.trans (hrising _ (hmem (hmem hr hreaches) hpath.to_reflTransGen) _ hstep).2
  exact absurd (hrises q hcycle) (Nat.lt_irrefl _)

/-- Reading changes nothing that is seen of a record that is no fork. -/
theorem Viewed.seen?_made {g' : Graph} {after : Set RecordRef} (h : Viewed g known after g')
    (hr : r ∈ known) (hmade : r.base? = none) (name : String) : g'.seen? r name = g.seen? r name := by
  cases hown : g.own? r name with
  | some own => exact seen?_congr_made hmade ((h.kept r name own hown).trans hown.symm)
  | none =>
    have hnone : g.seen? r name = none := by
      rw [TypedRecords.seen?_made hmade, value?, hown]
      rfl
    rw [h.seen?_eq_none (h.stands hr) hnone, hnone]

end Graph

namespace Record

variable {d : Directory} {defs : String → Definition} {g : Graph} {known : Set RecordRef}
  {r : RecordRef} {s : Selector}

/-- Validation reports the failures at the places to which the selector leads, in their order. The places
are those of the graph in the end, in which forks hold forks of what they have inherited. Where no record
is a fork they are those of the graph before. -/
theorem failures_reports (hd : d.Lawful) (hg : g.Sound known) (hidle : ∀ r, g.isResolving r = false)
    (hr : r ∈ known) (hs : s.WellFormed) (hacyclic : g.Acyclic d r) (hregular : g.Regular d defs r s) :
    ∃ fs g' after, failures d r s g = (.ok fs, g') ∧ Viewed g known after g' ∧
      g'.Reports d (.attributes r s (d.attributes r.cls)) fs ∧
        ((∀ q ∈ known, q.base? = none) → g.Reports d (.attributes r s (d.attributes r.cls)) fs) := by
  have hshallow : g.Shallow d defs (g.cells.size + 1) [] r s :=
    hacyclic.shallow hg hregular .self hr (by simp) .nil (by simp)
  have hfinds : Reporting d g known known (.attributes r s (d.attributes r.cls))
      (failuresWithin d (g.cells.size + s.depth + 2) r s) :=
    failuresWithin_reports hd hg (by omega) (Nat.le_refl _) hs hshallow (hg.viewed.stands hr)
      fun _ _ => Iff.rfl
  obtain ⟨fs, g', after, hrun, -, hg', -, -, hreports⟩ :=
    hfinds known subset_rfl g (traversed_start hg hidle)
  obtain ⟨ps, hps, hfs⟩ := hreports g' ⟨⟨after, subset_rfl, hg'.1⟩, fun _ _ _ _ h => h.seen⟩
  refine ⟨fs, g', after, (Stateful.bind_of_ok (stepsFor_eq s g)).trans hrun, hg'.1, ⟨ps, hps, hfs⟩, ?_⟩
  exact fun hmade => ⟨ps, hps.of_seen hg hr fun q hq name => hg'.1.seen?_made hq (hmade q hq) name, hfs⟩

end Record

/-! ### An example: a film with its credits -/

namespace Crediting

def notEmpty : Validator := { rule := .notEmpty }

def identifier : Attribute := ⟨"id", .primary, .scalar .string {}, none⟩

def plain (name : String) (type : ValueType) : Attribute := ⟨name, .plain, type, none⟩

/-- People are referred to by identifier. Their names are not empty. -/
def personClass : ClassRef := .declared 0 "Person"

/-- Credits are part of a film. -/
def creditClass : ClassRef := .declared 1 "Credit"

def filmClass : ClassRef := .declared 2 "Film"

def personDefinition : Definition where
  attributes := [("id", identifier),
    ("name", plain "name" (.scalar .string { validators := [notEmpty] }))]
  indexes := []
  embedded := false
  storable := true

def creditDefinition : Definition where
  attributes := [("part", plain "part" (.scalar .string { validators := [notEmpty] })),
    ("person", plain "person" (.reference "Person" false {}))]
  indexes := []
  embedded := true
  storable := false

def filmDefinition : Definition where
  attributes := [("id", identifier), ("title", plain "title" (.scalar .string {})),
    ("credits", plain "credits" (.array (.reference "Credit" false { optional := true }) {})),
    ("crew", plain "crew" (.array (.reference "Person" false { optional := true }) {}))]
  indexes := []
  embedded := false
  storable := true

def classes : Directory where
  classes := #[{ definition := personDefinition, registry := some ⟨0⟩ },
    { definition := creditDefinition, registry := some ⟨0⟩ },
    { definition := filmDefinition, registry := some ⟨0⟩ }]
  registries := #[{ members := [("Person", personClass), ("Credit", creditClass), ("Film", filmClass)] }]

def film : RecordRef := .made 0 filmClass

def lead : RecordRef := .made 1 creditClass

def extra : RecordRef := .made 2 creditClass

def person : RecordRef := .made 3 personClass

def everyone : Set RecordRef := {film, lead, extra, person}

/-- A film without a title, with a lead that has no part and a person that has no name. -/
def records (crew : List Value) : Graph where
  cells := #[
    { slots := [("id", some ⟨.string "f", .here⟩), ("title", some ⟨.undefined, .here⟩),
        ("credits", some ⟨.array [.record lead, .undefined, .record extra], .here⟩),
        ("crew", some ⟨.array crew, .here⟩)], isNew := true },
    { slots := [("part", some ⟨.string "", .here⟩)], isNew := true },
    { slots := [("part", some ⟨.string "Waiter", .here⟩), ("person", some ⟨.record person, .here⟩)],
      isNew := true },
    { slots := [("id", some ⟨.string "p", .here⟩), ("name", some ⟨.string "", .here⟩)], isNew := true }]

/-- The person is the crew. -/
def complete : Graph := records [.record person]

/-- Somebody in the crew is missing. -/
def gapped : Graph := records [.undefined, .record person]

variable {crew : List Value} {q q' : RecordRef} {a : Attribute} {v : Value}

/-- The film holds credits, and all others that are held are the person. -/
theorem enters_cases (hcrew : ∀ v ∈ crew, v = .undefined ∨ v = .record person)
    (hq : q = film ∨ q = lead ∨ q = extra) (ha : a ∈ classes.attributes q.cls)
    (hv : (records crew).seen? q a.name = some v) (h : a.type.Enters v q') :
    (q = film ∧ a.type.recordClass? = some "Credit" ∧ (q' = lead ∨ q' = extra)) ∨
      a.type.recordClass? = some "Person" ∧ q' = person ∧
        ((∀ v ∈ crew, v = .record person) → a.type.Filled v) := by
  rcases hq with rfl | rfl | rfl
  · have hattributes : a ∈ filmDefinition.attributeList := ha
    simp only [filmDefinition, Definition.attributeList, Fields.values, List.map_cons, List.map_nil,
      List.mem_cons, List.not_mem_nil, or_false] at hattributes
    rcases hattributes with rfl | rfl | rfl | rfl <;> cases hv
    · cases h
    · cases h
    · cases h with
      | item hmem henters =>
        simp only [List.mem_cons, List.not_mem_nil, or_false] at hmem
        rcases hmem with rfl | rfl | rfl <;> cases henters
        · exact .inl ⟨rfl, rfl, .inl rfl⟩
        · exact .inl ⟨rfl, rfl, .inr rfl⟩
    · cases h with
      | item hmem henters =>
        rcases hcrew _ hmem with rfl | rfl <;> cases henters
        refine .inr ⟨rfl, rfl, fun hfilled => ⟨List.ne_nil_of_mem hmem, fun v hv => ?_⟩⟩
        rw [hfilled v hv]
        trivial
  all_goals
    have hattributes : a ∈ creditDefinition.attributeList := ha
    simp only [creditDefinition, Definition.attributeList, Fields.values, List.map_cons, List.map_nil,
      List.mem_cons, List.not_mem_nil, or_false] at hattributes
    rcases hattributes with rfl | rfl <;> cases hv <;> cases h
  exact .inr ⟨rfl, rfl, fun _ => trivial⟩

theorem acyclic (hcrew : ∀ v ∈ crew, v = .undefined ∨ v = .record person) :
    (records crew).Acyclic classes film := by
  have hfilm : film ∈ {q | q = film ∨ q = lead ∨ q = extra} := .inl rfl
  refine .of_rising hfilm ?_
  rintro q hq q' ⟨_, a, ha, rfl, -, v, hv, henters, hnested, -⟩
  rcases enters_cases hcrew hq ha hv henters with ⟨rfl, -, rfl | rfl⟩ | ⟨-, rfl, -⟩
  · exact ⟨.inr (.inl rfl), by decide⟩
  · exact ⟨.inr (.inr rfl), by decide⟩
  · rcases hnested with hnested | hnested <;> cases hnested

theorem entered_cases {t : Selector} (hcrew : ∀ v ∈ crew, v = .undefined ∨ v = .record person)
    (h : (records crew).Entered classes film .all q t) :
    (q = film ∨ q = lead ∨ q = extra) ∧ t = .all := by
  induction h with
  | self => exact ⟨.inl rfl, rfl⟩
  | within _ leads ih =>
    obtain ⟨hq, rfl⟩ := ih
    obtain ⟨a, ha, rfl, -, v, hv, henters, hnested, rfl⟩ := leads
    refine ⟨?_, rfl⟩
    rcases enters_cases hcrew hq ha hv henters with ⟨-, -, rfl | rfl⟩ | ⟨-, rfl, -⟩
    · exact .inr (.inl rfl)
    · exact .inr (.inr rfl)
    · rcases hnested with hnested | hnested <;> cases hnested

def definitions (name : String) : Definition :=
  if name = "Credit" then creditDefinition else personDefinition

/-- Credits may be missing. -/
theorem regular : complete.Regular classes definitions film .all := by
  have hcrew : ∀ v ∈ [Value.record person], v = .undefined ∨ v = .record person := by simp
  intro q t hentered a ha _ v hv
  obtain ⟨hq, rfl⟩ := entered_cases hcrew hentered
  constructor
  · intro q' henters name hname
    rcases enters_cases hcrew hq ha hv henters with ⟨-, hcredit, hq'⟩ | ⟨hperson, rfl, -⟩
    · obtain rfl := Option.some.inj (hcredit.symm.trans hname)
      rcases hq' with rfl | rfl <;> rfl
    · obtain rfl := Option.some.inj (hperson.symm.trans hname)
      rfl
  · intro q' henters hreferenceable
    rcases enters_cases hcrew hq ha hv henters with ⟨-, -, rfl | rfl⟩ | ⟨-, -, hfilled⟩
    · cases hreferenceable
    · cases hreferenceable
    · exact hfilled (by simp)

theorem lawful : classes.Lawful :=
  Directory.lawful_of_entries (by decide) (by decide)

theorem sound : complete.Sound everyone :=
  .of_list [film, lead, extra, person] (by simp [everyone]) (by decide) (by decide)

/-- The title is required, and the part of the lead is not to be empty. Of the person, whose name is
empty, only the identifier counts. -/
def failing : List Failure := [⟨.required, "title"⟩, ⟨notEmpty, "credits[0].part"⟩]

/-- Where all of the crew is there only its identifiers are validated. -/
theorem failures_reports_film :
    (Record.failures classes film .all complete).1 = .ok failing ∧
      complete.Reports classes (.attributes film .all filmDefinition.attributeList) failing := by
  have hfailures : (Record.failures classes film .all complete).1 = .ok failing := rfl
  have hidle := Graph.isResolving_eq_false (g := complete) (by simp [complete, records])
  obtain ⟨fs, g', after, hrun, -, -, hmade⟩ := Record.failures_reports (s := .all) lawful sound hidle
    (.inl rfl) trivial (acyclic (by simp)) regular
  rw [hrun] at hfailures
  cases hfailures
  refine ⟨rfl, hmade ?_⟩
  rintro _ (rfl | rfl | rfl | rfl) <;> rfl

/-- Where one of the crew is missing the names of the others are validated too. -/
theorem crew_misreported :
    gapped.Acyclic classes film ∧
      (Record.failures classes film .all gapped).1 =
        .ok (failing ++ [⟨notEmpty, "crew[1].name"⟩]) ∧
      gapped.Reports classes (.attributes film .all filmDefinition.attributeList) failing := by
  have hlead := (.set rfl rfl (.whole rfl) (.passed (fun _ => rfl) .done) :
    gapped.Visits classes (.attributes lead .all creditDefinition.attributeList) _)
  have hperson := (.set rfl rfl (.whole rfl) (.passed (fun h => by cases h) .done) :
    gapped.Visits classes
      (.attributes person personDefinition.identifierSelector personDefinition.attributeList) _)
  have hextra := (.set rfl rfl (.whole rfl) (.set rfl rfl (.record hperson) .done) :
    gapped.Visits classes (.attributes extra .all creditDefinition.attributeList) _)
  have hcredits := (.item (.record hlead) (.item (.whole rfl) (.item (.record hextra) .ended)) :
    gapped.Visits classes (.items (.reference "Credit" false { optional := true }) 0
      [.record lead, .undefined, .record extra] .all) _)
  have hcrew := (.item (.whole rfl) (.item (.record hperson) .ended) :
    gapped.Visits classes (.items (.reference "Person" false { optional := true }) 0
      [.undefined, .record person] .all) _)
  exact ⟨acyclic (by simp), rfl, _, .set rfl rfl (.whole rfl) (.set rfl rfl (.whole rfl)
    (.set rfl rfl (.array hcredits) (.set rfl rfl (.array hcrew) .done))), rfl⟩

end Crediting
end TypedRecords
