import TypedRecords.Proofs.Record.Views
import TypedRecords.Proofs.Tree.Decode

/-! # Reading through forks

Forks of one another are read, assigned and unset in any order. An attribute whose values hold no
references reads as the record was last written itself, and if it never was, as its base reads at that
moment. Where the value holds references, a record that was read once reads the same from then on,
whatever is written to its bases, until it is written itself.
-/

namespace TypedRecords

open Stateful (bind_of_ok bind_of_error)

/-! ### Accesses -/

/-- What is done with an attribute of a record. -/
inductive Access
  | read (r : RecordRef) (name : String)
  | set (r : RecordRef) (name : String) (v : Value)
  | setFrom (source : Source) (r : RecordRef) (name : String) (v : Value)
  | unset (r : RecordRef) (name : String)

/-- A slot that is written to an attribute of a record. It is empty if the attribute is unset. -/
structure Assignment where
  record : RecordRef
  name : String
  slot : Option Slot

namespace Access

def record : Access → RecordRef
  | read r _ => r
  | set r _ _ => r
  | setFrom _ r _ _ => r
  | unset r _ => r

def run (d : Directory) : Access → Action Unit
  | read r name => do
    let _ ← Record.lift (r.value? name)
    pure ()
  | set r name v => Record.set d r name v
  | setFrom source r name v => Record.setFrom d source r name v
  | unset r name => Record.unset d r name

/-- The graph after accesses, of which each may have failed. -/
def runAll (d : Directory) (accesses : List Access) (g : Graph) : Graph :=
  accesses.foldl (fun g access => (access.run d g).2) g

/-- What an access writes. It writes nothing if it only reads, or if it is refused. -/
def assignment? (d : Directory) : Access → Option Assignment
  | read _ _ => none
  | set r name v =>
    ((d.definition r.cls).attribute? name).bind fun a => checked .here r name a (a.type.sanitize v)
  | setFrom source r name v =>
    ((d.definition r.cls).attribute? name).bind fun a => checked source r name a v
  | unset r name => ((d.definition r.cls).attribute? name).map fun _ => ⟨r, name, none⟩
where
  checked (source : Source) (r : RecordRef) (name : String) (a : Attribute) (v : Value) :
      Option Assignment :=
    match a.type.check (d.site r.cls name) v with
    | .ok () => some ⟨r, name, some ⟨v, source⟩⟩
    | .error _ => none

/-- What is written to an attribute of a record. -/
def assigned? (d : Directory) (r : RecordRef) (name : String) (access : Access) :
    Option (Option Slot) :=
  (access.assignment? d).bind fun w => if w.record = r ∧ w.name = name then some w.slot else none

/-- What was last written to an attribute of a record, where something may have been written before. -/
def last? (d : Directory) (r : RecordRef) (name : String) (before : Option (Option Slot))
    (accesses : List Access) : Option (Option Slot) :=
  accesses.foldl (fun own access => (access.assigned? d r name).or own) before

end Access

/-- A graph after an assignment, if there is one. -/
def Graph.assign (g : Graph) : Option Assignment → Graph
  | some w => g.write w.record w.name w.slot
  | none => g

namespace Access

variable {d : Directory} {access : Access} {g : Graph} {r : RecordRef} {name : String}
  {known : Set RecordRef}

/-! ### One access -/

theorem attributeNamed_of_none {c : ClassRef} (h : (d.definition c).attribute? name = none) :
    d.attributeNamed c name = .error (.unknownAttribute c.name name) := by
  rw [Directory.attributeNamed, h]
  rfl

theorem ofExcept_of_error {α : Type} {x : Except Error α} {e : Error} (h : x = .error e) (g : Graph) :
    Record.ofExcept x g = (.error e, g) := by
  rw [h]
  rfl

theorem setFrom_eq {a : Attribute} (ha : (d.definition r.cls).attribute? name = some a)
    (source : Source) (v : Value) (g : Graph) :
    (Record.setFrom d source r name v g).2 =
      g.assign (assignment?.checked d source r name a v) := by
  unfold assignment?.checked
  cases hcheck : a.type.check (d.site r.cls name) v with
  | ok _ =>
    rw [Record.setFrom_of_check ha hcheck g]
    rfl
  | error e =>
    have hchecked : Record.check d r name v g = (.error e, g) := by
      unfold Record.check
      rw [bind_of_ok (Record.ofExcept_of_ok (Record.attributeNamed_of_some ha) g),
        ofExcept_of_error hcheck]
    unfold Record.setFrom
    rw [bind_of_error hchecked]
    rfl

/-- What an access that is no mere reading changes is what it assigns. -/
theorem run_eq_assign (h : ∀ r name, access ≠ .read r name) (g : Graph) :
    (access.run d g).2 = g.assign (access.assignment? d) := by
  cases access with
  | read r name => exact absurd rfl (h r name)
  | set r name v =>
    cases ha : (d.definition r.cls).attribute? name with
    | none =>
      have hnamed := ofExcept_of_error (attributeNamed_of_none ha) g
      simp only [run, Record.set, bind_of_error hnamed, assignment?, ha, Option.bind_none,
        Graph.assign]
    | some a =>
      have hnamed := Record.ofExcept_of_ok (Record.attributeNamed_of_some ha) g
      simp only [run, Record.set, bind_of_ok hnamed, assignment?, ha, Option.bind_some]
      exact setFrom_eq ha .here _ g
  | setFrom source r name v =>
    cases ha : (d.definition r.cls).attribute? name with
    | none =>
      have hnamed := ofExcept_of_error (attributeNamed_of_none ha) g
      have hcheck : Record.check d r name v g = (.error _, g) := bind_of_error hnamed
      simp only [run, Record.setFrom, bind_of_error hcheck, assignment?, ha, Option.bind_none,
        Graph.assign]
    | some a =>
      simp only [run, assignment?, ha, Option.bind_some]
      exact setFrom_eq ha source v g
  | unset r name =>
    cases ha : (d.definition r.cls).attribute? name with
    | none =>
      have hnamed := ofExcept_of_error (attributeNamed_of_none ha) g
      simp only [run, Record.unset, bind_of_error hnamed, assignment?, ha, Option.map_none,
        Graph.assign]
    | some a =>
      have hnamed := Record.ofExcept_of_ok (Record.attributeNamed_of_some ha) g
      simp only [run, Record.unset, bind_of_ok hnamed, assignment?, ha, Option.map_some]
      rfl

theorem record_of_assignment? {w : Assignment} (h : access.assignment? d = some w) :
    w.record = access.record := by
  have hchecked : ∀ {source r name} {a : Attribute} {v},
      assignment?.checked d source r name a v = some w → w.record = r := by
    intro source r name a v h
    unfold assignment?.checked at h
    split at h
    · cases h
      rfl
    · cases h
  cases access with
  | read r name => cases h
  | set r name v =>
    obtain ⟨a, -, h⟩ := Option.bind_eq_some_iff.1 h
    exact hchecked h
  | setFrom source r name v =>
    obtain ⟨a, -, h⟩ := Option.bind_eq_some_iff.1 h
    exact hchecked h
  | unset r name =>
    obtain ⟨a, -, rfl⟩ := Option.map_eq_some_iff.1 h
    rfl

/-! ### Chains of forks -/

end Access

namespace Graph

/-- Records have cells of their own, and so have the records that they were forked from. -/
structure Chained (known : Set RecordRef) (g : Graph) : Prop where
  bounded : ∀ r ∈ known, r.serial < g.cells.size
  alone : ∀ r ∈ known, ∀ r' ∈ known, r.serial = r'.serial → r = r'
  base : ∀ serial c base, .fork serial c base ∈ known → base ∈ known

/-- What the records have written to an attribute holds no references. -/
def PlainAt (known : Set RecordRef) (name : String) (g : Graph) : Prop :=
  ∀ r ∈ known, ∀ slot, g.own? r name = some (some slot) → slot.value.hasReferences = false

variable {g g' : Graph} {r : RecordRef} {name : String} {known : Set RecordRef}

theorem Chained.grow (h : g.Chained known) (hsize : g.cells.size ≤ g'.cells.size) :
    g'.Chained known where
  bounded r hr := Nat.lt_of_lt_of_le (h.bounded r hr) hsize
  alone := h.alone
  base := h.base

theorem Chained.own?_write (h : g.Chained known) (hr : r ∈ known) {q : RecordRef} (hq : q ∈ known)
    (name name' : String) (slot : Option Slot) :
    (g.write q name' slot).own? r name =
      if q = r ∧ name' = name then some slot else g.own? r name := by
  split
  · next heq =>
    obtain ⟨rfl, rfl⟩ := heq
    exact own?_write_self (Array.getElem?_eq_getElem (h.bounded q hq)) name' slot
  · next hne =>
    rcases g.own?_write_cases q name' slot r name with heq | ⟨hserial, rfl, -⟩
    · exact heq
    · exact absurd ⟨(h.alone r hr q hq hserial).symm, rfl⟩ hne

/-- What is read of an attribute whose values hold no references is what is seen, and it is only read. -/
theorem slot?_of_plain (h : g.Chained known) (hplain : g.PlainAt known name) (hr : r ∈ known) :
    ∃ slot, r.slot? name g = (slot, g) ∧ slot.map Slot.value = g.seen? r name ∧
      ∀ s, slot = some s → s.value.hasReferences = false := by
  induction r with
  | made serial c =>
    exact ⟨_, rfl, rfl, fun s hs => hplain _ hr s (Option.join_eq_some_iff.1 hs)⟩
  | fork serial c base ih =>
    cases hown : g.own? (.fork serial c base) name with
    | some own =>
      refine ⟨own, slot?_fork_of_own hown, (seen?_of_own hown).symm, ?_⟩
      rintro s rfl
      exact hplain _ hr s hown
    | none =>
      obtain ⟨slot, hread, hseen, hslot⟩ := ih (h.base serial c base hr)
      refine ⟨slot, ?_, hseen.trans (seen?_fork hown).symm, hslot⟩
      rw [slot?_fork_of_base hown hread]
      cases slot with
      | none => rfl
      | some s =>
        dsimp only
        rw [hslot s rfl]
        rfl

theorem value?_of_plain (h : g.Chained known) (hplain : g.PlainAt known name) (hr : r ∈ known) :
    r.value? name g = (g.seen? r name, g) := by
  obtain ⟨slot, hread, hseen, -⟩ := slot?_of_plain h hplain hr
  rw [← hseen]
  show (Option.map Slot.value (r.slot? name g).1, (r.slot? name g).2) = _
  rw [hread]

/-- Reading one attribute writes nothing to another one. -/
theorem own?_slot?_of_ne {name' : String} (hne : name' ≠ name) (q r : RecordRef) (g : Graph) :
    (q.slot? name g).2.own? r name' = g.own? r name' := by
  induction q with
  | made serial c => rfl
  | fork serial c base ih =>
    cases hown : g.own? (.fork serial c base) name with
    | some own => rw [slot?_fork_of_own hown]
    | none =>
      rcases hread : RecordRef.slot? name base g with ⟨slot, g'⟩
      rw [hread] at ih
      rw [slot?_fork_of_base hown hread]
      cases slot with
      | none => exact ih
      | some slot =>
        dsimp only
        split
        · rw [own?_write_of_name_ne hne, (slot.value.forkRecords_spec g').2]
          exact ih
        · exact ih

/-- A record that read references has them in a slot of its own. -/
theorem own?_of_read (h : g.Chained known) (hr : r ∈ known) {slot : Slot}
    (hread : (r.slot? name g).1 = some slot) (hreferences : slot.value.hasReferences = true) :
    (r.slot? name g).2.own? r name = some (some slot) := by
  have hgrown := (slot?_readsOnly r name g).1.size
  cases r with
  | made serial c => exact Option.join_eq_some_iff.1 hread
  | fork serial c base =>
    cases hown : g.own? (.fork serial c base) name with
    | some own =>
      rw [slot?_fork_of_own hown] at hread ⊢
      cases hread
      exact hown
    | none =>
      rcases hbase : RecordRef.slot? name base g with ⟨_ | s, g'⟩
      · rw [slot?_fork_of_base hown hbase] at hread
        cases hread
      · rw [slot?_fork_of_base hown hbase] at hread hgrown ⊢
        by_cases hs : s.value.hasReferences = true
        · simp only [hs, if_true, Option.some.injEq] at hread hgrown ⊢
          subst hread
          refine own?_write_self (Array.getElem?_eq_getElem ?_) name _
          have hbound := h.bounded _ hr
          rw [write, size_modify] at hgrown
          omega
        · simp only [hs] at hread
          cases hread
          exact absurd hreferences hs

end Graph

/-! ### Runs of accesses -/

namespace Access

open TypedRecords.Graph (Chained PlainAt)

variable {d : Directory} {access : Access} {accesses : List Access} {g : Graph} {r : RecordRef}
  {name : String} {known : Set RecordRef}

/-- Nothing with references is written to an attribute. -/
def WritesPlain (d : Directory) (name : String) (accesses : List Access) : Prop :=
  ∀ access ∈ accesses, ∀ w, access.assignment? d = some w → w.name = name →
    ∀ slot, w.slot = some slot → slot.value.hasReferences = false

theorem chained_run (h : g.Chained known) (access : Access) : (access.run d g).2.Chained known := by
  refine h.grow ?_
  by_cases hread : ∃ q name', access = .read q name'
  · obtain ⟨q, name', rfl⟩ := hread
    exact (slot?_readsOnly q name' g).1.size
  · rw [run_eq_assign fun q name' heq => hread ⟨q, name', heq⟩]
    cases access.assignment? d with
    | none => exact Nat.le_refl _
    | some w => exact Nat.le_of_eq (Graph.size_modify _ _ _).symm

/-- What a record says after an access of a record of the chain, if mere readings leave that as it is. -/
theorem own?_run (h : g.Chained known) (hr : r ∈ known) (haccess : access.record ∈ known)
    (hread : ∀ q name', access = .read q name' →
      (q.slot? name' g).2.own? r name = g.own? r name) :
    (access.run d g).2.own? r name = (access.assigned? d r name).or (g.own? r name) := by
  by_cases hreads : ∃ q name', access = .read q name'
  · obtain ⟨q, name', rfl⟩ := hreads
    exact hread q name' rfl
  · rw [run_eq_assign (fun q name' heq => hreads ⟨q, name', heq⟩), assigned?]
    cases hw : access.assignment? d with
    | none => rfl
    | some w =>
      have hrecord := record_of_assignment? hw
      rw [Graph.assign, h.own?_write hr (hrecord ▸ haccess), Option.bind_some]
      split <;> rfl

theorem own?_run_of_plain (h : g.Chained known) (hplain : g.PlainAt known name) (hr : r ∈ known)
    (haccess : access.record ∈ known) :
    (access.run d g).2.own? r name = (access.assigned? d r name).or (g.own? r name) := by
  refine own?_run h hr haccess fun q name' heq => ?_
  subst heq
  by_cases hname : name = name'
  · subst hname
    obtain ⟨slot, hread, -⟩ := Graph.slot?_of_plain (r := q) h hplain haccess
    rw [hread]
  · exact Graph.own?_slot?_of_ne hname q r g

theorem plainAt_run (h : g.Chained known) (hplain : g.PlainAt known name)
    (haccess : access.record ∈ known) (hwrites : WritesPlain d name [access]) :
    (access.run d g).2.PlainAt known name := by
  intro r hr slot hslot
  rw [own?_run_of_plain h hplain hr haccess] at hslot
  rcases Option.or_eq_some_iff.1 hslot with hassigned | ⟨-, hown⟩
  · obtain ⟨w, hw, hwritten⟩ := Option.bind_eq_some_iff.1 hassigned
    split at hwritten
    · next heq =>
      exact hwrites access (List.mem_singleton.2 rfl) w hw heq.2 slot (Option.some.inj hwritten)
    · cases hwritten
  · exact hplain r hr slot hown

theorem own?_runAll_of_plain (h : g.Chained known) (hplain : g.PlainAt known name)
    (haccesses : ∀ access ∈ accesses, access.record ∈ known)
    (hwrites : WritesPlain d name accesses) :
    (runAll d accesses g).Chained known ∧ (runAll d accesses g).PlainAt known name ∧
      ∀ r ∈ known, (runAll d accesses g).own? r name = last? d r name (g.own? r name) accesses := by
  induction accesses generalizing g with
  | nil => exact ⟨h, hplain, fun r _ => rfl⟩
  | cons access rest ih =>
    obtain ⟨haccess, hrest⟩ := List.forall_mem_cons.1 haccesses
    obtain ⟨hwrite, hwritesRest⟩ := List.forall_mem_cons.1 hwrites
    have hplain' : (access.run d g).2.PlainAt known name :=
      plainAt_run h hplain haccess (List.forall_mem_singleton.2 hwrite)
    obtain ⟨hchained, hplainRest, hown⟩ := ih (chained_run h access) hplain' hrest hwritesRest
    refine ⟨hchained, hplainRest, fun r hr => ?_⟩
    have hstep := own?_run_of_plain (d := d) h hplain hr haccess
    exact (hown r hr).trans (congrArg (last? d r name · rest) hstep)

/-- What a record says itself stays until it is written. -/
theorem own?_runAll_of_own {own : Option Slot} (h : g.Chained known) (hr : r ∈ known)
    (hown : g.own? r name = some own) (haccesses : ∀ access ∈ accesses, access.record ∈ known)
    (hnone : ∀ access ∈ accesses, access.assigned? d r name = none) :
    (runAll d accesses g).own? r name = some own := by
  induction accesses generalizing g with
  | nil => exact hown
  | cons access rest ih =>
    obtain ⟨haccess, hrest⟩ := List.forall_mem_cons.1 haccesses
    obtain ⟨hassigned, hnoneRest⟩ := List.forall_mem_cons.1 hnone
    refine ih (chained_run h access) ?_ hrest hnoneRest
    rw [own?_run h hr haccess fun q name' _ => ?_, hassigned, hown]
    · rfl
    · rw [hown]
      exact (slot?_readsOnly q name' g).1.keeps r name own hown

theorem chained_runAll (h : g.Chained known) (accesses : List Access) :
    (runAll d accesses g).Chained known := by
  induction accesses generalizing g with
  | nil => exact h
  | cons access rest ih => exact ih (chained_run h access)

/-- How records of a chain of forks read after they were read, assigned and unset in any order. -/
theorem reads_through (h : g.Chained known)
    (haccesses : ∀ access ∈ accesses, access.record ∈ known) (hr : r ∈ known) (name : String) :
    (g.PlainAt known name → WritesPlain d name accesses →
      (r.value? name (runAll d accesses g)).1 =
        match last? d r name (g.own? r name) accesses with
        | some own => own.map Slot.value
        | none => r.base?.bind fun base => (base.value? name (runAll d accesses g)).1) ∧
    ∀ before after v, accesses = before ++ .read r name :: after →
      (r.value? name (runAll d before g)).1 = some v → v.hasReferences = true →
      (∀ access ∈ after, access.assigned? d r name = none) →
      (r.value? name (runAll d accesses g)).1 = some v := by
  constructor
  · intro hplain hwrites
    obtain ⟨hchained, hplain', hown⟩ := own?_runAll_of_plain h hplain haccesses hwrites
    rw [Graph.value?_of_plain hchained hplain' hr, ← hown r hr]
    cases hsaid : (runAll d accesses g).own? r name with
    | some own => exact seen?_of_own hsaid
    | none =>
      cases r with
      | made serial c =>
        rw [seen?_made rfl, Graph.value?, hsaid]
        rfl
      | fork serial c base =>
        have hbase := hchained.base serial c base hr
        rw [seen?_fork hsaid, RecordRef.base?, Option.bind_some,
          Graph.value?_of_plain hchained hplain' hbase]
  · rintro before after v rfl hread hreferences hnone
    have hafter : ∀ access ∈ after, access.record ∈ known := fun access haccess =>
      haccesses access (List.mem_append_right _ (List.mem_cons_of_mem _ haccess))
    have hrun : runAll d (before ++ .read r name :: after) g =
        runAll d after (r.slot? name (runAll d before g)).2 := by
      rw [runAll, List.foldl_append]
      rfl
    have hchained := chained_runAll (d := d) h before
    obtain ⟨slot, hslot, rfl⟩ := Option.map_eq_some_iff.1 hread
    have hpinned := Graph.own?_of_read hchained hr hslot hreferences
    have hkept := own?_runAll_of_own (d := d) (chained_run (d := d) hchained (.read r name)) hr
      hpinned hafter hnone
    have hlater : r.slot? name (runAll d (before ++ .read r name :: after) g) = (some slot, _) :=
      hrun ▸ Graph.slot?_of_own hkept
    exact congrArg (fun result => result.1.map Slot.value) hlater

/-! ### An example: a film, its cut and a cut of that -/

def filmClass : ClassRef := .declared 0 "Film"

/-- Films have a title, and may have a sequel. -/
def filmClasses : Directory where
  classes := #[{
    definition := {
      attributes := [("title", ⟨"title", .plain, .scalar .string {}, none⟩),
        ("sequel", ⟨"sequel", .plain, .reference "Film" false { optional := true }, none⟩)]
      indexes := [], embedded := false, storable := false } }]

def film : RecordRef := .made 0 filmClass

def cut : RecordRef := .fork 1 filmClass film

def shortCut : RecordRef := .fork 2 filmClass cut

def sequel : RecordRef := .made 3 filmClass

/-- A film with a title and a sequel, of which there are two cuts. -/
def films : Graph where
  cells := #[
    { slots := [("title", some ⟨.string "Alien", .here⟩), ("sequel", some ⟨.record sequel, .here⟩)]
      isNew := true },
    { isNew := true }, { isNew := true }, { isNew := true }]

/-- The film is renamed, and after its shorter cut was read the longer one as well. -/
def renamings : List Access :=
  [.set film "title" (.string "Aliens"), .read shortCut "title", .set cut "title" (.string "Long"),
    .unset film "title", .set shortCut "title" .null]

/-- The sequel is taken from all films but the shorter cut, after it was read from there. -/
def withdrawals : List Access := [.unset film "sequel", .unset cut "sequel", .read film "sequel"]

theorem films_chained : films.Chained {film, cut, shortCut} where
  bounded := by simp [films, film, cut, shortCut, RecordRef.serial]
  alone := by simp [film, cut, shortCut, RecordRef.serial]
  base := by
    rintro serial c base (h | h | h) <;> cases h
    · exact .inl rfl
    · exact .inr (.inl rfl)

/-- The shorter cut has the title that was last given to the longer one, and keeps the sequel. -/
theorem reads_through_films :
    (shortCut.value? "title" (runAll filmClasses renamings films)).1 = some (.string "Long") ∧
      (shortCut.value? "sequel"
        (runAll filmClasses (.read shortCut "sequel" :: withdrawals) films)).1 =
          some (.record (.fork 5 filmClass (.fork 4 filmClass sequel))) := by
  have hmem : shortCut ∈ ({film, cut, shortCut} : Set RecordRef) := by simp
  constructor
  · have hplain : films.PlainAt {film, cut, shortCut} "title" := by
      rintro r (rfl | rfl | rfl) slot hslot <;> cases hslot
      rfl
    have hwrites : WritesPlain filmClasses "title" renamings := by
      intro access haccess w hw hname slot hslot
      simp only [renamings, List.mem_cons, List.not_mem_nil, or_false] at haccess
      rcases haccess with rfl | rfl | rfl | rfl | rfl <;> cases hw <;> cases hslot <;> rfl
    have hrecords : ∀ access ∈ renamings, access.record ∈ ({film, cut, shortCut} : Set RecordRef) := by
      simp [renamings, record]
    exact (reads_through films_chained hrecords hmem "title").1 hplain hwrites
  · have hnone : ∀ access ∈ withdrawals, access.assigned? filmClasses shortCut "sequel" = none := by
      intro access haccess
      simp only [withdrawals, List.mem_cons, List.not_mem_nil, or_false] at haccess
      rcases haccess with rfl | rfl | rfl <;> rfl
    have hrecords : ∀ access ∈ .read shortCut "sequel" :: withdrawals,
        access.record ∈ ({film, cut, shortCut} : Set RecordRef) := by
      simp [withdrawals, record]
    exact (reads_through films_chained hrecords hmem "sequel").2 [] withdrawals _ rfl rfl rfl hnone

end Access

end TypedRecords
