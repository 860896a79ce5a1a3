import TypedRecords.Proofs.Record.Views
import TypedRecords.Proofs.Record.Writing

/-! # Forks are isolated

Whatever is done with a fork, and with what is obtained by reading through it, no record that was there
before and is no fork changes, and none of the records that were there is ever obtained. All that it
takes is that nothing is assigned through which one of them could be obtained.
-/

namespace TypedRecords

open TypedRecords.Graph (Leaves Sound Viewed)
open Stateful (KeepsIn)

/-! ### Using a record -/

/-- What can be asked of a record. -/
inductive Use
  | read (name : String)
  | set (name : String) (v : Value)
  | setFrom (source : Source) (name : String) (v : Value)
  | unset (name : String)
  | setSource (name : String) (source : Source)
  | setSources (source : Source) (s : Selector)
  | mark (isNew : Bool)
  | decodeInto (registry : RegistryRef) (source : Source) (t : Value)

namespace Use

/-- Does what is asked, and gives back the records that were read. -/
def run (d : Directory) (r : RecordRef) : Use → Action (List RecordRef)
  | read name => do pure (← Record.read d r name).records
  | set name v => do Record.set d r name v; pure []
  | setFrom source name v => do Record.setFrom d source r name v; pure []
  | unset name => do Record.unset d r name; pure []
  | setSource name source => do Record.setSource d r name source; pure []
  | setSources source s => do Record.setSources d source r s; pure []
  | mark isNew => do Record.mark r isNew; pure []
  | decodeInto registry source t => do Record.decodeInto d registry source r t; pure []

/-- What is assigned, if anything. -/
def assigned : Use → Value
  | set _ v => v
  | setFrom _ _ v => v
  | decodeInto _ _ t => t
  | _ => .undefined

end Use

/-! ### What can be obtained -/

namespace Graph

/-- The records that reading attribute after attribute leads to from a record, each with the graph as it
is after the reading. -/
inductive Obtained (g : Graph) (r : RecordRef) : RecordRef → Graph → Prop
  | self : Obtained g r r g
  | read {r' r'' : RecordRef} {g' : Graph} {name : String} {slot : Slot} (h : Obtained g r r' g')
    (hslot : (r'.slot? name g').1 = some slot) (hr : r'' ∈ slot.value.records) :
    Obtained g r r'' (r'.slot? name g').2

/-- Nothing in the first `n` cells can be obtained from a record. -/
def Clear (n : Nat) (g : Graph) (r : RecordRef) : Prop :=
  ∀ r' g', g.Obtained r r' g' → n ≤ r'.serial

/-- One record holds another in a slot of its own. -/
def Holds (g : Graph) (r r' : RecordRef) : Prop :=
  ∃ name slot, g.own? r name = some (some slot) ∧ r' ∈ slot.value.records

/-- The records are there. -/
def Knows (g : Graph) (records : Set RecordRef) : Prop :=
  ∃ known, records ⊆ known ∧ g.Sound known

variable {g g' : Graph} {r r' : RecordRef}

/-- What a record holds can be obtained from it. -/
theorem obtained_of_holds (h : Relation.ReflTransGen g.Holds r r') :
    ∃ g', g.Obtained r r' g' ∧ ReadsOnly g g' := by
  induction h with
  | refl => exact ⟨g, .self, .refl g⟩
  | @tail q q' _ hholds ih =>
    obtain ⟨g', hobtained, hreads⟩ := ih
    obtain ⟨name, slot, hown, hq⟩ := hholds
    have hslot := slot?_of_own (hreads.keeps _ _ _ hown)
    have hnext := hobtained.read (congrArg Prod.fst hslot) hq
    rw [hslot] at hnext
    exact ⟨g', hnext, hreads⟩

theorem Clear.of_holds {n : Nat} (h : Clear n g r) (hholds : Relation.ReflTransGen g.Holds r r') :
    n ≤ r'.serial := by
  obtain ⟨g', hobtained, -⟩ := obtained_of_holds hholds
  exact h r' g' hobtained

end Graph

/-! ### Cells that reading changes -/

namespace Graph

variable {kept : Nat → Prop} {g g' : Graph}

theorem leaves_forkRecords (v : Value) (h : Leaves kept g g') :
    Leaves kept g (v.forkRecords g').2 :=
  v.forkRecords_keeps (P := Leaves kept g) (fun _ c base h => h.fork c base) h

/-- Reading a slot makes cells and writes to forks, and to nothing else. -/
theorem leaves_slot? {known : Set RecordRef} (hg : g'.Sound known)
    (hforks : ∀ serial c base, .fork serial c base ∈ known → ¬kept serial) {r : RecordRef}
    (hr : r ∈ known) (name : String) (h : Leaves kept g g') : Leaves kept g (r.slot? name g').2 := by
  induction r with
  | made serial c => exact h
  | fork serial c base ih =>
    have hbase := ih (hg.base serial c base hr)
    cases hown : g'.own? (.fork serial c base) name with
    | some own =>
      rw [slot?_fork_of_own hown]
      exact h
    | none =>
      rcases hread : RecordRef.slot? name base g' with ⟨slot, g''⟩
      rw [hread] at hbase
      rw [slot?_fork_of_base hown hread]
      cases slot with
      | none => exact hbase
      | some slot =>
        dsimp only
        split
        · exact (leaves_forkRecords _ hbase).modify (r := .fork serial c base)
            (.inr (hforks serial c base hr)) _
        · exact hbase

end Graph

/-! ### Records of one's own -/

/-- The cells of the given records that are no forks. -/
def OriginalCell (old : Set RecordRef) (n : Nat) : Prop := ∃ r ∈ old, r.base? = none ∧ r.serial = n

/-- The records that somebody works with hold nothing that was there before, and the originals of before
are as they were. -/
structure Graph.Isolated (old : Set RecordRef) (g₀ : Graph) (mine : Set RecordRef) (g : Graph) :
    Prop where
  known : g.Knows (old ∪ mine)
  later : ∀ r ∈ mine, g₀.cells.size ≤ r.serial
  closed : ∀ r ∈ mine, ∀ name slot, g.own? r name = some (some slot) → slot.value.Within mine
  kept : Leaves (OriginalCell old) g₀ g

namespace Graph.Isolated

variable {d : Directory} {old mine : Set RecordRef} {g₀ g g' : Graph} {r : RecordRef}

theorem cell? (h : Isolated old g₀ mine g) (hold : g₀.Sound old) (hr : r ∈ old)
    (hmade : r.base? = none) : g.cell? r = g₀.cell? r :=
  h.kept.cell? (hold.bounded r hr) ⟨r, hr, hmade, rfl⟩

theorem of_own?_eq (h : Isolated old g₀ mine g) (hkept : Leaves (OriginalCell old) g₀ g')
    (hsize : g.cells.size ≤ g'.cells.size) (hown : ∀ r name, g'.own? r name = g.own? r name) :
    Isolated old g₀ mine g' where
  known := by
    obtain ⟨known, hknown, hsound⟩ := h.known
    exact ⟨known, hknown, hsound.of_own?_eq hsize hown⟩
  later := h.later
  closed r hr name slot hslot := h.closed r hr name slot ((hown r name).symm.trans hslot)
  kept := hkept

/-- The cell of one's own record may be changed. -/
theorem modify (h : Isolated old g₀ mine g) (hr : r ∈ mine) {f : Cell → Cell}
    (hf : ∀ cell, (f cell).slots = cell.slots) : Isolated old g₀ mine (g.modify r f) :=
  h.of_own?_eq (h.kept.modify (.inl (h.later r hr)) f) (Nat.le_of_eq (size_modify g r f).symm)
    (own?_modify hf g r)

theorem write (h : Isolated old g₀ mine g) (hr : r ∈ mine) (name : String) {slot : Option Slot}
    (hslot : ∀ s, slot = some s → s.value.Within mine) :
    Isolated old g₀ mine (g.write r name slot) where
  known := by
    obtain ⟨known, hknown, hsound⟩ := h.known
    have hmine := Set.union_subset_iff.1 hknown
    exact ⟨known, hknown, hsound.write r name fun s hs => (hslot s hs).mono hmine.2⟩
  later := h.later
  closed r' hr' name' s hs := by
    rcases g.own?_write_cases r name slot r' name' with heq | ⟨-, -, heq⟩
    · exact h.closed r' hr' name' s (heq.symm.trans hs)
    · exact hslot s (Option.some.inj (heq.symm.trans hs))
  kept := h.kept.modify (.inl (h.later r hr)) _

theorem instantiate (h : Isolated old g₀ mine g) (c : ClassRef) (isNew : Bool) :
    Isolated old g₀ (insert (g.instantiate c isNew).1 mine) (g.instantiate c isNew).2 := by
  have hown := own?_push g isNew
  refine ⟨?_, ?_, ?_, h.kept.instantiate c isNew⟩
  · obtain ⟨known, hknown, hsound⟩ := h.known
    refine ⟨insert (g.instantiate c isNew).1 known, ?_, ?_⟩
    · rw [Set.union_insert]
      exact Set.insert_subset_insert hknown
    · exact hsound.insert rfl (by simp [Graph.instantiate]) hown fun _ hbase => by cases hbase
  · intro r hr
    rcases Set.mem_insert_iff.1 hr with rfl | hr
    · exact h.kept.size
    · exact h.later r hr
  · intro r hr name slot hslot
    have hbefore := (hown r name).symm.trans hslot
    rcases Set.mem_insert_iff.1 hr with rfl | hr
    · rw [own?_of_size_le (Nat.le_refl _)] at hbefore
      cases hbefore
    · exact (h.closed r hr name slot hbefore).mono (Set.subset_insert _ _)

/-- What is read of one's own record is one's own, and so are all forks that reading makes. -/
theorem slot? (h : Isolated old g₀ mine g) (hr : r ∈ mine) (name : String) :
    ∃ after, mine ⊆ after ∧ Isolated old g₀ after (r.slot? name g).2 ∧
      ∀ slot, (r.slot? name g).1 = some slot → slot.value.Within after := by
  obtain ⟨known, hknown, hsound⟩ := h.known
  obtain ⟨hold', hmine⟩ := Set.union_subset_iff.1 hknown
  have hforks : ∀ serial c base, .fork serial c base ∈ known → ¬OriginalCell old serial := by
    intro serial c base hfork horiginal
    obtain ⟨q, hq, hmade, hserial⟩ := horiginal
    have heq := hsound.alone q (hold' hq) _ hfork hserial
    rw [heq] at hmade
    cases hmade
  have hkept := leaves_slot? hsound hforks (hmine hr) name h.kept
  obtain ⟨after, hafter, hviewed, -, hpinned, -⟩ := hsound.viewed.slot? (hmine hr) name
  have hclosed : ∀ q ∈ mine ∪ {q ∈ after | g.cells.size ≤ q.serial}, ∀ name' slot,
      (r.slot? name g).2.own? q name' = some (some slot) →
        slot.value.Within (mine ∪ {q ∈ after | g.cells.size ≤ q.serial}) := by
    intro q hq name' slot hslot
    have hqafter : q ∈ after := hq.elim (fun hq => hafter (hmine hq)) And.left
    cases hbefore : g.own? q name' with
    | some own =>
      rw [hviewed.kept q name' own hbefore] at hslot
      obtain rfl := Option.some.inj hslot
      rcases hq with hq | hq
      · exact (h.closed q hq name' slot hbefore).mono Set.subset_union_left
      · rw [own?_of_size_le hq.2] at hbefore
        cases hbefore
    | none =>
      intro q' hq'
      exact .inr ⟨hviewed.sound.within q hqafter name' slot hslot q' hq',
        (hviewed.rising q hqafter name' hbefore slot hslot q' hq').1⟩
  refine ⟨mine ∪ {q ∈ after | g.cells.size ≤ q.serial}, Set.subset_union_left,
    ⟨⟨after, ?_, hviewed.sound⟩, ?_, hclosed, hkept⟩, ?_⟩
  · simp only [Set.union_subset_iff]
    exact ⟨hold'.trans hafter, hmine.trans hafter, fun q hq => hq.1⟩
  · intro q hq
    rcases hq with hq | hq
    · exact h.later q hq
    · exact h.kept.size.trans hq.2
  · intro slot hslot
    rcases hpinned slot hslot with hown | hplain
    · exact hclosed r (.inl hr) name slot hown
    · simp [Value.Within, hplain]

/-- Nothing that was there before can be obtained from one's own records. -/
theorem clear (h : Isolated old g₀ mine g) (hr : r ∈ mine) :
    Clear g₀.cells.size g r := by
  intro r' g' hobtained
  have hmine : ∃ after, Isolated old g₀ after g' ∧ r' ∈ after := by
    induction hobtained with
    | self => exact ⟨mine, h, hr⟩
    | @read _ _ _ name slot _ hslot hq ih =>
      obtain ⟨before, hbefore, hmem⟩ := ih
      obtain ⟨after, -, hafter, hwithin⟩ := hbefore.slot? hmem name
      exact ⟨after, hafter, hwithin slot hslot _ hq⟩
  obtain ⟨after, hafter, hmem⟩ := hmine
  exact hafter.later r' hmem

/-- Records from which nothing can be obtained that was there before are one's own, with all that they
hold. -/
theorem of_clear {records : Set RecordRef} (hknown : g.Knows (old ∪ records))
    (hclear : ∀ r ∈ records, Clear g₀.cells.size g r) (hkept : Leaves (OriginalCell old) g₀ g) :
    ∃ mine, records ⊆ mine ∧ Isolated old g₀ mine g := by
  obtain ⟨known, hsubset, hsound⟩ := hknown
  obtain ⟨hold, hrecords⟩ := Set.union_subset_iff.1 hsubset
  have hheld : ∀ r ∈ records, ∀ q, Relation.ReflTransGen g.Holds r q → q ∈ known := by
    intro r hr q hq
    induction hq with
    | refl => exact hrecords hr
    | tail _ hholds ih =>
      obtain ⟨name, slot, hown, hmem⟩ := hholds
      exact hsound.within _ ih name slot hown _ hmem
  refine ⟨{q | ∃ r ∈ records, Relation.ReflTransGen g.Holds r q}, fun r hr => ⟨r, hr, .refl⟩,
    ⟨⟨known, ?_, hsound⟩, ?_, ?_, hkept⟩⟩
  · refine Set.union_subset hold ?_
    intro q hq
    obtain ⟨r, hr, hholds⟩ := hq
    exact hheld r hr q hholds
  · intro q hq
    obtain ⟨r, hr, hholds⟩ := hq
    exact (hclear r hr).of_holds hholds
  · intro q hq name slot hown q' hq'
    obtain ⟨r, hr, hholds⟩ := hq
    exact ⟨r, hr, hholds.tail ⟨name, slot, hown, hq'⟩⟩

theorem fork (hold : g₀.Sound old) (c : ClassRef) {base : RecordRef} (hbase : base ∈ old) :
    Isolated old g₀ {(g₀.fork c base).1} (g₀.fork c base).2 := by
  have hown := own?_fork g₀ c base
  refine ⟨⟨insert (g₀.fork c base).1 old, ?_, ?_⟩, ?_, ?_, (Leaves.refl _ _).fork c base⟩
  · simp
  · refine hold.insert rfl (size_fork g₀ c base) hown fun base' heq => ?_
    cases heq
    exact hbase
  · intro r hr
    rw [Set.mem_singleton_iff.1 hr]
    exact Nat.le_refl _
  · intro r hr name slot hslot
    rw [Set.mem_singleton_iff.1 hr, hown, own?_of_size_le (Nat.le_refl _)] at hslot
    cases hslot

end Graph.Isolated

theorem Graph.isolated_allowsWriting (d : Directory) (old : Set RecordRef) (g₀ : Graph) :
    AllowsWriting d (fun _ _ _ => True) (fun _ => True) (Isolated old g₀) where
  slot known r name g hr hg := hg.slot? hr name
  resolving known r b g hr hg := hg.modify hr fun _ => rfl
  accepted _ _ _ _ _ _ := trivial
  present _ _ _ _ _ _ _ _ := trivial
  write known r name v source g hr _ hv hg := by
    refine hg.write hr name fun s hs => ?_
    cases hs
    exact hv
  unset known r name g hr hg := hg.write hr name fun s hs => by cases hs
  mark known r b g hr hg := hg.modify hr fun _ => rfl
  instantiate known c isNew g _ hg := hg.instantiate c isNew
  given known n g hg := hg.of_own?_eq ⟨hg.kept.size, hg.kept.cells⟩ (Nat.le_refl _) fun _ _ => rfl

/-- Whatever is asked of one's own record, its answer is one's own. -/
theorem Use.keeps_run (d : Directory) {old mine : Set RecordRef} {g₀ : Graph} {r : RecordRef}
    (hr : r ∈ mine) (use : Use) (hassigned : use.assigned.Within mine) :
    KeepsIn (Graph.Isolated old g₀) mine (use.run d r) fun after rs => ∀ q ∈ rs, q ∈ after := by
  have hI := Graph.isolated_allowsWriting d old g₀
  have hquiet : ∀ {α : Type} {action : Action α} {Q : Set RecordRef → α → Prop},
      KeepsIn (Graph.Isolated old g₀) mine action Q →
        KeepsIn (Graph.Isolated old g₀) mine (action >>= fun _ => pure [])
          fun after (rs : List RecordRef) => ∀ q ∈ rs, q ∈ after :=
    fun h => h.bind fun _ _ _ _ => .pure fun _ _ => by simp
  cases use with
  | read name =>
    exact (hI.toAllowsReading.keeps_read hr name).bind fun v _ _ hv => .pure fun after hafter q hq =>
      hafter (hv q hq)
  | set name v => exact hquiet (hI.keeps_set hr name hassigned)
  | setFrom source name v => exact hquiet (hI.keeps_setFrom hr source name hassigned)
  | unset name => exact hquiet (hI.keeps_unset hr name)
  | setSource name source => exact hquiet (hI.keeps_setSource hr name source)
  | setSources source s => exact hquiet (hI.keeps_setSources source hr s)
  | mark isNew => exact hquiet (hI.keeps_mark hr isNew)
  | decodeInto registry source t =>
    exact hquiet (hI.keeps_decodeInto (fun _ _ _ => trivial) source hr hassigned)

/-! ### Working with a fork -/

/-- Somebody has forked a record, holds what was obtained by reading through the fork, and uses it.
Others may do anything in between but change the originals of before or put what was there before into
what is held. -/
inductive Worked (d : Directory) (old : Set RecordRef) (g₀ : Graph) : Set RecordRef → Graph → Prop
  | fork (c : ClassRef) {base : RecordRef} (hbase : base ∈ old) :
    Worked d old g₀ {(g₀.fork c base).1} (g₀.fork c base).2
  | use {held : Set RecordRef} {g : Graph} (h : Worked d old g₀ held g) {r : RecordRef}
    (hr : r ∈ held) (use : Use) (hknown : g.Knows (old ∪ (held ∪ {q | q ∈ use.assigned.records})))
    (hclear : ∀ q ∈ use.assigned.records, g.Clear g₀.cells.size q) :
    Worked d old g₀ (held ∪ {q | ∃ rs, (use.run d r g).1 = .ok rs ∧ q ∈ rs}) (use.run d r g).2
  | others {held : Set RecordRef} {g g' : Graph} (h : Worked d old g₀ held g)
    (hsize : g.cells.size ≤ g'.cells.size)
    (hkept : ∀ r ∈ old, r.base? = none → g'.cell? r = g.cell? r)
    (hknown : g'.Knows (old ∪ held)) (hclear : ∀ r ∈ held, g'.Clear g₀.cells.size r) :
    Worked d old g₀ held g'

namespace Worked

variable {d : Directory} {old held : Set RecordRef} {g₀ g : Graph} {r : RecordRef}

theorem isolated (h : Worked d old g₀ held g) (hold : g₀.Sound old) :
    ∃ mine, held ⊆ mine ∧ Graph.Isolated old g₀ mine g := by
  induction h with
  | fork c hbase => exact ⟨_, subset_rfl, .fork hold c hbase⟩
  | @use held g _ r hr use hknown hclear ih =>
    obtain ⟨mine, hheld, hmine⟩ := ih
    have hall : ∀ q ∈ held ∪ {q | q ∈ use.assigned.records}, g.Clear g₀.cells.size q := by
      intro q hq
      exact hq.elim (fun hq => hmine.clear (hheld hq)) (hclear q)
    obtain ⟨all, hsubset, hisolated⟩ := Graph.Isolated.of_clear hknown hall hmine.kept
    obtain ⟨hheld', hassigned⟩ := Set.union_subset_iff.1 hsubset
    obtain ⟨after, hafter, hrun, hresult⟩ :=
      use.keeps_run d (hheld' hr) hassigned all subset_rfl g hisolated
    refine ⟨after, Set.union_subset (hheld'.trans hafter) ?_, hrun⟩
    intro q hq
    obtain ⟨rs, hrs, hq⟩ := hq
    exact hresult rs hrs q hq
  | others _ hsize hkept hknown hclear ih =>
    obtain ⟨mine, -, hmine⟩ := ih
    refine Graph.Isolated.of_clear hknown hclear ⟨hmine.kept.size.trans hsize, ?_⟩
    intro n hn horiginal
    obtain ⟨r, hr, hmade, rfl⟩ := horiginal
    rw [← hmine.kept.cells r.serial hn ⟨r, hr, hmade, rfl⟩]
    exact hkept r hr hmade

theorem knows (h : Worked d old g₀ held g) (hold : g₀.Sound old) : g.Knows (old ∪ held) := by
  obtain ⟨mine, hheld, hmine⟩ := h.isolated hold
  obtain ⟨known, hknown, hsound⟩ := hmine.known
  exact ⟨known, (Set.union_subset_union_right _ hheld).trans hknown, hsound⟩

/-- What is asked without assigning records needs no more than a record that is held. -/
theorem ask (h : Worked d old g₀ held g) (hold : g₀.Sound old) (hr : r ∈ held) (use : Use)
    (hplain : use.assigned.records = []) :
    Worked d old g₀ (held ∪ {q | ∃ rs, (use.run d r g).1 = .ok rs ∧ q ∈ rs}) (use.run d r g).2 :=
  h.use hr use (by simpa [hplain] using h.knows hold) (by simp [hplain])

/-- Every record that was there when a record was forked, and is no fork, keeps its slots with their
sources and whether it is new, whatever is done with the fork. -/
theorem original_kept (h : Worked d old g₀ held g) (hold : g₀.Sound old) (hr : r ∈ old)
    (hmade : r.base? = none) : g.cell? r = g₀.cell? r := by
  obtain ⟨mine, -, hmine⟩ := h.isolated hold
  exact hmine.cell? hold hr hmade

/-! ### An example: two friends -/

def personClass : ClassRef := .declared 0 "Person"

/-- Persons, who have a name and a friend. -/
def personClasses : Directory where
  classes := #[
    { definition := {
        attributes := [("name", ⟨"name", .plain, .scalar .string {}, none⟩),
          ("friend", ⟨"friend", .plain, .reference "Person" false {}, none⟩)]
        indexes := [], embedded := false, storable := false } }]

def person (serial : Nat) : RecordRef := .made serial personClass

/-- Two persons, each of whom is the friend of the other. -/
def friends : Graph where
  cells := #[
    { slots := [("name", some ⟨.string "Ada", .here⟩), ("friend", some ⟨.record (person 1), .here⟩)]
      isNew := true },
    { slots := [("name", some ⟨.string "Bob", .here⟩), ("friend", some ⟨.record (person 0), .here⟩)]
      isNew := false }]

/-- A fork of the first person, and what is read as its friend. -/
def forkedPerson : RecordRef := .fork 2 personClass (person 0)

def forkedFriend : RecordRef := .fork 3 personClass (person 1)

def friendsRead : Graph :=
  ((Use.read "friend").run personClasses forkedPerson (friends.fork personClass (person 0)).2).2

def friendRenamed : Graph :=
  ((Use.set "name" (.string "Eve")).run personClasses forkedFriend friendsRead).2

theorem friends_sound : friends.Sound {person 0, person 1} := by
  refine .of_cells ?_ ?_ ?_ ?_ <;>
    simp [friends, person, RecordRef.serial, Value.Within, Value.records, -Prod.forall]

theorem original_kept_friends :
    friendRenamed.value? forkedFriend "name" = some (.string "Eve") ∧
      friendRenamed.cell? (person 1) = friends.cell? (person 1) := by
  have hold := friends_sound
  have hread : Worked personClasses {person 0, person 1} friends _ friendsRead :=
    (Worked.fork personClass (Set.mem_insert _ _)).ask hold rfl (.read "friend") rfl
  have hrenamed : Worked personClasses {person 0, person 1} friends _ friendRenamed :=
    hread.ask hold (r := forkedFriend) (.inr ⟨_, rfl, List.mem_singleton.2 rfl⟩)
      (.set "name" (.string "Eve")) rfl
  exact ⟨rfl, original_kept hrenamed hold (Set.mem_insert_of_mem _ rfl) rfl⟩

end Worked

end TypedRecords
