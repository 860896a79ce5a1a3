import TypedRecords.Proofs.Record.Rebuilt
import TypedRecords.Proofs.Record.Writing

/-! # Drafting and sending records

Records that are made and changed attribute by attribute hold what their types accept, or were left
undefined when they were made. A peer accepts the tree of such a record exactly if nothing that it
reaches was left undefined where its type does not allow that.
-/

namespace TypedRecords

open Stateful (KeepsIn)

/-! ### Classes that arrive -/

namespace Directory

variable {d : Directory} {registry : RegistryRef} {c owner : ClassRef} {name : String}

/-- No registry has forks of classes. -/
def ForkFree (d : Directory) : Prop := ∀ r name c, d.find? r name = some c → c.base? = none

theorem forkFree_of_members (h : ∀ registry ∈ d.registries, ∀ member ∈ registry.members,
    member.2.base? = none) : d.ForkFree := by
  intro r name c hfind
  obtain ⟨registry, hregistry, hmember⟩ := mem_of_find? hfind
  exact h registry hregistry (name, c) hmember

/-- A class of a registry, or a fork of one while registries have no forks. -/
def Arrives (d : Directory) (registry : RegistryRef) (c : ClassRef) : Prop :=
  d.Registers registry c ∨ d.ForkFree ∧ ∃ base, d.Registers registry base ∧ c.isForkOf base = true

theorem Arrives.names (h : d.Arrives registry c) : d.Names registry c := by
  rcases h with hc | ⟨-, base, hbase, hfork⟩
  · exact hc.names
  · have hname := ClassRef.name_of_isSameOrForkOf (ClassRef.isSameOrForkOf_iff.2 (.inr hfork))
    exact ⟨base, hname ▸ hbase⟩

/-- The classes that are found within a class that is no fork are no forks either. -/
theorem ForkFree.component? (h : d.ForkFree) (howner : owner.base? = none)
    (hc : d.component? owner name = some c) : c.base? = none := by
  unfold Directory.component? at hc
  split at hc
  · cases hc
    exact howner
  · obtain ⟨r, -, hfind⟩ := Option.bind_eq_some_iff.1 hc
    exact h r name c hfind

/-- What arrives of a class may stand wherever the class may. -/
theorem Arrives.admits (h : d.Arrives registry c) (howner : d.Registers registry owner)
    {place : String} (hadmits : (d.site owner place).admits name c = true) :
    (d.site owner place).admits name (d.namesake registry c) = true := by
  rcases h with hc | ⟨hfree, base, hbase, hfork⟩
  · rwa [hc.namesake]
  · have hsame := ClassRef.isSameOrForkOf_iff.2 (.inr hfork)
    have hname := ClassRef.name_of_isSameOrForkOf hsame
    have hnamesake : d.namesake registry c = base := by
      rw [namesake, ← hname, hbase, Option.getD_some]
    rw [hnamesake]
    simp only [Site.admits, site] at hadmits ⊢
    cases hexpected : d.component? owner name with
    | none =>
      simp only [hexpected] at hadmits ⊢
      rwa [hname]
    | some expected =>
      simp only [hexpected] at hadmits ⊢
      have hroot := hfree.component? (hfree _ _ _ howner) hexpected
      rw [ClassRef.base_unique hsame hadmits (hfree _ _ _ hbase) hroot]
      exact ClassRef.isSameOrForkOf_self expected

end Directory

/-! ### Drafting records -/

/-- What a record has set is undefined or accepted by the type of its attribute. -/
def Graph.AcceptedOrUndefined (d : Directory) (r : RecordRef) (name : String) (v : Value) : Prop :=
  ∀ a, (d.definition r.cls).attribute? name = some a →
    v = .undefined ∨ a.type.check (d.site r.cls name) v = .ok ()

/-- Records that were made of the classes of a registry from nothing, and may since have been changed
attribute by attribute. -/
inductive Drafted (d : Directory) (registry : RegistryRef) : Set RecordRef → Graph → Prop
  | start (g : Graph) : Drafted d registry ∅ g
  | create {held : Set RecordRef} {g : Graph} (h : Drafted d registry held g) {c : ClassRef}
    (hc : d.Registers registry c) {values : Object} (hvalues : (Value.object values).Within held)
    (hinitial : ∀ a ∈ d.attributes c, AllowsWriting.InitialWithin held a) :
    Drafted d registry (held ∪ {r | (Record.create d c values g).1 = .ok r})
      (Record.create d c values g).2
  | set {held : Set RecordRef} {g : Graph} (h : Drafted d registry held g) {r : RecordRef}
    (hr : r ∈ held) (name : String) {v : Value} (hv : v.Within held) :
    Drafted d registry held (Record.set d r name v g).2
  | unset {held : Set RecordRef} {g : Graph} (h : Drafted d registry held g) {r : RecordRef}
    (hr : r ∈ held) (name : String) : Drafted d registry held (Record.unset d r name g).2

/-- Known records are no forks, are of the classes of a registry, and hold what their types accept or
what is undefined. -/
structure Graph.Assembled (d : Directory) (registry : RegistryRef) (known : Set RecordRef)
    (g : Graph) : Prop where
  sound : g.Sound known
  made : ∀ r ∈ known, r.base? = none
  found : ∀ r ∈ known, d.Registers registry r.cls
  slots : ∀ r ∈ known, ∀ name slot, g.own? r name = some (some slot) →
    AcceptedOrUndefined d r name slot.value

namespace Graph.Assembled

variable {d : Directory} {registry : RegistryRef} {known : Set RecordRef} {g g' : Graph}
  {r : RecordRef}

theorem empty (d : Directory) (registry : RegistryRef) (g : Graph) : g.Assembled d registry ∅ where
  sound := ⟨by simp, by simp, by simp, by simp⟩
  made := by simp
  found := by simp
  slots := by simp

theorem of_own?_eq (h : g.Assembled d registry known) (hsize : g.cells.size ≤ g'.cells.size)
    (hown : ∀ r name, g'.own? r name = g.own? r name) : g'.Assembled d registry known where
  sound := h.sound.of_own?_eq hsize hown
  made := h.made
  found := h.found
  slots r hr name slot hslot := h.slots r hr name slot (by rwa [hown] at hslot)

theorem write (h : g.Assembled d registry known) (hr : r ∈ known) {name : String} {slot : Option Slot}
    (hslot : ∀ s, slot = some s → AcceptedOrUndefined d r name s.value ∧ s.value.Within known) :
    (g.write r name slot).Assembled d registry known where
  sound := h.sound.write r name fun s hs => (hslot s hs).2
  made := h.made
  found := h.found
  slots r' hr' name' s hs := by
    rcases h.sound.own?_write hr hr' hs with hs | ⟨rfl, rfl, rfl⟩
    · exact h.slots r' hr' name' s hs
    · exact (hslot s rfl).1

theorem instantiate (h : g.Assembled d registry known) {c : ClassRef} (hc : d.Registers registry c)
    (isNew : Bool) :
    (g.instantiate c isNew).2.Assembled d registry (insert (g.instantiate c isNew).1 known) where
  sound := h.sound.insert rfl (by simp [Graph.instantiate]) (own?_push g isNew)
    fun _ hbase => by cases hbase
  made := by
    intro r hr
    rcases hr with rfl | hr
    · rfl
    · exact h.made r hr
  found := by
    intro r hr
    rcases hr with rfl | hr
    · exact hc
    · exact h.found r hr
  slots := by
    intro r hr name slot hslot
    have hslot := (own?_push g isNew r name).symm.trans hslot
    rcases hr with rfl | hr
    · rw [own?_of_size_le (Nat.le_refl _)] at hslot
      cases hslot
    · exact h.slots r hr name slot hslot

/-- What arrives of a record is accepted unless it was left undefined. -/
theorem lands_iff (h : g.Assembled d registry known) (hd : d.Lawful) (hr : r ∈ known)
    (hportable : ∀ entry ∈ g.fieldsOf d r, entry.2.Portable (d.Arrives registry)) :
    g.Lands d registry r ↔ ∀ a ∈ d.attributes r.cls, g.value? r a.name = some .undefined →
      a.type.allowsUndefined = true := by
  constructor
  · intro hlands a ha hv
    exact ValueType.check_undefined_iff.1 (hlands a ha _ hv)
  · intro hdefined a ha v hv
    obtain ⟨source, hown⟩ := value?_eq_some_iff.1 hv
    have hattribute : (d.definition r.cls).attribute? a.name = some a :=
      (hd.definition r.cls).attribute?_of_mem ha
    rcases h.slots r hr a.name _ hown a hattribute with rfl | hcheck
    · exact ValueType.check_undefined (hdefined a ha hv)
    · have hv := hportable (a.name, v) (Graph.mem_fieldsAmong.2 ⟨a, ha, rfl, hv⟩)
      exact hv.check_mapClasses (fun c name hc => hc.admits (h.found r hr)) hcheck

end Graph.Assembled

theorem Graph.assembled_allowsWriting {d : Directory} (registry : RegistryRef) :
    AllowsWriting d (Graph.AcceptedOrUndefined d) (d.Registers registry)
      (fun known g => g.Assembled d registry known) where
  slot known r name g hr hg := by
    rw [RecordRef.slot?_made (hg.made r hr)]
    refine ⟨known, subset_rfl, hg, fun slot hslot => ?_⟩
    exact hg.sound.within r hr name slot (Option.join_eq_some_iff.1 hslot)
  resolving known r b g _ hg := hg.of_own?_eq (Nat.le_of_eq (size_modify g r _).symm)
    (Graph.own?_markResolving g r b)
  accepted r name a v ha hv b hb := by
    rw [ha] at hb
    cases hb
    exact hv
  present known r name g hr hg slot hslot := by
    rw [RecordRef.slot?_made (hg.made r hr)] at hslot
    exact hg.slots r hr name slot (Option.join_eq_some_iff.1 hslot)
  write known r name v source g hr hv hwithin hg := by
    refine hg.write hr fun s hs => ?_
    cases hs
    exact ⟨hv, hwithin⟩
  unset known r name g hr hg := hg.write hr fun s hs => by cases hs
  mark known r b g _ hg := hg.of_own?_eq (Nat.le_of_eq (size_modify g r _).symm)
    (Graph.own?_mark g r b)
  instantiate known c isNew g hc hg := hg.instantiate hc isNew
  given known n g hg := hg.of_own?_eq (Nat.le_refl _) fun _ _ => rfl

namespace Drafted

open Record

variable {d : Directory} {registry : RegistryRef} {held : Set RecordRef} {g : Graph} {x : RecordRef}

theorem assembled (hd : d.Lawful) (h : Drafted d registry held g) :
    ∃ known, held ⊆ known ∧ g.Assembled d registry known := by
  have hI := Graph.assembled_allowsWriting (d := d) registry
  induction h with
  | start g => exact ⟨∅, subset_rfl, .empty d registry g⟩
  | @create held g _ c hc values hvalues hinitial ih =>
    obtain ⟨known, hheld, hg⟩ := ih
    obtain ⟨after, hafter, hg', hresult⟩ := hI.keeps_create hd hc (hvalues.mono hheld)
      (fun a ha v hv => (hinitial a ha v hv).mono hheld) known subset_rfl g hg
    refine ⟨after, Set.union_subset (hheld.trans hafter) ?_, hg'⟩
    exact fun r hr => hresult r hr
  | @set held g _ r hr name v hv ih =>
    obtain ⟨known, hheld, hg⟩ := ih
    obtain ⟨after, hafter, hg', -⟩ :=
      hI.keeps_set (hheld hr) name (hv.mono hheld) known subset_rfl g hg
    exact ⟨after, hheld.trans hafter, hg'⟩
  | @unset held g _ r hr name ih =>
    obtain ⟨known, hheld, hg⟩ := ih
    obtain ⟨after, hafter, hg', -⟩ := hI.keeps_unset (hheld hr) name known subset_rfl g hg
    exact ⟨after, hheld.trans hafter, hg'⟩

/-- The tree of a drafted record is accepted exactly if nothing in it was left undefined where its type
does not allow that. -/
theorem received_iff (hd : d.Lawful) (h : Drafted d registry held g) (hx : x ∈ held)
    (hacyclic : ∀ r, g.Reaches d x r → ¬Relation.TransGen (g.Nests d) r r)
    (hnames : ∀ r, g.Reaches d x r → ∀ a ∈ d.attributes r.cls,
      a.name ≠ Tree.classTag ∧ a.name ≠ Tree.newTag)
    (hportable : ∀ r, g.Reaches d x r → ∀ entry ∈ g.fieldsOf d r,
      entry.2.Portable (d.Arrives registry))
    (source : Source) :
    ∃ t, encode d .remote .all (.record x) g = (.ok t, g) ∧
      ∀ g₁, (∃ v g₂, decode d registry source t g₁ = (.ok v, g₂)) ↔
        ∀ r, g.Reaches d x r → ∀ a ∈ d.attributes r.cls, g.value? r a.name = some .undefined →
          a.type.allowsUndefined = true := by
  obtain ⟨known, hheld, hg⟩ := h.assembled hd
  have hknown : ∀ r, g.Reaches d x r → r ∈ known :=
    fun r hr => hr.mem (fun _ hq _ => hg.sound.nests hq) (hheld hx)
  have hsend : g.Sendable d registry (d.Names registry) x :=
    { made := fun r hr => hg.made r (hknown r hr)
      acyclic := hacyclic
      names := hnames
      found := fun r hr => hg.found r (hknown r hr)
      portable := fun r hr entry hentry => (hportable r hr entry hentry).imp fun _ hc => hc.names }
  have hlands : ∀ r, g.Reaches d x r → (g.Lands d registry r ↔ _) :=
    fun r hr => hg.lands_iff hd (hknown r hr) (hportable r hr)
  obtain ⟨t, hencode, hdepicts⟩ := encode_remote hd hg.sound (hheld hx) hsend.toTreelike
  have hone : ∀ r ∈ (Value.record x).records, g.Sendable d registry (d.Names registry) r := by
    intro r hr
    rwa [List.mem_singleton.1 hr]
  refine ⟨t, hencode, fun g₁ => ⟨fun hdecode r hr => ?_, fun hdefined => ?_⟩⟩
  · obtain ⟨v, g₂, hdecode⟩ := hdecode
    refine (hlands r hr).1 ?_
    exact lands_of_decode hd hdepicts (.record x) hone hdecode x (List.mem_singleton.2 rfl) r hr
  · refine decode_of_lands hd hdepicts (.record x) hone (fun r hr q hq => ?_) g₁
    rw [List.mem_singleton.1 hr] at hq
    exact (hlands q hq).2 (hdefined q hq)

/-! ### An example: films -/

def filmClass : ClassRef := .declared 0 "Film"

/-- A fork of the class of films. -/
def shortFilmClass : ClassRef := .fork 1 filmClass

def filmDefinition : Definition where
  attributes := [("title", ⟨"title", .plain, .scalar .string {}, none⟩),
    ("sequel", ⟨"sequel", .plain, .reference "Film" false { optional := true }, none⟩),
    ("kind", ⟨"kind", .plain, .reference "Film" true { optional := true }, none⟩)]
  indexes := []
  embedded := false
  storable := false

/-- Films have a title, and may have a sequel and a class of films. -/
def filmClasses : Directory where
  classes := #[{ definition := filmDefinition, registry := some ⟨0⟩ },
    { definition := filmDefinition, registry := some ⟨0⟩ }]
  registries := #[{ members := [("Film", filmClass)] }]

def film (serial : Nat) : RecordRef := .made serial filmClass

/-- A film with a title and nothing else. -/
def sequel : Graph := (Record.create filmClasses filmClass [("title", .string "Aliens")] {}).2

/-- A film with a sequel and a class, which was given no title at first. -/
def films : Graph :=
  (Record.set filmClasses (film 1) "title" (.string "Alien")
    (Record.create filmClasses filmClass [("sequel", .record (film 0)), ("kind", .classRef shortFilmClass)]
      sequel).2).2

/-- A film without a title. -/
def untitled : Graph := (Record.create filmClasses filmClass [] {}).2

theorem filmClasses_lawful : filmClasses.Lawful :=
  Directory.lawful_of_entries (by decide) (by decide)

theorem fieldsOf_films : films.fieldsOf filmClasses (film 1) =
    [("title", .string "Alien"), ("sequel", .record (film 0)), ("kind", .classRef shortFilmClass)] :=
  rfl

theorem fieldsOf_sequel : films.fieldsOf filmClasses (film 0) =
    [("title", .string "Aliens"), ("sequel", .undefined), ("kind", .undefined)] :=
  rfl

theorem filmClasses_initial {held : Set RecordRef} :
    ∀ a ∈ filmClasses.attributes filmClass, AllowsWriting.InitialWithin held a := by
  have hthree : filmClasses.attributes filmClass = [_, _, _] := rfl
  rw [hthree]
  simp [AllowsWriting.InitialWithin]

theorem filmClasses_names : ∀ a ∈ filmClasses.attributes filmClass,
    a.name ≠ Tree.classTag ∧ a.name ≠ Tree.newTag := by
  decide

theorem films_drafted : ∃ held, Drafted filmClasses ⟨0⟩ held films ∧ film 1 ∈ held := by
  have hfound : filmClasses.Registers ⟨0⟩ filmClass := rfl
  have hstart : Drafted filmClasses ⟨0⟩ ∅ {} := .start {}
  have htitle : (Value.object [("title", .string "Aliens")]).Within ∅ := fun r hr => by cases hr
  have hsequel := hstart.create hfound htitle filmClasses_initial
  have hvalues : (Value.object [("sequel", .record (film 0)), ("kind", .classRef shortFilmClass)]).Within
      (∅ ∪ {r | (Record.create filmClasses filmClass [("title", .string "Aliens")] {}).1 = .ok r}) := by
    intro r hr
    rw [List.mem_singleton.1 hr]
    exact .inr rfl
  have hfilms := hsequel.create hfound hvalues filmClasses_initial
  exact ⟨_, hfilms.set (.inr rfl) "title" (v := .string "Alien") (fun r hr => by cases hr), .inr rfl⟩

theorem films_nests {r q : RecordRef} (hr : r ∈ ({film 1, film 0} : Set RecordRef))
    (h : films.Nests filmClasses r q) : r = film 1 ∧ q = film 0 := by
  obtain ⟨entry, hentry, hq⟩ := Graph.nests_iff_field.1 h
  have hheld := Value.mem_records_object.2 ⟨entry, hentry, hq⟩
  rcases hr with rfl | rfl
  · exact ⟨rfl, List.mem_singleton.1 hheld⟩
  · cases hheld

theorem films_reaches {r : RecordRef} (h : films.Reaches filmClasses (film 1) r) :
    r ∈ ({film 1, film 0} : Set RecordRef) :=
  h.mem (fun _ hr _ hq => .inr (films_nests hr hq).2) (Set.mem_insert _ _)

theorem films_acyclic {r : RecordRef} (h : films.Reaches filmClasses (film 1) r) :
    ¬Relation.TransGen (films.Nests filmClasses) r r := by
  refine Graph.acyclic_of_rank RecordRef.serial (fun _ hr _ hq => .inr (films_nests hr hq).2)
    (fun r hr q hq => ?_) (films_reaches h)
  obtain ⟨rfl, rfl⟩ := films_nests hr hq
  exact Nat.zero_lt_one

theorem films_portable {r : RecordRef} (h : films.Reaches filmClasses (film 1) r) :
    ∀ entry ∈ films.fieldsOf filmClasses r, entry.2.Portable (filmClasses.Arrives ⟨0⟩) := by
  have hfree : filmClasses.ForkFree := Directory.forkFree_of_members (by decide)
  have hshort : filmClasses.Arrives ⟨0⟩ shortFilmClass := .inr ⟨hfree, filmClass, rfl, rfl⟩
  rcases films_reaches h with rfl | rfl
  · rw [fieldsOf_films]
    simp [Value.Portable.leaf (v := .string "Alien") rfl, Value.Portable.record,
      Value.Portable.classRef hshort]
  · rw [fieldsOf_sequel]
    simp [Value.Portable.leaf (v := .string "Aliens") rfl, Value.Portable.undefined]

/-- The film that was given its title later arrives, and of its class what that was forked from. -/
theorem received_iff_films :
    ∃ t, encode filmClasses .remote .all (.record (film 1)) films = (.ok t, films) ∧
      ∀ g₁, ∃ v g₂, decode filmClasses ⟨0⟩ .here t g₁ = (.ok v, g₂) := by
  obtain ⟨held, hdrafted, hheld⟩ := films_drafted
  obtain ⟨t, hencode, hiff⟩ := received_iff filmClasses_lawful hdrafted hheld
    (fun r hr => films_acyclic hr)
    (fun r hr => by rcases films_reaches hr with rfl | rfl <;> exact filmClasses_names)
    (fun r hr => films_portable hr) .here
  refine ⟨t, hencode, fun g₁ => (hiff g₁).2 fun r hr a ha hv => ?_⟩
  have hcls : r.cls = filmClass := by rcases films_reaches hr with rfl | rfl <;> rfl
  have hthree : filmClasses.attributes filmClass = [_, _, _] := rfl
  rw [hcls, hthree] at ha
  simp only [List.mem_cons, List.not_mem_nil, or_false] at ha
  rcases films_reaches hr with rfl | rfl <;> rcases ha with rfl | rfl | rfl <;>
    first | rfl | cases hv

theorem untitled_reaches {r : RecordRef} (h : untitled.Reaches filmClasses (film 0) r) :
    r ∈ ({film 0} : Set RecordRef) := by
  refine h.mem (fun r hr q hq => ?_) rfl
  obtain rfl := hr
  obtain ⟨entry, hentry, hq⟩ := Graph.nests_iff_field.1 hq
  cases Value.mem_records_object.2 ⟨entry, hentry, hq⟩

/-- A film that was given no title is sent, but is not accepted. -/
theorem untitled_rejected :
    (∃ held, Drafted filmClasses ⟨0⟩ held untitled ∧ film 0 ∈ held) ∧
      (∀ r, untitled.Reaches filmClasses (film 0) r → r = film 0) ∧
      ¬untitled.Nests filmClasses (film 0) (film 0) ∧
      (∀ a ∈ filmClasses.attributes filmClass, a.name ≠ Tree.classTag ∧ a.name ≠ Tree.newTag) ∧
      untitled.fieldsOf filmClasses (film 0) =
        [("title", .undefined), ("sequel", .undefined), ("kind", .undefined)] ∧
      ∃ t e g₂, encode filmClasses .remote .all (.record (film 0)) untitled = (.ok t, untitled) ∧
        decode filmClasses ⟨0⟩ .here t {} = (.error e, g₂) := by
  refine ⟨?_, fun r hr => untitled_reaches hr, ?_, filmClasses_names, rfl, _, _, _, rfl, rfl⟩
  · have hfound : filmClasses.Registers ⟨0⟩ filmClass := rfl
    have hstart : Drafted filmClasses ⟨0⟩ ∅ {} := .start {}
    have hnothing : (Value.object []).Within ∅ := fun r hr => by cases hr
    exact ⟨_, hstart.create hfound hnothing filmClasses_initial, .inr rfl⟩
  · intro h
    obtain ⟨entry, hentry, hq⟩ := Graph.nests_iff_field.1 h
    cases Value.mem_records_object.2 ⟨entry, hentry, hq⟩

end Drafted

end TypedRecords
