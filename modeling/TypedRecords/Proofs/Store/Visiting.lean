import TypedRecords.Proofs.Record.Typed
import TypedRecords.Proofs.Store.Delivering
import TypedRecords.Proofs.Store.Settling

/-! # Following references

A load remembers under which identifiers it has read documents. It follows all records that are held by
what was read: those that are stored and identified and of which more than identifiers is asked are
loaded, but for those whose document has been read before, into whatever record and for whatever
attributes.

The records that a document brings are in regions of their own, so that no load changes what another one
has delivered.
-/

namespace TypedRecords

open TypedRecords.Graph (Leaves Laid)
open RecordRef (Region)

namespace Store

variable {d : Directory} {s : Store} {S S' : Session}

/-! ### Documents that were read -/

/-- A document that was read into a record: what was asked for, what was read for it, and under which
identifier. -/
structure Visit where
  record : RecordRef
  asked : Selector
  selector : Selector
  identifier : String × Value

namespace Visit

/-- What a load remembers of having read a document. -/
def entry (s : Store) (e : Visit) : String × Object :=
  (s.collectionName e.record.cls, [e.identifier])

def document? (s : Store) (e : Visit) : Option Document := s.stored? e.record.cls [e.identifier]

/-- The document was read as it was asked for, and the record has what it presents of the attributes that
were asked for. -/
structure Complete (d : Directory) (s : Store) (g : Graph) (e : Visit) : Prop where
  chosen : ∃ g₀ g₁, readSelector d e.record e.asked g₀ = (.ok e.selector, g₁)
  names : ∀ a ∈ d.attributes e.record.cls, e.asked.Selects a.name → a.name ∈ e.selector.names
  identifier : ∃ v, g.value? e.record e.identifier.1 = some v ∧
    (v = e.identifier.2 ∨ v.beq e.identifier.2 = true)
  attributes : ∀ document, e.document? s = some document →
    ∀ a ∈ d.attributes e.record.cls, e.asked.Selects a.name → document.Presents a →
      ∃ v, g.own? e.record a.name = some (some ⟨v, .store⟩)

theorem Complete.leaves {kept : Nat → Prop} {g g' : Graph} {e : Visit} (h : e.Complete d s g)
    (hg : Leaves kept g g') (hlt : e.record.serial < g.cells.size) (hkept : kept e.record.serial) :
    e.Complete d s g' where
  chosen := h.chosen
  names := h.names
  identifier := by
    rw [Graph.value?_congr (hg.own? hlt hkept e.identifier.1)]
    exact h.identifier
  attributes document hdocument a ha hs hpresents := by
    rw [hg.own? hlt hkept a.name]
    exact h.attributes document hdocument a ha hs hpresents

end Visit

/-- What becomes of a record that is held where so much is asked: it is loaded, unless it cannot be or
need not be, or the document that it refers to has been read into another record. -/
inductive Followed (d : Directory) (s : Store) (g : Graph) (visits : List Visit) (sub : Selector)
    (r : RecordRef) : Prop
  | unregistered (h : s.isRegistered r.cls = false)
  | unidentified (h : g.identifier? d r = none)
  | identified (h : (d.definition r.cls).identifierSelector.includes sub = true)
  | read {e : Visit} (he : e ∈ visits) (record : e.record = r) (asked : e.asked = sub)
  | elsewhere {e : Visit} (he : e ∈ visits) (other : e.record ≠ r)
    (collection : s.collectionName e.record.cls = s.collectionName r.cls) {v : Value}
    (value : g.value? r e.identifier.1 = some v) (same : e.identifier.2.beq v = true)

theorem Followed.mono {g : Graph} {visits visits' : List Visit} {sub : Selector} {r : RecordRef}
    (h : Followed d s g visits sub r) (hvisits : visits ⊆ visits') :
    Followed d s g visits' sub r := by
  cases h with
  | unregistered h => exact .unregistered h
  | unidentified h => exact .unidentified h
  | identified h => exact .identified h
  | read he hrecord hasked => exact .read (hvisits he) hrecord hasked
  | elsewhere he hother hcollection hvalue hsame =>
    exact .elsewhere (hvisits he) hother hcollection hvalue hsame

theorem Followed.leaves {kept : Nat → Prop} {g g' : Graph} {visits : List Visit} {sub : Selector}
    {r : RecordRef} (h : Followed d s g visits sub r) (hr : r.base? = none) (hg : Leaves kept g g')
    (hlt : r.serial < g.cells.size) (hkept : kept r.serial) : Followed d s g' visits sub r := by
  cases h with
  | unregistered h => exact .unregistered h
  | unidentified h =>
    refine .unidentified (h ▸ Graph.identifier?_congr fun a _ => ?_)
    exact seen?_congr_made hr (hg.own? hlt hkept a.name)
  | identified h => exact .identified h
  | read he hrecord hasked => exact .read he hrecord hasked
  | elsewhere he hother hcollection hvalue hsame =>
    refine .elsewhere he hother hcollection ?_ hsame
    rw [Graph.value?_congr (hg.own? hlt hkept _), hvalue]

/-- Visits of records in certain cells, and in new ones from `lo` on: each is complete, and what its
record holds has been followed. -/
structure Explored (d : Directory) (s : Store) (place : Nat → Prop) (lo : Nat)
    (visits new : List Visit) (g : Graph) : Prop where
  placed : ∀ e ∈ new, (place e.record.serial ∨ lo ≤ e.record.serial) ∧
    e.record.serial < g.cells.size
  complete : ∀ e ∈ new, e.Complete d s g
  held : ∀ e ∈ new, (e.document? s).isSome → ∀ name ∈ e.selector.names,
    ∀ r ∈ g.held e.record name, r ∈ Region lo g.cells.size ∧
      Followed d s g visits (e.selector.get name) r

namespace Explored

variable {place place' : Nat → Prop} {lo lo' : Nat} {visits visits' new new' : List Visit}
  {g g' : Graph}

theorem nil (g : Graph) : Explored d s place lo visits [] g :=
  ⟨by simp, by simp, by simp⟩

theorem leaves {kept : Nat → Prop} (h : Explored d s place lo visits new g) (hg : Leaves kept g g')
    (hkept : ∀ n < g.cells.size, place n ∨ lo ≤ n → kept n) :
    Explored d s place lo visits new g' where
  placed e he := by
    obtain ⟨hplace, hlt⟩ := h.placed e he
    exact ⟨hplace, hlt.trans_le hg.size⟩
  complete e he := by
    obtain ⟨hplace, hlt⟩ := h.placed e he
    exact (h.complete e he).leaves hg hlt (hkept _ hlt hplace)
  held e he hdocument name hname r hr := by
    obtain ⟨hplace, hlt⟩ := h.placed e he
    rw [Graph.held_congr (hg.own? hlt (hkept _ hlt hplace) name)] at hr
    obtain ⟨hregion, hfollowed⟩ := h.held e he hdocument name hname r hr
    exact ⟨Graph.region_subset (Nat.le_refl _) hg.size hregion,
      hfollowed.leaves hregion.1 hg hregion.2.2 (hkept _ hregion.2.2 (.inr hregion.2.1))⟩

theorem mono (h : Explored d s place lo visits new g) (hplace : ∀ n, place n → place' n)
    (hlo : lo' ≤ lo) (hvisits : visits ⊆ visits') : Explored d s place' lo' visits' new g where
  placed e he := by
    obtain ⟨hplaced, hlt⟩ := h.placed e he
    exact ⟨hplaced.imp (hplace _) hlo.trans, hlt⟩
  complete := h.complete
  held e he hdocument name hname r hr := by
    obtain ⟨hregion, hfollowed⟩ := h.held e he hdocument name hname r hr
    exact ⟨Graph.region_subset hlo (Nat.le_refl _) hregion, hfollowed.mono hvisits⟩

theorem append (h : Explored d s place lo visits new g) (h' : Explored d s place lo visits new' g) :
    Explored d s place lo visits (new ++ new') g where
  placed e he := (List.mem_append.1 he).elim (h.placed e) (h'.placed e)
  complete e he := (List.mem_append.1 he).elim (h.complete e) (h'.complete e)
  held e he := (List.mem_append.1 he).elim (h.held e) (h'.held e)

theorem cons {e : Visit} (hplace : place e.record.serial) (hlt : e.record.serial < g.cells.size)
    (hcomplete : e.Complete d s g)
    (hheld : ∀ name ∈ e.selector.names, ∀ r ∈ g.held e.record name, r ∈ Region lo g.cells.size ∧
      Followed d s g visits (e.selector.get name) r)
    (h : Explored d s place' lo' visits new g) (hlater : ∀ n, place' n → lo ≤ n) (hlo : lo ≤ lo') :
    Explored d s place lo visits (e :: new) g where
  placed := by
    refine List.forall_mem_cons.2 ⟨⟨.inl hplace, hlt⟩, fun e' he' => ?_⟩
    obtain ⟨hplaced, hlt'⟩ := h.placed e' he'
    exact ⟨.inr (hplaced.elim (hlater _) hlo.trans), hlt'⟩
  complete := List.forall_mem_cons.2 ⟨hcomplete, h.complete⟩
  held := by
    refine List.forall_mem_cons.2 ⟨fun _ => hheld, fun e' he' hdocument name hname r hr => ?_⟩
    obtain ⟨hregion, hfollowed⟩ := h.held e' he' hdocument name hname r hr
    exact ⟨Graph.region_subset hlo (Nat.le_refl _) hregion, hfollowed⟩

variable {before : List Visit}

/-- What is explored later leaves the visits of before as they are. -/
theorem andThen {kept : Nat → Prop} {place₁ place₂ : Nat → Prop}
    (h : Explored d s place₁ lo (before ++ new) new g)
    (h' : Explored d s place₂ g.cells.size (before ++ new ++ new') new' g') (hg : Leaves kept g g')
    (hkept : ∀ n, place₁ n ∨ lo ≤ n → kept n) (hlo : lo ≤ g.cells.size)
    (hfirst : ∀ n, place₁ n → place n) (hlater : ∀ n, place₂ n → place n) :
    Explored d s place lo (before ++ (new ++ new')) (new ++ new') g' := by
  rw [← List.append_assoc]
  exact ((h.leaves hg fun n _ => hkept n).mono hfirst (Nat.le_refl _)
    (List.subset_append_left _ _)).append (h'.mono hlater hlo (List.Subset.refl _))

/-- Where the visits of before are in certain cells, and so are the places of new ones, all are. -/
theorem all_placed {P : Nat → Prop} (h : Explored d s place g.cells.size (before ++ new) new g')
    (hsize : g.cells.size ≤ g'.cells.size)
    (hbefore : ∀ e ∈ before, e.record.serial < g.cells.size ∧ P e.record.serial)
    (hplaces : ∀ n, place n ∨ g.cells.size ≤ n → P n) :
    ∀ e ∈ before ++ new, e.record.serial < g'.cells.size ∧ P e.record.serial := by
  intro e he
  rcases List.mem_append.1 he with he | he
  · obtain ⟨hlt, hin⟩ := hbefore e he
    exact ⟨hlt.trans_le hsize, hin⟩
  · obtain ⟨hplace, hlt⟩ := h.placed e he
    exact ⟨hlt, hplaces _ hplace⟩

end Explored

/-- What a load has done about its record: it has read the document, or it found that the document was
read before. -/
inductive Attended (d : Directory) (s : Store) (asked : Selector) (before new : List Visit)
    (r : RecordRef) (S S' : Session) : Bool → Prop
  | read {found : Bool} {e : Visit} (he : e ∈ new) (record : e.record = r)
    (selector : e.asked = asked)
    (chosen : ∃ g, readSelector d r asked S.graph = (.ok e.selector, g))
    (document : found = (e.document? s).isSome) :
    Attended d s asked before new r S S' found
  | visited {e : Visit} (he : e ∈ before)
    (collection : s.collectionName e.record.cls = s.collectionName r.cls) {v : Value}
    (identifier : S.graph.identifier? d r = some (e.identifier.1, v))
    (same : e.identifier.2.beq v = true) (none : new = []) (session : S' = S) :
    Attended d s asked before new r S S' true

/-- What is known of every load that reads at most so many documents inside each other. -/
def Explores (d : Directory) (s : Store) (steps : Nat) : Prop :=
  ∀ (r : RecordRef) (asked : Selector) (throwIfMissing found : Bool) (before : List Visit)
    (visited' : Visited) (S S' : Session) (known : Set RecordRef),
    S.graph.Typed d known → s.Alike S.store → r ∈ known → r.base? = none →
      S.graph.isResolving r = false → (∀ e ∈ before, e.record.serial < S.graph.cells.size) →
      loadWithin d steps r asked throwIfMissing (before.map (Visit.entry s)) S =
        (.ok (found, visited'), S') →
      ∃ new, visited' = (before ++ new).map (Visit.entry s) ∧
        Explored d s (· = r.serial) S.graph.cells.size (before ++ new) new S'.graph ∧
        Attended d s asked before new r S S' found ∧ KeepsIdentifier d S.graph S'.graph r

/-! ### Following what a record holds -/

/-- Where following one record leads. -/
structure Onward (d : Directory) (s : Store) (sub : Selector) (before new : List Visit)
    (r : RecordRef) (lo mid : Nat) (known : Set RecordRef) (S S' : Session) : Prop where
  explored : Explored d s (· = r.serial) S.graph.cells.size (before ++ new) new S'.graph
  followed : Followed d s S'.graph (before ++ new) sub r
  settled : Settled d s lo mid r S.graph S'.graph
  leaves : Leaves (fun n => ¬(lo ≤ n ∧ n < mid)) S.graph S'.graph
  typed : ∃ after, known ⊆ after ∧ S'.graph.Typed d after
  alike : s.Alike S'.store

section

variable (hd : d.Lawful) (hcoherent : d.Coherent) (htrees : s.Trees) {steps : Nat}
  (hsteps : Explores d s steps)

include hd hcoherent htrees hsteps

theorem followEach_onward {sub : Selector} {r : RecordRef} {rest : List RecordRef} {lo mid : Nat}
    {before : List Visit} {visited' : Visited} {known : Set RecordRef}
    (htyped : S.graph.Typed d known) (hs : s.Alike S.store) (hknown : r ∈ known)
    (hr : r ∈ Region lo mid) (hconfined : S.graph.Confined lo mid)
    (hbefore : ∀ e ∈ before, e.record.serial < S.graph.cells.size ∧
      ¬(lo ≤ e.record.serial ∧ e.record.serial < mid))
    (h : followEach d steps sub (r :: rest) (before.map (Visit.entry s)) S = (.ok visited', S')) :
    ∃ new S₁, Onward d s sub before new r lo mid known S S₁ ∧
      followEach d steps sub rest ((before ++ new).map (Visit.entry s)) S₁ = (.ok visited', S') := by
  rw [followEach, followRecords] at h
  obtain ⟨_, _, hget, h₁⟩ := Stateful.bind_eq_ok h
  cases hget
  rw [Stateful.bind_of_ok (onRecords_of_eq (mustFollow_eq hr.1 S.store sub S.graph)),
    hs.isRegistered_eq] at h₁
  have hskip : Followed d s S.graph before sub r →
      Onward d s sub before [] r lo mid known S S := fun hfollowed =>
    ⟨.nil _, by rwa [List.append_nil], .refl hr hconfined, .refl _ _,
      ⟨known, subset_rfl, htyped⟩, hs⟩
  cases hregistered : s.isRegistered r.cls with
  | false =>
    rw [hregistered] at h₁
    exact ⟨[], S, hskip (.unregistered hregistered), by rwa [List.append_nil]⟩
  | true =>
    cases hidentifier : S.graph.identifier? d r with
    | none =>
      rw [hregistered, hidentifier] at h₁
      exact ⟨[], S, hskip (.unidentified hidentifier), by rwa [List.append_nil]⟩
    | some identifier =>
      cases hincludes : (d.definition r.cls).identifierSelector.includes sub with
      | true =>
        rw [hregistered, hidentifier, hincludes] at h₁
        exact ⟨[], S, hskip (.identified hincludes), by rwa [List.append_nil]⟩
      | false =>
        rw [hregistered, hidentifier, hincludes] at h₁
        obtain ⟨visited₁, S₁, hstep, hlater⟩ := Stateful.bind_eq_ok h₁
        obtain ⟨⟨found, visited₂⟩, S₂, hload, hpure⟩ := Stateful.bind_eq_ok hstep
        cases hpure
        obtain ⟨new, rfl, hexplored, hattended, hkeeps⟩ := hsteps r sub false found before _ S _ known htyped
          hs hknown hr.1 (hconfined.calm r hr) (fun e he => (hbefore e he).1) hload
        obtain ⟨hleaves, hs₁⟩ := loadWithin_leaves htrees hconfined hs hr hload
        obtain ⟨after, hafter, htyped₁, -⟩ := keeps_loadWithin (Graph.typed_allowsWriting hd)
          hcoherent htrees htyped hs hknown hload
        have hsettled : Settled d s lo mid r S.graph S₁.graph :=
          ⟨hr, hkeeps, fun hnone => absurd (hregistered.symm.trans hnone) (by decide)⟩
        refine ⟨new, _, ⟨hexplored, ?_, hsettled, hleaves, ⟨after, hafter, htyped₁⟩, hs₁⟩, hlater⟩
        cases hattended with
        | read he hrecord hasked _ _ => exact .read (List.mem_append_right _ he) hrecord hasked
        | @visited e he hcollection v hfound hsame hnone hsession =>
          subst hsession
          have hother : e.record ≠ r := by
            rintro rfl
            exact (hbefore e he).2 hr.2
          have hvalue := (Graph.identifier?_eq_some hfound).2.1
          rw [seen?_made hr.1] at hvalue
          exact .elsewhere (List.mem_append_left _ he) hother hcollection hvalue hsame

/-- The loop over the records that one attribute holds. -/
theorem followEach_explores {sub : Selector} {rs : List RecordRef} {lo hi : Nat}
    {before : List Visit} {visited' : Visited} {known : Set RecordRef}
    (htyped : S.graph.Typed d known) (hs : s.Alike S.store) (hrs : ∀ r ∈ rs, r ∈ known)
    (hlaid : S.graph.Laid lo rs hi) (hhi : hi ≤ S.graph.cells.size)
    (hbefore : ∀ e ∈ before, e.record.serial < S.graph.cells.size ∧
      ¬(lo ≤ e.record.serial ∧ e.record.serial < hi))
    (h : followEach d steps sub rs (before.map (Visit.entry s)) S = (.ok visited', S')) :
    ∃ new, visited' = (before ++ new).map (Visit.entry s) ∧
      Explored d s (fun n => lo ≤ n ∧ n < hi) S.graph.cells.size (before ++ new) new S'.graph ∧
      ∀ r ∈ rs, Followed d s S'.graph (before ++ new) sub r ∧
        Settled d s lo hi r S.graph S'.graph := by
  induction rs generalizing S lo before known with
  | nil =>
    cases h
    exact ⟨[], by simp, .nil _, by simp⟩
  | cons r rest ih =>
    cases hlaid with
    | @cons _ mid _ _ _ hr hconfined htail =>
    obtain ⟨hknown, hrestKnown⟩ := List.forall_mem_cons.1 hrs
    have hmid := htail.le
    have hlo : lo ≤ mid := hr.2.1.trans hr.2.2.le
    obtain ⟨first, S₁, hfirst, hlater⟩ := followEach_onward hd hcoherent htrees hsteps htyped hs hknown
      hr hconfined (fun e he => ⟨(hbefore e he).1,
        fun hin => (hbefore e he).2 ⟨hin.1, hin.2.trans_le hmid⟩⟩) h
    obtain ⟨after, hafter, htyped₁⟩ := hfirst.typed
    have hsize := hfirst.leaves.size
    have hlaid₁ : S₁.graph.Laid mid rest hi :=
      htail.leaves hhi hfirst.leaves fun n hn _ hin => Nat.not_lt.2 hn hin.2
    -- Neither the first record nor what was made while it was loaded is among the others.
    have hapart : ∀ n, n = r.serial ∨ S.graph.cells.size ≤ n → ¬(mid ≤ n ∧ n < hi) := by
      rintro n (rfl | hnew) hin
      · exact Nat.not_lt.2 hin.1 hr.2.2
      · exact Nat.not_lt.2 (hhi.trans hnew) hin.2
    have hbefore₁ : ∀ e ∈ before ++ first, e.record.serial < S₁.graph.cells.size ∧
        ¬(mid ≤ e.record.serial ∧ e.record.serial < hi) :=
      hfirst.explored.all_placed hsize
        (fun e he => (hbefore e he).imp_right fun houtside hin => houtside ⟨hlo.trans hin.1, hin.2⟩) hapart
    obtain ⟨new, rfl, hexplored, hrest⟩ := ih htyped₁ hfirst.alike
      (fun r hr => hafter (hrestKnown r hr)) hlaid₁ (hhi.trans hsize) hbefore₁ hlater
    obtain ⟨hleaves, -⟩ := followEach_leaves htrees hlaid₁.confined hfirst.alike
      (fun r hr => hlaid₁.mem hr) hlater
    have hlt : r.serial < S₁.graph.cells.size := (hr.2.2.trans_le hmid).trans_le (hhi.trans hsize)
    have hall : before ++ first ++ new = before ++ (first ++ new) := List.append_assoc _ _ _
    have hmore : before ++ first ⊆ before ++ (first ++ new) := hall ▸ List.subset_append_left _ _
    refine ⟨first ++ new, by rw [hall], ?_, List.forall_mem_cons.2 ⟨⟨?_, ?_⟩, fun r' hr' => ?_⟩⟩
    · refine hfirst.explored.andThen hexplored hleaves hapart hsize ?_ fun n hn => ⟨hlo.trans hn.1, hn.2⟩
      rintro n rfl
      exact ⟨hr.2.1, hr.2.2.trans_le hmid⟩
    · exact (hfirst.followed.leaves hr.1 hleaves hlt (hapart _ (.inl rfl))).mono hmore
    · refine (hfirst.settled.after ((hmid.trans hhi).trans hsize) hleaves
        fun n _ hn hin => Nat.not_lt.2 hin.1 hn).mono (Nat.le_refl _) hmid
    · obtain ⟨hfollowed, hsettled⟩ := hrest r' hr'
      exact ⟨hall ▸ hfollowed, (hsettled.before hhi hfirst.leaves
        fun n hn _ hin => Nat.not_lt.2 hn hin.2).mono hlo (Nat.le_refl _)⟩

/-- The loop over the attributes of a record, each of which holds records in a region of its own. -/
theorem followNames_explores {r : RecordRef} {asked : Selector} {names : List String}
    (hnodup : names.Nodup) {bounds : String → Nat × Nat} {lo : Nat} {before : List Visit}
    {visited' : Visited} {known : Set RecordRef} (htyped : S.graph.Typed d known)
    (hs : s.Alike S.store) (hr : r ∈ known) (hmade : r.base? = none) (hrlo : r.serial < lo)
    (hbounds : ∀ name ∈ names, lo ≤ (bounds name).1 ∧ (bounds name).2 ≤ S.graph.cells.size ∧
      S.graph.Laid (bounds name).1 (S.graph.held r name) (bounds name).2)
    (hapart : ∀ name ∈ names, ∀ name' ∈ names, name ≠ name' →
      (bounds name).2 ≤ (bounds name').1 ∨ (bounds name').2 ≤ (bounds name).1)
    (hbefore : ∀ e ∈ before, e.record.serial < S.graph.cells.size ∧ ∀ name ∈ names,
      ¬((bounds name).1 ≤ e.record.serial ∧ e.record.serial < (bounds name).2))
    (h : followNames d steps r asked names (before.map (Visit.entry s)) S = (.ok visited', S')) :
    ∃ new, visited' = (before ++ new).map (Visit.entry s) ∧
      Explored d s (lo ≤ ·) S.graph.cells.size (before ++ new) new S'.graph ∧
      Leaves (fun n => ∀ name ∈ names, ¬((bounds name).1 ≤ n ∧ n < (bounds name).2)) S.graph
        S'.graph ∧
      ∀ name ∈ names, ∀ r' ∈ S.graph.held r name,
        Followed d s S'.graph (before ++ new) (asked.get name) r' ∧
          Settled d s (bounds name).1 (bounds name).2 r' S.graph S'.graph := by
  induction names generalizing S before known with
  | nil =>
    cases h
    exact ⟨[], by simp, .nil _, .refl _ _, by simp⟩
  | cons name rest ih =>
    obtain ⟨hname, hnodupRest⟩ := List.nodup_cons.1 hnodup
    obtain ⟨⟨hlo, hhi, hlaid⟩, hboundsRest⟩ := List.forall_mem_cons.1 hbounds
    rw [followNames, List.foldlM_cons] at h
    obtain ⟨visited₁, S₁, hstep, hlater⟩ := Stateful.bind_eq_ok h
    rw [followName_eq hmade] at hstep
    have hheld : ∀ r' ∈ S.graph.held r name, r' ∈ known := fun _ => htyped.sound.held hr
    obtain ⟨first, rfl, hfirst, hfollowed⟩ := followEach_explores hd hcoherent htrees hsteps htyped hs
      hheld hlaid hhi (fun e he => ⟨(hbefore e he).1, (hbefore e he).2 name List.mem_cons_self⟩) hstep
    obtain ⟨hleaves, hs₁⟩ := followEach_leaves htrees hlaid.confined hs (fun r hr => hlaid.mem hr)
      hstep
    obtain ⟨after, hafter, htyped₁, -⟩ := keeps_followEach (Graph.typed_allowsWriting hd)
      hcoherent htrees htyped hs hheld hstep
    have hsize := hleaves.size
    have hmem : ∀ other ∈ rest, other ∈ name :: rest := fun _ h => List.mem_cons_of_mem _ h
    have hne : ∀ other ∈ rest, other ≠ name := fun other hother heq => hname (heq ▸ hother)
    have hlt : r.serial < S.graph.cells.size := htyped.sound.bounded r hr
    have houtside : ¬((bounds name).1 ≤ r.serial ∧ r.serial < (bounds name).2) :=
      fun hin => Nat.not_lt.2 hin.1 (hrlo.trans_le hlo)
    have hsame : ∀ other, S₁.graph.held r other = S.graph.held r other := fun other =>
      Graph.held_congr (hleaves.own? hlt houtside other)
    -- The regions of different attributes are apart, so the first loop leaves those of the others.
    have hdisjoint : ∀ n, (bounds name).1 ≤ n → n < (bounds name).2 → ∀ other ∈ rest,
        ¬((bounds other).1 ≤ n ∧ n < (bounds other).2) := by
      intro n hn hn' other hother hin
      have hsides := hapart name List.mem_cons_self other (hmem other hother) (hne other hother).symm
      omega
    have hbounds₁ : ∀ other ∈ rest, lo ≤ (bounds other).1 ∧
        (bounds other).2 ≤ S₁.graph.cells.size ∧
        S₁.graph.Laid (bounds other).1 (S₁.graph.held r other) (bounds other).2 := by
      intro other hother
      obtain ⟨hlo', hhi', hlaid'⟩ := hboundsRest other hother
      refine ⟨hlo', hhi'.trans hsize, ?_⟩
      rw [hsame other]
      exact hlaid'.leaves hhi' hleaves fun n hn hn' hin =>
        hdisjoint n hin.1 hin.2 other hother ⟨hn, hn'⟩
    have hplaced : ∀ n, (bounds name).1 ≤ n ∧ n < (bounds name).2 ∨ S.graph.cells.size ≤ n →
        ∀ other ∈ rest, ¬((bounds other).1 ≤ n ∧ n < (bounds other).2) := by
      rintro n (hin | hnew) other hother
      · exact hdisjoint n hin.1 hin.2 other hother
      · have hend := (hboundsRest other hother).2.1
        omega
    have hbefore₁ : ∀ e ∈ before ++ first, e.record.serial < S₁.graph.cells.size ∧
        ∀ other ∈ rest,
          ¬((bounds other).1 ≤ e.record.serial ∧ e.record.serial < (bounds other).2) :=
      hfirst.all_placed hsize (fun e he => (hbefore e he).imp_right fun houtside other hother =>
        houtside other (hmem other hother)) hplaced
    obtain ⟨new, rfl, hexplored, hleavesRest, hrest⟩ := ih hnodupRest htyped₁ hs₁ (hafter hr) hbounds₁
      (fun other hother other' hother' => hapart other (hmem other hother) other'
        (hmem other' hother')) hbefore₁ hlater
    have hall : before ++ first ++ new = before ++ (first ++ new) := List.append_assoc _ _ _
    have hmore : before ++ first ⊆ before ++ (first ++ new) := hall ▸ List.subset_append_left _ _
    refine ⟨first ++ new, by rw [hall], ?_, ?_, List.forall_mem_cons.2 ⟨?_, ?_⟩⟩
    · exact hfirst.andThen hexplored hleavesRest hplaced hsize (fun n hn => hlo.trans hn.1) fun _ hn => hn
    · refine (hleaves.imp fun n hn => ?_).trans (hleavesRest.imp fun n hn other hother => ?_)
      · exact hn name List.mem_cons_self
      · exact hn other (hmem other hother)
    · intro r' hr'
      obtain ⟨hthis, hsettled⟩ := hfollowed r' hr'
      have hregion := hsettled.mem
      exact ⟨(hthis.leaves hregion.1 hleavesRest (hregion.2.2.trans_le (hhi.trans hsize))
        (hplaced _ (.inl hregion.2))).mono hmore, hsettled.after (hhi.trans hsize) hleavesRest
          fun n hn hn' => hplaced n (.inl ⟨hn, hn'⟩)⟩
    · intro other hother r' hr'
      obtain ⟨hthis, hsettled⟩ := hrest other hother r' (hsame other ▸ hr')
      rw [← hall]
      exact ⟨hthis, hsettled.before (hboundsRest other hother).2.1 hleaves
        fun n hn hn' hin => hdisjoint n hin.1 hin.2 other hother ⟨hn, hn'⟩⟩

end

end Store

end TypedRecords
