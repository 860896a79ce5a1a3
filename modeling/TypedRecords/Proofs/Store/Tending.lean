import TypedRecords.Proofs.Store.AllOrNothing
import TypedRecords.Proofs.Store.Exchanging

/-! # Stores of records under keys

Every document of a store belongs to one of some records, which are under keys of their own. Saving, loading
and deleting these records, whether that succeeds or not, leaves it so, and leaves each of them new as long
as no document holds its key.
-/

namespace TypedRecords

open Stateful (KeepsIn)

namespace Store

variable {d : Directory} {records known after : Set RecordRef} {key : RecordRef → String × Value}
  {S T : Session} {r q : RecordRef} {s : Selector} {new : List Document}

/-- Records under keys of their own, and a store with at most one document for each of them and with no
other. -/
structure Tends (d : Directory) (records : Set RecordRef) (key : RecordRef → String × Value)
    (known : Set RecordRef) (S : Session) : Prop where
  tracked : Tracked d records key S.store known S.graph
  kept : S.store.Kept d
  apart : ∀ r ∈ records, ∀ q ∈ records, q ≠ r →
    S.store.collectionName q.cls = S.store.collectionName r.cls → (key q).2.beq (key r).2 = false
  once : ∀ r ∈ records, S.store.tally r (key r) ≤ 1
  owned : ∀ name, ∀ document ∈ S.store.database.documents name, ∃ r ∈ records,
    S.store.isRegistered r.cls = true ∧ S.store.collectionName r.cls = name ∧
      Collection.holds document [key r] = true

/-- Records in one collection have primary identifiers of one name. -/
theorem Kept.primary_eq {store : Store} (h : store.Kept d) (hr : d.Inherits r.cls) (hq : d.Inherits q.cls)
    (hregistered : store.isRegistered r.cls = true) (hregistered' : store.isRegistered q.cls = true)
    (hcollection : store.collectionName q.cls = store.collectionName r.cls) :
    (d.definition q.cls).primary? = (d.definition r.cls).primary? := by
  obtain ⟨c, hc, hname, hdefinition⟩ := h.exists_storable hr hregistered
  obtain ⟨c', hc', hname', hdefinition'⟩ := h.exists_storable hq hregistered'
  have hsame : c' = c := by
    refine storable_unique hc hc' ?_
    rw [collectionName, hname', collectionName, hname]
    exact hcollection
  rw [← hdefinition, ← hdefinition', hsame]

/-- No document in a collection holds two keys that differ. -/
theorem Kept.holds_eq_false {store : Store} (h : store.Kept d) (hr : d.Inherits r.cls)
    (hq : d.Inherits q.cls) (hregistered : store.isRegistered r.cls = true)
    (hregistered' : store.isRegistered q.cls = true)
    (hcollection : store.collectionName q.cls = store.collectionName r.cls) {g g' : Graph}
    {k k' : String × Value} (hunder : g.Under d r k) (hunder' : g'.Under d q k')
    (hapart : k'.2.beq k.2 = false) {document : Document}
    (hholds : Collection.holds document [k] = true) : Collection.holds document [k'] = false := by
  obtain ⟨a, ha, hname⟩ := hunder.primary
  obtain ⟨b, hb, hname'⟩ := hunder'.primary
  rw [h.primary_eq hr hq hregistered hregistered' hcollection, ha] at hb
  cases hb
  obtain ⟨t, ht, hequal⟩ := Collection.holds_singleton hholds
  refine Bool.eq_false_iff.2 fun hheld => ?_
  obtain ⟨t', ht', hequal'⟩ := Collection.holds_singleton hheld
  rw [← hname', hname, ht] at ht'
  cases ht'
  rw [← hunder'.isKey.beq_congr hequal', hequal] at hapart
  cases hapart

namespace Tends

theorem typed (h : Tends d records key known S) : S.graph.Typed d known := h.tracked.1

theorem subset (h : Tends d records key known S) : records ⊆ known := h.tracked.2.1

theorem tracks (h : Tends d records key known S) (hr : r ∈ records) :
    S.graph.Tracks d r (key r) (0 < S.store.tally r (key r)) :=
  h.tracked.2.2 r hr

theorem inherits (h : Tends d records key known S) (hr : r ∈ records) : d.Inherits r.cls :=
  h.typed.inherits r (h.subset hr)

theorem bounded (h : Tends d records key known S) (hr : r ∈ records) :
    r.serial < S.graph.cells.size :=
  h.typed.sound.bounded r (h.subset hr)

theorem holds_eq_false (h : Tends d records key known S) (hr : r ∈ records) (hq : q ∈ records)
    (hne : q ≠ r) (hregistered : S.store.isRegistered r.cls = true)
    (hregistered' : S.store.isRegistered q.cls = true)
    (hcollection : S.store.collectionName q.cls = S.store.collectionName r.cls) {document : Document}
    (hholds : Collection.holds document [key r] = true) :
    Collection.holds document [key q] = false :=
  h.kept.holds_eq_false (h.inherits hr) (h.inherits hq) hregistered hregistered' hcollection
    (h.tracks hr).under (h.tracks hq).under (h.apart r hr q hq hne hcollection) hholds

/-- What only reads documents leaves the store as it is. -/
theorem resting (h : Tends d records key known S) (hstore : S.store.Alike T.store)
    (htracked : Tracked d records key S.store after T.graph) : Tends d records key after T := by
  obtain ⟨trace, journal, hstore⟩ := hstore
  constructor <;> rw [hstore]
  · exact htracked
  · exact h.kept.alike ⟨trace, journal, rfl⟩
  · exact h.apart
  · exact h.once
  · exact h.owned

/-- The document of a record is exchanged. -/
theorem exchanging (h : Tends d records key known S) (hr : r ∈ records)
    (hexchanges : S.store.Exchanges r (key r) new T.store) (hnew : new.length ≤ 1)
    (hkept : T.store.Kept d) (htyped : T.graph.Typed d after) (hrecords : records ⊆ after)
    (hself : T.graph.Tracks d r (key r) (0 < new.length))
    (hothers : ∀ q ∈ records, q ≠ r → T.graph.Tracks d q (key q) (0 < S.store.tally q (key q))) :
    Tends d records key after T := by
  have htally : ∀ q ∈ records, q ≠ r → T.store.tally q (key q) = S.store.tally q (key q) :=
    fun q hq hne => hexchanges.tally_other fun hregistered hcollection document =>
      h.holds_eq_false hr hq hne hexchanges.there hregistered hcollection
  refine ⟨⟨htyped, hrecords, fun q hq => ?_⟩, hkept, fun q hq q' hq' hne hcollection => ?_,
    fun q hq => ?_, fun name document hdocument => ?_⟩
  · by_cases hne : q = r
    · subst hne
      rwa [hexchanges.tally_self]
    · rw [htally q hq hne]
      exact hothers q hq hne
  · rw [hexchanges.collection, hexchanges.collection] at hcollection
    exact h.apart q hq q' hq' hne hcollection
  · by_cases hne : q = r
    · subst hne
      rwa [hexchanges.tally_self]
    · rw [htally q hq hne]
      exact h.once q hq
  · simp only [hexchanges.registered, hexchanges.collection]
    rcases hexchanges.mem hdocument with hbefore | ⟨rfl, hholds⟩
    · exact h.owned name document hbefore
    · exact ⟨r, hr, hexchanges.there, rfl, hholds⟩

/-- A new record joins the others, with a key that differs from theirs. -/
theorem joining (h : Tends d records key known S) (hstore : T.store = S.store)
    (htyped : T.graph.Typed d after) (hknown : known ⊆ after) (hr : r ∈ after)
    (hfresh : S.graph.cells.size ≤ r.serial) (hleaves : Graph.Leaves (fun _ => True) S.graph T.graph)
    (hnew : T.graph.isNew r = true) {k : String × Value} (hunder : T.graph.Under d r k)
    (hapart : ∀ q ∈ records, S.store.collectionName q.cls = S.store.collectionName r.cls →
      (key q).2.beq k.2 = false) :
    Tends d (insert r records) (Function.update key r k) after T := by
  have hother : ∀ q ∈ records, q ≠ r := by
    rintro q hq rfl
    exact Nat.not_lt.2 hfresh (h.bounded hq)
  have hself : Function.update key r k r = k := Function.update_self r k key
  have hsame : ∀ q ∈ records, Function.update key r k q = key q := fun q hq =>
    Function.update_of_ne (hother q hq) k key
  have hnone : S.store.tally r k = 0 := by
    -- A document with the new key would belong to a record that has the same key.
    refine Nat.eq_zero_of_not_pos fun hpos => ?_
    obtain ⟨hregistered, document, hdocument, hholds⟩ := tally_pos.1 hpos
    obtain ⟨q, hq, hregistered', hcollection, hheld⟩ := h.owned _ document hdocument
    rw [h.kept.holds_eq_false (htyped.inherits r hr) (h.inherits hq) hregistered hregistered' hcollection
      hunder (h.tracks hq).under (hapart q hq hcollection) hholds] at hheld
    cases hheld
  refine ⟨⟨htyped, Set.insert_subset hr (h.subset.trans hknown), ?_⟩, hstore ▸ h.kept, ?_, ?_, ?_⟩ <;>
    rw [hstore]
  · rintro q (rfl | hq)
    · rw [hself, hnone]
      exact ⟨hunder, fun hfalse => absurd (hfalse.symm.trans hnew) Bool.false_ne_true,
        fun _ hpos => absurd hpos (Nat.lt_irrefl 0)⟩
    · rw [hsame q hq]
      exact (h.tracks hq).retains (Graph.Spares.of_leaves hleaves (h.bounded hq) trivial).retains
  · rintro q (rfl | hq) q' (rfl | hq') hne hcollection
    · exact absurd rfl hne
    · rw [hself, hsame q' hq']
      exact hapart q' hq' hcollection
    · rw [hself, hsame q hq, hunder.isKey.beq_comm]
      exact hapart q hq hcollection.symm
    · rw [hsame q hq, hsame q' hq']
      exact h.apart q hq q' hq' hne hcollection
  · rintro q (rfl | hq)
    · rw [hself, hnone]
      exact Nat.zero_le 1
    · rw [hsame q hq]
      exact h.once q hq
  · intro name document hdocument
    obtain ⟨q, hq, hregistered, hcollection, hholds⟩ := h.owned name document hdocument
    exact ⟨q, .inr hq, hregistered, hcollection, (hsame q hq).symm ▸ hholds⟩

end Tends

/-! ### Operations -/

section

variable (hd : d.Lawful) (hmade : ∀ r ∈ records, r.base? = none)

include hd hmade

/-- Marking what was written as such restates sources and changes no values. -/
theorem marked_retains {g : Graph} (htyped : g.Typed d known) (hrecords : records ⊆ known)
    (hr : r ∈ known) {U : Session} (hgraph : S.graph = g) {t : Selector}
    {result : Except Error (Option RecordRef)}
    (h : (do
      onRecords (Record.mark r false)
      onRecords (Record.setSources d .store r t)
      pure (some r) : StoreAction (Option RecordRef)) S = (result, U)) :
    ∃ after, known ⊆ after ∧ U.graph.Typed d after ∧ ∀ q ∈ records, (g.mark r false).Retains q U.graph := by
  subst hgraph
  have hwriting := Graph.typed_allowsWriting hd
  have hI := hwriting.toAllowsRestating.retaining (fun _ _ hg => hg.sound) hmade (S.graph.mark r false)
  have hJ : AllowsCalls (fun _ => True) fun (_ : Set RecordRef) (_ : Store) => True :=
    ⟨fun _ _ _ _ _ _ _ => trivial, fun _ _ _ _ => trivial, fun _ _ _ _ _ => trivial⟩
  have hmark : onRecords (Record.mark r false) S =
      (.ok (), { S with graph := S.graph.mark r false }) := rfl
  rw [Stateful.bind_of_ok hmark] at h
  obtain ⟨after, hafter, ⟨⟨htyped', -, hretains⟩, -⟩, -⟩ :=
    ((keepsIn_onRecords hJ (hI.keeps_setSources (d := d) .store hr t)).bind (P := fun _ _ => True)
      fun _ _ _ _ => .pure fun _ _ => trivial).of_run subset_rfl
        ⟨⟨hwriting.mark known r false S.graph hr htyped, hrecords, fun q _ => .refl q _⟩, trivial⟩ h
  exact ⟨after, hafter, htyped', hretains⟩

theorem Tends.saveRecord (hnamed : d.NamesProperly) (hS : Tends d records key known S)
    (hr : r ∈ records) {expected : Expectation} {result : Except Error (Option RecordRef)}
    (hkept : T.store.Kept d) (h : saveRecord d r s expected S = (result, T)) :
    ∃ after, known ⊆ after ∧ Tends d records key after T := by
  have hruns := saveRecord_runs d r s expected S
  rw [h] at hruns
  have hprepared : ∀ {result g}, prepare d r s S.graph = (result, g) →
      ∃ after, known ⊆ after ∧ Tracked d records key S.store after g := by
    intro result g hprepare
    obtain ⟨after, hafter, htracked, -⟩ := (keepsIn_prepare (tracked_allowsReading hd hmade)
      (hS.subset hr) s).of_run subset_rfl hS.tracked hprepare
    exact ⟨after, hafter, htracked⟩
  have hunwritten : ∀ {p g called T}, prepare d r s S.graph = (.ok p, g) → called ≠ .ok true →
      callSaving r.cls (S.store.collectionName r.cls) (savingCall (S.graph.isNew r) p)
        { S with graph := g } = (called, T) → ∃ after, known ⊆ after ∧ Tends d records key after T := by
    intro p g called T hprepare hrefused hcall
    obtain ⟨after, hafter, htracked⟩ := hprepared hprepare
    obtain ⟨hgraph, ⟨journal, hstore⟩, hflag⟩ := callSaving_eq hcall
    rw [savingCall_unwritten fun hanswer => hrefused (hflag.2 hanswer)] at hstore
    exact ⟨after, hafter, hS.resting ⟨S.store.trace, journal, hstore⟩ (hgraph ▸ htracked)⟩
  -- Only a save that has written exchanges a document. Up to there a save has read, and no more.
  cases hruns with
  | refused e => exact ⟨known, subset_rfl, hS⟩
  | unprepared prepared =>
    obtain ⟨after, hafter, htracked⟩ := hprepared prepared
    exact ⟨after, hafter, hS.resting (.refl S.store) htracked⟩
  | failed registered prepared call => exact hunwritten prepared (by simp) call
  | unwritten registered prepared call => exact hunwritten prepared (by simp) call
  | @written p g called _ _ registered prepared call marked =>
    obtain ⟨after, hafter, htyped', hrecords', htracks'⟩ := hprepared prepared
    obtain ⟨hgraph, ⟨journal, hstore⟩, hflag⟩ := callSaving_eq call
    obtain ⟨last, hlast, htyped'', hretains⟩ :=
      marked_retains hd hmade htyped' hrecords' (hrecords' hr) hgraph marked
    obtain ⟨v, hv, hkey, hequal⟩ := (hS.tracks hr).under
    have hspells := prepare_spells hd hS.typed (hS.subset hr) prepared
    obtain ⟨hdescriptor, hget⟩ := prepare_primary (hmade r hr) hspells prepared hv hkey
    obtain ⟨document, hexchanges⟩ := savingCall_exchanges hnamed hS.kept
      (hS.inherits hr) registered hspells hdescriptor hget hkey hequal (hS.once r hr)
      (hflag.1 rfl)
    have hstored : S.store.Exchanges r (key r) [document] T.store := by
      rw [store_marked marked]
      exact hexchanges.alike ⟨S.store.trace, journal, hstore⟩
    have hself : (g.mark r false).Tracks d r (key r) (0 < [document].length) :=
      (htracks' r hr).under.tracks_mark (htyped'.sound.bounded r (hrecords' hr)) (by simp)
    refine ⟨last, hafter.trans hlast, hS.exchanging hr hstored (Nat.le_refl _) hkept htyped''
      (hrecords'.trans hlast) (hself.retains (hretains r hr)) fun q hq hne => ?_⟩
    have hserial : r.serial ≠ q.serial := fun heq =>
      hne (htyped'.sound.alone r (hrecords' hr) q (hrecords' hq) heq).symm
    exact (htracks' q hq).retains ((Graph.retains_mark hserial g false).trans (hretains q hq))

theorem Tends.deleteRecord (hS : Tends d records key known S) (hr : r ∈ records)
    {throwIfMissing : Bool} {result : Except Error (Option RecordRef)} (hkept : T.store.Kept d)
    (h : deleteRecord d r throwIfMissing S = (result, T)) : Tends d records key known T := by
  obtain ⟨v, hv, hkey, hequal⟩ := (hS.tracks hr).under.descriptor (hmade r hr)
  unfold Store.deleteRecord at h
  have hget : (MonadState.get : StoreAction Session) S = (.ok S, S) := rfl
  rw [Stateful.bind_of_ok hget] at h
  cases hrequired : S.store.requireRegistered r.cls with
  | error e =>
    rw [hrequired] at h
    cases h
    exact hS
  | ok _ =>
  have hregistered := requireRegistered_eq_ok hrequired
  have hchecked : check (S.store.requireRegistered r.cls) S = (.ok (), S) := by
    rw [hrequired]
    rfl
  rw [Stateful.bind_of_ok hchecked, Stateful.bind_of_ok (onRecords_of_eq hv),
    Stateful.bind_of_ok hget] at h
  rcases hcall : callFlag (S.store.collectionName r.cls) (.delete [((key r).1, v)]) S with ⟨called, T'⟩
  obtain ⟨hgraph, ⟨journal, hstore⟩, hflag⟩ := callFlag_eq hcall
  by_cases hdeleted : called = .ok true
  · subst hdeleted
    rw [Stateful.bind_of_ok hcall, if_pos rfl] at h
    have hexchanges := (delete_exchanges hregistered hkey hequal (hS.once r hr) (hflag.1 rfl)).alike
      ⟨S.store.trace, journal, hstore⟩
    cases h
    have hmarked : (T'.graph.mark r true).Typed d known := hgraph ▸
      (Graph.typed_allowsWriting hd).mark known r true S.graph (hS.subset hr) hS.typed
    refine hS.exchanging hr hexchanges (Nat.zero_le _) hkept hmarked hS.subset ?_ fun q hq hne => ?_
    · exact hgraph ▸ (hS.tracks hr).under.tracks_mark (hS.bounded hr) (by simp)
    · have hserial : r.serial ≠ q.serial := fun heq =>
        hne (hS.typed.sound.alone r (hS.subset hr) q (hS.subset hq) heq).symm
      exact hgraph ▸ (hS.tracks hq).retains (Graph.retains_mark hserial S.graph true)
  · rw [delete_unwritten fun hanswer => hdeleted (hflag.2 hanswer)] at hstore
    have hleft : T = T' := by
      cases called with
      | error e =>
        rw [Stateful.bind_of_error hcall] at h
        cases h
        rfl
      | ok b =>
        obtain rfl : b = false := by simpa using hdeleted
        rw [Stateful.bind_of_ok hcall, if_neg Bool.false_ne_true] at h
        cases throwIfMissing <;> cases h <;> rfl
    subst hleft
    exact hS.resting ⟨S.store.trace, journal, hstore⟩ (hgraph ▸ hS.tracked)

theorem keepsIn_save_tends (hnamed : d.NamesProperly) (hr : r ∈ records) (s : Selector) (expected : Expectation) :
    KeepsIn (Tends d records key) known (save d r s expected) fun _ _ => True := by
  intro before _ S hS
  rcases hrun : save d r s expected S with ⟨result, T⟩
  obtain ⟨-, -, ⟨-, hkept⟩, -⟩ := (keepsIn_save_kept hd hnamed (hS.subset hr) s expected).of_run
    subset_rfl ⟨hS.typed, hS.kept⟩ hrun
  unfold save at hrun
  obtain ⟨T', hsave, hgraph, trace, hstore⟩ := tracing_eq hrun
  have halike : T'.store.Alike T.store := ⟨trace, T'.store.journal, hstore⟩
  obtain ⟨after, hafter, hT'⟩ :=
    Tends.saveRecord hd hmade hnamed hS hr (hkept.alike halike.symm) hsave
  exact ⟨after, hafter, hT'.resting halike (hgraph ▸ hT'.tracked), fun _ _ => trivial⟩

theorem keepsIn_delete_tends (hcoherent : d.Coherent) (hr : r ∈ records) (throwIfMissing : Bool) :
    KeepsIn (Tends d records key) known (delete d r throwIfMissing) fun _ _ => True := by
  intro before _ S hS
  rcases hrun : delete d r throwIfMissing S with ⟨result, T⟩
  obtain ⟨-, -, ⟨-, hkept⟩, -⟩ := (keepsIn_delete (Graph.typed_allowsWriting hd)
    (kept_allowsLoading hcoherent).toAllowsCalls (fun _ => rfl) (hS.subset hr)
      throwIfMissing).of_run subset_rfl ⟨hS.typed, hS.kept⟩ hrun
  unfold delete at hrun
  obtain ⟨T', hdelete, hgraph, trace, hstore⟩ := tracing_eq hrun
  have halike : T'.store.Alike T.store := ⟨trace, T'.store.journal, hstore⟩
  have hT' := Tends.deleteRecord hd hmade hS hr (hkept.alike halike.symm) hdelete
  exact ⟨before, subset_rfl, hT'.resting halike (hgraph ▸ hT'.tracked), fun _ _ => trivial⟩

theorem keepsIn_load_tends (hcoherent : d.Coherent) (hnamed : d.NamesProperly) (hr : r ∈ records)
    (s : Selector) (throwIfMissing : Bool) :
    KeepsIn (Tends d records key) known (load d r s throwIfMissing) fun _ _ => True := by
  intro before _ S hS
  obtain ⟨after, hafter, ⟨htracked, halike⟩, -⟩ := (keepsIn_load_tracked hd hcoherent hnamed hS.kept hmade
    (hS.subset hr) s throwIfMissing) before subset_rfl S ⟨hS.tracked, .refl S.store⟩
  exact ⟨after, hafter, hS.resting halike htracked, fun _ _ => trivial⟩

end

end Store

end TypedRecords
