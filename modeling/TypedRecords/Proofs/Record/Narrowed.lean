import TypedRecords.Proofs.Record.Ending

/-! # Selectors narrowed against records that are no forks

Reading a record that is no fork makes no records, and a record that is being resolved already is not
entered again. So resolving a selector among such records ends, whichever of them are marked, and leaves
the graph as it was, marks included.
-/

namespace TypedRecords

/-! ### Computations that only read -/

namespace Stateful

variable {σ α β : Type} {s : σ} {x : Stateful σ α} {f : α → Stateful σ β}

/-- A computation gives a result and leaves the state as it is. -/
def Reads (s : σ) (x : Stateful σ α) : Prop := ∃ a, x s = (.ok a, s)

namespace Reads

theorem pure (a : α) : Reads s (Pure.pure a : Stateful σ α) := ⟨a, rfl⟩

theorem bind (hx : Reads s x) (hf : ∀ a, Reads s (f a)) : Reads s (x >>= f) := by
  obtain ⟨a, ha⟩ := hx
  obtain ⟨b, hb⟩ := hf a
  exact ⟨b, by rw [bind_of_ok ha, hb]⟩

theorem of_read {a : α} (hx : x s = (.ok a, s)) (hf : Reads s (f a)) : Reads s (x >>= f) := by
  obtain ⟨b, hb⟩ := hf
  exact ⟨b, by rw [bind_of_ok hx, hb]⟩

theorem foldlM {f : β → α → Stateful σ β} {items : List α} (hf : ∀ a ∈ items, ∀ b, Reads s (f b a))
    (b : β) : Reads s (items.foldlM f b) := by
  induction items generalizing b with
  | nil => exact .pure b
  | cons a rest ih =>
    obtain ⟨ha, hrest⟩ := List.forall_mem_cons.1 hf
    rw [List.foldlM_cons]
    exact (ha b).bind fun b => ih hrest b

end Reads

end Stateful

open TypedRecords.Graph (Sound)
open Stateful (Reads)

variable {d : Directory} {g : Graph} {known : Set RecordRef} {r : RecordRef} {s : Selector}
  {how : Narrowing} {onRecord : RecordRef → Selector → Action Selector}

/-! ### Against a value -/

theorem ValueType.combineItems_reads (combine : Selector → Selector → Selector)
    {resolve : Value → Action Selector} {first : Value} {rest : List Value}
    (h : ∀ v ∈ first :: rest, Reads g (resolve v)) :
    Reads g (combineItems combine resolve first rest) := by
  obtain ⟨hfirst, hrest⟩ := List.forall_mem_cons.1 h
  exact hfirst.bind fun acc => .foldlM (fun v hv acc => (hrest v hv).bind fun s => .pure _) acc

/-- Narrowing against a value reads if it does so at the records in it. -/
theorem ValueType.narrow_reads (combine : Selector → Selector → Selector) (t : ValueType)
    {v : Option Value} (h : ∀ w, v = some w → ∀ q ∈ w.records, Reads g (onRecord q s)) :
    Reads g (t.narrow combine onRecord s v) := by
  induction t generalizing v with
  | scalar kind traits =>
    simp only [ValueType.narrow]
    split <;> exact .pure _
  | reference name toClass traits =>
    cases toClass with
    | true =>
      simp only [ValueType.narrow]
      split <;> exact .pure _
    | false =>
      simp only [ValueType.narrow]
      split
      · exact .pure _
      · split
        · next q => exact h _ rfl q (List.mem_singleton.2 rfl)
        · exact .pure _
  | array item traits ih =>
    simp only [ValueType.narrow]
    split
    · exact .pure _
    · split
      · next first rest =>
        apply combineItems_reads
        intro w hw
        apply ih
        intro w' heq q hq
        cases heq
        exact h _ rfl q (Value.mem_records_array.2 ⟨w, hw, hq⟩)
      · exact ih fun w hw => by cases hw

namespace Record

theorem narrowAttribute_reads (hmade : r.base? = none) (a : Attribute)
    (h : ∀ w, g.value? r a.name = some w → ∀ q ∈ w.records, ∀ s, Reads g (onRecord q s))
    (acc : Selector) : Reads g (narrowAttribute how onRecord r s acc a) := by
  simp only [narrowAttribute]
  split
  · exact .pure acc
  · refine .of_read (lift_value?_made hmade a.name g) ?_
    split
    · exact .pure acc
    · exact (a.type.narrow_reads _ fun w hw q hq => h w hw q hq _).bind fun sub => .pure _

theorem resolveInner_reads {steps : Nat} (h : Reads g (resolveWithin d how steps r s)) :
    Reads g (resolveInner d how steps r s) := by
  unfold resolveInner
  split
  · exact .pure _
  · exact h

/-- The records that a traversal has entered, in a graph of known records: each is marked, and none is
entered twice. -/
structure Entered (known : Set RecordRef) (g : Graph) (entered : List RecordRef) : Prop where
  sound : g.Sound known
  marked : ∀ q ∈ entered, q ∈ known ∧ g.isResolving q = true
  nodup : entered.Nodup

namespace Entered

variable {entered : List RecordRef}

theorem length_le (h : Entered known g entered) : entered.length ≤ g.cells.size :=
  h.sound.length_le (fun q hq => (h.marked q hq).1) h.nodup

/-- A record that is not marked can be entered. -/
theorem mark (h : Entered known g entered) (hr : r ∈ known) (hunmarked : g.isResolving r = false) :
    Entered known (g.markResolving r true) (r :: entered) where
  sound := h.sound.of_own?_eq (Nat.le_of_eq (Graph.size_modify _ _ _).symm)
    (Graph.own?_markResolving g r true)
  marked q hq := by
    have hcell : ∀ q ∈ known, (g.cell? q).isSome = true := by
      intro q hq
      simpa [Graph.cell?] using h.sound.bounded q hq
    rw [Graph.isResolving_markResolving]
    rcases List.mem_cons.1 hq with rfl | hq
    · simp [hr, hcell q hr]
    · obtain ⟨hknown, hresolving⟩ := h.marked q hq
      simp [hknown, hcell q hknown, hresolving]
  nodup := by
    refine List.nodup_cons.2 ⟨fun hmem => ?_, h.nodup⟩
    rw [(h.marked r hmem).2] at hunmarked
    cases hunmarked

end Entered

/-- The records that were entered are marked and different, so there are never more of them than
cells. -/
theorem resolveWithin_reads (hmade : ∀ r ∈ known, r.base? = none) (how : Narrowing) {steps : Nat}
    {entered : List RecordRef} (hentered : Entered known g entered) (hr : r ∈ known) (s : Selector)
    (hsteps : g.cells.size < steps + entered.length) :
    Reads g (resolveWithin d how steps r s) := by
  induction steps generalizing g r s entered with
  | zero =>
    have hle := hentered.length_le
    omega
  | succ steps ih =>
    rw [← resolveWithin_normalize]
    have hs := s.isNormal_normalize
    cases hsome : s.normalize.isNone with
    | true =>
      simp only [resolveWithin, hs.normalize_eq, hsome, if_true]
      exact .pure _
    | false =>
      cases hmarked : g.isResolving r with
      | true => exact ⟨_, resolveWithin_of_marked hs hsome hmarked⟩
      | false =>
        have hinside := hentered.mark hr hmarked
        have hsize : (g.markResolving r true).cells.size = g.cells.size := Graph.size_modify _ _ _
        have hfold : Reads (g.markResolving r true) ((d.attributes r.cls).foldlM
            (narrowAttribute how (resolveInner d how steps) r s.normalize) (.only [])) := by
          refine .foldlM (fun a _ acc => narrowAttribute_reads (hmade r hr) a ?_ acc) _
          intro w hw q hq t
          refine resolveInner_reads (ih hinside (hinside.sound.value hr hw q hq) t ?_)
          rw [List.length_cons, hsize]
          omega
        obtain ⟨resolved, hresolved⟩ := hfold
        refine ⟨resolved, ?_⟩
        rw [resolveWithin_of_unmarked hs hsome hmarked]
        refine (Stateful.bind_of_ok (a := PUnit.unit) (t := g.markResolving r true) rfl).trans ?_
        rw [Stateful.bind_of_ok hresolved]
        show (Except.ok resolved, (g.markResolving r true).markResolving r false) = _
        rw [Graph.markResolving_markResolving hmarked]

theorem entered_nil (hg : g.Sound known) : Entered known g [] := ⟨hg, by simp, List.nodup_nil⟩

/-- Resolving among records that are no forks gives a result and leaves the graph as it is. -/
theorem resolve_reads (hg : g.Sound known) (hmade : ∀ r ∈ known, r.base? = none) (how : Narrowing)
    (hr : r ∈ known) (s : Selector) : Reads g (resolve d how r s) := by
  refine .of_read (stepsFor_eq s g) (resolveWithin_reads hmade how (entered_nil hg) hr s ?_)
  rw [List.length_nil]
  omega

end Record

end TypedRecords
