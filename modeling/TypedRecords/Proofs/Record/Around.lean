import TypedRecords.Proofs.Record.Views

/-! # Records within others

Which records are around a record that is read. A record of before is within the records that it was
reached through; a fork that is made by reading is around and within such forks only, and is newer than
all that it is within, so it is never within itself.
-/

namespace TypedRecords

open TypedRecords.Graph (Answers Stands Viewed)

/-- The records around what a record holds under a name: the record itself and those around it. A fork
that has inherited what it holds reads forks of it that are made just then, which are around nothing
but each other. -/
def Graph.around (g : Graph) (above : Option (List RecordRef)) (r : RecordRef) (name : String) :
    Option (List RecordRef) :=
  if (g.own? r name).isSome then above.map (r :: ·) else none

/-- A record that is read in the place of `r` within others: either `r` itself within records of before,
or a fork that is newer than what it is within. -/
inductive Around (n : Nat) (r r' : RecordRef) (visiting : List RecordRef) :
    (above : Option (List RecordRef)) → Prop
  | itself (same : r' = r) (old : ∀ w ∈ r :: visiting, w.serial < n) :
      Around n r r' visiting (some visiting)
  | fork (new : n ≤ r'.serial) (younger : ∀ w ∈ visiting, w.serial < r'.serial) :
      Around n r r' visiting none

namespace Around

variable {g₀ : Graph} {known₀ known : Set RecordRef} {r r' inner inner' : RecordRef}
  {visiting : List RecordRef} {above : Option (List RecordRef)} {name : String}

/-- The records in what is read under a name are again such records. -/
theorem step (hg₀ : g₀.Sound known₀) (h : Around g₀.cells.size r r' visiting above) {w : Value}
    (hread : Answers g₀ known₀ known r r' name (some w)) (hmem : inner' ∈ w.records)
    (hr : r ∈ known₀) (hinner : Stands g₀ known₀ known inner inner') :
    Around g₀.cells.size inner inner' (r' :: visiting) (g₀.around above r name) := by
  have hlater : g₀.own? r' name = none →
      g₀.cells.size ≤ inner'.serial ∧ r'.serial < inner'.serial :=
    fun hnone => hread.later hnone w rfl inner' hmem
  cases h with
  | itself same old =>
    subst same
    cases hown : g₀.own? r' name with
    | some own =>
      -- What the record holds itself was there before, and so were the records in it.
      have hbefore : inner' ∈ known₀ := by
        obtain ⟨slot, rfl, rfl⟩ := Option.map_eq_some_iff.1 (hread.own own hown).symm
        exact hg₀.within r' hr name slot hown inner' hmem
      obtain rfl := hinner.descends.eq_of_lt (hg₀.bounded _ hbefore)
      simp only [Graph.around, hown, Option.isSome_some, if_true, Option.map_some]
      exact .itself rfl (List.forall_mem_cons.2 ⟨hg₀.bounded _ hinner.before, old⟩)
    | none =>
      simp only [Graph.around, hown, Option.isSome_none, Bool.false_eq_true, if_false]
      have hnew := (hlater hown).1
      exact .fork hnew fun w hw => Nat.lt_of_lt_of_le (old w hw) hnew
  | fork new younger =>
    obtain ⟨hnew, hlt⟩ := hlater (Graph.own?_of_size_le new name)
    have hnone : g₀.around none r name = none := by simp [Graph.around]
    rw [hnone]
    refine .fork hnew fun w hw => ?_
    rcases List.mem_cons.1 hw with rfl | hw
    · exact hlt
    · exact Nat.lt_trans (younger w hw) hlt

theorem not_mem (h : Around g₀.cells.size r r' visiting above)
    (hapart : ∀ around, above = some around → r ∉ around) : r' ∉ visiting := by
  cases h with
  | itself same _ => exact same ▸ hapart visiting rfl
  | fork _ younger => exact fun hmem => Nat.lt_irrefl _ (younger r' hmem)

theorem mem (h : Around g₀.cells.size r r' visiting above) {around : List RecordRef}
    (habove : above = some around) (hmem : r ∈ around) : r' ∈ visiting := by
  cases h with
  | itself same _ =>
    cases habove
    exact same ▸ hmem
  | fork _ _ => cases habove

end Around

namespace Graph.Answers

variable {g₀ : Graph} {known₀ known : Set RecordRef} {r r' : RecordRef} {name : String}

theorem eq_none {v : Option Value} (h : Answers g₀ known₀ known r r' name v)
    (hnone : g₀.seen? r name = none) : v = none := by
  have hforked := h.forked
  rw [hnone] at hforked
  cases hforked
  rfl

theorem record {inner : RecordRef} {v : Option Value} (h : Answers g₀ known₀ known r r' name v)
    (hholds : g₀.seen? r name = some (.record inner)) :
    ∃ inner', v = some (.record inner') ∧ Stands g₀ known₀ known inner inner' := by
  have hforked := h.forked
  rw [hholds] at hforked
  cases hforked with
  | some hvalue =>
    cases hvalue with
    | leaf hleaf => cases hleaf
    | record hinner => exact ⟨_, rfl, hinner⟩

/-- The records in what is answered stand for those in what was seen. -/
theorem forked_mem {v : Option Value} (h : Answers g₀ known₀ known r r' name v) :
    Option.Rel (Value.Reforked fun q q' =>
      Stands g₀ known₀ known q q' ∧ ∃ w, v = some w ∧ q' ∈ w.records) (g₀.seen? r name) v := by
  have hforked := h.forked
  generalize g₀.seen? r name = old at hforked
  cases hforked with
  | none => exact .none
  | @some _ w hvalue =>
    have hself : w.Reforked (fun q q' => q = q' ∧ q' ∈ w.records) w :=
      .refl fun q hq => ⟨rfl, hq⟩
    refine .some (hvalue.trans (fun q q' q'' hq hq' => ?_) hself)
    obtain ⟨rfl, hmem⟩ := hq'
    exact ⟨hq, w, rfl, hmem⟩

theorem within {w : Value} (h : Answers g₀ known₀ known r r' name (some w)) : w.Within known := by
  have hforked := h.forked
  generalize g₀.seen? r name = old at hforked
  cases hforked with
  | some hvalue => exact hvalue.within fun _ _ hr => hr.known

end Graph.Answers

end TypedRecords
