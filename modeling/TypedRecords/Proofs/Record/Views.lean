import Mathlib.Data.Set.Insert
import TypedRecords.Proofs.Record.Forking

/-! # What records see

A fork sees what its base sees wherever it has written nothing itself. Reading changes nothing of what
is seen, but that forks stand for the records in the values.
-/

namespace TypedRecords

open Stateful (KeepsIn)

/-! ### Attributes -/

/-- The value of an attribute as a record sees it: what it says itself, or else what its base sees. -/
def Graph.seen? (g : Graph) : RecordRef → String → Option Value
  | .made serial c, name => g.value? (.made serial c) name
  | .fork serial c base, name =>
    match g.own? (.fork serial c base) name with
    | some own => own.map Slot.value
    | none => g.seen? base name

section

variable {g g' : Graph} {r : RecordRef} {name : String}

/-- Records that are no forks are only read. -/
theorem RecordRef.slot?_made (hr : r.base? = none) (name : String) (g : Graph) :
    r.slot? name g = ((g.own? r name).join, g) := by
  cases r with
  | made serial c => rfl
  | fork serial c base => cases hr

theorem seen?_made (hr : r.base? = none) (g : Graph) (name : String) :
    g.seen? r name = g.value? r name := by
  cases r with
  | made serial c => rfl
  | fork serial c base => cases hr

theorem seen?_congr_made (hr : r.base? = none) (h : g'.own? r name = g.own? r name) :
    g'.seen? r name = g.seen? r name := by
  rw [seen?_made hr, seen?_made hr, Graph.value?_congr h]

theorem seen?_of_own {own : Option Slot} (h : g.own? r name = some own) :
    g.seen? r name = own.map Slot.value := by
  cases r with
  | made serial c =>
    rw [Graph.seen?, Graph.value?, h]
    rfl
  | fork serial c base => simp only [Graph.seen?, h]

theorem seen?_fork {serial : Nat} {c : ClassRef} {base : RecordRef}
    (h : g.own? (.fork serial c base) name = none) :
    g.seen? (.fork serial c base) name = g.seen? base name := by
  simp only [Graph.seen?, h]

theorem seen?_congr (h : ∀ r name, g'.own? r name = g.own? r name) (r : RecordRef)
    (name : String) : g'.seen? r name = g.seen? r name := by
  induction r with
  | made serial c => exact Graph.value?_congr (h _ name)
  | fork serial c base ih => simp only [Graph.seen?, h, ih]

end

/-! ### Records that stand for others -/

/-- A fork of a record, or a fork of such a fork and so on, in cells from `n` on. -/
inductive RecordRef.Descends (n : Nat) (r : RecordRef) : RecordRef → Prop
  | refl : Descends n r r
  | fork {r' : RecordRef} {serial : Nat} {c : ClassRef} (h : Descends n r r') (hcls : c = r'.cls)
    (hserial : n ≤ serial) : Descends n r (.fork serial c r')

namespace RecordRef.Descends

variable {n : Nat} {r r' r'' : RecordRef}

theorem cls (h : Descends n r r') : r'.cls = r.cls := by
  induction h with
  | refl => rfl
  | fork _ hcls _ ih => exact hcls.trans ih

theorem eq_of_lt (h : Descends n r r') (hr' : r'.serial < n) : r = r' := by
  cases h with
  | refl => rfl
  | fork _ _ hserial => exact absurd hr' (Nat.not_lt.2 hserial)

/-- A record descends from one old record only. -/
theorem eq_of_descends (h : Descends n r r'') (h' : Descends n r' r'') (hr : r.serial < n)
    (hr' : r'.serial < n) : r = r' := by
  induction h with
  | refl => exact (h'.eq_of_lt hr).symm
  | fork _ _ hserial ih =>
    cases h' with
    | refl => exact absurd hr' (Nat.not_lt.2 hserial)
    | fork h' _ _ => exact ih h'

end RecordRef.Descends

theorem forall₂_imp_of_mem {α β : Type} {R S : α → β → Prop} {as : List α} {bs : List β}
    (h : List.Forall₂ R as bs) (himp : ∀ a ∈ as, ∀ b, R a b → S a b) : List.Forall₂ S as bs := by
  induction h with
  | nil => exact .nil
  | cons hab _ ih =>
    obtain ⟨hfirst, hrest⟩ := List.forall_mem_cons.1 himp
    exact .cons (hfirst _ hab) (ih hrest)

theorem forall₂_trans_of_mem {α β γ : Type} {R : α → β → Prop} {S : β → γ → Prop}
    {T : α → γ → Prop} {as : List α} {bs : List β} {cs : List γ} (h : List.Forall₂ R as bs)
    (h' : List.Forall₂ S bs cs) (htrans : ∀ a ∈ as, ∀ b c, R a b → S b c → T a c) :
    List.Forall₂ T as cs := by
  induction h generalizing cs with
  | nil =>
    cases h'
    exact .nil
  | cons hab _ ih =>
    obtain ⟨hfirst, hrest⟩ := List.forall_mem_cons.1 htrans
    cases h' with
    | cons hbc hbcs => exact .cons (hfirst _ _ hab hbc) (ih hbcs hrest)

namespace Value

variable {R R' R'' : RecordRef → RecordRef → Prop} {v w u : Value} {known : Set RecordRef}

namespace Reforked

theorem refl (h : ∀ r ∈ v.records, R r r) : v.Reforked R v := by
  induction v using Value.induction with
  | array items ih =>
    refine .array (List.forall₂_same.2 fun v hv => ih v hv fun r hr => ?_)
    exact h r (mem_records_array.2 ⟨v, hv, hr⟩)
  | object fields ih =>
    refine .object rfl (List.forall₂_same.2 fun v hv => ?_)
    obtain ⟨entry, hentry, rfl⟩ := List.mem_map.1 hv
    exact ih entry hentry fun r hr => h r (mem_records_object.2 ⟨entry, hentry, hr⟩)
  | other v harray hobject =>
    cases v with
    | array items => cases harray
    | object fields => cases hobject
    | record r => exact .record (h r (List.mem_singleton.2 rfl))
    | undefined => exact .undefined
    | classRef c => exact .classRef c
    | _ => exact .leaf rfl

theorem trans (hR : ∀ a b c, R a b → R' b c → R'' a c) (h : v.Reforked R w)
    (h' : w.Reforked R' u) : v.Reforked R'' u := by
  induction v using Value.induction generalizing w u with
  | array items ih =>
    cases h with
    | leaf hleaf => cases hleaf
    | array hitems =>
      cases h' with
      | leaf hleaf => cases hleaf
      | array hitems' => exact .array (forall₂_trans_of_mem hitems hitems' fun v hv _ _ => ih v hv)
  | object fields ih =>
    cases h with
    | leaf hleaf => cases hleaf
    | object hnames hvalues =>
      cases h' with
      | leaf hleaf => cases hleaf
      | object hnames' hvalues' =>
        refine .object (hnames.trans hnames')
          (forall₂_trans_of_mem hvalues hvalues' fun v hv _ _ => ?_)
        obtain ⟨entry, hentry, rfl⟩ := List.mem_map.1 hv
        exact ih entry hentry
  | other v harray hobject =>
    cases h with
    | array _ => cases harray
    | object _ _ => cases hobject
    | record hr =>
      cases h' with
      | leaf hleaf => cases hleaf
      | record hr' => exact .record (hR _ _ _ hr hr')
    | leaf hleaf =>
      cases h' with
      | leaf _ => exact .leaf hleaf
      | _ => cases hleaf
    | undefined =>
      cases h' with
      | leaf hleaf => cases hleaf
      | undefined => exact .undefined
    | classRef c =>
      cases h' with
      | leaf hleaf => cases hleaf
      | classRef => exact .classRef c

theorem imp (h : v.Reforked R w) (hR : ∀ a b, R a b → R' a b) : v.Reforked R' w := by
  have hsame : w.Reforked Eq w := refl fun _ _ => rfl
  refine trans (fun a b c hab heq => ?_) h hsame
  exact heq ▸ hR a b hab

/-- The records of a value stand where those of the other one do. -/
theorem records (h : v.Reforked R w) : List.Forall₂ R v.records w.records := by
  induction v using Value.induction generalizing w with
  | array items ih =>
    cases h with
    | leaf hleaf => cases hleaf
    | array hitems =>
      simp only [Value.records]
      induction hitems with
      | nil => exact .nil
      | cons hv _ ihRest =>
        obtain ⟨hfirst, hrest⟩ := List.forall_mem_cons.1 ih
        exact List.rel_append (hfirst hv) (ihRest hrest)
  | object fields ih =>
    cases h with
    | leaf hleaf => cases hleaf
    | object hnames hvalues =>
      have hrelated := Fields.related_of_values hnames hvalues
      clear hnames hvalues
      simp only [Value.records]
      induction hrelated with
      | nil => exact .nil
      | cons hentry _ ihRest =>
        obtain ⟨hfirst, hrest⟩ := List.forall_mem_cons.1 ih
        exact List.rel_append (hfirst hentry.2) (ihRest hrest)
  | other v harray hobject =>
    cases h with
    | array _ => cases harray
    | object _ _ => cases hobject
    | record hr => exact .cons hr .nil
    | leaf hleaf =>
      rw [records_of_isLeaf hleaf]
      exact .nil
    | _ => exact .nil

theorem within (h : v.Reforked R w) (hR : ∀ a b, R a b → b ∈ known) : w.Within known := by
  have hrecords := h.records
  unfold Within
  generalize w.records = ws at hrecords ⊢
  generalize v.records = vs at hrecords
  induction hrecords with
  | nil => simp
  | cons hr _ ih => exact List.forall_mem_cons.2 ⟨hR _ _ hr, ih⟩

end Reforked

end Value

/-! ### While records are read -/

namespace Graph

/-- Known records have cells of their own, and what they hold and what they were forked from is known. -/
structure Sound (known : Set RecordRef) (g : Graph) : Prop where
  bounded : ∀ r ∈ known, r.serial < g.cells.size
  alone : ∀ r ∈ known, ∀ r' ∈ known, r.serial = r'.serial → r = r'
  base : ∀ serial c base, .fork serial c base ∈ known → base ∈ known
  within : ∀ r ∈ known, ∀ name slot, g.own? r name = some (some slot) → slot.value.Within known

/-- A known record is the one of before that it descends from, as far as can be told from what it sees. -/
structure Stands (g₀ : Graph) (known₀ known : Set RecordRef) (r r' : RecordRef) : Prop where
  before : r ∈ known₀
  known : r' ∈ known
  descends : r.Descends g₀.cells.size r'

/-- A fork that was just made of a record, in a cell from `n` on. -/
structure Fresh (n : Nat) (known : Set RecordRef) (r r' : RecordRef) : Prop where
  known : r' ∈ known
  fork : ∃ serial, n ≤ serial ∧ r' = .fork serial r.cls r

/-- A graph after reading. Every record sees what the one that it stands for saw before. -/
structure Viewed (g₀ : Graph) (known₀ known : Set RecordRef) (g : Graph) : Prop where
  sound : g.Sound known
  more : known₀ ⊆ known
  old : ∀ r ∈ known₀, r.serial < g₀.cells.size
  size : g₀.cells.size ≤ g.cells.size
  seen : ∀ r r', Stands g₀ known₀ known r r' → ∀ name,
    Option.Rel (Value.Reforked (Stands g₀ known₀ known)) (g₀.seen? r name) (g.seen? r' name)
  kept : ∀ r name slot, g₀.own? r name = some slot → g.own? r name = some slot
  rising : ∀ r ∈ known, ∀ name, g₀.own? r name = none → ∀ slot,
    g.own? r name = some (some slot) → ∀ r' ∈ slot.value.records,
      g₀.cells.size ≤ r'.serial ∧ r.serial < r'.serial

variable {g₀ g g' : Graph} {known₀ known after : Set RecordRef} {r r' q : RecordRef} {name : String}
  {v w : Value}

theorem own?_of_size_le (hr : g.cells.size ≤ r.serial) (name : String) : g.own? r name = none :=
  own?_eq_none_of_cell? (Array.getElem?_eq_none_iff.2 hr) name

theorem size_fork (g : Graph) (c : ClassRef) (base : RecordRef) :
    (g.fork c base).2.cells.size = g.cells.size + 1 := by
  simp [Graph.fork]

theorem Sound.of_cells (hbounded : ∀ r ∈ known, r.serial < g.cells.size)
    (halone : ∀ r ∈ known, ∀ r' ∈ known, r.serial = r'.serial → r = r')
    (hbase : ∀ serial c base, .fork serial c base ∈ known → base ∈ known)
    (hcells : ∀ cell ∈ g.cells, ∀ entry ∈ cell.slots, ∀ slot, entry.2 = some slot →
      slot.value.Within known) : g.Sound known := by
  refine ⟨hbounded, halone, hbase, fun r _ name slot hown => ?_⟩
  obtain ⟨cell, hcell, hslot⟩ := Option.bind_eq_some_iff.1 hown
  exact hcells cell (Array.mem_of_getElem? hcell) _ (Fields.mem_of_get? hslot) slot rfl

/-- Where the known records are a list, soundness can be computed. -/
theorem Sound.of_list (rs : List RecordRef) (hknown : ∀ r, r ∈ known ↔ r ∈ rs)
    (hrecords : ∀ r ∈ rs, r.serial < g.cells.size ∧ (∀ base ∈ r.base?, base ∈ rs) ∧
      ∀ r' ∈ rs, r.serial = r'.serial → r = r')
    (hcells : ∀ cell ∈ g.cells, ∀ entry ∈ cell.slots, ∀ slot ∈ entry.2,
      ∀ r ∈ slot.value.records, r ∈ rs) : g.Sound known := by
  refine .of_cells (fun r hr => (hrecords r ((hknown r).1 hr)).1) ?_ ?_ ?_
  · exact fun r hr r' hr' => (hrecords r ((hknown r).1 hr)).2.2 r' ((hknown r').1 hr')
  · exact fun serial c base hfork =>
      (hknown base).2 ((hrecords _ ((hknown _).1 hfork)).2.1 base rfl)
  · exact fun cell hcell entry hentry slot hslot r hr =>
      (hknown r).2 (hcells cell hcell entry hentry slot hslot r hr)

/-- There are no more known records than cells. -/
theorem Sound.length_le (h : g.Sound known) {rs : List RecordRef}
    (hrs : ∀ r ∈ rs, r ∈ known) (hnodup : rs.Nodup) : rs.length ≤ g.cells.size := by
  have hserials : (rs.map RecordRef.serial).Nodup :=
    List.Nodup.map_on (fun r hr r' hr' heq => h.alone r (hrs r hr) r' (hrs r' hr') heq) hnodup
  have hsubset : rs.map RecordRef.serial ⊆ List.range g.cells.size := by
    intro n hn
    obtain ⟨r, hr, rfl⟩ := List.mem_map.1 hn
    exact List.mem_range.2 (h.bounded r (hrs r hr))
  simpa using (hserials.subperm hsubset).length_le

theorem Sound.value (h : g.Sound known) (hr : r ∈ known) (hv : g.value? r name = some v) :
    v.Within known := by
  obtain ⟨source, hslot⟩ := value?_eq_some_iff.1 hv
  exact h.within r hr name ⟨v, source⟩ hslot

theorem Sound.seen (h : g.Sound known) (hr : r ∈ known) (hv : g.seen? r name = some v) :
    v.Within known := by
  induction r with
  | made serial c => exact h.value hr hv
  | fork serial c base ih =>
    cases hown : g.own? (.fork serial c base) name with
    | some own =>
      rw [seen?_of_own hown] at hv
      obtain ⟨slot, rfl, rfl⟩ := Option.map_eq_some_iff.1 hv
      exact h.within _ hr name slot hown
    | none =>
      rw [seen?_fork hown] at hv
      exact ih (h.base _ _ _ hr) hv

theorem Sound.of_own?_eq (h : g.Sound known) (hsize : g.cells.size ≤ g'.cells.size)
    (hown : ∀ r name, g'.own? r name = g.own? r name) : g'.Sound known where
  bounded r hr := Nat.lt_of_lt_of_le (h.bounded r hr) hsize
  alone := h.alone
  base := h.base
  within r hr name slot hslot := h.within r hr name slot (by rwa [hown] at hslot)

/-- A record in a new cell that says nothing yet. -/
theorem Sound.insert (h : g.Sound known) (hserial : r.serial = g.cells.size)
    (hsize : g'.cells.size = g.cells.size + 1) (hown : ∀ r name, g'.own? r name = g.own? r name)
    (hbase : ∀ base, r.base? = some base → base ∈ known) : g'.Sound (Insert.insert r known) := by
  have hmore : known ⊆ Insert.insert r known := Set.subset_insert _ _
  refine ⟨?_, ?_, ?_, ?_⟩
  · rintro r' (rfl | hr')
    · omega
    · have hbound := h.bounded r' hr'
      omega
  · rintro r₁ (rfl | hr₁) r₂ (rfl | hr₂) heq
    · rfl
    · have hbound := h.bounded r₂ hr₂
      omega
    · have hbound := h.bounded r₁ hr₁
      omega
    · exact h.alone r₁ hr₁ r₂ hr₂ heq
  · rintro serial c base (rfl | hfork)
    · exact hmore (hbase base rfl)
    · exact hmore (h.base serial c base hfork)
  · rintro r' (rfl | hr') name slot hslot <;> rw [hown] at hslot
    · rw [own?_of_size_le (Nat.le_of_eq hserial.symm)] at hslot
      cases hslot
    · exact (h.within r' hr' name slot hslot).mono hmore

/-- What a known record holds after a write to another one or to itself. -/
theorem Sound.own?_write (h : g.Sound known) {r r' : RecordRef} (hr : r ∈ known) (hr' : r' ∈ known)
    {name name' : String} {slot : Option Slot} {s : Slot}
    (hs : (g.write r name slot).own? r' name' = some (some s)) :
    g.own? r' name' = some (some s) ∨ r' = r ∧ name' = name ∧ slot = some s := by
  rcases g.own?_write_cases r name slot r' name' with heq | ⟨hserial, hname, heq⟩
  · exact .inl (heq ▸ hs)
  · rw [heq] at hs
    exact .inr ⟨h.alone r' hr' r hr hserial, hname, Option.some.inj hs⟩

theorem Sound.write (h : g.Sound known) (r : RecordRef) (name : String) {slot : Option Slot}
    (hslot : ∀ s, slot = some s → s.value.Within known) : (g.write r name slot).Sound known where
  bounded r' hr' := by
    rw [Graph.write, size_modify]
    exact h.bounded r' hr'
  alone := h.alone
  base := h.base
  within r' hr' name' s hs := by
    rcases g.own?_write_cases r name slot r' name' with heq | ⟨-, -, heq⟩
    · exact h.within r' hr' name' s (heq ▸ hs)
    · exact hslot s (Option.some.inj (heq.symm.trans hs))

theorem Stands.mono (h : Stands g₀ known₀ known r r') (hafter : known ⊆ after) :
    Stands g₀ known₀ after r r' :=
  ⟨h.before, hafter h.known, h.descends⟩

theorem Fresh.mono {m n : Nat} (h : Fresh n known r r') (hn : m ≤ n) (hafter : known ⊆ after) :
    Fresh m after r r' := by
  obtain ⟨hr', serial, hserial, heq⟩ := h
  exact ⟨hafter hr', serial, Nat.le_trans hn hserial, heq⟩

theorem optionRel_imp {R R' : RecordRef → RecordRef → Prop} {o o' : Option Value}
    (h : Option.Rel (Value.Reforked R) o o') (hR : ∀ q q', R q q' → R' q q') :
    Option.Rel (Value.Reforked R') o o' := by
  cases h with
  | some h => exact .some (h.imp hR)
  | none => exact .none

theorem optionRel_mono {o o' : Option Value}
    (h : Option.Rel (Value.Reforked (Stands g₀ known₀ known)) o o') (hafter : known ⊆ after) :
    Option.Rel (Value.Reforked (Stands g₀ known₀ after)) o o' :=
  optionRel_imp h fun _ _ hr => hr.mono hafter

theorem Sound.viewed (h : g.Sound known) : Viewed g known known g where
  sound := h
  more := subset_rfl
  old := h.bounded
  size := Nat.le_refl _
  seen r r' hr name := by
    obtain rfl := hr.descends.eq_of_lt (h.bounded r' hr.known)
    cases hv : g.seen? r name with
    | none => exact .none
    | some v =>
      have hwithin := h.seen hr.before hv
      exact .some (.refl fun q hq => ⟨hwithin q hq, hwithin q hq, .refl⟩)
  kept _ _ _ hown := hown
  rising r _ name hnone slot hslot := by
    rw [hnone] at hslot
    cases hslot

namespace Viewed

theorem of_own?_eq (h : Viewed g₀ known₀ known g) (hsize : g.cells.size ≤ g'.cells.size)
    (hown : ∀ r name, g'.own? r name = g.own? r name) : Viewed g₀ known₀ known g' where
  sound := h.sound.of_own?_eq hsize hown
  more := h.more
  old := h.old
  size := Nat.le_trans h.size hsize
  seen r r' hr name := by
    rw [seen?_congr hown]
    exact h.seen r r' hr name
  kept r name slot hslot := (hown r name).trans (h.kept r name slot hslot)
  rising r hr name hnone slot hslot := h.rising r hr name hnone slot (by rwa [hown] at hslot)

theorem fork (h : Viewed g₀ known₀ known g) (hq : q ∈ known) :
    Viewed g₀ known₀ (insert (.fork g.cells.size q.cls q) known) (g.fork q.cls q).2 := by
  have hown := own?_fork g q.cls q
  have hsize := size_fork g q.cls q
  have hmore : known ⊆ insert (.fork g.cells.size q.cls q) known := Set.subset_insert _ _
  have hnew : ∀ name, g.own? (.fork g.cells.size q.cls q) name = none :=
    own?_of_size_le (Nat.le_refl _)
  have hbase : ∀ base, RecordRef.base? (.fork g.cells.size q.cls q) = some base → base ∈ known := by
    rintro base hbase
    cases hbase
    exact hq
  refine ⟨h.sound.insert rfl hsize hown hbase, h.more.trans hmore, h.old, ?_, ?_, ?_, ?_⟩
  · exact Nat.le_trans h.size (hsize ▸ Nat.le_succ _)
  · rintro r r' ⟨hr, rfl | hr', hdescends⟩ name <;> rw [seen?_congr hown]
    · rw [seen?_fork (hnew name)]
      cases hdescends with
      | refl => exact absurd (h.old _ hr) (Nat.not_lt.2 h.size)
      | fork hdescends _ _ => exact optionRel_mono (h.seen r q ⟨hr, hq, hdescends⟩ name) hmore
    · exact optionRel_mono (h.seen r r' ⟨hr, hr', hdescends⟩ name) hmore
  · exact fun r name slot hslot => (hown r name).trans (h.kept r name slot hslot)
  · rintro r (rfl | hr) name hnone slot hslot <;> rw [hown] at hslot
    · rw [hnew] at hslot
      cases hslot
    · exact h.rising r hr name hnone slot hslot

theorem forkRecords (h : Viewed g₀ known₀ known g) (hv : v.Within known) :
    ∃ after, known ⊆ after ∧ Viewed g₀ known₀ after (v.forkRecords g).2 ∧
      v.Reforked (Fresh g.cells.size after) (v.forkRecords g).1 ∧
      g.cells.size ≤ (v.forkRecords g).2.cells.size := by
  induction v using Value.induction generalizing g known with
  | array items ih =>
    have hitems := Value.within_array.1 hv
    clear hv
    -- What is known grows from item to item, and the counter of cells with it.
    have hforked : ∃ after, known ⊆ after ∧ Viewed g₀ known₀ after (Value.forkItems items g).2 ∧
        List.Forall₂ (Value.Reforked (Fresh g.cells.size after)) items
          (Value.forkItems items g).1 ∧
        g.cells.size ≤ (Value.forkItems items g).2.cells.size := by
      induction items generalizing g known with
      | nil => exact ⟨known, subset_rfl, h, .nil, Nat.le_refl _⟩
      | cons v rest ihRest =>
        obtain ⟨hv, hrest⟩ := List.forall_mem_cons.1 ih
        obtain ⟨hwithin, hwithinRest⟩ := List.forall_mem_cons.1 hitems
        obtain ⟨after, hafter, hg₁, hforked, hsize⟩ := hv h hwithin
        obtain ⟨later, hlater, hg₂, hlast, hsizes⟩ :=
          ihRest hrest hg₁ fun v hv => (hwithinRest v hv).mono hafter
        exact ⟨later, hafter.trans hlater, hg₂,
          .cons (hforked.imp fun _ _ hr => hr.mono (Nat.le_refl _) hlater)
            (hlast.imp fun _ _ hv => hv.imp fun _ _ hr => hr.mono hsize subset_rfl),
          Nat.le_trans hsize hsizes⟩
    obtain ⟨after, hafter, hg', hitems, hsize⟩ := hforked
    exact ⟨after, hafter, hg', .array hitems, hsize⟩
  | object fields ih =>
    have hfields := Value.within_object.1 hv
    clear hv
    have hforked : ∃ after, known ⊆ after ∧ Viewed g₀ known₀ after (Value.forkFields fields g).2 ∧
        (Fields.keys fields = Fields.keys (Value.forkFields fields g).1 ∧
          List.Forall₂ (Value.Reforked (Fresh g.cells.size after)) (Fields.values fields)
            (Fields.values (Value.forkFields fields g).1)) ∧
        g.cells.size ≤ (Value.forkFields fields g).2.cells.size := by
      induction fields generalizing g known with
      | nil => exact ⟨known, subset_rfl, h, ⟨rfl, .nil⟩, Nat.le_refl _⟩
      | cons entry rest ihRest =>
        obtain ⟨name, v⟩ := entry
        obtain ⟨hv, hrest⟩ := List.forall_mem_cons.1 ih
        obtain ⟨hwithin, hwithinRest⟩ := List.forall_mem_cons.1 hfields
        obtain ⟨after, hafter, hg₁, hforked, hsize⟩ := hv h hwithin
        obtain ⟨later, hlater, hg₂, ⟨hnames, hlast⟩, hsizes⟩ :=
          ihRest hrest hg₁ fun entry hentry => (hwithinRest entry hentry).mono hafter
        exact ⟨later, hafter.trans hlater, hg₂, ⟨congrArg (name :: ·) hnames,
          .cons (hforked.imp fun _ _ hr => hr.mono (Nat.le_refl _) hlater)
            (hlast.imp fun _ _ hv => hv.imp fun _ _ hr => hr.mono hsize subset_rfl)⟩,
          Nat.le_trans hsize hsizes⟩
    obtain ⟨after, hafter, hg', ⟨hnames, hvalues⟩, hsize⟩ := hforked
    exact ⟨after, hafter, hg', .object hnames hvalues, hsize⟩
  | other v harray hobject =>
    cases v with
    | array items => cases harray
    | object fields => cases hobject
    | record r =>
      have hr := Value.within_record.1 hv
      refine ⟨_, Set.subset_insert _ _, h.fork hr, .record ⟨Set.mem_insert _ _, ?_⟩, ?_⟩
      · exact ⟨g.cells.size, Nat.le_refl _, rfl⟩
      · exact Nat.le_trans (Nat.le_succ _) (Nat.le_of_eq (size_fork g r.cls r).symm)
    | undefined => exact ⟨known, subset_rfl, h, .undefined, Nat.le_refl _⟩
    | classRef c => exact ⟨known, subset_rfl, h, .classRef c, Nat.le_refl _⟩
    | _ => exact ⟨known, subset_rfl, h, .leaf rfl, Nat.le_refl _⟩

theorem seen?_write_self (h : g.Sound known) (hq : q ∈ known) (name : String) (slot : Slot) :
    (g.write q name (some slot)).seen? q name = some slot.value := by
  obtain ⟨cell, hcell⟩ : ∃ cell, g.cell? q = some cell :=
    ⟨_, Array.getElem?_eq_getElem (h.bounded q hq)⟩
  rw [seen?_of_own (own?_write_self hcell name _)]
  rfl

/-- Whoever sees what a record sees, sees what is written there in its place. -/
theorem seen?_write (h : g.Sound known) (hq : q ∈ known) (hv : g.seen? q name = some v)
    (source : Source) (hr : r ∈ known) (name' : String) :
    (g.write q name (some ⟨w, source⟩)).seen? r name' = g.seen? r name' ∨
      name' = name ∧ g.seen? r name = some v ∧
        (g.write q name (some ⟨w, source⟩)).seen? r name = some w := by
  have hself := seen?_write_self h hq name ⟨w, source⟩
  have hother : ∀ r ∈ known, ¬(r = q ∧ name' = name) →
      (g.write q name (some ⟨w, source⟩)).own? r name' = g.own? r name' := by
    intro r hr hne
    rcases g.own?_write_cases q name (some ⟨w, source⟩) r name' with heq | ⟨hserial, hname, -⟩
    · exact heq
    · exact absurd ⟨h.alone r hr q hq hserial, hname⟩ hne
  induction r with
  | made serial c =>
    by_cases hsame : .made serial c = q ∧ name' = name
    · exact .inr ⟨hsame.2, hsame.1 ▸ hv, hsame.1 ▸ hself⟩
    · exact .inl (value?_congr (hother _ hr hsame))
  | fork serial c base ih =>
    by_cases hsame : .fork serial c base = q ∧ name' = name
    · exact .inr ⟨hsame.2, hsame.1 ▸ hv, hsame.1 ▸ hself⟩
    · have hown := hother _ hr hsame
      cases hslot : g.own? (.fork serial c base) name' with
      | some own => exact .inl (by rw [seen?_of_own (hown.trans hslot), seen?_of_own hslot])
      | none =>
        rw [seen?_fork (hown.trans hslot), seen?_fork hslot]
        rcases ih (h.base serial c base hr) with heq | ⟨rfl, hbase, hbase'⟩
        · exact .inl heq
        · exact .inr ⟨rfl, (seen?_fork hslot).trans hbase,
            (seen?_fork (hown.trans hslot)).trans hbase'⟩

/-- The forks of what a record sees are written where it has written nothing. -/
theorem write (h : Viewed g₀ known₀ known g) (hq : q ∈ known) (hnone : g.own? q name = none)
    (hv : g.seen? q name = some v) {n : Nat} (hn : g₀.cells.size ≤ n) (hqn : q.serial < n)
    (hw : v.Reforked (Fresh n known) w) (source : Source) :
    Viewed g₀ known₀ known (g.write q name (some ⟨w, source⟩)) := by
  have hsize : (g.write q name (some ⟨w, source⟩)).cells.size = g.cells.size := size_modify g q _
  have hslots : ∀ r ∈ known, ∀ name' slot,
      (g.write q name (some ⟨w, source⟩)).own? r name' = some (some slot) →
      g.own? r name' = some (some slot) ∨ r = q ∧ slot.value = w := by
    intro r hr name' slot hslot
    rcases g.own?_write_cases q name (some ⟨w, source⟩) r name' with heq | ⟨hserial, -, heq⟩
    · exact .inl (heq ▸ hslot)
    · rw [heq] at hslot
      cases hslot
      exact .inr ⟨h.sound.alone r hr q hq hserial, rfl⟩
  refine ⟨⟨?_, h.sound.alone, h.sound.base, ?_⟩, h.more, h.old, hsize ▸ h.size, ?_, ?_, ?_⟩
  · exact fun r hr => hsize ▸ h.sound.bounded r hr
  · intro r hr name' slot hslot
    rcases hslots r hr name' slot hslot with hslot | ⟨-, rfl⟩
    · exact h.sound.within r hr name' slot hslot
    · exact hw.within fun _ _ hr => hr.known
  · intro r r' hr name'
    have hseen := h.seen r r' hr name'
    rcases seen?_write (w := w) h.sound hq hv source hr.known name' with heq | ⟨rfl, hbefore, hafter⟩
    · rwa [heq]
    · rw [hafter]
      rw [hbefore] at hseen
      generalize g₀.seen? r name' = old at hseen
      cases hseen with
      -- The fork was seen in the place of a record that stood for the one of before.
      | some hforked =>
        refine .some (hforked.trans (fun r r' r'' hr hr' => ?_) hw)
        obtain ⟨hknown, serial, hserial, rfl⟩ := hr'
        exact ⟨hr.before, hknown, hr.descends.fork rfl (Nat.le_trans hn hserial)⟩
  · intro r name' slot hslot
    have hkept := h.kept r name' slot hslot
    rcases g.own?_write_cases q name (some ⟨w, source⟩) r name' with heq | ⟨hserial, rfl, -⟩
    · exact heq.trans hkept
    · rw [own?_of_serial_eq hserial, hnone] at hkept
      cases hkept
  · intro r hr name' hbefore slot hslot
    rcases hslots r hr name' slot hslot with hslot | ⟨rfl, rfl⟩
    · exact h.rising r hr name' hbefore slot hslot
    · have hnew : slot.value.Within fun r' => n ≤ r'.serial := hw.within fun r r' hr' => by
        obtain ⟨-, serial, hserial, rfl⟩ := hr'
        exact hserial
      exact fun r' hr' => ⟨Nat.le_trans hn (hnew r' hr'), Nat.lt_of_lt_of_le hqn (hnew r' hr')⟩

/-- Reading a slot of a known record. What was read is what the record sees afterwards, it has been
written there if there are records in it, and no record is written to that is not read through. -/
theorem slot? (h : Viewed g₀ known₀ known g) (hq : q ∈ known) (name : String) :
    ∃ after, known ⊆ after ∧ Viewed g₀ known₀ after (q.slot? name g).2 ∧
      (q.slot? name g).2.seen? q name = (q.slot? name g).1.map Slot.value ∧
      (∀ slot, (q.slot? name g).1 = some slot →
        (q.slot? name g).2.own? q name = some (some slot) ∨ slot.value.records = []) ∧
      ∀ r ∈ known, sizeOf q < sizeOf r → ∀ name',
        (q.slot? name g).2.own? r name' = g.own? r name' := by
  induction q with
  | made serial c =>
    exact ⟨known, subset_rfl, h, rfl, fun slot hslot => .inl (Option.join_eq_some_iff.1 hslot),
      fun _ _ _ _ => rfl⟩
  | fork serial c base ih =>
    cases hown : g.own? (.fork serial c base) name with
    | some own =>
      rw [slot?_fork_of_own hown]
      exact ⟨known, subset_rfl, h, seen?_of_own hown, fun slot hslot => .inl (hslot ▸ hown),
        fun _ _ _ _ => rfl⟩
    | none =>
      obtain ⟨after, hafter, hg₁, hseen, -, hkept⟩ := ih (h.sound.base serial c base hq)
      rcases hread : RecordRef.slot? name base g with ⟨slot, g₁⟩
      rw [hread] at hg₁ hseen hkept
      dsimp only at hg₁ hseen hkept
      have hdeeper : sizeOf base < sizeOf (RecordRef.fork serial c base) := by
        rw [RecordRef.fork.sizeOf_spec]
        omega
      -- Reading through the base writes to nothing deeper, so the fork still has nothing of its own.
      have hown₁ : g₁.own? (.fork serial c base) name = none := by
        rw [hkept _ hq hdeeper, hown]
      have hkept' : ∀ r ∈ known, sizeOf (RecordRef.fork serial c base) < sizeOf r →
          ∀ name', g₁.own? r name' = g.own? r name' :=
        fun r hr hlt => hkept r hr (Nat.lt_trans hdeeper hlt)
      rw [slot?_fork_of_base hown hread]
      cases slot with
      | none =>
        exact ⟨after, hafter, hg₁, (seen?_fork hown₁).trans hseen, fun slot hslot => (by cases hslot),
          hkept'⟩
      | some slot =>
        dsimp only
        split
        · have hv := hg₁.sound.seen (hafter (h.sound.base serial c base hq)) hseen
          obtain ⟨later, hlater, hg₂, hforked, -⟩ := hg₁.forkRecords hv
          have hown₂ := (slot.value.forkRecords_spec g₁).2
          have hq₁ := hafter hq
          have hwritten := (hown₂ (.fork serial c base) name).trans hown₁
          have hseen₂ : (slot.value.forkRecords g₁).2.seen? (.fork serial c base) name =
              some slot.value := by
            rw [seen?_congr hown₂, seen?_fork hown₁, hseen]
            rfl
          refine ⟨later, hafter.trans hlater, hg₂.write (hlater hq₁) hwritten hseen₂ hg₁.size
            (hg₁.sound.bounded _ hq₁) hforked slot.source, ?_, ?_, ?_⟩
          · exact seen?_write_self hg₂.sound (hlater hq₁) name _
          · rintro _ ⟨⟩
            exact .inl (own?_write_self
              (Array.getElem?_eq_getElem (hg₂.sound.bounded _ (hlater hq₁))) name _)
          · intro r hr hlt name'
            have hne : r.serial ≠ (RecordRef.fork serial c base).serial := by
              intro heq
              rw [h.sound.alone r hr _ hq heq] at hlt
              exact absurd hlt (Nat.lt_irrefl _)
            rw [own?_write_of_serial_ne hne, hown₂, hkept' r hr hlt]
        · next hplain =>
          refine ⟨after, hafter, hg₁, (seen?_fork hown₁).trans hseen, ?_, hkept'⟩
          rintro _ ⟨⟩
          exact .inr (Value.records_eq_nil (Bool.eq_false_iff.2 hplain))

end Viewed

/-- What a record that stands for another one answers, in the words of the graph before. -/
structure Answers (g₀ : Graph) (known₀ known : Set RecordRef) (r r' : RecordRef) (name : String)
    (v : Option Value) : Prop where
  forked : Option.Rel (Value.Reforked (Stands g₀ known₀ known)) (g₀.seen? r name) v
  own : ∀ slot, g₀.own? r' name = some slot → v = slot.map Slot.value
  later : g₀.own? r' name = none → ∀ w, v = some w → ∀ q ∈ w.records,
    g₀.cells.size ≤ q.serial ∧ r'.serial < q.serial

namespace Viewed

/-- A record that stands for another one reads what that one saw. -/
theorem keeps_answers (hr : Stands g₀ known₀ known r r') (name : String) :
    KeepsIn (Viewed g₀ known₀) known (Record.lift (r'.value? name)) fun after v =>
      Answers g₀ known₀ after r r' name v := by
  intro before hknown g hg
  obtain ⟨after, hafter, hg', hseen, hpinned, -⟩ := hg.slot? (hknown hr.known) name
  refine ⟨after, hafter, hg', ?_⟩
  rintro v hv
  have hread : (Record.lift (r'.value? name) g).1 = .ok ((r'.slot? name g).1.map Slot.value) := rfl
  rw [hread] at hv
  cases hv
  refine ⟨?_, ?_, ?_⟩
  · rw [← hseen]
    exact hg'.seen r r' (hr.mono (hknown.trans hafter)) name
  · intro slot hslot
    rw [← hseen, seen?_of_own (hg'.kept r' name slot hslot)]
  · intro hnone w hw q hq
    obtain ⟨slot, hslot, rfl⟩ := Option.map_eq_some_iff.1 hw
    rcases hpinned slot hslot with hown | hplain
    · exact hg'.rising r' (hafter (hknown hr.known)) name hnone slot hown q hq
    · rw [hplain] at hq
      cases hq

theorem keeps_value (hr : Stands g₀ known₀ known r r') (name : String) :
    KeepsIn (Viewed g₀ known₀) known (Record.lift (r'.value? name)) fun after v =>
      Option.Rel (Value.Reforked (Stands g₀ known₀ after)) (g₀.seen? r name) v :=
  (keeps_answers hr name).imp fun _ _ _ h => h.forked

theorem stands (h : Viewed g₀ known₀ known g) (hr : r ∈ known₀) : Stands g₀ known₀ known r r :=
  ⟨hr, h.more hr, .refl⟩

theorem undefined (h : Viewed g₀ known₀ known g) (hr : r ∈ known₀)
    (hv : g₀.seen? r name = some .undefined) : g.seen? r name = some .undefined := by
  have hseen := h.seen r r (h.stands hr) name
  rw [hv] at hseen
  generalize g.seen? r name = after at hseen ⊢
  cases hseen with
  | some hforked =>
    cases hforked with
    | leaf hleaf => cases hleaf
    | undefined => rfl

/-- What is written in a record that is no fork is set afterwards as well. -/
theorem set (h : Viewed g₀ known₀ known g) (hmade : r.base? = none) (hr : r ∈ known₀) {v : Value}
    (hv : g₀.seen? r name = some v) : ∃ slot, g.own? r name = some (some slot) := by
  have hseen := h.seen r r (h.stands hr) name
  rw [hv, seen?_made hmade] at hseen
  cases hread : g.value? r name with
  | none =>
    rw [hread] at hseen
    cases hseen
  | some w =>
    obtain ⟨source, hown⟩ := value?_eq_some_iff.1 hread
    exact ⟨_, hown⟩

end Viewed

theorem viewed_allowsReading (g₀ : Graph) (known₀ : Set RecordRef) :
    AllowsReading (Viewed g₀ known₀) where
  slot known r name g hr hg := by
    obtain ⟨after, hafter, hg', hseen, -, -⟩ := hg.slot? hr name
    refine ⟨after, hafter, hg', fun slot hslot => ?_⟩
    rw [hslot] at hseen
    exact hg'.sound.seen (hafter hr) hseen
  resolving known r b g _ hg := hg.of_own?_eq (Nat.le_of_eq (size_modify g r _).symm)
    fun other name => own?_markResolving g r b other name

/-- A record after reading comes from one of before: it is of the same class, and it holds what that one
saw, with records of the same classes in it. -/
structure Comes (g g' : Graph) (r r' : RecordRef) : Prop where
  cls : r'.cls = r.cls
  own : ∀ name slot, g'.own? r' name = some (some slot) →
    ∃ v, g.seen? r name = some v ∧ v.Reforked (fun q q' => q'.cls = q.cls) slot.value

/-- Reading a slot makes records known that come from known ones. All new ones are forks within a
class. -/
theorem Sound.slot? (h : g.Sound known) (hr : r ∈ known) (name : String) :
    ∃ after, known ⊆ after ∧ (r.slot? name g).2.Sound after ∧
      (r.slot? name g).2.seen? r name = (r.slot? name g).1.map Slot.value ∧
      (∀ r' ∈ after, ∃ q ∈ known, g.Comes (r.slot? name g).2 q r') ∧
      ∀ serial c base, .fork serial c base ∈ after → .fork serial c base ∈ known ∨ c = base.cls := by
  obtain ⟨seen, -, hviewed, hread, -⟩ := h.viewed.slot? hr name
  generalize (r.slot? name g).2 = g' at hviewed hread ⊢
  have hstands : ∀ r ∈ known, Stands g known seen r r := fun r hr => hviewed.stands hr
  have hslot : ∀ q r', Stands g known seen q r' → ∀ name slot, g'.own? r' name = some (some slot) →
      ∃ v, g.seen? q name = some v ∧ v.Reforked (Stands g known seen) slot.value := by
    intro q r' hq name slot hslot
    have hrel := hviewed.seen q r' hq name
    rw [seen?_of_own hslot] at hrel
    generalize g.seen? q name = before at hrel
    cases hrel with
    | some hforked => exact ⟨_, rfl, hforked⟩
  refine ⟨{r' | ∃ q, Stands g known seen q r'}, fun q hq => ⟨q, hstands q hq⟩,
    ⟨?_, ?_, ?_, ?_⟩, hread, ?_, ?_⟩
  · rintro r' ⟨q, hq⟩
    exact hviewed.sound.bounded r' hq.known
  · rintro r₁ ⟨q₁, hq₁⟩ r₂ ⟨q₂, hq₂⟩
    exact hviewed.sound.alone r₁ hq₁.known r₂ hq₂.known
  · rintro serial c base ⟨q, hbefore, hmem, hdescends⟩
    cases hdescends with
    | refl => exact ⟨base, hstands base (h.base serial c base hbefore)⟩
    | fork hdescends _ _ => exact ⟨q, hbefore, hviewed.sound.base serial c base hmem, hdescends⟩
  · rintro r' ⟨q, hq⟩ name slot hown
    obtain ⟨v, -, hforked⟩ := hslot q r' hq name slot hown
    exact hforked.within fun a b hab => ⟨a, hab⟩
  · rintro r' ⟨q, hq⟩
    refine ⟨q, hq.before, hq.descends.cls, fun name slot hown => ?_⟩
    obtain ⟨v, hv, hforked⟩ := hslot q r' hq name slot hown
    exact ⟨v, hv, hforked.imp fun _ _ hab => hab.descends.cls⟩
  · rintro serial c base ⟨q, hbefore, -, hdescends⟩
    cases hdescends with
    | refl => exact .inl hbefore
    | fork _ hcls _ => exact .inr hcls

end Graph

end TypedRecords
