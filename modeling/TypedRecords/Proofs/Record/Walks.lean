import TypedRecords.Proofs.Record.Around
import TypedRecords.Proofs.Selector.Paths

/-! # Walks without end

A traversal goes from record to record along the attributes that a selector selects. It does not enter a
record that it is within, so it walks on only where forks have inherited what they hold: there it meets a
new fork each time that it comes back to a record. It does so forever exactly if all is selected and the
record leads back to itself.
-/

namespace TypedRecords.Graph

/-- Which records of a value a traversal enters, and with which selectors, if the value is that of an
attribute and something of it is selected. -/
abbrev Way := Attribute → Selector → Value → RecordRef → Selector → Prop

/-- A traversal enters records of the value, with the selector itself or altogether. -/
structure Way.Enters (way : Way) : Prop where
  records : ∀ a s v q t, way a s v q t → q ∈ v.records
  selects : ∀ a s v q t, way a s v q t → t = s ∨ t = .all

/-- An attribute that is selected and set leads from a record to another one. -/
def Leads (d : Directory) (way : Way) (g : Graph) (r : RecordRef) (s : Selector) (name : String)
    (q : RecordRef) (t : Selector) : Prop :=
  ∃ a ∈ d.attributes r.cls, a.name = name ∧ (s.get name).isNone = false ∧
    ∃ v, g.seen? r name = some v ∧ way a (s.get name) v q t

/-- A record leads to another one where all is selected. -/
def Follows (d : Directory) (way : Way) (g : Graph) (r q : RecordRef) : Prop :=
  ∃ name, g.Leads d way r .all name q .all

/-- There is a walk of so many steps that enters no record that it is within. -/
def Deep (d : Directory) (way : Way) (g : Graph) :
    Nat → (above : Option (List RecordRef)) → RecordRef → Selector → Prop
  | 0, _, _, _ => True
  | n + 1, above, r, s => (∀ around, above = some around → r ∉ around) ∧
      ∃ name q t, g.Leads d way r s name q t ∧ Deep d way g n (g.around above r name) q t

/-- A walk that enters no record that it is within comes to a record that a fork has inherited, and leads
from there back to it, while all is selected. -/
inductive Endless (d : Directory) (way : Way) (g : Graph) :
    (above : Option (List RecordRef)) → RecordRef → Selector → Prop
  | cycle {r : RecordRef} (h : Relation.TransGen (g.Follows d way) r r) : Endless d way g none r .all
  | step {above : Option (List RecordRef)} {r q : RecordRef} {s t : Selector} {name : String}
    (apart : ∀ around, above = some around → r ∉ around) (leads : g.Leads d way r s name q t)
    (h : Endless d way g (g.around above r name) q t) : Endless d way g above r s

section

variable {d : Directory} {way : Way} {g : Graph} {known : Set RecordRef} {n : Nat}
  {above : Option (List RecordRef)} {r q : RecordRef} {s t : Selector} {name : String}

theorem around_none (g : Graph) (r : RecordRef) (name : String) : g.around none r name = none := by
  simp [around]

theorem around_eq_some {around : List RecordRef} (h : g.around above r name = some around) :
    ∃ outer, above = some outer ∧ around = r :: outer := by
  unfold Graph.around at h
  split at h
  · obtain ⟨outer, habove, rfl⟩ := Option.map_eq_some_iff.1 h
    exact ⟨outer, habove, rfl⟩
  · cases h

theorem Leads.mem (hway : way.Enters) (hg : g.Sound known) (hr : r ∈ known)
    (h : g.Leads d way r s name q t) : q ∈ known := by
  obtain ⟨a, -, -, -, v, hv, hq⟩ := h
  exact hg.seen hr hv q (hway.records _ _ _ _ _ hq)

theorem Leads.selects (hway : way.Enters) (h : g.Leads d way r s name q t) :
    (s.get name).isNone = false ∧ (t = s.get name ∨ t = .all) := by
  obtain ⟨a, -, -, hsome, v, -, hq⟩ := h
  exact ⟨hsome, hway.selects _ _ _ _ _ hq⟩

theorem deep_succ_iff : g.Deep d way (n + 1) above r s ↔
    (∀ around, above = some around → r ∉ around) ∧
      ∃ a ∈ d.attributes r.cls, (s.get a.name).isNone = false ∧ ∃ v, g.seen? r a.name = some v ∧
        ∃ q t, way a (s.get a.name) v q t ∧ g.Deep d way n (g.around above r a.name) q t := by
  refine and_congr_right fun _ => ⟨?_, ?_⟩
  · intro h
    obtain ⟨_, q, t, ⟨a, ha, rfl, hsome, v, hv, hq⟩, hdeep⟩ := h
    exact ⟨a, ha, hsome, v, hv, q, t, hq, hdeep⟩
  · intro h
    obtain ⟨a, ha, hsome, v, hv, q, t, hq, hdeep⟩ := h
    exact ⟨a.name, q, t, ⟨a, ha, rfl, hsome, v, hv, hq⟩, hdeep⟩

/-! ### Endless walks are walks of any length -/

/-- Around a cycle in what forks inherit, a walk goes on and on. -/
theorem deep_of_cycle {z : RecordRef} (hcycle : Relation.TransGen (g.Follows d way) z z)
    (hr : Relation.ReflTransGen (g.Follows d way) r z) (n : Nat) : g.Deep d way n none r .all := by
  induction n generalizing r with
  | zero => trivial
  | succ n ih =>
    obtain ⟨q, ⟨name, hleads⟩, hq⟩ := Relation.TransGen.head'_iff.1 (hcycle.trans_right hr)
    refine ⟨fun _ hnone => (by cases hnone), name, q, .all, hleads, ?_⟩
    rw [around_none]
    exact ih hq

theorem Endless.deep (h : g.Endless d way above r s) (n : Nat) : g.Deep d way n above r s := by
  induction h generalizing n with
  | cycle h => exact deep_of_cycle h .refl n
  | step apart leads _ ih =>
    cases n with
    | zero => trivial
    | succ n => exact ⟨apart, _, _, _, leads, ih n⟩

/-! ### Long walks are endless -/

/-- Where all is selected, a walk that is longer than there are records enters one again. The records in
`trail` have been entered already. -/
theorem Deep.endless_all (hway : way.Enters) (hg : g.Sound known) (trail : List RecordRef)
    (htrail : ∀ w ∈ trail, w ∈ known ∧ Relation.TransGen (g.Follows d way) w r)
    (hnodup : trail.Nodup) (hwithin : ∀ around, above = some around → trail ⊆ around)
    (hr : r ∈ known) (hn : g.cells.size < n + trail.length) (h : g.Deep d way n above r .all) :
    g.Endless d way above r .all := by
  induction n generalizing above r trail with
  | zero =>
    have hle := hg.length_le (fun w hw => (htrail w hw).1) hnodup
    omega
  | succ n ih =>
    obtain ⟨hapart, name, q, t, hleads, hdeep⟩ := h
    obtain rfl : t = .all := (hleads.selects hway).2.elim id id
    by_cases hmem : r ∈ trail
    · -- The walk has come back to the record, and would have been cut if it were within it.
      cases above with
      | none => exact .cycle (htrail r hmem).2
      | some around => exact absurd (hwithin around rfl hmem) (hapart around rfl)
    · have hfollows : g.Follows d way r q := ⟨name, hleads⟩
      refine .step hapart hleads
        (ih (r :: trail) ?_ (hnodup.cons hmem) ?_ (hleads.mem hway hg hr) ?_ hdeep)
      · intro w hw
        rcases List.mem_cons.1 hw with rfl | hw
        · exact ⟨hr, .single hfollows⟩
        · exact ⟨(htrail w hw).1, (htrail w hw).2.tail hfollows⟩
      · intro around haround
        obtain ⟨outer, habove, rfl⟩ := around_eq_some haround
        exact List.cons_subset_cons r (hwithin outer habove)
      · rw [List.length_cons]
        omega

/-- A walk that is longer than the records and the names of the selector allow is endless. -/
theorem Deep.endless (hway : way.Enters) (hg : g.Sound known) (hr : r ∈ known)
    (hn : g.cells.size + s.depth < n) (h : g.Deep d way n above r s) :
    g.Endless d way above r s := by
  have hall : ∀ {n above r}, r ∈ known → g.cells.size < n → g.Deep d way n above r .all →
      g.Endless d way above r .all :=
    fun hr hn h => h.endless_all hway hg [] (by simp) List.nodup_nil (by simp) hr hn
  induction n generalizing above r s with
  | zero => omega
  | succ n ih =>
    cases s with
    | all => exact hall hr hn h
    | none =>
      obtain ⟨-, name, q, t, hleads, -⟩ := h
      cases (hleads.selects hway).1
    | only fields =>
      obtain ⟨hapart, name, q, t, hleads, hdeep⟩ := h
      have hdepth := Selector.depth_get_lt fields name
      have hq := hleads.mem hway hg hr
      refine .step hapart hleads ?_
      rcases (hleads.selects hway).2 with rfl | rfl
      · exact ih hq (by omega) hdeep
      · exact hall hq (by omega) hdeep

/-- Where no record is a fork, nothing is inherited and no walk is endless. -/
theorem not_endless_of_made (hway : way.Enters) (hg : g.Sound known)
    (hmade : ∀ r ∈ known, r.base? = none) (hr : r ∈ known) {around : List RecordRef} :
    ¬g.Endless d way (some around) r s := by
  suffices h : ∀ {above r s}, g.Endless d way above r s → above ≠ none → r ∉ known from
    fun hendless => h hendless (by simp) hr
  intro above r s h
  induction h with
  | cycle => exact fun hsome => absurd rfl hsome
  | @step above r q s t name _ leads _ ih =>
    intro habove hr
    refine ih ?_ (leads.mem hway hg hr)
    obtain ⟨a, -, -, -, v, hv, -⟩ := leads
    rw [seen?_made (hmade r hr)] at hv
    obtain ⟨source, hown⟩ := value?_eq_some_iff.1 hv
    simpa [Graph.around, hown] using habove

end

end TypedRecords.Graph
