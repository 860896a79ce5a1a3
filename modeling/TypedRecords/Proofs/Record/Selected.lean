import TypedRecords.Proofs.Record.Accepting
import TypedRecords.Proofs.Record.Aside
import TypedRecords.Proofs.Record.Ending

/-! # What is selected to be written

Where no record is a fork, resolving a selector leaves the graph as it was. Where also no record is held
within itself, the resolved selector keeps, of all paths that lead through set attributes to records stored
within each other, those that the selector has selected: a value that holds no records by its type is
selected with everything in it, and of a record that is referred to by identifier, the identifiers are.
-/

namespace TypedRecords

/-! ### Records within records -/

namespace Graph

/-- A record holds another one that is stored within it. -/
def Embeds (d : Directory) (g : Graph) (r q : RecordRef) : Prop :=
  g.Nests d r q ∧ (d.definition q.cls).referenceable = false

/-- Records that are no forks and hold what was accepted. None is held within itself, and none is being
resolved. -/
structure Hierarchy (d : Directory) (known : Set RecordRef) (g : Graph) : Prop where
  accepting : g.Accepting d known
  made : ∀ r ∈ known, r.base? = none
  acyclic : ∀ r ∈ known, ¬Relation.TransGen (g.Embeds d) r r
  idle : ∀ r, g.isResolving r = false

/-- The path of attributes leads from a record to one that is stored within it, at any depth. -/
inductive Below (d : Directory) (g : Graph) : RecordRef → List String → RecordRef → Prop
  | self {r : RecordRef} : Below d g r [] r
  | within {r q inner : RecordRef} {a : Attribute} {v : Value} {path : List String}
    (declared : a ∈ d.attributes r.cls) (holds : g.value? r a.name = some v) (mem : inner ∈ v.records)
    (embedded : (d.definition inner.cls).referenceable = false) (below : Below d g inner path q) :
    Below d g r (a.name :: path) q

/-- The path is selected of a record to be written. What is selected of one of the records that an
attribute holds is selected of all. -/
inductive Selected (d : Directory) (g : Graph) : Selector → RecordRef → List String → Prop
  /-- The attribute is selected and set. -/
  | here {s : Selector} {r : RecordRef} {a : Attribute} {v : Value}
    (declared : a ∈ d.attributes r.cls) (selects : s.Selects a.name)
    (holds : g.value? r a.name = some v) : Selected d g s r [a.name]
  /-- By its type the attribute refers to no records, so all of it is selected. -/
  | whole {s : Selector} {r : RecordRef} {a : Attribute} {v : Value} {rest : List String}
    (declared : a ∈ d.attributes r.cls) (selects : s.Selects a.name)
    (holds : g.value? r a.name = some v) (plain : a.type.recordClass? = none) :
    Selected d g s r (a.name :: rest)
  /-- The attribute holds a record that is stored within. -/
  | within {s : Selector} {r inner : RecordRef} {a : Attribute} {v : Value} {rest : List String}
    (declared : a ∈ d.attributes r.cls) (selects : s.Selects a.name)
    (holds : g.value? r a.name = some v) (mem : inner ∈ v.records)
    (embedded : (d.definition inner.cls).referenceable = false)
    (inside : Selected d g (s.get a.name) inner rest) : Selected d g s r (a.name :: rest)
  /-- The attribute holds a record that is stored as a reference. -/
  | referred {s : Selector} {r inner : RecordRef} {a : Attribute} {v : Value} {rest : List String}
    (declared : a ∈ d.attributes r.cls) (selects : s.Selects a.name)
    (holds : g.value? r a.name = some v) (mem : inner ∈ v.records)
    (referenceable : (d.definition inner.cls).referenceable = true)
    (identifies : (d.definition inner.cls).identifierSelector.Keeps rest) :
    Selected d g s r (a.name :: rest)

variable {d : Directory} {g : Graph} {known : Set RecordRef} {r q : RecordRef} {s t : Selector}
  {path : List String}

theorem Sound.markResolving (hg : g.Sound known) (r : RecordRef) (b : Bool) :
    (g.markResolving r b).Sound known :=
  hg.of_own?_eq (Nat.le_of_eq (size_modify g r _).symm) (own?_markResolving g r b)

theorem embeds_of_mem {a : Attribute} (ha : a ∈ d.attributes r.cls) {v : Value}
    (hv : g.value? r a.name = some v) (hq : q ∈ v.records)
    (hembedded : (d.definition q.cls).referenceable = false) : g.Embeds d r q :=
  ⟨⟨a, ha, mem_held.2 ⟨v, hv, hq⟩⟩, hembedded⟩

theorem mem_of_embeds (hg : g.Sound known) (hr : r ∈ known)
    (h : Relation.ReflTransGen (g.Embeds d) r q) : q ∈ known := by
  induction h with
  | refl => exact hr
  | tail _ hstep ih => exact hg.nests ih hstep.1

theorem Selected.head (h : g.Selected d s r path) : ∃ a ∈ d.attributes r.cls, ∃ v rest,
    path = a.name :: rest ∧ s.Selects a.name ∧ g.value? r a.name = some v := by
  cases h with
  | here declared selects holds => exact ⟨_, declared, _, _, rfl, selects, holds⟩
  | whole declared selects holds _ => exact ⟨_, declared, _, _, rfl, selects, holds⟩
  | within declared selects holds _ _ _ => exact ⟨_, declared, _, _, rfl, selects, holds⟩
  | referred declared selects holds _ _ _ => exact ⟨_, declared, _, _, rfl, selects, holds⟩

/-- What is selected of an attribute is the attribute itself, or all of it if it refers to no records, or
what is selected of a record that it holds. -/
theorem Selected.of_attribute (hd : d.Lawful) {a : Attribute} (ha : a ∈ d.attributes r.cls) {v : Value}
    (hv : g.value? r a.name = some v) {rest : List String} (h : g.Selected d s r (a.name :: rest)) :
    rest = [] ∨ a.type.recordClass? = none ∨ ∃ q ∈ v.records,
      (d.definition q.cls).referenceable = false ∧ g.Selected d (s.get a.name) q rest ∨
      (d.definition q.cls).referenceable = true ∧ (d.definition q.cls).identifierSelector.Keeps rest := by
  generalize hpath : a.name :: rest = path at h
  have hsame : ∀ {b : Attribute} {rest' w}, a.name :: rest = b.name :: rest' → b ∈ d.attributes r.cls →
      g.value? r b.name = some w → b = a ∧ rest' = rest ∧ w = v := by
    intro b rest' w hcons hb hw
    obtain ⟨hname, rfl⟩ := List.cons.inj hcons
    obtain rfl := List.inj_on_of_nodup_map (hd.definition r.cls).names_nodup hb ha hname.symm
    rw [hv] at hw
    exact ⟨rfl, rfl, (Option.some.inj hw).symm⟩
  cases h with
  | here declared _ holds =>
    obtain ⟨-, rfl, -⟩ := hsame hpath declared holds
    exact .inl rfl
  | whole declared _ holds plain =>
    obtain ⟨rfl, -, -⟩ := hsame hpath declared holds
    exact .inr (.inl plain)
  | within declared _ holds mem embedded inside =>
    obtain ⟨rfl, rfl, rfl⟩ := hsame hpath declared holds
    exact .inr (.inr ⟨_, mem, .inl ⟨embedded, inside⟩⟩)
  | referred declared _ holds mem referenceable identifies =>
    obtain ⟨rfl, rfl, rfl⟩ := hsame hpath declared holds
    exact .inr (.inr ⟨_, mem, .inr ⟨referenceable, identifies⟩⟩)

/-- A selector that keeps more selects more. -/
theorem Selected.mono (h : g.Selected d s r path) (hle : ∀ path, s.Keeps path → t.Keeps path) :
    g.Selected d t r path := by
  induction h generalizing t with
  | here declared selects holds => exact .here declared (hle [_] selects) holds
  | whole declared selects holds plain => exact .whole declared (hle [_] selects) holds plain
  | within declared selects holds mem embedded _ ih =>
    exact .within declared (hle [_] selects) holds mem embedded (ih fun path => hle (_ :: path))
  | referred declared selects holds mem referenceable identifies =>
    exact .referred declared (hle [_] selects) holds mem referenceable identifies

/-- A selector selects what it keeps of the attributes that it comes to. -/
theorem Below.selected (h : g.Below d r path q) {a : Attribute} (ha : a ∈ d.attributes q.cls) {v : Value}
    (hv : g.value? q a.name = some v) (hs : s.Keeps (path ++ [a.name])) :
    g.Selected d s r (path ++ [a.name]) := by
  induction h generalizing s with
  | self => exact .here ha hs hv
  | @within r q inner a' v' path declared holds mem embedded _ ih =>
    have hselects : s.Selects a'.name := by
      exact Selector.Keeps.isNone (s := s.get a'.name) hs
    exact .within declared hselects holds mem embedded (ih ha hv hs)

/-! ### Marks -/

theorem markResolving_unmark (h : g.isResolving r = false) :
    (g.markResolving r true).markResolving r false = g := by
  have hcells : ((g.markResolving r true).markResolving r false).cells = g.cells := by
    refine Array.ext_getElem? fun i => ?_
    simp only [markResolving, modify, Array.getElem?_modify]
    split
    · next heq =>
      subst heq
      cases hcell : g.cells[r.serial]? with
      | none => rfl
      | some cell =>
        rw [isResolving, cell?, hcell] at h
        simp only [Option.any_some] at h
        simp [← h]
    · rfl
  simp only [markResolving, modify] at hcells ⊢
  rw [hcells]

end Graph

/-! ### Narrowing that leaves the graph alone -/

section

variable {onRecord : RecordRef → Selector → Action Selector} {s t : Selector} {g g' : Graph}

/-- The records that an accepted value holds are those that narrowing enters. -/
theorem ValueType.enters_of_check {site : Site} {t : ValueType} (ht : t.recordClass? ≠ none) {v : Value}
    (h : t.check site v = .ok ()) {r : RecordRef} (hr : r ∈ v.records) : t.Enters v r := by
  induction t generalizing v with
  | scalar kind traits => exact absurd rfl ht
  | array item traits ih =>
    cases v with
    | array items =>
      obtain ⟨w, hw, hr⟩ := Value.mem_records_array.1 hr
      exact .item hw (ih ht (forM_eq_ok h hw) hr)
    | undefined => cases hr
    | _ => cases h
  | reference name toClass traits =>
    cases toClass with
    | true => exact absurd rfl ht
    | false =>
      cases v with
      | record r' =>
        obtain rfl := List.mem_singleton.1 hr
        exact .reference
      | undefined => cases hr
      | _ => cases h

/-- No record at or below one that a record embeds is that record itself. -/
theorem Graph.Hierarchy.idle_below {d : Directory} {known : Set RecordRef} {r q : RecordRef} {g₀ : Graph}
    (hg₀ : g₀.Hierarchy d known) (hr : r ∈ known) (hembeds : g₀.Embeds d r q)
    (hidle : ∀ q, Relation.ReflTransGen (g₀.Embeds d) r q → g.isResolving q = false) (q' : RecordRef)
    (hq' : Relation.ReflTransGen (g₀.Embeds d) q q') :
    (g.markResolving r true).isResolving q' = false := by
  rw [isResolving_markResolving, if_neg]
  · exact hidle q' (.head hembeds hq')
  · intro hserial
    have hknown := mem_of_embeds hg₀.accepting.sound (hg₀.accepting.sound.nests hr hembeds.1) hq'
    obtain rfl := hg₀.accepting.sound.alone r hr q' hknown hserial
    exact hg₀.acyclic r hr (.head' hembeds hq')

/-- Narrowing enters all records of an attribute that refers to records. -/
theorem Graph.Hierarchy.enters {d : Directory} {known : Set RecordRef} {r q : RecordRef}
    (hg : g.Hierarchy d known) (hd : d.Lawful) (hr : r ∈ known) {a : Attribute}
    (ha : a ∈ d.attributes r.cls) {v : Value} (hv : g.value? r a.name = some v)
    (hrefers : a.type.recordClass? ≠ none) (hq : q ∈ v.records) : a.type.Enters v q := by
  obtain ⟨source, hslot⟩ := value?_eq_some_iff.1 hv
  rcases hg.accepting.slots r hr _ _ hslot a ((hd.definition r.cls).attribute?_of_mem ha)
    with rfl | hcheck
  · cases hq
  · exact ValueType.enters_of_check hrefers hcheck hq

theorem narrow_stays {t : ValueType} {v : Option Value}
    (hinner : ∀ w, v = some w → ∀ q, t.Enters w q → ∀ u g', onRecord q s g = (.ok u, g') → g' = g)
    {u : Selector} (h : t.narrow Selector.merge onRecord s v g = (.ok u, g')) : g' = g := by
  cases hs : s.isNone with
  | true =>
    unfold ValueType.narrow at h
    simp only [hs, if_true] at h
    cases h
    rfl
  | false =>
  induction t generalizing v u g' with
  | scalar kind traits =>
    simp only [ValueType.narrow, hs] at h
    cases h
    rfl
  | array item traits ih =>
    simp only [ValueType.narrow, hs, Bool.false_eq_true, if_false] at h
    split at h
    · next first rest =>
      obtain ⟨acc, g₁, hfirst, hrest⟩ := Stateful.bind_eq_ok h
      have hitem : ∀ w ∈ first :: rest, ∀ u g',
          item.narrow Selector.merge onRecord s (some w) g = (.ok u, g') → g' = g := by
        refine fun w hw u g' hrun => ih (fun x hx q hq => ?_) hrun
        cases hx
        exact hinner _ rfl q (.item hw hq)
      refine Stateful.foldlM_invariant (P := fun _ g' => g' = g) ?_
        (hitem first List.mem_cons_self _ _ hfirst) hrest
      rintro w hw acc _ acc' g' rfl hstep
      obtain ⟨u, g₂, hu, hpure⟩ := Stateful.bind_eq_ok hstep
      cases hpure
      exact hitem w (List.mem_cons_of_mem _ hw) _ _ hu
    · exact ih (fun w hw => by cases hw) h
  | reference name toClass traits =>
    cases toClass with
    | true =>
      simp only [ValueType.narrow, hs] at h
      cases h
      rfl
    | false =>
      simp only [ValueType.narrow, hs, Bool.false_eq_true, if_false] at h
      split at h
      · exact hinner _ rfl _ .reference _ _ h
      · cases h
        rfl

/-- A selector that was gathered from what records answer: it keeps what one of them keeps, and nothing
else but what was asked of each. -/
structure Gathers (onRecord : RecordRef → Selector → Action Selector) (g : Graph) (s : Selector)
    (entered : RecordRef → Prop) (t : Selector) : Prop where
  wellFormed : t.WellFormed
  keeps : ∀ q, entered q → ∃ u, onRecord q s g = (.ok u, g) ∧ ∀ path, u.Keeps path → t.Keeps path
  kept : ∀ path, t.Keeps path → s.Keeps path ∨
    ∃ q u, entered q ∧ onRecord q s g = (.ok u, g) ∧ u.Keeps path

namespace Gathers

variable {E E' : RecordRef → Prop} {t' : Selector}

theorem congr (h : Gathers onRecord g s E t) (hE : ∀ q, E q ↔ E' q) : Gathers onRecord g s E' t :=
  (funext fun q => propext (hE q) : E = E') ▸ h

theorem normalize (hs : s.WellFormed) (hE : ∀ q, ¬E q) : Gathers onRecord g s E s.normalize where
  wellFormed := hs.normalize
  keeps q hq := absurd hq (hE q)
  kept _ h := .inl ((Selector.keeps_normalize hs).1 h)

theorem merge (h : Gathers onRecord g s E t) (h' : Gathers onRecord g s E' t') :
    Gathers onRecord g s (fun q => E q ∨ E' q) (t.merge t') where
  wellFormed := h.wellFormed.merge h'.wellFormed
  keeps q hq := by
    rcases hq with hq | hq
    · obtain ⟨u, hu, hle⟩ := h.keeps q hq
      exact ⟨u, hu, fun path hp => (Selector.keeps_merge h.wellFormed h'.wellFormed).2 (.inl (hle path hp))⟩
    · obtain ⟨u, hu, hle⟩ := h'.keeps q hq
      exact ⟨u, hu, fun path hp => (Selector.keeps_merge h.wellFormed h'.wellFormed).2 (.inr (hle path hp))⟩
  kept path hpath := by
    rcases (Selector.keeps_merge h.wellFormed h'.wellFormed).1 hpath with hp | hp
    · exact (h.kept path hp).imp_right fun ⟨q, u, hq, hu⟩ => ⟨q, u, .inl hq, hu⟩
    · exact (h'.kept path hp).imp_right fun ⟨q, u, hq, hu⟩ => ⟨q, u, .inr hq, hu⟩

theorem foldlM {resolve : Value → Action Selector} {enters : Value → RecordRef → Prop}
    {items : List Value} (hitem : ∀ w ∈ items, ∀ u g', resolve w g = (.ok u, g') →
      g' = g ∧ Gathers onRecord g s (enters w) u) (h : Gathers onRecord g s E t)
    (hrun : (items.foldlM (fun acc w => do pure (acc.merge (← resolve w))) t : Action Selector) g =
      (.ok t', g')) :
    Gathers onRecord g s (fun q => E q ∨ ∃ w ∈ items, enters w q) t' := by
  induction items generalizing E t with
  | nil =>
    cases hrun
    exact h.congr (by simp)
  | cons w rest ih =>
    obtain ⟨hw, hrest⟩ := List.forall_mem_cons.1 hitem
    rw [List.foldlM_cons] at hrun
    obtain ⟨_, g₁, hstep, hlater⟩ := Stateful.bind_eq_ok hrun
    obtain ⟨u, g₂, hu, hpure⟩ := Stateful.bind_eq_ok hstep
    cases hpure
    obtain ⟨rfl, hgathers⟩ := hw u _ hu
    exact (ih hrest (h.merge hgathers) hlater).congr (by simp [or_assoc])

end Gathers

/-- What refers to records is narrowed to what its records answer. -/
theorem narrow_gathers (hwell : ∀ r s g u g', s.WellFormed → onRecord r s g = (.ok u, g') → u.WellFormed)
    (hs : s.WellFormed) (hsome : s.isNone = false) {t : ValueType} (ht : t.recordClass? ≠ none)
    {v : Option Value} (hinner : ∀ w, v = some w → ∀ q, t.Enters w q → ∀ u g',
      onRecord q s g = (.ok u, g') → g' = g)
    {u : Selector} (h : t.narrow Selector.merge onRecord s v g = (.ok u, g')) :
    Gathers onRecord g s (fun q => ∃ w, v = some w ∧ t.Enters w q) u := by
  induction t generalizing v u g' with
  | scalar kind traits => exact absurd rfl ht
  | array item traits ih =>
    simp only [ValueType.narrow, hsome, Bool.false_eq_true, if_false] at h
    split at h
    · next first rest =>
      obtain ⟨acc, g₁, hfirst, hrest⟩ := Stateful.bind_eq_ok h
      have hitem : ∀ w ∈ first :: rest, ∀ u g',
          item.narrow Selector.merge onRecord s (some w) g = (.ok u, g') →
          g' = g ∧ Gathers onRecord g s (item.Enters w) u := by
        intro w hw u g' hrun
        have hentered : ∀ x, some w = some x → ∀ q, item.Enters x q → ∀ u g',
            onRecord q s g = (.ok u, g') → g' = g := by
          rintro _ ⟨⟩ q hq
          exact hinner _ rfl q (.item hw hq)
        exact ⟨narrow_stays hentered hrun, (ih ht hentered hrun).congr (by simp)⟩
      obtain ⟨rfl, hgathers⟩ := hitem first List.mem_cons_self _ _ hfirst
      have hall := Gathers.foldlM (fun w hw => hitem w (List.mem_cons_of_mem _ hw)) hgathers hrest
      exact hall.congr (by simp [ValueType.enters_array_iff])
    · next hother =>
      have hnone : ∀ q, ¬∃ w, v = some w ∧ (ValueType.array item traits).Enters w q := by
        rintro q ⟨w, rfl, hq⟩
        obtain ⟨items, rfl, w, hw, -⟩ := ValueType.enters_array_iff.1 hq
        cases items with
        | nil => cases hw
        | cons first rest => exact hother first rest rfl
      have hempty := ih ht (fun w hw => by cases hw) h
      exact hempty.congr fun q => iff_of_false (by simp) (hnone q)
  | reference name toClass traits =>
    cases toClass with
    | true => exact absurd rfl ht
    | false =>
      simp only [ValueType.narrow, hsome, Bool.false_eq_true, if_false] at h
      split at h
      · next r =>
        obtain rfl := hinner _ rfl r .reference _ _ h
        refine ⟨hwell _ _ _ _ _ hs h, ?_, fun path hp => .inr ⟨r, u, ⟨_, rfl, .reference⟩, h, hp⟩⟩
        rintro q ⟨_, ⟨⟩, hq⟩
        cases hq
        exact ⟨u, h, fun _ hp => hp⟩
      · next hother =>
        cases h
        refine .normalize hs ?_
        rintro q ⟨w, rfl, hq⟩
        cases hq
        exact hother q rfl

end

namespace Record

variable {d : Directory} {how : Narrowing} {g₀ g g' : Graph} {known : Set RecordRef} {r : RecordRef}
  {s t : Selector} {steps : Nat}

theorem narrowAttribute_made {onRecord : RecordRef → Selector → Action Selector} (hr : r.base? = none)
    {acc acc' : Selector} {a : Attribute}
    (h : narrowAttribute how onRecord r s acc a g = (.ok acc', g')) :
    acc' = acc ∧ g' = g ∨ s.Selects a.name ∧
      (how.setOnly = true → (g.value? r a.name).isSome = true) ∧
      ∃ u, a.type.narrow how.aggregation.combine onRecord (s.get a.name) (g.value? r a.name) g =
        (.ok u, g') ∧ acc' = acc.set a.name u := by
  simp only [narrowAttribute] at h
  split at h
  · cases h
    exact .inl ⟨rfl, rfl⟩
  · next hselects =>
    rw [Stateful.bind_of_ok (lift_value?_made hr a.name g)] at h
    split at h
    · cases h
      exact .inl ⟨rfl, rfl⟩
    · next hpresent =>
      obtain ⟨u, g₁, hu, hpure⟩ := Stateful.bind_eq_ok h
      cases hpure
      refine .inr ⟨Bool.eq_false_iff.2 hselects, fun hset => ?_, u, hu, rfl⟩
      simpa [hset, Option.isSome_iff_ne_none] using hpresent

theorem resolveWithin_of_resolving (hs : s.isNone = false) (hmarked : g.isResolving r = true)
    (h : resolveWithin d how (steps + 1) r s g = (.ok t, g')) : g' = g := by
  simp only [resolveWithin, Selector.isNone_normalize, hs, Bool.false_eq_true, if_false] at h
  obtain ⟨_, _, hget, hrest⟩ := Stateful.bind_eq_ok h
  cases hget
  rw [if_pos hmarked] at hrest
  cases hrest
  rfl

/-- Resolving that gives a result leaves the graph as it was, where no record is a fork. -/
theorem resolveWithin_stays (hunion : how.aggregation = .union) (hg : g.Sound known)
    (hmade : ∀ r ∈ known, r.base? = none) (hr : r ∈ known)
    (h : resolveWithin d how steps r s g = (.ok t, g')) : g' = g := by
  induction steps generalizing r s t g g' with
  | zero => cases h
  | succ steps ih =>
    cases hs : s.isNone with
    | true =>
      simp only [resolveWithin, Selector.isNone_normalize, hs, if_true] at h
      cases h
      rfl
    | false =>
      by_cases hmarked : g.isResolving r = true
      · exact resolveWithin_of_resolving hs hmarked h
      rcases resolveWithin_eq_ok hs h with ⟨hresolving, -⟩ | ⟨g₁, hfold, rfl⟩
      · exact absurd hresolving hmarked
      have hsound := hg.markResolving r true
      have hstays : g₁ = g.markResolving r true := by
        refine Stateful.foldlM_invariant (P := fun _ g₁ => g₁ = g.markResolving r true) ?_ rfl hfold
        rintro a - acc _ acc' g₂ rfl hstep
        rcases narrowAttribute_made (hmade r hr) hstep with ⟨-, rfl⟩ | ⟨-, -, u, hu, -⟩
        · rfl
        · rw [hunion] at hu
          refine narrow_stays (fun w hw q hq u g₃ hrun => ?_) hu
          have hq : q ∈ known := hsound.value hr hw q hq.mem
          unfold resolveInner at hrun
          split at hrun
          · cases hrun
            rfl
          · exact ih hsound hq hrun
      rw [hstays]
      exact Graph.markResolving_unmark (Bool.eq_false_iff.2 hmarked)

theorem resolveInner_stays (hunion : how.aggregation = .union) (hg : g.Sound known)
    (hmade : ∀ r ∈ known, r.base? = none) (hr : r ∈ known)
    (h : resolveInner d how steps r s g = (.ok t, g')) : g' = g := by
  unfold resolveInner at h
  split at h
  · cases h
    rfl
  · exact resolveWithin_stays hunion hg hmade hr h

/-- What a resolved selector selects something of is set, was selected before, and was narrowed. -/
theorem resolveWithin_narrowed (hunion : how.aggregation = .union) (hset : how.setOnly = true)
    (hg : g.Sound known) (hmade : ∀ r ∈ known, r.base? = none) (hr : r ∈ known)
    (hidle : g.isResolving r = false) (hs : s.isNone = false)
    (h : resolveWithin d how (steps + 1) r s g = (.ok t, g')) {name : String} (hname : t.Selects name) :
    ∃ a ∈ d.attributes r.cls, a.name = name ∧ s.normalize.Selects name ∧ ∃ v u,
      g.value? r name = some v ∧
      a.type.narrow Selector.merge (resolveInner d how steps) (s.normalize.get name) (some v)
        (g.markResolving r true) = (.ok u, g.markResolving r true) ∧
      t.get name = u.normalize := by
  rcases resolveWithin_eq_ok hs h with ⟨hresolving, -⟩ | ⟨g₁, hfold, -⟩
  · rw [hidle] at hresolving
    cases hresolving
  let P : Selector → Graph → Prop := fun acc g₁ => g₁ = g.markResolving r true ∧
    (∃ fields, acc = .only fields) ∧ ∀ name, acc.Selects name → ∃ a ∈ d.attributes r.cls,
      a.name = name ∧ s.normalize.Selects name ∧ ∃ v u, g.value? r name = some v ∧
      a.type.narrow Selector.merge (resolveInner d how steps) (s.normalize.get name) (some v)
        (g.markResolving r true) = (.ok u, g.markResolving r true) ∧
      acc.get name = u.normalize
  refine (Stateful.foldlM_invariant (P := P) ?_ ⟨rfl, ⟨[], rfl⟩, fun _ h => by cases h⟩ hfold).2.2 name
    hname
  rintro a ha _ _ acc' g₂ ⟨rfl, ⟨fields, rfl⟩, hlisted⟩ hstep
  rcases narrowAttribute_made (hmade r hr) hstep with ⟨rfl, rfl⟩ | ⟨hselects, hpresent, u, hu, rfl⟩
  · exact ⟨rfl, ⟨fields, rfl⟩, hlisted⟩
  obtain ⟨v, hv⟩ := Option.isSome_iff_exists.1 (hpresent hset)
  rw [hunion, hv] at hu
  rw [Graph.value?_congr (Graph.own?_markResolving g r true r a.name)] at hv
  obtain rfl : g₂ = g.markResolving r true := by
    refine narrow_stays (fun w hw q hq u g₃ hrun => ?_) hu
    cases hw
    exact resolveInner_stays hunion (hg.markResolving r true) hmade (hg.value hr hv q hq.mem) hrun
  have hnone : u.isNone = false := narrow_isNone (fun _ _ _ _ _ => resolveInner_isNone) hselects hu
  refine ⟨rfl, ⟨_, Selector.set_only hnone⟩, fun name hname => ?_⟩
  by_cases heq : name = a.name
  · subst heq
    exact ⟨a, ha, rfl, hselects, v, u, hv, hu, Selector.get_set_self hnone⟩
  · rw [Selector.Selects, Selector.get_set_of_ne hnone heq] at hname
    rw [Selector.get_set_of_ne hnone heq]
    exact hlisted name hname

/-! ### What is kept -/

/-- The resolved selector keeps what is selected, and nothing else but what was asked for. -/
structure Resolved (d : Directory) (g : Graph) (s : Selector) (r : RecordRef) (t : Selector) : Prop where
  keeps : ∀ path, g.Selected d s r path → t.Keeps path
  kept : ∀ path, t.Keeps path → g.Selected d s r path ∨ s.Keeps path

/-- Of the attributes that are come to, a resolved selector keeps those that are selected. -/
theorem Resolved.keeps_iff (h : Resolved d g s r t) {path : List String} {q : RecordRef}
    (hbelow : g.Below d r path q) {a : Attribute} (ha : a ∈ d.attributes q.cls) {v : Value}
    (hv : g.value? q a.name = some v) :
    t.Keeps (path ++ [a.name]) ↔ g.Selected d s r (path ++ [a.name]) :=
  ⟨fun hkeeps => (h.kept _ hkeeps).elim id (hbelow.selected ha hv), h.keeps _⟩

/-- What selects nothing is resolved as it is. -/
theorem resolved_normalize (hs : s.WellFormed) (hnone : s.isNone = true) :
    Resolved d g s r s.normalize where
  keeps path hselected := by
    obtain ⟨a, -, v, rest, -, hselects, -⟩ := hselected.head
    rw [Selector.Selects, Selector.isNone_get hnone] at hselects
    cases hselects
  kept path hkeeps := .inr ((Selector.keeps_normalize hs).1 hkeeps)

/-- A record answers its identifiers where it is stored as a reference. -/
def Answered (d : Directory) (g : Graph) (s : Selector) (q : RecordRef) (w : Selector) : Prop :=
  if (d.definition q.cls).referenceable then w = (d.definition q.cls).identifierSelector
  else Resolved d g s q w

theorem resolveInner_answered (hrefs : how.includeReferenced = false) {q : RecordRef} {w : Selector}
    (hwithin : (d.definition q.cls).referenceable = false →
      resolveWithin d how steps q s g = (.ok w, g') → Resolved d g₀ s q w)
    (h : resolveInner d how steps q s g = (.ok w, g')) : Answered d g₀ s q w := by
  unfold resolveInner at h
  unfold Answered
  cases hembedded : (d.definition q.cls).referenceable with
  | true =>
    rw [if_pos (by simp [hrefs, hembedded])] at h
    cases h
    rfl
  | false =>
    rw [if_neg (by simp [hembedded])] at h
    exact hwithin hembedded h

/-- What an attribute is narrowed to keeps what is selected below it, and nothing else but what was asked
for, if that is so for the records that it holds. -/
theorem narrow_resolved (hd : d.Lawful) (hunion : how.aggregation = .union) {a : Attribute}
    (ha : a ∈ d.attributes r.cls) (hs : s.WellFormed) (hselects : s.Selects a.name) {v : Value}
    (hv : g₀.value? r a.name = some v)
    (hshape : a.type.recordClass? ≠ none → ∀ q ∈ v.records, a.type.Enters v q)
    (hinner : ∀ q ∈ v.records, ∀ w g', resolveInner d how steps q (s.get a.name) g = (.ok w, g') →
      g' = g ∧ Answered d g₀ (s.get a.name) q w)
    {u : Selector} (h : a.type.narrow Selector.merge (resolveInner d how steps) (s.get a.name) (some v) g =
      (.ok u, g)) (rest : List String) :
    (g₀.Selected d s r (a.name :: rest) → u.Keeps rest) ∧
      (u.Keeps rest → g₀.Selected d s r (a.name :: rest) ∨ s.Keeps (a.name :: rest)) := by
  cases hplain : a.type.recordClass? with
  | none =>
    rw [narrow_of_recordClass?_none hplain hselects h]
    exact ⟨fun _ => Selector.keeps_all rest, fun _ => .inl (.whole ha hselects hv hplain)⟩
  | some name =>
    have hrefers : a.type.recordClass? ≠ none := by simp [hplain]
    have hgathers := narrow_gathers
      (resolveInner_wellFormed fun _ _ _ _ _ hs h => resolveWithin_wellFormed hunion hs h)
      (hs.get a.name) hselects hrefers
      (fun w hw q hq u g' hrun => (hinner q (by cases hw; exact hq.mem) u g' hrun).1) h
    constructor
    · intro hselected
      rcases hselected.of_attribute hd ha hv with rfl | hnone | ⟨q, hq, hinside⟩
      · exact narrow_isNone (fun _ _ _ _ _ => resolveInner_isNone) hselects h
      · exact absurd hnone hrefers
      · obtain ⟨w, hrun, hle⟩ := hgathers.keeps q ⟨v, rfl, hshape hrefers q hq⟩
        have hanswered := (hinner q hq w g hrun).2
        refine hle rest ?_
        rcases hinside with ⟨hembedded, hselected⟩ | ⟨hreferenceable, hidentifies⟩
        · rw [Answered, if_neg (by simp [hembedded])] at hanswered
          exact hanswered.keeps rest hselected
        · rw [Answered, if_pos hreferenceable] at hanswered
          exact hanswered ▸ hidentifies
    · intro hkeeps
      rcases hgathers.kept rest hkeeps with hkept | ⟨q, w, ⟨_, ⟨⟩, hq⟩, hrun, hw⟩
      · exact .inr hkept
      have hanswered := (hinner q hq.mem w g hrun).2
      unfold Answered at hanswered
      split at hanswered
      · next hreferenceable =>
        subst hanswered
        exact .inl (.referred ha hselects hv hq.mem hreferenceable hw)
      · next hembedded =>
        exact (hanswered.kept rest hw).imp_left
          (.within ha hselects hv hq.mem (Bool.eq_false_iff.2 hembedded))

/-- Of records that are no forks and not within themselves, a resolved selector keeps what is selected, and
nothing else but what was asked for. -/
theorem resolveWithin_resolved (hd : d.Lawful) (hunion : how.aggregation = .union)
    (hset : how.setOnly = true) (hrefs : how.includeReferenced = false) (hg₀ : g₀.Hierarchy d known)
    (hr : r ∈ known) (hs : s.WellFormed) (hsize : g.cells.size = g₀.cells.size)
    (hsame : ∀ q name, g.own? q name = g₀.own? q name)
    (hidle : ∀ q, Relation.ReflTransGen (g₀.Embeds d) r q → g.isResolving q = false)
    (h : resolveWithin d how steps r s g = (.ok t, g')) : Resolved d g₀ s r t := by
  induction steps generalizing r s t g g' with
  | zero => cases h
  | succ steps ih =>
    cases hsome : s.isNone with
    | true =>
      simp only [resolveWithin, Selector.isNone_normalize, hsome, if_true] at h
      cases h
      exact resolved_normalize hs hsome
    | false =>
    have hsound : g.Sound known := hg₀.accepting.sound.of_own?_eq (Nat.le_of_eq hsize.symm) hsame
    have hnarrowed := fun name (hname : t.Selects name) => resolveWithin_narrowed hunion hset hsound
      hg₀.made hr (hidle r .refl) hsome h hname
    have hmarked : (g.markResolving r true).cells.size = g₀.cells.size :=
      (Graph.size_modify g r _).trans hsize
    have hinner : ∀ a ∈ d.attributes r.cls, ∀ v, g₀.value? r a.name = some v → ∀ q ∈ v.records, ∀ w g',
        resolveInner d how steps q (s.normalize.get a.name) (g.markResolving r true) = (.ok w, g') →
          g' = g.markResolving r true ∧ Answered d g₀ (s.normalize.get a.name) q w := by
      intro a ha v hv q hq w g' hrun
      have hknown : q ∈ known := hg₀.accepting.sound.value hr hv q hq
      refine ⟨resolveInner_stays hunion (hsound.markResolving r true) hg₀.made hknown hrun,
        resolveInner_answered hrefs (fun hembedded => ?_) hrun⟩
      exact ih hknown (hs.normalize.get a.name) hmarked
        (fun q' name => (Graph.own?_markResolving g r true q' name).trans (hsame q' name))
        (hg₀.idle_below hr (Graph.embeds_of_mem ha hv hq hembedded) hidle)
    have hanswers : ∀ a ∈ d.attributes r.cls, s.normalize.Selects a.name → ∀ v,
        g₀.value? r a.name = some v → ∀ u, a.type.narrow Selector.merge (resolveInner d how steps)
          (s.normalize.get a.name) (some v) (g.markResolving r true) = (.ok u, g.markResolving r true) →
        t.get a.name = u.normalize → ∀ rest,
          (g₀.Selected d s.normalize r (a.name :: rest) → t.Keeps (a.name :: rest)) ∧
          (t.Keeps (a.name :: rest) → g₀.Selected d s.normalize r (a.name :: rest) ∨
            s.normalize.Keeps (a.name :: rest)) := by
      intro a ha hselects v hv u hu hget rest
      have hwell : u.WellFormed := narrow_wellFormed
        (resolveInner_wellFormed fun _ _ _ _ _ hs h => resolveWithin_wellFormed hunion hs h)
        (hs.normalize.get a.name) hu
      rw [Selector.keeps_cons, hget, Selector.keeps_normalize hwell]
      exact narrow_resolved hd hunion ha hs.normalize hselects hv
        (fun hrefers _ => hg₀.enters hd hr ha hv hrefers) (hinner a ha v hv) hu rest
    refine ⟨fun path hselected => ?_, fun path hkeeps => ?_⟩
    · obtain ⟨a, ha, v, rest, rfl, hselects, hv⟩ := hselected.head
      obtain ⟨⟨value, source⟩, hslot⟩ : ∃ slot, g.own? r a.name = some (some slot) := by
        obtain ⟨source, hslot⟩ := Graph.value?_eq_some_iff.1 hv
        exact ⟨_, (hsame r a.name).trans hslot⟩
      have hkept := resolveWithin_selects hunion (hg₀.made r hr) ha hselects hslot h
      obtain ⟨b, hb, hname, -, w, u, hw, hu, hget⟩ := hnarrowed a.name hkept
      obtain rfl := List.inj_on_of_nodup_map (hd.definition r.cls).names_nodup hb ha hname
      rw [Graph.value?_congr (hsame r b.name)] at hw
      exact (hanswers b hb hselects.normalize w hw u hu hget rest).1
        (hselected.mono fun _ => (Selector.keeps_normalize hs).2)
    · cases path with
      | nil => exact .inr hsome
      | cons name rest =>
        obtain ⟨a, ha, rfl, hselects, v, u, hv, hu, hget⟩ :=
          hnarrowed name (Selector.Keeps.isNone (s := t.get name) hkeeps)
        rw [Graph.value?_congr (hsame r a.name)] at hv
        exact ((hanswers a ha hselects v hv u hu hget rest).2 hkeeps).imp
          (fun hselected => hselected.mono fun _ => (Selector.keeps_normalize hs).1)
          (Selector.keeps_normalize hs).1

end Record

end TypedRecords
