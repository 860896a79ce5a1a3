import TypedRecords.Proofs.Record.Narrowed
import TypedRecords.Proofs.Record.Serialized
import TypedRecords.Proofs.Selector.Sieving

/-! # Resolved selectors are settled

Among records that are no forks, the values that can be reached from a record make up a sieve, and the
selector that is resolved keeps the paths that pass it. What is resolved a second time is therefore
what was resolved the first time.
-/

namespace TypedRecords

open Selector (Sieved kept)

/-! ### Sieves of values -/

namespace ValueType

/-- What a type lets pass at a value, if there is one. -/
def sieve (inner : RecordRef → Sieve) : ValueType → Option Value → Sieve
  | .array item _, v =>
    match v with
    | some (.array (first :: rest)) =>
      rest.foldl (fun T v => .both T (item.sieve inner (some v))) (item.sieve inner (some first))
    | _ => item.sieve inner none
  | .reference _ false _, v =>
    match v with
    | some (.record r) => inner r
    | _ => .through
  | _, _ => .whole

end ValueType

namespace Record

variable (d : Directory) (how : Narrowing)

/-- What an attribute lets pass at its value, if it is set. -/
def attributeSieve (inner : RecordRef → Sieve) (a : Attribute) (v : Option Value) : Sieve :=
  if how.setOnly && v.isNone then .closed else a.type.sieve inner v

/-- What a record within another lets pass. -/
def innerSieve (inner : RecordRef → Sieve) (r : RecordRef) : Sieve :=
  if !how.includeReferenced && (d.definition r.cls).referenceable then
    .listed {name | (d.definition r.cls).identifierSelector.Selects name}
  else inner r

/-- What a record lets pass once it has been entered. -/
def recordSieve (inner : RecordRef → Sieve) (g : Graph) (r : RecordRef) : Sieve :=
  .record fun name =>
    match (d.attributes r.cls).find? fun a => a.name == name with
    | none => .closed
    | some a => attributeSieve how inner a (g.value? r a.name)

/-- What a record lets pass in a graph where no more than so many records can still be entered. -/
def sieve : Nat → Graph → RecordRef → Sieve
  | 0, _, _ => .through
  | n + 1, g, r =>
    if g.isResolving r then .through
    else
      let g := g.markResolving r true
      recordSieve d how (innerSieve d how (sieve n g)) g r

end Record

/-! ### Against a value -/

/-- A computation that leaves the graph as it is and sieves a selector, if it gives a result. -/
def Sieves (g : Graph) (how : Aggregation) (T : Sieve) (s : Selector) (x : Action Selector) : Prop :=
  ∀ t g', x g = (.ok t, g') → g' = g ∧ Sieved how T s t

variable {d : Directory} {g : Graph} {known : Set RecordRef} {r : RecordRef} {s : Selector}
  {onRecord : RecordRef → Selector → Action Selector} {inner : RecordRef → Sieve}

section

variable {how : Aggregation} {T : Sieve}

theorem Sieves.pure {t : Selector} (h : Sieved how T s t) : Sieves g how T s (Pure.pure t) := by
  intro u g' hrun
  cases hrun
  exact ⟨rfl, h⟩

theorem foldlM_sieves {resolve : Value → Action Selector} {part : Value → Sieve} {rest : List Value}
    (h : ∀ v ∈ rest, Sieves g how (part v) s (resolve v)) {acc : Selector} (hacc : Sieved how T s acc) :
    Sieves g how (rest.foldl (fun T v => .both T (part v)) T) s
      (rest.foldlM (fun acc v => do pure (how.combine acc (← resolve v))) acc) := by
  induction rest generalizing acc T with
  | nil => exact .pure hacc
  | cons v rest ih =>
    obtain ⟨hv, hrest⟩ := List.forall_mem_cons.1 h
    intro t g' hrun
    rw [List.foldlM_cons] at hrun
    obtain ⟨acc', g₁, hstep, hloop⟩ := Stateful.bind_eq_ok hrun
    obtain ⟨u, g₂, hresolve, hpure⟩ := Stateful.bind_eq_ok hstep
    cases hpure
    obtain ⟨rfl, hu⟩ := hv u g₁ hresolve
    exact ih hrest (hacc.both hu) t g' hloop

namespace ValueType

theorem combineItems_sieves {resolve : Value → Action Selector} {part : Value → Sieve} {first : Value}
    {rest : List Value} (h : ∀ v ∈ first :: rest, Sieves g how (part v) s (resolve v)) :
    Sieves g how (rest.foldl (fun T v => .both T (part v)) (part first)) s
      (combineItems how.combine resolve first rest) := by
  obtain ⟨hfirst, hrest⟩ := List.forall_mem_cons.1 h
  intro t g' hrun
  obtain ⟨acc, g₁, hresolve, hloop⟩ := Stateful.bind_eq_ok hrun
  obtain ⟨rfl, hacc⟩ := hfirst acc g₁ hresolve
  exact foldlM_sieves hrest hacc t g' hloop

/-- Narrowing against a value sieves if it does so at the records in it. -/
theorem narrow_sieves (hs : s.WellFormed) (t : ValueType) {v : Option Value}
    (h : ∀ w, v = some w → ∀ q ∈ w.records, s.isNone = false →
      Sieves g how (inner q) s (onRecord q s)) :
    Sieves g how (t.sieve inner v) s (t.narrow how.combine onRecord s v) := by
  cases hsome : s.isNone with
  | true =>
    have hnarrow : t.narrow how.combine onRecord s v = Pure.pure .none := by
      unfold narrow
      exact if_pos hsome
    rw [hnarrow]
    exact .pure (Selector.sieved_none hsome)
  | false =>
    induction t generalizing v with
    | scalar kind traits =>
      simp only [narrow, sieve, hsome, Bool.false_eq_true, if_false]
      exact .pure (Selector.sieved_whole hsome)
    | reference name toClass traits =>
      cases toClass with
      | true =>
        simp only [narrow, sieve, hsome, Bool.false_eq_true, if_false]
        exact .pure (Selector.sieved_whole hsome)
      | false =>
        simp only [narrow, sieve, hsome, Bool.false_eq_true, if_false]
        cases v with
        | none => exact .pure (Selector.sieved_through hs)
        | some w =>
          cases w with
          | record q => exact h _ rfl q (List.mem_singleton.2 rfl) hsome
          | _ => exact .pure (Selector.sieved_through hs)
    | array item traits ih =>
      simp only [narrow, sieve, hsome, Bool.false_eq_true, if_false]
      have hnone := ih (v := none) fun w hw => by cases hw
      cases v with
      | none => exact hnone
      | some w =>
        cases w with
        | array items =>
          cases items with
          | nil => exact hnone
          | cons first rest =>
            apply combineItems_sieves
            intro w hw
            apply ih
            intro w' heq q hq
            cases heq
            exact h _ rfl q (Value.mem_records_array.2 ⟨w, hw, hq⟩)
        | _ => exact hnone

end ValueType

end

namespace Record

variable {how : Narrowing}

/-- A list of names in normal form. -/
structure Listing (s : Selector) : Prop where
  only : ∃ fields, s = .only fields
  wellFormed : s.WellFormed
  normal : s.IsNormal

theorem Listing.set {acc : Selector} (h : Listing acc) {t : Selector} (ht : t.WellFormed)
    (name : String) : Listing (acc.set name t) := by
  refine ⟨?_, h.wellFormed.set ht name, h.normal.set name t⟩
  obtain ⟨fields, rfl⟩ := h.only
  cases hnone : t.isNone with
  | true => exact ⟨Fields.erase name fields, if_pos hnone⟩
  | false => exact ⟨_, Selector.set_only hnone⟩

/-- Once an attribute has been narrowed, what passes for it is listed besides what was. -/
theorem narrowAttribute_sieves (hmade : r.base? = none) (hs : s.WellFormed) {a : Attribute}
    (h : ∀ w, g.value? r a.name = some w → ∀ q ∈ w.records, ∀ s : Selector, s.WellFormed →
      s.isNone = false → Sieves g how.aggregation (inner q) s (onRecord q s))
    {acc acc' : Selector} (hacc : Listing acc) (hnew : acc.get a.name = .none) {g' : Graph}
    (hrun : narrowAttribute how onRecord r s acc a g = (.ok acc', g')) :
    g' = g ∧ Listing acc' ∧ (∀ name, name ≠ a.name → acc'.get name = acc.get name) ∧
      (acc'.get a.name).kept =
        (attributeSieve how inner a (g.value? r a.name)).paths how.aggregation (s.get a.name).kept := by
  have hread := lift_value?_made hmade a.name g
  simp only [narrowAttribute] at hrun
  split at hrun
  · next hnone =>
    cases hrun
    have hnothing : Sieved how.aggregation (attributeSieve how inner a (g.value? r a.name))
        (s.get a.name) .none := Selector.sieved_none hnone
    exact ⟨rfl, hacc, fun name _ => rfl, hnew ▸ hnothing.kept⟩
  · next hsome =>
    rw [Stateful.bind_of_ok hread] at hrun
    split at hrun
    · next hunset =>
      cases hrun
      rw [attributeSieve, if_pos hunset, hnew]
      exact ⟨rfl, hacc, fun name _ => rfl, Selector.kept_none⟩
    · next hset =>
      obtain ⟨t, g₁, hnarrow, hpure⟩ := Stateful.bind_eq_ok hrun
      cases hpure
      obtain ⟨rfl, ht⟩ := a.type.narrow_sieves (hs.get a.name)
        (fun w hw q hq hsome => h w hw q hq _ (hs.get a.name) hsome) t _ hnarrow
      refine ⟨rfl, hacc.set ht.wellFormed a.name, fun name hne => Selector.get_set_other hne t, ?_⟩
      have hlist : acc.isAll = false := by
        obtain ⟨fields, rfl⟩ := hacc.only
        rfl
      rw [Selector.get_set_same hacc.wellFormed hlist, ht.normal.normalize_eq, attributeSieve,
        if_neg hset, ht.kept]

/-- Attribute by attribute, what passes is listed. -/
theorem foldlM_narrowAttribute_sieves (hmade : r.base? = none) (hs : s.WellFormed)
    {attributes : List Attribute} (hnodup : (attributes.map Attribute.name).Nodup)
    (h : ∀ a ∈ attributes, ∀ w, g.value? r a.name = some w → ∀ q ∈ w.records, ∀ s : Selector,
      s.WellFormed → s.isNone = false → Sieves g how.aggregation (inner q) s (onRecord q s))
    {acc t : Selector} (hacc : Listing acc) (hnew : ∀ a ∈ attributes, acc.get a.name = .none)
    {g' : Graph} (hrun : attributes.foldlM (narrowAttribute how onRecord r s) acc g = (.ok t, g')) :
    g' = g ∧ Listing t ∧
      (∀ name, name ∉ attributes.map Attribute.name → t.get name = acc.get name) ∧
      ∀ a ∈ attributes, (t.get a.name).kept =
        (attributeSieve how inner a (g.value? r a.name)).paths how.aggregation (s.get a.name).kept := by
  induction attributes generalizing acc with
  | nil =>
    cases hrun
    exact ⟨rfl, hacc, fun name _ => rfl, by simp⟩
  | cons a rest ih =>
    obtain ⟨hfresh, hnodup⟩ := List.nodup_cons.1 hnodup
    obtain ⟨ha, hrest⟩ := List.forall_mem_cons.1 h
    obtain ⟨hnewa, hnewrest⟩ := List.forall_mem_cons.1 hnew
    rw [List.foldlM_cons] at hrun
    obtain ⟨acc', g₁, hstep, hloop⟩ := Stateful.bind_eq_ok hrun
    obtain ⟨rfl, hacc', hothers, hkept⟩ := narrowAttribute_sieves hmade hs ha hacc hnewa hstep
    have hapart : ∀ b ∈ rest, b.name ≠ a.name := fun b hb heq =>
      hfresh (List.mem_map.2 ⟨b, hb, heq⟩)
    obtain ⟨rfl, ht, houtside, hwithin⟩ := ih hnodup hrest hacc'
      (fun b hb => (hothers b.name (hapart b hb)).trans (hnewrest b hb)) hloop
    refine ⟨rfl, ht, ?_, ?_⟩
    · intro name hname
      rw [List.map_cons, List.mem_cons, not_or] at hname
      rw [houtside name hname.2, hothers name hname.1]
    · intro b hb
      rcases List.mem_cons.1 hb with rfl | hb
      · rw [houtside b.name hfresh, hkept]
      · exact hwithin b hb

/-! ### Against a record -/

/-- A record that has been entered lets pass what its attributes do. -/
theorem recordSieve_sieves (hd : d.Lawful) (hmade : r.base? = none) (hs : s.WellFormed)
    (hsome : s.isNone = false)
    (h : ∀ name w, g.value? r name = some w → ∀ q ∈ w.records, ∀ s : Selector, s.WellFormed →
      s.isNone = false → Sieves g how.aggregation (inner q) s (onRecord q s)) :
    Sieves g how.aggregation (recordSieve d how inner g r) s
      ((d.attributes r.cls).foldlM (narrowAttribute how onRecord r s) (.only [])) := by
  intro t g' hrun
  have hnodup := (hd.definition r.cls).names_nodup
  have hempty : Listing (.only []) := ⟨⟨[], rfl⟩, Selector.wellFormed_only_nil, trivial⟩
  obtain ⟨hg, ht, houtside, hwithin⟩ := foldlM_narrowAttribute_sieves hmade hs hnodup
    (fun a _ => h a.name) hempty (fun _ _ => rfl) hrun
  refine ⟨hg, ht.wellFormed, ht.normal, Set.ext fun path => ?_⟩
  obtain ⟨fields, rfl⟩ := ht.only
  cases path with
  | nil => exact iff_of_true rfl (Sieve.nil_mem_record.2 hsome)
  | cons name rest =>
    have hbelow : name :: rest ∈ (Selector.only fields).kept ↔
        rest ∈ ((Selector.only fields).get name).kept := Iff.rfl
    rw [hbelow, recordSieve, Sieve.cons_mem_record]
    cases hfind : (d.attributes r.cls).find? fun a => a.name == name with
    | none =>
      have hunlisted : name ∉ (d.attributes r.cls).map Attribute.name := by
        simpa using hfind
      rw [houtside name hunlisted]
      exact iff_of_false (Selector.not_keeps_none rest) (Set.notMem_empty rest)
    | some a =>
      obtain rfl : a.name = name := by simpa using List.find?_some hfind
      rw [hwithin a (List.mem_of_find?_eq_some hfind)]
      rfl

theorem resolveInner_sieves {steps : Nat} (hsome : s.isNone = false)
    (h : Sieves g how.aggregation (inner r) s (resolveWithin d how steps r s)) :
    Sieves g how.aggregation (innerSieve d how inner r) s (resolveInner d how steps r s) := by
  unfold resolveInner innerSieve
  split
  · exact .pure (Selector.sieved_listed hsome _)
  · exact h

theorem resolveWithin_of_isNone {steps : Nat} {t : Selector} {g' : Graph} (hnone : s.isNone = true)
    (hrun : resolveWithin d how steps r s g = (.ok t, g')) : t = .none ∧ g' = g := by
  cases steps with
  | zero => cases hrun
  | succ steps =>
    simp only [resolveWithin, Selector.isNone_normalize, hnone, if_true] at hrun
    cases hrun
    cases s with
    | none => exact ⟨rfl, rfl⟩
    | _ => cases hnone

/-- Resolving lets pass what the sieve of the record does, however many steps it may take. -/
theorem resolveWithin_sieves (hd : d.Lawful) (hmade : ∀ r ∈ known, r.base? = none) (how : Narrowing)
    {n : Nat} {entered : List RecordRef} (hentered : Entered known g entered)
    (hn : g.cells.size < n + entered.length) (hr : r ∈ known) {s : Selector} (hs : s.WellFormed)
    (steps : Nat) :
    Sieves g how.aggregation (sieve d how n g r) s (resolveWithin d how steps r s) := by
  induction n generalizing g r s entered steps with
  | zero =>
    have hle := hentered.length_le
    omega
  | succ n ih =>
    intro t g' hrun
    cases hsome : s.isNone with
    | true =>
      obtain ⟨rfl, rfl⟩ := resolveWithin_of_isNone hsome hrun
      exact ⟨rfl, Selector.sieved_none hsome⟩
    | false =>
      cases steps with
      | zero => cases hrun
      | succ steps =>
        have hnormal := s.isNormal_normalize
        have hsome' : s.normalize.isNone = false := by rwa [Selector.isNone_normalize]
        cases hmarked : g.isResolving r with
        | true =>
          rw [← resolveWithin_normalize, resolveWithin_of_marked hnormal hsome' hmarked] at hrun
          cases hrun
          rw [sieve, if_pos hmarked]
          exact ⟨rfl, Selector.sieved_through hs⟩
        | false =>
          have hinside := hentered.mark hr hmarked
          have hsize : (g.markResolving r true).cells.size = g.cells.size := Graph.size_modify _ _ _
          have hfold : Sieves (g.markResolving r true) how.aggregation
              (recordSieve d how (innerSieve d how (sieve d how n (g.markResolving r true)))
                (g.markResolving r true) r) s.normalize
              ((d.attributes r.cls).foldlM
                (narrowAttribute how (resolveInner d how steps) r s.normalize) (.only [])) := by
            apply recordSieve_sieves hd (hmade r hr) hs.normalize hsome'
            intro name w hw q hq s hs hsome
            apply resolveInner_sieves hsome
            apply ih hinside _ (hinside.sound.value hr hw q hq) hs
            rw [List.length_cons, hsize]
            omega
          rcases resolveWithin_eq_ok hsome hrun with ⟨hresolving, -⟩ | ⟨g₁, hloop, rfl⟩
          · rw [hmarked] at hresolving
            cases hresolving
          · obtain ⟨rfl, ht⟩ := hfold t g₁ hloop
            rw [sieve, if_neg (by simp [hmarked])]
            refine ⟨Graph.markResolving_markResolving hmarked, ht.wellFormed, ht.normal, ?_⟩
            rw [ht.kept, Selector.kept_normalize hs]

theorem resolve_sieves (hd : d.Lawful) (hg : g.Sound known) (hmade : ∀ r ∈ known, r.base? = none)
    (how : Narrowing) (hr : r ∈ known) {s : Selector} (hs : s.WellFormed) :
    Sieves g how.aggregation (sieve d how (g.cells.size + 1) g r) s (resolve d how r s) := by
  intro t g' hrun
  rw [resolve, Stateful.bind_of_ok (stepsFor_eq s g)] at hrun
  exact resolveWithin_sieves hd hmade how (entered_nil hg) (by simp) hr hs _ t g' hrun

theorem resolve_isNone {t : Selector} {g' : Graph} (hrun : resolve d how r s g = (.ok t, g')) :
    t.isNone = s.isNone := by
  rw [resolve, Stateful.bind_of_ok (stepsFor_eq s g)] at hrun
  cases hsome : s.isNone with
  | true =>
    obtain ⟨rfl, -⟩ := resolveWithin_of_isNone hsome hrun
    rfl
  | false => exact resolveWithin_isNone hsome hrun

/-- Resolving among records that are no forks ends, whichever of them are marked. It leaves the graph
as it is, marks included, gives a normal form, which is `none` for `none` only, and gives it again when
it is resolved again. -/
theorem resolve_settles (hd : d.Lawful) (hg : g.Sound known) (hmade : ∀ r ∈ known, r.base? = none)
    (how : Narrowing) (hr : r ∈ known) {s : Selector} (hs : s.WellFormed) :
    ∃ t, resolve d how r s g = (.ok t, g) ∧ t.IsNormal ∧ t.isNone = s.isNone ∧
      ∃ u, resolve d how r t g = (.ok u, g) ∧ (u == t) = true := by
  obtain ⟨t, ht⟩ := resolve_reads (d := d) hg hmade how hr s
  obtain ⟨-, hst⟩ := resolve_sieves hd hg hmade how hr hs t g ht
  obtain ⟨u, hu⟩ := resolve_reads (d := d) hg hmade how hr t
  obtain ⟨-, htu⟩ := resolve_sieves hd hg hmade how hr hst.wellFormed u g hu
  exact ⟨t, ht, hst.normal, resolve_isNone ht, u, hu, hst.beq htu⟩

end Record

namespace Partners

open Record

/-- What is no attribute of a partner, and of the member as the partner of it. -/
def beyond : Selector := .only [("partner", .only [("partner", .only [("shoe", .all)]), ("shoe", .all)])]

theorem beyond_wellFormed : beyond.WellFormed := by
  simp [beyond, Selector.WellFormed, Selector.FieldsWellFormed, Fields.Distinct, Fields.keys]

theorem resolve_settles_partners :
    ∃ t, resolve memberClasses { aggregation := .intersection, setOnly := true } (member 0) beyond
        partners = (.ok t, partners) ∧ t.IsNormal ∧ t.isNone = false ∧
      ∃ u, resolve memberClasses { aggregation := .intersection, setOnly := true } (member 0) t
        partners = (.ok u, partners) ∧ (u == t) = true :=
  resolve_settles memberClasses_lawful partners_sound (by rintro r (rfl | rfl) <;> rfl) _
    (Set.mem_insert _ _) beyond_wellFormed

-- The partner of the partner is the member again, at whom the selector passes as it is.
example : (resolve memberClasses {} (member 0) (.only [("partner", .only
      [("shoe", .all), ("partner", .only [("shoe", .all)])])]) partners).1 =
    .ok (.only [("partner", .only [("partner", .only [("shoe", .all)])])]) := rfl

end Partners

end TypedRecords
