import TypedRecords.Class.Directory
import TypedRecords.Proofs.Results
import TypedRecords.Proofs.Types.Check

/-! # Values that conform to a type

Checking accepts a value exactly if it conforms to the type, item by item at every level of arrays. What it
does not accept it blames on one place: going through the value from left to right and into each item
before the next one, the first place that does not conform although everything inside of it does.
-/

namespace TypedRecords

/-! ### The first of several errors -/

section

variable {α : Type} {f : α → Except Error Unit} {items : List α} {e : Error}

theorem forM_cons_of_ok {first : α} (h : f first = .ok ()) :
    (first :: items).forM f = items.forM f := by
  rw [List.forM, h]
  rfl

theorem forM_cons_of_error {first : α} (h : f first = .error e) :
    (first :: items).forM f = .error e := by
  rw [List.forM, h]
  rfl

/-- Going through a list fails with the error of the first item that has one. -/
theorem forM_eq_error_iff : items.forM f = .error e ↔
    ∃ (i : Nat) (a : α), items[i]? = some a ∧ f a = .error e ∧
      ∀ j < i, ∀ b, items[j]? = some b → f b = .ok () := by
  induction items with
  | nil =>
    constructor
    · intro h
      cases h
    · intro ⟨i, a, ha, _⟩
      cases ha
  | cons first rest ih =>
    cases hfirst : f first with
    | error e' =>
      rw [forM_cons_of_error hfirst]
      constructor
      · intro h
        exact ⟨0, first, rfl, hfirst.trans h, fun j hj => by omega⟩
      · intro ⟨i, a, ha, herror, hbefore⟩
        cases i with
        | zero =>
          cases ha
          exact hfirst.symm.trans herror
        | succ i =>
          have hok := hbefore 0 (by omega) first rfl
          rw [hfirst] at hok
          cases hok
    | ok u =>
      rw [forM_cons_of_ok hfirst, ih]
      constructor
      · intro ⟨i, a, ha, herror, hbefore⟩
        refine ⟨i + 1, a, ha, herror, fun j hj b hb => ?_⟩
        cases j with
        | zero =>
          cases hb
          exact hfirst
        | succ j => exact hbefore j (by omega) b hb
      · intro ⟨i, a, ha, herror, hbefore⟩
        cases i with
        | zero =>
          cases ha
          rw [hfirst] at herror
          cases herror
        | succ i => exact ⟨i, a, ha, herror, fun j hj b hb => hbefore (j + 1) (by omega) b hb⟩

end

/-! ### Lineage -/

/-- A class descends from itself and from what it was forked from. -/
inductive ClassRef.Descends : ClassRef → ClassRef → Prop
  | itself {c : ClassRef} : Descends c c
  | fork {serial : Nat} {base c : ClassRef} (h : Descends base c) : Descends (.fork serial base) c

theorem ClassRef.isSameOrForkOf_iff_descends {c other : ClassRef} :
    c.isSameOrForkOf other = true ↔ c.Descends other := by
  induction c with
  | declared serial name =>
    simp only [isSameOrForkOf, isForkOf, Bool.or_false, beq_iff_eq]
    constructor
    · intro h
      exact h ▸ .itself
    · intro h
      cases h
      rfl
  | fork serial base ih =>
    have hstep : (ClassRef.fork serial base).isSameOrForkOf other = true ↔
        ClassRef.fork serial base = other ∨ base.isSameOrForkOf other = true := by
      simp [isSameOrForkOf, isForkOf]
    rw [hstep, ih]
    constructor
    · intro h
      rcases h with rfl | h
      · exact .itself
      · exact .fork h
    · intro h
      cases h with
      | itself => exact .inl rfl
      | fork h => exact .inr h

/-- Which classes may stand where a name is expected: those that descend from the one that the name stands
for, and where it stands for none, those of the name. -/
inductive Site.Welcomes (site : Site) (name : String) (c : ClassRef) : Prop
  | descendant {expected : ClassRef} (stands : site.expected name = some expected)
    (descends : c.Descends expected)
  | namesake (unknown : site.expected name = none) (named : c.name = name)

theorem Site.admits_iff_welcomes {site : Site} {name : String} {c : ClassRef} :
    site.admits name c = true ↔ site.Welcomes name c := by
  unfold admits
  split
  · next expected hexpected =>
    rw [ClassRef.isSameOrForkOf_iff_descends]
    constructor
    · exact .descendant hexpected
    · intro h
      cases h with
      | descendant stands descends =>
        rw [hexpected] at stands
        cases stands
        exact descends
      | namesake unknown _ =>
        rw [hexpected] at unknown
        cases unknown
  · next hunknown =>
    rw [beq_iff_eq]
    constructor
    · exact .namesake hunknown
    · intro h
      cases h with
      | descendant stands _ =>
        rw [hunknown] at stands
        cases stands
      | namesake _ named => exact named

/-- What a name stands for within a class: the class itself by its own name, and else what its registry has
under the name, if that is held by somebody. -/
inductive Directory.Finds (d : Directory) (owner : ClassRef) : String → ClassRef → Prop
  | own : Finds d owner owner.name owner
  | member {name : String} {r : RegistryRef} {c : ClassRef} (other : name ≠ owner.name)
    (live : d.registryOf? owner = some r) (entered : d.find? r name = some c) : Finds d owner name c

theorem Directory.component?_eq_some_iff {d : Directory} {owner c : ClassRef} {name : String} :
    d.component? owner name = some c ↔ d.Finds owner name c := by
  unfold component?
  split
  · next hname =>
    subst hname
    constructor
    · intro h
      cases h
      exact .own
    · intro h
      cases h with
      | own => rfl
      | member other _ _ => exact absurd rfl other
  · next hname =>
    rw [Option.bind_eq_some_iff]
    constructor
    · intro ⟨r, live, entered⟩
      exact .member hname live entered
    · intro h
      cases h with
      | own => exact absurd rfl hname
      | member _ live entered => exact ⟨_, live, entered⟩

namespace ValueType

variable {site : Site} {t : ValueType} {v : Value} {name : String}

/-! ### Conforming -/

/-- The value is of the type, at every level. Anything is of the type `any`, and what is undefined is of a
type whose outermost level is optional. -/
inductive Conforms (site : Site) : ValueType → Value → Prop
  | any {traits : Traits} {v : Value} : Conforms site (.scalar .any traits) v
  | undefined {t : ValueType} (h : t.isOptional = true) : Conforms site t .undefined
  | boolean {traits : Traits} {b : Bool} : Conforms site (.scalar .boolean traits) (.boolean b)
  | number {traits : Traits} {x : Number} : Conforms site (.scalar .number traits) (.number x)
  | string {traits : Traits} {s : String} : Conforms site (.scalar .string traits) (.string s)
  | object {traits : Traits} {fields : Object} : Conforms site (.scalar .object traits) (.object fields)
  | date {traits : Traits} {i : Instant} : Conforms site (.scalar .date traits) (.date i)
  | pattern {traits : Traits} {p : Pattern} : Conforms site (.scalar .regExp traits) (.pattern p)
  | array {item : ValueType} {traits : Traits} {items : List Value}
    (h : ∀ v ∈ items, Conforms site item v) : Conforms site (.array item traits) (.array items)
  | classRef {name : String} {traits : Traits} {c : ClassRef} (h : site.Welcomes name c) :
    Conforms site (.reference name true traits) (.classRef c)
  | record {name : String} {traits : Traits} {r : RecordRef} (h : site.Welcomes name r.cls) :
    Conforms site (.reference name false traits) (.record r)

theorem conforms_scalar_iff {kind : ScalarKind} (hkind : kind ≠ .any) {traits : Traits}
    (hv : v ≠ .undefined) : Conforms site (.scalar kind traits) v ↔ kind.accepts v = true := by
  constructor
  · intro h
    cases h with
    | any => exact absurd rfl hkind
    | undefined _ => exact absurd rfl hv
    | _ => rfl
  · intro h
    cases kind with
    | any => exact absurd rfl hkind
    | boolean => cases v <;> first | exact .boolean | cases h
    | number => cases v <;> first | exact .number | cases h
    | string => cases v <;> first | exact .string | cases h
    | object => cases v <;> first | exact .object | cases h
    | date => cases v <;> first | exact .date | cases h
    | regExp => cases v <;> first | exact .pattern | cases h

theorem conforms_undefined_iff : Conforms site t .undefined ↔ t.allowsUndefined = true := by
  rw [allowsUndefined, Bool.or_eq_true]
  constructor
  · intro h
    cases h with
    | any => exact .inr rfl
    | undefined h => exact .inl h
  · intro h
    rcases h with hoptional | hany
    · exact .undefined hoptional
    · cases t with
      | scalar kind traits =>
        cases kind with
        | any => exact .any
        | _ => cases hany
      | _ => cases hany

theorem conforms_array_iff {item : ValueType} {traits : Traits} {items : List Value} :
    Conforms site (.array item traits) (.array items) ↔ ∀ v ∈ items, Conforms site item v := by
  constructor
  · intro h
    cases h with
    | array h => exact h
  · exact .array

theorem check_of_conforms (h : Conforms site t v) : t.check site v = .ok () := by
  induction h with
  | any => rfl
  | undefined h =>
    have hconforms : Conforms site _ .undefined := .undefined h
    exact check_undefined (conforms_undefined_iff.1 hconforms)
  | array _ ih => exact forM_of_ok ih
  | classRef h =>
    simp only [check, Site.admits_iff_welcomes.2 h]
    rfl
  | record h =>
    simp only [check, Site.admits_iff_welcomes.2 h]
    rfl
  | _ => rfl

/-- There are no items to check: the type is not one of arrays, or the value is no array. -/
def isFlat : ValueType → Value → Bool
  | .array _ _, .array _ => false
  | _, _ => true

/-- A value without items that does not conform is refused as a whole. -/
theorem check_of_not_conforms (hflat : t.isFlat v = true) (h : ¬Conforms site t v) :
    t.check site v = .error (t.mismatch site v) := by
  by_cases hv : v = .undefined
  · subst hv
    rw [conforms_undefined_iff, allowsUndefined, Bool.or_eq_true, not_or] at h
    obtain ⟨hoptional, hany⟩ := h
    cases t with
    | scalar kind traits =>
      cases kind with
      | any => exact absurd rfl hany
      | _ =>
        simp only [check, if_neg hoptional]
        rfl
    | _ =>
      simp only [check, if_neg hoptional]
      rfl
  · cases t with
    | scalar kind traits =>
      have hkind : kind ≠ .any := by
        intro hkind
        exact h (hkind ▸ .any)
      rw [check_scalar hkind traits v hv, if_neg (mt (conforms_scalar_iff hkind hv).2 h)]
      rfl
    | array item traits =>
      cases v with
      | array items => cases hflat
      | undefined => exact absurd rfl hv
      | _ => rfl
    | reference name toClass traits =>
      cases toClass with
      | true =>
        cases v with
        | undefined => exact absurd rfl hv
        | classRef c =>
          have hadmits : ¬site.admits name c = true :=
            fun hadmits => h (.classRef (Site.admits_iff_welcomes.1 hadmits))
          simp only [check, if_neg hadmits]
          rfl
        | _ => rfl
      | false =>
        cases v with
        | undefined => exact absurd rfl hv
        | record r =>
          have hadmits : ¬site.admits name r.cls = true :=
            fun hadmits => h (.record (Site.admits_iff_welcomes.1 hadmits))
          simp only [check, if_neg hadmits]
          rfl
        | _ => rfl

/-! ### Places -/

/-- The type and the value at a place, which is given by the indices of the items that lead to it. -/
def at? : ValueType → Value → List Nat → Option (ValueType × Value)
  | t, v, [] => some (t, v)
  | .array item _, .array items, i :: place => items[i]?.bind fun v => at? item v place
  | _, _, _ :: _ => none

/-- One place is left of another if the ways to them part and it is on the way with the smaller index. -/
inductive LeftOf : List Nat → List Nat → Prop
  | parted {i j : Nat} {place other : List Nat} (h : i < j) : LeftOf (i :: place) (j :: other)
  | within {i : Nat} {place other : List Nat} (h : LeftOf place other) :
    LeftOf (i :: place) (i :: other)

/-- The type and the value at the first place, from left to right, that does not conform although all of
its items do. -/
structure Blamed (site : Site) (t : ValueType) (v : Value) (place : List Nat) (u : ValueType)
    (w : Value) : Prop where
  stands : t.at? v place = some (u, w)
  misfit : ¬Conforms site u w
  innermost : ∀ i u' w', t.at? v (place ++ [i]) = some (u', w') → Conforms site u' w'
  first : ∀ other u' w', LeftOf other place → t.at? v other = some (u', w') → Conforms site u' w'

variable {item u : ValueType} {traits : Traits} {items : List Value} {w : Value} {place : List Nat}

theorem at?_nil : t.at? v [] = some (t, v) := by
  cases t <;> rfl

theorem at?_array {i : Nat} : (ValueType.array item traits).at? (.array items) (i :: place) =
    items[i]?.bind fun v => item.at? v place := rfl

theorem at?_item {i : Nat} (hv : items[i]? = some v) (place : List Nat) :
    (ValueType.array item traits).at? (.array items) (i :: place) = item.at? v place := by
  rw [at?_array, hv]
  rfl

theorem at?_cons_eq_some {i : Nat} (h : t.at? v (i :: place) = some (u, w)) :
    ∃ item traits items v', t = .array item traits ∧ v = .array items ∧ items[i]? = some v' ∧
      item.at? v' place = some (u, w) := by
  cases t with
  | array item traits =>
    cases v with
    | array items =>
      rw [at?_array, Option.bind_eq_some_iff] at h
      obtain ⟨v', hv', hat⟩ := h
      exact ⟨item, traits, items, v', rfl, rfl, hv', hat⟩
    | _ => cases h
  | _ => cases h

/-- Every place of a value that conforms does. -/
theorem Conforms.at? (h : Conforms site t v) (hat : t.at? v place = some (u, w)) :
    Conforms site u w := by
  induction place generalizing t v with
  | nil =>
    rw [at?_nil] at hat
    cases hat
    exact h
  | cons i place ih =>
    obtain ⟨item, traits, items, v', ht, hv, hitem, hrest⟩ := at?_cons_eq_some hat
    subst ht hv
    exact ih (conforms_array_iff.1 h v' (List.mem_of_getElem? hitem)) hrest

/-- A value without items is blamed as a whole. -/
theorem blamed_flat_iff (hflat : t.isFlat v = true) :
    Blamed site t v place u w ↔ place = [] ∧ u = t ∧ w = v ∧ ¬Conforms site t v := by
  constructor
  · intro h
    cases place with
    | nil =>
      have hstands := h.stands
      rw [at?_nil] at hstands
      cases hstands
      exact ⟨rfl, rfl, rfl, h.misfit⟩
    | cons i place =>
      obtain ⟨item, traits, items, -, ht, hv, -⟩ := at?_cons_eq_some h.stands
      subst ht hv
      cases hflat
  · intro ⟨hplace, hu, hw, hmisfit⟩
    subst hplace hu hw
    refine ⟨at?_nil, hmisfit, ?_, nofun⟩
    intro i u' w' hat
    obtain ⟨item, traits, items, -, ht, hv, -⟩ := at?_cons_eq_some hat
    subst ht hv
    cases hflat

/-- In an array the blame falls on a place in the first item that does not conform. -/
theorem blamed_array_iff : Blamed site (.array item traits) (.array items) place u w ↔
    ∃ i v rest, place = i :: rest ∧ items[i]? = some v ∧ Blamed site item v rest u w ∧
      ∀ j < i, ∀ v', items[j]? = some v' → Conforms site item v' := by
  have hhead : ∀ (i : Nat) (v : Value), items[i]? = some v →
      (ValueType.array item traits).at? (.array items) [i] = some (item, v) :=
    fun i v hv => (at?_item hv []).trans at?_nil
  constructor
  · intro h
    cases place with
    | nil =>
      have hstands := h.stands
      rw [at?_nil] at hstands
      cases hstands
      refine absurd (Conforms.array fun v hv => ?_) h.misfit
      obtain ⟨i, hi⟩ := List.getElem?_of_mem hv
      exact h.innermost i item v (hhead i v hi)
    | cons i rest =>
      have hstands := h.stands
      rw [at?_array, Option.bind_eq_some_iff] at hstands
      obtain ⟨v, hv, hrest⟩ := hstands
      refine ⟨i, v, rest, rfl, hv, ⟨hrest, h.misfit, ?_, ?_⟩, ?_⟩
      · intro k u' w' hat
        exact h.innermost k u' w' ((at?_item hv (rest ++ [k])).trans hat)
      · intro other u' w' hleft hat
        exact h.first (i :: other) u' w' (.within hleft) ((at?_item hv other).trans hat)
      · intro j hj v' hv'
        exact h.first [j] item v' (.parted hj) (hhead j v' hv')
  · intro ⟨i, v, rest, hplace, hv, h, hbefore⟩
    subst hplace
    refine ⟨(at?_item hv rest).trans h.stands, h.misfit, ?_, ?_⟩
    · intro k u' w' hat
      exact h.innermost k u' w' ((at?_item hv (rest ++ [k])).symm.trans hat)
    · intro other u' w' hleft hat
      cases hleft with
      | @parted j _ other' _ hj =>
        rw [at?_array, Option.bind_eq_some_iff] at hat
        obtain ⟨v', hv', hat⟩ := hat
        exact (hbefore j hj v' hv').at? hat
      | @within _ other' _ hleft =>
        exact h.first other' u' w' hleft ((at?_item hv other').symm.trans hat)

/-! ### What checking answers -/

theorem check_eq_ok_iff : t.check site v = .ok () ↔ Conforms site t v := by
  refine ⟨fun h => ?_, check_of_conforms⟩
  induction t generalizing v with
  | array item traits ih =>
    cases v with
    | array items => exact .array fun v hv => ih (forM_eq_ok h hv)
    | _ =>
      by_contra hmisfit
      rw [check_of_not_conforms rfl hmisfit] at h
      cases h
  | _ =>
    by_contra hmisfit
    rw [check_of_not_conforms rfl hmisfit] at h
    cases h

/-- A value without items is refused exactly if it is to blame itself. -/
theorem check_flat_eq_error_iff (hflat : t.isFlat v = true) {e : Error} : t.check site v = .error e ↔
    ∃ place u w, Blamed site t v place u w ∧ e = .typeMismatch site.place u.text w.typeName := by
  constructor
  · intro h
    have hmisfit : ¬Conforms site t v := by
      intro hconforms
      rw [check_of_conforms hconforms] at h
      cases h
    rw [check_of_not_conforms hflat hmisfit] at h
    cases h
    exact ⟨[], t, v, (blamed_flat_iff hflat).2 ⟨rfl, rfl, rfl, hmisfit⟩, rfl⟩
  · intro ⟨place, u, w, hblamed, he⟩
    obtain ⟨-, hu, hw, hmisfit⟩ := (blamed_flat_iff hflat).1 hblamed
    rw [check_of_not_conforms hflat hmisfit, he, hu, hw]
    rfl

theorem check_eq_error_iff {e : Error} : t.check site v = .error e ↔
    ∃ place u w, Blamed site t v place u w ∧ e = .typeMismatch site.place u.text w.typeName := by
  induction t generalizing v e with
  | array item traits ih =>
    cases v with
    | array items =>
      have hloop : (ValueType.array item traits).check site (.array items) =
          items.forM fun v => item.check site v := rfl
      rw [hloop, forM_eq_error_iff]
      constructor
      · intro ⟨i, v, hv, herror, hbefore⟩
        obtain ⟨rest, u, w, hblamed, he⟩ := ih.1 herror
        refine ⟨i :: rest, u, w, blamed_array_iff.2 ⟨i, v, rest, rfl, hv, hblamed, ?_⟩, he⟩
        exact fun j hj v' hv' => check_eq_ok_iff.1 (hbefore j hj v' hv')
      · intro ⟨place, u, w, hblamed, he⟩
        obtain ⟨i, v, rest, -, hv, hblamed, hbefore⟩ := blamed_array_iff.1 hblamed
        refine ⟨i, v, hv, ih.2 ⟨rest, u, w, hblamed, he⟩, ?_⟩
        exact fun j hj v' hv' => check_of_conforms (hbefore j hj v' hv')
    | _ => exact check_flat_eq_error_iff rfl
  | _ => exact check_flat_eq_error_iff rfl

/-- Checking is exact, wherever the type stands, and blames the first place that does not conform. Where the
attribute is one of a class, a name stands for the class that this one finds under it. -/
theorem check_exactly (site : Site) (t : ValueType) (v : Value) :
    (t.check site v = .ok () ↔ Conforms site t v) ∧
      (∀ e, t.check site v = .error e ↔ ∃ place u w, Blamed site t v place u w ∧
        e = .typeMismatch site.place u.text w.typeName) ∧
      ∀ (d : Directory) (owner : ClassRef) (attr name : String) (c : ClassRef),
        (d.site owner attr).expected name = some c ↔ d.Finds owner name c := by
  refine ⟨check_eq_ok_iff, fun e => check_eq_error_iff, ?_⟩
  intro d owner attr name c
  exact Directory.component?_eq_some_iff

-- Of two items that are no numbers the first is to blame, and not the array.
example : (ValueType.array (.scalar .number {}) {}).check ⟨"Movie.ratings", fun _ => none⟩
    (.array [.ofNat 1, .undefined, .null]) =
      .error (.typeMismatch "Movie.ratings" "number" "undefined") := rfl

end ValueType

end TypedRecords
