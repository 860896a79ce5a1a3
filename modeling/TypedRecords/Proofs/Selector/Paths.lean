import Mathlib.Data.Fintype.EquivFin
import Mathlib.Tactic.Tauto
import TypedRecords.Proofs.Selector

/-! # Selectors as sets of paths

A selector keeps a path of names if walking down the path does not end in `none`. Selectors whose lists
name nothing twice are determined up to their normal forms by the paths that they keep; unions,
intersections and inclusion are those of the kept paths.
-/

namespace TypedRecords.Selector

/-! ### Induction -/

/-- Induction on selectors, where the hypotheses speak of the entries of a list. -/
theorem induction {motive : Selector → Prop} (all : motive .all) (none : motive .none)
    (only : ∀ fields : Fields Selector, (∀ entry ∈ fields, motive entry.2) →
      motive (.only fields)) (s : Selector) : motive s := by
  refine Selector.rec (motive_1 := motive) (motive_2 := fun fields => ∀ entry ∈ fields, motive entry.2)
    (motive_3 := fun entry => motive entry.2) all none only ?_ ?_ ?_ s
  · intro entry hentry
    cases hentry
  · intro head tail hhead htail entry hentry
    rcases List.mem_cons.1 hentry with rfl | hentry
    · exact hhead
    · exact htail entry hentry
  · intro name s hs
    exact hs

/-! ### Well-formed selectors -/

mutual

/-- No list names an attribute twice, at any level. -/
def WellFormed : Selector → Prop
  | .only fields => Fields.Distinct fields ∧ FieldsWellFormed fields
  | _ => True

def FieldsWellFormed : List (String × Selector) → Prop
  | [] => True
  | (_, s) :: rest => WellFormed s ∧ FieldsWellFormed rest

end

theorem wellFormed_all : WellFormed .all := trivial

theorem wellFormed_none : WellFormed .none := trivial

theorem fieldsWellFormed_iff {fields : Fields Selector} :
    FieldsWellFormed fields ↔ ∀ entry ∈ fields, entry.2.WellFormed := by
  induction fields with
  | nil => simp [FieldsWellFormed]
  | cons entry rest ih => simp [FieldsWellFormed, ih]

theorem wellFormed_only {fields : Fields Selector} :
    (Selector.only fields).WellFormed ↔
      Fields.Distinct fields ∧ ∀ entry ∈ fields, entry.2.WellFormed := by
  rw [WellFormed, fieldsWellFormed_iff]

theorem wellFormed_only_nil : (Selector.only []).WellFormed :=
  wellFormed_only.2 ⟨List.nodup_nil, by simp⟩

theorem WellFormed.get {s : Selector} (h : s.WellFormed) (name : String) :
    (s.get name).WellFormed := by
  cases s with
  | all => trivial
  | none => trivial
  | only fields =>
    rw [Selector.get]
    cases hread : Fields.get? name fields with
    | none => trivial
    | some t => exact (wellFormed_only.1 h).2 _ (Fields.mem_of_get? hread)

/-! ### Lists entry by entry

Normal forms, unions and intersections go through a list and keep of each entry what it becomes,
unless that is `none`.
-/

/-- What the entries of a list become, without those that become `none`. -/
def keepEntries (f : String → Selector → Selector) (fields : Fields Selector) : Fields Selector :=
  fields.flatMap fun e => entry e.1 (f e.1 e.2)

section KeepEntries

variable {f : String → Selector → Selector} {fields : Fields Selector}

theorem keepEntries_cons (name : String) (s : Selector) :
    keepEntries f ((name, s) :: fields) = entry name (f name s) ++ keepEntries f fields := rfl

theorem normalizeFields_eq_keepEntries (fields : Fields Selector) :
    normalizeFields fields = keepEntries (fun _ s => s.normalize) fields := by
  induction fields with
  | nil => rfl
  | cons first rest ih =>
    obtain ⟨name, s⟩ := first
    rw [keepEntries_cons, ← ih, normalizeFields]
    cases s.normalize <;> rfl

theorem mergeFields_eq_keepEntries (fields other : Fields Selector) :
    mergeFields fields other =
      keepEntries (fun name s => mergeEntry s (Fields.get? name other)) fields := by
  induction fields with
  | nil => rfl
  | cons first rest ih =>
    obtain ⟨name, s⟩ := first
    rw [keepEntries_cons, ← ih, mergeFields]
    cases Fields.get? name other <;> rfl

theorem intersectFields_eq_keepEntries (fields other : Fields Selector) :
    intersectFields fields other =
      keepEntries (fun name s => s.intersect ((Fields.get? name other).getD .none)) fields := by
  induction fields with
  | nil => rfl
  | cons first rest ih =>
    obtain ⟨name, s⟩ := first
    rw [keepEntries_cons, ← ih, intersectFields]
    cases Fields.get? name other with
    | some t => rfl
    | none => cases s <;> rfl

theorem keys_entry_sublist (name : String) (s : Selector) :
    (Fields.keys (entry name s)).Sublist [name] := by
  unfold entry
  split
  · exact List.nil_sublist _
  · exact .refl _

theorem keys_keepEntries_sublist (f : String → Selector → Selector) (fields : Fields Selector) :
    (Fields.keys (keepEntries f fields)).Sublist (Fields.keys fields) := by
  induction fields with
  | nil => exact .slnil
  | cons first rest ih =>
    obtain ⟨name, s⟩ := first
    rw [keepEntries_cons, Fields.keys, List.map_append]
    exact (keys_entry_sublist name (f name s)).append ih

theorem distinct_keepEntries (h : Fields.Distinct fields) :
    Fields.Distinct (keepEntries f fields) :=
  h.sublist (keys_keepEntries_sublist f fields)

theorem mem_keepEntries {e : String × Selector} (h : e ∈ keepEntries f fields) :
    e.2.isNone = false ∧ ∃ s, (e.1, s) ∈ fields ∧ e.2 = f e.1 s := by
  obtain ⟨⟨name, s⟩, hmem, he⟩ := List.mem_flatMap.1 h
  unfold entry at he
  split at he
  · cases he
  · next hsome =>
    rw [List.mem_singleton.1 he]
    exact ⟨by simpa using hsome, s, hmem, rfl⟩

theorem get?_keepEntries_of_not_mem {name : String} (h : name ∉ Fields.keys fields) :
    Fields.get? name (keepEntries f fields) = Option.none := by
  rw [Fields.get?_eq_none_iff]
  exact fun hmem => h ((keys_keepEntries_sublist f fields).subset hmem)

/-- What is kept selects of an attribute what its entry becomes. -/
theorem get_keepEntries (h : Fields.Distinct fields) (name : String) :
    (Selector.only (keepEntries f fields)).get name =
      ((Fields.get? name fields).map (f name)).getD .none := by
  rw [Selector.get]
  induction fields with
  | nil => rfl
  | cons first rest ih =>
    obtain ⟨key, s⟩ := first
    obtain ⟨hkey, hrest⟩ := Fields.distinct_cons.1 h
    rw [keepEntries_cons, Fields.get?_append]
    by_cases heq : key = name
    · subst heq
      rw [get?_keepEntries_of_not_mem hkey, Option.or_none]
      cases hvalue : f key s <;> simp [entry, Fields.get?, isNone, hvalue]
    · rw [get?_entry_of_ne heq, Option.none_or, ih hrest]
      simp [Fields.get?, heq]

end KeepEntries

/-! ### Attribute by attribute -/

theorem get_none (name : String) : Selector.none.get name = .none := rfl

theorem intersect_none (s : Selector) : s.intersect .none = .none := by
  cases s <;> rfl

theorem none_intersect (s : Selector) : Selector.none.intersect s = .none := by
  cases s <;> rfl

theorem all_intersect (s : Selector) : Selector.all.intersect s = s.normalize := by
  cases s <;> rfl

theorem intersect_all (s : Selector) : s.intersect .all = s.normalize := by
  cases s <;> rfl

theorem get_normalize_of_wellFormed {s : Selector} (h : s.WellFormed) (name : String) :
    s.normalize.get name = (s.get name).normalize := by
  cases s with
  | all => rfl
  | none => rfl
  | only fields =>
    rw [normalize, normalizeFields_eq_keepEntries, get_keepEntries (wellFormed_only.1 h).1,
      Selector.get]
    cases Fields.get? name fields <;> rfl

theorem get?_addedBy_of_mem {fields other : Fields Selector} {name : String}
    (h : name ∈ Fields.keys fields) : Fields.get? name (addedBy fields other) = Option.none := by
  rw [addedBy, normalizeFields_eq_keepEntries]
  refine get?_keepEntries_of_not_mem fun hmem => ?_
  obtain ⟨e, he, rfl⟩ := List.mem_map.1 hmem
  have hadded := (List.mem_filter.1 he).2
  rw [Fields.contains_iff.2 h] at hadded
  cases hadded

theorem get_addedBy_of_not_mem {fields other : Fields Selector} (hother : Fields.Distinct other)
    {name : String} (h : name ∉ Fields.keys fields) :
    (Selector.only (addedBy fields other)).get name =
      ((Fields.get? name other).map normalize).getD .none := by
  have hdistinct : Fields.Distinct (other.filter fun e => !Fields.contains e.1 fields) :=
    hother.sublist (List.filter_sublist.map Prod.fst)
  have hkept : Fields.get? name (other.filter fun e => !Fields.contains e.1 fields) =
      Fields.get? name other := by
    refine Fields.get?_filter fun value => ?_
    simpa [← Fields.contains_iff] using h
  rw [addedBy, normalizeFields_eq_keepEntries, get_keepEntries hdistinct, hkept]

theorem get_merge_of_wellFormed {s t : Selector} (hs : s.WellFormed) (ht : t.WellFormed)
    (name : String) : (s.merge t).get name = (s.get name).merge (t.get name) := by
  cases s with
  | all => rfl
  | none => rw [none_merge, get_normalize_of_wellFormed ht, get_none, none_merge]
  | only fields =>
    cases t with
    | all => exact (merge_all _).symm
    | none =>
      rw [merge_none, get_normalize_of_wellFormed hs]
      exact (merge_none _).symm
    | only other =>
      have hfields := (wellFormed_only.1 hs).1
      have hother := (wellFormed_only.1 ht).1
      rw [merge, Selector.get, Fields.get?_append]
      by_cases hname : name ∈ Fields.keys fields
      · have hmerged := get_keepEntries (f := fun name s => mergeEntry s (Fields.get? name other))
          hfields name
        rw [← mergeFields_eq_keepEntries, Selector.get] at hmerged
        obtain ⟨s₁, hread⟩ := Fields.mem_keys_iff.1 hname
        rw [get?_addedBy_of_mem hname, Option.or_none, hmerged, hread, Selector.get, hread]
        cases hother : Fields.get? name other with
        | some t₁ => simp [Selector.get, hother, mergeEntry]
        | none => simp [Selector.get, hother, mergeEntry, merge_none]
      · have hread := (Fields.get?_eq_none_iff name fields).2 hname
        have hadded := get_addedBy_of_not_mem hother hname
        rw [Selector.get] at hadded
        rw [get?_mergeFields_of_none hread, Option.none_or, hadded, Selector.get, hread]
        cases hother : Fields.get? name other with
        | some t₁ => simp [Selector.get, hother, none_merge]
        | none => simp [Selector.get, hother, none_merge, normalize]

theorem get_intersect_of_wellFormed {s t : Selector} (hs : s.WellFormed) (ht : t.WellFormed)
    (name : String) : (s.intersect t).get name = (s.get name).intersect (t.get name) := by
  cases s with
  | none => rw [none_intersect, get_none, none_intersect]
  | all =>
    cases t with
    | none => rfl
    | all => rfl
    | only other =>
      rw [all_intersect, get_normalize_of_wellFormed ht]
      exact (all_intersect _).symm
  | only fields =>
    cases t with
    | none => rw [intersect_none, get_none, intersect_none]
    | all =>
      rw [intersect_all, get_normalize_of_wellFormed hs]
      exact (intersect_all _).symm
    | only other =>
      rw [intersect, intersectFields_eq_keepEntries, get_keepEntries (wellFormed_only.1 hs).1,
        Selector.get]
      cases hread : Fields.get? name fields with
      | some s₁ => simp [Selector.get]
      | none => simp [none_intersect]

/-! ### Well-formed results -/

theorem wellFormed_keepEntries {f : String → Selector → Selector} {fields : Fields Selector}
    (h : Fields.Distinct fields)
    (hf : ∀ entry ∈ fields, (f entry.1 entry.2).WellFormed) :
    (Selector.only (keepEntries f fields)).WellFormed := by
  refine wellFormed_only.2 ⟨distinct_keepEntries h, ?_⟩
  intro e he
  obtain ⟨-, s, hmem, heq⟩ := mem_keepEntries he
  rw [heq]
  exact hf _ hmem

theorem WellFormed.normalize {s : Selector} (h : s.WellFormed) : s.normalize.WellFormed := by
  induction s using Selector.induction with
  | all => trivial
  | none => trivial
  | only fields ih =>
    obtain ⟨hdistinct, hfields⟩ := wellFormed_only.1 h
    rw [Selector.normalize, normalizeFields_eq_keepEntries]
    exact wellFormed_keepEntries hdistinct fun entry hmem => ih entry hmem (hfields entry hmem)

theorem wellFormed_ofNames (names : List String) : (ofNames names).WellFormed := by
  have hadd : ∀ (names : List String) (fields : Fields Selector),
      (Selector.only fields).WellFormed →
      (Selector.only (Fields.insertAll fields (names.map fun name => (name, .all)))).WellFormed := by
    intro names
    induction names with
    | nil => exact fun _ h => h
    | cons name rest ih =>
      intro fields h
      obtain ⟨hd, hentries⟩ := wellFormed_only.1 h
      refine ih _ (wellFormed_only.2 ⟨hd.insert _ _, fun entry hentry => ?_⟩)
      rcases Fields.mem_insert hentry with hmem | rfl
      · exact hentries entry hmem
      · exact wellFormed_all
  exact hadd names [] wellFormed_only_nil

theorem mem_of_selects_ofNames {names : List String} {name : String}
    (h : (ofNames names).Selects name) : name ∈ names := by
  have hlisted : (name, (ofNames names).get name) ∈
      Fields.ofEntries (names.map fun name => (name, .all)) := mem_of_get rfl h
  rcases Fields.mem_insertAll hlisted with hmem | hmem
  · cases hmem
  · obtain ⟨other, hother, heq⟩ := List.mem_map.1 hmem
    exact (Prod.mk.inj heq).1 ▸ hother

theorem eq_all_of_mem_ofNames {names : List String} {entry : String × Selector}
    (h : entry ∈ Fields.ofEntries (names.map fun name => (name, Selector.all))) : entry.2 = .all := by
  rcases Fields.mem_insertAll h with hmem | hmem
  · cases hmem
  · obtain ⟨name, -, rfl⟩ := List.mem_map.1 hmem
    rfl

theorem get_ofNames {names : List String} {name : String} (h : (ofNames names).Selects name) :
    (ofNames names).get name = .all :=
  eq_all_of_mem_ofNames (mem_of_get rfl h)

theorem WellFormed.merge {s t : Selector} (hs : s.WellFormed) (ht : t.WellFormed) :
    (s.merge t).WellFormed := by
  induction s using Selector.induction generalizing t with
  | all => trivial
  | none =>
    rw [none_merge]
    exact ht.normalize
  | only fields ih =>
    cases t with
    | all => trivial
    | none =>
      rw [merge_none]
      exact hs.normalize
    | only other =>
      obtain ⟨hdistinct, hfields⟩ := wellFormed_only.1 hs
      obtain ⟨hdistinct', hother⟩ := wellFormed_only.1 ht
      rw [Selector.merge, mergeFields_eq_keepEntries, addedBy, normalizeFields_eq_keepEntries]
      have hmerged : (Selector.only (keepEntries
          (fun name s => mergeEntry s (Fields.get? name other)) fields)).WellFormed := by
        refine wellFormed_keepEntries hdistinct ?_
        rintro ⟨name, s⟩ hmem
        dsimp only
        cases hread : Fields.get? name other with
        | none => exact (hfields _ hmem).normalize
        | some t => exact ih _ hmem (hfields _ hmem) (hother _ (Fields.mem_of_get? hread))
      have hadded : (Selector.only (keepEntries (fun _ s => s.normalize)
          (other.filter fun e => !Fields.contains e.1 fields))).WellFormed := by
        refine wellFormed_keepEntries (hdistinct'.sublist (List.filter_sublist.map Prod.fst)) ?_
        intro entry hmem
        exact (hother entry (List.mem_filter.1 hmem).1).normalize
      obtain ⟨hdistinct₁, hfields₁⟩ := wellFormed_only.1 hmerged
      obtain ⟨hdistinct₂, hfields₂⟩ := wellFormed_only.1 hadded
      refine wellFormed_only.2 ⟨?_, ?_⟩
      · rw [Fields.Distinct, Fields.keys, List.map_append]
        refine List.nodup_append.2 ⟨hdistinct₁, hdistinct₂, ?_⟩
        rintro name hname _ hname' rfl
        obtain ⟨e, he, rfl⟩ := List.mem_map.1 ((keys_keepEntries_sublist _ _).subset hname')
        have hnew := (List.mem_filter.1 he).2
        rw [Fields.contains_iff.2 ((keys_keepEntries_sublist _ _).subset hname)] at hnew
        cases hnew
      · intro entry hmem
        rcases List.mem_append.1 hmem with hmem | hmem
        · exact hfields₁ entry hmem
        · exact hfields₂ entry hmem

theorem WellFormed.intersect {s t : Selector} (hs : s.WellFormed) (ht : t.WellFormed) :
    (s.intersect t).WellFormed := by
  induction s using Selector.induction generalizing t with
  | all =>
    cases t with
    | only other => exact ht.normalize
    | _ => trivial
  | none =>
    rw [none_intersect]
    trivial
  | only fields ih =>
    cases t with
    | none => trivial
    | all =>
      rw [intersect_all]
      exact hs.normalize
    | only other =>
      obtain ⟨hdistinct, hfields⟩ := wellFormed_only.1 hs
      rw [Selector.intersect, intersectFields_eq_keepEntries]
      refine wellFormed_keepEntries hdistinct ?_
      rintro ⟨name, s⟩ hmem
      exact ih _ hmem (hfields _ hmem) (ht.get name)

/-! ### Kept paths -/

/-- The selector at the end of a path. -/
def walk (s : Selector) (path : List String) : Selector := path.foldl get s

/-- Walking down the path does not end in `none`. -/
def Keeps (s : Selector) (path : List String) : Prop := (s.walk path).isNone = false

section Keeps

variable {s t : Selector} {path : List String}

theorem keeps_nil : s.Keeps [] ↔ s.isNone = false := Iff.rfl

theorem keeps_cons {name : String} : s.Keeps (name :: path) ↔ (s.get name).Keeps path := Iff.rfl

theorem keeps_all (path : List String) : Selector.all.Keeps path := by
  induction path with
  | nil => rfl
  | cons name rest ih => exact ih

theorem not_keeps_none (path : List String) : ¬Selector.none.Keeps path := by
  induction path with
  | nil => exact fun h => by cases h
  | cons name rest ih => exact ih

theorem isNone_merge_iff : (s.merge t).isNone = true ↔ s.isNone = true ∧ t.isNone = true := by
  cases s <;> cases t <;> simp [Selector.merge, Selector.normalize, isNone]

theorem isNone_intersect_iff :
    (s.intersect t).isNone = true ↔ s.isNone = true ∨ t.isNone = true := by
  cases s <;> cases t <;> simp [Selector.intersect, Selector.normalize, isNone]

theorem keeps_normalize (hs : s.WellFormed) : s.normalize.Keeps path ↔ s.Keeps path := by
  induction path generalizing s with
  | nil => rw [keeps_nil, keeps_nil, isNone_normalize]
  | cons name rest ih =>
    rw [keeps_cons, keeps_cons, get_normalize_of_wellFormed hs, ih (hs.get name)]

theorem keeps_merge (hs : s.WellFormed) (ht : t.WellFormed) :
    (s.merge t).Keeps path ↔ s.Keeps path ∨ t.Keeps path := by
  induction path generalizing s t with
  | nil =>
    have h := isNone_merge_iff (s := s) (t := t)
    simp only [keeps_nil, ← Bool.not_eq_true]
    tauto
  | cons name rest ih =>
    rw [keeps_cons, keeps_cons, keeps_cons, get_merge_of_wellFormed hs ht,
      ih (hs.get name) (ht.get name)]

theorem walk_all (path : List String) : Selector.all.walk path = .all := by
  induction path with
  | nil => rfl
  | cons name rest ih => exact ih

theorem walk_none (path : List String) : Selector.none.walk path = .none := by
  induction path with
  | nil => rfl
  | cons name rest ih => exact ih

theorem walk_normalize (hs : s.WellFormed) : s.normalize.walk path = (s.walk path).normalize := by
  induction path generalizing s with
  | nil => rfl
  | cons name rest ih =>
    have hstep : s.normalize.walk (name :: rest) = (s.normalize.get name).walk rest := rfl
    rw [hstep, get_normalize_of_wellFormed hs, ih (hs.get name)]
    rfl

theorem walk_merge (hs : s.WellFormed) (ht : t.WellFormed) :
    (s.merge t).walk path = (s.walk path).merge (t.walk path) := by
  induction path generalizing s t with
  | nil => rfl
  | cons name rest ih =>
    have hstep : (s.merge t).walk (name :: rest) = ((s.merge t).get name).walk rest := rfl
    rw [hstep, get_merge_of_wellFormed hs ht, ih (hs.get name) (ht.get name)]
    rfl

theorem keeps_intersect (hs : s.WellFormed) (ht : t.WellFormed) :
    (s.intersect t).Keeps path ↔ s.Keeps path ∧ t.Keeps path := by
  induction path generalizing s t with
  | nil =>
    have h := isNone_intersect_iff (s := s) (t := t)
    simp only [keeps_nil, ← Bool.not_eq_true]
    tauto
  | cons name rest ih =>
    rw [keeps_cons, keeps_cons, keeps_cons, get_intersect_of_wellFormed hs ht,
      ih (hs.get name) (ht.get name)]

end Keeps

/-! ### Normal forms -/

mutual

/-- No entry of a list is `none`, at any level. -/
def IsNormal : Selector → Prop
  | .only fields => FieldsNormal fields
  | _ => True

def FieldsNormal : List (String × Selector) → Prop
  | [] => True
  | (_, s) :: rest => (s.isNone = false ∧ IsNormal s) ∧ FieldsNormal rest

end

theorem isNormal_only {fields : Fields Selector} :
    (Selector.only fields).IsNormal ↔
      ∀ entry ∈ fields, entry.2.isNone = false ∧ entry.2.IsNormal := by
  rw [IsNormal]
  induction fields with
  | nil => simp [FieldsNormal]
  | cons entry rest ih => simp [FieldsNormal, ih]

theorem isNormal_keepEntries {f : String → Selector → Selector} {fields : Fields Selector}
    (hf : ∀ entry ∈ fields, (f entry.1 entry.2).IsNormal) :
    (Selector.only (keepEntries f fields)).IsNormal := by
  refine isNormal_only.2 fun e he => ?_
  obtain ⟨hsome, s, hmem, heq⟩ := mem_keepEntries he
  exact ⟨hsome, heq ▸ hf _ hmem⟩

theorem isNormal_normalize (s : Selector) : s.normalize.IsNormal := by
  induction s using Selector.induction with
  | all => trivial
  | none => trivial
  | only fields ih =>
    rw [normalize, normalizeFields_eq_keepEntries]
    exact isNormal_keepEntries ih

theorem IsNormal.get {s : Selector} (h : s.IsNormal) (name : String) : (s.get name).IsNormal := by
  cases s with
  | all => trivial
  | none => trivial
  | only fields =>
    rw [Selector.get]
    cases hread : Fields.get? name fields with
    | none => trivial
    | some t => exact (isNormal_only.1 h _ (Fields.mem_of_get? hread)).2

theorem IsNormal.normalize_eq {s : Selector} (h : s.IsNormal) : s.normalize = s := by
  induction s using Selector.induction with
  | all => rfl
  | none => rfl
  | only fields ih =>
    have hentries := isNormal_only.1 h
    rw [normalize, normalizeFields_eq_keepEntries]
    congr 1
    clear h
    induction fields with
    | nil => rfl
    | cons first rest ihRest =>
      obtain ⟨hfirst, hrest⟩ := List.forall_mem_cons.1 ih
      obtain ⟨⟨hsome, hnormal⟩, hentries⟩ := List.forall_mem_cons.1 hentries
      rw [keepEntries_cons, ihRest hrest hentries, hfirst hnormal, entry, hsome]
      rfl

theorem isNormal_merge (s t : Selector) : (s.merge t).IsNormal := by
  induction s using Selector.induction generalizing t with
  | all => trivial
  | none =>
    rw [none_merge]
    exact isNormal_normalize t
  | only fields ih =>
    cases t with
    | all => trivial
    | none =>
      rw [merge_none]
      exact isNormal_normalize _
    | only other =>
      have hmerged : (Selector.only (mergeFields fields other)).IsNormal := by
        rw [mergeFields_eq_keepEntries]
        refine isNormal_keepEntries ?_
        rintro ⟨name, s⟩ hmem
        dsimp only
        cases Fields.get? name other with
        | none => exact isNormal_normalize s
        | some t => exact ih _ hmem t
      have hadded : (Selector.only (addedBy fields other)).IsNormal :=
        isNormal_normalize (.only (other.filter fun e => !Fields.contains e.1 fields))
      rw [isNormal_only] at hmerged hadded
      rw [merge, isNormal_only]
      intro entry hmem
      rcases List.mem_append.1 hmem with hmem | hmem
      · exact hmerged entry hmem
      · exact hadded entry hmem

theorem isNormal_intersect (s t : Selector) : (s.intersect t).IsNormal := by
  induction s using Selector.induction generalizing t with
  | all =>
    cases t with
    | only other => exact isNormal_normalize _
    | _ => trivial
  | none =>
    rw [none_intersect]
    trivial
  | only fields ih =>
    cases t with
    | none => trivial
    | all =>
      rw [intersect_all]
      exact isNormal_normalize _
    | only other =>
      rw [intersect, intersectFields_eq_keepEntries]
      refine isNormal_keepEntries ?_
      rintro ⟨name, s⟩ hmem
      exact ih _ hmem _

/-! ### Depth -/

theorem depthFields_le_iff {fields : Fields Selector} {n : Nat} :
    depth.depthFields fields ≤ n ↔ ∀ entry ∈ fields, entry.2.depth ≤ n := by
  induction fields with
  | nil => simp [depth.depthFields]
  | cons entry rest ih => simp [depth.depthFields, ih]

/-- What a list selects of an attribute is less deep than the list. -/
theorem depth_get_lt (fields : Fields Selector) (name : String) :
    ((Selector.only fields).get name).depth < (Selector.only fields).depth := by
  refine Nat.lt_succ_of_le ?_
  rw [get]
  cases hread : Fields.get? name fields with
  | none => exact Nat.zero_le _
  | some s => exact depthFields_le_iff.1 (Nat.le_refl _) _ (Fields.mem_of_get? hread)

theorem depth_normalize_le (s : Selector) : s.normalize.depth ≤ s.depth := by
  induction s using Selector.induction with
  | all => exact Nat.le_refl _
  | none => exact Nat.le_refl _
  | only fields ih =>
    rw [normalize, normalizeFields_eq_keepEntries]
    refine Nat.succ_le_succ (depthFields_le_iff.2 fun entry hentry => ?_)
    obtain ⟨-, s, hmem, heq⟩ := mem_keepEntries hentry
    calc entry.2.depth = s.normalize.depth := by rw [heq]
      _ ≤ s.depth := ih _ hmem
      _ ≤ depth.depthFields fields := depthFields_le_iff.1 (Nat.le_refl _) _ hmem

/-! ### Equality -/

theorem beqFields_iff {fields other : Fields Selector} :
    beqFields fields other = true ↔
      ∀ entry ∈ fields, ∃ t, Fields.get? entry.1 other = some t ∧ entry.2.beq t = true := by
  induction fields with
  | nil => simp [beqFields]
  | cons entry rest ih =>
    obtain ⟨name, s⟩ := entry
    cases hread : Fields.get? name other <;> simp [beqFields, ih, hread]

theorem Keeps.congr {s t : Selector} (hs : s.WellFormed) (h : (s == t) = true)
    (path : List String) : s.Keeps path ↔ t.Keeps path := by
  induction path generalizing s t with
  | nil =>
    have hbeq : s.beq t = true := h
    cases s <;> cases t <;> simp_all [keeps_nil, isNone, beq]
  | cons name rest ih =>
    rw [keeps_cons, keeps_cons]
    have hbeq : s.beq t = true := h
    cases s with
    | all =>
      cases t with
      | all => rfl
      | _ => simp [beq] at hbeq
    | none =>
      cases t with
      | none => rfl
      | _ => simp [beq] at hbeq
    | only fields =>
      cases t with
      | only other =>
        obtain ⟨hdistinct, hfields⟩ := wellFormed_only.1 hs
        simp only [beq, Bool.and_eq_true, beq_iff_eq, beqFields_iff] at hbeq
        obtain ⟨hlength, hequal⟩ := hbeq
        have hsub : Fields.keys fields ⊆ Fields.keys other := by
          intro key hkey
          obtain ⟨s, hread⟩ := Fields.mem_keys_iff.1 hkey
          obtain ⟨t, ht, -⟩ := hequal _ (Fields.mem_of_get? hread)
          exact Fields.mem_keys_iff.2 ⟨t, ht⟩
        simp only [get]
        by_cases hname : name ∈ Fields.keys fields
        · obtain ⟨s, hread⟩ := Fields.mem_keys_iff.1 hname
          have hmem := Fields.mem_of_get? hread
          obtain ⟨t, ht, hst⟩ := hequal _ hmem
          rw [hread, ht]
          exact ih (hfields _ hmem) hst
        · have hname' : name ∉ Fields.keys other := fun hmem =>
            hname (Fields.mem_keys_of_length_eq hdistinct hlength hsub hmem)
          rw [(Fields.get?_eq_none_iff _ _).2 hname, (Fields.get?_eq_none_iff _ _).2 hname']
      | _ => simp [beq] at hbeq

theorem Keeps.isNone {s : Selector} {path : List String} (h : s.Keeps path) : s.isNone = false := by
  cases s with
  | none => exact absurd h (not_keeps_none path)
  | _ => rfl

theorem exists_not_mem_keys (fields : Fields Selector) : ∃ name, name ∉ Fields.keys fields := by
  obtain ⟨name, hname⟩ := Infinite.exists_notMem_finset (Fields.keys fields).toFinset
  exact ⟨name, fun hmem => hname (List.mem_toFinset.2 hmem)⟩

/-- A path of one name separates everything from every list. -/
theorem not_keeps_fresh (fields : Fields Selector) :
    ∃ path, ¬(Selector.only fields).Keeps path := by
  obtain ⟨name, hname⟩ := exists_not_mem_keys fields
  refine ⟨[name], ?_⟩
  rw [keeps_cons, Selector.get, (Fields.get?_eq_none_iff _ _).2 hname]
  exact not_keeps_none []

/-- A normal form lists each name of which it keeps a path. -/
theorem mem_keys_iff_keeps {fields : Fields Selector} (h : (Selector.only fields).IsNormal)
    (name : String) : name ∈ Fields.keys fields ↔ (Selector.only fields).Keeps [name] := by
  rw [keeps_cons, keeps_nil, Selector.get]
  constructor
  · intro hname
    obtain ⟨s, hread⟩ := Fields.mem_keys_iff.1 hname
    rw [hread]
    exact (isNormal_only.1 h _ (Fields.mem_of_get? hread)).1
  · intro hsome
    by_contra hname
    rw [(Fields.get?_eq_none_iff _ _).2 hname] at hsome
    cases hsome

/-- Normal forms that keep the same paths are equal. -/
theorem beq_of_keeps {s t : Selector} (hs : s.WellFormed) (ht : t.WellFormed) (hns : s.IsNormal)
    (hnt : t.IsNormal) (h : ∀ path, s.Keeps path ↔ t.Keeps path) : (s == t) = true := by
  show s.beq t = true
  induction s using Selector.induction generalizing t with
  | all =>
    cases t with
    | all => rfl
    | none => exact absurd ((h []).1 rfl) (not_keeps_none [])
    | only other =>
      obtain ⟨path, hpath⟩ := not_keeps_fresh other
      exact absurd ((h path).1 (keeps_all path)) hpath
  | none =>
    cases t with
    | none => rfl
    | _ => exact absurd ((h []).2 rfl) (not_keeps_none [])
  | only fields ih =>
    cases t with
    | all =>
      obtain ⟨path, hpath⟩ := not_keeps_fresh fields
      exact absurd ((h path).2 (keeps_all path)) hpath
    | none => exact absurd ((h []).1 rfl) (not_keeps_none [])
    | only other =>
      obtain ⟨hdistinct, hfields⟩ := wellFormed_only.1 hs
      obtain ⟨hdistinct', hother⟩ := wellFormed_only.1 ht
      -- Both list just the names of which they keep a path, and keep the same paths under each.
      have hnames : ∀ name, name ∈ Fields.keys fields ↔ name ∈ Fields.keys other := by
        intro name
        rw [mem_keys_iff_keeps hns, mem_keys_iff_keeps hnt, h]
      have hlength : fields.length = other.length := by
        have hperm := (List.perm_ext_iff_of_nodup hdistinct hdistinct').2 hnames
        simpa [Fields.keys] using hperm.length_eq
      rw [beq, Bool.and_eq_true, beq_iff_eq, beqFields_iff]
      refine ⟨hlength, ?_⟩
      rintro ⟨name, s⟩ hmem
      have hread := Fields.get?_of_mem hdistinct hmem
      obtain ⟨t, ht⟩ := Fields.mem_keys_iff.1 ((hnames name).1 (Fields.mem_keys_of_mem hmem))
      have hmem' := Fields.mem_of_get? ht
      refine ⟨t, ht, ih _ hmem (hfields _ hmem) (hother _ hmem') (isNormal_only.1 hns _ hmem).2
        (isNormal_only.1 hnt _ hmem').2 fun path => ?_⟩
      have hpath := h (name :: path)
      rwa [keeps_cons, keeps_cons, Selector.get, Selector.get, hread, ht] at hpath

theorem beq_iff_keeps {s t : Selector} (hs : s.WellFormed) (ht : t.WellFormed) (hns : s.IsNormal)
    (hnt : t.IsNormal) : (s == t) = true ↔ ∀ path, s.Keeps path ↔ t.Keeps path :=
  ⟨Keeps.congr hs, beq_of_keeps hs ht hns hnt⟩

/-- Two selectors keep the same paths exactly if their normal forms are equal. -/
theorem normalize_beq_iff {s t : Selector} (hs : s.WellFormed) (ht : t.WellFormed) :
    (s.normalize == t.normalize) = true ↔ ∀ path, s.Keeps path ↔ t.Keeps path := by
  rw [beq_iff_keeps hs.normalize ht.normalize (isNormal_normalize s) (isNormal_normalize t)]
  simp only [keeps_normalize hs, keeps_normalize ht]

/-- Inclusion is that of the kept paths. -/
theorem includes_iff {s t : Selector} (hs : s.WellFormed) (ht : t.WellFormed) :
    s.includes t = true ↔ ∀ path, t.Keeps path → s.Keeps path := by
  unfold includes
  rw [beq_iff_keeps (hs.merge ht) hs.normalize (isNormal_merge s t) (isNormal_normalize s)]
  simp only [keeps_merge hs ht, keeps_normalize hs]
  exact forall_congr' fun path => by tauto

/-! ### Writing -/

theorem get_set_other {s : Selector} {name other : String} (h : other ≠ name) (value : Selector) :
    (s.set name value).get other = s.get other := by
  cases s with
  | all => rfl
  | none =>
    cases hvalue : value.isNone with
    | true => simp [set, hvalue]
    | false => simp [set, hvalue, get, Fields.get?, Ne.symm h]
  | only fields =>
    cases hvalue : value.isNone with
    | true => simp [set, hvalue, get, Fields.get?_erase_of_ne h]
    | false => exact get_set_of_ne hvalue h

theorem WellFormed.set {s value : Selector} (hs : s.WellFormed) (hvalue : value.WellFormed)
    (name : String) : (s.set name value).WellFormed := by
  have hinsert : ∀ fields : Fields Selector, (Selector.only fields).WellFormed →
      (Selector.only (Fields.insert name value.normalize fields)).WellFormed := by
    intro fields hfields
    obtain ⟨hd, hentries⟩ := wellFormed_only.1 hfields
    refine wellFormed_only.2 ⟨hd.insert _ _, fun entry hentry => ?_⟩
    rcases Fields.mem_insert hentry with hmem | rfl
    · exact hentries entry hmem
    · exact hvalue.normalize
  cases s with
  | all => exact hs
  | none =>
    unfold Selector.set
    dsimp only
    split
    · exact wellFormed_none
    · exact hinsert [] wellFormed_only_nil
  | only fields =>
    unfold Selector.set
    dsimp only
    split
    · obtain ⟨hd, hentries⟩ := wellFormed_only.1 hs
      exact wellFormed_only.2 ⟨hd.erase name, fun entry hentry =>
        hentries entry ((Fields.erase_sublist name fields).subset hentry)⟩
    · exact hinsert fields hs

theorem IsNormal.set {s : Selector} (hs : s.IsNormal) (name : String) (value : Selector) :
    (s.set name value).IsNormal := by
  have hinsert : ∀ fields : Fields Selector, (Selector.only fields).IsNormal →
      value.isNone = false → (Selector.only (Fields.insert name value.normalize fields)).IsNormal := by
    intro fields hfields hvalue
    apply isNormal_only.2
    intro entry hentry
    rcases Fields.mem_insert hentry with hmem | rfl
    · exact isNormal_only.1 hfields entry hmem
    · exact ⟨by rwa [isNone_normalize], isNormal_normalize value⟩
  cases hvalue : value.isNone with
  | true =>
    cases s with
    | all => exact hs
    | none => simp only [Selector.set, hvalue, if_true, IsNormal]
    | only fields =>
      simp only [Selector.set, hvalue, if_true]
      apply isNormal_only.2
      intro entry hentry
      exact isNormal_only.1 hs entry ((Fields.erase_sublist name fields).subset hentry)
  | false =>
    cases s with
    | all => exact hs
    | none =>
      simp only [Selector.set, hvalue, Bool.false_eq_true, if_false]
      exact hinsert [] (isNormal_only.2 (by simp)) hvalue
    | only fields =>
      simp only [Selector.set, hvalue, Bool.false_eq_true, if_false]
      exact hinsert fields hs hvalue

theorem get_set_same {s : Selector} (hs : s.WellFormed) (hall : s.isAll = false) (name : String)
    (value : Selector) : (s.set name value).get name = value.normalize := by
  cases hvalue : value.isNone with
  | true =>
    cases value with
    | none =>
      cases s with
      | all => cases hall
      | none => rfl
      | only fields =>
        simp [set, isNone, get, normalize, Fields.get?_erase_self (wellFormed_only.1 hs).1]
    | _ => cases hvalue
  | false =>
    cases s with
    | all => cases hall
    | none => simp [set, hvalue, get, Fields.get?]
    | only fields => exact get_set_self hvalue

/-! ### The meaning of the operations -/

/-- What unions, intersections, inclusion, normal forms and writing mean for the kept paths. -/
structure PathLaws (a b : Selector) : Prop where
  merge : ∀ path, (a.merge b).Keeps path ↔ a.Keeps path ∨ b.Keeps path
  intersect : ∀ path, (a.intersect b).Keeps path ↔ a.Keeps path ∧ b.Keeps path
  includes : a.includes b = true ↔ ∀ path, b.Keeps path → a.Keeps path
  equal : (a.normalize == b.normalize) = true ↔ ∀ path, a.Keeps path ↔ b.Keeps path
  set_other : ∀ name other path, other ≠ name →
    ((a.set name b).Keeps (other :: path) ↔ a.Keeps (other :: path))
  set_same : ∀ name path, a.isAll = false → ((a.set name b).Keeps (name :: path) ↔ b.Keeps path)
  set_all : ∀ name, a.isAll = true → a.set name b = a

/-- Selectors mean the sets of the paths that they keep. -/
theorem pathLaws {a b : Selector} (ha : a.WellFormed) (hb : b.WellFormed) : PathLaws a b where
  merge path := keeps_merge ha hb
  intersect path := keeps_intersect ha hb
  includes := includes_iff ha hb
  equal := normalize_beq_iff ha hb
  set_other name other path hne := by
    rw [keeps_cons, keeps_cons, get_set_other hne]
  set_same name path hall := by
    rw [keeps_cons, get_set_same ha hall, keeps_normalize hb]
  set_all name hall := by
    cases a with
    | all => rfl
    | _ => cases hall

/-- Titles, and directors of whom nothing is selected but that they are there. -/
theorem pathLaws_titles :
    PathLaws (.only [("title", .all), ("year", .none), ("director", .only [])])
      (.only [("director", .only [("name", .all), ("country", .none)])]) := by
  refine pathLaws ?_ ?_
  · exact ⟨(by decide : ["title", "year", "director"].Nodup), trivial, trivial,
      ⟨List.nodup_nil, trivial⟩, trivial⟩
  · exact ⟨List.nodup_singleton _, ⟨(by decide : ["name", "country"].Nodup), trivial, trivial, trivial⟩,
      trivial⟩

end TypedRecords.Selector
