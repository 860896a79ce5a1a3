import TypedRecords.Record.Selection
import TypedRecords.Proofs.Selector.Paths

/-! # Sieves

What a selector is narrowed to at a place depends on what stands there: a value without parts lets
everything pass as soon as anything is asked for, a record asks its attributes one by one, and the items
of an array answer together. Such a sieve for paths is idempotent, whether items answer by union or by
intersection.
-/

namespace TypedRecords

/-- What lets paths pass that are asked for. -/
inductive Sieve where
  /-- Lets nothing pass. -/
  | closed
  /-- Lets everything pass if anything is asked for. -/
  | whole
  /-- Lets pass what is asked for. -/
  | through
  /-- Lets everything below some names pass if anything is asked for. -/
  | listed (names : Set String)
  | record (part : String → Sieve)
  | both (a b : Sieve)

def Aggregation.join {α : Type} : Aggregation → Set α → Set α → Set α
  | .union => fun a b => a ∪ b
  | .intersection => fun a b => a ∩ b

namespace Sieve

/-- The paths that pass of those that are asked for. -/
def paths (how : Aggregation) : Sieve → Set (List String) → Set (List String)
  | closed, _ => ∅
  | whole, asked => {_path | [] ∈ asked}
  | through, asked => asked
  | listed names, asked => {path | [] ∈ asked ∧ ∀ name ∈ path.head?, name ∈ names}
  | record part, asked => {path | match path with
    | [] => [] ∈ asked
    | name :: rest => rest ∈ (part name).paths how {path | name :: path ∈ asked}}
  | both a b, asked => how.join (a.paths how asked) (b.paths how asked)

/-- Under unions one path that is asked for is enough for another to pass. -/
inductive Supports : Sieve → List String → List String → Prop
  | whole (path : List String) : Supports whole [] path
  | through (path : List String) : Supports through path path
  | listed {names : Set String} {path : List String} (h : ∀ name ∈ path.head?, name ∈ names) :
    Supports (listed names) [] path
  | nil {part : String → Sieve} : Supports (record part) [] []
  | cons {part : String → Sieve} {name : String} {source path : List String}
    (h : Supports (part name) source path) :
    Supports (record part) (name :: source) (name :: path)
  | left {a b : Sieve} {source path : List String} (h : Supports a source path) :
    Supports (both a b) source path
  | right {a b : Sieve} {source path : List String} (h : Supports b source path) :
    Supports (both a b) source path

variable {how : Aggregation} {T : Sieve} {asked asked' : Set (List String)} {path : List String}

theorem nil_mem_record {part : String → Sieve} :
    [] ∈ (record part).paths how asked ↔ [] ∈ asked := by
  rw [paths]
  rfl

theorem cons_mem_record {part : String → Sieve} {name : String} :
    name :: path ∈ (record part).paths how asked ↔
      path ∈ (part name).paths how {path | name :: path ∈ asked} := by
  rw [paths]
  rfl

/-- What passes of what passes at a record passes at its parts. -/
theorem paths_below {part : String → Sieve} (name : String) :
    {path | name :: path ∈ (record part).paths how asked} =
      (part name).paths how {path | name :: path ∈ asked} := by
  ext path
  exact cons_mem_record

theorem paths_empty (T : Sieve) : T.paths how ∅ = ∅ := by
  induction T with
  | closed => rfl
  | whole => ext path; simp [paths]
  | through => rfl
  | listed names => ext path; simp [paths]
  | record part ih =>
    ext path
    cases path with
    | nil => simp [nil_mem_record]
    | cons name rest => simp [cons_mem_record, ih]
  | both a b iha ihb => cases how <;> simp [paths, Aggregation.join, iha, ihb]

/-! ### Unions -/

theorem mem_paths_union_iff :
    path ∈ T.paths .union asked ↔ ∃ source ∈ asked, Supports T source path := by
  constructor
  · intro h
    induction T generalizing asked path with
    | closed => cases h
    | whole => exact ⟨[], h, .whole path⟩
    | through => exact ⟨path, h, .through path⟩
    | listed names => exact ⟨[], h.1, .listed h.2⟩
    | record part ih =>
      cases path with
      | nil => exact ⟨[], nil_mem_record.1 h, .nil⟩
      | cons name rest =>
        obtain ⟨source, hsource, hsupports⟩ := ih name (cons_mem_record.1 h)
        exact ⟨name :: source, hsource, .cons hsupports⟩
    | both a b iha ihb =>
      cases h with
      | inl h =>
        obtain ⟨source, hsource, hsupports⟩ := iha h
        exact ⟨source, hsource, .left hsupports⟩
      | inr h =>
        obtain ⟨source, hsource, hsupports⟩ := ihb h
        exact ⟨source, hsource, .right hsupports⟩
  · rintro ⟨source, hsource, h⟩
    induction h generalizing asked with
    | whole | through => exact hsource
    | listed h => exact ⟨hsource, h⟩
    | nil => exact nil_mem_record.2 hsource
    | cons _ ih => exact cons_mem_record.2 (ih hsource)
    | left _ ih => exact .inl (ih hsource)
    | right _ ih => exact .inr (ih hsource)

/-- What supports a path passes itself. -/
theorem Supports.source {source : List String} (h : Supports T source path) :
    Supports T source source := by
  induction h with
  | whole => exact .whole []
  | through path => exact .through path
  | listed => exact .listed (by simp)
  | nil => exact .nil
  | cons _ ih => exact .cons ih
  | left _ ih => exact .left ih
  | right _ ih => exact .right ih

/-- What is supported at one place by what is supported at another is supported at one of them by what
was asked for. -/
theorem Supports.trans_or {T' : Sieve} {source middle : List String} (h : Supports T source middle)
    (h' : Supports T' middle path) : Supports T source path ∨ Supports T' source path := by
  induction h generalizing T' path with
  | whole => exact .inl (.whole path)
  | through => exact .inr h'
  | nil => exact .inr h'
  | listed hlisted =>
    induction h' with
    | whole path => exact .inr (.whole path)
    | through => exact .inl (.listed hlisted)
    | listed h => exact .inr (.listed h)
    | nil => exact .inr .nil
    | cons => exact .inl (.listed hlisted)
    | left _ ih => exact (ih hlisted).imp_right .left
    | right _ ih => exact (ih hlisted).imp_right .right
  | @cons part name source middle h ih =>
    generalize hmiddle : name :: middle = below at h'
    induction h' with
    | whole | listed | nil => cases hmiddle
    | through =>
      subst hmiddle
      exact .inl (.cons h)
    | cons h' =>
      cases hmiddle
      exact (ih h').imp .cons .cons
    | left _ ih' => exact (ih' hmiddle).imp_right .left
    | right _ ih' => exact (ih' hmiddle).imp_right .right
  | left _ ih => exact (ih h').imp_left .left
  | right _ ih => exact (ih h').imp_left .right

theorem paths_union_paths (T : Sieve) (asked : Set (List String)) :
    T.paths .union (T.paths .union asked) = T.paths .union asked := by
  ext path
  simp only [mem_paths_union_iff]
  constructor
  · rintro ⟨middle, ⟨source, hsource, h⟩, h'⟩
    rcases h.trans_or h' with hsupports | hsupports <;> exact ⟨source, hsource, hsupports⟩
  · rintro ⟨source, hsource, h⟩
    exact ⟨source, ⟨source, hsource, h.source⟩, h⟩

/-! ### Intersections

Of fewer paths fewer pass. What passes twice passes once, and what passes once passes again as long as
it comes with the paths to it.
-/

theorem paths_intersection_mono (h : asked ⊆ asked') :
    T.paths .intersection asked ⊆ T.paths .intersection asked' := by
  induction T generalizing asked asked' with
  | closed => exact subset_rfl
  | whole => exact fun path hpath => h hpath
  | through => exact h
  | listed names => exact fun path hpath => ⟨h hpath.1, hpath.2⟩
  | record part ih =>
    intro path hpath
    cases path with
    | nil => exact nil_mem_record.2 (h (nil_mem_record.1 hpath))
    | cons name rest =>
      apply cons_mem_record.2
      apply ih name _ (cons_mem_record.1 hpath)
      intro rest hrest
      exact h hrest
  | both a b iha ihb => exact Set.inter_subset_inter (iha h) (ihb h)

theorem paths_intersection_paths_subset (T : Sieve) (asked : Set (List String)) :
    T.paths .intersection (T.paths .intersection asked) ⊆ T.paths .intersection asked := by
  induction T generalizing asked with
  | closed | through => exact subset_rfl
  | whole => exact fun path hpath => hpath
  | listed names => exact fun path hpath => ⟨hpath.1.1, hpath.2⟩
  | record part ih =>
    intro path hpath
    cases path with
    | nil => exact nil_mem_record.1 hpath
    | cons name rest =>
      rw [cons_mem_record, paths_below] at hpath
      exact cons_mem_record.2 (ih name _ hpath)
  | both a b iha ihb =>
    intro path hpath
    have hleft : (both a b).paths .intersection asked ⊆ a.paths .intersection asked :=
      Set.inter_subset_left
    have hright : (both a b).paths .intersection asked ⊆ b.paths .intersection asked :=
      Set.inter_subset_right
    exact ⟨iha asked (paths_intersection_mono hleft hpath.1),
      ihb asked (paths_intersection_mono hright hpath.2)⟩

/-- With each path the paths to it. -/
def Rooted (kept : Set (List String)) : Prop :=
  ∀ path rest, path ++ rest ∈ kept → path ∈ kept

theorem subset_paths_intersection {kept : Set (List String)} (hkept : Rooted kept)
    (h : kept ⊆ T.paths .intersection asked) : kept ⊆ T.paths .intersection kept := by
  induction T generalizing asked kept with
  | closed => exact h
  | whole => exact fun path hpath => hkept [] path hpath
  | through => exact subset_rfl
  | listed names => exact fun path hpath => ⟨hkept [] path hpath, (h hpath).2⟩
  | record part ih =>
    intro path hpath
    cases path with
    | nil => exact nil_mem_record.2 hpath
    | cons name rest =>
      have hrooted : Rooted {path | name :: path ∈ kept} :=
        fun path rest hrest => hkept (name :: path) rest hrest
      have hbelow : {path | name :: path ∈ kept} ⊆
          (part name).paths .intersection {path | name :: path ∈ asked} :=
        fun path hpath => cons_mem_record.1 (h hpath)
      exact cons_mem_record.2 (ih name hrooted hbelow hpath)
  | both a b iha ihb =>
    exact Set.subset_inter (iha hkept (h.trans Set.inter_subset_left))
      (ihb hkept (h.trans Set.inter_subset_right))

/-- What passes passes again, and nothing else does. -/
theorem paths_paths (how : Aggregation) (T : Sieve) {asked : Set (List String)}
    (h : Rooted (T.paths how asked)) : T.paths how (T.paths how asked) = T.paths how asked := by
  cases how with
  | union => exact paths_union_paths T asked
  | intersection =>
    exact Set.Subset.antisymm (paths_intersection_paths_subset T asked)
      (subset_paths_intersection h subset_rfl)

end Sieve

/-! ### Selectors that are sieved -/

namespace Selector

/-- The paths that a selector keeps. -/
def kept (s : Selector) : Set (List String) := {path | s.Keeps path}

theorem kept_none : kept .none = ∅ := by
  ext path
  simp [kept, not_keeps_none path]

theorem kept_normalize {s : Selector} (hs : s.WellFormed) : s.normalize.kept = s.kept :=
  Set.ext fun _ => keeps_normalize hs

theorem rooted_kept (s : Selector) : Sieve.Rooted s.kept := by
  intro path rest h
  induction path generalizing s with
  | nil => exact Keeps.isNone h
  | cons name path ih => exact ih (s.get name) h

/-- A normal form that keeps the paths that pass of those of another selector. -/
structure Sieved (how : Aggregation) (T : Sieve) (s t : Selector) : Prop where
  wellFormed : t.WellFormed
  normal : t.IsNormal
  kept : t.kept = T.paths how s.kept

variable {how : Aggregation} {T T' : Sieve} {s t t' : Selector}

theorem sieved_none (hs : s.isNone = true) : Sieved how T s .none := by
  cases s with
  | none => exact ⟨wellFormed_none, trivial, by rw [kept_none, Sieve.paths_empty]⟩
  | _ => cases hs

theorem sieved_through (hs : s.WellFormed) : Sieved how .through s s.normalize :=
  ⟨hs.normalize, isNormal_normalize s, kept_normalize hs⟩

theorem sieved_whole (hs : s.isNone = false) : Sieved how .whole s .all := by
  refine ⟨wellFormed_all, trivial, Set.ext fun path => ?_⟩
  exact iff_of_true (keeps_all path) hs

theorem sieved_listed (hs : s.isNone = false) (names : List String) :
    Sieved how (.listed {name | (ofNames names).Selects name}) s (ofNames names) := by
  refine ⟨wellFormed_ofNames names, ?_, Set.ext fun path => ?_⟩
  · apply isNormal_only.2
    intro entry hentry
    rw [eq_all_of_mem_ofNames hentry]
    exact ⟨rfl, trivial⟩
  · have hasked : [] ∈ s.kept := hs
    cases path with
    | nil => exact iff_of_true rfl ⟨hasked, by simp⟩
    | cons name rest =>
      have hpasses : name :: rest ∈ Sieve.paths how (.listed {name | (ofNames names).Selects name})
          s.kept ↔ (ofNames names).Selects name := by
        simp [Sieve.paths, hasked]
      rw [hpasses]
      constructor
      · intro h
        have hbelow : ((ofNames names).get name).Keeps rest := h
        exact hbelow.isNone
      · intro h
        show ((ofNames names).get name).Keeps rest
        rw [get_ofNames h]
        exact keeps_all rest

theorem Sieved.both (h : Sieved how T s t) (h' : Sieved how T' s t') :
    Sieved how (.both T T') s (how.combine t t') := by
  cases how with
  | union =>
    refine ⟨h.wellFormed.merge h'.wellFormed, isNormal_merge t t', Set.ext fun path => ?_⟩
    rw [Sieve.paths, ← h.kept, ← h'.kept]
    exact keeps_merge h.wellFormed h'.wellFormed
  | intersection =>
    refine ⟨h.wellFormed.intersect h'.wellFormed, isNormal_intersect t t', Set.ext fun path => ?_⟩
    rw [Sieve.paths, ← h.kept, ← h'.kept]
    exact keeps_intersect h.wellFormed h'.wellFormed

/-- What is sieved twice is what is sieved once. -/
theorem Sieved.beq (h : Sieved how T s t) (h' : Sieved how T t t') : (t' == t) = true := by
  have hrooted : Sieve.Rooted (T.paths how s.kept) := h.kept ▸ rooted_kept t
  have hkept : t'.kept = t.kept := by
    rw [h'.kept, h.kept, Sieve.paths_paths how T hrooted]
  refine beq_of_keeps h'.wellFormed h.wellFormed h'.normal h.normal fun path => ?_
  exact Set.ext_iff.1 hkept path

end Selector

end TypedRecords
