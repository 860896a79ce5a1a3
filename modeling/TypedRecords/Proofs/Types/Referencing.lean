import TypedRecords.Class.Definition
import TypedRecords.Proofs.Matching
import TypedRecords.Proofs.Types.Specifier

/-! # Specifiers of classes

The names that classes can be defined under are the names that specifiers can refer to. Two of them,
`Date` and `RegExp`, are taken for scalars unless they stand after `typeof`.
-/

namespace TypedRecords

/-- Some class can be defined under the name. -/
def Declarable (name : String) : Prop :=
  ∃ c : ClassDeclaration, c.name = name ∧ ∃ d, c.build = .ok d

theorem declarable_iff {name : String} :
    Declarable name ↔ Specifier.isClassName name.toList = true := by
  constructor
  · rintro ⟨c, rfl, d, hd⟩
    cases hname : Specifier.isClassName c.name.toList with
    | true => rfl
    | false =>
      rw [ClassDeclaration.build, hname] at hd
      cases hd
  · intro hname
    refine ⟨{ name }, rfl, .empty, ?_⟩
    simp only [ClassDeclaration.build, hname]
    rfl

namespace Specifier

open ValueType.text (mark)

/-- What a class, or records of it, are referred to by. -/
def referring (name : String) (toClass : Bool) : String :=
  (if toClass then "typeof " else "") ++ name

theorem toList_referring (name : String) (toClass : Bool) :
    (referring name toClass).toList =
      (if toClass then "typeof ".toList else []) ++ name.toList := by
  rw [referring, String.toList_append]
  cases toClass <;> rfl

/-! ### The expression for references -/

open Regex (letters only spelled whole)

/-- What bases that are no scalars are matched against. -/
def referencePattern : Pattern := ⟨"^(typeof )?([A-Z][A-Za-z0-9_]*)$", ""⟩

def capitals : CharSet := .unionAll [.range 'A' 'Z']

def nameCharacters : CharSet :=
  .unionAll [.range 'A' 'Z', .range 'a' 'z', .range '0' '9', .single '_']

theorem compile?_referencePattern :
    referencePattern.compile? = some (whole (.repeated (spelled "typeof ".toList) 0 (some 1))
      (.seq (.set capitals) (.seq (.repeated (.set nameCharacters) 0 none) .empty))) := by
  decide

theorem contains_capitals (c : Char) : capitals.contains c = c.isUpper := by
  show (false || ('A' ≤ c && c ≤ 'Z')) = decide ('A' ≤ c ∧ c ≤ 'Z')
  simp

theorem contains_nameCharacters (c : Char) :
    nameCharacters.contains c = (c.isAlphanum || c == '_') := by
  have hunderscore : (CharSet.single '_').contains c = (c == '_') := by
    rw [Bool.eq_iff_iff, CharSet.contains_single, beq_iff_eq]
  show (capitals.contains c || c.isLower || c.isDigit || (CharSet.single '_').contains c) =
    (c.isUpper || c.isLower || c.isDigit || c == '_')
  rw [contains_capitals, hunderscore]

theorem mem_className_iff {word : List Char} :
    word ∈ letters capitals * (KStar.kstar (letters nameCharacters) * 1) ↔
      isClassName word = true := by
  rw [mul_one, Language.mem_mul]
  cases word with
  | nil => simp [Regex.mem_letters, isClassName]
  | cons c rest =>
    simp only [Regex.mem_letters, Regex.mem_kstar_letters, contains_capitals,
      contains_nameCharacters, isClassName, Bool.and_eq_true, List.all_eq_true]
    constructor
    · rintro ⟨_, ⟨first, hfirst, rfl⟩, others, hothers, h⟩
      cases h
      exact ⟨hfirst, hothers⟩
    · intro h
      exact ⟨[c], ⟨c, h.1, rfl⟩, rest, h.2, rfl⟩

theorem matches?_referencePattern {base : String} :
    referencePattern.matches? base = some true ↔
      ∃ name toClass, isClassName name.toList = true ∧ base = referring name toClass := by
  have hword : Regex.Takes base.toList.toArray (.repeated (spelled "typeof ".toList) 0 (some 1))
      (1 + only "typeof ".toList) := (Regex.takes_spelled _).optional
  have hrest : Regex.Takes base.toList.toArray
      (.seq (.set capitals) (.seq (.repeated (.set nameCharacters) 0 none) .empty))
      (letters capitals * (KStar.kstar (letters nameCharacters) * 1)) :=
    (Regex.takes_set _).seq ((Regex.takes_set _).star.seq Regex.takes_empty)
  rw [Pattern.matches?, compile?_referencePattern, Option.map_some, Option.some.injEq,
    Regex.isMatch_whole_iff hword hrest, Language.mem_mul]
  simp only [Language.mem_add, Language.mem_one, Regex.mem_only, mem_className_iff]
  constructor
  · rintro ⟨start, hstart, name, hname, hbase⟩
    have hbase {toClass : Bool} (h : start = if toClass then "typeof ".toList else []) :
        base = referring (String.ofList name) toClass := by
      apply String.toList_inj.1
      have htail : (String.ofList name).toList = name := String.toList_ofList
      rw [toList_referring, htail, ← hbase, h]
    rcases hstart with h | h
    · exact ⟨String.ofList name, false, by simpa using hname, hbase h⟩
    · exact ⟨String.ofList name, true, by simpa using hname, hbase h⟩
  · rintro ⟨name, toClass, hname, rfl⟩
    refine ⟨_, ?_, name.toList, hname, (toList_referring name toClass).symm⟩
    cases toClass with
    | true => exact .inr rfl
    | false => exact .inl rfl

/-! ### Reading references -/

mutual

theorem IsType.exists_reference {Atom : String → Prop} {r : Option (String × Bool)}
    (hbase : ∀ base, Atom base → ∀ (o : TypeOptions) (optional : Bool), o.items? = none →
      ∃ t, Reads (base ++ mark (o.traits optional)) o t ∧ t.reference? = r)
    {s : String} {n : Nat} {o : TypeOptions} (hdepth : o.depth ≤ n) :
    IsType Atom s n → ∃ t, Reads s o t ∧ t.reference? = r
  | .required h => by
    have hlevel := h.exists_reference hbase hdepth false
    have hmark : s ++ mark (o.traits false) = s := String.append_empty
    rwa [hmark] at hlevel
  | .optional h => h.exists_reference hbase hdepth true

theorem IsLevel.exists_reference {Atom : String → Prop} {r : Option (String × Bool)}
    (hbase : ∀ base, Atom base → ∀ (o : TypeOptions) (optional : Bool), o.items? = none →
      ∃ t, Reads (base ++ mark (o.traits optional)) o t ∧ t.reference? = r)
    {s : String} {n : Nat} {o : TypeOptions} (hdepth : o.depth ≤ n) (optional : Bool) :
    IsLevel Atom s n → ∃ t, Reads (s ++ mark (o.traits optional)) o t ∧ t.reference? = r
  | .base h => hbase s h o optional (TypeOptions.depth_le_zero_iff.1 hdepth)
  | .array h => by
    obtain ⟨item, hreads, href⟩ :=
      h.exists_reference hbase (TypeOptions.depth_le_succ_iff.1 hdepth)
    exact ⟨_, .array hreads, href⟩

end

theorem Reads.of_reference? {s : String} {o : TypeOptions} {t : ValueType} {name : String}
    {toClass : Bool} (h : Reads s o t) (href : t.reference? = some (name, toClass)) :
    isClassName name.toList = true ∧ IsType (· = referring name toClass) s t.arrays := by
  induction h with
  | scalar => cases href
  | @reference _ _ o optional hname =>
    cases href
    have hlevel : IsLevel (· = referring name toClass) (referring name toClass) 0 := .base rfl
    exact ⟨hname, hlevel.marked o optional⟩
  | @array s o item optional _ ih =>
    obtain ⟨hname, hitem⟩ := ih href
    exact ⟨hname, (IsLevel.array hitem).marked o optional⟩

theorem eq_of_ofName?_isClassName {name : String} {kind : ScalarKind}
    (hkind : ScalarKind.ofName? name = some kind) (hname : isClassName name.toList = true) :
    name = "Date" ∨ name = "RegExp" := by
  obtain rfl := ScalarKind.ofName?_eq_some_iff.1 hkind
  cases kind with
  | date => exact .inl rfl
  | regExp => exact .inr rfl
  | _ => cases hname

/-- What a type over a name refers to, if the name can be that of a class. -/
def referent (name : String) (toClass : Bool) : Option (String × Bool) :=
  if toClass = false ∧ (name = "Date" ∨ name = "RegExp") then none else some (name, toClass)

theorem exists_reference_base {name : String} (hname : isClassName name.toList = true)
    (toClass : Bool) {o : TypeOptions} (ho : o.items? = none) (optional : Bool) :
    ∃ t, Reads (referring name toClass ++ mark (o.traits optional)) o t ∧
      t.reference? = referent name toClass := by
  by_cases hshadowed : toClass = false ∧ (name = "Date" ∨ name = "RegExp")
  · have hscalar : ∃ kind : ScalarKind, name = kind.name := by
      rcases hshadowed.2 with rfl | rfl
      · exact ⟨.date, rfl⟩
      · exact ⟨.regExp, rfl⟩
    obtain ⟨kind, rfl⟩ := hscalar
    obtain rfl := hshadowed.1
    have hbare : referring kind.name false = kind.name := String.empty_append
    rw [hbare, referent, if_pos hshadowed]
    exact ⟨_, .scalar (.inl rfl) ho, rfl⟩
  · rw [referent, if_neg hshadowed]
    refine ⟨_, .reference hname ?_ ho, rfl⟩
    intro hrecord
    cases hscalar : ScalarKind.ofName? name with
    | none => rfl
    | some kind => exact absurd ⟨hrecord, eq_of_ofName?_isClassName hscalar hname⟩ hshadowed

/-- The expression admits the names of classes that can be defined, and those after `typeof`. Each
specifier over such a base is read to a type that refers to the class, unless the base is the name of
a scalar, and no specifier is read to a type that refers to anything else. -/
theorem parse_refers (place : String) (o : TypeOptions) :
    (∀ base, referencePattern.matches? base = some true ↔
      ∃ name toClass, Declarable name ∧ base = referring name toClass) ∧
    (∀ name, Declarable name → ∀ toClass s depth,
      IsType (· = referring name toClass) s depth → o.depth ≤ depth →
      ∃ t, parse place s o = .ok t ∧ t.reference? = referent name toClass) ∧
    ∀ s t name toClass, parse place s o = .ok t → t.reference? = some (name, toClass) →
      Declarable name ∧ IsType (· = referring name toClass) s t.arrays := by
  simp only [declarable_iff]
  refine ⟨fun base => matches?_referencePattern, ?_, ?_⟩
  · intro name hname toClass s depth htype hdepth
    obtain ⟨t, hreads, href⟩ := htype.exists_reference (by
      rintro _ rfl o optional ho
      exact exists_reference_base hname toClass ho optional) hdepth
    exact ⟨t, parse_iff_reads.2 hreads, href⟩
  · intro s t name toClass h href
    exact (parse_iff_reads.1 h).of_reference? href

/-- A class can be defined under the name of a scalar, but is not what the name specifies. -/
theorem not_parse_refers_date :
    Declarable "Date" ∧ ¬ ∃ t, parse "Movie.released" "Date" .empty = .ok t ∧
      t.reference? = some ("Date", false) := by
  refine ⟨declarable_iff.2 rfl, ?_⟩
  have hparse : parse "Movie.released" "Date" .empty = .ok (.scalar .date {}) := rfl
  rintro ⟨t, h, href⟩
  cases hparse.symm.trans h
  cases href

example : (parse "Movie.cast" "typeof Date?[]" .empty).toOption.bind ValueType.reference? =
    some ("Date", true) := rfl

end Specifier

end TypedRecords
