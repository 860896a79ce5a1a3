import TypedRecords.Types.Specifier
import TypedRecords.Proofs.Results

/-! # The grammar of type specifiers

Which texts specify a type, and with which options. A specifier is read from its end, mark by mark and
array by array; what it is read to prints as a specifier of the same type, and as the one that was read
wherever that one names its base.
-/

namespace TypedRecords

/-! ### Levels -/

namespace TypeOptions

/-- How deep options for items are nested. -/
def depth : TypeOptions → Nat
  | .mk _ _ none => 0
  | .mk _ _ (some items) => items.depth + 1

/-- The options for the items of the items and so forth. There are always some, if only empty ones. -/
def level (o : TypeOptions) : Nat → TypeOptions
  | 0 => o
  | k + 1 => (o.items?.getD .empty).level k

theorem depth_le_zero_iff {o : TypeOptions} : o.depth ≤ 0 ↔ o.items? = none := by
  cases o with
  | mk validators sanitizers items => cases items <;> simp [depth, items?]

theorem depth_le_succ_iff {o : TypeOptions} {n : Nat} :
    o.depth ≤ n + 1 ↔ (o.items?.getD .empty).depth ≤ n := by
  cases o with
  | mk validators sanitizers items => cases items <;> simp [depth, items?, empty]

end TypeOptions

namespace ValueType

/-- The item type of the item type and so forth. -/
def item? : ValueType → Nat → Option ValueType
  | t, 0 => some t
  | .array item _, k + 1 => item.item? k
  | _, _ + 1 => none

/-- A type without validators and sanitizers. -/
def bare : ValueType → ValueType
  | .scalar kind traits => .scalar kind { optional := traits.optional }
  | .array item traits => .array item.bare { optional := traits.optional }
  | .reference name toClass traits => .reference name toClass { optional := traits.optional }

/-- How many arrays a type nests. -/
def arrays : ValueType → Nat
  | .array item _ => item.arrays + 1
  | _ => 0

theorem text_bare (t : ValueType) : t.bare.text = t.text := by
  induction t with
  | scalar kind traits => rfl
  | array item traits ih =>
    rw [bare, text, ih]
    rfl
  | reference name toClass traits => rfl

end ValueType

theorem ScalarKind.ofName?_eq_some_iff {name : String} {kind : ScalarKind} :
    ScalarKind.ofName? name = some kind ↔ name = kind.name := by
  constructor
  · intro h
    have hfound : all.find? (fun kind => kind.name == name) = some kind := h
    have hname := List.find?_some hfound
    exact (beq_iff_eq.1 hname).symm
  · rintro rfl
    cases kind <;> rfl

namespace Specifier

open ValueType.text (mark)

/-! ### The grammar -/

/-- What names a type without items. -/
inductive Named : String → Prop
  | scalar (kind : ScalarKind) : Named kind.name
  | record {name : String} (h : isClassName name.toList = true) : Named name
  | toClass {name : String} (h : isClassName name.toList = true) : Named ("typeof " ++ name)

mutual

/-- The specifiers over some bases, by how many arrays they nest. -/
inductive IsType (Atom : String → Prop) : String → Nat → Prop
  | required {s : String} {n : Nat} (h : IsLevel Atom s n) : IsType Atom s n
  | optional {s : String} {n : Nat} (h : IsLevel Atom s n) : IsType Atom (s ++ "?") n

inductive IsLevel (Atom : String → Prop) : String → Nat → Prop
  | base {s : String} (h : Atom s) : IsLevel Atom s 0
  | array {s : String} {n : Nat} (h : IsType Atom s n) : IsLevel Atom (s ++ "[]") (n + 1)

end

/-! ### Reading -/

/-- The type that a specifier is read to with some options, level by level. -/
inductive Reads : String → TypeOptions → ValueType → Prop
  | scalar {s : String} {o : TypeOptions} {kind : ScalarKind} {optional : Bool}
      (hs : s = kind.name ∨ s = "" ∧ kind = .any) (ho : o.items? = none) :
    Reads (s ++ mark (o.traits optional)) o (.scalar kind (o.traits optional))
  | reference {name : String} {toClass : Bool} {o : TypeOptions} {optional : Bool}
      (hname : isClassName name.toList = true)
      (hkind : toClass = false → ScalarKind.ofName? name = none) (ho : o.items? = none) :
    Reads ((if toClass then "typeof " else "") ++ name ++ mark (o.traits optional)) o
      (.reference name toClass (o.traits optional))
  | array {s : String} {o : TypeOptions} {item : ValueType} {optional : Bool}
      (h : Reads s (o.items?.getD .empty) item) :
    Reads (s ++ "[]" ++ mark (o.traits optional)) o (.array item (o.traits optional))

/-! ### Bases -/

theorem base?_scalar (kind : ScalarKind) (traits : Traits) :
    base? kind.name.toList traits = some (.scalar kind traits) := by
  simp only [base?, String.ofList_toList, ScalarKind.ofName?_eq_some_iff.2 rfl]

theorem ofName?_toClass (name : String) : ScalarKind.ofName? ("typeof " ++ name) = none := by
  cases h : ScalarKind.ofName? ("typeof " ++ name) with
  | none => rfl
  | some kind =>
    have hname := congrArg String.toList (ScalarKind.ofName?_eq_some_iff.1 h)
    rw [String.toList_append] at hname
    cases kind <;> cases hname

theorem dropStart?_of_isClassName {cs : List Char} (h : isClassName cs = true) :
    Text.dropStart? "typeof ".toList cs = none := by
  cases cs with
  | nil => cases h
  | cons c rest =>
    have hne : ¬ 't' = c := by
      rintro rfl
      simp [isClassName] at h
    exact if_neg hne

theorem base?_reference {name : String} {toClass : Bool} (hname : isClassName name.toList = true)
    (hkind : toClass = false → ScalarKind.ofName? name = none) (traits : Traits) :
    base? ((if toClass then "typeof " else "") ++ name).toList traits =
      some (.reference name toClass traits) := by
  cases toClass with
  | true =>
    have hdrop : Text.dropStart? "typeof ".toList ("typeof " ++ name).toList = some name.toList :=
      (Text.dropStart?_eq_some_iff _ _ _).2 (String.toList_append)
    simp only [base?, String.ofList_toList, if_true, ofName?_toClass, hdrop, hname]
  | false =>
    have hdrop := dropStart?_of_isClassName hname
    simp only [base?, Bool.false_eq_true, if_false, String.empty_append, String.ofList_toList,
      hkind rfl, hdrop, hname, if_true]

/-- What a base can be read to. -/
theorem base?_eq_some {cs : List Char} {traits : Traits} {t : ValueType}
    (h : base? cs traits = some t) :
    (∃ kind, String.ofList cs = ScalarKind.name kind ∧ t = .scalar kind traits) ∨
      ∃ name toClass, isClassName name.toList = true ∧
        (toClass = false → ScalarKind.ofName? name = none) ∧
        String.ofList cs = (if toClass then "typeof " else "") ++ name ∧
        t = .reference name toClass traits := by
  unfold base? at h
  cases hkind : ScalarKind.ofName? (String.ofList cs) with
  | some kind =>
    rw [hkind] at h
    cases h
    exact .inl ⟨kind, ScalarKind.ofName?_eq_some_iff.1 hkind, rfl⟩
  | none =>
    rw [hkind] at h
    dsimp only at h
    cases hdrop : Text.dropStart? "typeof ".toList cs with
    | some name =>
      rw [hdrop] at h
      dsimp only at h
      split at h
      · next hname =>
        cases h
        have hcs := (Text.dropStart?_eq_some_iff _ _ _).1 hdrop
        refine .inr ⟨String.ofList name, true, by simpa using hname, by simp, ?_, rfl⟩
        rw [hcs, String.ofList_append, String.ofList_toList]
        rfl
      · cases h
    | none =>
      rw [hdrop] at h
      dsimp only at h
      split at h
      · next hname =>
        cases h
        refine .inr ⟨String.ofList cs, false, by simpa using hname, fun _ => hkind, ?_, rfl⟩
        simp
      · cases h

/-! ### Levels read backwards -/

/-- How a level is read once its mark is taken off. -/
def readBare (place : String) (fuel : Nat) (specifier : String) (bare : List Char)
    (traits : Traits) (o : TypeOptions) : Except Error ValueType :=
  match bare with
  | ']' :: '[' :: item => do
    let item ← parseLevel place fuel item (o.items?.getD .empty)
    pure (.array item traits)
  | bare =>
    if o.items?.isSome then throw (.unexpectedItems place specifier)
    else
      match base? bare.reverse traits with
      | some t => pure t
      | none => throw (.invalidSpecifier place specifier)

variable {place : String} {fuel : Nat} {o : TypeOptions} {t : ValueType}

theorem parseLevel_mark (place : String) (fuel : Nat) (o : TypeOptions) {bare : List Char}
    {optional : Bool} (hbare : optional = false → bare.head? ≠ some '?') :
    ∃ specifier, parseLevel place (fuel + 1) ((if optional then ['?'] else []) ++ bare) o =
      readBare place fuel specifier (if bare.isEmpty then "any".toList.reverse else bare)
        (o.traits optional) o := by
  cases optional with
  | true => cases bare <;> exact ⟨_, rfl⟩
  | false =>
    cases bare with
    | nil => exact ⟨_, rfl⟩
    | cons c rest =>
      have hc : c ≠ '?' := by
        rintro rfl
        exact hbare rfl rfl
      refine ⟨String.ofList (c :: rest).reverse, ?_⟩
      simp only [parseLevel, Bool.false_eq_true, if_false, List.nil_append, List.isEmpty_cons,
        List.cons.injEq, hc, false_and, imp_self, implies_true]
      rfl

theorem exists_mark (reversed : List Char) :
    ∃ optional bare, (optional = false → bare.head? ≠ some '?') ∧
      reversed = (if optional then ['?'] else []) ++ bare := by
  by_cases h : reversed.head? = some '?'
  · cases reversed with
    | nil => cases h
    | cons c rest =>
      cases h
      exact ⟨true, rest, by simp, rfl⟩
  · exact ⟨false, reversed, fun _ => h, rfl⟩

theorem ofList_mark (optional : Bool) (bare : List Char) (o : TypeOptions) :
    String.ofList ((if optional then ['?'] else []) ++ bare).reverse =
      String.ofList bare.reverse ++ mark (o.traits optional) := by
  rw [List.reverse_append, String.ofList_append]
  cases optional <;> rfl

/-! ### Soundness -/

theorem reads_of_readBare {specifier s : String} {bare : List Char} {optional : Bool}
    (ih : ∀ item o t, parseLevel place fuel item o = .ok t →
      Reads (String.ofList item.reverse) o t)
    (hs : s = String.ofList bare.reverse ∨ s = "" ∧ bare = "any".toList.reverse)
    (h : readBare place fuel specifier bare (o.traits optional) o = .ok t) :
    Reads (s ++ mark (o.traits optional)) o t := by
  rcases hs with rfl | ⟨rfl, rfl⟩
  · unfold readBare at h
    split at h
    · next item =>
      obtain ⟨u, hu, hnext⟩ := bind_eq_ok h
      cases hnext
      rw [List.reverse_cons, List.reverse_cons, List.append_assoc, String.ofList_append]
      exact .array (ih _ _ _ hu)
    · split at h
      · cases h
      · next hitems =>
        have ho : o.items? = none := by simpa using hitems
        split at h
        · next u hbase =>
          cases h
          rcases base?_eq_some hbase with ⟨kind, hname, rfl⟩ | ⟨name, toClass, hname, hkind, hs, rfl⟩
          · exact .scalar (.inl hname) ho
          · rw [hs]
            exact .reference hname hkind ho
        · cases h
  · have hany : readBare place fuel specifier "any".toList.reverse (o.traits optional) o =
        if o.items?.isSome then throw (.unexpectedItems place specifier)
        else pure (.scalar .any (o.traits optional)) := rfl
    rw [hany] at h
    split at h
    · cases h
    · next hitems =>
      cases h
      exact .scalar (.inr ⟨rfl, rfl⟩) (by simpa using hitems)

theorem reads_of_parseLevel {reversed : List Char}
    (h : parseLevel place fuel reversed o = .ok t) :
    Reads (String.ofList reversed.reverse) o t := by
  induction fuel generalizing reversed o t with
  | zero => cases h
  | succ fuel ih =>
    obtain ⟨optional, bare, hbare, rfl⟩ := exists_mark reversed
    obtain ⟨specifier, hlevel⟩ := parseLevel_mark place fuel o hbare
    rw [hlevel] at h
    rw [ofList_mark optional bare o]
    refine reads_of_readBare (fun _ _ _ => ih) ?_ h
    cases bare with
    | nil => exact .inr ⟨rfl, rfl⟩
    | cons c rest => exact .inl rfl

/-! ### Completeness -/

theorem readBare_of_base? {specifier : String} {bare : List Char} {traits : Traits}
    (hbare : bare.head? ≠ some ']') (ho : o.items? = none)
    (h : base? bare.reverse traits = some t) :
    readBare place fuel specifier bare traits o = .ok t := by
  unfold readBare
  split
  · exact absurd rfl hbare
  · rw [ho, h]
    rfl

/-- The last character of a name is no mark and ends no array. -/
theorem head?_reverse_of_isClassName {start name : List Char} (h : isClassName name = true) :
    ∃ c, (start ++ name).reverse.head? = some c ∧ c ≠ '?' ∧ c ≠ ']' := by
  have hall : ∀ c ∈ name, (c.isAlphanum || c == '_') = true := by
    cases name with
    | nil => cases h
    | cons first rest =>
      simp only [isClassName, Bool.and_eq_true, List.all_eq_true] at h
      obtain ⟨hupper, hrest⟩ := h
      refine List.forall_mem_cons.2 ⟨?_, hrest⟩
      change (first.isUpper || first.isLower || first.isDigit || first == '_') = true
      rw [hupper]
      rfl
  cases hlast : name.getLast? with
  | none =>
    rw [List.getLast?_eq_none_iff] at hlast
    subst hlast
    cases h
  | some c =>
    have hc := hall c (List.mem_of_getLast? hlast)
    refine ⟨c, by simp [hlast], ?_, ?_⟩ <;>
    · rintro rfl
      cases hc

theorem reverse_mark (s : String) (o : TypeOptions) (optional : Bool) :
    (s ++ mark (o.traits optional)).toList.reverse =
      (if optional then ['?'] else []) ++ s.toList.reverse := by
  rw [String.toList_append, List.reverse_append]
  cases optional
  · rfl
  · simp [mark, TypeOptions.traits]

theorem parseLevel_of_base? {s base : String} {optional : Bool} {c : Char}
    (hs : base = s ∨ s = "" ∧ base = "any") (hlast : base.toList.reverse.head? = some c)
    (hmark : c ≠ '?') (harray : c ≠ ']') (ho : o.items? = none)
    (h : base? base.toList (o.traits optional) = some t) :
    parseLevel place (fuel + 1) (s ++ mark (o.traits optional)).toList.reverse o = .ok t := by
  have hbare : optional = false → s.toList.reverse.head? ≠ some '?' := by
    intro _ hfirst
    rcases hs with rfl | ⟨rfl, -⟩
    · rw [hlast] at hfirst
      exact hmark (Option.some.inj hfirst)
    · cases hfirst
  have hread : (if s.toList.reverse.isEmpty then "any".toList.reverse else s.toList.reverse) =
      base.toList.reverse := by
    rcases hs with rfl | ⟨rfl, rfl⟩
    · cases hbase : base.toList.reverse with
      | nil =>
        rw [hbase] at hlast
        cases hlast
      | cons _ _ => rfl
    · rfl
  obtain ⟨specifier, hlevel⟩ := parseLevel_mark place fuel o hbare
  rw [reverse_mark, hlevel, hread]
  refine readBare_of_base? ?_ ho ?_
  · intro hfirst
    rw [hlast] at hfirst
    exact harray (Option.some.inj hfirst)
  · rw [List.reverse_reverse]
    exact h

theorem parseLevel_of_reads {s : String} (h : Reads s o t) (place : String) {fuel : Nat}
    (hfuel : s.toList.length < fuel) : parseLevel place fuel s.toList.reverse o = .ok t := by
  induction h generalizing fuel with
  | @scalar s o kind optional hs ho =>
    cases fuel with
    | zero => cases hfuel
    | succ fuel =>
      have hname : kind.name = s ∨ s = "" ∧ kind.name = "any" := by
        rcases hs with rfl | ⟨rfl, rfl⟩
        · exact .inl rfl
        · exact .inr ⟨rfl, rfl⟩
      have hlast : ∃ c, kind.name.toList.reverse.head? = some c ∧ c ≠ '?' ∧ c ≠ ']' := by
        cases kind <;> exact ⟨_, rfl, by decide, by decide⟩
      obtain ⟨c, hc, hmark, harray⟩ := hlast
      exact parseLevel_of_base? hname hc hmark harray ho (base?_scalar kind _)
  | @reference name toClass o optional hname hkind ho =>
    cases fuel with
    | zero => cases hfuel
    | succ fuel =>
      have hlast : ∃ c, ((if toClass then "typeof " else "") ++ name).toList.reverse.head? =
          some c ∧ c ≠ '?' ∧ c ≠ ']' := by
        rw [String.toList_append]
        exact head?_reverse_of_isClassName hname
      obtain ⟨c, hc, hmark, harray⟩ := hlast
      exact parseLevel_of_base? (.inl rfl) hc hmark harray ho (base?_reference hname hkind _)
  | @array s o item optional _ ih =>
    cases fuel with
    | zero => cases hfuel
    | succ fuel =>
      have hshorter : s.toList.length < fuel := by
        have hbrackets : "[]".toList.length = 2 := rfl
        simp only [String.toList_append, List.length_append, hbrackets] at hfuel
        omega
      have hreverse : (s ++ "[]").toList.reverse = ']' :: '[' :: s.toList.reverse := by
        rw [String.toList_append, List.reverse_append]
        rfl
      have hbare : optional = false → (']' :: '[' :: s.toList.reverse).head? ≠ some '?' := by
        intro _ hfirst
        cases hfirst
      obtain ⟨specifier, hlevel⟩ := parseLevel_mark place fuel o hbare
      rw [reverse_mark, hreverse, hlevel, List.isEmpty_cons, if_neg Bool.false_ne_true]
      simp only [readBare, ih hshorter]
      rfl

theorem parse_iff_reads {place s : String} : parse place s o = .ok t ↔ Reads s o t := by
  constructor
  · intro h
    have hreads := reads_of_parseLevel h
    rwa [List.reverse_reverse, String.ofList_toList] at hreads
  · intro h
    exact parseLevel_of_reads h place (Nat.lt_succ_self _)

/-! ### Readings and the grammar -/

/-- What may stand as a base: nothing, which means `any`, or a name. -/
def Base (s : String) : Prop := s = "" ∨ Named s

theorem Named.ne_empty {s : String} (h : Named s) : s ≠ "" := by
  cases h with
  | scalar kind => cases kind <;> decide
  | record h =>
    rintro rfl
    cases h
  | @toClass name h =>
    intro hempty
    have hlist := congrArg String.toList hempty
    rw [String.toList_append] at hlist
    cases hlist

theorem IsLevel.marked {Atom : String → Prop} {s : String} {n : Nat} (h : IsLevel Atom s n)
    (o : TypeOptions) (optional : Bool) : IsType Atom (s ++ mark (o.traits optional)) n := by
  cases optional with
  | true => exact .optional h
  | false =>
    have hmark : s ++ mark (o.traits false) = s := String.append_empty
    rw [hmark]
    exact .required h

theorem Reads.isType {s : String} (h : Reads s o t) : IsType Base s t.arrays := by
  induction h with
  | @scalar s o kind optional hs ho =>
    have hbase : Base s := by
      rcases hs with rfl | ⟨rfl, -⟩
      · exact .inr (.scalar kind)
      · exact .inl rfl
    exact (IsLevel.base hbase).marked o optional
  | @reference name toClass o optional hname hkind ho =>
    have hbase : Base ((if toClass then "typeof " else "") ++ name) := by
      cases toClass with
      | true => exact .inr (.toClass hname)
      | false =>
        rw [if_neg Bool.false_ne_true, String.empty_append]
        exact .inr (.record hname)
    exact (IsLevel.base hbase).marked o optional
  | @array s o item optional _ ih => exact (IsLevel.array ih).marked o optional

theorem Reads.depth_le {s : String} (h : Reads s o t) : o.depth ≤ t.arrays := by
  induction h with
  | scalar _ ho => exact TypeOptions.depth_le_zero_iff.2 ho
  | reference _ _ ho => exact TypeOptions.depth_le_zero_iff.2 ho
  | array _ ih => exact TypeOptions.depth_le_succ_iff.2 ih

theorem Base.exists_reads {s : String} (h : Base s) (ho : o.items? = none) (optional : Bool) :
    ∃ t, Reads (s ++ mark (o.traits optional)) o t ∧ t.arrays = 0 ∧
      (s ≠ "" → t.text = s ++ mark (o.traits optional)) := by
  rcases h with rfl | h
  · exact ⟨_, .scalar (.inr ⟨rfl, rfl⟩) ho, rfl, fun hs => absurd rfl hs⟩
  · cases h with
    | scalar kind => exact ⟨_, .scalar (.inl rfl) ho, rfl, fun _ => rfl⟩
    | record hname =>
      cases hkind : ScalarKind.ofName? s with
      | some kind =>
        obtain rfl := ScalarKind.ofName?_eq_some_iff.1 hkind
        exact ⟨_, .scalar (.inl rfl) ho, rfl, fun _ => rfl⟩
      | none =>
        have hreads : Reads ((if false then "typeof " else "") ++ s ++ mark (o.traits optional)) o
            (.reference s false (o.traits optional)) := .reference hname (fun _ => hkind) ho
        have htext : (if false then "typeof " else "") ++ s = s := String.empty_append
        rw [htext] at hreads
        refine ⟨_, hreads, rfl, fun _ => ?_⟩
        rw [ValueType.text, htext]
    | @toClass name hname =>
      have hkind : true = false → ScalarKind.ofName? name = none := by
        intro h
        cases h
      exact ⟨_, .reference hname hkind ho, rfl, fun _ => rfl⟩

mutual

theorem IsType.exists_reads {Atom : String → Prop} (hbase : ∀ s, Atom s → Base s) {s : String}
    {n : Nat} {o : TypeOptions} (hdepth : o.depth ≤ n) :
    IsType Atom s n →
      ∃ t, Reads s o t ∧ t.arrays = n ∧ ((∀ s, Atom s → s ≠ "") → t.text = s)
  | .required h => by
    have hlevel := h.exists_reads hbase hdepth false
    have hmark : s ++ mark (o.traits false) = s := String.append_empty
    rwa [hmark] at hlevel
  | .optional h => h.exists_reads hbase hdepth true

theorem IsLevel.exists_reads {Atom : String → Prop} (hbase : ∀ s, Atom s → Base s) {s : String}
    {n : Nat} {o : TypeOptions} (hdepth : o.depth ≤ n) (optional : Bool) :
    IsLevel Atom s n →
      ∃ t, Reads (s ++ mark (o.traits optional)) o t ∧ t.arrays = n ∧
        ((∀ s, Atom s → s ≠ "") → t.text = s ++ mark (o.traits optional))
  | .base h => by
    have ho := TypeOptions.depth_le_zero_iff.1 hdepth
    obtain ⟨t, hreads, harrays, htext⟩ := (hbase s h).exists_reads ho optional
    exact ⟨t, hreads, harrays, fun hnonempty => htext (hnonempty s h)⟩
  | .array h => by
    obtain ⟨item, hreads, harrays, htext⟩ :=
      h.exists_reads hbase (TypeOptions.depth_le_succ_iff.1 hdepth)
    refine ⟨_, .array hreads, congrArg (· + 1) harrays, fun hnonempty => ?_⟩
    rw [ValueType.text, htext hnonempty]

end

/-! ### What is read -/

/-- The options of a level end up on the type at that level. -/
theorem Reads.traits {s : String} (h : Reads s o t) (k : Nat) {u : ValueType}
    (hu : t.item? k = some u) : ∃ optional, u.traits = (o.level k).traits optional := by
  induction h generalizing k with
  | scalar | reference =>
    cases k with
    | zero =>
      cases hu
      exact ⟨_, rfl⟩
    | succ k => cases hu
  | array _ ih =>
    cases k with
    | zero =>
      cases hu
      exact ⟨_, rfl⟩
    | succ k => exact ih k hu

/-- Both the specifier that was read and the text of the type are read to the bare type. -/
theorem Reads.bare {s : String} (h : Reads s o t) :
    Reads s .empty t.bare ∧ Reads t.text .empty t.bare := by
  induction h with
  | @scalar s o kind optional hs _ =>
    have hbase {base : String} (hbase : base = kind.name ∨ base = "" ∧ kind = .any) :
        Reads (base ++ mark (TypeOptions.empty.traits optional)) .empty
          (.scalar kind (TypeOptions.empty.traits optional)) := .scalar hbase rfl
    exact ⟨hbase hs, hbase (.inl rfl)⟩
  | @reference name toClass o optional hname hkind _ =>
    have hbase : Reads ((if toClass then "typeof " else "") ++ name ++
        mark (TypeOptions.empty.traits optional)) .empty
        (.reference name toClass (TypeOptions.empty.traits optional)) := .reference hname hkind rfl
    exact ⟨hbase, hbase⟩
  | @array s o item optional _ ih =>
    have harray {s : String} (hitem : Reads s (TypeOptions.empty.items?.getD .empty) item.bare) :
        Reads (s ++ "[]" ++ mark (TypeOptions.empty.traits optional)) .empty
          (.array item.bare (TypeOptions.empty.traits optional)) := .array hitem
    exact ⟨harray ih.1, harray ih.2⟩

theorem Reads.unique {s : String} {u : ValueType} (h : Reads s o t) (hu : Reads s o u) : t = u := by
  have ht : parse s s o = .ok t := parse_iff_reads.2 h
  rw [parse_iff_reads.2 hu] at ht
  cases ht
  rfl

theorem Reads.text_eq {s : String} {n : Nat} (h : Reads s o t) (htype : IsType Named s n) :
    t.text = s := by
  have hempty : TypeOptions.empty.depth ≤ n := Nat.zero_le n
  obtain ⟨u, hu, -, htext⟩ := htype.exists_reads (fun _ => .inr) hempty
  have hbare : t.bare = u := h.bare.1.unique hu
  rw [← t.text_bare, hbare]
  exact htext fun _ => Named.ne_empty

/-- A specifier nests its arrays in one way. -/
theorem IsType.unique {s : String} {m n : Nat} (hm : IsType Base s m) (hn : IsType Base s n) :
    m = n := by
  have hempty (k : Nat) : TypeOptions.empty.depth ≤ k := Nat.zero_le k
  obtain ⟨t, ht, rfl, -⟩ := hm.exists_reads (fun _ => id) (hempty m)
  obtain ⟨u, hu, rfl, -⟩ := hn.exists_reads (fun _ => id) (hempty n)
  rw [ht.unique hu]

end Specifier

theorem ValueType.exists_item? {t : ValueType} {k : Nat} (h : k ≤ t.arrays) :
    ∃ u, t.item? k = some u := by
  induction k generalizing t with
  | zero => cases t <;> exact ⟨_, rfl⟩
  | succ k ih =>
    cases t with
    | array item traits => exact ih (Nat.le_of_succ_le_succ h)
    | _ => cases h

namespace Specifier

/-- What is known of a type by the specifier and the options that it comes from. -/
structure Parsed (s : String) (o : TypeOptions) (t : ValueType) : Prop where
  /-- There is a level for all options. -/
  reaches : ∀ k ≤ o.depth, ∃ u, t.item? k = some u
  /-- A level carries what the options of the level say, and nothing else. -/
  carries : ∀ k u, t.item? k = some u →
    u.traits.validators = (o.level k).validators ∧ u.traits.sanitizers = (o.level k).sanitizers
  /-- The text of the type is read to the type, but for what it carries. -/
  reread : ∀ place, parse place t.text .empty = .ok t.bare
  reprinted : t.bare.text = t.text
  /-- A specifier that names its base is the text of the type. -/
  canonical : (∃ depth, IsType Named s depth) → t.text = s

/-- The specifiers of the grammar are read, with options that nest items no deeper than they nest
arrays, and nothing else is. -/
theorem parse_exactly (place s : String) (o : TypeOptions) :
    ((∃ t, parse place s o = .ok t) ↔ ∃ depth, IsType Base s depth ∧ o.depth ≤ depth) ∧
      ∀ t, parse place s o = .ok t → Parsed s o t := by
  constructor
  · constructor
    · rintro ⟨t, h⟩
      have hreads := parse_iff_reads.1 h
      exact ⟨t.arrays, hreads.isType, hreads.depth_le⟩
    · rintro ⟨depth, htype, hdepth⟩
      obtain ⟨t, hreads, -⟩ := htype.exists_reads (fun _ => id) hdepth
      exact ⟨t, parse_iff_reads.2 hreads⟩
  · intro t h
    have hreads := parse_iff_reads.1 h
    constructor
    · intro k hk
      exact ValueType.exists_item? (hk.trans hreads.depth_le)
    · intro k u hu
      obtain ⟨optional, htraits⟩ := hreads.traits k hu
      rw [htraits]
      exact ⟨rfl, rfl⟩
    · intro place
      exact parse_iff_reads.2 hreads.bare.2
    · exact t.text_bare
    · rintro ⟨depth, htype⟩
      exact hreads.text_eq htype

/-- Options for a list and for what is in it. -/
def listOptions : TypeOptions :=
  .mk [{ rule := .notEmpty }] [.compact] (some (.mk [] [.trim] none))

theorem parse_exactly_titles :
    Parsed "string?[]" listOptions
        (.array (.scalar .string { optional := true, sanitizers := [.trim] })
          { validators := [{ rule := .notEmpty }], sanitizers := [.compact] }) ∧
      ∃ depth, IsType Base "string?[]" depth ∧ listOptions.depth ≤ depth := by
  have h : parse "Movie.titles" "string?[]" listOptions =
      .ok (.array (.scalar .string { optional := true, sanitizers := [.trim] })
        { validators := [{ rule := .notEmpty }], sanitizers := [.compact] }) := rfl
  obtain ⟨haccepts, hparsed⟩ := parse_exactly "Movie.titles" "string?[]" listOptions
  exact ⟨hparsed _ h, haccepts.1 ⟨_, h⟩⟩

-- Without a base a specifier means any, which is what its type is printed with.
example : (parse "Movie.parts" "[]?" .empty).toOption.map ValueType.text = some "any[]?" := rfl

end Specifier

end TypedRecords
