import Mathlib.Data.List.Induction
import TypedRecords.Document.Path

/-! # Paths of names

A path that is joined from proper names falls into these names again, so reading it goes down one
object for each of them.
-/

namespace TypedRecords

/-! ### Cutting -/

theorem Text.cutAt_of_not_mem {mark : Char} {cs : List Char} (h : mark ∉ cs) :
    Text.cutAt mark cs = [cs] := by
  induction cs with
  | nil => rfl
  | cons c rest ih =>
    have hc : c ≠ mark := fun e => h (by simp [e])
    have hr : mark ∉ rest := fun m => h (List.mem_cons_of_mem _ m)
    simp [Text.cutAt, ih hr, hc]

theorem Text.cutAt_append (mark : Char) (cs ds : List Char) :
    Text.cutAt mark (cs ++ mark :: ds) = Text.cutAt mark cs ++ Text.cutAt mark ds := by
  induction cs with
  | nil =>
    cases h : Text.cutAt mark ds with
    | nil => exact absurd h (Text.cutAt_ne_nil mark ds)
    | cons piece pieces => simp [Text.cutAt, h]
  | cons c rest ih =>
    cases h : Text.cutAt mark rest with
    | nil => exact absurd h (Text.cutAt_ne_nil mark rest)
    | cons piece pieces =>
      have hcut : Text.cutAt mark (rest ++ mark :: ds) =
          piece :: (pieces ++ Text.cutAt mark ds) := by rw [ih, h, List.cons_append]
      by_cases hc : c = mark <;> simp [Text.cutAt, hcut, h, hc]

namespace Path

/-! ### Proper names -/

/-- A name that stands for one object level: not empty, and without a point. -/
def IsName (name : String) : Prop := name ≠ "" ∧ '.' ∉ name.toList

instance (name : String) : Decidable (IsName name) :=
  inferInstanceAs (Decidable (name ≠ "" ∧ '.' ∉ name.toList))

/-- The path that goes through the given names. -/
def ofNames (names : List String) : String := names.foldl join ""

@[simp] theorem ofNames_nil : ofNames [] = "" := rfl

theorem join_ofNames (names : List String) (name : String) :
    join (ofNames names) name = ofNames (names ++ [name]) := by
  simp [ofNames, List.foldl_append]

theorem join_empty (name : String) : join "" name = name := by simp [join]

theorem join_ne_empty {name : String} (h : name ≠ "") (path : String) : join path name ≠ "" := by
  unfold join
  split
  · exact h
  · intro e
    have hlist := congrArg String.toList e
    simp at hlist

theorem ofNames_ne_empty {names : List String} (hn : names ≠ [])
    (h : ∀ name ∈ names, IsName name) : ofNames names ≠ "" := by
  obtain ⟨start, last, rfl⟩ : ∃ start last, names = start ++ [last] :=
    ⟨names.dropLast, names.getLast hn, (List.dropLast_concat_getLast hn).symm⟩
  rw [← join_ofNames]
  exact join_ne_empty (h last (by simp)).1 _

/-! ### Segments -/

theorem segments_of_isName {name : String} (h : IsName name) : segments name = [name] := by
  simp [segments, Text.cutAt_of_not_mem h.2]

theorem segments_join {path name : String} (hp : path ≠ "") (h : IsName name) :
    segments (join path name) = segments path ++ [name] := by
  have hlist : (join path name).toList = path.toList ++ '.' :: name.toList := by
    simp [join, hp]
  simp [segments, hlist, Text.cutAt_append, Text.cutAt_of_not_mem h.2]

theorem segments_ofNames {names : List String} (hn : names ≠ [])
    (h : ∀ name ∈ names, IsName name) : segments (ofNames names) = names := by
  induction names using List.reverseRecOn with
  | nil => exact absurd rfl hn
  | append_singleton start last ih =>
    have hlast : IsName last := h last (by simp)
    have hstart : ∀ name ∈ start, IsName name := fun name m => h name (by simp [m])
    rw [← join_ofNames]
    by_cases hs : start = []
    · subst hs
      simpa [join_empty] using segments_of_isName hlast
    · rw [segments_join (ofNames_ne_empty hs hstart) hlast, ih hs hstart]

theorem ofNames_injective {names others : List String} (hn : names ≠ []) (ho : others ≠ [])
    (h : ∀ name ∈ names, IsName name) (h' : ∀ name ∈ others, IsName name)
    (e : ofNames names = ofNames others) : names = others := by
  rw [← segments_ofNames hn h, ← segments_ofNames ho h', e]

end Path

/-! ### Reading -/

namespace Value

/-- What stands under a name of an object; undefined if nothing does, or in anything else. -/
def field (v : Value) (name : String) : Value :=
  match v with
  | .object fields => (Fields.get? name fields).getD .undefined
  | _ => .undefined

theorem foldl_field_undefined (names : List String) :
    names.foldl field .undefined = .undefined := by
  induction names with
  | nil => rfl
  | cons name rest ih => exact ih

end Value

namespace Path

theorem getD_getAlong (names : List String) (v : Value) :
    (getAlong names v).getD .undefined = names.foldl Value.field v := by
  induction names generalizing v with
  | nil => rfl
  | cons name rest ih =>
    cases v with
    | object fields =>
      cases hf : Fields.get? name fields with
      | none => simp [getAlong, Value.asObject?, Value.field, hf, Value.foldl_field_undefined]
      | some inner => simpa [getAlong, Value.asObject?, Value.field, hf] using ih inner
    | _ => simp [getAlong, Value.asObject?, Value.field, Value.foldl_field_undefined]

theorem get?_eq_getAlong {path : String} (h : path ≠ "") (v : Value) :
    get? v path = getAlong (segments path) v := by
  simp [get?, h]

/-- Reading a path of proper names goes down one level for each name. -/
theorem get_ofNames {names : List String} (h : ∀ name ∈ names, IsName name) (v : Value) :
    get v (ofNames names) = names.foldl Value.field v := by
  by_cases hn : names = []
  · subst hn
    simp [get, get?]
  · rw [get, get?_eq_getAlong (ofNames_ne_empty hn h), segments_ofNames hn h, getD_getAlong]

end Path

end TypedRecords
