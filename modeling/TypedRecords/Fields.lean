/-! # Named fields

Named fields in the order in which their names first came. A name that is written again keeps its
place; removing a name keeps the order of the others. Objects, documents, selectors and the
attributes of a class are all held this way.
-/

namespace TypedRecords

/-- Entries by name, in order of first insertion. -/
abbrev Fields (α : Type) := List (String × α)

namespace Fields

variable {α β : Type}

/-! ### Reading -/

/-- The entry under a name. -/
def get? (name : String) : Fields α → Option α
  | [] => none
  | (key, value) :: rest => if key = name then some value else get? name rest

/-- Whether there is an entry under a name. -/
def contains (name : String) (fields : Fields α) : Bool :=
  (get? name fields).isSome

/-- The names, in order. -/
def keys (fields : Fields α) : List String :=
  fields.map Prod.fst

/-- The entries without their names. -/
def values (fields : Fields α) : List α :=
  fields.map Prod.snd

/-- No name occurs twice. Every operation below keeps this. -/
def Distinct (fields : Fields α) : Prop :=
  (keys fields).Nodup

/-! ### Writing -/

/-- Writes an entry: in place if the name is there, else at the end. -/
def insert (name : String) (value : α) : Fields α → Fields α
  | [] => [(name, value)]
  | (key, old) :: rest =>
    if key = name then (key, value) :: rest else (key, old) :: insert name value rest

/-- Removes an entry. -/
def erase (name : String) : Fields α → Fields α
  | [] => []
  | (key, value) :: rest => if key = name then rest else (key, value) :: erase name rest

/-- Writes every entry of the second, in its order. -/
def insertAll (fields added : Fields α) : Fields α :=
  added.foldl (fun acc entry => insert entry.1 entry.2 acc) fields

/-- The fields written entry by entry: a repeated name has its last value in its first place. -/
def ofEntries (entries : List (String × α)) : Fields α :=
  insertAll [] entries

/-- Applies a function to every entry. -/
def mapValues (f : α → β) (fields : Fields α) : Fields β :=
  fields.map fun entry => (entry.1, f entry.2)

/-! ### What is read after writing -/

@[simp] theorem get?_nil (name : String) : get? name ([] : Fields α) = none := rfl

@[simp] theorem get?_insert_self (name : String) (value : α) (fields : Fields α) :
    get? name (insert name value fields) = some value := by
  induction fields with
  | nil => simp [insert, get?]
  | cons entry rest ih =>
    obtain ⟨key, old⟩ := entry
    by_cases h : key = name <;> simp [insert, get?, h, ih]

theorem get?_insert_of_ne {name other : String} (h : other ≠ name) (value : α)
    (fields : Fields α) : get? other (insert name value fields) = get? other fields := by
  induction fields with
  | nil => simp [insert, get?, Ne.symm h]
  | cons entry rest ih =>
    obtain ⟨key, old⟩ := entry
    by_cases hk : key = name
    · subst hk; simp [insert, get?, Ne.symm h]
    · by_cases ho : key = other
      · subst ho; simp [insert, get?, hk]
      · simp [insert, get?, hk, ho, ih]

theorem get?_erase_of_ne {name other : String} (h : other ≠ name) (fields : Fields α) :
    get? other (erase name fields) = get? other fields := by
  induction fields with
  | nil => rfl
  | cons entry rest ih =>
    obtain ⟨key, old⟩ := entry
    by_cases hk : key = name
    · subst hk; simp [erase, get?, Ne.symm h]
    · by_cases ho : key = other
      · subst ho; simp [erase, get?, hk]
      · simp [erase, get?, hk, ho, ih]

theorem get?_eq_none_iff (name : String) (fields : Fields α) :
    get? name fields = none ↔ name ∉ keys fields := by
  induction fields with
  | nil => simp [keys]
  | cons entry rest ih =>
    obtain ⟨key, value⟩ := entry
    by_cases h : key = name
    · simp [get?, keys, h]
    · simpa [get?, keys, h, Ne.symm h] using ih

theorem keys_insert_of_mem {name : String} {fields : Fields α} (h : name ∈ keys fields)
    (value : α) : keys (insert name value fields) = keys fields := by
  induction fields with
  | nil => simp [keys] at h
  | cons entry rest ih =>
    obtain ⟨key, old⟩ := entry
    by_cases hk : key = name
    · simp [insert, keys, hk]
    · have : name ∈ keys rest := by simpa [keys, Ne.symm hk] using h
      simpa [insert, keys, hk] using ih this

theorem keys_insert_of_not_mem {name : String} {fields : Fields α} (h : name ∉ keys fields)
    (value : α) : keys (insert name value fields) = keys fields ++ [name] := by
  induction fields with
  | nil => rfl
  | cons entry rest ih =>
    obtain ⟨key, old⟩ := entry
    have hk : key ≠ name := fun e => h (by simp [keys, e])
    have hr : name ∉ keys rest := fun m => h (by simp [keys] at m ⊢; exact Or.inr m)
    simpa [insert, keys, hk] using ih hr

theorem Distinct.insert {fields : Fields α} (h : Distinct fields) (name : String) (value : α) :
    Distinct (insert name value fields) := by
  by_cases hm : name ∈ keys fields
  · simpa [Distinct, keys_insert_of_mem hm] using h
  · rw [Distinct, keys_insert_of_not_mem hm]
    exact List.nodup_append.2 ⟨h, by simp, by rintro a ha b hb rfl; simp at hb; exact hm (hb ▸ ha)⟩

theorem get?_mapValues (f : α → β) (name : String) (fields : Fields α) :
    get? name (mapValues f fields) = (get? name fields).map f := by
  induction fields with
  | nil => rfl
  | cons entry rest ih =>
    obtain ⟨key, value⟩ := entry
    by_cases h : key = name
    · simp [mapValues, get?, h]
    · simpa [mapValues, get?, h] using ih

end Fields

end TypedRecords
