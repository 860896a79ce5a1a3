import Mathlib.Data.List.Perm.Subperm
import Mathlib.Data.List.Nodup
import TypedRecords.Fields

/-! # Laws of named fields

What the entries are after writing and removing, and how reading by name and membership agree where
no name occurs twice.
-/

namespace TypedRecords.Fields

variable {α β : Type} {name other : String} {value : α} {fields : Fields α}

/-! ### Names -/

instance (fields : Fields α) : Decidable (Distinct fields) :=
  inferInstanceAs (Decidable (keys fields).Nodup)

theorem mem_keys_of_mem (h : (name, value) ∈ fields) : name ∈ keys fields :=
  List.mem_map.2 ⟨(name, value), h, rfl⟩

theorem mem_keys_iff : name ∈ keys fields ↔ ∃ value, get? name fields = some value := by
  have h := get?_eq_none_iff name fields
  cases hf : get? name fields with
  | none => simp [h.1 hf]
  | some value =>
    have hm : name ∈ keys fields := by
      by_contra hn
      rw [h.2 hn] at hf
      cases hf
    simp [hm]

theorem contains_iff : contains name fields = true ↔ name ∈ keys fields := by
  rw [contains, Option.isSome_iff_exists, mem_keys_iff]

/-! ### Membership -/

theorem mem_of_get? (h : get? name fields = some value) : (name, value) ∈ fields := by
  induction fields with
  | nil => cases h
  | cons entry rest ih =>
    obtain ⟨key, old⟩ := entry
    by_cases hk : key = name
    · simp only [get?, hk, if_true, Option.some.injEq] at h
      simp [hk, h]
    · simp only [get?, hk, if_false] at h
      exact List.mem_cons_of_mem _ (ih h)

theorem get?_of_mem (hd : Distinct fields) (h : (name, value) ∈ fields) :
    get? name fields = some value := by
  induction fields with
  | nil => cases h
  | cons entry rest ih =>
    obtain ⟨key, old⟩ := entry
    obtain ⟨hkey, hrest⟩ := List.nodup_cons.1 hd
    rcases List.mem_cons.1 h with heq | hmem
    · cases heq
      simp [get?]
    · have hk : key ≠ name := by
        rintro rfl
        exact hkey (mem_keys_of_mem hmem)
      simp only [get?, hk, if_false]
      exact ih hrest hmem

theorem distinct_cons {entry : String × α} :
    Distinct (entry :: fields) ↔ entry.1 ∉ keys fields ∧ Distinct fields :=
  List.nodup_cons

theorem get?_append (name : String) (fields added : Fields α) :
    get? name (fields ++ added) = (get? name fields).or (get? name added) := by
  induction fields with
  | nil => rfl
  | cons entry rest ih =>
    obtain ⟨key, old⟩ := entry
    by_cases hk : key = name
    · simp [get?, hk]
    · simpa [get?, hk] using ih

theorem get?_filter {p : String × α → Bool} (hp : ∀ value, p (name, value) = true) :
    get? name (fields.filter p) = get? name fields := by
  induction fields with
  | nil => rfl
  | cons entry rest ih =>
    obtain ⟨key, old⟩ := entry
    by_cases hk : key = name
    · subst hk
      simp [get?, hp]
    · by_cases hkept : p (key, old) = true
      · simpa [get?, hk, hkept] using ih
      · simpa [get?, hk, hkept] using ih

theorem mem_insert {entry : String × α} (h : entry ∈ insert name value fields) :
    entry ∈ fields ∨ entry = (name, value) := by
  induction fields with
  | nil => exact .inr (List.mem_singleton.1 h)
  | cons first rest ih =>
    obtain ⟨key, old⟩ := first
    by_cases hk : key = name
    · simp only [insert, hk, if_true] at h
      rcases List.mem_cons.1 h with heq | hmem
      · exact .inr heq
      · exact .inl (List.mem_cons_of_mem _ hmem)
    · simp only [insert, hk, if_false] at h
      rcases List.mem_cons.1 h with heq | hmem
      · exact .inl (heq ▸ List.mem_cons_self)
      · rcases ih hmem with hmem | heq
        · exact .inl (List.mem_cons_of_mem _ hmem)
        · exact .inr heq

theorem mem_insertAll {entry : String × α} {added : Fields α}
    (h : entry ∈ insertAll fields added) : entry ∈ fields ∨ entry ∈ added := by
  induction added generalizing fields with
  | nil => exact .inl h
  | cons first rest ih =>
    rcases ih h with hmem | hmem
    · rcases mem_insert hmem with hmem | rfl
      · exact .inl hmem
      · exact .inr List.mem_cons_self
    · exact .inr (List.mem_cons_of_mem _ hmem)

theorem mem_keys_insert :
    other ∈ keys (insert name value fields) ↔ other = name ∨ other ∈ keys fields := by
  by_cases h : name ∈ keys fields
  · rw [keys_insert_of_mem h]
    constructor
    · exact .inr
    · rintro (rfl | hmem)
      · exact h
      · exact hmem
  · rw [keys_insert_of_not_mem h, List.mem_append, List.mem_singleton, or_comm]

theorem mem_keys_insertAll {added : Fields α} :
    other ∈ keys (insertAll fields added) ↔ other ∈ keys fields ∨ other ∈ keys added := by
  induction added generalizing fields with
  | nil => simp [insertAll, keys]
  | cons entry rest ih =>
    have hkeys : keys (entry :: rest) = entry.1 :: keys rest := rfl
    have hfold : insertAll fields (entry :: rest) =
        insertAll (insert entry.1 entry.2 fields) rest := rfl
    rw [hfold, ih, mem_keys_insert, hkeys, List.mem_cons]
    tauto

theorem erase_sublist (name : String) (fields : Fields α) :
    (erase name fields).Sublist fields := by
  induction fields with
  | nil => exact .slnil
  | cons first rest ih =>
    obtain ⟨key, old⟩ := first
    by_cases hk : key = name
    · simp [erase, hk]
    · simpa [erase, hk] using ih

theorem Distinct.erase (h : Distinct fields) (name : String) : Distinct (erase name fields) :=
  h.sublist ((erase_sublist name fields).map Prod.fst)

theorem get?_erase_self (h : Distinct fields) (name : String) :
    get? name (Fields.erase name fields) = none := by
  induction fields with
  | nil => rfl
  | cons first rest ih =>
    obtain ⟨key, old⟩ := first
    obtain ⟨hkey, hrest⟩ := distinct_cons.1 h
    by_cases hk : key = name
    · subst hk
      simpa [Fields.erase] using (get?_eq_none_iff _ _).2 hkey
    · simpa [Fields.erase, get?, hk] using ih hrest

theorem erase_of_not_mem (h : name ∉ keys fields) : erase name fields = fields := by
  induction fields with
  | nil => rfl
  | cons first rest ih =>
    obtain ⟨key, old⟩ := first
    have hk : key ≠ name := by
      rintro rfl
      exact h List.mem_cons_self
    have hr : name ∉ keys rest := fun hm => h (List.mem_cons_of_mem _ hm)
    simp [erase, hk, ih hr]

theorem insert_of_not_mem (h : name ∉ keys fields) (value : α) :
    insert name value fields = fields ++ [(name, value)] := by
  induction fields with
  | nil => rfl
  | cons first rest ih =>
    obtain ⟨key, old⟩ := first
    have hk : key ≠ name := by
      rintro rfl
      exact h List.mem_cons_self
    have hr : name ∉ keys rest := fun hm => h (List.mem_cons_of_mem _ hm)
    simp [insert, hk, ih hr]

/-! ### Writing twice -/

theorem insert_insert_self (name : String) (first second : α) (fields : Fields α) :
    insert name second (insert name first fields) = insert name second fields := by
  induction fields with
  | nil => simp [insert]
  | cons entry rest ih =>
    obtain ⟨key, old⟩ := entry
    by_cases hk : key = name <;> simp [insert, hk, ih]

theorem insert_get? (h : get? name fields = some value) : insert name value fields = fields := by
  induction fields with
  | nil => cases h
  | cons entry rest ih =>
    obtain ⟨key, old⟩ := entry
    by_cases hk : key = name
    · simp only [get?, hk, if_true, Option.some.injEq] at h
      simp [insert, hk, h]
    · simp only [get?, hk, if_false] at h
      simp [insert, hk, ih h]

theorem insert_comm_of_mem (hne : name ≠ other) (h : name ∈ keys fields) (first second : α) :
    insert name first (insert other second fields) =
      insert other second (insert name first fields) := by
  induction fields with
  | nil => cases h
  | cons entry rest ih =>
    obtain ⟨key, old⟩ := entry
    by_cases hk : key = name
    · have hko : key ≠ other := hk ▸ hne
      simp [insert, hk, hne]
    · have hr : name ∈ keys rest := by
        simpa [keys, Ne.symm hk] using h
      by_cases hko : key = other
      · simp [insert, hko, hne.symm]
      · simp [insert, hk, hko, ih hr]

theorem erase_insert_comm (hne : name ≠ other) (value : α) (fields : Fields α) :
    erase name (insert other value fields) = insert other value (erase name fields) := by
  induction fields with
  | nil => simp [insert, erase, hne.symm]
  | cons entry rest ih =>
    obtain ⟨key, old⟩ := entry
    by_cases hk : key = name
    · have hko : key ≠ other := hk ▸ hne
      simp [insert, erase, hk, hne]
    · by_cases hko : key = other
      · simp [insert, erase, hko, hne.symm]
      · simp [insert, erase, hk, hko, ih]

theorem erase_erase_comm (hne : name ≠ other) (fields : Fields α) :
    erase name (erase other fields) = erase other (erase name fields) := by
  induction fields with
  | nil => rfl
  | cons entry rest ih =>
    obtain ⟨key, old⟩ := entry
    by_cases hk : key = name
    · simp [erase, hk, hne]
    · by_cases hko : key = other
      · simp [erase, hko, hne.symm]
      · simp [erase, hk, hko, ih]

/-! ### Writing or removing -/

/-- Writes an entry, or removes it. -/
def assign (name : String) : Option α → Fields α → Fields α
  | some value, fields => insert name value fields
  | none, fields => erase name fields

theorem get?_assign_of_ne (h : other ≠ name) (entry : Option α) (fields : Fields α) :
    get? other (assign name entry fields) = get? other fields := by
  cases entry with
  | some value => exact get?_insert_of_ne h value fields
  | none => exact get?_erase_of_ne h fields

theorem get?_assign_self (hd : Distinct fields) (name : String) (entry : Option α) :
    get? name (assign name entry fields) = entry := by
  cases entry with
  | some value => exact get?_insert_self name value fields
  | none => exact get?_erase_self hd name

theorem assign_get? (name : String) (fields : Fields α) :
    assign name (get? name fields) fields = fields := by
  cases h : get? name fields with
  | some value => exact insert_get? h
  | none => exact erase_of_not_mem ((get?_eq_none_iff name fields).1 h)

theorem Distinct.assign (h : Distinct fields) (name : String) (entry : Option α) :
    Distinct (assign name entry fields) := by
  cases entry with
  | some value => exact h.insert name value
  | none => exact h.erase name

/-- Two entries can be assigned in either order, unless both are added at the end. -/
theorem assign_comm (hne : name ≠ other) {first : Option α}
    (h : ∀ value, first = some value → name ∈ keys fields) (second : Option α) :
    assign name first (assign other second fields) =
      assign other second (assign name first fields) := by
  cases first with
  | none =>
    cases second with
    | none => exact erase_erase_comm hne fields
    | some value => exact erase_insert_comm hne value fields
  | some value =>
    cases second with
    | none => exact (erase_insert_comm hne.symm value fields).symm
    | some value' => exact insert_comm_of_mem hne (h value rfl) value value'

/-! ### Fields entry by entry -/

theorem forall₂_iff_getElem? {R : α → β → Prop} {as : List α} {bs : List β} :
    List.Forall₂ R as bs ↔ as.length = bs.length ∧
      ∀ (i : Nat) a b, as[i]? = some a → bs[i]? = some b → R a b := by
  rw [List.forall₂_iff_get]
  refine and_congr_right fun _ => ⟨fun h i a b ha hb => ?_, fun h i ha hb => ?_⟩
  · obtain ⟨hi, rfl⟩ := List.getElem?_eq_some_iff.1 ha
    obtain ⟨hi', rfl⟩ := List.getElem?_eq_some_iff.1 hb
    exact h i hi hi'
  · exact h i _ _ (List.getElem?_eq_getElem ha) (List.getElem?_eq_getElem hb)

theorem mem_left_of_forall₂ {R : α → β → Prop} {as : List α} {bs : List β}
    (h : List.Forall₂ R as bs) {a : α} (ha : a ∈ as) : ∃ b ∈ bs, R a b := by
  induction h with
  | nil => cases ha
  | @cons first _ _ _ hfirst _ ih =>
    rcases List.mem_cons.1 ha with rfl | ha
    · exact ⟨_, List.mem_cons_self, hfirst⟩
    · obtain ⟨b, hb, hab⟩ := ih ha
      exact ⟨b, List.mem_cons_of_mem _ hb, hab⟩

theorem mem_right_of_forall₂ {R : α → β → Prop} {as : List α} {bs : List β}
    (h : List.Forall₂ R as bs) {b : β} (hb : b ∈ bs) : ∃ a ∈ as, R a b :=
  mem_left_of_forall₂ h.flip hb

theorem exists_forall₂ {R : α → β → Prop} {as : List α} (h : ∀ a ∈ as, ∃ b, R a b) :
    ∃ bs, List.Forall₂ R as bs := by
  induction as with
  | nil => exact ⟨[], .nil⟩
  | cons a as ih =>
    obtain ⟨hfirst, hrest⟩ := List.forall_mem_cons.1 h
    obtain ⟨b, hb⟩ := hfirst
    obtain ⟨bs, hbs⟩ := ih hrest
    exact ⟨b :: bs, .cons hb hbs⟩

/-- Fields with the same names whose entries are related in their order. -/
def Related (R : α → β → Prop) : Fields α → Fields β → Prop :=
  List.Forall₂ fun a b => a.1 = b.1 ∧ R a.2 b.2

theorem related_of_values {R : α → β → Prop} {a : Fields α} {b : Fields β}
    (hkeys : keys a = keys b) (hvalues : List.Forall₂ R (values a) (values b)) : Related R a b := by
  induction a generalizing b with
  | nil =>
    cases b with
    | nil => exact .nil
    | cons entry rest => cases hkeys
  | cons entry rest ih =>
    cases b with
    | nil => cases hkeys
    | cons entry' rest' =>
      obtain ⟨hentry, hrest⟩ := List.forall₂_cons.1 hvalues
      obtain ⟨hname, hnames⟩ := List.cons.inj hkeys
      exact .cons ⟨hname, hentry⟩ (ih hnames hrest)

theorem Related.keys_eq {R : α → β → Prop} {a : Fields α} {b : Fields β} (h : Related R a b) :
    keys a = keys b := by
  induction h with
  | nil => rfl
  | cons hentry _ ih => exact congrArg₂ List.cons hentry.1 ih

theorem related_of_getElem? {R : α → β → Prop} {a : Fields α} {b : Fields β}
    (hkeys : keys a = keys b)
    (h : ∀ (i : Nat) v w, (values a)[i]? = some v → (values b)[i]? = some w → R v w) :
    Related R a b := by
  refine related_of_values hkeys (forall₂_iff_getElem?.2 ⟨?_, h⟩)
  simpa [keys, values] using congrArg List.length hkeys

theorem Related.values {R : α → β → Prop} {a : Fields α} {b : Fields β} (h : Related R a b)
    {i : Nat} {v : α} {w : β} (hv : (values a)[i]? = some v) (hw : (Fields.values b)[i]? = some w) :
    R v w := by
  have hvalues : List.Forall₂ R (Fields.values a) (Fields.values b) := by
    rw [Fields.values, Fields.values, List.forall₂_map_left_iff, List.forall₂_map_right_iff]
    exact h.imp fun _ _ hentry => hentry.2
  exact (forall₂_iff_getElem?.1 hvalues).2 i v w hv hw

theorem Related.mem_right {R : α → β → Prop} {a : Fields α} {b : Fields β} (h : Related R a b)
    {name : String} {w : β} (hw : (name, w) ∈ b) : ∃ v, (name, v) ∈ a ∧ R v w := by
  obtain ⟨⟨key, v⟩, hmem, rfl, hv⟩ := mem_right_of_forall₂ h hw
  exact ⟨v, hmem, hv⟩

theorem Related.mem_left {R : α → β → Prop} {a : Fields α} {b : Fields β} (h : Related R a b)
    {v : α} (hv : (name, v) ∈ a) : ∃ w, (name, w) ∈ b ∧ R v w := by
  obtain ⟨⟨key, w⟩, hmem, rfl, hw⟩ := mem_left_of_forall₂ h hv
  exact ⟨w, hmem, hw⟩

theorem Related.get? {R : α → β → Prop} {a : Fields α} {b : Fields β} (h : Related R a b)
    {name : String} {v : α} (hv : get? name a = some v) :
    ∃ w, Fields.get? name b = some w ∧ R v w := by
  induction h with
  | nil => cases hv
  | @cons entry entry' rest rest' hentry _ ih =>
    obtain ⟨key, old⟩ := entry
    obtain ⟨key', old'⟩ := entry'
    obtain ⟨hkey, hold⟩ := hentry
    dsimp only at hkey hold
    subst hkey
    by_cases hk : key = name
    · simp only [Fields.get?, hk, if_true, Option.some.injEq] at hv ⊢
      exact ⟨old', rfl, hv ▸ hold⟩
    · simp only [Fields.get?, hk, if_false] at hv ⊢
      exact ih hv

/-! ### Fields with the same names -/

theorem Distinct.of_keys_eq {a : Fields α} {b : Fields β} (h : Distinct a) (hkeys : keys a = keys b) :
    Distinct b := by
  rwa [Distinct, ← hkeys]

theorem exists_get?_of_keys_eq {a : Fields α} {b : Fields β} (hkeys : keys a = keys b) {value : α}
    (h : get? name a = some value) : ∃ other, get? name b = some other :=
  mem_keys_iff.1 (hkeys ▸ mem_keys_iff.2 ⟨value, h⟩)

theorem get?_eq_none_of_keys_eq {a : Fields α} {b : Fields β} (hkeys : keys a = keys b)
    (h : get? name a = none) : get? name b = none := by
  rw [get?_eq_none_iff] at h ⊢
  rwa [← hkeys]

/-! ### Fields of one size -/

/-- Fields whose names are all among those of others, of which there are no more, have the same
names. -/
theorem mem_keys_of_length_eq {a : Fields α} {b : Fields β} (ha : Distinct a)
    (hlength : a.length = b.length) (hsub : keys a ⊆ keys b) (h : name ∈ keys b) :
    name ∈ keys a := by
  have hperm : (keys a).Perm (keys b) := by
    refine (List.subperm_of_subset ha hsub).perm_of_length_le ?_
    simp only [keys, List.length_map]
    omega
  exact hperm.mem_iff.2 h

end TypedRecords.Fields
