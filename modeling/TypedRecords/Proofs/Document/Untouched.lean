import TypedRecords.Proofs.Document.Applied
import TypedRecords.Proofs.Document.Names

/-! # What a patch leaves alone

Writing or removing at one place leaves alone what stands at another, unless one of the places is
within the other. The patch of an encoded record therefore leaves alone every place that its tagged
objects lead past.
-/

namespace TypedRecords

namespace Path

/-! ### Places apart -/

/-- Neither of two places is within the other. -/
def Apart (names others : List String) : Prop := ¬names <+: others ∧ ¬others <+: names

instance (names others : List String) : Decidable (Apart names others) :=
  inferInstanceAs (Decidable (_ ∧ _))

theorem Apart.append {names others : List String} (h : Apart names others) (more : List String) :
    Apart (names ++ more) others := by
  refine ⟨fun hprefix => h.1 ((List.prefix_append names more).trans hprefix), fun hprefix => ?_⟩
  rcases List.prefix_or_prefix_of_prefix hprefix (List.prefix_append names more) with hin | hin
  · exact h.2 hin
  · exact h.1 hin

theorem Apart.ne_nil {names others : List String} (h : Apart names others) : others ≠ [] := by
  rintro rfl
  exact h.2 List.nil_prefix

theorem apart_cons {name : String} {names others : List String} :
    Apart (name :: names) (name :: others) ↔ Apart names others := by
  simp [Apart]

theorem apart_of_ne (outer : List String) {name other : String} (h : name ≠ other)
    (rest : List String) : Apart (outer ++ [name]) (outer ++ other :: rest) := by
  constructor
  · intro hprefix
    rw [List.prefix_append_right_inj, List.cons_prefix_cons] at hprefix
    exact h hprefix.1
  · intro hprefix
    rw [List.prefix_append_right_inj, List.cons_prefix_cons] at hprefix
    exact h hprefix.1.symm

theorem IsName.apart {key name : String} (hkey : IsName key) (h : key ≠ name) :
    Apart (segments key) [name] := by
  rw [segments_of_isName hkey]
  exact apart_of_ne [] h []

theorem IsName.not_apart {name : String} (h : IsName name) : ¬Apart (segments name) [name] := by
  rw [segments_of_isName h]
  exact fun hapart => hapart.1 List.prefix_rfl

/-! ### Reading elsewhere -/

theorem getAlong_cons (name : String) (rest : List String) (fields : Object) :
    getAlong (name :: rest) (.object fields) =
      (Fields.get? name fields).bind (getAlong rest) := rfl

/-- Below a name that holds no object nothing stands, as in a new object. -/
theorem getAlong_objectAt {rest : List String} (h : rest ≠ []) (name : String) (document : Document) :
    getAlong rest (.object (objectAt name document)) =
      (Fields.get? name document).bind (getAlong rest) := by
  obtain ⟨next, more, rfl⟩ := List.exists_cons_of_ne_nil h
  cases hv : Fields.get? name document with
  | none => simp [objectAt, hv, getAlong_cons]
  | some v =>
    cases v with
    | object inner => simp [objectAt, hv, Value.asObject?]
    | _ => simp [objectAt, hv, Value.asObject?, getAlong]

theorem getAlong_insert_of_ne {name other : String} (h : other ≠ name) (rest : List String)
    (v : Value) (document : Document) :
    getAlong (other :: rest) (.object (Fields.insert name v document)) =
      getAlong (other :: rest) (.object document) := by
  rw [getAlong_cons, getAlong_cons, Fields.get?_insert_of_ne h]

theorem getAlong_setAlong_of_apart {names path : List String} (h : Apart names path) (v : Value)
    (document : Document) :
    getAlong path (.object (setAlong v names document)) = getAlong path (.object document) := by
  induction names generalizing path document with
  | nil => rfl
  | cons name names ih =>
    obtain ⟨other, rest, rfl⟩ := List.exists_cons_of_ne_nil h.ne_nil
    by_cases hname : other = name
    · subst hname
      have hinner := apart_cons.1 h
      cases names with
      | nil => exact absurd List.nil_prefix hinner.1
      | cons next names =>
        rw [setAlong, getAlong_cons, Fields.get?_insert_self, Option.bind_some, ih hinner,
          getAlong_objectAt hinner.ne_nil, getAlong_cons]
        simp
    · cases names with
      | nil => exact getAlong_insert_of_ne hname rest v document
      | cons next names =>
        rw [setAlong]
        · exact getAlong_insert_of_ne hname rest _ document
        · simp

theorem getAlong_removeAlong?_of_apart {names path : List String} (h : Apart names path)
    {document removed : Document} (hremove : removeAlong? names document = some removed) :
    getAlong path (.object removed) = getAlong path (.object document) := by
  induction names generalizing path document removed with
  | nil => cases hremove
  | cons name names ih =>
    obtain ⟨other, rest, rfl⟩ := List.exists_cons_of_ne_nil h.ne_nil
    rcases removeAlong?_cons_eq_some hremove with ⟨rfl, -, rfl⟩ | ⟨inner, left, hinner, hleft, rfl⟩
    · have hname : other ≠ name := by
        rintro rfl
        exact (apart_cons.1 h).1 List.nil_prefix
      rw [getAlong_cons, getAlong_cons, Fields.get?_erase_of_ne hname]
    · by_cases hname : other = name
      · subst hname
        rw [getAlong_cons, getAlong_cons, Fields.get?_insert_self, hinner, Option.bind_some,
          Option.bind_some, ih (apart_cons.1 h) hleft]
      · exact getAlong_insert_of_ne hname rest _ document

theorem getAlong_set_of_apart {path : String} {names : List String}
    (h : Apart (segments path) names) (v : Value) (document : Document) :
    getAlong names (.object (set document path v)) = getAlong names (.object document) :=
  getAlong_setAlong_of_apart h v document

theorem getAlong_remove_of_apart {path : String} {names : List String}
    (h : Apart (segments path) names) (document : Document) :
    getAlong names (.object (remove document path)) = getAlong names (.object document) := by
  rcases remove_cases document path with hremoved | ⟨-, hsame⟩
  · exact getAlong_removeAlong?_of_apart h hremoved
  · rw [hsame]

/-! ### Longer paths -/

theorem join_ne_empty_left {path : String} (h : path ≠ "") (name : String) :
    join path name ≠ "" := by
  intro he
  have hlist := congrArg String.toList he
  simp [join, h] at hlist

theorem segments_append (path rest : String) :
    segments (path ++ "." ++ rest) = segments path ++ segments rest := by
  have hlist : (path ++ "." ++ rest).toList = path.toList ++ '.' :: rest.toList := by simp
  simp [segments, hlist, Text.cutAt_append]

theorem segments_join_append {path : String} (h : path ≠ "") (name : String) :
    segments (join path name) = segments path ++ segments name := by
  have hjoin : join path name = path ++ "." ++ name := by simp [join, h]
  rw [hjoin, segments_append]

end Path

/-! ### What is added for a field -/

namespace Patch

/-- Writing parts of values at some paths keeps what holds of a patch, and so does removing. -/
structure AllowsFields (B : String → Prop) (G : Value → Prop) (M : Patch → Prop) : Prop where
  join : ∀ path name, B path → B (Path.join path name)
  field : ∀ fields, G (.object fields) → ∀ entry ∈ fields, G entry.2
  write : ∀ path (v : Value) p, B path → G v → v ≠ .undefined → M p → M (p.write path v.strip)
  remove : ∀ path p, B path → M p → M (p.remove path)

namespace AllowsFields

variable {B : String → Prop} {G : Value → Prop} {M : Patch → Prop}

mutual

/-- Adding a field only writes and removes, at its path and below it. -/
theorem addField (h : AllowsFields B G M) {path : String} (hpath : B path) {v : Value} (hv : G v)
    {p : Patch} (hp : M p) : M (Patch.addField path v p) := by
  cases v with
  | undefined => exact h.remove path p hpath hp
  | object fields =>
    rw [Patch.addField]
    split
    · exact h.addFields hpath (h.field fields hv) hp
    · exact h.write path _ p hpath hv (by simp) hp
  | _ => exact h.write path _ p hpath hv (by simp) hp

theorem addFields (h : AllowsFields B G M) {path : String} (hpath : B path)
    {fields : List (String × Value)} (hfields : ∀ entry ∈ fields, G entry.2) {p : Patch}
    (hp : M p) : M (Patch.addFields path fields p) := by
  cases fields with
  | nil =>
    rw [Patch.addFields]
    exact hp
  | cons entry rest =>
    obtain ⟨name, v⟩ := entry
    obtain ⟨hv, hrest⟩ := List.forall_mem_cons.1 hfields
    rw [Patch.addFields]
    exact h.addFields hpath hrest (h.addField (h.join path name hpath) hv hp)

end

end AllowsFields

end Patch

/-! ### Patches that lead past a place -/

namespace Patch

open TypedRecords.Path (Apart)

/-- Neither what the patch writes nor what it removes has to do with a place. -/
structure Avoids (p : Patch) (place : List String) : Prop where
  written : ∀ path ∈ Fields.keys p.written, Apart (Path.segments path) place
  removed : ∀ path ∈ p.removed, Apart (Path.segments path) place

variable {p : Patch} {place : List String} {path : String}

theorem Avoids.write (h : p.Avoids place) (hpath : Apart (Path.segments path) place) (v : Value) :
    (p.write path v).Avoids place where
  written := by
    intro other hother
    rcases Fields.mem_keys_insert.1 hother with rfl | hother
    · exact hpath
    · exact h.written other hother
  removed := h.removed

theorem mem_removed_remove {other : String} :
    other ∈ (p.remove path).removed ↔ other = path ∨ other ∈ p.removed := by
  unfold Patch.remove
  dsimp only
  split
  · next hmem =>
    have hmem : path ∈ p.removed := List.contains_iff_mem.1 hmem
    constructor
    · exact .inr
    · rintro (rfl | hother)
      · exact hmem
      · exact hother
  · rw [List.mem_append, List.mem_singleton, or_comm]

theorem Avoids.remove (h : p.Avoids place) (hpath : Apart (Path.segments path) place) :
    (p.remove path).Avoids place where
  written := h.written
  removed := by
    intro other hother
    rcases mem_removed_remove.1 hother with rfl | hother
    · exact hpath
    · exact h.removed other hother

theorem Avoids.getAlong_apply (h : p.Avoids place) (document : Document) :
    Path.getAlong place (.object (p.apply document)) = Path.getAlong place (.object document) := by
  refine apply_induction (D := fun patched =>
    Path.getAlong place (.object patched) = Path.getAlong place (.object document)) ?_ ?_ rfl
  · intro entry hentry patched hpatched
    rw [Path.getAlong_set_of_apart (h.written _ (List.mem_map_of_mem hentry)), hpatched]
  · intro path hpath patched hpatched
    rw [Path.getAlong_remove_of_apart (h.removed path hpath), hpatched]

theorem allowsFields_avoids (place : List String) :
    AllowsFields (fun path => path ≠ "" ∧ Apart (Path.segments path) place) (fun _ => True)
      (·.Avoids place) where
  join path name := by
    rintro ⟨hne, hpath⟩
    refine ⟨Path.join_ne_empty_left hne name, ?_⟩
    rw [Path.segments_join_append hne]
    exact hpath.append _
  field _ _ _ _ := trivial
  write _ v _ hpath _ _ hp := hp.write hpath.2 v.strip
  remove _ _ hpath hp := hp.remove hpath.2

/-- The entries for a field are at its path or below it. -/
theorem Avoids.addField (h : p.Avoids place) (hne : path ≠ "")
    (hpath : Apart (Path.segments path) place) (v : Value) :
    (Patch.addField path v p).Avoids place :=
  (allowsFields_avoids place).addField ⟨hne, hpath⟩ trivial h

end Patch

/-! ### Objects that lead past a place -/

namespace Value

/-- The named fields lead past a place: the only ones on the way to it are tagged objects, and the way
leads out of the last of them. -/
def Spares : List String → Object → Prop
  | [], _ => False
  | name :: rest, fields => ∀ entry ∈ fields, Path.IsName entry.1 ∧
      (entry.1 = name → ∃ inner, entry.2 = .object inner ∧ Tree.isTagged inner = true ∧
        Spares rest inner)

end Value

namespace Patch

open Value (Spares)

theorem avoids_addFields {place : List String} {fields : Object} (h : Spares place fields)
    {outer : List String} (houter : ∀ name ∈ outer, Path.IsName name) {p : Patch}
    (hp : p.Avoids (outer ++ place)) :
    (addFields (Path.ofNames outer) fields p).Avoids (outer ++ place) := by
  induction place generalizing fields outer p with
  | nil => exact h.elim
  | cons name rest ih =>
    induction fields generalizing p with
    | nil =>
      rw [addFields]
      exact hp
    | cons entry more ihMore =>
      obtain ⟨key, v⟩ := entry
      obtain ⟨⟨hkey, hsame⟩, hmore⟩ := List.forall_mem_cons.1 h
      have hnames : ∀ other ∈ outer ++ [key], Path.IsName other := by
        intro other hother
        rcases List.mem_append.1 hother with hother | hother
        · exact houter other hother
        · exact List.mem_singleton.1 hother ▸ hkey
      rw [addFields, Path.join_ofNames]
      refine ihMore hmore ?_
      by_cases hname : key = name
      · subst hname
        obtain ⟨inner, rfl, htag, hinner⟩ := hsame rfl
        rw [addField, if_pos htag]
        have hplace : outer ++ key :: rest = (outer ++ [key]) ++ rest := by simp
        rw [hplace] at hp ⊢
        exact ih hinner hnames hp
      · have hne : outer ++ [key] ≠ [] := by simp
        refine hp.addField (Path.ofNames_ne_empty hne hnames) ?_ v
        rw [Path.segments_ofNames hne hnames]
        exact Path.apart_of_ne outer hname rest

/-- Patching with an encoded record leaves alone what its fields lead past. -/
theorem getAlong_apply_ofDocument {place : List String} {fields : Object} (h : Spares place fields)
    (stored : Document) :
    Path.getAlong place (.object ((ofDocument fields).apply stored)) =
      Path.getAlong place (.object stored) := by
  have hempty : Avoids {} ([] ++ place) := ⟨by simp [Fields.keys], by simp⟩
  have hpatch : (ofDocument fields).Avoids place := avoids_addFields h (by simp) hempty
  exact hpatch.getAlong_apply stored

end Patch

end TypedRecords
