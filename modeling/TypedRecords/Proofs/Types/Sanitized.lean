import Mathlib.Data.List.DropRight
import TypedRecords.Proofs.Record.Forking
import TypedRecords.Proofs.Record.Recast

/-! # Sanitizing twice

Sanitizing what was sanitized changes nothing, whichever sanitizers stand at whichever level: those of the
items leave only items that they would not change again, and those of the array take some of them out. So
assigning to a record what it was read to hold changes nothing.
-/

namespace TypedRecords

/-! ### Sanitizers -/

theorem Text.trimChars_eq_rdropWhile (blank : Char → Bool) (cs : List Char) :
    trimChars blank cs = (cs.dropWhile blank).rdropWhile blank := rfl

theorem Text.trimChars_trimChars (blank : Char → Bool) (cs : List Char) :
    trimChars blank (trimChars blank cs) = trimChars blank cs := by
  simp only [trimChars_eq_rdropWhile]
  generalize hrest : cs.dropWhile blank = rest
  have hstart : (rest.rdropWhile blank).dropWhile blank = rest.rdropWhile blank := by
    rw [List.dropWhile_eq_self_iff]
    intro hpos
    have hleft := List.rdropWhile_prefix blank rest
    have hlt : 0 < rest.length := Nat.lt_of_lt_of_le hpos hleft.length_le
    have hhead := (List.dropWhile_eq_self_iff).1 (hrest ▸ List.dropWhile_idempotent blank cs) hlt
    rwa [hleft.getElem hpos]
  rw [hstart, List.rdropWhile_idempotent]

namespace Sanitizer

theorem apply_apply (s : Sanitizer) (v : Value) : s.apply (s.apply v) = s.apply v := by
  cases s with
  | trim =>
    cases v with
    | string text => simp only [apply, String.toList_ofList, Text.trimChars_trimChars]
    | _ => rfl
  | compact =>
    cases v with
    | array items => exact apply_compact_compact items
    | _ => rfl

/-- One of them acts on strings only and the other one on arrays only. -/
theorem apply_comm (s s' : Sanitizer) (v : Value) : s.apply (s'.apply v) = s'.apply (s.apply v) := by
  cases s <;> cases s' <;> cases v <;> rfl

theorem apply_foldl (s : Sanitizer) (sanitizers : List Sanitizer) (v : Value) :
    s.apply (sanitizers.foldl (fun v s => s.apply v) v) =
      sanitizers.foldl (fun v s => s.apply v) (s.apply v) := by
  induction sanitizers generalizing v with
  | nil => rfl
  | cons s' rest ih =>
    rw [List.foldl_cons, List.foldl_cons, ih, apply_comm]

/-- Sanitizers leave alone what they have made of a value. -/
theorem foldl_foldl (sanitizers : List Sanitizer) (v : Value) :
    sanitizers.foldl (fun v s => s.apply v) (sanitizers.foldl (fun v s => s.apply v) v) =
      sanitizers.foldl (fun v s => s.apply v) v := by
  induction sanitizers generalizing v with
  | nil => rfl
  | cons s rest ih =>
    simp only [List.foldl_cons]
    rw [apply_foldl, apply_apply, ih]

end Sanitizer

namespace ValueType

variable {t item : ValueType} {traits : Traits} {v : Value} {items : List Value}

/-! ### Sanitizing -/

theorem finish_finish (t : ValueType) (v : Value) :
    sanitize.finish t (sanitize.finish t v) = sanitize.finish t v :=
  Sanitizer.foldl_foldl t.traits.sanitizers v

/-- The sanitizers of a type take items out of an array, and do not change those that stay. -/
theorem finish_array (t : ValueType) (items : List Value) :
    ∃ kept, sanitize.finish t (.array items) = .array kept ∧ ∀ v ∈ kept, v ∈ items := by
  refine finish_keeps (P := fun v => ∃ kept, v = .array kept ∧ ∀ v ∈ kept, v ∈ items) ?_ t
    ⟨items, rfl, fun v hv => hv⟩
  intro s v hv
  obtain ⟨kept, hkept, hsub⟩ := hv
  subst hkept
  cases s with
  | trim => exact ⟨kept, rfl, hsub⟩
  | compact => exact ⟨_, rfl, fun v hv => hsub v (List.mem_of_mem_filter hv)⟩

/-- What is no array does not become one. -/
theorem asArray?_finish (t : ValueType) (hv : v.asArray? = none) :
    (sanitize.finish t v).asArray? = none := by
  refine finish_keeps (P := fun v => v.asArray? = none) ?_ t hv
  intro s v hv
  cases s with
  | trim =>
    cases v with
    | string text => rfl
    | _ => exact hv
  | compact =>
    cases v with
    | array items => cases hv
    | _ => exact hv

theorem sanitize_of_asArray? (hv : v.asArray? = none) : t.sanitize v = sanitize.finish t v := by
  cases t with
  | array item traits =>
    cases v with
    | array items => cases hv
    | _ => rfl
  | _ => rfl

theorem sanitize_sanitize (t : ValueType) (v : Value) :
    t.sanitize (t.sanitize v) = t.sanitize v := by
  induction t generalizing v with
  | array item traits ih =>
    cases hv : v.asArray? with
    | none =>
      rw [sanitize_of_asArray? hv, sanitize_of_asArray? (asArray?_finish _ hv), finish_finish]
    | some items =>
      cases v with
      | array items =>
        have hrun : ∀ items, (ValueType.array item traits).sanitize (.array items) =
            sanitize.finish (.array item traits) (.array (items.map item.sanitize)) := fun _ => rfl
        obtain ⟨kept, hkept, hsub⟩ := finish_array (.array item traits) (items.map item.sanitize)
        -- What stays of the sanitized items is not changed by sanitizing it again.
        have hfixed : kept.map item.sanitize = kept := by
          refine (List.map_congr_left ?_).trans (List.map_id kept)
          intro w hw
          obtain ⟨v, -, hv⟩ := List.mem_map.1 (hsub w hw)
          rw [← hv, ih, id]
        rw [hrun, hkept, hrun, hfixed, ← hkept, finish_finish]
      | _ => cases hv
  | _ => exact finish_finish _ _

end ValueType

/-! ### Assigning again -/

namespace Graph

variable {g : Graph} {r : RecordRef} {name : String}

/-- Writing what a record holds already changes nothing. -/
theorem write_own? {slot : Option Slot} (h : g.own? r name = some slot) :
    g.write r name slot = g := by
  refine modify_of_fixed fun cell hcell => ?_
  rw [own?, hcell] at h
  show { cell with slots := Fields.insert name slot cell.slots } = cell
  rw [Fields.insert_get? h]

end Graph

namespace Record

variable {d : Directory} {g g₁ g₂ : Graph} {r : RecordRef} {name : String} {v : Value}

theorem read_of_own? (hmade : r.base? = none) {a : Attribute}
    (ha : (d.definition r.cls).attribute? name = some a) {slot : Slot}
    (h : g.own? r name = some (some slot)) : read d r name g = (.ok slot.value, g) := by
  have hvalue : g.value? r name = some slot.value := by
    rw [Graph.value?, h]
    rfl
  unfold read
  rw [Stateful.bind_of_ok (ofExcept_of_ok (attributeNamed_of_some ha) g),
    Stateful.bind_of_ok (lift_value?_made hmade name g), hvalue]
  rfl

/-- As long as a record holds what was assigned to it, assigning what it is read to hold changes nothing. -/
theorem set_read (hmade : r.base? = none) (hr : r.serial < g.cells.size)
    (h : set d r name v g = (.ok (), g₁)) (hkept : g₂.own? r name = g₁.own? r name) :
    ∃ w, read d r name g₂ = (.ok w, g₂) ∧ set d r name w g₂ = (.ok (), g₂) := by
  obtain ⟨a, ha, hcheck, hg₁⟩ := set_eq_ok h
  have hcell : g.cell? r = some g.cells[r.serial] := Array.getElem?_eq_getElem hr
  have hown : g₂.own? r name = some (some ⟨a.type.sanitize v, .here⟩) := by
    rw [hkept, hg₁, Graph.own?_write_self hcell]
  have hagain := a.type.sanitize_sanitize v
  have hset := set_of_check ha (v := a.type.sanitize v) (by rwa [hagain]) g₂
  rw [hagain, Graph.write_own? hown] at hset
  exact ⟨a.type.sanitize v, read_of_own? hmade ha hown, hset⟩

end Record

/-- Sanitizing settles a value: doing it again changes nothing, and what was accepted still is. So assigning
to a record that is no fork what was just read of it changes nothing either. -/
theorem ValueType.sanitizing_settles (t : ValueType) (v : Value) :
    t.sanitize (t.sanitize v) = t.sanitize v ∧
      (∀ site, t.check site v = .ok () → t.check site (t.sanitize v) = .ok ()) ∧
      ∀ (d : Directory) (g g₁ g₂ : Graph) (r : RecordRef) (name : String),
        r.base? = none → r.serial < g.cells.size → Record.set d r name v g = (.ok (), g₁) →
        g₂.own? r name = g₁.own? r name →
          ∃ w, Record.read d r name g₂ = (.ok w, g₂) ∧ Record.set d r name w g₂ = (.ok (), g₂) := by
  refine ⟨t.sanitize_sanitize v, fun site => check_sanitize, ?_⟩
  intro d g g₁ g₂ r name hmade hr hset hkept
  exact Record.set_read hmade hr hset hkept

/-! ### An example: a film with tags -/

namespace Tagging

/-- Trimmed strings, of which those are left out that are empty then. -/
def tags : ValueType :=
  .array (.scalar .string { optional := true, sanitizers := [.trim] }) { sanitizers := [.compact] }

def filmClass : ClassRef := .declared 0 "Film"

def classes : Directory where
  classes := #[
    { definition := {
        attributes := [("tags", ⟨"tags", .plain, tags, none⟩)]
        indexes := [], embedded := false, storable := false } }]

def film : RecordRef := .made 0 filmClass

/-- A film with nothing set, and with its tags. -/
def bare : Graph := { cells := #[{ isNew := true }] }

def given : Value := .array [.string " noir", .string "  ", .undefined, .string "heist"]

def kept : Value := .array [.string "noir", .string "heist"]

def tagged : Graph := { cells := #[{ slots := [("tags", some ⟨kept, .here⟩)], isNew := true }] }

theorem sanitizing_settles_tags :
    tags.sanitize given = kept ∧ tags.sanitize kept = kept ∧
      tags.check (classes.site filmClass "tags") kept = .ok () ∧
      ∃ w, Record.read classes film "tags" tagged = (.ok w, tagged) ∧
        Record.set classes film "tags" w tagged = (.ok (), tagged) := by
  have hkept : tags.sanitize given = kept := rfl
  have hset : Record.set classes film "tags" given bare = (.ok (), tagged) := rfl
  obtain ⟨htwice, hcheck, hagain⟩ := ValueType.sanitizing_settles tags given
  rw [hkept] at htwice hcheck
  exact ⟨hkept, htwice, hcheck _ rfl,
    hagain classes bare tagged tagged film "tags" rfl (by decide) hset rfl⟩

end Tagging

end TypedRecords
