import Mathlib.Algebra.BigOperators.Group.List.Basic
import Mathlib.Computability.Language
import TypedRecords.Pattern

/-! # The languages of expressions

What an expression without anchors takes from a text is a word of its language, wherever it starts.
Between the anchors of the text it takes the text as a whole.
-/

namespace TypedRecords.Regex

variable {text : Array Char} {a b r : Regex} {L M : Language Char}

/-- Wherever a match starts, what it takes is a word of the language, and each word that stands there
is taken. -/
def Takes (text : Array Char) (r : Regex) (L : Language Char) : Prop :=
  ∀ (starts : List Nat) (j : Nat), j ∈ ends text r starts ↔
    ∃ i ∈ starts, ∃ word ∈ L, word <+: text.toList.drop i ∧ j = i + word.length

/-- The words of one character of a set. -/
def letters (s : CharSet) : Language Char := {word | ∃ c, s.contains c ∧ word = [c]}

theorem mem_letters {s : CharSet} {word : List Char} :
    word ∈ letters s ↔ ∃ c, s.contains c ∧ word = [c] := Iff.rfl

/-- The language of one word. -/
def only (word : List Char) : Language Char := {u | u = word}

theorem mem_only {u word : List Char} : u ∈ only word ↔ u = word := Iff.rfl

theorem append_prefix_drop_iff {u v l : List Char} {i : Nat} :
    u ++ v <+: l.drop i ↔ u <+: l.drop i ∧ v <+: l.drop (i + u.length) := by
  constructor
  · intro h
    obtain ⟨rest, hrest⟩ := h
    refine ⟨⟨v ++ rest, by simpa using hrest⟩, rest, ?_⟩
    rw [← List.drop_drop, ← hrest, List.append_assoc, List.drop_left]
  · intro h
    obtain ⟨⟨rest, hrest⟩, hv⟩ := h
    rw [← List.drop_drop, ← hrest, List.drop_left] at hv
    rw [← hrest]
    exact (List.prefix_append_right_inj u).2 hv

theorem mem_join {xs ys : List Nat} {j : Nat} : j ∈ join xs ys ↔ j ∈ xs ∨ j ∈ ys := by
  simp only [join, List.mem_append, List.mem_filter, Bool.not_eq_true', List.contains_eq_mem,
    decide_eq_false_iff_not]
  tauto

theorem takes_empty : Takes text .empty 1 := by
  intro starts j
  simp [ends, Language.mem_one]

theorem takes_set (s : CharSet) : Takes text (.set s) (letters s) := by
  have hchar (i : Nat) (c : Char) : [c] <+: text.toList.drop i ↔ text[i]? = some c := by
    rw [← Array.getElem?_toList, ← List.head?_drop]
    cases text.toList.drop i <;> simp [eq_comm]
  intro starts j
  simp only [ends, List.mem_filterMap]
  apply exists_congr
  intro i
  apply and_congr_right
  intro _
  constructor
  · intro h
    cases hc : text[i]? with
    | none => simp [hc] at h
    | some c =>
      simp only [hc, Option.any_some, Option.ite_none_right_eq_some, Option.some.injEq] at h
      exact ⟨[c], ⟨c, h.1, rfl⟩, (hchar i c).2 hc, h.2.symm⟩
  · rintro ⟨word, ⟨c, hs, rfl⟩, hword, rfl⟩
    simp [(hchar i c).1 hword, hs]

theorem Takes.seq (ha : Takes text a L) (hb : Takes text b M) : Takes text (.seq a b) (L * M) := by
  intro starts j
  simp only [ends, hb _ j, ha starts, Language.mem_mul]
  constructor
  · rintro ⟨k, ⟨i, hi, u, hu, hpu, rfl⟩, v, hv, hpv, rfl⟩
    refine ⟨i, hi, u ++ v, ⟨u, hu, v, hv, rfl⟩, append_prefix_drop_iff.2 ⟨hpu, hpv⟩, ?_⟩
    rw [List.length_append, Nat.add_assoc]
  · rintro ⟨i, hi, word, ⟨u, hu, v, hv, rfl⟩, hword, rfl⟩
    obtain ⟨hpu, hpv⟩ := append_prefix_drop_iff.1 hword
    refine ⟨i + u.length, ⟨i, hi, u, hu, hpu, rfl⟩, v, hv, hpv, ?_⟩
    rw [List.length_append, Nat.add_assoc]

/-- A word that is spelled out, read as its characters one after another. -/
def spelled (word : List Char) : Regex :=
  word.foldr (fun c r => .seq (.set (.single c)) r) .empty

theorem takes_spelled (word : List Char) : Takes text (spelled word) (only word) := by
  induction word with
  | nil => exact takes_empty
  | cons c rest ih =>
    have hcons : letters (.single c) * only rest = only (c :: rest) := by
      ext u
      simp only [Language.mem_mul, mem_letters, mem_only, CharSet.contains_single]
      simp [eq_comm]
    rw [← hcons]
    exact (takes_set (.single c)).seq ih

/-! ### Repetitions -/

theorem Takes.mem_upTo_iff (h : Takes text a L) (n : Nat) (starts : List Nat) (j : Nat) :
    j ∈ upTo (ends text a) n starts ↔ ∃ i ∈ starts, ∃ words : List (List Char),
      words.length ≤ n ∧ (∀ word ∈ words, word ∈ L) ∧ words.flatten <+: text.toList.drop i ∧
      j = i + words.flatten.length := by
  induction n generalizing starts with
  | zero => simp [upTo]
  | succ n ih =>
    rw [upTo, mem_join, ih]
    simp only [h starts]
    constructor
    · rintro (hj | ⟨k, ⟨i, hi, u, hu, hpu, rfl⟩, words, hlength, hwords, htaken, rfl⟩)
      · exact ⟨j, hj, [], by simp, by simp, by simp, rfl⟩
      · refine ⟨i, hi, u :: words, Nat.succ_le_succ hlength, List.forall_mem_cons.2 ⟨hu, hwords⟩,
          append_prefix_drop_iff.2 ⟨hpu, htaken⟩, ?_⟩
        rw [List.flatten_cons, List.length_append, Nat.add_assoc]
    · rintro ⟨i, hi, words, hlength, hwords, htaken, rfl⟩
      cases words with
      | nil => exact .inl hi
      | cons u words =>
        obtain ⟨hu, hwords⟩ := List.forall_mem_cons.1 hwords
        obtain ⟨hpu, htaken⟩ := append_prefix_drop_iff.1 htaken
        refine .inr ⟨i + u.length, ⟨i, hi, u, hu, hpu, rfl⟩, words, Nat.le_of_succ_le_succ hlength,
          hwords, htaken, ?_⟩
        rw [List.flatten_cons, List.length_append, Nat.add_assoc]

theorem Takes.optional (h : Takes text a L) : Takes text (.repeated a 0 (some 1)) (1 + L) := by
  intro starts j
  have hends : ends text (.repeated a 0 (some 1)) starts = join starts (ends text a starts) := by
    have hcut : min 1 (text.size + 1) = 1 := by omega
    simp only [ends, Nat.zero_min, Nat.sub_zero, hcut]
    rfl
  rw [hends, mem_join, h starts]
  simp only [Language.mem_add, Language.mem_one, or_and_right, exists_or, and_or_left]
  simp

/-- No more rounds than the text has places are needed, since a round that takes nothing can be left
out. -/
theorem Takes.star (h : Takes text a L) : Takes text (.repeated a 0 none) (KStar.kstar L) := by
  intro starts j
  have hends : ends text (.repeated a 0 none) starts =
      upTo (ends text a) (text.size + 1) starts := by
    simp only [ends, Nat.zero_min]
    rfl
  rw [hends, h.mem_upTo_iff]
  apply exists_congr
  intro i
  apply and_congr_right
  intro _
  constructor
  · rintro ⟨words, -, hwords, htaken, hj⟩
    exact ⟨words.flatten, Language.join_mem_kstar hwords, htaken, hj⟩
  · rintro ⟨word, hword, htaken, hj⟩
    obtain ⟨words, rfl, hwords⟩ := Language.mem_kstar_iff_exists_nonempty.1 hword
    have hrounds : words.length ≤ words.flatten.length := by
      rw [List.length_flatten, ← List.length_map List.length]
      apply List.length_le_sum_of_one_le
      simp only [List.forall_mem_map]
      intro u hu
      exact List.length_pos_iff.2 (hwords u hu).2
    have hplaces := htaken.length_le
    have hsize : text.toList.length = text.size := Array.length_toList
    rw [List.length_drop, hsize] at hplaces
    exact ⟨words, by omega, fun word hmem => (hwords word hmem).1, htaken, hj⟩

theorem mem_kstar_letters {s : CharSet} {word : List Char} :
    word ∈ KStar.kstar (letters s) ↔ ∀ c ∈ word, s.contains c = true := by
  constructor
  · intro h c hc
    obtain ⟨words, rfl, hwords⟩ := Language.mem_kstar.1 h
    obtain ⟨u, hu, hcu⟩ := List.mem_flatten.1 hc
    obtain ⟨d, hd, rfl⟩ := hwords u hu
    rw [List.mem_singleton.1 hcu]
    exact hd
  · intro h
    apply Language.mem_kstar.2
    refine ⟨word.map fun c => [c], ?_, ?_⟩
    · rw [← List.flatMap_def, List.flatMap_singleton']
    · simp only [List.forall_mem_map]
      intro c hc
      exact ⟨c, h c hc, rfl⟩

/-! ### Whole texts -/

/-- Between the anchors of the text. -/
def whole (a b : Regex) : Regex :=
  .seq (.anchor .textStart) (.seq a (.seq b (.seq (.anchor .textEnd) .empty)))

theorem isMatch_whole_iff {a b : Regex} {text : String} (ha : Takes text.toList.toArray a L)
    (hb : Takes text.toList.toArray b M) :
    (whole a b).isMatch text = true ↔ text.toList ∈ L * M := by
  generalize hchars : text.toList.toArray = chars at ha hb
  have htext : text.toList = chars.toList := by rw [← hchars]
  have hstart : (List.range (chars.size + 1)).filter (Anchor.holds .textStart chars) = [0] := by
    rw [List.range_succ_eq_map, List.filter_cons, List.filter_map]
    simp [Anchor.holds, Function.comp_def]
  have hends : ends chars (whole a b) (List.range (chars.size + 1)) =
      (ends chars (.seq a b) [0]).filter (Anchor.holds .textEnd chars) := by
    simp only [whole, ends, hstart]
  have hmatch : (whole a b).isMatch text = true ↔
      ∃ j, j ∈ ends chars (whole a b) (List.range (chars.size + 1)) := by
    rw [isMatch, hchars, Bool.not_eq_true', List.isEmpty_eq_false_iff_exists_mem]
  rw [hmatch, hends, htext]
  simp only [List.mem_filter, ha.seq hb [0], List.mem_singleton, exists_eq_left, List.drop_zero,
    Nat.zero_add, Anchor.holds, beq_iff_eq]
  constructor
  · rintro ⟨j, ⟨word, hword, htaken, rfl⟩, hlength⟩
    rwa [← htaken.eq_of_length hlength]
  · intro hword
    exact ⟨_, ⟨_, hword, List.prefix_rfl, rfl⟩, rfl⟩

end TypedRecords.Regex
