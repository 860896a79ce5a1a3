import TypedRecords.Calendar.Timestamp
import TypedRecords.Proofs.Calendar.Days
import Mathlib.Data.List.TakeWhile
import Mathlib.Data.Nat.Digits.Lemmas

/-! # Timestamps that read back

The text of an instant is read as the instant cut to milliseconds if its year has four digits, and
is not read otherwise. Whatever is read has a second within the day, and more than a second of
nanoseconds only at the end of a minute.
-/

namespace TypedRecords

/-! ### Decimal digits -/

theorem Digits.reversedDigits_eq {n : Nat} : ∀ {fuel : Nat}, n < 2 ^ fuel →
    Digits.reversedDigits fuel n = Nat.digits 10 n := by
  induction n using Nat.strongRecOn with
  | ind n ih =>
    intro fuel h
    cases fuel with
    | zero =>
      have hzero : n = 0 := by simpa using h
      simp [hzero, reversedDigits]
    | succ fuel =>
      by_cases hzero : n = 0
      · simp [hzero, reversedDigits]
      · have hlt : n / 10 < 2 ^ fuel := by
          rw [Nat.pow_succ] at h
          omega
        rw [reversedDigits, if_neg hzero, ih (n / 10) (by omega) hlt,
          Nat.digits_def' (by decide) (Nat.pos_of_ne_zero hzero)]

theorem Digits.ofNat_eq (n : Nat) : Digits.ofNat n = (Nat.digits 10 n).reverse := by
  rw [Digits.ofNat, Digits.reversedDigits_eq Nat.lt_log2_self]

namespace Timestamp

/-- The digits of a number, up to a width. -/
def paddedDigits (width n : Nat) : List Nat :=
  List.replicate (width - (Nat.digits 10 n).length) 0 ++ (Nat.digits 10 n).reverse

/-- The number that digits stand for, the first one first. -/
def valueOf (digits : List Nat) : Nat := Nat.ofDigits 10 digits.reverse

variable {width n : Nat}

theorem toList_padded (hw : 0 < width) (n : Nat) :
    (padded width n).toList = (paddedDigits width n).map digitChar := by
  by_cases hn : n = 0
  · obtain ⟨k, rfl⟩ : ∃ k, width = k + 1 := ⟨width - 1, by omega⟩
    have hlength : "0".length = 1 := rfl
    simp [padded, paddedDigits, natText, hn, hlength, zeros, List.replicate_succ', digitChar]
  · simp [padded, paddedDigits, natText, hn, zeros, digitText, Digits.ofNat_eq, digitChar]

theorem length_paddedDigits (h : n < 10 ^ width) : (paddedDigits width n).length = width := by
  have hle := (Nat.digits_length_le_iff (by decide) n).2 h
  simp [paddedDigits]
  omega

theorem lt_of_mem_paddedDigits {d : Nat} (h : d ∈ paddedDigits width n) : d < 10 := by
  simp only [paddedDigits, List.mem_append, List.mem_reverse] at h
  rcases h with h | h
  · rw [(List.mem_replicate.1 h).2]
    decide
  · exact Nat.digits_lt_base (by decide) h

theorem valueOf_paddedDigits (width n : Nat) : valueOf (paddedDigits width n) = n := by
  simp [valueOf, paddedDigits, Nat.ofDigits_append_replicate_zero, Nat.ofDigits_digits]

theorem valueOf_cons (d : Nat) (digits : List Nat) :
    valueOf (d :: digits) = d * 10 ^ digits.length + valueOf digits := by
  simp [valueOf, Nat.ofDigits_append]
  ring

theorem digitChar_eq_zero_add {d : Nat} (h : d < 10) :
    (digitChar d).isDigit = true ∧ (digitChar d).toNat - '0'.toNat = d := by
  revert h
  revert d
  decide

/-! ### Reading digits -/

theorem number?_digits {digits : List Nat} (h : ∀ d ∈ digits, d < 10) (acc : Nat)
    (rest : List Char) : number? digits.length acc (digits.map digitChar ++ rest) =
      some (acc * 10 ^ digits.length + valueOf digits, rest) := by
  induction digits generalizing acc with
  | nil => simp [number?, valueOf]
  | cons d digits ih =>
    obtain ⟨hd, hvalue⟩ := digitChar_eq_zero_add (h d List.mem_cons_self)
    have htail := ih (fun d hd => h d (List.mem_cons_of_mem _ hd)) (acc * 10 + d)
    simp only [List.length_cons, List.map_cons, List.cons_append, number?, digit?, hd, if_true,
      hvalue, htail, valueOf_cons]
    congr 2
    ring

theorem number?_padded (hw : 0 < width) (h : n < 10 ^ width) (rest : List Char) :
    number? width 0 ((padded width n).toList ++ rest) = some (n, rest) := by
  have hread : number? (paddedDigits width n).length 0
      ((paddedDigits width n).map digitChar ++ rest) = _ :=
    number?_digits (fun d => lt_of_mem_paddedDigits) 0 rest
  rwa [length_paddedDigits h, valueOf_paddedDigits, Nat.zero_mul, Nat.zero_add,
    ← toList_padded hw] at hread

theorem fraction_digits {digits : List Nat} (h : ∀ d ∈ digits, d < 10) {place : Nat}
    (hplace : digits.length ≤ place) :
    fraction place (digits.map digitChar) = valueOf digits * 10 ^ (place - digits.length) := by
  induction digits generalizing place with
  | nil => cases place <;> simp [fraction, valueOf]
  | cons d digits ih =>
    obtain ⟨place, rfl⟩ : ∃ k, place = k + 1 := ⟨place - 1, by simp at hplace; omega⟩
    have hlength : digits.length ≤ place := by simpa using hplace
    have htail := ih (fun d hd => h d (List.mem_cons_of_mem _ hd)) hlength
    have hpower : 10 ^ place = 10 ^ digits.length * 10 ^ (place - digits.length) := by
      rw [← Nat.pow_add, Nat.add_sub_cancel' hlength]
    simp only [List.map_cons, fraction, (digitChar_eq_zero_add (h d List.mem_cons_self)).2, htail,
      valueOf_cons, List.length_cons, Nat.add_sub_add_right, Nat.pow_eq, hpower]
    ring

theorem fraction?_padded (hw : 0 < width) (h : n < 10 ^ width) (hplace : width ≤ 9) {c : Char}
    (hc : c.isDigit = false) (rest : List Char) :
    fraction? ('.' :: ((padded width n).toList ++ c :: rest)) =
      some (n * 10 ^ (9 - width), c :: rest) := by
  have hlength := length_paddedDigits h
  have hdigits : ∀ x ∈ (paddedDigits width n).map digitChar, x.isDigit = true := by
    intro x hx
    obtain ⟨d, hd, rfl⟩ := List.mem_map.1 hx
    exact (digitChar_eq_zero_add (lt_of_mem_paddedDigits hd)).1
  have htake : ((paddedDigits width n).map digitChar ++ c :: rest).takeWhile Char.isDigit =
      (paddedDigits width n).map digitChar := by
    rw [List.takeWhile_append_of_pos hdigits]
    simp [hc]
  have hdrop : ((paddedDigits width n).map digitChar ++ c :: rest).dropWhile Char.isDigit =
      c :: rest := by
    rw [List.dropWhile_append_of_pos hdigits]
    simp [hc]
  have hne : ((paddedDigits width n).map digitChar).isEmpty = false := by
    rw [List.isEmpty_eq_false_iff, ← List.length_pos_iff, List.length_map, hlength]
    exact hw
  rw [toList_padded hw, fraction?, htake, hdrop, hne,
    fraction_digits (fun d => lt_of_mem_paddedDigits) (by omega), valueOf_paddedDigits, hlength]
  rfl

end Timestamp

/-! ### Instants -/

namespace Instant

/-- The second lies within the day, and only the last second of a minute can be a leap second. -/
structure WellFormed (t : Instant) : Prop where
  second_lt : t.second < 86400
  nano_lt : t.nano < 2000000000
  leap : 1000000000 ≤ t.nano → t.second % 60 = 59

/-- The year in UTC. -/
def year (t : Instant) : Int := (CivilDay.ofDay t.day).year

/-- The year has four digits. -/
def InYears (t : Instant) : Prop := 0 ≤ t.year ∧ t.year ≤ 9999

instance (t : Instant) : Decidable t.InYears := inferInstanceAs (Decidable (_ ∧ _))

/-- The instant without the digits past its milliseconds. -/
def cut (t : Instant) : Instant := { t with nano := t.nano - t.nano % 1000000 }

theorem cut_eq_iff (t : Instant) : t.cut = t ↔ t.nano % 1000000 = 0 := by
  obtain ⟨day, second, nano⟩ := t
  simp only [cut, mk.injEq, true_and]
  omega

theorem minusMinutes_zero {t : Instant} (h : t.second < 86400) : t.minusMinutes 0 = t := by
  obtain ⟨day, second, nano⟩ := t
  have h : (second : Int) < 86400 := by
    have : second < 86400 := h
    omega
  simp only [minusMinutes, mk.injEq, and_true, Int.zero_mul, Int.sub_zero]
  rw [Int.fdiv_eq_ediv_of_nonneg _ (by decide), Int.fmod_eq_emod_of_nonneg _ (by decide)]
  omega

end Instant

namespace Timestamp

variable {t : Instant}

theorem toList_text (h : t.InYears) :
    (text t).toList = (padded 4 t.year.natAbs).toList ++ '-' ::
      ((padded 2 (CivilDay.ofDay t.day).month).toList ++ '-' ::
      ((padded 2 (CivilDay.ofDay t.day).dayOfMonth).toList ++ 'T' ::
      ((padded 2 (t.second / 3600)).toList ++ ':' ::
      ((padded 2 (t.second / 60 % 60)).toList ++ ':' ::
      ((padded 2 (t.second % 60 + t.nano / 1000000000)).toList ++ '.' ::
      ((padded 3 (t.nano % 1000000000 / 1000000)).toList ++ ['Z'])))))) := by
  have hyear : (0 ≤ t.year && t.year ≤ 9999) = true := by
    simpa [Instant.InYears] using h
  have htext : yearText (CivilDay.ofDay t.day).year = padded 4 t.year.natAbs := by
    rw [yearText, ← Instant.year, if_pos hyear]
  simp [text, htext]

/-- Reads the numbers of a date in UTC, with milliseconds, whatever they are. -/
theorem parse?_of_toList {year month dayOfMonth hour minute second milli : Nat} {s : String}
    (hyear : year < 10 ^ 4) (hday : CivilDay.isValid ⟨year, month, dayOfMonth⟩ = true)
    (hhour : hour ≤ 23) (hminute : minute ≤ 59) (hsecond : second ≤ 60) (hmilli : milli < 10 ^ 3)
    (hs : s.toList = (padded 4 year).toList ++ '-' :: ((padded 2 month).toList ++ '-' ::
      ((padded 2 dayOfMonth).toList ++ 'T' :: ((padded 2 hour).toList ++ ':' ::
      ((padded 2 minute).toList ++ ':' :: ((padded 2 second).toList ++ '.' ::
      ((padded 3 milli).toList ++ ['Z']))))))) :
    parse? s = some (Instant.minusMinutes ⟨CivilDay.toDay ⟨year, month, dayOfMonth⟩,
      hour * 3600 + minute * 60 + min second 59,
      if second = 60 then milli * 1000000 + 1000000000 else milli * 1000000⟩ 0) := by
  obtain ⟨hmonth, hdayOfMonth⟩ := CivilDay.lt_of_isValid hday
  have hfraction : fraction? ('.' :: ((padded 3 milli).toList ++ ['Z'])) =
      some (milli * 1000000, ['Z']) := fraction?_padded (by decide) hmilli (by decide) (by decide) []
  have hoffset : offset? ['Z'] = some (0, []) := rfl
  rw [parse?, hs]
  refine Option.bind_eq_some_iff.2 ⟨_, number?_padded (by decide) hyear _, ?_⟩
  refine Option.bind_eq_some_iff.2 ⟨_, rfl, ?_⟩
  refine Option.bind_eq_some_iff.2 ⟨_, number?_padded (by decide) hmonth _, ?_⟩
  refine Option.bind_eq_some_iff.2 ⟨_, rfl, ?_⟩
  refine Option.bind_eq_some_iff.2 ⟨_, number?_padded (by decide) hdayOfMonth _, ?_⟩
  refine Option.bind_eq_some_iff.2 ⟨_, rfl, ?_⟩
  refine Option.bind_eq_some_iff.2 ⟨_, number?_padded (by decide) (by omega) _, ?_⟩
  refine Option.bind_eq_some_iff.2 ⟨_, rfl, ?_⟩
  refine Option.bind_eq_some_iff.2 ⟨_, number?_padded (by decide) (by omega) _, ?_⟩
  refine Option.bind_eq_some_iff.2 ⟨_, rfl, ?_⟩
  refine Option.bind_eq_some_iff.2 ⟨_, number?_padded (by decide) (by omega) _, ?_⟩
  refine Option.bind_eq_some_iff.2 ⟨_, hfraction, ?_⟩
  refine Option.bind_eq_some_iff.2 ⟨_, hoffset, ?_⟩
  simp [hday, hhour, hminute, hsecond]

theorem parse?_text (ht : t.WellFormed) (h : t.InYears) : parse? (text t) = some t.cut := by
  obtain ⟨hsecond, hnano, hleap⟩ := ht
  have hcivil : (⟨(t.year.natAbs : Int), (CivilDay.ofDay t.day).month,
      (CivilDay.ofDay t.day).dayOfMonth⟩ : CivilDay) = CivilDay.ofDay t.day := by
    rw [Int.natAbs_of_nonneg h.1]
    rfl
  have hyear : t.year.natAbs < 10 ^ 4 := by
    obtain ⟨h0, h1⟩ := h
    omega
  have hread : t.second / 3600 * 3600 + t.second / 60 % 60 * 60 +
      min (t.second % 60 + t.nano / 1000000000) 59 = t.second := by omega
  have hnanos : (if t.second % 60 + t.nano / 1000000000 = 60 then
      t.nano % 1000000000 / 1000000 * 1000000 + 1000000000
      else t.nano % 1000000000 / 1000000 * 1000000) = t.nano - t.nano % 1000000 := by
    clear * - hnano hleap
    by_cases hlater : t.second % 60 + t.nano / 1000000000 = 60
    · rw [if_pos hlater]
      omega
    · rw [if_neg hlater]
      omega
  rw [parse?_of_toList hyear (hcivil ▸ CivilDay.isValid_ofDay t.day) (by omega) (by omega) (by omega)
    (by omega) (toList_text h), hcivil, hread, hnanos, CivilDay.toDay_ofDay]
  exact congrArg some (Instant.minusMinutes_zero hsecond)

/-- A year that has not four digits is written with a sign, and no sign is read. -/
theorem parse?_text_eq_none (h : ¬t.InYears) : parse? (text t) = none := by
  have hyear : ¬(0 ≤ t.year && t.year ≤ 9999) = true := by
    simpa [Instant.InYears] using h
  have htext : yearText (CivilDay.ofDay t.day).year =
      (if t.year < 0 then "-" else "+") ++ padded 4 t.year.natAbs := by
    rw [yearText, ← Instant.year, if_neg hyear]
  obtain ⟨more, hmore⟩ : ∃ more, text t = yearText (CivilDay.ofDay t.day).year ++ more :=
    ⟨_, by simp only [text, String.append_assoc]; rfl⟩
  obtain ⟨c, rest, hc, hlist⟩ : ∃ c rest, c.isDigit = false ∧ (text t).toList = c :: rest := by
    by_cases hnegative : t.year < 0
    · refine ⟨'-', (padded 4 t.year.natAbs).toList ++ more.toList, by decide, ?_⟩
      simp [hmore, htext, hnegative]
    · refine ⟨'+', (padded 4 t.year.natAbs).toList ++ more.toList, by decide, ?_⟩
      simp [hmore, htext, hnegative]
  rw [parse?, hlist]
  have hread : number? 4 0 (c :: rest) = none := by
    simp [number?, digit?, hc]
  rw [hread]
  rfl

/-! ### What is read -/

theorem fraction_lt {cs : List Char} (h : ∀ c ∈ cs, c.isDigit = true) (place : Nat) :
    fraction place cs < 10 ^ place := by
  induction cs generalizing place with
  | nil => cases place <;> simp [fraction]
  | cons c cs ih =>
    cases place with
    | zero => simp [fraction]
    | succ place =>
      have htail := ih (fun c hc => h c (List.mem_cons_of_mem _ hc)) place
      have hdigit : c.toNat - '0'.toNat ≤ 9 := by
        have hdigit := h c List.mem_cons_self
        simp only [Char.isDigit, Bool.and_eq_true, decide_eq_true_eq, ge_iff_le] at hdigit
        exact Nat.sub_le_sub_right (UInt32.le_iff_toNat_le.1 hdigit.2) 48
      have hmul := Nat.mul_le_mul_right (10 ^ place) hdigit
      simp only [fraction, Nat.pow_eq, Nat.pow_succ]
      omega

theorem fraction?_lt {cs rest : List Char} {nano : Nat} (h : fraction? cs = some (nano, rest)) :
    nano < 1000000000 := by
  unfold fraction? at h
  split at h
  · rename_i cs
    dsimp only at h
    split at h
    · cases h
    · obtain ⟨rfl, -⟩ := Prod.mk.inj (Option.some.inj h)
      exact fraction_lt (fun c hc => List.mem_takeWhile_imp hc) 9
  · obtain ⟨rfl, -⟩ := Prod.mk.inj (Option.some.inj h)
    decide

/-- What a timestamp says: a time of the calendar, and how many minutes it is ahead of UTC. -/
theorem exists_of_parse? {s : String} (h : parse? s = some t) :
    ∃ (d : CivilDay) (hour minute second nano : Nat) (offset : Int),
      hour ≤ 23 ∧ minute ≤ 59 ∧ second ≤ 60 ∧ nano < 1000000000 ∧
      t = Instant.minusMinutes ⟨d.toDay, hour * 3600 + minute * 60 + min second 59,
        if second = 60 then nano + 1000000000 else nano⟩ offset := by
  rw [parse?] at h
  obtain ⟨⟨year, cs⟩, -, h⟩ := Option.bind_eq_some_iff.1 h
  obtain ⟨cs, -, h⟩ := Option.bind_eq_some_iff.1 h
  obtain ⟨⟨month, cs⟩, -, h⟩ := Option.bind_eq_some_iff.1 h
  obtain ⟨cs, -, h⟩ := Option.bind_eq_some_iff.1 h
  obtain ⟨⟨dayOfMonth, cs⟩, -, h⟩ := Option.bind_eq_some_iff.1 h
  obtain ⟨cs, -, h⟩ := Option.bind_eq_some_iff.1 h
  obtain ⟨⟨hour, cs⟩, -, h⟩ := Option.bind_eq_some_iff.1 h
  obtain ⟨cs, -, h⟩ := Option.bind_eq_some_iff.1 h
  obtain ⟨⟨minute, cs⟩, -, h⟩ := Option.bind_eq_some_iff.1 h
  obtain ⟨cs, -, h⟩ := Option.bind_eq_some_iff.1 h
  obtain ⟨⟨second, cs⟩, -, h⟩ := Option.bind_eq_some_iff.1 h
  obtain ⟨⟨nano, cs⟩, hnano, h⟩ := Option.bind_eq_some_iff.1 h
  obtain ⟨⟨offset, cs⟩, -, h⟩ := Option.bind_eq_some_iff.1 h
  dsimp only at h
  obtain ⟨hguard, h⟩ := Option.ite_none_right_eq_some.1 h
  simp only [Bool.and_eq_true, decide_eq_true_eq] at hguard
  obtain ⟨⟨⟨-, hhour⟩, hminute⟩, hsecond⟩ := hguard
  exact ⟨_, hour, minute, second, nano, offset, hhour, hminute, hsecond, fraction?_lt hnano,
    (Option.some.inj h).symm⟩

theorem wellFormed_of_parse? {s : String} (h : parse? s = some t) : t.WellFormed := by
  obtain ⟨d, hour, minute, second, nano, offset, hhour, hminute, hsecond, hnano, rfl⟩ :=
    exists_of_parse? h
  simp only [Instant.minusMinutes]
  rw [Int.fmod_eq_emod_of_nonneg _ (by decide)]
  constructor
  · dsimp only
    omega
  · dsimp only
    by_cases hlast : second = 60
    · rw [if_pos hlast]
      omega
    · rw [if_neg hlast]
      omega
  · dsimp only
    by_cases hlast : second = 60
    · rw [if_pos hlast]
      omega
    · rw [if_neg hlast]
      omega

end Timestamp

end TypedRecords
