import TypedRecords.Calendar.Instant
import Mathlib.Tactic.IntervalCases

/-! # Days of the calendar

Every number of days is the number of a valid calendar day, the one that it is converted to. The
conversion goes by eras of 400 years; within an era a day has a century, a cycle of four years, a
year of that cycle and a day of that year, and only the last year of a cycle can have a leap day.
-/

namespace TypedRecords.CivilDay

/-- Day `n` of an era is day `s` of year `a` of cycle `q` of century `c`. -/
structure Cycles (n c q a s : Int) : Prop where
  sum : n = 36524 * c + 1461 * q + 365 * a + s
  century : 0 ≤ c ∧ c ≤ 3
  cycle : 0 ≤ q ∧ q ≤ 24
  year : 0 ≤ a ∧ a ≤ 3
  day : 0 ≤ s ∧ s ≤ 365
  leap : s = 365 → a = 3 ∧ (q = 24 → c = 3)

theorem exists_cycles {n : Int} (h0 : 0 ≤ n) (h1 : n < 146097) :
    ∃ c q a s : Int, Cycles n c q a s := by
  have hlast : n = 146096 ∨ n < 146096 := by omega
  rcases hlast with rfl | hlast
  · exact ⟨3, 24, 3, 365, by constructor <;> omega⟩
  · obtain ⟨m, hm⟩ : ∃ m, m = n % 36524 := ⟨_, rfl⟩
    obtain ⟨r, hr⟩ : ∃ r, r = m % 1461 := ⟨_, rfl⟩
    have hleap : r = 1460 ∨ r < 1460 := by omega
    rcases hleap with hleap | hleap
    · exact ⟨n / 36524, m / 1461, 3, 365, by constructor <;> omega⟩
    · exact ⟨n / 36524, m / 1461, r / 365, r % 365, by constructor <;> omega⟩

namespace Cycles

variable {n c q a s : Int}

theorem yearOfEra (h : Cycles n c q a s) :
    (n - n / 1460 + n / 36524 - n / 146096) / 365 = 100 * c + 4 * q + a := by
  obtain ⟨hn, hc, hq, ha, hs, hleap⟩ := h
  have hlast : n = 146096 ∨ n < 146096 := by omega
  rcases hlast with rfl | hlast
  · omega
  · have hera : n / 146096 = 0 := by omega
    have hcentury : n / 36524 = c := by omega
    rw [hera, hcentury]
    omega

theorem inEra (h : Cycles n c q a s) :
    0 ≤ 100 * c + 4 * q + a ∧ 100 * c + 4 * q + a < 400 := by
  obtain ⟨-, hc, hq, ha, -, -⟩ := h
  omega

/-- Leap days of an era before a year. -/
theorem leapDays (h : Cycles n c q a s) :
    (100 * c + 4 * q + a) / 4 = 25 * c + q ∧ (100 * c + 4 * q + a) / 100 = c := by
  obtain ⟨hn, hc, hq, ha, hs, hleap⟩ := h
  omega

theorem isLeap (h : Cycles n c q a s) (hs : s = 365) (era : Int) :
    CivilDay.isLeap (100 * c + 4 * q + a + era * 400 + 1) = true := by
  obtain ⟨hn, hc, hq, ha, -, hleap⟩ := h
  simp only [CivilDay.isLeap, Bool.and_eq_true, Bool.or_eq_true, decide_eq_true_eq, bne_iff_ne]
  omega

end Cycles

/-- The calendar day, by its month in a year that begins in March. -/
theorem ofDay_of_cycles {day c q a s : Int} (h : Cycles (day - day / 146097 * 146097) c q a s)
    {m : Nat} (hm : (m : Int) = (5 * s + 2) / 153) :
    ofDay day =
      ⟨100 * c + 4 * q + a + day / 146097 * 400 + (if m < 10 then 0 else 1),
        if m < 10 then m + 3 else m - 9, s.toNat - (153 * m + 2) / 5 + 1⟩ := by
  have hfdiv : Int.fdiv day 146097 = day / 146097 := Int.fdiv_eq_ediv_of_nonneg _ (by decide)
  have hs := h.day
  have hday : day - day / 146097 * 146097 -
      (365 * (100 * c + 4 * q + a) + (25 * c + q) - c) = s := by
    have := h.sum
    omega
  have hstart : (153 * (m : Int) + 2) / 5 ≤ s := by omega
  simp only [ofDay, hfdiv, h.yearOfEra, h.leapDays.1, h.leapDays.2, hday, ← hm]
  by_cases hmonth : m < 10
  · have hlt : (m : Int) < 10 := by omega
    have hgt : ¬((m : Int) + 3 ≤ 2) := by omega
    simp only [hmonth, hlt, hgt, if_true, if_false, mk.injEq]
    omega
  · have hlt : ¬((m : Int) < 10) := by omega
    have hgt : (m : Int) - 9 ≤ 2 := by omega
    simp only [hmonth, hlt, hgt, if_true, if_false, mk.injEq]
    refine ⟨trivial, ?_, ?_⟩
    · clear * - hmonth
      omega
    · omega

theorem exists_ofDay (day : Int) :
    ∃ (c q a s : Int) (m : Nat), Cycles (day - day / 146097 * 146097) c q a s ∧
      (m : Int) = (5 * s + 2) / 153 := by
  obtain ⟨c, q, a, s, h⟩ := exists_cycles (n := day - day / 146097 * 146097) (by omega) (by omega)
  have hs := h.day
  exact ⟨c, q, a, s, ((5 * s + 2) / 153).toNat, h, by omega⟩

theorem isValid_ofDay (day : Int) : (ofDay day).isValid = true := by
  obtain ⟨c, q, a, s, m, h, hm⟩ := exists_ofDay day
  rw [ofDay_of_cycles h hm]
  have hs := h.day
  have hle : m ≤ 11 := by omega
  by_cases hleap : s = 365
  · have hfebruary : m = 11 := by omega
    have := h.isLeap hleap (day / 146097)
    simp [isValid, daysInMonth, hfebruary, this]
    omega
  · interval_cases m <;> simp [isValid, daysInMonth] <;> try omega
    split <;> omega

theorem lt_of_isValid {d : CivilDay} (h : d.isValid = true) : d.month < 100 ∧ d.dayOfMonth < 100 := by
  have hle : daysInMonth d.year d.month ≤ 31 := by
    simp only [daysInMonth]
    split
    · split <;> decide
    · split <;> decide
  simp only [isValid, Bool.and_eq_true, decide_eq_true_eq] at h
  omega

/-- The number of a day, by its month in a year that begins in March. -/
theorem toDay_of_march {m : Nat} (hm : m ≤ 11) (era y : Int) (hy : 0 ≤ y ∧ y < 400) (k : Nat) :
    toDay ⟨y + era * 400 + (if m < 10 then 0 else 1), if m < 10 then m + 3 else m - 9, k⟩ =
      era * 146097 + (y * 365 + y / 4 - y / 100 + ((153 * m + 2) / 5 + k - 1 : Nat)) := by
  have hera : Int.fdiv (y + era * 400) 400 = era := by
    rw [Int.fdiv_eq_ediv_of_nonneg _ (by decide)]
    omega
  have hyear : y + era * 400 - era * 400 = y := by omega
  by_cases hmonth : m < 10
  · have hgt : ¬(m + 3 ≤ 2) := by omega
    have hback : (m + 3 + 9) % 12 = m := by omega
    simp only [toDay, hmonth, if_true, hgt, if_false, hback, Int.add_zero, hera, hyear]
  · have hle : m - 9 ≤ 2 := by omega
    have hback : (m - 9 + 9) % 12 = m := by omega
    simp only [toDay, hmonth, if_false, hle, if_true, hback, Int.add_sub_cancel, hera, hyear]

theorem toDay_ofDay (day : Int) : (ofDay day).toDay = day := by
  obtain ⟨c, q, a, s, m, h, hm⟩ := exists_ofDay day
  have hs := h.day
  have hsum := h.sum
  have hdays : (153 * m + 2) / 5 + (s.toNat - (153 * m + 2) / 5 + 1) - 1 = s.toNat := by omega
  rw [ofDay_of_cycles h hm, toDay_of_march (by omega) _ _ h.inEra, h.leapDays.1, h.leapDays.2, hdays]
  omega

end TypedRecords.CivilDay
