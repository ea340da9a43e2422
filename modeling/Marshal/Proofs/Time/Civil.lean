import Mathlib.Tactic.IntervalCases
import Marshal.Time.Civil

/-!
# Counting days

`Date.ofDays_spec`: the day at a number of days from the epoch is a day of the calendar at that number.
`toDays_bounds`: the days of a year are those between the first of January and the next.

The year of a day is a quotient that rounds, and its rounding is right because it is right on the
first and the last day of every year of a four hundred year cycle and never goes back.
-/

namespace Marshal.Time

/-! ## Years -/

theorem isLeapYear_iff {y : Int} :
    isLeapYear y = true ↔ y % 4 = 0 ∧ (y % 100 ≠ 0 ∨ y % 400 = 0) := by
  simp [isLeapYear]

/-- The days of the years before a year, when years begin in March. -/
def daysBefore (y : Int) : Int := 365 * y + y / 4 - y / 100 + y / 400

theorem daysBefore_succ (y : Int) :
    daysBefore (y + 1) = daysBefore y + if isLeapYear (y + 1) then 366 else 365 := by
  unfold daysBefore
  split
  · rename_i h
    have := isLeapYear_iff.1 h
    omega
  · rename_i h
    rw [isLeapYear_iff] at h
    omega

theorem daysBefore_add_era (y era : Int) :
    daysBefore (y + era * 400) = daysBefore y + era * 146097 := by
  unfold daysBefore
  omega

theorem daysBefore_lt_succ (y : Int) : daysBefore y + 365 ≤ daysBefore (y + 1) := by
  rw [daysBefore_succ]
  split <;> omega

theorem daysBefore_mono {y z : Int} (h : y ≤ z) : daysBefore y + 365 * (z - y) ≤ daysBefore z := by
  have hmono : Monotone fun y => daysBefore y - 365 * y := by
    refine monotone_int_of_le_succ fun y => ?_
    have hstep := daysBefore_lt_succ y
    omega
  have hle := hmono h
  simp only at hle
  omega

/-- The year of a day within four hundred years. -/
def yearOfEra (n : Int) : Int := (n - n / 1460 + n / 36524 - n / 146096) / 365

theorem yearOfEra_le_succ (n : Int) : yearOfEra n ≤ yearOfEra (n + 1) := by
  unfold yearOfEra
  refine Int.ediv_le_ediv (by decide) ?_
  omega

theorem yearOfEra_mono {n m : Int} (h : n ≤ m) : yearOfEra n ≤ yearOfEra m :=
  monotone_int_of_le_succ yearOfEra_le_succ h

/-- The quotient is right on the first day of each year and on the day before. -/
theorem yearOfEra_daysBefore : ∀ y : Fin 400, yearOfEra (daysBefore y) = y ∧
    (0 < (y : Int) → yearOfEra (daysBefore y - 1) = (y : Int) - 1) := by
  decide +kernel

theorem yearOfEra_spec {n : Int} (h0 : 0 ≤ n) (h1 : n < 146097) :
    0 ≤ yearOfEra n ∧ yearOfEra n ≤ 399 ∧ daysBefore (yearOfEra n) ≤ n ∧
      n < daysBefore (yearOfEra n + 1) := by
  have hlo : yearOfEra 0 ≤ yearOfEra n := yearOfEra_mono h0
  have hhi : yearOfEra n ≤ yearOfEra 146096 := yearOfEra_mono (by omega)
  have hzero : yearOfEra 0 = 0 := by decide
  have hlast : yearOfEra 146096 = 399 := by decide
  have hat : ∀ y, 0 ≤ y → y ≤ 399 → yearOfEra (daysBefore y) = y ∧
      (0 < y → yearOfEra (daysBefore y - 1) = y - 1) := by
    intro y hy0 hy1
    obtain ⟨k, rfl⟩ := Int.eq_ofNat_of_zero_le hy0
    exact yearOfEra_daysBefore ⟨k, by omega⟩
  refine ⟨by omega, by omega, ?_, ?_⟩
  · by_contra hlt
    have hpos : 0 < yearOfEra n := by
      by_contra hz
      have hz : yearOfEra n = 0 := by omega
      rw [hz] at hlt
      exact hlt h0
    have := (hat _ (by omega) (by omega)).2 hpos
    have := yearOfEra_mono (show n ≤ daysBefore (yearOfEra n) - 1 by omega)
    omega
  · by_contra hge
    by_cases hend : yearOfEra n = 399
    · rw [hend] at hge
      have : daysBefore (399 + 1) = 146097 := by decide
      omega
    · have := (hat (yearOfEra n + 1) (by omega) (by omega)).1
      have := yearOfEra_mono (show daysBefore (yearOfEra n + 1) ≤ n by omega)
      omega

/-! ## Days of the calendar -/

/-- A day of the calendar, of whatever year. -/
structure Date.Exists (d : Date) : Prop where
  month : 1 ≤ d.month ∧ d.month ≤ 12
  day : 1 ≤ d.day ∧ d.day ≤ daysInMonth d.year d.month

theorem Date.isValid_iff {d : Date} : d.isValid = true ↔ yearInRange d.year = true ∧ d.Exists := by
  simp only [isValid, Bool.and_eq_true, decide_eq_true_iff]
  exact ⟨fun ⟨⟨⟨⟨hy, hm⟩, hm'⟩, hd⟩, hd'⟩ => ⟨hy, ⟨hm, hm'⟩, hd, hd'⟩,
    fun ⟨hy, ⟨hm, hm'⟩, hd, hd'⟩ => ⟨⟨⟨⟨hy, hm⟩, hm'⟩, hd⟩, hd'⟩⟩

/-- The number of a day from its March year and its day within that year. -/
theorem Date.toDays_eq (d : Date) :
    d.toDays = daysBefore (if d.month ≤ 2 then d.year - 1 else d.year) +
      ((153 * (if d.month ≤ 2 then (d.month : Int) + 9 else (d.month : Int) - 3) + 2) / 5 +
        (d.day : Int) - 1) - 719468 := by
  unfold toDays daysBefore
  dsimp only
  split <;> omega

/-- **The days of a year** lie between its first of January and that of the next. -/
theorem Date.Exists.toDays_bounds {d : Date} (h : d.Exists) :
    daysBefore (d.year - 1) + 306 ≤ d.toDays + 719468 ∧
      d.toDays + 719468 < daysBefore d.year + 306 := by
  obtain ⟨⟨hm1, hm12⟩, hd1, hd2⟩ := h
  obtain ⟨y, m, day⟩ := d
  have hyear := daysBefore_succ (y - 1)
  rw [Int.sub_add_cancel] at hyear
  rw [toDays_eq]
  dsimp only at *
  unfold daysInMonth at hd2
  rcases hleap : isLeapYear y with _ | _ <;> rw [hleap] at hyear hd2 <;>
    simp only [Bool.false_eq_true, if_false, if_true] at hyear hd2 <;>
    interval_cases m <;> simp at hd2 ⊢ <;> omega

/-- The month and day of a day of a March year, and the year the month is in. -/
def Date.ofYearAndDay (year doy : Int) : Date :=
  let m := (5 * doy + 2) / 153
  let month := if m < 10 then m + 3 else m - 9
  ⟨if month ≤ 2 then year + 1 else year, month.toNat, (doy - (153 * m + 2) / 5 + 1).toNat⟩

theorem Date.ofDays_eq (z : Int) :
    Date.ofDays z =
      let n := (z + 719468) % 146097
      ofYearAndDay (yearOfEra n + (z + 719468) / 146097 * 400) (n - daysBefore (yearOfEra n)) := by
  have hmod : z + 719468 - (z + 719468) / 146097 * 146097 = (z + 719468) % 146097 := by omega
  have hn0 : 0 ≤ (z + 719468) % 146097 := by omega
  have hn1 : (z + 719468) % 146097 < 146097 := by omega
  obtain ⟨hy0, hy1, -, -⟩ := yearOfEra_spec hn0 hn1
  have hdays : ∀ y, 0 ≤ y → y ≤ 399 → daysBefore y = 365 * y + y / 4 - y / 100 := by
    intro y _ _
    unfold daysBefore
    omega
  dsimp only
  rw [hdays _ hy0 hy1, ← hmod]
  rfl

/-- The months of a March year: a day of it has a month, and its number in the month is a day of the
calendar. -/
theorem Date.ofYearAndDay_spec {year doy : Int} (h0 : 0 ≤ doy)
    (h1 : doy < if isLeapYear (year + 1) then 366 else 365) :
    (ofYearAndDay year doy).Exists ∧
      (ofYearAndDay year doy).toDays = daysBefore year + doy - 719468 := by
  have hm0 : 0 ≤ (5 * doy + 2) / 153 := by omega
  have hm1 : (5 * doy + 2) / 153 ≤ 11 := by
    split at h1 <;> omega
  rw [toDays_eq]
  unfold ofYearAndDay
  dsimp only
  generalize hm : (5 * doy + 2) / 153 = m at *
  constructor
  · constructor
    · dsimp only
      split <;> omega
    · dsimp only
      unfold daysInMonth
      interval_cases m <;> simp <;> (split at h1 <;> simp_all <;> omega)
  · interval_cases m <;> simp <;> omega

/-- **The day at a number of days** is a day of the calendar, and is at that number of days. -/
theorem Date.ofDays_spec (z : Int) : (ofDays z).Exists ∧ (ofDays z).toDays = z := by
  have hn0 : 0 ≤ (z + 719468) % 146097 := by omega
  have hn1 : (z + 719468) % 146097 < 146097 := by omega
  have hz : z + 719468 = (z + 719468) / 146097 * 146097 + (z + 719468) % 146097 := by omega
  rw [ofDays_eq]
  dsimp only
  generalize (z + 719468) % 146097 = n at *
  generalize (z + 719468) / 146097 = era at *
  obtain ⟨-, -, hlo, hhi⟩ := yearOfEra_spec hn0 hn1
  have hlen : n - daysBefore (yearOfEra n) <
      if isLeapYear (yearOfEra n + era * 400 + 1) then 366 else 365 := by
    have h := daysBefore_succ (yearOfEra n + era * 400)
    have h' := daysBefore_add_era (yearOfEra n + 1) era
    rw [daysBefore_add_era, show yearOfEra n + era * 400 + 1 = yearOfEra n + 1 + era * 400 by omega,
      h'] at h
    rw [show yearOfEra n + era * 400 + 1 = yearOfEra n + 1 + era * 400 by omega]
    omega
  obtain ⟨hex, hdays⟩ := ofYearAndDay_spec (by omega) hlen
  refine ⟨hex, ?_⟩
  rw [hdays, daysBefore_add_era]
  omega

end Marshal.Time
