import Mathlib.Order.Monotone.Basic
import Pgw.Lib.FixedWidth

/-!
# The Gregorian calendar

The seconds since 1 January 1970, leap seconds apart, as year, month, day, hour, minute
and second. Years are counted from March here, so that the leap day is the last of its
year; months are then counted through, twelve to a year, and so are days.

The day of a month is found by going down in quotients, from the 400 years in which the
calendar repeats itself. What holds of the result is that the month begins no later than
the day and the next month begins after it. This is enough for the order: days are in
the order of their dates.

## Main results

* `monthStart_le`, `lt_monthStart_succ` — the month of a day.
* `fields_lt_fields` — later seconds have later dates and times.
* `month_lt` — years have four digits up to the horizon.
-/
namespace Calendar

/-! ## Steps of a staircase -/

/-- Two places on a staircase: the higher one is on a higher step, or on the same one. -/
theorem step_lt_or {start : ℕ → ℕ} (hmono : Monotone start) {i j x y : ℕ} (hx : start i ≤ x)
    (hy : y < start (j + 1)) (h : x < y) : i < j ∨ i = j ∧ x - start i < y - start j := by
  obtain hij | rfl | hji := Nat.lt_trichotomy i j
  · exact Or.inl hij
  · exact Or.inr ⟨rfl, by omega⟩
  · have hstart : start (j + 1) ≤ start i := hmono hji
    omega

/-! ## Years -/

/-- Days from 1 March of the year 0 to 1 January 1970. -/
def epoch : ℕ := 719468

/-- Days before 1 March of a year. -/
def yearStart (y : ℕ) : ℕ := 365 * y + y / 4 - y / 100 + y / 400

/-- The year of a day, counted from March: 400 years, centuries, four years, years. The
last century and the last year of four are one day longer than the others. -/
def marchYear (day : ℕ) : ℕ :=
  let era := day / 146097
  let ofEra := day % 146097
  let century := min (ofEra / 36524) 3
  let ofCentury := ofEra - 36524 * century
  let quad := ofCentury / 1461
  let ofQuad := ofCentury % 1461
  400 * era + 100 * century + 4 * quad + min (ofQuad / 365) 3

theorem yearStart_digits (era century quad y : ℕ) (hcentury : century < 4) (hquad : quad < 25)
    (hy : y < 4) :
    yearStart (400 * era + 100 * century + 4 * quad + y) =
      146097 * era + 36524 * century + 1461 * quad + 365 * y := by
  unfold yearStart
  omega

theorem yearStart_succ (y : ℕ) : yearStart y + 365 ≤ yearStart (y + 1) ∧
    yearStart (y + 1) ≤ yearStart y + 366 := by
  unfold yearStart
  omega

/-- The year has begun, and the next one has not: the last day of four years, of a
century and of 400 years is the last one of the year before it. -/
theorem marchYear_spec (day : ℕ) :
    yearStart (marchYear day) ≤ day ∧ day < yearStart (marchYear day + 1) := by
  unfold marchYear
  extract_lets era ofEra century ofCentury quad ofQuad
  have hday : day = 146097 * era + ofEra := (Nat.div_add_mod day 146097).symm
  have hera : ofEra < 146097 := Nat.mod_lt _ (by decide)
  have hcentury : ofEra = 36524 * century + ofCentury ∧ century < 4 ∧
      (century < 3 → ofCentury < 36524) ∧ ofCentury ≤ 36524 := by omega
  have hquad : ofCentury = 1461 * quad + ofQuad ∧ ofQuad < 1461 ∧ quad < 25 := by omega
  generalize hy : min (ofQuad / 365) 3 = y
  have hyear : 365 * y ≤ ofQuad ∧ y < 4 ∧ (y < 3 → ofQuad < 365 * (y + 1)) := by omega
  clear_value era ofEra century ofCentury quad ofQuad
  refine ⟨?_, ?_⟩
  · rw [yearStart_digits era century quad y hcentury.2.1 hquad.2.2 hyear.2.1]
    omega
  · obtain hlast | hlast : y < 3 ∨ y = 3 := by omega
    · have hnext := yearStart_digits era century quad (y + 1) hcentury.2.1 hquad.2.2 (by omega)
      have hsum : 400 * era + 100 * century + 4 * quad + y + 1 =
          400 * era + 100 * century + 4 * quad + (y + 1) := by omega
      rw [hsum, hnext]
      omega
    · obtain hlastQuad | hlastQuad : quad < 24 ∨ quad = 24 := by omega
      · have hnext := yearStart_digits era century (quad + 1) 0 hcentury.2.1 (by omega) (by decide)
        have hsum : 400 * era + 100 * century + 4 * quad + y + 1 =
            400 * era + 100 * century + 4 * (quad + 1) + 0 := by omega
        rw [hsum, hnext]
        omega
      · obtain hlastCentury | hlastCentury : century < 3 ∨ century = 3 := by omega
        · have hnext := yearStart_digits era (century + 1) 0 0 (by omega) (by decide) (by decide)
          have hsum : 400 * era + 100 * century + 4 * quad + y + 1 =
              400 * era + 100 * (century + 1) + 4 * 0 + 0 := by omega
          rw [hsum, hnext]
          omega
        · have hnext := yearStart_digits (era + 1) 0 0 0 (by decide) (by decide) (by decide)
          have hsum : 400 * era + 100 * century + 4 * quad + y + 1 =
              400 * (era + 1) + 100 * 0 + 4 * 0 + 0 := by omega
          rw [hsum, hnext]
          omega

/-! ## Months -/

/-- Days from 1 March to the first of a month of the year: 31, 30, 31, 30, 31 and again. -/
def monthOffset (m : ℕ) : ℕ := (153 * m + 2) / 5

/-- Days before the first of a month, the months counted through from March of the year 0. -/
def monthStart (m : ℕ) : ℕ := yearStart (m / 12) + monthOffset (m % 12)

/-- The month of a day. -/
def marchMonth (day : ℕ) : ℕ :=
  12 * marchYear day + (5 * (day - yearStart (marchYear day)) + 2) / 153

theorem monthStart_mono : Monotone monthStart := by
  refine monotone_nat_of_le_succ fun m => ?_
  have hyear := (yearStart_succ (m / 12)).1
  unfold monthStart monthOffset
  obtain hlast | hlast : m % 12 < 11 ∨ m % 12 = 11 := by omega
  · have hdiv : (m + 1) / 12 = m / 12 := by omega
    rw [hdiv]
    omega
  · have hdiv : (m + 1) / 12 = m / 12 + 1 := by omega
    rw [hdiv]
    omega

/-- **A month is under way on each of its days.** -/
theorem marchMonth_spec (day : ℕ) :
    monthStart (marchMonth day) ≤ day ∧ day < monthStart (marchMonth day + 1) := by
  have hyear := marchYear_spec day
  have hlength := (yearStart_succ (marchYear day)).2
  unfold marchMonth monthStart monthOffset
  generalize marchYear day = y at hyear hlength ⊢
  generalize hm : (5 * (day - yearStart y) + 2) / 153 = m
  have hdiv : (12 * y + m) / 12 = y ∧ (12 * y + m) % 12 = m := by omega
  rw [hdiv.1, hdiv.2]
  refine ⟨by omega, ?_⟩
  obtain hlast | hlast : m < 11 ∨ m = 11 := by omega
  · have hnext : (12 * y + m + 1) / 12 = y ∧ (12 * y + m + 1) % 12 = m + 1 := by omega
    rw [hnext.1, hnext.2]
    omega
  · have hnext : (12 * y + m + 1) / 12 = y + 1 ∧ (12 * y + m + 1) % 12 = 0 := by omega
    rw [hnext.1, hnext.2]
    omega

/-! ## Dates -/

/-- Months counted through from January of the year 0. -/
def month (day : ℕ) : ℕ := marchMonth day + 2

/-- Days before this one in its month. -/
def dayOfMonth (day : ℕ) : ℕ := day - monthStart (marchMonth day)

/-- Year, month and day, the latter two counted from 1; `day` from 1 March of the year 0. -/
def date (day : ℕ) : List ℕ := [month day / 12, month day % 12 + 1, dayOfMonth day + 1]

theorem date_lt_date {x y : ℕ} (h : x < y) : date x < date y := by
  have hsteps := step_lt_or monthStart_mono (marchMonth_spec x).1 (marchMonth_spec y).2 h
  simp only [date, List.cons_lt_cons_iff, List.not_lt_nil, and_false, or_false, month,
    dayOfMonth]
  omega

theorem monthStart_succ_le (m : ℕ) : monthStart (m + 1) ≤ monthStart m + 31 := by
  have hyear := (yearStart_succ (m / 12)).2
  unfold monthStart monthOffset
  obtain hlast | hlast : m % 12 < 11 ∨ m % 12 = 11 := by omega
  · have hdiv : (m + 1) / 12 = m / 12 := by omega
    rw [hdiv]
    omega
  · have hdiv : (m + 1) / 12 = m / 12 + 1 := by omega
    rw [hdiv]
    omega

theorem dayOfMonth_lt (day : ℕ) : dayOfMonth day < 31 := by
  have hmonth := marchMonth_spec day
  have hlength := monthStart_succ_le (marchMonth day)
  unfold dayOfMonth
  omega

/-! ## Seconds -/

/-- Year, month, day, hour, minute and second of a second since the epoch. -/
def fields (second : ℕ) : List ℕ :=
  date (second / 86400 + epoch) ++
    [second % 86400 / 3600, second % 86400 / 60 % 60, second % 86400 % 60]

theorem length_date (day : ℕ) : (date day).length = 3 := rfl

/-- **Later seconds have later fields**, the first one that differs decides. -/
theorem fields_lt_fields {s t : ℕ} (h : s < t) : fields s < fields t := by
  rw [fields, fields]
  obtain hday | hday : s / 86400 < t / 86400 ∨ s / 86400 = t / 86400 := by omega
  · have hdate : date (s / 86400 + epoch) < date (t / 86400 + epoch) :=
      date_lt_date (Nat.add_lt_add_right hday epoch)
    exact FixedWidth.append_lt_append hdate (by rw [length_date, length_date]) _ _
  · rw [hday]
    apply List.append_left_lt
    simp only [List.cons_lt_cons_iff, List.not_lt_nil, and_false, or_false]
    omega

/-- Seconds before 1 January 10000. -/
def horizon : ℕ := 253402300800

/-- Years have four digits before the horizon. -/
theorem month_lt {second : ℕ} (h : second < horizon) :
    month (second / 86400 + epoch) < 120000 := by
  by_contra hle
  have hstart := (marchMonth_spec (second / 86400 + epoch)).1
  have hmono : monthStart 119998 ≤ monthStart (marchMonth (second / 86400 + epoch)) := by
    apply monthStart_mono
    unfold month at hle
    omega
  have hhorizon : monthStart 119998 = horizon / 86400 + epoch := by decide
  unfold horizon epoch at *
  omega

example : fields 1705329025 = [2024, 1, 15, 14, 30, 25] := by decide

end Calendar
