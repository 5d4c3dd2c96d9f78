import Mathlib.Algebra.Ring.Int.Defs
import Mathlib.Algebra.Ring.Nat

/-!
# The proleptic Gregorian calendar

`dayNumber y m d` counts the days from 1970-01-01 to a date of any year, years before the reform
and before year 1 included. The leap day is the last day of a year that begins in March, so
in a cycle of 400 such years a day is a century, a four-year period, a year and a day of the year,
each as long as the others of its kind but perhaps for the last (`exists_dayOfCycle`).
-/

namespace Gregorian

def isLeap (y : Int) : Bool := y % 4 = 0 ∧ (y % 100 ≠ 0 ∨ y % 400 = 0)

def monthLength (leap : Bool) (m : Nat) : Nat :=
  if m = 2 then if leap then 29 else 28
  else if m = 4 ∨ m = 6 ∨ m = 9 ∨ m = 11 then 30
  else 31

def daysBeforeMonth (leap : Bool) (m : Nat) : Nat :=
  ((List.range (m - 1)).map fun i => monthLength leap (i + 1)).sum

/-- The days from 0001-01-01 to the first of January. -/
def daysBeforeYear (y : Int) : Int :=
  365 * (y - 1) + (y - 1) / 4 - (y - 1) / 100 + (y - 1) / 400

/-- The days from 1970-01-01. -/
def dayNumber (y : Int) (m d : Nat) : Int :=
  daysBeforeYear y + daysBeforeMonth (isLeap y) m + d - 719163

example : dayNumber 1970 1 1 = 0 := by decide
example : dayNumber 2000 3 1 = 11017 := by decide

structure IsDate (y : Int) (m d : Nat) : Prop where
  month : 1 ≤ m ∧ m ≤ 12
  day : 1 ≤ d ∧ d ≤ monthLength (isLeap y) m

theorem isLeap_iff {y : Int} : isLeap y = true ↔ y % 4 = 0 ∧ (y % 100 ≠ 0 ∨ y % 400 = 0) :=
  decide_eq_true_iff

/-- Only February is longer in a leap year. -/
theorem monthLength_le {leap leap' : Bool} {m : Nat} (h : m = 2 → leap = true → leap' = true) :
    monthLength leap m ≤ monthLength leap' m := by
  unfold monthLength
  split
  · next hm =>
    cases leap with
    | false => cases leap' <;> decide
    | true => rw [h hm rfl]
  · exact Nat.le_refl _

/-- A year is as long as its months. -/
theorem daysBeforeYear_succ (y : Int) :
    daysBeforeYear (y + 1) = daysBeforeYear y + daysBeforeMonth (isLeap y) 13 := by
  have h : daysBeforeMonth (isLeap y) 13 = if isLeap y then 366 else 365 := by
    cases isLeap y <;> rfl
  rw [h]
  unfold daysBeforeYear
  split
  · next hl =>
    rw [isLeap_iff] at hl
    omega
  · next hl =>
    rw [isLeap_iff] at hl
    omega

theorem dayNumber_day (y : Int) (m d : Nat) : dayNumber y m d = dayNumber y m 1 + d - 1 := by
  unfold dayNumber
  omega

/-- A date lies within its year. -/
theorem IsDate.dayNumber_bounds {y : Int} {m d : Nat} (h : IsDate y m d) :
    daysBeforeYear y - 719162 ≤ dayNumber y m d ∧
      dayNumber y m d < daysBeforeYear y - 719162 + 366 := by
  have hyear : ∀ leap, ∀ m ≤ 12, 1 ≤ m → daysBeforeMonth leap m + monthLength leap m ≤ 366 := by
    decide
  have := hyear (isLeap y) m h.month.2 h.month.1
  have := h.day
  unfold dayNumber
  omega

/-- Within a year, the months follow one another. -/
theorem daysBeforeMonth_add_monthLength_le :
    ∀ leap, ∀ m' ≤ 13, ∀ m < m', 1 ≤ m →
      daysBeforeMonth leap m + monthLength leap m ≤ daysBeforeMonth leap m' := by
  decide

/-- A date lies before the first of January after it. -/
theorem IsDate.dayNumber_lt {y y' : Int} {m d : Nat} (h : IsDate y m d) (hy : y < y') :
    dayNumber y m d < daysBeforeYear y' - 719162 := by
  have hmono : daysBeforeYear (y + 1) ≤ daysBeforeYear y' := by
    unfold daysBeforeYear
    omega
  have := daysBeforeMonth_add_monthLength_le (isLeap y) 13 (Nat.le_refl _) m
    (Nat.lt_succ_of_le h.month.2) h.month.1
  have := daysBeforeYear_succ y
  have := h.day
  unfold dayNumber
  omega

/-- Dates follow one another by year, month and day. -/
theorem IsDate.dayNumber_lt_of {y y' : Int} {m d m' d' : Nat} (h : IsDate y m d)
    (h' : IsDate y' m' d') (hlt : y < y' ∨ y = y' ∧ (m < m' ∨ m = m' ∧ d < d')) :
    dayNumber y m d < dayNumber y' m' d' := by
  rcases hlt with hy | ⟨rfl, hm | ⟨rfl, hd⟩⟩
  · have := h.dayNumber_lt hy
    have := h'.dayNumber_bounds
    omega
  · have := daysBeforeMonth_add_monthLength_le (isLeap y) m' (Nat.le_succ_of_le h'.month.2) m hm
      h.month.1
    have := h.day
    have := h'.day
    unfold dayNumber
    omega
  · unfold dayNumber
    omega

theorem IsDate.dayNumber_lt_iff {y y' : Int} {m d m' d' : Nat} (h : IsDate y m d)
    (h' : IsDate y' m' d') :
    dayNumber y m d < dayNumber y' m' d' ↔ y < y' ∨ y = y' ∧ (m < m' ∨ m = m' ∧ d < d') := by
  refine ⟨fun hlt => ?_, h.dayNumber_lt_of h'⟩
  by_contra hnot
  have hge : y' < y ∨ y' = y ∧ (m' < m ∨ m' = m ∧ d' < d) ∨ y = y' ∧ m = m' ∧ d = d' := by omega
  rcases hge with hy | ⟨hy, hmd⟩ | ⟨rfl, rfl, rfl⟩
  · exact Int.lt_asymm hlt (h'.dayNumber_lt_of h (.inl hy))
  · exact Int.lt_asymm hlt (h'.dayNumber_lt_of h (.inr ⟨hy, hmd⟩))
  · exact Int.lt_irrefl _ hlt

/-- **A day has one date.** -/
theorem IsDate.unique {y y' : Int} {m d m' d' : Nat} (h : IsDate y m d) (h' : IsDate y' m' d')
    (heq : dayNumber y m d = dayNumber y' m' d') : y = y' ∧ m = m' ∧ d = d' := by
  have hlt := h.dayNumber_lt_iff h'
  have hgt := h'.dayNumber_lt_iff h
  omega

/-! ## Years that begin in March -/

/-- The days from the first of March of a year to the first of a month of it, January and February
being those of the year after. -/
def daysBeforeMonthOfMarch (m : Nat) : Nat :=
  if m ≤ 2 then 306 + daysBeforeMonth false m else daysBeforeMonth false m - 59

/-- The day number of the first of March. -/
def marchFirst (y : Int) : Int := daysBeforeYear (y + 1) - 719162 - 306

/-- A date by its place in the year that begins in March. -/
theorem dayNumber_eq (y : Int) {m : Nat} (hm : m ≤ 12) (d : Nat) :
    dayNumber (y + if m ≤ 2 then 1 else 0) m d =
      marchFirst y + daysBeforeMonthOfMarch m + d - 1 := by
  have hshort : ∀ leap, ∀ m ≤ 2, daysBeforeMonth leap m = daysBeforeMonth false m := by decide
  have hlong : ∀ leap, ∀ m ≤ 12, 2 < m → 59 ≤ daysBeforeMonth false m ∧
      daysBeforeMonth leap 13 + daysBeforeMonth false m = daysBeforeMonth leap m + 365 := by decide
  unfold dayNumber marchFirst daysBeforeMonthOfMarch
  split
  · next h =>
    rw [hshort _ m h]
    omega
  · next h =>
    have := daysBeforeYear_succ y
    have := hlong (isLeap y) m hm (by omega)
    rw [Int.add_zero]
    omega

/-- The first of March in a cycle of 400 years. -/
theorem marchFirst_cycle (era : Int) {y : Nat} (hy : y < 400) :
    marchFirst (y + era * 400) =
      era * 146097 + (365 * y + y / 4 - y / 100 : Nat) - 719468 := by
  unfold marchFirst daysBeforeYear
  omega

/-- A day of a cycle of 400 years: century, four-year period, year of the period, and day of the
year, which is the 366th only in the last year of a period. -/
structure DayOfCycle (n c k j t : Nat) : Prop where
  century : c ≤ 3
  period : k ≤ 24
  year : j ≤ 3
  day : t ≤ 364 ∨ t = 365 ∧ j = 3 ∧ (k < 24 ∨ c = 3)
  eq : n = 36524 * c + 1461 * k + 365 * j + t

/-- The last part may be longer than the others. -/
private theorem exists_part (n last : Nat) {size : Nat} (hsize : 0 < size) :
    ∃ q r, q ≤ last ∧ (r < size ∨ q = last) ∧ n = size * q + r := by
  rcases Nat.le_total (n / size) last with hle | hge
  · exact ⟨n / size, n % size, hle, .inl (Nat.mod_lt n hsize), (Nat.div_add_mod n size).symm⟩
  · have hlast : size * last ≤ n := by
      rw [Nat.mul_comm]
      exact (Nat.le_div_iff_mul_le hsize).mp hge
    exact ⟨last, n - size * last, Nat.le_refl _, .inr rfl, (Nat.add_sub_of_le hlast).symm⟩

theorem exists_dayOfCycle {n : Nat} (h : n < 146097) : ∃ c k j t, DayOfCycle n c k j t := by
  obtain ⟨c, r, hc, hr, hn⟩ := exists_part n 3 (by decide : 0 < 36524)
  obtain ⟨j, t, hj, ht, hr'⟩ := exists_part (r % 1461) 3 (by decide : 0 < 365)
  have hperiod : r = 1461 * (r / 1461) + (365 * j + t) := by
    rw [← hr']
    exact (Nat.div_add_mod r 1461).symm
  have hlt : r % 1461 < 1461 := Nat.mod_lt _ (by decide)
  generalize r / 1461 = k at hperiod
  refine ⟨c, k, j, t, hc, by omega, hj, ?_, by omega⟩
  rcases ht with ht | rfl
  · exact .inl (by omega)
  · rcases Nat.lt_or_ge t 365 with ht | ht
    · exact .inl (by omega)
    · exact .inr ⟨by omega, rfl, by omega⟩

theorem DayOfCycle.lt {n c k j t : Nat} (h : DayOfCycle n c k j t) : n < 146097 := by
  obtain ⟨hc, hk, hj, ht, hn⟩ := h
  omega

/-- The leap years and the centuries before a year of the cycle. -/
theorem DayOfCycle.year_div {n c k j t : Nat} (h : DayOfCycle n c k j t) :
    (100 * c + 4 * k + j) / 4 = 25 * c + k ∧ (100 * c + 4 * k + j) / 100 = c := by
  have := h.period
  have := h.year
  omega

theorem DayOfCycle.year_lt {n c k j t : Nat} (h : DayOfCycle n c k j t) :
    100 * c + 4 * k + j < 400 := by
  have := h.century
  have := h.period
  have := h.year
  omega

/-- Only a leap day is the 366th. -/
theorem DayOfCycle.isLeap {n c k j t : Nat} (h : DayOfCycle n c k j t) (ht : t = 365)
    (era : Int) : isLeap ((100 * c + 4 * k + j : Nat) + era * 400 + 1) = true := by
  have := h.day
  have := h.century
  have := h.period
  rw [isLeap_iff]
  omega

end Gregorian
