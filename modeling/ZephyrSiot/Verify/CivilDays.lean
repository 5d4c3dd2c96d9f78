import ZephyrSiot.Timeconv

/-!
# `civil_from_days` is the calendar

Each division of the source takes one kind of leap day out of a day of the cycle
(`yearOfCycle_eq`), so that the date is that of the day number (`civilFromDays_spec`). No 64-bit
operation overflows before the year has left an `int` (`civilFromDays_run`).
-/

namespace ZephyrSiot
open Gregorian

/-! ## The cycle of 400 years -/

/-- The year of the cycle, from the day of the cycle: the divisions of the source take the leap
days out. -/
theorem yearOfCycle_eq {n c k j t : Nat} (h : DayOfCycle n c k j t) :
    (n - n / 1460 + n / 36524 - n / 146096) / 365 = 100 * c + 4 * k + j := by
  obtain ⟨hc, hk, hj, ht, hn⟩ := h
  have hcentury : n / 36524 - n / 146096 = c ∧ n / 146096 ≤ n / 36524 := by
    rcases Nat.lt_or_ge n 146096 with h | h
    · have : n / 146096 = 0 := Nat.div_eq_of_lt h
      have : n / 36524 = c := by omega
      omega
    · obtain rfl : n = 146096 := by omega
      omega
  -- the last day of a period is the only one that `n / 1460` runs ahead of
  have hle : n / 1460 ≤ 25 * c + k + t := by omega
  have hge : 25 * c + k ≤ n / 1460 := by omega
  have hleap : t = 365 → 25 * c + k + 1 ≤ n / 1460 := by omega
  have hself : n / 1460 ≤ n := Nat.div_le_self ..
  obtain ⟨hcentury, hcentury'⟩ := hcentury
  generalize n / 1460 = a at *
  generalize n / 36524 = b at *
  generalize n / 146096 = b' at *
  have hsum : n - a + b - b' = 365 * (100 * c + 4 * k + j) + (25 * c + k + t - a) := by omega
  have hrest : 25 * c + k + t - a < 365 := by omega
  rw [hsum]
  omega

/-- The same, as the source computes it. -/
theorem toNat_yearOfCycle {doe : UInt32} {c k j t : Nat} (h : DayOfCycle doe.toNat c k j t) :
    ((doe - doe / 1460 + doe / 36524 - doe / 146096) / 365).toNat = 100 * c + 4 * k + j := by
  rw [← yearOfCycle_eq h]
  have hn := h.lt
  have h1 : doe.toNat / 1460 ≤ doe.toNat := Nat.div_le_self ..
  have h2 : doe.toNat / 36524 ≤ doe.toNat := Nat.div_le_self ..
  have h3 : doe.toNat / 146096 ≤ doe.toNat / 36524 := Nat.div_le_div_left (by decide) (by decide)
  simp only [UInt32.toNat_div, UInt32.toNat_sub, UInt32.toNat_add, UInt32.reduceToNat]
  generalize doe.toNat / 1460 = a at *
  generalize doe.toNat / 36524 = b at *
  generalize doe.toNat / 146096 = b' at *
  congr 1
  omega

/-- The day of the year, from the day and the year of the cycle. -/
theorem toNat_dayOfYear {doe yoe : UInt32} {c k j t : Nat} (h : DayOfCycle doe.toNat c k j t)
    (hyoe : yoe.toNat = 100 * c + 4 * k + j) :
    (doe - (365 * yoe + yoe / 4 - yoe / 100)).toNat = t := by
  obtain ⟨h4, h100⟩ := h.year_div
  have hlt := h.year_lt
  have hdays : (365 * yoe + yoe / 4 - yoe / 100).toNat =
      365 * (100 * c + 4 * k + j) + 24 * c + k := by
    simp only [UInt32.toNat_div, UInt32.toNat_sub, UInt32.toNat_add, UInt32.toNat_mul,
      UInt32.reduceToNat, hyoe, h4, h100]
    omega
  have hn := h.eq
  rw [UInt32.toNat_sub_of_le _ _ (UInt32.le_iff_toNat_le.mpr (by omega)), hdays, hn]
  omega

/-- Month and day, from the day of the year that begins in March. -/
theorem monthOfDay : ∀ t < 366,
    let doy := UInt32.ofNat t
    let mp := (5 * doy + 2) / 153
    let d := doy - (153 * mp + 2) / 5 + 1
    let m := if mp < 10 then mp + 3 else mp - 9
    mp.toNat ≤ 11 ∧ (1 ≤ m.toNat ∧ m.toNat ≤ 12) ∧
      (1 ≤ d.toNat ∧ d.toNat ≤ monthLength (t = 365) m.toNat) ∧
      daysBeforeMonthOfMarch m.toNat + d.toNat = t + 1 := by
  decide +kernel

namespace civilFromDays

/-- The ranges that the comments of the source give. -/
structure Unsigned.InRange (u : Unsigned) : Prop where
  doe : u.doe.toNat ≤ 146096
  yoe : u.yoe.toNat ≤ 399
  doy : u.doy.toNat ≤ 365
  mp : u.mp.toNat ≤ 11

/-- The year, which begins in January again. -/
def Unsigned.year (u : Unsigned) (era : Int) : Int :=
  u.yoe.toNat + era * 400 + (if u.m ≤ 2 then 1 else 0)

/-- The variables of a day of the cycle are in range, and make its date. -/
theorem unsigned_spec {doe : UInt32} (hdoe : doe.toNat < 146097) (era : Int) :
    (unsigned doe).InRange ∧
      IsDate ((unsigned doe).year era) (unsigned doe).m.toNat (unsigned doe).d.toNat ∧
      dayNumber ((unsigned doe).year era) (unsigned doe).m.toNat (unsigned doe).d.toNat =
        era * 146097 + doe.toNat - 719468 := by
  obtain ⟨c, k, j, t, hcycle⟩ := exists_dayOfCycle hdoe
  have hyoe : (unsigned doe).yoe.toNat = 100 * c + 4 * k + j := toNat_yearOfCycle hcycle
  have hdoy : (unsigned doe).doy.toNat = t := toNat_dayOfYear hcycle hyoe
  have ht : t < 366 := by
    have := hcycle.day
    omega
  have hY := hcycle.year_lt
  have hmd := monthOfDay t ht
  rw [← hdoy, UInt32.ofNat_toNat, hdoy] at hmd
  obtain ⟨hmp, hm, ⟨hd, hlen⟩, hsum⟩ := hmd
  change (unsigned doe).mp.toNat ≤ 11 at hmp
  change 1 ≤ (unsigned doe).m.toNat ∧ (unsigned doe).m.toNat ≤ 12 at hm
  change 1 ≤ (unsigned doe).d.toNat at hd
  change (unsigned doe).d.toNat ≤ monthLength (t = 365) (unsigned doe).m.toNat at hlen
  change daysBeforeMonthOfMarch (unsigned doe).m.toNat + (unsigned doe).d.toNat = t + 1 at hsum
  refine ⟨⟨Nat.le_of_lt_succ hdoe, by omega, by omega, hmp⟩, ?_⟩
  have hle : (unsigned doe).m ≤ 2 ↔ (unsigned doe).m.toNat ≤ 2 := UInt32.le_iff_toNat_le
  simp only [Unsigned.year, hyoe, hle]
  generalize unsigned doe = u at *
  refine ⟨⟨hm, hd, hlen.trans (monthLength_le fun hfeb hleap => ?_)⟩, ?_⟩
  · rw [if_pos (by omega)]
    exact hcycle.isLeap (of_decide_eq_true hleap) era
  · obtain ⟨h4, h100⟩ := hcycle.year_div
    rw [dayNumber_eq _ hm.2, marchFirst_cycle era hY, h4, h100]
    have := hcycle.eq
    omega

/-- The era is rounded down, also where the division rounds towards zero. -/
theorem era_eq (z : Int) : (if z ≥ 0 then z else z - 146096).tdiv 146097 = z / 146097 := by
  split
  · next h => exact Int.tdiv_eq_ediv_of_nonneg h
  · next h =>
    have : (-(z - 146096)).tdiv 146097 = (-(z - 146096)) / 146097 :=
      Int.tdiv_eq_ediv_of_nonneg (by omega)
    rw [Int.neg_tdiv] at this
    omega

/-- The day of the cycle. -/
def dayOfEra (z : Int) : UInt32 := .ofInt (z - z / 146097 * 146097)

theorem toNat_dayOfEra (z : Int) :
    (dayOfEra z).toNat < 146097 ∧ z / 146097 * 146097 + (dayOfEra z).toNat = z := by
  have htoNat : ((dayOfEra z).toNat : Int) = z - z / 146097 * 146097 := by
    rw [dayOfEra, UInt32.ofInt, UInt32.toNat_ofNat']
    omega
  omega

theorem civilFromDays_eq (z : Int) {u : Unsigned} (hu : u = unsigned (dayOfEra (z + 719468))) :
    civilFromDays z = (u.year ((z + 719468) / 146097), u.m, u.d) := by
  rw [hu, dayOfEra, ← era_eq]
  rfl

end civilFromDays

open civilFromDays

/-- **`civil_from_days`** is the calendar: it yields a date, and the day number of the date is the
one it was given. -/
theorem civilFromDays_spec (z : Int) {y : Int} {m d : UInt32} (h : civilFromDays z = (y, m, d)) :
    IsDate y m.toNat d.toNat ∧ dayNumber y m.toNat d.toNat = z := by
  obtain ⟨hlt, hsplit⟩ := toNat_dayOfEra (z + 719468)
  obtain ⟨-, hdate, hnumber⟩ := unsigned_spec hlt ((z + 719468) / 146097)
  rw [civilFromDays_eq z rfl] at h
  cases h
  refine ⟨hdate, hnumber.trans ?_⟩
  omega

/-! ## The machine arithmetic -/

theorem int64_eq {v : Int} (hmin : -2 ^ 63 ≤ v) (hmax : v < 2 ^ 63) : int64 v = some v :=
  if_pos ⟨hmin, hmax⟩

/-- No operation overflows, unless the day is far beyond the years that fit in an `int`. -/
theorem civilFromDays_run {z : Int} (hmin : -2 ^ 62 ≤ z) (hmax : z < 2 ^ 62) {u : Unsigned}
    (hu : u = unsigned (dayOfEra (z + 719468))) :
    civilFromDays.run z = some (.ofInt (u.year ((z + 719468) / 146097)), u) := by
  obtain ⟨hlt, -⟩ := toNat_dayOfEra (z + 719468)
  obtain ⟨hrange, -⟩ := unsigned_spec hlt ((z + 719468) / 146097)
  have hyoe := hrange.yoe
  rw [← hu] at hyoe
  obtain ⟨z', hz'⟩ : ∃ z', z + 719468 = z' := ⟨_, rfl⟩
  rw [hz'] at hu ⊢
  have hstart : int64 z' = some z' := int64_eq (by omega) (by omega)
  have hdividend : int64 (if z' ≥ 0 then z' else z' - 146096) =
      some (if z' ≥ 0 then z' else z' - 146096) := by
    split
    · exact hstart
    · exact int64_eq (by omega) (by omega)
  have hdays : int64 (z' / 146097 * 146097) = some (z' / 146097 * 146097) :=
    int64_eq (by omega) (by omega)
  have hdifference : int64 (z' - z' / 146097 * 146097) = some (z' - z' / 146097 * 146097) :=
    int64_eq (by omega) (by omega)
  have hyears : int64 (z' / 146097 * 400) = some (z' / 146097 * 400) :=
    int64_eq (by omega) (by omega)
  have hy : int64 (u.yoe.toNat + z' / 146097 * 400) = some (u.yoe.toNat + z' / 146097 * 400) :=
    int64_eq (by omega) (by omega)
  have hyear : int64 (u.yoe.toNat + z' / 146097 * 400 + (if u.m ≤ 2 then 1 else 0)) =
      some (u.year (z' / 146097)) := by
    unfold Unsigned.year
    split <;> exact int64_eq (by omega) (by omega)
  have hdoe : unsigned (.ofInt (z' - z' / 146097 * 146097)) = u := hu.symm
  simp only [civilFromDays.run, hz', Option.bind_eq_bind, hstart, Option.bind_some, hdividend,
    era_eq, hdays, hdifference, hyears, hdoe, hy, hyear]

/-- The year of the date with a day number fits in an `int`. -/
def YearFits (z : Int) : Prop :=
  ∃ y m d, IsDate y m d ∧ dayNumber y m d = z ∧ -2 ^ 31 ≤ y ∧ y < 2 ^ 31

/-- What is stored is what is computed without bounds. -/
theorem run_of_yearFits {z : Int} (h : YearFits z) {u : Unsigned}
    (hu : u = unsigned (dayOfEra (z + 719468))) :
    ∃ year : Int32, civilFromDays.run z = some (year, u) ∧
      civilFromDays z = (year.toInt, u.m, u.d) := by
  obtain ⟨y, m, d, hdate, hnumber, hymin, hymax⟩ := h
  have hcivil := civilFromDays_eq z hu
  have hyear : u.year ((z + 719468) / 146097) = y := by
    obtain ⟨hdate', hnumber'⟩ := civilFromDays_spec z hcivil
    exact (hdate'.unique hdate (hnumber'.trans hnumber.symm)).1
  have hbounds := hdate.dayNumber_bounds
  unfold daysBeforeYear at hbounds
  have hrun := civilFromDays_run (z := z) (by omega) (by omega) hu
  rw [hyear] at hcivil hrun
  refine ⟨.ofInt y, hrun, ?_⟩
  rw [hcivil, Int32.toInt_ofInt_of_le (by omega) (by omega)]

/-- **`civil_from_days` on the machine is the calendar**, before 1970 and before the year 0 too: as
long as the year fits in an `int` nothing overflows, what is stored is the date with the day number,
and the `unsigned` variables are in the ranges that the source gives. -/
theorem civilFromDays_gregorian {z : Int} (h : YearFits z) :
    ∃ (year : Int32) (u : Unsigned), civilFromDays.run z = some (year, u) ∧
      IsDate year.toInt u.m.toNat u.d.toNat ∧ dayNumber year.toInt u.m.toNat u.d.toNat = z ∧
      u.InRange := by
  obtain ⟨year, hrun, hcivil⟩ := run_of_yearFits h rfl
  obtain ⟨hdate, hnumber⟩ := civilFromDays_spec z hcivil
  have hlt := (toNat_dayOfEra (z + 719468)).1
  exact ⟨year, _, hrun, hdate, hnumber, (unsigned_spec hlt 0).1⟩

theorem civilFromDays_gregorian_beforeEpoch :
    ∃ (year : Int32) (u : Unsigned), civilFromDays.run (-719529) = some (year, u) ∧
      IsDate year.toInt u.m.toNat u.d.toNat ∧
      dayNumber year.toInt u.m.toNat u.d.toNat = -719529 := by
  have hfits : YearFits (-719529) :=
    ⟨-1, 12, 31, ⟨by decide, by decide⟩, by decide, by decide, by decide⟩
  obtain ⟨year, u, hrun, hdate, hnumber, -⟩ := civilFromDays_gregorian hfits
  exact ⟨year, u, hrun, hdate, hnumber⟩

end ZephyrSiot
