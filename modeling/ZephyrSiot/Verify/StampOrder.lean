import ZephyrSiot.Verify.Timestamps

/-!
# The texts of times are in order

The fields of a timestamp have a fixed width and run from the year down to the nanosecond, so that
comparing texts byte by byte compares times (`stamps_sorted`).
-/

namespace ZephyrSiot
open CStr Gregorian Decimal

/-! ## Fields -/

section
variable {i n m : Nat}

theorem nanos_inj (hn : n < 10 ^ i) (hm : m < 10 ^ i) :
    timeconvRfc3339.nanos i n [] = timeconvRfc3339.nanos i m [] ↔ n = m := by
  refine ⟨fun h => ?_, fun h => h ▸ rfl⟩
  have hvalue := congrArg natValue h
  rwa [(nanos_spec i n).2.2, (nanos_spec i m).2.2, Nat.mod_eq_of_lt hn, Nat.mod_eq_of_lt hm]
    at hvalue

/-- A field of digits is compared as a number. -/
theorem nanos_lt_iff (hn : n < 10 ^ i) (hm : m < 10 ^ i) (u v : Bytes) :
    timeconvRfc3339.nanos i n [] ++ u < timeconvRfc3339.nanos i m [] ++ v ↔
      n < m ∨ n = m ∧ u < v := by
  obtain ⟨hlen, hdigits, hvalue⟩ := nanos_spec i n
  obtain ⟨hlen', hdigits', hvalue'⟩ := nanos_spec i m
  rw [append_lt_append_iff (hlen.trans hlen'.symm), nanos_inj hn hm,
    lt_iff_natValue_lt (hlen.trans hlen'.symm) hdigits hdigits', hvalue, hvalue',
    Nat.mod_eq_of_lt hn, Nat.mod_eq_of_lt hm]

end

/-- The fields of a text, digits between marks. -/
theorem stamp_eq (c : CivilTime) (nsec : Nat) :
    c.stamp nsec = timeconvRfc3339.nanos 4 c.year [] ++
      minus :: (timeconvRfc3339.nanos 2 c.month [] ++
        minus :: (timeconvRfc3339.nanos 2 c.day [] ++
          letterT :: (timeconvRfc3339.nanos 2 c.hour [] ++
            colon :: (timeconvRfc3339.nanos 2 c.min [] ++
              colon :: (timeconvRfc3339.nanos 2 c.sec [] ++
                period :: (timeconvRfc3339.nanos 9 nsec [] ++ [letterZ])))))) := by
  have h10 : c.year / 10 / 10 = c.year / 100 := Nat.div_div_eq_div_mul ..
  have h100 : c.year / 100 / 10 = c.year / 1000 := Nat.div_div_eq_div_mul ..
  have hyear : timeconvRfc3339.nanos 4 c.year [] =
      [digit (c.year / 1000), digit (c.year / 100), digit (c.year / 10), digit c.year] := by
    rw [← h100, ← h10]
    rfl
  rw [hyear]
  rfl

/-- The order of the fields, from the year down. -/
def Earlier (c c' : CivilTime) (nsec nsec' : Nat) : Prop :=
  c.year < c'.year ∨ c.year = c'.year ∧ (c.month < c'.month ∨ c.month = c'.month ∧
    (c.day < c'.day ∨ c.day = c'.day ∧ (c.hour < c'.hour ∨ c.hour = c'.hour ∧
      (c.min < c'.min ∨ c.min = c'.min ∧ (c.sec < c'.sec ∨ c.sec = c'.sec ∧ nsec < nsec')))))

theorem stamp_lt_iff {c c' : CivilTime} (h : c.InRange) (h' : c'.InRange) {nsec nsec' : Nat}
    (hn : nsec < 10 ^ 9) (hn' : nsec' < 10 ^ 9) :
    c.stamp nsec < c'.stamp nsec' ↔ Earlier c c' nsec nsec' := by
  obtain ⟨hyear, hmonth, hday, hhour, hmin, hsec, -⟩ := h
  obtain ⟨hyear', hmonth', hday', hhour', hmin', hsec', -⟩ := h'
  have hlast : ¬ [letterZ] < [letterZ] := by simp
  rw [stamp_eq, stamp_eq, nanos_lt_iff (by omega) (by omega), List.cons_lt_cons_self,
    nanos_lt_iff (by omega) (by omega), List.cons_lt_cons_self,
    nanos_lt_iff (by omega) (by omega), List.cons_lt_cons_self,
    nanos_lt_iff (by omega) (by omega), List.cons_lt_cons_self,
    nanos_lt_iff (by omega) (by omega), List.cons_lt_cons_self,
    nanos_lt_iff (by omega) (by omega), List.cons_lt_cons_self, nanos_lt_iff hn hn']
  simp only [hlast, and_false, or_false, Earlier]

/-! ## Times -/

/-- The seconds of a time of day count up by hour, minute and second. -/
theorem instant_lt_iff_earlier {c c' : CivilTime} (h : c.InRange) (h' : c'.InRange)
    (hsec : c.sec ≤ 59) (hsec' : c'.sec ≤ 59) (hdate : IsDate c.year c.month c.day)
    (hdate' : IsDate c'.year c'.month c'.day) {t t' : Nat}
    (ht : ((t / nsPerSec : Nat) : Int) =
      86400 * dayNumber c.year c.month c.day + 3600 * c.hour + 60 * c.min + c.sec)
    (ht' : ((t' / nsPerSec : Nat) : Int) =
      86400 * dayNumber c'.year c'.month c'.day + 3600 * c'.hour + 60 * c'.min + c'.sec) :
    t < t' ↔ Earlier c c' (t % nsPerSec) (t' % nsPerSec) := by
  obtain ⟨-, -, -, hhour, hmin, -, -⟩ := h
  obtain ⟨-, -, -, hhour', hmin', -, -⟩ := h'
  have hlt := hdate.dayNumber_lt_iff hdate'
  have hgt := hdate'.dayNumber_lt_iff hdate
  unfold Earlier
  unfold nsPerSec at *
  generalize dayNumber c.year c.month c.day = days at *
  generalize dayNumber c'.year c'.month c'.day = days' at *
  omega

/-- **The texts of times are ordered like the times**, and no two times have one text. -/
theorem stamps_sorted (a b : UInt64) {n m : Nat} (hn : rfc3339MaxLen ≤ n) (hm : rfc3339MaxLen ≤ m) :
    ∃ s t, timeconvRfc3339FromEpochNsUtc a n = (0, s ++ [nul]) ∧
      timeconvRfc3339FromEpochNsUtc b m = (0, t ++ [nul]) ∧ 0 ∉ s ∧ 0 ∉ t ∧ (a < b ↔ s < t) ∧
        (a = b ↔ s = t) := by
  obtain ⟨c, hrange, hsec, hdate, hsecs, hformat⟩ := timeconvRfc3339_spec a hn
  obtain ⟨c', hrange', hsec', hdate', hsecs', hformat'⟩ := timeconvRfc3339_spec b hm
  have hnsec (t : UInt64) : t.toNat % nsPerSec < 10 ^ 9 := Nat.mod_lt _ (by decide)
  have h0 {c : CivilTime} {nsec : Nat} : 0 ∉ c.stamp nsec :=
    fun h => absurd (mem_stamp h) (by decide)
  have hlt : a < b ↔ c.stamp (a.toNat % nsPerSec) < c'.stamp (b.toNat % nsPerSec) := by
    rw [stamp_lt_iff hrange hrange' (hnsec a) (hnsec b), UInt64.lt_iff_toNat_lt]
    exact instant_lt_iff_earlier hrange hrange' hsec hsec' hdate hdate' hsecs hsecs'
  have hgt : b < a ↔ c'.stamp (b.toNat % nsPerSec) < c.stamp (a.toNat % nsPerSec) := by
    rw [stamp_lt_iff hrange' hrange (hnsec b) (hnsec a), UInt64.lt_iff_toNat_lt]
    exact instant_lt_iff_earlier hrange' hrange hsec' hsec hdate' hdate hsecs' hsecs
  refine ⟨_, _, hformat, hformat', h0, h0, hlt, ?_, fun heq => ?_⟩
  · rintro rfl
    -- what is written does not depend on the room behind it
    have hroom : timeconvRfc3339FromEpochNsUtc a n = timeconvRfc3339FromEpochNsUtc a m := by
      rw [timeconvRfc3339FromEpochNsUtc, if_neg (Nat.not_lt.mpr hn),
        timeconvRfc3339FromEpochNsUtc, if_neg (Nat.not_lt.mpr hm)]
    rw [hformat, hformat'] at hroom
    exact List.append_cancel_right (Prod.mk.inj hroom).2
  · rw [heq] at hlt hgt
    exact UInt64.le_antisymm (UInt64.not_lt.mp fun h => List.lt_irrefl _ (hgt.mp h))
      (UInt64.not_lt.mp fun h => List.lt_irrefl _ (hlt.mp h))

theorem stamps_sorted_newYear :
    ∃ s t, timeconvRfc3339FromEpochNsUtc 1704067199999999999 31 = (0, s ++ [nul]) ∧
      timeconvRfc3339FromEpochNsUtc 1704067200000000000 64 = (0, t ++ [nul]) ∧ 0 ∉ s ∧ 0 ∉ t ∧
        ((1704067199999999999 : UInt64) < 1704067200000000000 ↔ s < t) ∧
          ((1704067199999999999 : UInt64) = 1704067200000000000 ↔ s = t) :=
  stamps_sorted _ _ (by decide) (by decide)

end ZephyrSiot
