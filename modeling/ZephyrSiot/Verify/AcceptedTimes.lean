import ZephyrSiot.Verify.Timestamps

/-!
# Accepted timestamps

The fields of a timestamp are checked one by one. So it may name a day that its month does not have
(`reprints_iff`), or an instant past the 64 bits of the result (`exactInstant_iff`).
-/

namespace ZephyrSiot
open CStr Gregorian Decimal

section
variable {timegm : Tm → Int} {buf : Bytes} {bufLen : Nat} {c : CivilTime} {fr : Bytes}

/-! ## The range of the result -/

/-- The digits of a timestamp, read as one number. -/
def stampNumber (c : CivilTime) (fraction : Bytes) : Nat :=
  (((((c.year * 100 + c.month) * 100 + c.day) * 100 + c.hour) * 100 + c.min) * 100 + c.sec) *
    10 ^ 9 + nanosOf fraction

/-- The day on which the result runs out of bits is 2554-07-21. -/
theorem compare_date (h : c.InRange) :
    let date := (c.year * 100 + c.month) * 100 + c.day
    let days := dayNumber c.year c.month 1 + c.day - 1
    (date < 25540721 → days < 213503) ∧ (date = 25540721 → days = 213503) ∧
      (25540721 < date → 213503 < days) := by
  have hbefore : ∀ m ≤ 12, daysBeforeMonth false m ≤ 334 ∧ (m ≤ 6 → daysBeforeMonth false m ≤ 151) ∧
      (m = 7 → daysBeforeMonth false m = 181) ∧ (8 ≤ m → 212 ≤ daysBeforeMonth false m) := by
    decide
  have hleap : ∀ leap, ∀ m ≤ 12, daysBeforeMonth leap m ≤ daysBeforeMonth false m + 1 := by
    decide
  obtain ⟨hyear, ⟨hm, hm'⟩, ⟨hd, hd'⟩, -⟩ := h
  have hb := hbefore c.month hm'
  have hl := hleap (isLeap c.year) c.month hm'
  have hcommon : isLeap 2554 = false := rfl
  unfold dayNumber daysBeforeYear
  rcases Nat.lt_trichotomy c.year 2554 with hlt | heq | hgt
  · refine ⟨fun _ => ?_, fun _ => ?_, fun _ => ?_⟩ <;> omega
  · rw [heq] at hl ⊢
    simp only [Nat.cast_ofNat, hcommon]
    refine ⟨fun _ => ?_, fun _ => ?_, fun _ => ?_⟩ <;> omega
  · refine ⟨fun _ => ?_, fun _ => ?_, fun _ => ?_⟩ <;> omega

theorem compare_time (h : c.InRange) :
    let clock := (c.hour * 100 + c.min) * 100 + c.sec
    let secs := 3600 * c.hour + 60 * c.min + c.sec
    (clock < 233433 → secs < 84873) ∧ (clock = 233433 → secs = 84873) ∧
      (233433 < clock → 84873 < secs) := by
  obtain ⟨-, -, -, hhour, hmin, hsec, -⟩ := h
  refine ⟨fun _ => ?_, fun _ => ?_, fun _ => ?_⟩ <;> omega

/-- The instant fits when the digits of the text are not past those of the last one that does. -/
theorem instant_lt_iff (htimegm : IsTimegm timegm) (h : IsStamp (stampRead buf bufLen) c fr) :
    timegm c.tm * 10 ^ 9 + nanosOf fr < 2 ^ 64 ↔ stampNumber c fr ≤ 25540721233433709551615 := by
  have hn := nanosOf_lt h.digits
  have hdate := compare_date h.range
  have htime := compare_time h.range
  obtain ⟨-, -, -, hhour, hmin, hsec, -⟩ := h.range
  rw [epoch_eq htimegm h.range, stampNumber]
  dsimp only at hdate htime
  generalize nanosOf fr = n at *
  generalize dayNumber c.year c.month 1 + c.day - 1 = days at *
  generalize (c.year * 100 + c.month) * 100 + c.day = date at *
  omega

/-- **The nanoseconds.** The fraction never reaches a second. The product and the sum are exact when
the digits of the text, read as one number, are not past 2554-07-21T23:34:33.709551615. -/
theorem exactInstant_iff (htimegm : IsTimegm timegm) (h : IsStamp (stampRead buf bufLen) c fr)
    (hepoch : 0 ≤ timegm c.tm) :
    (∀ s, (timeconvEpochNs.fraction s 100000000 0).1.toNat < 10 ^ 9) ∧
      (timegm c.tm * 10 ^ 9 + nanosOf fr < 2 ^ 64 ∧
          ((timeconvEpochNsFromRfc3339 timegm buf bufLen).toNat : Int) =
            timegm c.tm * 10 ^ 9 + nanosOf fr ↔
        stampNumber c fr ≤ 25540721233433709551615) := by
  constructor
  · intro s
    have hlt := nanosOf_lt (isDigit_digits s)
    have hfr : (timeconvEpochNs.fraction s 100000000 0).1 =
        .ofNat (nanosOf (digits s)) := by
      have := congrArg Prod.fst (fraction_eq (k := 9) (Nat.le_refl _) s 0)
      rwa [UInt32.zero_add] at this
    rw [hfr, UInt32.toNat_ofNat']
    exact Nat.lt_of_le_of_lt (Nat.mod_le _ _) hlt
  · rw [← instant_lt_iff htimegm h]
    refine ⟨And.left, fun hlt => ⟨hlt, ?_⟩⟩
    rw [timeconvEpochNs_of_isStamp h, if_neg (Int.not_lt.mpr hepoch)]
    exact toNat_instant hepoch (nanosOf_lt h.digits) hlt

end

/-- The last instant. -/
def lastInstant : CivilTime := ⟨2554, 7, 21, 23, 34, 33⟩

theorem exactInstant_last :
    ((timeconvEpochNsFromRfc3339 gregorianTimegm (lit "2554-07-21T23:34:33.7095516159Z") 31).toNat : Int) =
      gregorianTimegm lastInstant.tm * 10 ^ 9 + nanosOf (lit "7095516159") :=
  ((exactInstant_iff isTimegm_gregorian (c := lastInstant)
    ⟨.inr (by decide), ⟨by decide, by decide, by decide, by decide, by decide, by decide, by decide⟩,
      by decide⟩ (by decide)).2.mpr (by decide)).2

/-- The first of January 2555 is taken for a day of the year 1970. -/
theorem not_exactInstant_2555 :
    ((timeconvEpochNsFromRfc3339 gregorianTimegm (lit "2555-01-01T00:00:00Z") 20).toNat : Int) ≠
      gregorianTimegm (CivilTime.tm ⟨2555, 1, 1, 0, 0, 0⟩) * 10 ^ 9 := by
  decide

/-! ## Dates that are not in the calendar -/

theorem text_injective {c c' : CivilTime} (h : c.InRange) (h' : c'.InRange)
    (heq : c.text = c'.text) : c = c' := by
  have hmod {n m : Nat} (he : digit n = digit m) : n % 10 = m % 10 := by
    have := congrArg UInt8.toNat he
    rw [toNat_digit, toNat_digit] at this
    omega
  simp only [CivilTime.text, List.cons.injEq, true_and, and_true] at heq
  obtain ⟨hy3, hy2, hy1, hy0, hm1, hm0, hd1, hd0, hh1, hh0, hmin1, hmin0, hs1, hs0⟩ := heq
  have hy3 := hmod hy3
  have hy2 := hmod hy2
  have hy1 := hmod hy1
  have hy0 := hmod hy0
  obtain ⟨hyear, hmonth, hday, hhour, hmin, hsec, -⟩ := h
  obtain ⟨hyear', hmonth', hday', hhour', hmin', hsec', -⟩ := h'
  have htwo {n m : Nat} (hn : n ≤ 99) (hm : m ≤ 99) (h1 : digit (n / 10) = digit (m / 10))
      (h0 : digit n = digit m) : n = m := by
    have := hmod h1
    have := hmod h0
    omega
  exact CivilTime.ext (by omega) (htwo (by omega) (by omega) hm1 hm0)
    (htwo (by omega) (by omega) hd1 hd0) (htwo (by omega) (by omega) hh1 hh0)
    (htwo (by omega) (by omega) hmin1 hmin0) (htwo (by omega) (by omega) hs1 hs0)

/-- The text that is written for the instant of a timestamp has the same fields when the day is one
of its month and the second is not the 60th. -/
theorem timeconvRfc3339_iff {timegm : Tm → Int} (htimegm : IsTimegm timegm) {c : CivilTime}
    (h : c.InRange) {nsec : Nat} (hnsec : nsec < 10 ^ 9) {t : UInt64}
    (ht : (t.toNat : Int) = timegm c.tm * 10 ^ 9 + nsec) :
    timeconvRfc3339FromEpochNsUtc t rfc3339MaxLen = (0, c.stamp nsec ++ [nul]) ↔
      c.day ≤ monthLength (isLeap c.year) c.month ∧ c.sec ≤ 59 := by
  obtain ⟨c', hrange, hsec, hdate, hsecs, hformat⟩ :=
    timeconvRfc3339_spec t (Nat.le_refl rfc3339MaxLen)
  have hepoch := epoch_eq htimegm h
  have hdiv : ((t.toNat / nsPerSec : Nat) : Int) = timegm c.tm := by
    unfold nsPerSec
    omega
  have hmod : t.toNat % nsPerSec = nsec := by
    unfold nsPerSec
    omega
  rw [hformat, hmod, Prod.mk.injEq, and_iff_right rfl]
  constructor
  · intro htext
    have hstamp : c'.stamp nsec = c.stamp nsec := List.append_cancel_right htext
    obtain rfl := text_injective hrange h (List.append_inj_left hstamp rfl)
    exact ⟨hdate.day.2, hsec⟩
  · rintro ⟨hday, hsec60⟩
    have hdate' : IsDate c.year c.month c.day := ⟨h.month, h.day.1, hday⟩
    have htod := h.hour
    have := h.min
    have := hrange.hour
    have := hrange.min
    rw [hdiv, hepoch, dayNumber_day _ _ c'.day] at hsecs
    have hday1 := dayNumber_day c.year c.month c.day
    have hday2 := dayNumber_day c'.year c'.month c'.day
    obtain ⟨hy, hm, hd⟩ := hdate'.unique hdate (by omega)
    have hc : c = c' := by
      rw [← hy, ← hm, ← hd] at hsecs
      exact CivilTime.ext (Int.natCast_inj.mp hy) hm hd (by omega) (by omega) (by omega)
    rw [hc]

/-- **No silent normalization** of a timestamp up to the year 2553, when its day is one of its month
and its second is not the 60th. -/
theorem reprints_iff {timegm : Tm → Int} (htimegm : IsTimegm timegm) {buf : Bytes} {bufLen : Nat}
    (h : timeconvEpochNsFromRfc3339 timegm buf bufLen ≠ 0) :
    ∃ c fr, IsStamp (stampRead buf bufLen) c fr ∧ (c.year ≤ 2553 →
      (timeconvRfc3339FromEpochNsUtc (timeconvEpochNsFromRfc3339 timegm buf bufLen) rfc3339MaxLen =
          (0, c.text ++ (period :: (pad 9 fr ++ [letterZ])) ++ [nul]) ↔
        c.day ≤ monthLength (isLeap c.year) c.month ∧ c.sec ≤ 59)) := by
  obtain ⟨c, fr, hstamp, hepoch⟩ := exists_isStamp h
  refine ⟨c, fr, hstamp, fun hyear => ?_⟩
  have hnsec := nanosOf_lt hstamp.digits
  have hlt : timegm c.tm * 10 ^ 9 + nanosOf fr < 2 ^ 64 := by
    rw [instant_lt_iff htimegm hstamp, stampNumber]
    obtain ⟨-, hmonth, hday, hhour, hmin, hsec, -⟩ := hstamp.range
    omega
  have ht : ((timeconvEpochNsFromRfc3339 timegm buf bufLen).toNat : Int) =
      timegm c.tm * 10 ^ 9 + nanosOf fr := by
    rw [timeconvEpochNs_of_isStamp hstamp, if_neg (Int.not_lt.mpr hepoch)]
    exact toNat_instant hepoch hnsec hlt
  rw [← timeconvRfc3339_iff htimegm hstamp.range hnsec ht]
  have hnanos : timeconvRfc3339.nanos 9 (nanosOf fr) [] = pad 9 fr := by
    have := nanos_value (isDigit_pad hstamp.digits 9) []
    rwa [length_pad, List.append_nil] at this
  rw [CivilTime.stamp, hnanos]

theorem reprints_iff_leapDay :
    ∃ c fr, IsStamp (stampRead (lit "2024-02-29T12:30:05.25Z") 23) c fr ∧ (c.year ≤ 2553 →
      (timeconvRfc3339FromEpochNsUtc
          (timeconvEpochNsFromRfc3339 gregorianTimegm (lit "2024-02-29T12:30:05.25Z") 23) rfc3339MaxLen =
          (0, c.text ++ (period :: (pad 9 fr ++ [letterZ])) ++ [nul]) ↔
        c.day ≤ monthLength (isLeap c.year) c.month ∧ c.sec ≤ 59)) :=
  reprints_iff isTimegm_gregorian (by decide)

/-- The 30th of February comes back as the second of March. -/
theorem not_reprints_february :
    timeconvEpochNsFromRfc3339 gregorianTimegm (lit "2021-02-30T08:15:00Z") 20 ≠ 0 ∧
      timeconvRfc3339FromEpochNsUtc
          (timeconvEpochNsFromRfc3339 gregorianTimegm (lit "2021-02-30T08:15:00Z") 20) rfc3339MaxLen =
        (0, lit "2021-03-02T08:15:00.000000000Z" ++ [nul]) := by
  decide

end ZephyrSiot
