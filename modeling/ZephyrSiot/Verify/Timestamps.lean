import ZephyrSiot.Verify.CivilDays
import ZephyrSiot.Verify.TimeText

/-!
# Timestamps come back

The text of a time is that of its date and time of day (`timeconvRfc3339_spec`), and parsing it
gives the time (`timeconvEpochNs_rfc3339`).
-/

namespace ZephyrSiot
open CStr Gregorian Decimal

/-! ## The text of a time -/

theorem nanos_append (i n : Nat) (rest : Bytes) :
    timeconvRfc3339.nanos i n rest = timeconvRfc3339.nanos i n [] ++ rest := by
  induction i generalizing n rest with
  | zero => rfl
  | succ i ih =>
    rw [timeconvRfc3339.nanos, timeconvRfc3339.nanos, ih, ih (n / 10) [digit n], List.append_assoc]
    rfl

/-- The digits of the nanoseconds. -/
theorem nanos_spec (i n : Nat) :
    (timeconvRfc3339.nanos i n []).length = i ∧
      (∀ c ∈ timeconvRfc3339.nanos i n [], IsDigit c) ∧
        natValue (timeconvRfc3339.nanos i n []) = n % 10 ^ i := by
  induction i generalizing n with
  | zero => exact ⟨rfl, by simp [timeconvRfc3339.nanos], (Nat.mod_one n).symm⟩
  | succ i ih =>
    obtain ⟨hlen, hdigits, hvalue⟩ := ih (n / 10)
    have hdigit : digitValue (digit n) = n % 10 := by
      rw [digitValue, toNat_digit]
      omega
    rw [timeconvRfc3339.nanos, nanos_append]
    refine ⟨by rw [List.length_append, hlen]; rfl, ?_, ?_⟩
    · rw [List.forall_mem_append, List.forall_mem_singleton]
      exact ⟨hdigits, isDigit_digit n⟩
    · rw [natValue_concat, hvalue, hdigit, Nat.pow_succ' (n := i), Nat.mod_mul, Nat.add_comm]

/-- The characters of a time other than digits. -/
abbrev TimeMark (c : UInt8) : Prop := c ∈ [minus, letterT, colon, period, letterZ]

theorem CivilTime.mem_text {c : CivilTime} {d : UInt8} (h : d ∈ c.text) :
    IsDigit d ∨ TimeMark d := by
  simp only [text, List.mem_cons, List.not_mem_nil, or_false] at h
  rcases h with rfl | rfl | rfl | rfl | rfl | rfl | rfl | rfl | rfl | rfl | rfl | rfl | rfl | rfl |
    rfl | rfl | rfl | rfl | rfl
  all_goals first | exact .inl (isDigit_digit _) | exact .inr (by decide)

/-- The text that is written for a time. -/
def CivilTime.stamp (c : CivilTime) (nsec : Nat) : Bytes :=
  c.text ++ (period :: (timeconvRfc3339.nanos 9 nsec [] ++ [letterZ]))

section
variable {c : CivilTime} {nsec : Nat}

theorem length_stamp : (c.stamp nsec).length = 30 := by
  rw [CivilTime.stamp, List.length_append, List.length_cons, List.length_append,
    (nanos_spec 9 nsec).1]
  rfl

theorem mem_stamp {d : UInt8} (h : d ∈ c.stamp nsec) : IsDigit d ∨ TimeMark d := by
  rw [CivilTime.stamp, List.mem_append, List.mem_cons, List.mem_append, List.mem_singleton] at h
  rcases h with h | rfl | h | rfl
  · exact CivilTime.mem_text h
  · exact .inr (by decide)
  · exact .inl ((nanos_spec 9 nsec).2.1 d h)
  · exact .inr (by decide)

theorem isStamp_stamp (h : c.InRange) : IsStamp (c.stamp nsec) c (timeconvRfc3339.nanos 9 nsec []) :=
  ⟨.inr rfl, h, (nanos_spec 9 nsec).2.1⟩

theorem nanosOf_nanos (h : nsec < 10 ^ 9) : nanosOf (timeconvRfc3339.nanos 9 nsec []) = nsec := by
  obtain ⟨hlen, -, hvalue⟩ := nanos_spec 9 nsec
  rw [nanosOf, pad, List.take_left' hlen, hvalue, Nat.mod_eq_of_lt h]

end

/-- The date and the time of day that are written for an instant. -/
theorem timeconvRfc3339_spec (t : UInt64) {bufLen : Nat} (hlen : rfc3339MaxLen ≤ bufLen) :
    ∃ c : CivilTime, c.InRange ∧ c.sec ≤ 59 ∧ IsDate c.year c.month c.day ∧
      ((t.toNat / nsPerSec : Nat) : Int) =
        86400 * dayNumber c.year c.month c.day + 3600 * c.hour + 60 * c.min + c.sec ∧
      timeconvRfc3339FromEpochNsUtc t bufLen = (0, c.stamp (t.toNat % nsPerSec) ++ [nul]) := by
  rcases hcivil : civilFromDays (t.toNat / nsPerSec / 86400 : Nat) with ⟨y, m, d⟩
  obtain ⟨hdate, hdays⟩ := civilFromDays_spec _ hcivil
  have ht := t.toNat_lt
  -- 64 bits of nanoseconds end in the year 2554
  have hyear : 0 ≤ y ∧ y ≤ 9999 := by
    have := hdate.dayNumber_bounds
    unfold daysBeforeYear at this
    unfold nsPerSec at hdays
    omega
  have hday : d.toNat ≤ 31 := by
    have : ∀ leap, ∀ m ≤ 12, monthLength leap m ≤ 31 := by decide
    exact hdate.day.2.trans (this _ _ hdate.month.2)
  have hy : ((y.toNat : Nat) : Int) = y := Int.toNat_of_nonneg hyear.1
  have hrange : InRange y.toNat m.toNat d.toNat (t.toNat / nsPerSec % 86400 / 3600)
      (t.toNat / nsPerSec % 86400 % 3600 / 60) (t.toNat / nsPerSec % 86400 % 60) 0 :=
    ⟨by omega, hdate.month, ⟨hdate.day.1, hday⟩, by omega, by omega, by omega, by decide⟩
  have hsecs : ((t.toNat / nsPerSec : Nat) : Int) = 86400 * (t.toNat / nsPerSec / 86400 : Nat) +
      3600 * (t.toNat / nsPerSec % 86400 / 3600 : Nat) +
      60 * (t.toNat / nsPerSec % 86400 % 3600 / 60 : Nat) +
      (t.toNat / nsPerSec % 86400 % 60 : Nat) := by
    omega
  refine ⟨⟨_, _, _, _, _, _⟩, hrange, Nat.le_of_lt_succ (Nat.mod_lt _ (by decide)), ?_, ?_, ?_⟩
  · exact hy.symm ▸ hdate
  · rw [← hdays, ← hy] at hsecs
    exact hsecs
  · rw [timeconvRfc3339FromEpochNsUtc, if_neg (by omega)]
    dsimp only
    rw [hcivil]
    dsimp only
    rw [timeconvRfc3339.text, nanos_append]
    rfl

/-- The instant that is computed, where it fits. -/
theorem toNat_instant {epoch : Int} {nsec : Nat} (h0 : 0 ≤ epoch) (hnsec : nsec < 10 ^ 9)
    (h : epoch * 10 ^ 9 + nsec < 2 ^ 64) :
    ((instant epoch nsec).toNat : Int) = epoch * 10 ^ 9 + nsec := by
  have hsecs : (UInt64.ofInt epoch).toNat = epoch.toNat := by
    rw [UInt64.ofInt, UInt64.toNat_ofNat']
    omega
  rw [instant, UInt64.toNat_add, UInt64.toNat_mul, hsecs, UInt32.toNat_toUInt64,
    UInt64.toNat_ofNat', UInt32.toNat_ofNat']
  unfold nsPerSec
  omega

/-- Parsing the text written for a time gives the time, whatever follows
the text in memory. -/
theorem timeconvEpochNs_rfc3339 {timegm : Tm → Int} (htimegm : IsTimegm timegm) (t : UInt64)
    {bufLen : Nat} (hlen : rfc3339MaxLen ≤ bufLen) :
    ∃ text, timeconvRfc3339FromEpochNsUtc t bufLen = (0, text ++ [nul]) ∧ text.length = 30 ∧
      (∀ c ∈ text, IsDigit c ∨ TimeMark c) ∧
      ∀ rest, timeconvEpochNsFromRfc3339 timegm (text ++ rest) 30 = t := by
  obtain ⟨c, hrange, -, -, hsecs, hformat⟩ := timeconvRfc3339_spec t hlen
  refine ⟨_, hformat, length_stamp, fun _ => mem_stamp, fun rest => ?_⟩
  have hread : stampRead (c.stamp (t.toNat % nsPerSec) ++ rest) 30 = c.stamp (t.toNat % nsPerSec) := by
    have h0 : 0 ∉ c.stamp (t.toNat % nsPerSec) := fun h => absurd (mem_stamp h) (by decide)
    rw [stampRead, List.take_left' (by rw [length_stamp]; rfl), cstr_eq_self h0]
  have hepoch : timegm c.tm = (t.toNat / nsPerSec : Nat) := by
    rw [epoch_eq htimegm hrange, hsecs, dayNumber_day _ _ c.day]
  have hnsec : t.toNat % nsPerSec < 10 ^ 9 := Nat.mod_lt _ (by decide)
  have ht := t.toNat_lt
  have hsum : ((t.toNat / nsPerSec : Nat) : Int) * 10 ^ 9 + (t.toNat % nsPerSec : Nat) = t.toNat := by
    unfold nsPerSec
    omega
  rw [timeconvEpochNs_of_isStamp (hread ▸ isStamp_stamp hrange), nanosOf_nanos hnsec, hepoch,
    if_neg (Int.not_lt.mpr (Int.natCast_nonneg _)), ← UInt64.toNat_inj]
  have := toNat_instant (Int.natCast_nonneg (t.toNat / nsPerSec)) hnsec (by omega)
  rw [hsum] at this
  exact Int.natCast_inj.mp this

/-- **Timestamps come back.** Every 64-bit time has a text of 30 characters, from which it is read back. -/
theorem timeconv_roundTrip {timegm : Tm → Int} (htimegm : IsTimegm timegm) (t : UInt64)
    {bufLen : Nat} (hlen : rfc3339MaxLen ≤ bufLen) :
    ∃ text, timeconvRfc3339FromEpochNsUtc t bufLen = (0, text ++ [nul]) ∧ text.length = 30 ∧
      timeconvEpochNsFromRfc3339 timegm (text ++ [nul]) text.length = t := by
  obtain ⟨text, hformat, htext, -, hparse⟩ := timeconvEpochNs_rfc3339 htimegm t hlen
  exact ⟨text, hformat, htext, htext.symm ▸ hparse [nul]⟩

theorem timeconv_roundTrip_max :
    ∃ text, timeconvRfc3339FromEpochNsUtc (2 ^ 64 - 1) 64 = (0, text ++ [nul]) ∧
      text.length = 30 ∧
        timeconvEpochNsFromRfc3339 gregorianTimegm (text ++ [nul]) text.length = 2 ^ 64 - 1 :=
  timeconv_roundTrip isTimegm_gregorian (2 ^ 64 - 1) (by decide)

end ZephyrSiot
