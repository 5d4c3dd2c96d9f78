import ZephyrSiot.Verify.AcceptedTimes

/-!
# Where a timestamp is cut

Of a text only the first 38 characters are looked at. A fraction of more than 17 digits loses its
letter and is refused, and behind 17 digits and the letter anything may follow. A point without
digits is taken for a fraction. All other texts are read as they should be (`parsesWhole_iff`).
-/

namespace ZephyrSiot
open CStr Gregorian Decimal

/-- Fields of a date that every month has, in the years of the 64-bit nanoseconds. -/
structure CivilTime.Plain (c : CivilTime) : Prop where
  year : 1970 ≤ c.year ∧ c.year ≤ 2553
  month : 1 ≤ c.month ∧ c.month ≤ 12
  day : 1 ≤ c.day ∧ c.day ≤ 28
  hour : c.hour ≤ 23
  min : c.min ≤ 59
  sec : c.sec ≤ 59

/-- What may follow the fields: the letter, or a point, digits and the letter. -/
def IsTail (rest fraction : Bytes) : Prop :=
  rest = [letterZ] ∧ fraction = [] ∨
    fraction ≠ [] ∧ (∀ d ∈ fraction, IsDigit d) ∧ rest = period :: (fraction ++ [letterZ])

/-- The result for the fields `c` and what follows them. -/
def wholeResult (timegm : Tm → Int) (c : CivilTime) (rest : Bytes) : UInt64 :=
  timeconvEpochNsFromRfc3339 timegm (c.text ++ rest) (c.text ++ rest).length

/-- A fraction of any length is accepted, and nothing but it and the letter. -/
structure ParsesWhole (timegm : Tm → Int) (c : CivilTime) (rest : Bytes) : Prop where
  accepts : ∀ fraction, IsTail rest fraction →
    ((wholeResult timegm c rest).toNat : Int) = timegm c.tm * 10 ^ 9 + nanosOf fraction
  rejects : (∀ fraction, ¬ IsTail rest fraction) → wholeResult timegm c rest = 0

/-- What follows the fields is cut at the wrong place, or is a point without digits. -/
def Miscut (rest : Bytes) : Prop :=
  rest = [period, letterZ] ∨ ∃ ds : Bytes, (∀ d ∈ ds, IsDigit d) ∧
    (18 ≤ ds.length ∧ rest = period :: (ds ++ [letterZ]) ∨
      ds.length = 17 ∧ ∃ more, more ≠ [] ∧ rest = period :: (ds ++ letterZ :: more))

/-- The epoch, of which the result says nothing. -/
def epochTime : CivilTime := ⟨1970, 1, 1, 0, 0, 0⟩

section
variable {timegm : Tm → Int} {c : CivilTime} {rest fr : Bytes}

theorem CivilTime.Plain.inRange (h : c.Plain) : c.InRange := by
  obtain ⟨hyear, hmonth, hday, hhour, hmin, hsec⟩ := h
  exact ⟨by omega, hmonth, by omega, hhour, hmin, by omega, by decide⟩

theorem CivilTime.Plain.isDate (h : c.Plain) : IsDate c.year c.month c.day := by
  have hlen : ∀ leap, ∀ m ≤ 12, 28 ≤ monthLength leap m := by decide
  exact ⟨h.month, h.day.1, h.day.2.trans (hlen _ _ h.month.2)⟩

/-! ## The instant -/

theorem epoch_nonneg (htimegm : IsTimegm timegm) (h : c.Plain) :
    0 ≤ timegm c.tm ∧ (timegm c.tm = 0 ↔ c = epochTime) := by
  have hfirst : IsDate 1970 1 1 := ⟨by decide, by decide⟩
  have hzero : dayNumber 1970 1 1 = 0 := by decide
  have hbefore := h.isDate.dayNumber_lt_iff hfirst
  have hafter := hfirst.dayNumber_lt_iff h.isDate
  have hepoch := epoch_eq htimegm h.inRange
  have hday := dayNumber_day c.year c.month c.day
  obtain ⟨hyear, hmonth, hday', hhour, hmin, hsec⟩ := h
  rw [epochTime, CivilTime.ext_iff]
  dsimp only
  omega

theorem instant_lt (htimegm : IsTimegm timegm) (h : c.Plain) (hfr : ∀ d ∈ fr, IsDigit d) :
    timegm c.tm * 10 ^ 9 + nanosOf fr < 2 ^ 64 := by
  have hnanos := nanosOf_lt hfr
  have hdate := (compare_date h.inRange).1
  have hepoch := epoch_eq htimegm h.inRange
  obtain ⟨hyear, hmonth, hday, hhour, hmin, hsec⟩ := h
  omega

/-! ## What is read -/

/-- What the parser accepts behind the fields, a point without digits included. -/
def TailAccepted (rest fr : Bytes) : Prop :=
  rest = [letterZ] ∧ fr = [] ∨ (∀ d ∈ fr, IsDigit d) ∧ rest = period :: (fr ++ [letterZ])

theorem stampRead_whole (h0 : 0 ∉ rest) :
    stampRead (c.text ++ rest) (c.text ++ rest).length = c.text ++ rest.take 19 := by
  have htake : (c.text ++ rest).take (min (c.text ++ rest).length 38) = c.text ++ rest.take 19 := by
    rw [Nat.min_comm, ← List.take_eq_take_min]
    exact (List.take_length_add_append 19 :
      (c.text ++ rest).take (c.text.length + 19) = c.text ++ rest.take 19)
  have hzero : 0 ∉ c.text ++ rest.take 19 := by
    rw [List.mem_append, not_or]
    refine ⟨fun hmem => absurd (CivilTime.mem_text hmem) (by decide), fun hmem => ?_⟩
    exact h0 (List.mem_of_mem_take hmem)
  rw [stampRead, show rfc3339MaxLen + 8 - 1 = 38 from rfl, htake, cstr_eq_self hzero]

theorem wholeResult_of_accepted (htimegm : IsTimegm timegm) (h : c.Plain) (h0 : 0 ∉ rest)
    (haccepted : TailAccepted (rest.take 19) fr) :
    ((wholeResult timegm c rest).toNat : Int) = timegm c.tm * 10 ^ 9 + nanosOf fr := by
  have hnonneg := (epoch_nonneg htimegm h).1
  have hstamp : IsStamp (stampRead (c.text ++ rest) (c.text ++ rest).length) c fr := by
    rw [stampRead_whole h0]
    rcases haccepted with ⟨htake, rfl⟩ | ⟨hdigits, htake⟩
    · exact ⟨.inl ⟨by rw [htake], rfl⟩, h.inRange, by simp⟩
    · exact ⟨.inr (by rw [htake]), h.inRange, hdigits⟩
  rw [wholeResult, timeconvEpochNs_of_isStamp hstamp, if_neg (Int.not_lt.mpr hnonneg)]
  exact toNat_instant hnonneg (nanosOf_lt hstamp.digits) (instant_lt htimegm h hstamp.digits)

theorem exists_accepted (h0 : 0 ∉ rest) (hne : wholeResult timegm c rest ≠ 0) :
    ∃ fr, TailAccepted (rest.take 19) fr := by
  obtain ⟨c', fr, hstamp, -⟩ := exists_isStamp hne
  have htext := hstamp.text
  rw [stampRead_whole h0] at htext
  rcases htext with ⟨htext, hnil⟩ | htext
  · exact ⟨fr, .inl ⟨(List.append_inj htext rfl).2, hnil⟩⟩
  · exact ⟨fr, .inr ⟨hstamp.digits, (List.append_inj htext rfl).2⟩⟩

/-- The digits in front of the letter are those of the fraction. -/
theorem digits_append_letter (hfr : ∀ d ∈ fr, IsDigit d) (more : Bytes) :
    digits (fr ++ letterZ :: more) = fr := by
  rw [digits, List.takeWhile_append_of_pos (by simpa using hfr),
    List.takeWhile_cons_of_neg (by decide), List.append_nil]

/-! ## The whole text -/

/-- The instant is the epoch: its result is 0 whether it is accepted or not. -/
theorem eq_epoch_iff (htimegm : IsTimegm timegm) (h : c.Plain) (n : Nat) :
    timegm c.tm * 10 ^ 9 + n = 0 ↔ c = epochTime ∧ n = 0 := by
  obtain ⟨hnonneg, hzero⟩ := epoch_nonneg htimegm h
  rw [← hzero]
  omega

/-- The letter behind more than 17 digits is not looked at. -/
theorem wholeResult_long {ds : Bytes} (hds : ∀ d ∈ ds, IsDigit d) (hlen : 18 ≤ ds.length)
    (h0 : 0 ∉ period :: (ds ++ [letterZ])) :
    wholeResult timegm c (period :: (ds ++ [letterZ])) = 0 := by
  by_contra hne
  obtain ⟨fr, haccepted⟩ := exists_accepted h0 hne
  rw [List.take_succ_cons, List.take_append_of_le_length hlen] at haccepted
  rcases haccepted with ⟨h, -⟩ | ⟨-, h⟩
  · exact absurd (List.cons.inj h).1 (by decide)
  · have hmem : letterZ ∈ ds.take 18 := by
      rw [(List.cons.inj h).2]
      exact List.mem_append_right _ (List.mem_singleton_self _)
    exact absurd (hds _ (List.mem_of_mem_take hmem)) (by decide)

/-- What follows the letter behind 17 digits is not looked at. -/
theorem accepted_more {ds : Bytes} (hds : ∀ d ∈ ds, IsDigit d) (hlen : ds.length = 17)
    (more : Bytes) : TailAccepted ((period :: (ds ++ letterZ :: more)).take 19) ds := by
  refine .inr ⟨hds, ?_⟩
  have htake : (ds ++ letterZ :: more).take (ds.length + 1) = ds ++ [letterZ] :=
    List.take_length_add_append 1
  rw [hlen] at htake
  rw [List.take_succ_cons, htake]

/-- What is accepted of a text is the whole text, unless it is cut at the wrong place. -/
theorem TailAccepted.isTail_or_miscut (h : TailAccepted (rest.take 19) fr) :
    IsTail rest fr ∨ Miscut rest ∧ digits rest.tail = fr := by
  rcases Nat.lt_or_ge 19 rest.length with hlen | hlen
  · have htake : (rest.take 19).length = 19 := List.length_take_of_le hlen.le
    rcases h with ⟨h, -⟩ | ⟨hds, h⟩
    · rw [h] at htake
      cases htake
    · rw [h] at htake
      simp only [List.length_cons, List.length_append, List.length_nil] at htake
      have hrest : rest = period :: (fr ++ letterZ :: rest.drop 19) := by
        conv_lhs => rw [← List.take_append_drop 19 rest, h]
        simp
      have hdrop : rest.drop 19 ≠ [] := by
        simpa using hlen
      refine .inr ⟨.inr ⟨fr, hds, .inr ⟨by omega, _, hdrop, hrest⟩⟩, ?_⟩
      rw [hrest, List.tail_cons, digits_append_letter hds]
  · rw [List.take_of_length_le hlen] at h
    rcases h with h | ⟨hds, h⟩
    · exact .inl (.inl h)
    · rcases eq_or_ne fr [] with rfl | hfr
      · exact .inr ⟨.inl h, by rw [h]; rfl⟩
      · exact .inl (.inr ⟨hfr, hds, h⟩)

/-- A text that is cut at the wrong place has the result that it should have only at the epoch. -/
theorem ParsesWhole.epoch (htimegm : IsTimegm timegm) (h : c.Plain) (h0 : 0 ∉ rest)
    (hparses : ParsesWhole timegm c rest) (hcut : Miscut rest) :
    c = epochTime ∧ nanosOf (digits rest.tail) = 0 := by
  rw [← eq_epoch_iff htimegm h]
  rcases hcut with rfl | ⟨ds, hds, ⟨hlen, rfl⟩ | ⟨hlen, more, hne, rfl⟩⟩
  · have haccepted : TailAccepted [period, letterZ] [] := .inr ⟨by simp, rfl⟩
    have hresult := wholeResult_of_accepted htimegm h h0 haccepted
    have hrejects := hparses.rejects fun fraction htail => by
      rcases htail with ⟨h, -⟩ | ⟨hne, -, h⟩
      · exact absurd h (by decide)
      · exact hne (List.append_cancel_right (List.cons.inj h).2.symm)
    rw [hrejects] at hresult
    exact hresult.symm
  · have haccepts := hparses.accepts ds
      (.inr ⟨List.ne_nil_of_length_pos (by omega), hds, rfl⟩)
    rw [wholeResult_long hds hlen h0] at haccepts
    rw [List.tail_cons, digits_append_letter hds]
    exact haccepts.symm
  · have hresult := wholeResult_of_accepted htimegm h h0 (accepted_more hds hlen more)
    have hrejects := hparses.rejects fun fraction htail => by
      rcases htail with ⟨h, -⟩ | ⟨-, hfraction, h⟩
      · exact absurd (List.cons.inj h).1 (by decide)
      · have htail := (List.cons.inj h).2
        have hds' := congrArg digits htail
        rw [digits_append_letter hds, digits_append_letter hfraction] at hds'
        rw [hds'] at htail
        exact hne (List.cons.inj (List.append_cancel_left htail)).2
    rw [hrejects] at hresult
    rw [List.tail_cons, digits_append_letter hds]
    exact hresult.symm

/-- **A timestamp is read as a whole** unless its fraction has more than 17 digits, or exactly 17
with more behind the letter, or a point and no digits. At the epoch itself these are read as well. -/
theorem parsesWhole_iff (htimegm : IsTimegm timegm) (h : c.Plain) (h0 : 0 ∉ rest) :
    ParsesWhole timegm c rest ↔
      ¬ Miscut rest ∨ c = epochTime ∧ nanosOf (digits rest.tail) = 0 := by
  refine ⟨fun hparses => ?_, fun hcond => ?_⟩
  · by_cases hcut : Miscut rest
    · exact .inr (hparses.epoch htimegm h h0 hcut)
    · exact .inl hcut
  have hzero (hcut : Miscut rest) : timegm c.tm * 10 ^ 9 + nanosOf (digits rest.tail) = 0 :=
    (eq_epoch_iff htimegm h _).mpr (hcond.resolve_left (not_not_intro hcut))
  constructor
  · rintro fraction (⟨rfl, rfl⟩ | ⟨hne, hds, rfl⟩)
    · exact wholeResult_of_accepted htimegm h h0 (.inl ⟨rfl, rfl⟩)
    · rcases Nat.lt_or_ge 17 fraction.length with hlen | hlen
      · have hepoch := hzero (.inr ⟨fraction, hds, .inl ⟨hlen, rfl⟩⟩)
        rw [List.tail_cons, digits_append_letter hds] at hepoch
        rw [wholeResult_long hds hlen h0, hepoch]
        rfl
      · refine wholeResult_of_accepted htimegm h h0 (.inr ⟨hds, List.take_of_length_le ?_⟩)
        simp only [List.length_cons, List.length_append, List.length_nil]
        omega
  · intro hnone
    by_contra hne
    obtain ⟨fr, haccepted⟩ := exists_accepted h0 hne
    obtain htail | ⟨hcut, hdigits⟩ := haccepted.isTail_or_miscut
    · exact hnone fr htail
    · have hresult := wholeResult_of_accepted htimegm h h0 haccepted
      rw [← hdigits, hzero hcut] at hresult
      exact hne (UInt64.toNat.inj (by exact_mod_cast hresult))

end

theorem parsesWhole_iff_quarter :
    ParsesWhole gregorianTimegm ⟨2024, 5, 6, 7, 8, 9⟩ (lit ".25Z") ↔
      ¬ Miscut (lit ".25Z") ∨
        (⟨2024, 5, 6, 7, 8, 9⟩ : CivilTime) = epochTime ∧ nanosOf (digits (lit "25Z")) = 0 :=
  parsesWhole_iff isTimegm_gregorian
    ⟨by decide, by decide, by decide, by decide, by decide, by decide⟩ (by decide)

/-- 18 digits of a fraction are refused. -/
theorem not_parsesWhole_long :
    ¬ ParsesWhole gregorianTimegm ⟨2024, 5, 6, 7, 8, 9⟩ (lit ".123456789012345678Z") := by
  intro h
  have haccepts := h.accepts (lit "123456789012345678") (.inr ⟨by decide, by decide, by decide⟩)
  exact absurd haccepts (by decide +kernel)

end ZephyrSiot
