import ZephyrSiot.Theory.Decimal
import ZephyrSiot.Timeconv
import Mathlib.Tactic.IntervalCases

/-!
# Texts of timestamps

The texts that `timeconv_epoch_ns_from_rfc3339` accepts are those of `IsStamp`: it computes their
instant (`timeconvEpochNs_of_isStamp`), and refuses every other text (`exists_isStamp`).
-/

namespace ZephyrSiot
open CStr Gregorian Decimal

/-! ## The grammar -/

theorem toNat_digit (n : Nat) : (digit n).toNat = 0x30 + n % 10 := by
  rw [digit, UInt8.toNat_ofNat']
  omega

theorem isDigit_digit (n : Nat) : IsDigit (digit n) := by
  have := toNat_digit n
  rw [IsDigit, UInt8.le_iff_toNat_le, UInt8.le_iff_toNat_le, this]
  exact ⟨by simp, by simp; omega⟩

/-- The fields that a text of four-digit year and two-digit others can hold. -/
structure InRange (year month day hour min sec nsec : Nat) : Prop where
  year : year ≤ 9999
  month : 1 ≤ month ∧ month ≤ 12
  day : 1 ≤ day ∧ day ≤ 31
  hour : hour ≤ 23
  min : min ≤ 59
  sec : sec ≤ 60
  nsec : nsec < 10 ^ 9

/-- The fields of a timestamp in front of its fraction. -/
@[ext]
structure CivilTime where
  year : Nat
  month : Nat
  day : Nat
  hour : Nat
  min : Nat
  sec : Nat

namespace CivilTime

variable (c : CivilTime)

/-- The 19 characters of the fields. -/
def text : Bytes :=
  [digit (c.year / 1000), digit (c.year / 100), digit (c.year / 10), digit c.year, minus,
    digit (c.month / 10), digit c.month, minus, digit (c.day / 10), digit c.day, letterT,
    digit (c.hour / 10), digit c.hour, colon, digit (c.min / 10), digit c.min, colon,
    digit (c.sec / 10), digit c.sec]

/-- The fields in the ranges that are checked. -/
def InRange : Prop := ZephyrSiot.InRange c.year c.month c.day c.hour c.min c.sec 0

def tm : Tm := ⟨(c.year : Int) - 1900, (c.month : Int) - 1, c.day, c.hour, c.min, c.sec⟩

end CivilTime

/-- A timestamp: its fields, and the digits of its fraction, if it has one. -/
structure IsStamp (s : Bytes) (c : CivilTime) (fraction : Bytes) : Prop where
  text : s = c.text ++ [letterZ] ∧ fraction = [] ∨
    s = c.text ++ (period :: (fraction ++ [letterZ]))
  range : c.InRange
  digits : ∀ d ∈ fraction, IsDigit d

/-- The text that is looked at: what follows is cut off. -/
def stampRead (buf : Bytes) (bufLen : Nat) : Bytes :=
  cstr (buf.take (min bufLen (rfc3339MaxLen + 8 - 1)))

/-! ## The fraction -/

private theorem fractionScale : ∀ k < 9, UInt32.ofNat (10 ^ (k + 1) / 10) > 0 ∧
    UInt32.ofNat (10 ^ (k + 1) / 10) / 10 = .ofNat (10 ^ k / 10) := by decide

theorem fraction_eq {k : Nat} (hk : k ≤ 9) (s : Bytes) (acc : UInt32) :
    timeconvEpochNs.fraction s (.ofNat (10 ^ k / 10)) acc =
      (acc + .ofNat (natValue (pad k (digits s))), s.dropWhile (IsDigit ·)) := by
  induction s generalizing k acc with
  | nil => simp [timeconvEpochNs.fraction, digits, natValue_pad_nil]
  | cons c s ih =>
    rw [timeconvEpochNs.fraction]
    split
    · next hc => simp [hc, digits_cons_of_not hc, natValue_pad_nil]
    · next hc =>
      have hc : IsDigit c := not_not.mp hc
      rw [digits_cons hc, List.dropWhile_cons_of_pos (by simpa using hc)]
      cases k with
      | zero =>
        rw [if_neg (by decide), ih (k := 0) hk]
        simp [pad]
      | succ k =>
        obtain ⟨hpos, hdiv⟩ := fractionScale k (by omega)
        have hpow : 10 ^ (k + 1) / 10 = 10 ^ k := by
          rw [Nat.pow_succ, Nat.mul_div_cancel _ (by decide)]
        rw [if_pos hpos, hdiv, ih (by omega), pad_cons, natValue_cons, length_pad, hpow,
          UInt32.add_assoc, ← UInt32.ofNat_mul, ← UInt32.ofNat_add]
        rfl

/-- The nanoseconds of a fraction. -/
def nanosOf (fraction : Bytes) : Nat := natValue (pad 9 fraction)

theorem nanosOf_lt {fraction : Bytes} (h : ∀ d ∈ fraction, IsDigit d) :
    nanosOf fraction < 10 ^ 9 := by
  have := natValue_lt (isDigit_pad h 9)
  rwa [length_pad] at this

/-- Digits are written back. -/
theorem nanos_value {s : Bytes} (h : ∀ d ∈ s, IsDigit d) (rest : Bytes) :
    timeconvRfc3339.nanos s.length (natValue s) rest = s ++ rest := by
  induction s using List.reverseRecOn generalizing rest with
  | nil => rfl
  | append_singleton s c ih =>
    rw [List.forall_mem_append, List.forall_mem_singleton] at h
    have hlt := digitValue_lt h.2
    have hdigit : digit (10 * natValue s + digitValue c) = c := by
      rw [← UInt8.toNat_inj, toNat_digit, toNat_eq h.2]
      omega
    have hdiv : (10 * natValue s + digitValue c) / 10 = natValue s := by omega
    rw [natValue_concat, List.length_append, List.length_singleton, timeconvRfc3339.nanos, hdigit,
      hdiv, ih h.1, List.append_assoc]
    rfl

/-! ## What is accepted -/

section
variable {s : Bytes}

theorem digit_of_isDigit {c : UInt8} (h : IsDigit c) {n : Nat} (hn : n % 10 = digitValue c) :
    digit n = c := by
  rw [← UInt8.toNat_inj, toNat_digit, toNat_eq h, hn]

/-- The fields that the first 19 characters are read as. -/
def CivilTime.ofText (s : Bytes) : CivilTime :=
  let d (i : Nat) := digitValue (s.getD i nul)
  ⟨d 0 * 1000 + d 1 * 100 + d 2 * 10 + d 3, d 5 * 10 + d 6, d 8 * 10 + d 9, d 11 * 10 + d 12,
    d 14 * 10 + d 15, d 17 * 10 + d 18⟩

/-- Digits and marks at their places are the text of their fields. -/
theorem text_ofText (hlen : 19 ≤ s.length)
    (hmarks : s.getD 4 nul = minus ∧ s.getD 7 nul = minus ∧ s.getD 10 nul = letterT ∧
      s.getD 13 nul = colon ∧ s.getD 16 nul = colon)
    (hdigits : ∀ i < 19, i ∈ [4, 7, 10, 13, 16] ∨ IsDigit (s.getD i nul)) :
    s = (CivilTime.ofText s).text ++ s.drop 19 := by
  have hdig (i : Nat) (hi : i < 19) (hne : i ∉ [4, 7, 10, 13, 16]) : IsDigit (s.getD i nul) :=
    (hdigits i hi).resolve_left hne
  have hlt (i : Nat) (hi : i < 19) (hne : i ∉ [4, 7, 10, 13, 16]) :
      digitValue (s.getD i nul) < 10 := digitValue_lt (hdig i hi hne)
  have htake : s.take 19 = (List.range 19).map (s.getD · nul) := by
    refine List.ext_getElem (by simpa using hlen) fun i hi _ => ?_
    have hi : i < s.length := by
      rw [List.length_take] at hi
      omega
    simp [List.getD_eq_getElem?_getD, hi]
  have h0 := hlt 0 (by decide) (by decide)
  have h1 := hlt 1 (by decide) (by decide)
  have h2 := hlt 2 (by decide) (by decide)
  have h3 := hlt 3 (by decide) (by decide)
  have h6 := hlt 6 (by decide) (by decide)
  have h9 := hlt 9 (by decide) (by decide)
  have h12 := hlt 12 (by decide) (by decide)
  have h15 := hlt 15 (by decide) (by decide)
  have h18 := hlt 18 (by decide) (by decide)
  have htext : s.take 19 = (CivilTime.ofText s).text := by
    obtain ⟨h4, h7, h10, h13, h16⟩ := hmarks
    rw [htake]
    change [_, _, _, _, s.getD 4 nul, _, _, s.getD 7 nul, _, _, s.getD 10 nul, _, _, s.getD 13 nul, _,
      _, s.getD 16 nul, _, _] = _
    rw [h4, h7, h10, h13, h16]
    simp only [CivilTime.text, List.cons.injEq, true_and, and_true]
    refine ⟨?_, ?_, ?_, ?_, ?_, ?_, ?_, ?_, ?_, ?_, ?_, ?_, ?_, ?_⟩
    all_goals
      refine (digit_of_isDigit (hdig _ (by decide) (by decide)) ?_).symm
      dsimp only [CivilTime.ofText]
      have := hlt 5 (by decide) (by decide)
      have := hlt 8 (by decide) (by decide)
      have := hlt 11 (by decide) (by decide)
      have := hlt 14 (by decide) (by decide)
      have := hlt 17 (by decide) (by decide)
      omega
  rw [← htext, List.take_append_drop]

theorem num_eq {c : UInt8} (h : IsDigit c) : (c.toNat : Int) - 0x30 = digitValue c := by
  rw [toNat_eq h]
  push_cast
  omega

end

/-- What the function computes of a timestamp. -/
def instant (epoch : Int) (nsec : Nat) : UInt64 :=
  .ofInt epoch * .ofNat nsPerSec + (UInt32.ofNat nsec).toUInt64

section
variable {timegm : Tm → Int} {buf : Bytes} {bufLen : Nat} {c : CivilTime} {fr : Bytes}

/-- The checks in front of the fraction. -/
theorem timeconvEpochNs_fields (h : CivilTime.InRange c) {rest : Bytes} (hlen : rest ≠ [])
    (hread : stampRead buf bufLen = c.text ++ rest) :
    timeconvEpochNsFromRfc3339 timegm buf bufLen =
      let r := if rest.headD nul = period
        then timeconvEpochNs.fraction rest.tail 100000000 0 else (0, rest)
      if r.2.headD nul ≠ letterZ ∨ r.2.tail.headD nul ≠ nul then 0
      else if timegm c.tm < 0 then 0
      else .ofInt (timegm c.tm) * .ofNat nsPerSec + r.1.toUInt64 := by
  have hbuf : bufLen ≠ 0 := by
    rintro rfl
    rw [stampRead, Nat.zero_min, List.take_zero] at hread
    cases hread
  have hdigits : ∀ i < 19, i ∈ [4, 7, 10, 13, 16] ∨ IsDigit ((c.text ++ rest).getD i nul) := by
    intro i hi
    interval_cases i
    all_goals first | exact .inl (by decide) | exact .inr (isDigit_digit _)
  have hnum {n : Nat} : ((digit n).toNat : Int) - 0x30 = (n % 10 : Nat) := by
    rw [toNat_digit]
    omega
  obtain ⟨r, rest, rfl⟩ := List.exists_cons_of_ne_nil hlen
  unfold timeconvEpochNsFromRfc3339
  rw [if_neg hbuf, ← stampRead, hread]
  dsimp only
  rw [if_neg (by simp [CivilTime.text]), if_neg (by simp [CivilTime.text]),
    if_neg (not_not_intro hdigits)]
  have htwo {n : Nat} (hn : n ≤ 99) : ((n / 10 % 10 : Nat) : Int) * 10 + (n % 10 : Nat) = n := by
    omega
  have hfour : ((c.year / 1000 % 10 : Nat) : Int) * 1000 + (c.year / 100 % 10 : Nat) * 100 +
      (c.year / 10 % 10 : Nat) * 10 + (c.year % 10 : Nat) = c.year := by
    have := h.year
    omega
  obtain ⟨-, hmonth, hday, hhour, hmin, hsec, -⟩ := h
  simp only [CivilTime.text, List.cons_append, List.nil_append, List.getD_cons_zero,
    List.getD_cons_succ, hnum, List.drop_succ_cons, List.drop_zero]
  rw [hfour, htwo (by omega), htwo (by omega), htwo (by omega), htwo (by omega), htwo (by omega),
    if_neg (by omega)]
  rfl

/-- The digits that end at the letter behind them. -/
theorem fraction_digits (h : ∀ d ∈ fr, IsDigit d) :
    timeconvEpochNs.fraction (fr ++ [letterZ]) 100000000 0 = (.ofNat (nanosOf fr), [letterZ]) := by
  have hall : ∀ d ∈ fr, (decide (IsDigit d)) = true := fun d hd => decide_eq_true (h d hd)
  have := fraction_eq (k := 9) (Nat.le_refl _) (fr ++ [letterZ]) 0
  rw [digits, List.takeWhile_append_of_pos hall, List.dropWhile_append_of_pos hall,
    UInt32.zero_add] at this
  refine this.trans ?_
  rw [List.takeWhile_cons_of_neg (by decide), List.append_nil]
  rfl

/-- **The instant of a timestamp.** -/
theorem timeconvEpochNs_of_isStamp (h : IsStamp (stampRead buf bufLen) c fr) :
    timeconvEpochNsFromRfc3339 timegm buf bufLen =
      if timegm c.tm < 0 then 0 else instant (timegm c.tm) (nanosOf fr) := by
  have hmark : ¬ letterZ = period := by decide
  have hnone : nanosOf [] = 0 := natValue_pad_nil 9
  rcases h.text with ⟨htext, rfl⟩ | htext
  · rw [timeconvEpochNs_fields h.range (List.cons_ne_nil _ _) htext, instant, hnone]
    simp only [List.headD_cons, List.headD_nil, hmark, if_false, List.tail_cons, ne_eq,
      not_true_eq_false, or_self]
    rfl
  · rw [timeconvEpochNs_fields h.range (List.cons_ne_nil _ _) htext, instant]
    simp only [List.headD_cons, List.headD_nil, if_true, List.tail_cons, fraction_digits h.digits,
      ne_eq, not_true_eq_false, or_self, if_false]

/-- The fields of a text that is not refused. -/
theorem exists_civilTime (h : timeconvEpochNsFromRfc3339 timegm buf bufLen ≠ 0) :
    ∃ c rest, CivilTime.InRange c ∧ rest ≠ [] ∧ stampRead buf bufLen = c.text ++ rest := by
  unfold timeconvEpochNsFromRfc3339 at h
  rw [← stampRead] at h
  generalize stampRead buf bufLen = s at h
  dsimp only at h
  obtain ⟨-, h⟩ := ite_ne_left_iff.mp h
  obtain ⟨hlen, h⟩ := ite_ne_left_iff.mp h.symm
  obtain ⟨hmarks, h⟩ := ite_ne_left_iff.mp h.symm
  obtain ⟨hdigits, h⟩ := ite_ne_left_iff.mp h.symm
  obtain ⟨hrange, -⟩ := ite_ne_left_iff.mp h.symm
  simp only [not_or, not_not] at hmarks hdigits
  have htext := text_ofText (by omega) hmarks hdigits
  refine ⟨.ofText s, s.drop 19, ?_, fun hnil => ?_, htext⟩
  · have hdig (i : Nat) (hi : i < 19) (hne : i ∉ [4, 7, 10, 13, 16]) :
        ((s.getD i nul).toNat : Int) - 0x30 = digitValue (s.getD i nul) ∧
          digitValue (s.getD i nul) < 10 :=
      have hdigit := (hdigits i hi).resolve_left hne
      ⟨num_eq hdigit, digitValue_lt hdigit⟩
    have h0 := hdig 0 (by decide) (by decide)
    have h1 := hdig 1 (by decide) (by decide)
    have h2 := hdig 2 (by decide) (by decide)
    have h3 := hdig 3 (by decide) (by decide)
    rw [(hdig 5 (by decide) (by decide)).1, (hdig 6 (by decide) (by decide)).1,
      (hdig 8 (by decide) (by decide)).1, (hdig 9 (by decide) (by decide)).1,
      (hdig 11 (by decide) (by decide)).1, (hdig 12 (by decide) (by decide)).1,
      (hdig 14 (by decide) (by decide)).1, (hdig 15 (by decide) (by decide)).1,
      (hdig 17 (by decide) (by decide)).1, (hdig 18 (by decide) (by decide)).1] at hrange
    refine ⟨?_, ⟨?_, ?_⟩, ⟨?_, ?_⟩, ?_, ?_, ?_, by decide⟩
    all_goals
      dsimp only [CivilTime.ofText]
      omega
  · have := congrArg List.length hnil
    rw [List.length_drop, List.length_nil] at this
    omega

/-- What the last check leaves of a text: the letter is the last character. -/
theorem eq_letter_of_last {t : Bytes} (ht : 0 ∉ t)
    (hlast : ¬ (t.headD nul ≠ letterZ ∨ t.tail.headD nul ≠ nul)) : t = [letterZ] := by
  obtain ⟨hhead, htail⟩ := not_or.mp hlast
  match t with
  | [] => exact (hhead (by decide)).elim
  | [d] => rw [show d = letterZ from not_not.mp hhead]
  | d :: e :: t =>
    have : e = 0 := not_not.mp htail
    exact (ht (this ▸ by simp)).elim

/-- Only a timestamp has another instant than 0. -/
theorem exists_isStamp (h : timeconvEpochNsFromRfc3339 timegm buf bufLen ≠ 0) :
    ∃ c fr, IsStamp (stampRead buf bufLen) c fr ∧ 0 ≤ timegm c.tm := by
  obtain ⟨c, rest, hrange, hne, htext⟩ := exists_civilTime h
  have h0 : 0 ∉ rest := fun hmem =>
    zero_notMem_cstr (buf.take (min bufLen (rfc3339MaxLen + 8 - 1)))
      (htext ▸ List.mem_append_right _ hmem : 0 ∈ stampRead buf bufLen)
  rw [timeconvEpochNs_fields hrange hne htext] at h
  obtain ⟨hlast, h⟩ := ite_ne_left_iff.mp h
  obtain ⟨hepoch, -⟩ := ite_ne_left_iff.mp h.symm
  have hepoch := Int.not_lt.mp hepoch
  split at hlast
  · next hpoint =>
    obtain ⟨d, rest, rfl⟩ := List.exists_cons_of_ne_nil hne
    obtain rfl : d = period := hpoint
    have hfr := fraction_eq (k := 9) (Nat.le_refl _) rest 0
    rw [List.tail_cons] at hlast
    have hdrop : (timeconvEpochNs.fraction rest 100000000 0).2 = rest.dropWhile (IsDigit ·) :=
      congrArg Prod.snd hfr
    rw [hdrop] at hlast
    have hrest := eq_letter_of_last (fun hmem => h0 (List.mem_cons_of_mem _
      ((List.dropWhile_suffix _).subset hmem))) hlast
    refine ⟨c, digits rest, ⟨.inr ?_, hrange, isDigit_digits rest⟩, hepoch⟩
    rw [htext, ← hrest, digits, List.takeWhile_append_dropWhile]
  · obtain rfl := eq_letter_of_last h0 hlast
    exact ⟨c, [], ⟨.inl ⟨htext, rfl⟩, hrange, by simp⟩, hepoch⟩

theorem epoch_eq (htimegm : IsTimegm timegm) (h : c.InRange) :
    timegm c.tm = 86400 * (dayNumber c.year c.month 1 + c.day - 1) + 3600 * c.hour + 60 * c.min +
      c.sec := by
  have hmonth := h.month
  have hy : (c.year : Int) - 1900 + 1900 = c.year := by omega
  have hm : ((c.month : Int) - 1 + 1).toNat = c.month := by omega
  rw [htimegm c.tm (by dsimp only [CivilTime.tm]; omega) (by dsimp only [CivilTime.tm]; omega)]
  simp only [CivilTime.tm, hy, hm]

end

end ZephyrSiot
