import ZephyrSiot.Verify.IntegerText
import Mathlib.Algebra.Order.Floor.Ring
import Mathlib.Data.List.DropRight
import Mathlib.Data.Sign.Basic
import Mathlib.Tactic.Linarith
import Mathlib.Tactic.NormNum

/-!
# Floats as text

`ftoa` and `atof` with the float operations read as exact rational arithmetic. The digits that the
fraction loop finds are those of the rounded magnitude, and the zeros that are cut off do not count,
so that `atof` reads back what was rounded (`atof_ftoa`).
-/

namespace ZephyrSiot
open CStr Decimal

/-! ## The fraction loop -/

section
variable {F : Type} [CFloat F]
open CFloat

/-- The operands of `(int)fraction`, round after round. -/
def ftoa.fractionOperands : Nat → F → List F
  | 0, _ => []
  | precision + 1, fraction =>
    let fraction := fraction * ofInt 10
    fraction :: fractionOperands precision (fraction - ofInt (toInt fraction))

/-- The digits are the operands converted. -/
theorem ftoa.fractionDigits_eq (precision : Nat) (fraction : F) :
    ftoa.fractionDigits precision fraction =
      (ftoa.fractionOperands precision fraction).map toInt := by
  induction precision generalizing fraction with
  | zero => rfl
  | succ precision ih => rw [fractionDigits, fractionOperands, List.map_cons, ih]

end

theorem toInt_rat {x : ℚ} (h : 0 ≤ x) : CFloat.toInt x = ⌊x⌋ := by
  rw [Rat.floor_def', ← Int.tdiv_eq_ediv_of_nonneg (Rat.num_nonneg.mpr h)]
  rfl

/-- The fraction stays below one, so that what is converted is below ten. -/
theorem ftoa.fractionOperands_bounds {fraction : ℚ} (h : 0 ≤ fraction) (h' : fraction < 1)
    (precision : Nat) : ∀ x ∈ ftoa.fractionOperands precision fraction, 0 ≤ x ∧ x < 10 := by
  induction precision generalizing fraction with
  | zero => simp [fractionOperands]
  | succ precision ih =>
    have hnext : fraction * (10 : Int) - (CFloat.toInt (fraction * (10 : Int)) : ℚ) =
        Int.fract (fraction * (10 : Int)) := by
      rw [toInt_rat (by positivity)]
      rfl
    intro x hx
    rcases List.mem_cons.mp hx with rfl | hx
    · change 0 ≤ fraction * ((10 : Int) : ℚ) ∧ fraction * ((10 : Int) : ℚ) < 10
      push_cast
      constructor <;> linarith
    · change x ∈ fractionOperands precision (fraction * (10 : Int) -
        (CFloat.toInt (fraction * (10 : Int)) : ℚ)) at hx
      rw [hnext] at hx
      exact ih (Int.fract_nonneg _) (Int.fract_lt_one _) x hx

/-! ## Digits -/

theorem ofInt_eq_decimal (n : Nat) : UInt8.ofInt ((n : Int) + 48) = decimal n := by
  rw [decimal, ← ofInt_natCast]
  congr 1
  push_cast
  ring

theorem isDigit_ofInt {d : Int} (h : 0 ≤ d) (h' : d < 10) : IsDigit (.ofInt (d + 48)) := by
  obtain ⟨n, rfl⟩ := Int.eq_ofNat_of_zero_le h
  rw [ofInt_eq_decimal]
  exact isDigit_decimal (by omega)

theorem digitValue_ofInt {d : Int} (h : 0 ≤ d) (h' : d < 10) :
    (digitValue (.ofInt (d + 48)) : Int) = d := by
  obtain ⟨n, rfl⟩ := Int.eq_ofNat_of_zero_le h
  rw [ofInt_eq_decimal, digitValue_decimal (by omega)]

/-- The characters of digits. -/
def digitText (ds : List Int) : Bytes := ds.map fun d => .ofInt (d + 48)

theorem isDigit_fractionDigits {f : ℚ} (h : 0 ≤ f) (h' : f < 1) (precision : Nat) :
    ∀ d ∈ ftoa.fractionDigits precision f, 0 ≤ d ∧ d < 10 := by
  intro d hd
  rw [ftoa.fractionDigits_eq] at hd
  obtain ⟨x, hx, rfl⟩ := List.mem_map.mp hd
  have hx := ftoa.fractionOperands_bounds h h' precision x hx
  rw [toInt_rat hx.1]
  refine ⟨Int.floor_nonneg.mpr hx.1, Int.floor_lt.mpr ?_⟩
  exact_mod_cast hx.2

theorem length_fractionDigits (f : ℚ) (precision : Nat) :
    (ftoa.fractionDigits precision f).length = precision := by
  induction precision generalizing f with
  | zero => rfl
  | succ precision ih => exact congrArg Nat.succ (ih _)

theorem floor_mul_pow (r : ℚ) (n : Nat) :
    ⌊r * 10 ^ n⌋ = ⌊r⌋ * 10 ^ n + ⌊Int.fract r * 10 ^ n⌋ := by
  have hsplit : r * 10 ^ n = ((⌊r⌋ * 10 ^ n : Int) : ℚ) + Int.fract r * 10 ^ n := by
    rw [Int.fract]
    push_cast
    ring
  rw [hsplit, Int.floor_intCast_add]

/-- The digits of the fraction loop are those of the fraction. -/
theorem natValue_fractionDigits {f : ℚ} (h : 0 ≤ f) (h' : f < 1) (precision : Nat) :
    (natValue (digitText (ftoa.fractionDigits precision f)) : Int) = ⌊f * 10 ^ precision⌋ := by
  induction precision generalizing f with
  | zero =>
    rw [pow_zero, mul_one]
    exact (Int.floor_eq_zero_iff.mpr ⟨h, h'⟩).symm
  | succ precision ih =>
    have hnonneg : 0 ≤ f * 10 := by positivity
    have hdigits : ftoa.fractionDigits (precision + 1) f =
        ⌊f * 10⌋ :: ftoa.fractionDigits precision (Int.fract (f * 10)) := by
      change CFloat.toInt (f * ((10 : Int) : ℚ)) :: ftoa.fractionDigits precision
        (f * ((10 : Int) : ℚ) - (CFloat.toInt (f * ((10 : Int) : ℚ)) : ℚ)) = _
      rw [Int.cast_ofNat, toInt_rat hnonneg]
      rfl
    have hbounds := isDigit_fractionDigits h h' (precision + 1) ⌊f * 10⌋ (by simp [hdigits])
    rw [hdigits, digitText, List.map_cons, natValue_cons, List.length_map, length_fractionDigits,
      pow_succ', ← mul_assoc, floor_mul_pow]
    push_cast
    rw [digitValue_ofInt hbounds.1 hbounds.2]
    exact congrArg _ (ih (Int.fract_nonneg _) (Int.fract_lt_one _))

/-! ## The zeros that are cut off -/

theorem ftoa.truncateZeros_append (ds : List Int) :
    ∃ n, ds = truncateZeros ds ++ .replicate n 0 := by
  have hsplit : truncateZeros ds ++ ds.rtakeWhile (· = 0) = ds := List.rdropWhile_append_rtakeWhile ..
  refine ⟨(ds.rtakeWhile (· = 0)).length, ?_⟩
  rw [← List.eq_replicate_of_mem fun d hd => by simpa using List.mem_rtakeWhile_imp hd]
  exact hsplit.symm

theorem ftoa.mem_truncateZeros {ds : List Int} {d : Int} (h : d ∈ truncateZeros ds) : d ∈ ds :=
  (List.rdropWhile_prefix _ ds).mem h

/-- The last digit that is kept is not zero. -/
theorem ftoa.getLast?_truncateZeros (ds : List Int) : (truncateZeros ds).getLast? ≠ some 0 := by
  intro hlast
  obtain ⟨hne, hzero⟩ := List.mem_getLast?_eq_getLast hlast
  have hnot : ¬ decide ((truncateZeros ds).getLast hne = 0) :=
    List.rdropWhile_last_not (fun d => decide (d = 0)) ds hne
  exact hnot (decide_eq_true hzero.symm)

theorem fraction_truncateZeros (ds : List Int) :
    fraction (digitText (ftoa.truncateZeros ds)) = fraction (digitText ds) := by
  obtain ⟨n, hn⟩ := ftoa.truncateZeros_append ds
  have htext : digitText ds = digitText (ftoa.truncateZeros ds) ++ .replicate n 0x30 := by
    conv_lhs => rw [hn]
    rw [digitText, List.map_append, List.map_replicate]
    rfl
  rw [htext, fraction_append_zeros]

/-! ## Reading -/

theorem digitVal_rat {c : UInt8} (h : IsDigit c) : ((digitVal c : Int) : ℚ) = digitValue c := by
  rw [digitVal_eq h, Int.cast_natCast]

/-- Behind the point the loop adds up the digits by their place. -/
theorem atof_loop_fraction (s : Bytes) (r f : ℚ) :
    atof.loop s r f true = r + f * 10 * fraction (digits s) := by
  induction s generalizing r f with
  | nil =>
    change r = r + f * 10 * fraction []
    rw [fraction_nil]
    ring
  | cons c s ih =>
    by_cases hc : IsDigit c
    · rw [atof.loop, if_neg (IsDigit.ne_zero hc), if_pos hc, if_pos rfl, ih, digits_cons hc,
        fraction_cons]
      change r + (digitVal c : ℚ) * f + f * (1 / 10) * 10 * fraction (digits s) = _
      rw [digitVal_rat hc]
      ring
    · have hloop : atof.loop (c :: s) r f true = r := by
        rw [atof.loop, if_neg hc, if_pos rfl]
        split
        · rfl
        split <;> rfl
      rw [hloop, digits_cons_of_not hc, fraction_nil]
      ring

theorem atof_loop (s : Bytes) (r f : ℚ) :
    atof.loop s r f false = r * 10 ^ (digits s).length + natValue (digits s) +
      f * 10 * pointValue (s.dropWhile (IsDigit ·)) := by
  induction s generalizing r f with
  | nil =>
    change r = r * 10 ^ 0 + ((0 : Nat) : ℚ) + f * 10 * 0
    push_cast
    ring
  | cons c s ih =>
    by_cases hc : IsDigit c
    · rw [atof.loop, if_neg (IsDigit.ne_zero hc), if_pos hc, if_neg (by decide), ih,
        digits_cons hc, natValue_cons, List.length_cons,
        List.dropWhile_cons_of_pos (by simpa using hc)]
      change (r * ((10 : Int) : ℚ) + (digitVal c : ℚ)) * _ + _ + _ = _
      rw [digitVal_rat hc]
      push_cast
      ring
    · rw [digits_cons_of_not hc, List.dropWhile_cons_of_neg (by simpa using hc)]
      by_cases hpoint : c = 0x2e
      · subst hpoint
        rw [atof.loop, if_neg (by decide), if_neg hc, if_pos rfl, if_neg (by decide),
          atof_loop_fraction, pointValue]
        simp
      · have hloop : atof.loop (c :: s) r f false = r := by
          rw [atof.loop, if_neg hc, if_neg hpoint]
          split <;> rfl
        have hnone : pointValue (c :: s) = 0 := by
          unfold pointValue
          split
          · next heq => exact (hpoint (List.cons.inj heq).1).elim
          · rfl
        rw [hloop, hnone]
        simp

/-- Read exactly, `atof` is the number that the text starts with. -/
theorem atof_rat (s : Bytes) : atof ℚ s = number s := by
  have hloop (t : Bytes) : atof.loop t ((0 : Int) : ℚ) (1 / 10) false = unsignedNumber t := by
    rw [atof_loop, unsignedNumber]
    push_cast
    ring
  unfold number
  split
  · next t =>
    change ((-1 : Int) : ℚ) * atof.loop t ((0 : Int) : ℚ) (1 / 10) false = _
    rw [hloop]
    push_cast
    ring
  · next hs =>
    have hatof : atof ℚ s = ((1 : Int) : ℚ) * atof.loop s ((0 : Int) : ℚ) (1 / 10) false := by
      unfold atof
      split
      · next t => exact (hs t rfl).elim
      · rfl
    rw [hatof, hloop]
    push_cast
    ring

/-! ## The rendered text -/

/-- The magnitude, rounded up by half a unit of the last place. -/
def magnitude (precision : Nat) (x : ℚ) : ℚ := |x| + 1 / 10 ^ precision / 2

theorem magnitude_nonneg (precision : Nat) (x : ℚ) : 0 ≤ magnitude precision x := by
  unfold magnitude
  positivity

theorem ftoa.roundingFactor_rat (precision : Nat) :
    (roundingFactor precision : ℚ) = 1 / 10 ^ precision / 2 := by
  induction precision with
  | zero =>
    change (1 / 2 : ℚ) = _
    norm_num
  | succ precision ih =>
    change (roundingFactor precision : ℚ) / ((10 : Int) : ℚ) = _
    rw [ih, pow_succ]
    push_cast
    field_simp

theorem isNeg_rat (x : ℚ) : (CFloat.isNeg x = true) = (x < 0) := decide_eq_true_eq

theorem ftoa.magnitude_eq (precision : Nat) (x : ℚ) :
    (if CFloat.isNeg x then -x else x) + roundingFactor precision = magnitude precision x := by
  have habs : (if x < 0 then -x else x) = |x| := by
    split
    · next h => exact (abs_of_neg h).symm
    · next h => exact (abs_of_nonneg (not_lt.mp h)).symm
  simp only [isNeg_rat, habs, roundingFactor_rat, magnitude]

/-- What is left for the fraction loop. -/
theorem magnitude_sub_toInt (precision : Nat) (x : ℚ) :
    magnitude precision x - (CFloat.toInt (magnitude precision x) : ℚ) =
      Int.fract (magnitude precision x) := by
  rw [toInt_rat (magnitude_nonneg precision x)]
  rfl

/-- The characters behind the point. -/
def places (precision : Nat) (x : ℚ) : Bytes :=
  digitText (ftoa.truncateZeros (ftoa.fractionDigits precision (Int.fract (magnitude precision x))))

theorem isDigit_places (precision : Nat) (x : ℚ) : ∀ c ∈ places precision x, IsDigit c := by
  intro c hc
  obtain ⟨d, hd, rfl⟩ := List.mem_map.mp hc
  obtain ⟨hd, hd'⟩ := isDigit_fractionDigits (Int.fract_nonneg _) (Int.fract_lt_one _) precision d
    (ftoa.mem_truncateZeros hd)
  exact isDigit_ofInt hd hd'

theorem fraction_places (precision : Nat) (x : ℚ) :
    fraction (places precision x) =
      ⌊Int.fract (magnitude precision x) * 10 ^ precision⌋ / 10 ^ precision := by
  have hvalue := natValue_fractionDigits (Int.fract_nonneg (magnitude precision x))
    (Int.fract_lt_one _) precision
  rw [places, fraction_truncateZeros, fraction, digitText, List.length_map,
    length_fractionDigits, ← hvalue, Int.cast_natCast]
  rfl

/-- The text "0", or digits without a leading zero. -/
def IsWhole (s : Bytes) : Prop := s = lit "0" ∨ IsMagnitude s

theorem IsWhole.digits {s : Bytes} (h : IsWhole s) : s ≠ [] ∧ ∀ c ∈ s, IsDigit c := by
  rcases h with rfl | ⟨hdigits, c, t, rfl, -⟩
  · exact ⟨by decide, by decide⟩
  · exact ⟨List.cons_ne_nil c t, hdigits⟩

/-- The digits of a whole part in range. -/
theorem ftoa.wholeDigits_spec {whole : Int} (h : 0 ≤ whole) (h' : whole < 2 ^ 31) :
    IsWhole (wholeDigits whole) ∧ (natValue (wholeDigits whole) : Int) = whole := by
  obtain ⟨n, rfl⟩ := Int.eq_ofNat_of_zero_le h
  rcases Nat.eq_zero_or_pos n with rfl | hpos
  · exact ⟨.inl rfl, by decide⟩
  · have hdigits : wholeDigits n = magnitudeText n := by
      rw [wholeDigits, if_neg (by omega), if_pos (by omega), digitLoop_eq (by omega)]
      rfl
    rw [hdigits, natValue_magnitudeText]
    exact ⟨.inr (isMagnitude_magnitudeText hpos), rfl⟩

theorem getLast?_ne_point {s : Bytes} (hs : ∀ c ∈ s, IsDigit c) : s.getLast? ≠ some 0x2e := by
  intro h
  exact absurd (hs _ (List.mem_of_getLast? h)) (by decide)

/-- "Remove decimal point if it's the last character" -/
theorem ftoa.removePoint (front : Bytes) {ds : Bytes} (hds : ∀ c ∈ ds, IsDigit c) :
    (if (front ++ lit "." ++ ds).getLast? = some 0x2e then (front ++ lit "." ++ ds).dropLast
      else front ++ lit "." ++ ds) = pointText front ds := by
  rcases List.eq_nil_or_concat ds with rfl | ⟨ds, c, rfl⟩
  · rw [List.append_nil, pointText, if_pos rfl, List.append_nil]
    exact (if_pos List.getLast?_concat).trans List.dropLast_concat
  · have hlast := getLast?_ne_point hds
    rw [List.concat_eq_append, List.getLast?_concat] at hlast
    rw [List.concat_eq_append, ← List.append_assoc, List.getLast?_concat, if_neg hlast, pointText,
      if_neg (by simp)]
    simp [lit]

/-- The point is left out when no digit is left behind it. -/
theorem ftoa_eq_pointText {precision : Nat} {x : ℚ} (h : magnitude precision x < 2 ^ 31) :
    ftoa x precision = (if x < 0 then [0x2d] else []) ++
      pointText (ftoa.wholeDigits ⌊magnitude precision x⌋) (places precision x) := by
  have hsign : (if CFloat.isNeg x then lit "-" else []) = if x < 0 then [0x2d] else [] := by
    simp only [isNeg_rat]
    rfl
  have hfloor : ⌊magnitude precision x⌋ < 2 ^ 31 := Int.floor_lt.mpr (by exact_mod_cast h)
  obtain ⟨hwhole, -⟩ := ftoa.wholeDigits_spec (Int.floor_nonneg.mpr (magnitude_nonneg ..)) hfloor
  have hlast := getLast?_ne_point hwhole.digits.2
  have hne := hwhole.digits.1
  generalize hfront : (if x < 0 then [0x2d] else []) ++
    ftoa.wholeDigits ⌊magnitude precision x⌋ = front
  have hstr (str : Bytes)
      (hstr : (if precision > 0 then front ++ lit "." ++ places precision x else front) = str) :
      ftoa x precision = if str.getLast? = some 0x2e then str.dropLast else str := by
    rw [← hstr, ← hfront, places, ← magnitude_sub_toInt,
      ← toInt_rat (magnitude_nonneg precision x), ← hsign, ← ftoa.magnitude_eq]
    rfl
  rw [pointText, ← List.append_assoc, hfront, ← pointText]
  rcases Nat.eq_zero_or_pos precision with rfl | hpos
  · have hplaces : places 0 x = [] := rfl
    have hlastFront : front.getLast? ≠ some 0x2e := by
      rw [← hfront, List.getLast?_append_of_ne_nil _ hne]
      exact hlast
    rw [hstr front rfl, if_neg hlastFront, hplaces, pointText, if_pos rfl, List.append_nil]
  · rw [hstr _ (if_pos hpos)]
    exact ftoa.removePoint front (isDigit_places precision x)

/-! ## The round trip -/

/-- A whole part without superfluous zeros, and at most `precision` places behind a point, the last
of which is not zero. -/
def IsDecimal (precision : Nat) (s : Bytes) : Prop :=
  ∃ whole ds, s = pointText whole ds ∧ IsWhole whole ∧ ds.length ≤ precision ∧
    (∀ c ∈ ds, IsDigit c) ∧ ds.getLast? ≠ some 0x30

theorem length_places_le (precision : Nat) (x : ℚ) : (places precision x).length ≤ precision := by
  rw [places, digitText, List.length_map]
  calc (ftoa.truncateZeros (ftoa.fractionDigits precision _)).length
    _ ≤ (ftoa.fractionDigits precision _).length := (List.rdropWhile_prefix _ _).length_le
    _ = precision := length_fractionDigits _ precision

theorem getLast?_places (precision : Nat) (x : ℚ) : (places precision x).getLast? ≠ some 0x30 := by
  intro hlast
  rw [places, digitText, List.getLast?_map, Option.map_eq_some_iff] at hlast
  obtain ⟨d, hd, hchar⟩ := hlast
  obtain ⟨hnonneg, hlt⟩ := isDigit_fractionDigits (Int.fract_nonneg _) (Int.fract_lt_one _)
    precision d (ftoa.mem_truncateZeros (List.mem_of_getLast? hd))
  have hvalue := digitValue_ofInt hnonneg hlt
  rw [hchar] at hvalue
  obtain rfl : 0 = d := hvalue
  exact ftoa.getLast?_truncateZeros _ hd

/-- The value of the text without its sign. -/
theorem unsignedNumber_ftoa {precision : Nat} {x : ℚ} (h : magnitude precision x < 2 ^ 31) :
    unsignedNumber (pointText (ftoa.wholeDigits ⌊magnitude precision x⌋) (places precision x)) =
      ⌊|x| * 10 ^ precision + 1 / 2⌋ / 10 ^ precision := by
  have hfloor : ⌊magnitude precision x⌋ < 2 ^ 31 := Int.floor_lt.mpr (by exact_mod_cast h)
  obtain ⟨hwhole, hvalue⟩ :=
    ftoa.wholeDigits_spec (Int.floor_nonneg.mpr (magnitude_nonneg precision x)) hfloor
  have hscaled : magnitude precision x * 10 ^ precision = |x| * 10 ^ precision + 1 / 2 := by
    rw [magnitude]
    field_simp
  rw [unsignedNumber_pointText hwhole.digits.2 (isDigit_places precision x), fraction_places,
    ← hscaled, floor_mul_pow (magnitude precision x), ← Int.cast_natCast, hvalue]
  push_cast
  field_simp

/-- **What `ftoa` renders is the rounded number, and `atof` reads it back.** Halves are rounded away
from zero, and the carry reaches the whole part. -/
theorem atof_ftoa (precision : Nat) {x : ℚ} (h : |x| + 1 / 10 ^ precision / 2 < 2 ^ 31) :
    (∃ text, ftoa x precision = (if x < 0 then [0x2d] else []) ++ text ∧
      IsDecimal precision text) ∧
    atof ℚ (ftoa x precision) =
      SignType.sign x * ⌊|x| * 10 ^ precision + 1 / 2⌋ / 10 ^ precision := by
  have h : magnitude precision x < 2 ^ 31 := h
  have hfloor : ⌊magnitude precision x⌋ < 2 ^ 31 := Int.floor_lt.mpr (by exact_mod_cast h)
  obtain ⟨hwhole, -⟩ :=
    ftoa.wholeDigits_spec (Int.floor_nonneg.mpr (magnitude_nonneg precision x)) hfloor
  have hvalue := unsignedNumber_ftoa h
  rw [atof_rat, ftoa_eq_pointText h]
  refine ⟨⟨_, rfl, _, _, rfl, hwhole, length_places_le precision x, isDigit_places precision x,
    getLast?_places precision x⟩, ?_⟩
  rcases lt_or_ge x 0 with hneg | hnonneg
  · rw [if_pos hneg, sign_neg hneg, List.singleton_append, number, hvalue, SignType.coe_neg_one]
    ring
  · have hnumber := number_pointText hwhole.digits (places precision x)
    rw [if_neg (not_lt.mpr hnonneg), List.nil_append, hnumber, hvalue]
    rcases hnonneg.eq_or_lt with rfl | hpos
    · norm_num
    · rw [sign_pos hpos, SignType.coe_one, one_mul]

theorem atof_ftoa_carry :
    (∃ text, lit "-10" = [0x2d] ++ text ∧ IsDecimal 3 text) ∧ atof ℚ (lit "-10") = -10 := by
  have hspec := atof_ftoa 3 (x := -99996 / 10000) (by norm_num [abs_of_neg])
  have htext : ftoa (-99996 / 10000 : ℚ) 3 = lit "-10" := by decide +kernel
  rw [htext, if_pos (by norm_num)] at hspec
  refine ⟨hspec.1, hspec.2.trans ?_⟩
  have hneg : (-99996 / 10000 : ℚ) < 0 := by norm_num
  have hfloor : ⌊|(-99996 / 10000 : ℚ)| * 10 ^ 3 + 1 / 2⌋ = 10000 := by
    rw [abs_of_neg hneg, Int.floor_eq_iff]
    norm_num
  rw [sign_neg hneg, hfloor]
  norm_num

end ZephyrSiot
