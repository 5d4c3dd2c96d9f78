import ZephyrSiot.Verify.FloatText

/-!
# Rendering what was decoded as a float

`atof` takes 29 characters of digits, `ftoa` renders a float by way of an `int`. With the float
operations read as exact rational arithmetic, the fraction loop never leaves the digits, and the
whole part is an `int` exactly when the magnitude, rounded up by half a unit of the fourth place,
is less than `2 ^ 31` (`renders_iff`).
-/

namespace ZephyrSiot
open CStr Decimal

/-! ## The conversions of `ftoa` -/

section
variable {F : Type} [CFloat F]
open CFloat

/-- The operands of all conversions `(int)num` and `(int)fraction` of `ftoa`. -/
def ftoa.operands (num : F) (precision : Nat) : List F :=
  let num := if isNeg num then -num else num
  let num := num + ftoa.roundingFactor precision
  num :: ftoa.fractionOperands precision (num - ofInt (toInt num))

/-- The float that a data text is decoded to. -/
def decodedFloat (F : Type) [CFloat F] (d : Bytes) : F := atof F (d.take 29)

end

/-- Run on single precision, it is the float that the conversion stores and that is rendered. -/
theorem pointJsToPoint_float {dt : Bytes} (hdt : dataTypeOfCode dt = pointDataTypeFloat)
    (t k d : Bytes) (q : Point) {bufLen : Nat} (hbuf : 0 < bufLen) :
    (pointJsToPoint (.ofStrings t k dt d) q).1 = 0 ∧
      (pointJsToPoint (.ofStrings t k dt d) q).2.getFloat = (decodedFloat Float32 d).toBits ∧
      (pointJsToPoint (.ofStrings t k dt d) q).2.dataToString bufLen =
        (0, ftoa (Float32.ofBits (decodedFloat Float32 d).toBits) 4) := by
  have hget : (pointJsToPoint (.ofStrings t k dt d) q).2.getFloat =
      (decodedFloat Float32 d).toBits := by
    rw [pointJsToPoint_some, hdt]
    exact ofNat_readLe32_poke (n := 16) _ _
  have hdataType : (pointJsToPoint (.ofStrings t k dt d) q).2.dataType = pointDataTypeFloat := by
    rw [pointJsToPoint_some, hdt]
  refine ⟨by rw [pointJsToPoint_some, hdt]; rfl, hget, ?_⟩
  rw [Point.dataToString, if_neg (by omega), if_pos hdataType, hget]

/-! ## Exact arithmetic -/

/-- A conversion stays within the 32-bit range. -/
def Converts (x : ℚ) : Prop := -2 ^ 31 ≤ CFloat.toInt x ∧ CFloat.toInt x < 2 ^ 31

/-- What is converted as the whole part: the magnitude, rounded to the fourth place. -/
def rounded (v : ℚ) : ℚ := |v| + 1 / 20000

theorem rounded_eq (v : ℚ) : rounded v = magnitude 4 v := by
  rw [rounded, magnitude]
  norm_num

theorem ftoa.operands_eq (v : ℚ) :
    ftoa.operands v 4 = rounded v :: ftoa.fractionOperands 4 (Int.fract (rounded v)) := by
  rw [rounded_eq, ← magnitude_sub_toInt, ← ftoa.magnitude_eq]
  rfl

/-- Only the conversion of the whole part can leave the 32-bit range. -/
theorem converts_iff (v : ℚ) :
    (∀ x ∈ ftoa.operands v 4, Converts x) ↔ |v| + 1 / 20000 < 2 ^ 31 := by
  have hnonneg : 0 ≤ rounded v := rounded_eq v ▸ magnitude_nonneg 4 v
  have hiff {x : ℚ} (h : 0 ≤ x) : Converts x ↔ x < 2 ^ 31 := by
    have hfloor := Int.floor_nonneg.mpr h
    have hlt : ⌊x⌋ < 2 ^ 31 ↔ x < 2 ^ 31 := by
      rw [Int.floor_lt]
      norm_num
    rw [Converts, toInt_rat h, ← hlt]
    omega
  rw [ftoa.operands_eq, List.forall_mem_cons, hiff hnonneg]
  refine ⟨fun h => h.1, fun h => ⟨h, fun x hx => ?_⟩⟩
  have hx := ftoa.fractionOperands_bounds (Int.fract_nonneg _) (Int.fract_lt_one _) 4 x hx
  rw [hiff hx.1]
  linarith

/-- Enough room for the whole part makes the text that of a number. -/
theorem isNumberText_ftoa {v : ℚ} (h : |v| + 1 / 20000 < 2 ^ 31) : IsNumberText (ftoa v 4) := by
  have hmagnitude : magnitude 4 v < 2 ^ 31 := rounded_eq v ▸ h
  have hfloor : ⌊magnitude 4 v⌋ < 2 ^ 31 := Int.floor_lt.mpr (by exact_mod_cast hmagnitude)
  obtain ⟨hwhole, -⟩ := ftoa.wholeDigits_spec (Int.floor_nonneg.mpr (magnitude_nonneg 4 v)) hfloor
  rw [ftoa_eq_pointText hmagnitude, pointText, ← List.append_assoc]
  refine ⟨_, _, _, rfl, ?_, hwhole.digits.1, hwhole.digits.2, ?_⟩
  · split
    · exact .inr rfl
    · exact .inl rfl
  · split
    · exact .inl rfl
    next hplaces => exact .inr ⟨_, hplaces, isDigit_places 4 v, rfl⟩

/-! ## The decoded value -/

/-- The conversion can be rendered again: no conversion to `int` is out of range, and the text is
that of a number. -/
def Renders (d : Bytes) : Prop :=
  (∀ x ∈ ftoa.operands (decodedFloat ℚ d) 4, Converts x) ∧ IsNumberText (ftoa (decodedFloat ℚ d) 4)

/-- **A decoded float can be rendered** exactly when the number in the first 29 characters of its
text is less than `2 ^ 31` once it is rounded to the fourth place. -/
theorem renders_iff (d : Bytes) : Renders d ↔ |number (d.take 29)| + 1 / 20000 < 2 ^ 31 := by
  rw [Renders, converts_iff, decodedFloat, atof_rat]
  refine ⟨fun h => h.1, fun h => ⟨h, ?_⟩⟩
  exact isNumberText_ftoa h

/-- A whole number that is no `int`, and that single precision has exactly. -/
theorem not_renders_large : ¬ Renders (lit "3000000000") := by
  intro h
  have hconverts := h.1 _ (List.mem_cons_self ..)
  exact absurd hconverts.2 (by decide +kernel)

end ZephyrSiot
