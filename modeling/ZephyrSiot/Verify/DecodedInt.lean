import ZephyrSiot.Verify.IntegerText

/-!
# What a data text is as an integer

`atoi` adds up the digits of the numeral that a text starts with. It adds them up in 32 bits
without a range check, and `point_js_to_point` hands it the first 29 characters only: a larger
numeral is taken for another integer (`decodedExactly_iff`).
-/

namespace ZephyrSiot
open CStr Decimal

/-- When the conversion of a text to an integer point succeeds, the integer is that of the longest
numeral that the text starts with. -/
def DecodedExactly (d : Bytes) : Prop :=
  ∀ (s : Bytes) (js : PointJs) (dt : Bytes) (q : Point), IsLongestNumeral s d → js.d = d →
    js.dt = some dt → dataTypeOfCode dt = pointDataTypeInt → (pointJsToPoint js q).1 = 0 →
      (pointJsToPoint js q).2.getInt = intValue s

/-- The stored integer is the one that `atoi` makes of the copied characters. -/
theorem getInt_pointJsToPoint {dt : Bytes} (hdt : dataTypeOfCode dt = pointDataTypeInt)
    (t k d : Bytes) (q : Point) :
    (pointJsToPoint (.ofStrings t k dt d) q).2.getInt = atoi (d.take 29) := by
  rw [pointJsToPoint_some, hdt]
  obtain ⟨hle, hlt⟩ : -2 ^ 31 ≤ atoi (d.take 29) ∧ atoi (d.take 29) < 2 ^ 31 := by
    rw [atoi_eq]
    exact wrap32_bounds _
  exact getInt_poke hle hlt

/-- **Integers are decoded exactly** when they are in range and their digits end within the part
of the text that is copied. -/
theorem decodedExactly_iff (d : Bytes) :
    DecodedExactly d ↔ (-2 ^ 31 ≤ intValue (numeral d) ∧ intValue (numeral d) < 2 ^ 31) ∧
      (intValue (numeral d) = 0 ∨ (numeral d).length ≤ 29) := by
  have hstored : atoi (d.take 29) = wrap32 (intValue ((numeral d).take 29)) := by
    rw [atoi_eq, numeral_take]
  have hiff :
      DecodedExactly d ↔ wrap32 (intValue ((numeral d).take 29)) = intValue (numeral d) := by
    rw [← hstored]
    constructor
    · intro h
      have hint : dataTypeOfCode (lit "INT") = pointDataTypeInt := by decide
      have hret : (pointJsToPoint (.ofStrings [] [] (lit "INT") d) .zero).1 = 0 := by
        rw [pointJsToPoint_some, hint]
        rfl
      have hget := h _ _ _ .zero (isLongestNumeral_iff.mpr rfl) rfl rfl hint hret
      rwa [getInt_pointJsToPoint hint] at hget
    · rintro h s js dt q hs rfl hdt hint hret
      obtain ⟨t, k, dt', d, rfl, -⟩ := pointJsToPoint_ret.mp hret
      obtain rfl := Option.some.inj hdt
      obtain rfl := isLongestNumeral_iff.mp hs
      rw [getInt_pointJsToPoint hint, h]
  rw [hiff]
  have hbounds := wrap32_bounds (intValue ((numeral d).take 29))
  rcases Nat.lt_or_ge 29 (numeral d).length with hlong | hshort
  · -- what is left of a cut numeral in range is itself in range
    have hcut := natAbs_intValue_take_le (isSignedDigits_numeral d) hlong
    constructor
    · intro h
      rw [h] at hbounds
      rw [wrap32_of_bounds (by omega) (by omega)] at h
      exact ⟨hbounds, by omega⟩
    · rintro ⟨hrange, hzero⟩
      rw [wrap32_of_bounds (by omega) (by omega)]
      omega
  · rw [List.take_of_length_le hshort] at hbounds ⊢
    constructor
    · intro h
      exact ⟨h ▸ hbounds, .inr hshort⟩
    · intro h
      exact wrap32_of_bounds h.1.1 h.1.2

/-- A text of the first number that is too large is taken for the smallest. -/
theorem not_decodedExactly_overflow : ¬ DecodedExactly (lit "2147483648") := by
  intro h
  have hstored := h (lit "2147483648") (.ofStrings (lit "temp") (lit "0") (lit "INT")
    (lit "2147483648")) (lit "INT") .zero (isLongestNumeral_iff.mpr (by decide)) rfl rfl (by decide)
    (by decide)
  rw [getInt_pointJsToPoint (by decide)] at hstored
  exact absurd hstored (by decide +kernel)

end ZephyrSiot
