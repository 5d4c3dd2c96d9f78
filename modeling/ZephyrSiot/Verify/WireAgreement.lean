import ZephyrSiot.Verify.IntegerText
import ZephyrSiot.Verify.ReportLine

/-!
# The two encodings of a value

`point_emit` prints a value as a field of a line, `point_to_point_js` makes it the `d` token of a
JSON object, each with its own escapes. What they escape is one text (`encodings_agree`).
-/

namespace ZephyrSiot
open CStr LineFields

/-- The escapes of a `d` token: the quote and the backslash. -/
def jsonEscapeString.decode (e : UInt8) : Option UInt8 :=
  if e = quote ∨ e = backslash then some e else none

/-- The data field of a report. -/
def printedData (p : Point) : Int × Bytes := quoteField (p.dataToString 21).2 45

theorem unescape_escapeJson (s : Bytes) :
    unescape jsonEscapeString.decode (JsonText.escape s) = s := by
  refine unescape_flatMap fun c _ => ?_
  rcases Classical.em (c = quote ∨ c = backslash) with hc | hc
  · exact .inr ⟨c, JsonText.escapeChar_special hc, if_pos hc⟩
  · exact .inl ⟨(not_or.mp hc).2, JsonText.escapeChar_ordinary hc⟩

/-! ## Integers -/

theorem getInt_bounds (p : Point) : -2 ^ 31 ≤ p.getInt ∧ p.getInt < 2 ^ 31 := wrap32_bounds _

theorem IsNumeral.mem {s : Bytes} (h : IsNumeral s) {c : UInt8} (hc : c ∈ s) :
    IsDigit c ∨ c = 0x2d := by
  rcases h with rfl | ⟨digits, ⟨hdigits, -⟩, rfl | rfl⟩
  · exact .inl ((by decide : ∀ c ∈ lit "0", IsDigit c) c hc)
  · exact .inl (hdigits c hc)
  · rcases List.mem_cons.mp hc with rfl | hc
    · exact .inr rfl
    · exact .inl (hdigits c hc)

/-- The text of any `int`, also that of the smallest, needs no escape. -/
theorem itoa_plain {v : Int} (h : -2 ^ 31 ≤ v) (h' : v < 2 ^ 31) :
    (itoa v 10).length ≤ 12 ∧ 0 ∉ itoa v 10 ∧ backslash ∉ itoa v 10 := by
  rcases eq_or_ne v (-2 ^ 31) with rfl | hne
  · rw [itoa_min]
    decide
  · obtain ⟨hnum, hlen, -⟩ := itoa_spec (by omega : -2 ^ 31 < v) h'
    have hchars {c : UInt8} (hc : ¬ (IsDigit c ∨ c = 0x2d)) : c ∉ itoa v 10 :=
      fun hmem => hc (hnum.mem hmem)
    exact ⟨by omega, hchars (by decide), hchars (by decide)⟩

/-! ## Agreement -/

/-- A field that has room for any escapes stands for the text it was given. -/
theorem unquote_quoteField {s : Bytes} (h0 : 0 ∉ s) {dstLen : Nat}
    (hroom : 2 * s.length + 4 ≤ dstLen) :
    ¬ (quoteField s dstLen).1 < 0 ∧
      unquote quoteField.decode (cstr (quoteField s dstLen).2) = s := by
  have hstr : 2 * (cstr s).length + 4 ≤ dstLen := by rwa [cstr_eq_self h0]
  have hq := quoteField_eq hstr
  rw [cstr_eq_self h0] at hq
  rw [hq]
  refine ⟨Int.not_lt.mpr (Int.natCast_nonneg _), ?_⟩
  dsimp only
  rw [cstr_append_zero (quoteField.zero_notMem_rendering h0) [], quoteField.unquote_rendering]

/-- The data field that is printed. -/
theorem split_pointEmit {p : Point} (h : ¬ InvalidDataType p.dataType) {line : Bytes}
    (hline : pointEmit true p = some line) : (split line)[4]? = some (cstr (printedData p).2) := by
  have hfits : FitsBuffers p := by
    by_contra hover
    rw [pointEmit_none h hover] at hline
    cases hline
  rw [pointEmit_eq h hfits] at hline
  rw [← Option.some.inj hline, split_reportFields, printedData,
    quoteField_of_nonneg (not_or.mp hfits).1,
    cstr_append_zero (quoteField.zero_notMem_rendering (zero_notMem_cstr _)) []]
  rfl

/-- An integer point, or a text point whose data string ends within its array. -/
def HasTextValue (p : Point) : Prop :=
  p.dataType = pointDataTypeInt ∨ TextDataType p.dataType ∧ p.data.Terminated

/-- What both encodings escape. -/
def Point.textValue (p : Point) : Bytes :=
  if p.dataType = pointDataTypeInt then itoa p.getInt 10 else p.data.str

theorem HasTextValue.value {p : Point} (h : HasTextValue p) :
    p.dataToString 21 = (0, p.textValue) ∧ 0 ∉ p.textValue ∧ 2 * p.textValue.length + 4 ≤ 45 ∧
      unescape jsonEscapeString.decode (pointToPointJs p pointJsonDataBufSize).d = p.textValue := by
  rcases h with hdt | ⟨hdt, hterm⟩
  · obtain ⟨hlen, h0, hbs⟩ := itoa_plain (getInt_bounds p).1 (getInt_bounds p).2
    have hraw {bufLen : Nat} (hbuf : bufLen ≠ 0) : p.dataToString bufLen = (0, itoa p.getInt 10) := by
      rw [Point.dataToString, if_neg hbuf, hdt, if_neg (by decide), if_pos rfl]
    have hvalue : p.textValue = itoa p.getInt 10 := if_pos hdt
    rw [hvalue]
    refine ⟨hraw (by decide), h0, by omega, ?_⟩
    have hjs : (pointToPointJs p pointJsonDataBufSize).d = itoa p.getInt 10 := by
      rw [pointToPointJs, hraw (by decide), hdt]
      dsimp only
      rw [if_neg (by decide), if_pos rfl]
    rw [hjs, unescape_of_notMem hbs]
  · have hlen := hterm.length_str_lt
    have hne : p.dataType ≠ pointDataTypeInt := by
      rcases hdt with hdt | hdt <;> rw [hdt] <;> decide
    have hraw : p.dataToString 21 = (0, p.data.str.take 20) := by
      rw [Point.dataToString, if_neg (by decide)]
      rcases hdt with hdt | hdt <;> rw [hdt] <;> rfl
    have hvalue : p.textValue = p.data.str := if_neg hne
    rw [hvalue]
    refine ⟨?_, p.data.zero_notMem_str, by omega, ?_⟩
    · rw [hraw, List.take_of_length_le (by omega)]
    · rw [pointToPointJs_text hdt hterm (Nat.le_refl _), unescape_escapeJson]

/-- **The encodings agree.** The value is rendered, its field is not dropped, and the field and the
token stand for the same text, which for a text point is its data string. The field is the one
that is printed. -/
theorem encodings_agree {p : Point} (h : HasTextValue p) :
    (p.dataToString 21).1 = 0 ∧ ¬ (printedData p).1 < 0 ∧
      unquote quoteField.decode (cstr (printedData p).2) =
        unescape jsonEscapeString.decode (pointToPointJs p pointJsonDataBufSize).d ∧
      (TextDataType p.dataType →
        unquote quoteField.decode (cstr (printedData p).2) = p.data.str) ∧
      ∀ line, pointEmit true p = some line → (split line)[4]? = some (cstr (printedData p).2) := by
  obtain ⟨hraw, h0, hroom, hjs⟩ := h.value
  have hvalid : ¬ InvalidDataType p.dataType := by
    rcases h with hdt | ⟨hdt | hdt, -⟩ <;> rw [hdt] <;> decide
  obtain ⟨hfits, hfield⟩ := unquote_quoteField h0 hroom
  rw [printedData, hraw, hfield, hjs]
  refine ⟨rfl, hfits, rfl, fun hdt => if_neg ?_, fun line hline => ?_⟩
  · rcases hdt with hdt | hdt <;> rw [hdt] <;> decide
  · have := split_pointEmit hvalid hline
    rwa [printedData, hraw] at this

/-- Nineteen backslashes, which make the longest field and the longest token. -/
theorem encodings_agree_backslashes :
    unquote quoteField.decode
        (cstr (printedData (Point.zero.putString (List.replicate 19 backslash))).2) =
      unescape jsonEscapeString.decode
        (pointToPointJs (Point.zero.putString (List.replicate 19 backslash)) pointJsonDataBufSize).d :=
  (encodings_agree (.inr ⟨.inl rfl, copyStrField_terminated ..⟩)).2.2.1

end ZephyrSiot
