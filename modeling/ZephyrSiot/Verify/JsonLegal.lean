import ZephyrSiot.PointJson

/-!
# The emitted JSON values

The encoder escapes quotes and backslashes and copies every other character. What the firmware
itself can put into a text field is wider: `point_put_string` takes any string, and the decoder
turns the short escapes of its input into control characters. The token built from such a field
is a legal JSON string exactly when the field holds no control character (`body_token_iff`).
-/

namespace ZephyrSiot
open CStr JsonText

/-- The data fields that `point_put_string` and a successful `point_js_to_point` leave behind. -/
inductive Produced : CharArray 20 → Prop where
  | putString (p : Point) (v : Bytes) : Produced (p.putString v).data
  | decoded : (pointJsToPoint js q).1 = 0 → TextDataType (pointJsToPoint js q).2.dataType →
    Produced (pointJsToPoint js q).2.data

theorem Produced.terminated {a : CharArray 20} (h : Produced a) : a.Terminated := by
  cases h with
  | putString p v => exact copyStrField_terminated p.data v
  | @decoded js q hret hdt =>
    obtain ⟨t, k, dt, d, rfl, -⟩ := pointJsToPoint_ret.mp hret
    rw [pointJsToPoint_some] at hdt ⊢
    exact (decodedRun_text hdt q.data d).1

/-- **Every emitted value.** The token of a text point is a legal body exactly when its data
holds no character below the space. -/
theorem body_token_iff {p : Point} (hdt : TextDataType p.dataType) (hp : Produced p.data)
    {bufLen : Nat} (hbuf : pointJsonDataBufSize ≤ bufLen) :
    Body (pointToPointJs p bufLen).d ↔ ∀ c ∈ p.data.str, ¬ IsControl c := by
  rw [pointToPointJs_text hdt hp.terminated hbuf]
  exact body_escape_iff

theorem body_token_quoted :
    Body (pointToPointJs (Point.zero.putString (lit "say \"hi\" \\")) pointJsonDataBufSize).d :=
  (body_token_iff (.inl rfl) (.putString _ _) (Nat.le_refl _)).mpr (by decide)

/-- What the decoder makes of a point whose text is `a`, an escaped newline, and `b`. -/
def newlinePoint : Point :=
  (pointJsToPoint ⟨some (lit "description"), some (lit "0"), some pointDataTypeStringS,
    lit "a\\nb"⟩ .zero).2

/-- Its token has the newline itself. -/
theorem not_body_token_newline :
    Produced newlinePoint.data ∧ TextDataType newlinePoint.dataType ∧
      ¬ Body (pointToPointJs newlinePoint pointJsonDataBufSize).d := by
  refine ⟨.decoded (by decide) (.inl (by decide)), .inl (by decide), fun h => ?_⟩
  have htoken : (pointToPointJs newlinePoint pointJsonDataBufSize).d = lit "a\nb" := by decide
  rw [htoken] at h
  exact h.not_control lf (by decide) (by decide)

end ZephyrSiot
