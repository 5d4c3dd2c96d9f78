import ZephyrSiot.Verify.ReportLine
import ZephyrSiot.Verify.IntegerText

/-!
# The room that a quoted field takes

`quote_field` is to fail exactly when the rendering and its terminator do not fit. The last check of
the quoted mode asks for one byte more than is stored, so an exact fit is refused
(`exactRoom_iff`). Nothing is stored past the buffer.
-/

namespace ZephyrSiot
open CStr quoteField

namespace quoteField

/-- The number of characters that a field is rendered with. -/
def fieldLength (s : Bytes) : Nat :=
  if NeedsQuote s then s.length + s.countP (esc · ≠ 0) + 2 else s.length

theorem length_escape (s : Bytes) : (escape s).length = s.length + s.countP (esc · ≠ 0) := by
  induction s with
  | nil => rfl
  | cons c s ih =>
    rw [escape_cons, List.length_append, ih, List.length_cons, List.countP_cons, escapeOne]
    by_cases hc : esc c ≠ 0
    · rw [if_pos hc, if_pos (by simpa using hc)]
      simp only [List.length_cons, List.length_nil]
      omega
    · rw [if_neg hc, if_neg (by simpa using hc)]
      simp only [List.length_cons, List.length_nil]
      omega

theorem length_rendering (s : Bytes) : (rendering s).length = fieldLength s := by
  unfold rendering fieldLength
  split
  · rw [List.length_append, List.length_cons, length_escape, List.length_singleton]
  · rfl

/-! ## What is stored -/

/-- One byte is left behind what a loop stores. -/
theorem bare_length_le (dstLen : Nat) (s : Bytes) (di : Nat) :
    di + (bare dstLen s di).2.length ≤ max di (dstLen - 1) := by
  induction s generalizing di with
  | nil => exact Nat.le_max_left ..
  | cons c s ih =>
    rw [bare]
    split
    · exact Nat.le_max_left ..
    · have := ih (di + 1)
      rw [List.length_cons]
      omega

theorem quoted_length_le (dstLen : Nat) (s : Bytes) (di : Nat) :
    di + (quoted dstLen s di).2.length ≤ max di (dstLen - 1) := by
  induction s generalizing di with
  | nil => exact Nat.le_max_left ..
  | cons c s ih =>
    rw [quoted]
    split
    · split
      · exact Nat.le_max_left ..
      · have := ih (di + 2)
        rw [List.length_cons, List.length_cons]
        omega
    · split
      · exact Nat.le_max_left ..
      · have := ih (di + 1)
        rw [List.length_cons]
        omega

end quoteField

/-! ## What is returned -/

/-- The call fails exactly when the field and its terminator do not fit, and stays in the buffer. -/
structure ExactRoom (src : Bytes) (dstLen : Nat) : Prop where
  fits : (rendering (cstr src)).length + 1 ≤ dstLen →
    ret src dstLen = (rendering (cstr src)).length ∧
      (quoteField src dstLen).2 = rendering (cstr src) ++ [nul]
  fails : dstLen < (rendering (cstr src)).length + 1 → ret src dstLen = -1
  inside : (quoteField src dstLen).2.length ≤ dstLen

/-- A field that needs no quotes is refused exactly when it does not fit. -/
theorem quoteField_bare {src : Bytes} (hq : ¬ NeedsQuote (cstr src)) (dstLen : Nat) :
    ((cstr src).length < dstLen → quoteField src dstLen =
      (((cstr src).length : Int), cstr src ++ [nul])) ∧
      (dstLen ≤ (cstr src).length → (quoteField src dstLen).1 = -1 ∧
        (quoteField src dstLen).2.length ≤ dstLen) := by
  have hlen := bare_length_le dstLen (cstr src) 0
  unfold quoteField
  dsimp only
  rw [if_pos hq]
  constructor
  · intro hroom
    have hroom : 0 + (cstr src).length < dstLen := by omega
    rw [bare_eq hroom]
    rfl
  · intro hroom
    have hne : 0 < (cstr src).length :=
      List.length_pos_of_ne_nil fun h => hq (.inl h)
    have hfits : ¬ (bare dstLen (cstr src) 0).1 = true := by
      intro hfits
      rw [bare_snd hfits] at hlen
      omega
    rw [if_neg hfits]
    refine ⟨rfl, ?_⟩
    change (bare dstLen (cstr src) 0).2.length ≤ dstLen
    omega

/-- The check behind the loop of the quoted mode asks for a byte that is not needed. -/
theorem quoteField_quoted {src : Bytes} (hq : NeedsQuote (cstr src)) (dstLen : Nat) :
    ((rendering (cstr src)).length + 1 < dstLen →
      quoteField src dstLen =
      (((rendering (cstr src)).length : Int), rendering (cstr src) ++ [nul])) ∧
      (dstLen ≤ (rendering (cstr src)).length + 1 → (quoteField src dstLen).1 = -1 ∧
        (quoteField src dstLen).2.length ≤ dstLen) := by
  have hlen := quoted_length_le dstLen (cstr src) 1
  have hrendering : rendering (cstr src) = quote :: escape (cstr src) ++ [quote] := if_pos hq
  have hlength : (rendering (cstr src)).length = (escape (cstr src)).length + 2 := by
    rw [hrendering]
    simp
  unfold quoteField
  dsimp only
  rw [if_neg (not_not_intro hq), hlength]
  constructor
  · intro hroom
    have hfits : 1 + (escape (cstr src)).length < dstLen := by omega
    rw [if_neg (by omega), quoted_eq hfits]
    dsimp only
    rw [if_neg (by simp), if_neg (by omega), hrendering]
    simp
  · intro hroom
    split
    · exact ⟨rfl, Nat.zero_le _⟩
    next hstart =>
      split
      · refine ⟨rfl, ?_⟩
        rw [List.length_cons]
        omega
      next hfits =>
        rw [quoted_snd (by simpa using hfits)] at hlen ⊢
        rw [if_pos (by omega)]
        refine ⟨rfl, ?_⟩
        rw [List.length_cons]
        omega

section
variable {src : Bytes} {dstLen : Nat}

theorem ExactRoom.of_stored (hroom : (rendering (cstr src)).length + 1 ≤ dstLen)
    (hint : (rendering (cstr src)).length < 2 ^ 31)
    (h : quoteField src dstLen =
      (((rendering (cstr src)).length : Int), rendering (cstr src) ++ [nul])) :
    ExactRoom src dstLen := by
  refine ⟨fun _ => ⟨?_, by rw [h]⟩, fun hfails => by omega, ?_⟩
  · rw [ret, h, wrap32_of_bounds (by omega) (by omega)]
  · rw [h, List.length_append]
    exact hroom

theorem ExactRoom.of_refused (hroom : dstLen < (rendering (cstr src)).length + 1)
    (h : (quoteField src dstLen).1 = -1 ∧ (quoteField src dstLen).2.length ≤ dstLen) :
    ExactRoom src dstLen := by
  refine ⟨fun hfits => by omega, fun _ => ?_, h.2⟩
  rw [ret, h.1, wrap32_of_bounds (by decide) (by decide)]

end

/-- **The room of a field is exact** unless it is quoted and fits with no byte to spare, or it fits
and its length is no `int`. -/
theorem exactRoom_iff (src : Bytes) (dstLen : Nat) :
    ExactRoom src dstLen ↔
      ¬ (NeedsQuote (cstr src) ∧ dstLen = fieldLength (cstr src) + 1) ∧
        (fieldLength (cstr src) + 1 ≤ dstLen → fieldLength (cstr src) < 2 ^ 31) := by
  have hlength := length_rendering (cstr src)
  rw [← hlength]
  constructor
  · intro h
    have hwrap := wrap32_bounds (quoteField src dstLen).1
    refine ⟨fun ⟨hq, hexact⟩ => ?_, fun hroom => ?_⟩
    · have hrefused := ((quoteField_quoted hq dstLen).2 hexact.le).1
      have hret := (h.fits hexact.ge).1
      rw [ret, hrefused, wrap32_of_bounds (by decide) (by decide)] at hret
      omega
    · have hret := (h.fits hroom).1
      rw [ret] at hret
      omega
  · rintro ⟨hexact, hint⟩
    rcases Nat.lt_or_ge dstLen ((rendering (cstr src)).length + 1) with hfew | hroom
    · refine .of_refused hfew ?_
      by_cases hq : NeedsQuote (cstr src)
      · exact (quoteField_quoted hq dstLen).2 hfew.le
      · rw [rendering, if_neg hq] at hfew
        exact (quoteField_bare hq dstLen).2 (Nat.lt_succ_iff.mp hfew)
    · refine .of_stored hroom (hint hroom) ?_
      by_cases hq : NeedsQuote (cstr src)
      · exact (quoteField_quoted hq dstLen).1 (hroom.lt_of_ne fun h => hexact ⟨hq, h.symm⟩)
      · rw [rendering, if_neg hq] at hroom ⊢
        exact (quoteField_bare hq dstLen).1 hroom

/-- The empty field is written as two quotes, and three bytes are refused. -/
theorem not_exactRoom_empty : ¬ ExactRoom [nul] 3 := by
  intro h
  exact absurd (h.fits (by decide)).1 (by decide)

end ZephyrSiot
