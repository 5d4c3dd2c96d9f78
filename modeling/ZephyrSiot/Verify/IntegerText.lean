import ZephyrSiot.PointJson
import ZephyrSiot.Theory.Decimal
import ZephyrSiot.Theory.Positional
import Mathlib.Data.Int.ModEq

/-!
# Integers as text

`itoa` and `atoi` in base ten. The digit loop runs through `Nat.digits`, least significant digit
first, and `atoi` adds up the digits that a text starts with. Every `int` comes back but the smallest
one, whose magnitude is no `int`.
-/

namespace ZephyrSiot
open CStr Decimal
open Positional (alphanumeric)

/-! ## 32 bits -/

theorem wrap32_of_bounds {v : Int} (h : -2 ^ 31 ≤ v) (h' : v < 2 ^ 31) : wrap32 v = v :=
  Int.bmod_eq_of_le_mul_two (by omega) (by omega)

theorem wrap32_bounds (v : Int) : -2 ^ 31 ≤ wrap32 v ∧ wrap32 v < 2 ^ 31 := by
  have hle := Int.le_bmod (x := v) (m := 2 ^ 32) (by decide)
  have hlt := Int.bmod_lt (x := v) (m := 2 ^ 32) (by decide)
  unfold wrap32
  omega

theorem wrap32_modEq (v : Int) : wrap32 v ≡ v [ZMOD 2 ^ 32] := Int.bmod_emod

theorem wrap32_congr {v w : Int} (h : v ≡ w [ZMOD 2 ^ 32]) : wrap32 v = wrap32 w := by
  have hemod : v % (2 ^ 32 : Nat) = w % (2 ^ 32 : Nat) := h
  rw [wrap32, wrap32, ← Int.emod_bmod v, hemod, Int.emod_bmod]

/-! ## Digits -/

/-- The character of a digit. -/
def decimal (d : Nat) : UInt8 := .ofNat (48 + d)

theorem decimal_eq {d : Nat} (h : d < 10) : decimal d = alphanumeric d := by
  rw [alphanumeric, if_pos h, decimal]

theorem ofInt_natCast (n : Nat) : UInt8.ofInt n = .ofNat n := by
  rw [UInt8.ofInt, ← UInt8.ofNat_mod_size (x := n)]
  rfl

theorem digitChar_natCast (d : Nat) : digitChar d = alphanumeric d := by
  have hcast : (if (d : Int) > 9 then (d : Int) - 10 + 97 else d + 48) =
      ((if d < 10 then 48 + d else 97 + (d - 10) : Nat) : Int) := by
    split <;> split <;> omega
  rw [digitChar, hcast, alphanumeric, ofInt_natCast]

theorem isDigit_decimal {d : Nat} (h : d < 10) : IsDigit (decimal d) := by
  unfold decimal
  constructor <;> rw [UInt8.le_iff_toNat_le, UInt8.toNat_ofNat'] <;> simp <;> omega

theorem digitValue_decimal {d : Nat} (h : d < 10) : digitValue (decimal d) = d := by
  rw [digitValue, decimal, UInt8.toNat_ofNat']
  omega

/-- Enough fuel gives the digits of a number. -/
theorem digitLoop_digits {b fuel n : Nat} (hb : 1 < b) (h : n < b ^ fuel) :
    digitLoop b fuel n = (Nat.digits b n).map alphanumeric := by
  induction fuel generalizing n with
  | zero =>
    obtain rfl := Nat.lt_one_iff.mp h
    rw [Nat.digits_zero]
    rfl
  | succ fuel ih =>
    rcases Nat.eq_zero_or_pos n with rfl | hpos
    · rw [Nat.digits_zero]
      rfl
    · have hmod : (n : Int).tmod b = (n % b : Nat) := rfl
      have hdiv : (n : Int).tdiv b = (n / b : Nat) := rfl
      rw [digitLoop, if_neg (by omega), hmod, hdiv, digitChar_natCast,
        ih (Nat.div_lt_of_lt_mul (by rwa [Nat.pow_succ'] at h)), Nat.digits_def' hb hpos,
        List.map_cons]

theorem digitLoop_eq {fuel n : Nat} (h : n < 10 ^ fuel) :
    digitLoop 10 fuel n = (Nat.digits 10 n).map decimal := by
  have hdigits := digitLoop_digits (by decide) h
  rw [Nat.cast_ofNat] at hdigits
  rw [hdigits]
  exact List.map_congr_left fun d hd => (decimal_eq (Nat.digits_lt_base (by decide) hd)).symm

/-- The text of a positive number. -/
def magnitudeText (n : Nat) : Bytes := ((Nat.digits 10 n).map decimal).reverse

theorem itoa_of_pos {n : Nat} (hpos : 0 < n) (h : n < 2 ^ 31) :
    itoa n 10 = magnitudeText n := by
  rw [itoa, if_neg (by omega), if_neg (by omega), digitLoop_eq (by omega)]
  rfl

theorem itoa_of_neg {n : Nat} (hpos : 0 < n) (h : n < 2 ^ 31) :
    itoa (-n) 10 = 0x2d :: magnitudeText n := by
  have hneg : wrap32 (- -(n : Int)) = n := by
    rw [Int.neg_neg, wrap32_of_bounds (by omega) (by omega)]
  rw [itoa, if_neg (by omega), if_pos (by omega), hneg, digitLoop_eq (by omega), reverse,
    List.reverse_append]
  rfl

/-! ## Reading -/

theorem digitVal_eq {c : UInt8} (h : IsDigit c) : digitVal c = digitValue c := by
  rw [digitVal, toNat_eq h]
  omega

/-- The loop adds up the digits that the text starts with, up to a multiple of `2 ^ 32`. -/
theorem atoi_loop_modEq (s : Bytes) (r : Int) :
    atoi.loop s r ≡ r * 10 ^ (digits s).length + natValue (digits s) [ZMOD 2 ^ 32] := by
  induction s generalizing r with
  | nil => simp [atoi.loop, digits, Int.ModEq.refl]
  | cons c s ih =>
    by_cases hc : IsDigit c
    · rw [atoi.loop, if_neg (IsDigit.ne_zero hc), if_pos hc, digits_cons hc, natValue_cons, List.length_cons]
      calc atoi.loop s (wrap32 (r * 10 + digitVal c))
        _ ≡ wrap32 (r * 10 + digitVal c) * 10 ^ (digits s).length + natValue (digits s)
            [ZMOD 2 ^ 32] := ih _
        _ ≡ (r * 10 + digitVal c) * 10 ^ (digits s).length + natValue (digits s) [ZMOD 2 ^ 32] :=
          ((wrap32_modEq _).mul_right _).add_right _
        _ = _ := by
          rw [digitVal_eq hc]
          push_cast
          ring
    · have hloop : atoi.loop (c :: s) r = r := by
        rw [atoi.loop, if_neg hc]
        split <;> rfl
      rw [hloop, digits_cons_of_not hc]
      simp [Int.ModEq.refl]

/-- `atoi` is the value of the numeral that the text starts with, in 32 bits. -/
theorem atoi_eq (s : Bytes) : atoi s = wrap32 (intValue (numeral s)) := by
  have hloop (t : Bytes) : atoi.loop t 0 ≡ natValue (digits t) [ZMOD 2 ^ 32] := by
    simpa using atoi_loop_modEq t 0
  rcases minus_cases s with ⟨t, rfl⟩ | ⟨hs, hnum⟩
  · rw [atoi, numeral, intValue, Int.neg_one_mul]
    exact wrap32_congr (hloop t).neg
  · have hatoi : atoi s = wrap32 (1 * atoi.loop s 0) := by
      unfold atoi
      split
      · exact (hs rfl).elim
      · rfl
    rw [hatoi, hnum, intValue_of_digits (isDigit_digits s), Int.one_mul]
    exact wrap32_congr (hloop s)

theorem isDigit_of_mem_map {l : List Nat} (hl : ∀ d ∈ l, d < 10) {c : UInt8}
    (hc : c ∈ l.map decimal) : IsDigit c := by
  obtain ⟨d, hd, rfl⟩ := List.mem_map.mp hc
  exact isDigit_decimal (hl d hd)

theorem natValue_reverse {l : List Nat} (hl : ∀ d ∈ l, d < 10) :
    natValue (l.map decimal).reverse = Nat.ofDigits 10 l := by
  induction l with
  | nil => rfl
  | cons d l ih =>
    rw [List.forall_mem_cons] at hl
    rw [List.map_cons, List.reverse_cons, natValue_concat, ih hl.2, digitValue_decimal hl.1,
      Nat.ofDigits_cons]
    exact Nat.add_comm ..

/-- The text of a number is read as that number. -/
theorem natValue_magnitudeText (n : Nat) : natValue (magnitudeText n) = n := by
  rw [magnitudeText, natValue_reverse fun d hd => Nat.digits_lt_base (by decide) hd,
    Nat.ofDigits_digits]

/-! ## The text of an `int` -/

/-- Digits, the first of them not zero. -/
def IsMagnitude (s : Bytes) : Prop := (∀ c ∈ s, IsDigit c) ∧ ∃ c t, s = c :: t ∧ c ≠ 0x30

/-- The text "0", or digits without a leading zero, perhaps behind a minus sign. -/
def IsNumeral (s : Bytes) : Prop :=
  s = lit "0" ∨ ∃ digits, IsMagnitude digits ∧ (s = digits ∨ s = 0x2d :: digits)

theorem isMagnitude_magnitudeText {n : Nat} (hpos : 0 < n) : IsMagnitude (magnitudeText n) := by
  have hlt : ∀ d ∈ Nat.digits 10 n, d < 10 := fun d hd => Nat.digits_lt_base (by decide) hd
  refine ⟨fun c hc => isDigit_of_mem_map hlt (List.mem_reverse.mp hc), ?_⟩
  have hne : Nat.digits 10 n ≠ [] := Nat.digits_ne_nil_iff_ne_zero.mpr (by omega)
  have hlast := Nat.getLast_digit_ne_zero 10 (by omega : n ≠ 0)
  have hlast10 := hlt _ (List.getLast_mem hne)
  refine ⟨decimal ((Nat.digits 10 n).getLast hne),
    ((Nat.digits 10 n).dropLast.map decimal).reverse, ?_, fun h => hlast ?_⟩
  · conv_lhs => rw [magnitudeText, ← List.dropLast_append_getLast hne]
    rw [List.map_append, List.reverse_append]
    rfl
  · have hvalue := digitValue_decimal hlast10
    rw [h] at hvalue
    exact hvalue.symm

theorem length_magnitudeText_le {n k : Nat} (h : n < 10 ^ k) : (magnitudeText n).length ≤ k := by
  rw [magnitudeText, List.length_reverse, List.length_map]
  exact (Nat.digits_length_le_iff (by decide) n).mpr h

theorem itoa_spec {v : Int} (h : -2 ^ 31 < v) (h' : v < 2 ^ 31) :
    IsNumeral (itoa v 10) ∧ (itoa v 10).length ≤ 11 ∧ atoi (itoa v 10) = v := by
  rcases Int.lt_trichotomy v 0 with hneg | rfl | hpos
  · obtain ⟨n, rfl⟩ : ∃ n : Nat, v = -n := ⟨v.natAbs, by omega⟩
    have hn : n < 2 ^ 31 := by omega
    have hmag := isMagnitude_magnitudeText (show 0 < n by omega)
    rw [itoa_of_neg (by omega) hn]
    refine ⟨.inr ⟨_, hmag, .inr rfl⟩, Nat.succ_le_succ (length_magnitudeText_le (by omega)), ?_⟩
    have hnum : Decimal.IsSignedDigits (0x2d :: magnitudeText n) := ⟨_, hmag.1, .inr rfl⟩
    rw [atoi_eq, hnum.numeral_eq, intValue, natValue_magnitudeText,
      wrap32_of_bounds (by omega) (by omega)]
  · exact ⟨.inl rfl, by decide, by decide⟩
  · obtain ⟨n, rfl⟩ : ∃ n : Nat, v = n := ⟨v.natAbs, by omega⟩
    have hn : n < 2 ^ 31 := by omega
    have hmag := isMagnitude_magnitudeText (show 0 < n by omega)
    rw [itoa_of_pos (by omega) hn]
    refine ⟨.inr ⟨_, hmag, .inl rfl⟩, (length_magnitudeText_le (k := 10) (by omega)).trans
      (by decide), ?_⟩
    have hnum : Decimal.IsSignedDigits (magnitudeText n) := ⟨_, hmag.1, .inl rfl⟩
    rw [atoi_eq, hnum.numeral_eq, intValue_of_digits hmag.1, natValue_magnitudeText,
      wrap32_of_bounds (by omega) (by omega)]

/-! ## An integer point -/

/-- The integer is rendered as a numeral, and is what the numeral is decoded to. -/
def SurvivesWire (v : Int) : Prop :=
  ∀ (p : Point) (bufLen : Nat), 0 < bufLen → ∃ text, (p.putInt v).dataToString bufLen = (0, text) ∧
    IsNumeral text ∧ ∀ (t k : Bytes) (q : Point),
      let r := pointJsToPoint ⟨some t, some k, some pointDataTypeIntS, text⟩ q
      r.1 = 0 ∧ r.2.dataType = pointDataTypeInt ∧ r.2.getInt = v

theorem getInt_poke {a : CharArray 20} {v : Int} (h : -2 ^ 31 ≤ v) (h' : v < 2 ^ 31) :
    ((readLe32 (a.poke 0 (le32 v)).bytes : Int).bmod (2 ^ 32)) = v := by
  rw [readLe32_poke]
  have : (v % 2 ^ 32).bmod (2 ^ 32) = v.bmod (2 ^ 32) := Int.emod_bmod ..
  rw [this]
  exact wrap32_of_bounds h h'

/-- The text of the smallest `int`. -/
theorem itoa_min : itoa (-2 ^ 31) 10 = lit "-./,),(-*,(" := by decide +kernel

theorem not_isNumeral_min : ¬ IsNumeral (itoa (-2 ^ 31) 10) := by
  have hdot : ¬ IsDigit 0x2e := by decide
  have hmem : (0x2e : UInt8) ∈ lit "./,),(-*,(" := by decide
  have hminus : ¬ IsDigit 0x2d := by decide
  rw [itoa_min]
  rintro (h | ⟨digits, ⟨hdigits, -⟩, rfl | h⟩)
  · exact absurd h (by decide)
  · exact hminus (hdigits _ (List.mem_cons_self ..))
  · rw [← (List.cons.inj h).2] at hdigits
    exact hdot (hdigits _ hmem)

theorem dataToString_putInt {p : Point} {v : Int} (h : -2 ^ 31 ≤ v) (h' : v < 2 ^ 31)
    {bufLen : Nat} (hbuf : 0 < bufLen) : (p.putInt v).dataToString bufLen = (0, itoa v 10) := by
  have hget : (p.putInt v).getInt = v := getInt_poke h h'
  have hdt : (p.putInt v).dataType = pointDataTypeInt := rfl
  rw [Point.dataToString, if_neg (by omega), hdt, if_neg (by decide), if_pos rfl, hget]

theorem pointJsToPoint_int (t k d : Bytes) (q : Point) :
    pointJsToPoint ⟨some t, some k, some pointDataTypeIntS, d⟩ q =
      (0, ⟨0, copyStrField q.type t, copyStrField q.key k, pointDataTypeInt,
        q.data.poke 0 (le32 (atoi (d.take 29)))⟩) := by
  have hcode : dataTypeOfCode pointDataTypeIntS = pointDataTypeInt := by decide
  rw [pointJsToPoint_some, hcode]
  rfl

/-- **Every `int` survives the wire except the smallest.** Its negation overflows, so its digits
are taken from a negative number. -/
theorem survivesWire_iff {v : Int} (h : -2 ^ 31 ≤ v) (h' : v < 2 ^ 31) :
    SurvivesWire v ↔ v ≠ -2 ^ 31 := by
  constructor
  · rintro hwire rfl
    obtain ⟨text, htext, hnum, -⟩ := hwire .zero 1 (by decide)
    rw [dataToString_putInt h h' (by decide)] at htext
    obtain rfl := (Prod.mk.inj htext).2
    exact not_isNumeral_min hnum
  · intro hne p bufLen hbuf
    obtain ⟨hnum, hlen, hatoi⟩ := itoa_spec (v := v) (by omega) h'
    refine ⟨_, dataToString_putInt h h' hbuf, hnum, fun t k q => ?_⟩
    rw [pointJsToPoint_int, List.take_of_length_le (by omega), hatoi]
    exact ⟨rfl, rfl, getInt_poke h h'⟩

theorem survivesWire_answer : SurvivesWire (-42) :=
  (survivesWire_iff (by decide) (by decide)).mpr (by decide)

theorem not_survivesWire_min : ¬ SurvivesWire (-2 ^ 31) := by
  intro hwire
  obtain ⟨text, htext, hnum, -⟩ := hwire .zero 40 (by decide)
  rw [dataToString_putInt (by decide) (by decide) (by decide)] at htext
  obtain rfl := (Prod.mk.inj htext).2
  exact not_isNumeral_min hnum

end ZephyrSiot
