import ZephyrSiot.Theory.CString
import Mathlib.Data.Nat.Digits.Lemmas

/-!
# Numerals

The numerals of a positional system with base `b`, the digit `d` being written `symbol d`, most
significant digit first. Every number has exactly one (`represents_iff`).
-/

namespace Positional

variable {α : Type*} {symbol : Nat → α} {b n : Nat} {s : List α}

/-- `s` is made of the digits of `n`, without leading zeros unless it is the numeral of zero. -/
def Represents (symbol : Nat → α) (b n : Nat) (s : List α) : Prop :=
  ∃ ds : List Nat, s = ds.map symbol ∧ (∀ d ∈ ds, d < b) ∧ Nat.ofDigits b ds.reverse = n ∧
    ds ≠ [] ∧ (ds.head? = some 0 → ds = [0])

/-- The numeral of a number. -/
def numeral (symbol : Nat → α) (b n : Nat) : List α :=
  if n = 0 then [symbol 0] else ((Nat.digits b n).map symbol).reverse

theorem represents_numeral (hb : 1 < b) : Represents symbol b n (numeral symbol b n) := by
  rcases Nat.eq_zero_or_pos n with rfl | hpos
  · exact ⟨[0], rfl, by simpa using Nat.zero_lt_of_lt hb, by simp, by simp, fun _ => rfl⟩
  · have hlast := Nat.getLast_digit_ne_zero b (by omega : n ≠ 0)
    have hne : Nat.digits b n ≠ [] := Nat.digits_ne_nil_iff_ne_zero.mpr (by omega)
    refine ⟨(Nat.digits b n).reverse, ?_, ?_, ?_, ?_, ?_⟩
    · rw [numeral, if_neg (by omega), List.map_reverse]
    · exact fun d hd => Nat.digits_lt_base hb (List.mem_reverse.mp hd)
    · rw [List.reverse_reverse, Nat.ofDigits_digits]
    · simpa using hne
    · intro hhead
      rw [List.head?_reverse, List.getLast?_eq_getLast_of_ne_nil hne] at hhead
      exact (hlast (Option.some.inj hhead)).elim

/-- **Every number has exactly one numeral.** -/
theorem represents_iff (hb : 1 < b) : Represents symbol b n s ↔ s = numeral symbol b n := by
  refine ⟨?_, fun h => h ▸ represents_numeral hb⟩
  rintro ⟨ds, rfl, hlt, hvalue, hne, hzero⟩
  cases ds with
  | nil => exact (hne rfl).elim
  | cons d ds =>
    by_cases hd : d = 0
    · obtain ⟨rfl, rfl⟩ := List.cons.inj (hzero (by rw [hd]; rfl))
      subst hvalue
      rfl
    · have hdigits : Nat.digits b n = (d :: ds).reverse := by
        rw [← hvalue]
        refine Nat.digits_ofDigits b hb _ (fun x hx => hlt x (List.mem_reverse.mp hx)) fun h => ?_
        simpa using hd
      have hn : n ≠ 0 := by
        rintro rfl
        simp at hdigits
      rw [numeral, if_neg hn, hdigits, ← List.map_reverse, List.reverse_reverse]

/-! ## The usual symbols -/

/-- The characters `0`-`9`, then `a`-`z`. -/
def alphanumeric (d : Nat) : UInt8 := .ofNat (if d < 10 then 48 + d else 97 + (d - 10))

theorem alphanumeric_spec {d : Nat} (h : d < 36) :
    CStr.IsDigit (alphanumeric d) ∨ 0x61 ≤ alphanumeric d ∧ alphanumeric d ≤ 0x7a := by
  unfold alphanumeric
  split
  · left
    constructor <;> rw [UInt8.le_iff_toNat_le, UInt8.toNat_ofNat'] <;> simp <;> omega
  · right
    constructor <;> rw [UInt8.le_iff_toNat_le, UInt8.toNat_ofNat'] <;> simp <;> omega

end Positional
