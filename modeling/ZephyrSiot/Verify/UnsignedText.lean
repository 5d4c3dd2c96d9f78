import ZephyrSiot.Verify.IntegerText
import ZephyrSiot.Theory.Positional
import Mathlib.Data.List.Induction

/-!
# Unsigned integers as text

`utoa64` in every base that has symbols for its digits: the digit loop stops with the digits of the
number, least significant first, `reverse` turns them around where they are, and what is written is
the one numeral of the number. In base ten `atou64` reads it back.
-/

namespace ZephyrSiot
open CStr Decimal
open Positional (alphanumeric alphanumeric_spec represents_iff represents_numeral)

/-! ## The loop of `reverse` -/

/-- The bytes between the two indices are turned around, all others stay. -/
theorem reverse_loop (front str rest : Bytes) :
    reverse.loop (front ++ str ++ rest) front.length (front.length + str.length - 1) =
      front ++ str.reverse ++ rest := by
  induction str using List.bidirectionalRec generalizing front rest with
  | nil =>
    rw [reverse.loop, if_neg (by rw [List.length_nil]; omega)]
    rfl
  | singleton c =>
    rw [reverse.loop, if_neg (by rw [List.length_singleton]; omega)]
    rfl
  | cons_append c str d ih =>
    have hlast : front.length + (c :: (str ++ [d])).length - 1 = front.length + str.length + 1 := by
      simp
      omega
    have hlength (x : UInt8) : front.length + str.length + 1 = (front ++ x :: str).length := by
      simp
      omega
    have hsplit (x : UInt8) :
        front ++ x :: (str ++ [d]) ++ rest = (front ++ x :: str) ++ d :: rest := by simp
    have hfirst : (front ++ c :: (str ++ [d]) ++ rest).getD front.length 0 = c := by
      simp [List.getD]
    have hend : (front ++ c :: (str ++ [d]) ++ rest).getD (front.length + str.length + 1) 0 = d := by
      rw [hsplit, hlength c]
      simp [List.getD]
    have hset : (front ++ c :: (str ++ [d]) ++ rest).set front.length d =
        front ++ d :: (str ++ [d]) ++ rest := by simp
    have hswap : (front ++ d :: (str ++ [d]) ++ rest).set (front.length + str.length + 1) c =
        (front ++ [d]) ++ str ++ c :: rest := by
      rw [hsplit, hlength d, List.set_append_right _ _ (Nat.le_refl _), Nat.sub_self]
      simp
    have hnext := ih (front ++ [d]) (c :: rest)
    rw [List.length_append, List.length_singleton, Nat.add_right_comm] at hnext
    rw [hlast, reverse.loop, if_pos (by omega), hfirst, hend, hset, hswap, hnext]
    simp

theorem reverse_eq_loop (str rest : Bytes) :
    reverse.loop (str ++ rest) 0 (str.length - 1) = reverse str ++ rest := by
  simpa [reverse] using reverse_loop [] str rest

/-! ## The digit loop -/

/-- With fuel for all digits the loop has stopped. -/
theorem digitLoop_writes {b fuel n : Nat} (h : n < b ^ fuel) :
    digitLoop.Writes b n (digitLoop b fuel n) := by
  induction fuel generalizing n with
  | zero =>
    obtain rfl := Nat.lt_one_iff.mp h
    exact .stop
  | succ fuel ih =>
    rcases Nat.eq_zero_or_pos n with rfl | hpos
    · exact .stop
    · have hdiv : (n : Int).tdiv b = (n / b : Nat) := rfl
      rw [digitLoop, if_neg (by omega)]
      refine .digit (by omega) ?_
      rw [hdiv]
      exact ih (Nat.div_lt_of_lt_mul (by rwa [Nat.pow_succ'] at h))

theorem toNat_lt_pow (n : UInt64) {b : Nat} (hb : 2 ≤ b) : n.toNat < b ^ 64 :=
  n.toNat_lt.trans_le (Nat.pow_le_pow_left hb 64)

theorem utoa64_eq (n : UInt64) {b : Nat} (hb : 2 ≤ b) :
    utoa64 n b = Positional.numeral alphanumeric b n.toNat := by
  unfold utoa64 Positional.numeral
  by_cases hn : n = 0
  · rw [if_pos hn, if_pos (by rw [hn]; rfl)]
    rfl
  · have htoNat : n.toNat ≠ 0 := fun h => hn (UInt64.toNat.inj h)
    rw [if_neg hn, if_neg htoNat, digitLoop_digits hb (toNat_lt_pow n hb)]
    rfl

/-! ## Reading -/

/-- The loop adds up the digits that the text starts with, up to a multiple of `2 ^ 64`. -/
theorem atou64_loop_modEq (s : Bytes) (r : UInt64) :
    (atou64.loop s r).toNat ≡
      r.toNat * 10 ^ (digits s).length + natValue (digits s) [MOD 2 ^ 64] := by
  induction s generalizing r with
  | nil => simp [atou64.loop, digits, Nat.ModEq.refl]
  | cons c s ih =>
    by_cases hc : IsDigit c
    · have hstep : (r * 10 + (c - 48).toUInt64).toNat ≡ r.toNat * 10 + digitValue c
          [MOD 2 ^ 64] := by
        have hvalue : (c - 48).toUInt64.toNat = digitValue c := by
          have htoNat := toNat_eq hc
          rw [UInt8.toNat_toUInt64, UInt8.toNat_sub_of_le _ _ hc.1]
          rfl
        rw [UInt64.toNat_add, UInt64.toNat_mul, hvalue, Nat.ModEq, Nat.mod_mod]
        exact ((Nat.mod_modEq _ _).add_right _)
      rw [atou64.loop, if_neg (IsDigit.ne_zero hc), if_pos hc, digits_cons hc, natValue_cons,
        List.length_cons]
      calc (atou64.loop s (r * 10 + (c - 48).toUInt64)).toNat
        _ ≡ (r * 10 + (c - 48).toUInt64).toNat * 10 ^ (digits s).length + natValue (digits s)
            [MOD 2 ^ 64] := ih _
        _ ≡ (r.toNat * 10 + digitValue c) * 10 ^ (digits s).length + natValue (digits s)
            [MOD 2 ^ 64] := (hstep.mul_right _).add_right _
        _ = _ := by ring
    · have hloop : atou64.loop (c :: s) r = r := by
        rw [atou64.loop, if_neg hc]
        split <;> rfl
      rw [hloop, digits_cons_of_not hc]
      simp [Nat.ModEq.refl]

/-- Digits are read as their number, when it has 64 bits. -/
theorem atou64_of_digits {s : Bytes} (hs : ∀ c ∈ s, IsDigit c) :
    atou64 s = .ofNat (natValue s) := by
  have hatou : atou64 s = atou64.loop s 0 := by
    unfold atou64
    split
    · exact (not_isDigit_minus (hs _ (List.mem_cons_self ..))).elim
    · rfl
  have hdigits : digits s = s := List.takeWhile_eq_self_iff.mpr (by simpa using hs)
  have hloop := atou64_loop_modEq s 0
  rw [hdigits] at hloop
  have hvalue : (atou64.loop s 0).toNat ≡ natValue s [MOD 2 ^ 64] := by simpa using hloop
  refine UInt64.toNat.inj ?_
  rw [hatou, UInt64.toNat_ofNat']
  exact (Nat.mod_eq_of_lt (atou64.loop s 0).toNat_lt).symm.trans hvalue

theorem atou64_utoa64 (n : UInt64) : atou64 (utoa64 n 10) = n := by
  by_cases hn : n = 0
  · subst hn
    rfl
  · have hpos : 0 < n.toNat := Nat.pos_of_ne_zero fun h => hn (UInt64.toNat.inj h)
    have htext : utoa64 n 10 = magnitudeText n.toNat := by
      rw [utoa64, if_neg hn, digitLoop_eq (toNat_lt_pow n (by decide))]
      rfl
    rw [htext, atou64_of_digits (isMagnitude_magnitudeText hpos).1, natValue_magnitudeText,
      UInt64.ofNat_toNat]

/-! ## The text of an unsigned integer -/

/-- **`utoa64` writes the numeral of its argument.** The digit loop stops, the loop of `reverse`
turns its digits around in front of whatever follows them, and no other text is a numeral of the
number. -/
theorem utoa64_spec (n : UInt64) {b : Nat} (hb : 2 ≤ b) (hb' : b ≤ 36) :
    (n ≠ 0 → ∃ ds, digitLoop.Writes b n.toNat ds ∧
      ∀ rest, reverse.loop (ds ++ rest) 0 (ds.length - 1) = utoa64 n b ++ rest) ∧
    (∀ c ∈ utoa64 n b, IsDigit c ∨ 0x61 ≤ c ∧ c ≤ 0x7a) ∧
    (∀ s, Positional.Represents alphanumeric b n.toNat s ↔ s = utoa64 n b) ∧
    (b = 10 → atou64 (utoa64 n b) = n) := by
  refine ⟨fun hn => ⟨_, digitLoop_writes (toNat_lt_pow n hb), fun rest => ?_⟩, ?_, fun s => ?_,
    ?_⟩
  · rw [reverse_eq_loop, utoa64, if_neg hn]
  · have hnumeral : Positional.Represents alphanumeric b n.toNat _ := represents_numeral hb
    obtain ⟨ds, hds, hlt, -⟩ := hnumeral
    rw [utoa64_eq n hb, hds]
    intro c hc
    obtain ⟨d, hd, rfl⟩ := List.mem_map.mp hc
    exact alphanumeric_spec ((hlt d hd).trans_le hb')
  · rw [utoa64_eq n hb]
    exact represents_iff hb
  · rintro rfl
    exact atou64_utoa64 n

theorem utoa64_spec_byte :
    (∀ s, Positional.Represents alphanumeric 16 255 s ↔ s = lit "ff") ∧
      atou64 (lit "18446744073709551615") = 18446744073709551615 :=
  ⟨(utoa64_spec 255 (b := 16) (by decide) (by decide)).2.2.1,
    (utoa64_spec 18446744073709551615 (b := 10) (by decide) (by decide)).2.2.2 rfl⟩

end ZephyrSiot
