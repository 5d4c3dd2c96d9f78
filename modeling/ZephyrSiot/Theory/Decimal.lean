import ZephyrSiot.Theory.CString
import Mathlib.Data.List.Induction
import Mathlib.Data.Rat.Lemmas
import Mathlib.Tactic.FieldSimp
import Mathlib.Tactic.Ring

/-!
# Decimal digits

The number that a string of decimal digits stands for. A string of `n` digits is determined by its
number, which is less than `10 ^ n`. A numeral is digits behind an optional minus sign; `numeral s`
is the longest numeral that `s` starts with, and `number s` the rational number, with a fraction
behind a point.
-/

namespace Decimal
open CStr

def digitValue (c : UInt8) : Nat := c.toNat - 0x30

def natValue (s : Bytes) : Nat := s.foldl (fun n c => 10 * n + digitValue c) 0

variable {s t : Bytes} {c : UInt8}

theorem digitValue_lt (h : IsDigit c) : digitValue c < 10 := by
  have := UInt8.le_iff_toNat_le.mp h.2
  have : (0x39 : UInt8).toNat = 0x39 := rfl
  unfold digitValue
  omega

theorem toNat_eq (h : IsDigit c) : c.toNat = 0x30 + digitValue c := by
  have := UInt8.le_iff_toNat_le.mp h.1
  have : (0x30 : UInt8).toNat = 0x30 := rfl
  unfold digitValue
  omega

@[simp] theorem natValue_nil : natValue [] = 0 := rfl

theorem natValue_concat (s : Bytes) (c : UInt8) :
    natValue (s ++ [c]) = 10 * natValue s + digitValue c := by
  rw [natValue, List.foldl_append]
  rfl

theorem natValue_append (s t : Bytes) :
    natValue (s ++ t) = natValue s * 10 ^ t.length + natValue t := by
  induction t using List.reverseRecOn with
  | nil => simp
  | append_singleton t c ih =>
    rw [← List.append_assoc, natValue_concat, ih, natValue_concat, List.length_append,
      List.length_singleton, Nat.pow_succ]
    ring

theorem natValue_cons (c : UInt8) (s : Bytes) :
    natValue (c :: s) = digitValue c * 10 ^ s.length + natValue s := by
  have := natValue_append [c] s
  rw [← List.singleton_append, this, natValue, List.foldl_cons, List.foldl_nil]
  simp

theorem natValue_zeros (n : Nat) : natValue (.replicate n 0x30) = 0 := by
  induction n with
  | zero => rfl
  | succ n ih => rw [List.replicate_succ', natValue_concat, ih]; rfl

theorem natValue_lt (h : ∀ c ∈ s, IsDigit c) : natValue s < 10 ^ s.length := by
  induction s using List.reverseRecOn with
  | nil => decide
  | append_singleton s c ih =>
    rw [List.forall_mem_append, List.forall_mem_singleton] at h
    have := ih h.1
    have := digitValue_lt h.2
    rw [natValue_concat, List.length_append, List.length_singleton, Nat.pow_succ]
    omega

/-- Every digit that is cut off the end makes the number ten times smaller. -/
theorem natValue_take_le {n : Nat} (h : n < s.length) : 10 * natValue (s.take n) ≤ natValue s := by
  have hsplit :
      natValue s = natValue (s.take n) * 10 ^ (s.drop n).length + natValue (s.drop n) := by
    rw [← natValue_append, List.take_append_drop]
  have hpos : 10 ^ 1 ≤ 10 ^ (s.drop n).length :=
    Nat.pow_le_pow_right (by decide) (by rw [List.length_drop]; omega)
  have hmul := Nat.mul_le_mul_left (natValue (s.take n)) hpos
  omega

/-- Parts of the same length are compared one after the other. -/
theorem append_lt_append_iff {u v : Bytes} (h : s.length = t.length) :
    s ++ u < t ++ v ↔ s < t ∨ s = t ∧ u < v := by
  induction s generalizing t with
  | nil =>
    obtain rfl := List.length_eq_zero_iff.mp h.symm
    simp
  | cons c s ih =>
    obtain ⟨d, t, rfl⟩ := List.exists_cons_of_length_eq_add_one h.symm
    rw [List.cons_append, List.cons_append, List.cons_lt_cons_iff, List.cons_lt_cons_iff,
      ih (Nat.succ.inj h), List.cons.injEq]
    tauto

/-- Digits of the same number are ordered like their values. -/
theorem lt_iff_natValue_lt (hlen : s.length = t.length) (hs : ∀ c ∈ s, IsDigit c)
    (ht : ∀ c ∈ t, IsDigit c) : s < t ↔ natValue s < natValue t := by
  induction s generalizing t with
  | nil =>
    obtain rfl := List.length_eq_zero_iff.mp hlen.symm
    simp
  | cons c s ih =>
    obtain ⟨d, t, rfl⟩ := List.exists_cons_of_length_eq_add_one hlen.symm
    rw [List.forall_mem_cons] at hs ht
    have hlen : s.length = t.length := Nat.succ.inj hlen
    have hc := toNat_eq hs.1
    have hd := toNat_eq ht.1
    have hlts := natValue_lt hs.2
    have hltt := natValue_lt ht.2
    rw [List.cons_lt_cons_iff, ih hlen hs.2 ht.2, natValue_cons, natValue_cons, hlen,
      UInt8.lt_iff_toNat_lt, ← UInt8.toNat_inj]
    rw [hlen] at hlts
    rcases Nat.lt_trichotomy (digitValue c) (digitValue d) with hlt | heq | hgt
    · have := Nat.mul_le_mul_right (10 ^ t.length) hlt
      rw [Nat.succ_mul] at this
      omega
    · rw [heq]
      omega
    · have := Nat.mul_le_mul_right (10 ^ t.length) hgt
      rw [Nat.succ_mul] at this
      omega

/-! ## Digits to a fixed number of places -/

/-- The first `n` digits, zeros standing for those that are missing. -/
def pad (n : Nat) (s : Bytes) : Bytes := (s ++ .replicate n 0x30).take n

@[simp] theorem length_pad (n : Nat) (s : Bytes) : (pad n s).length = n := by
  rw [pad, List.length_take, List.length_append, List.length_replicate]
  omega

theorem pad_cons (n : Nat) (c : UInt8) (s : Bytes) : pad (n + 1) (c :: s) = c :: pad n s := by
  rw [pad, pad, List.cons_append, List.take_succ_cons, List.replicate_succ', ← List.append_assoc,
    List.take_append_of_le_length (by simp)]

theorem natValue_pad_nil (n : Nat) : natValue (pad n []) = 0 := by
  rw [pad, List.nil_append, List.take_replicate, Nat.min_self, natValue_zeros]

theorem isDigit_pad (h : ∀ c ∈ s, IsDigit c) (n : Nat) : ∀ c ∈ pad n s, IsDigit c := by
  intro c hc
  rcases List.mem_append.mp (List.mem_of_mem_take hc) with hc | hc
  · exact h c hc
  · rw [List.eq_of_mem_replicate hc]
    decide

/-! ## Numerals -/

/-- The digits that a text starts with. -/
def digits (s : Bytes) : Bytes := s.takeWhile (IsDigit ·)

theorem isDigit_digits (s : Bytes) : ∀ c ∈ digits s, IsDigit c := by
  intro c hc
  simpa using List.mem_takeWhile_imp hc

theorem digits_cons (h : IsDigit c) (s : Bytes) : digits (c :: s) = c :: digits s :=
  List.takeWhile_cons_of_pos (by simpa using h)

theorem digits_cons_of_not (h : ¬ IsDigit c) (s : Bytes) : digits (c :: s) = [] :=
  List.takeWhile_cons_of_neg (by simpa using h)

theorem digits_take (s : Bytes) (n : Nat) : digits (s.take n) = (digits s).take n :=
  List.take_takeWhile.symm

theorem prefix_digits (ht : ∀ c ∈ t, IsDigit c) (h : t <+: s) : t <+: digits s := by
  obtain ⟨u, rfl⟩ := h
  rw [digits, List.takeWhile_append_of_pos (by simpa using ht)]
  exact List.prefix_append ..

/-- Digits, perhaps behind a minus sign. -/
def IsSignedDigits (s : Bytes) : Prop := ∃ ds, (∀ c ∈ ds, IsDigit c) ∧ (s = ds ∨ s = 0x2d :: ds)

def numeral : Bytes → Bytes
  | 0x2d :: s => 0x2d :: digits s
  | s => digits s

/-- The integer that a numeral denotes, `0` when it has no digits. -/
def intValue : Bytes → Int
  | 0x2d :: ds => -(natValue ds : Int)
  | ds => natValue ds

theorem not_isDigit_minus : ¬ IsDigit 0x2d := by decide

theorem intValue_of_digits (hs : ∀ c ∈ s, IsDigit c) : intValue s = natValue s := by
  unfold intValue
  split
  · exact (not_isDigit_minus (hs _ (List.mem_cons_self ..))).elim
  · rfl

/-- A text starts with a minus sign, or its numeral is its digits. -/
theorem minus_cases (s : Bytes) :
    (∃ t, s = 0x2d :: t) ∨ s.head? ≠ some 0x2d ∧ numeral s = digits s := by
  unfold numeral
  split
  · next t => exact .inl ⟨t, rfl⟩
  · next hs =>
    refine .inr ⟨fun h => ?_, rfl⟩
    obtain ⟨t, rfl⟩ := List.head?_eq_some_iff.mp h
    exact hs t rfl

theorem isSignedDigits_numeral (s : Bytes) : IsSignedDigits (numeral s) := by
  rcases minus_cases s with ⟨t, rfl⟩ | ⟨-, hnum⟩
  · exact ⟨digits t, isDigit_digits t, .inr rfl⟩
  · exact ⟨digits s, isDigit_digits s, .inl hnum⟩

theorem numeral_isPrefix (s : Bytes) : numeral s <+: s := by
  rcases minus_cases s with ⟨t, rfl⟩ | ⟨-, hnum⟩
  · exact List.cons_prefix_cons.mpr ⟨rfl, List.takeWhile_prefix _⟩
  · rw [hnum]
    exact List.takeWhile_prefix _

/-- No numeral that the text starts with is longer. -/
theorem prefix_numeral (ht : IsSignedDigits t) (h : t <+: s) : t <+: numeral s := by
  obtain ⟨ds, hds, rfl | rfl⟩ := ht
  · rcases minus_cases s with ⟨u, rfl⟩ | ⟨-, hnum⟩
    · cases t with
      | nil => exact List.nil_prefix
      | cons c ds =>
        obtain ⟨rfl, -⟩ := List.cons_prefix_cons.mp h
        exact (not_isDigit_minus (hds _ (List.mem_cons_self ..))).elim
    · rw [hnum]
      exact prefix_digits hds h
  · obtain ⟨u, rfl⟩ := h
    rw [List.cons_append, numeral]
    exact List.cons_prefix_cons.mpr ⟨rfl, prefix_digits hds (List.prefix_append ..)⟩

/-- Of the numerals that the text `s` starts with, `t` is the longest. -/
structure IsLongestNumeral (t s : Bytes) : Prop where
  numeral : IsSignedDigits t
  isPrefix : t <+: s
  longest : ∀ u, IsSignedDigits u → u <+: s → u.length ≤ t.length

theorem isLongestNumeral_iff : IsLongestNumeral t s ↔ t = numeral s := by
  constructor
  · intro h
    have hle := h.longest _ (isSignedDigits_numeral s) (numeral_isPrefix s)
    exact (prefix_numeral h.numeral h.isPrefix).eq_of_length_le hle
  · rintro rfl
    exact ⟨isSignedDigits_numeral s, numeral_isPrefix s, fun u hu hs => (prefix_numeral hu hs).length_le⟩

/-- A numeral is all of its text. -/
theorem IsSignedDigits.numeral_eq (h : IsSignedDigits s) : numeral s = s :=
  (isLongestNumeral_iff.mp ⟨h, List.prefix_rfl, fun _ _ hs => hs.length_le⟩).symm

theorem numeral_take (s : Bytes) (n : Nat) : numeral (s.take n) = (numeral s).take n := by
  cases n with
  | zero => rw [List.take_zero, List.take_zero]; rfl
  | succ n =>
    rcases minus_cases s with ⟨t, rfl⟩ | ⟨hs, hnum⟩
    · rw [List.take_succ_cons, numeral, numeral, List.take_succ_cons, digits_take]
    · rcases minus_cases (s.take (n + 1)) with ⟨t, ht⟩ | ⟨-, hcut⟩
      · have hhead : (s.take (n + 1)).head? = s.head? := by cases s <;> rfl
        exact (hs (hhead ▸ ht ▸ rfl)).elim
      · rw [hnum, hcut, digits_take]

/-- Every character that is cut off the end of a numeral makes it ten times smaller. -/
theorem natAbs_intValue_take_le {n : Nat} (hs : IsSignedDigits s) (h : n < s.length) :
    10 * (intValue (s.take n)).natAbs ≤ (intValue s).natAbs := by
  obtain ⟨ds, hds, rfl | rfl⟩ := hs
  · rw [intValue_of_digits hds, intValue_of_digits fun c hc => hds c (List.mem_of_mem_take hc)]
    exact natValue_take_le h
  · cases n with
    | zero => exact Nat.zero_le _
    | succ n =>
      have := natValue_take_le (Nat.lt_of_succ_lt_succ h)
      rw [List.take_succ_cons, intValue, intValue, Int.natAbs_neg, Int.natAbs_neg]
      exact this

/-! ## Numbers with a fraction -/

/-- The value of digits behind a point. -/
def fraction (ds : Bytes) : ℚ := natValue ds / 10 ^ ds.length

theorem fraction_nil : fraction [] = 0 := by
  rw [fraction, natValue_nil, Nat.cast_zero, zero_div]

theorem fraction_cons (c : UInt8) (s : Bytes) :
    fraction (c :: s) = (digitValue c + fraction s) / 10 := by
  rw [fraction, fraction, natValue_cons, List.length_cons, pow_succ]
  push_cast
  field_simp

theorem fraction_append_zeros (s : Bytes) (n : Nat) :
    fraction (s ++ .replicate n 0x30) = fraction s := by
  rw [fraction, fraction, natValue_append, natValue_zeros, List.length_append,
    List.length_replicate, pow_add]
  push_cast
  field_simp
  ring

/-- The fraction that a text starts with: a point and the digits behind it. -/
def pointValue : Bytes → ℚ
  | 0x2e :: s => fraction (digits s)
  | _ => 0

/-- The number that a text without a sign starts with. -/
def unsignedNumber (s : Bytes) : ℚ := natValue (digits s) + pointValue (s.dropWhile (IsDigit ·))

/-- The number that a text starts with, `0` when there are no digits. -/
def number : Bytes → ℚ
  | 0x2d :: s => -unsignedNumber s
  | s => unsignedNumber s

/-- The text of a number; the point is left out when nothing is behind it. -/
def pointText (whole ds : Bytes) : Bytes := whole ++ if ds = [] then [] else 0x2e :: ds

theorem unsignedNumber_pointText {whole ds : Bytes} (hwhole : ∀ c ∈ whole, IsDigit c)
    (hds : ∀ c ∈ ds, IsDigit c) :
    unsignedNumber (pointText whole ds) = natValue whole + fraction ds := by
  have hself : digits ds = ds := List.takeWhile_eq_self_iff.mpr (by simpa using hds)
  have hall : ∀ c ∈ whole, decide (IsDigit c) := by simpa using hwhole
  rw [unsignedNumber, digits, pointText, List.takeWhile_append_of_pos hall,
    List.dropWhile_append_of_pos hall]
  by_cases hnil : ds = []
  · subst hnil
    rw [if_pos rfl, List.takeWhile_nil, List.append_nil, fraction_nil]
    rfl
  · rw [if_neg hnil, List.takeWhile_cons_of_neg (by simp), List.append_nil,
      List.dropWhile_cons_of_neg (by simp), pointValue, hself]

/-- A text that starts with a digit has no sign. -/
theorem number_pointText {whole : Bytes} (hwhole : whole ≠ [] ∧ ∀ c ∈ whole, IsDigit c)
    (ds : Bytes) : number (pointText whole ds) = unsignedNumber (pointText whole ds) := by
  obtain ⟨hne, hdigits⟩ := hwhole
  cases whole with
  | nil => exact (hne rfl).elim
  | cons c whole =>
    have hc := hdigits c (List.mem_cons_self ..)
    rw [pointText, List.cons_append]
    unfold number
    split
    · next heq => exact (not_isDigit_minus ((List.cons.inj heq).1 ▸ hc)).elim
    · rfl

/-- The text of a number: digits, perhaps behind a minus sign, perhaps before a point and more
digits. -/
def IsNumberText (s : Bytes) : Prop :=
  ∃ sign whole tail, s = sign ++ whole ++ tail ∧ (sign = [] ∨ sign = [0x2d]) ∧ whole ≠ [] ∧
    (∀ c ∈ whole, IsDigit c) ∧
      (tail = [] ∨ ∃ ds, ds ≠ [] ∧ (∀ c ∈ ds, IsDigit c) ∧ tail = 0x2e :: ds)

end Decimal
