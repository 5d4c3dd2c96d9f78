import Mathlib.Algebra.Ring.Int.Defs
import Mathlib.Data.List.Basic
import Mathlib.Data.List.TakeWhile
import Mathlib.Data.UInt

/-!
# Bytes, C strings and fixed-size character arrays

Memory is a list of bytes. `cstr m` is the C string that starts at `m`: the bytes before the
first NUL. `poke m i bs` stores the run `bs` at offset `i`, `CharArray n` is the C type
`char[n]`, and `strcmp`, `strncmp` and `strncpy` are the functions of `string.h` on such memory.
-/

namespace CStr

abbrev Bytes := List UInt8

/-- The bytes of an ASCII literal. -/
def lit (s : String) : Bytes := s.toList.map fun c => c.toNat.toUInt8

/-! A statement about the characters of a string is decided by going through the string, also
where the 256 characters could be gone through. -/

instance decidableForallMem (s : Bytes) (p : UInt8 → Prop) [DecidablePred p] :
    Decidable (∀ c ∈ s, p c) := List.decidableBAll p s

instance decidableExistsMem (s : Bytes) (p : UInt8 → Prop) [DecidablePred p] :
    Decidable (∃ c ∈ s, p c) := List.decidableBEx p s

/-! ## Characters -/

@[match_pattern] abbrev nul : UInt8 := 0x00
@[match_pattern] abbrev tab : UInt8 := 0x09
@[match_pattern] abbrev lf : UInt8 := 0x0a
@[match_pattern] abbrev cr : UInt8 := 0x0d
@[match_pattern] abbrev space : UInt8 := 0x20
@[match_pattern] abbrev quote : UInt8 := 0x22
@[match_pattern] abbrev apostrophe : UInt8 := 0x27
@[match_pattern] abbrev slash : UInt8 := 0x2f
@[match_pattern] abbrev backslash : UInt8 := 0x5c

/-- The control characters of JSON and of the shell: the bytes below the space. -/
abbrev IsControl (c : UInt8) : Prop := c < 0x20

/-- The decimal digits. -/
abbrev IsDigit (c : UInt8) : Prop := 0x30 ≤ c ∧ c ≤ 0x39

theorem IsDigit.ne_zero {c : UInt8} (h : IsDigit c) : c ≠ 0 := by
  rintro rfl
  exact absurd h (by decide)

theorem IsControl.ne {c d : UInt8} (h : IsControl c) (hd : ¬ IsControl d) : c ≠ d :=
  fun e => hd (e ▸ h)

/-! ## The C string at the start of a piece of memory -/

def cstr (m : Bytes) : Bytes := m.takeWhile (· ≠ 0)

@[simp] theorem cstr_nil : cstr [] = [] := rfl

@[simp] theorem cstr_zero_cons (m : Bytes) : cstr (0 :: m) = [] := rfl

theorem cstr_cons {c : UInt8} (hc : c ≠ 0) (m : Bytes) : cstr (c :: m) = c :: cstr m := by
  simp [cstr, hc]

theorem zero_notMem_cstr (m : Bytes) : 0 ∉ cstr m := by
  intro h
  simpa using List.mem_takeWhile_imp h

theorem cstr_eq_self {m : Bytes} (h : 0 ∉ m) : cstr m = m := by
  rw [cstr, List.takeWhile_eq_self_iff]
  intro c hc
  simpa using fun e : c = 0 => h (e ▸ hc)

@[simp] theorem cstr_cstr (m : Bytes) : cstr (cstr m) = cstr m :=
  cstr_eq_self (zero_notMem_cstr m)

/-- A string followed by a terminator reads back as the string, whatever comes after. -/
theorem cstr_append_zero {s : Bytes} (h : 0 ∉ s) (m : Bytes) : cstr (s ++ 0 :: m) = s := by
  induction s with
  | nil => rfl
  | cons c s ih =>
    simp only [List.mem_cons, not_or] at h
    rw [List.cons_append, cstr_cons (Ne.symm h.1), ih h.2]

/-- A terminator at the end changes nothing. -/
theorem cstr_append_nul (m : Bytes) : cstr (m ++ [nul]) = cstr m := by
  induction m with
  | nil => rfl
  | cons c m ih =>
    by_cases hc : c = 0
    · subst hc; rfl
    · rw [List.cons_append, cstr_cons hc, cstr_cons hc, ih]

theorem cstr_length_le (m : Bytes) : (cstr m).length ≤ m.length := (List.takeWhile_prefix _).length_le

/-- Memory that holds a NUL is its string, the terminator and a rest. -/
theorem exists_cstr_append {m : Bytes} (h : 0 ∈ m) : ∃ t, m = cstr m ++ 0 :: t := by
  induction m with
  | nil => simp at h
  | cons c m ih =>
    by_cases hc : c = 0
    · subst hc; exact ⟨m, rfl⟩
    · obtain ⟨t, ht⟩ := ih ((List.mem_cons.mp h).resolve_left (Ne.symm hc))
      refine ⟨t, ?_⟩
      rw [cstr_cons hc, List.cons_append, ← ht]

theorem cstr_length_lt {m : Bytes} (h : 0 ∈ m) : (cstr m).length < m.length := by
  obtain ⟨t, ht⟩ := exists_cstr_append h
  have := congrArg List.length ht
  simp only [List.length_append, List.length_cons] at this
  omega

/-- The string is empty exactly when its first byte is the terminator. -/
theorem cstr_eq_nil_iff {m : Bytes} : cstr m = [] ↔ m.headD 0 = 0 := by
  cases m with
  | nil => simp
  | cons c m =>
    by_cases hc : c = 0
    · simp [hc]
    · simp [cstr_cons hc, hc]

/-! ## Comparison -/

/-- `strcmp(a, b)`: the difference of the first bytes that differ, `0` when the strings agree. -/
def strcmp : Bytes → Bytes → Int
  | [], b => 0 - (b.headD 0).toNat
  | x :: a, b =>
    if x ≠ b.headD 0 then (x.toNat : Int) - (b.headD 0).toNat
    else if x = 0 then 0 else strcmp a b.tail

/-- `strncmp(a, b, n)`: `strcmp` on the first `n` bytes. -/
def strncmp (a b : Bytes) : Nat → Int
  | 0 => 0
  | n + 1 =>
    if a.headD 0 ≠ b.headD 0 then ((a.headD 0).toNat : Int) - (b.headD 0).toNat
    else if a.headD 0 = 0 then 0 else strncmp a.tail b.tail n

private theorem toNat_sub_eq_zero {x y : UInt8} : (x.toNat : Int) - y.toNat = 0 ↔ x = y := by
  rw [← UInt8.toNat_inj]; omega

/-- Two strings agree when their first bytes do and, unless these end them, their rests. -/
theorem cstr_eq_iff {a b : Bytes} :
    cstr a = cstr b ↔ a.headD 0 = b.headD 0 ∧ (a.headD 0 = 0 ∨ cstr a.tail = cstr b.tail) := by
  have aux (m : Bytes) : cstr m = if m.headD 0 = 0 then [] else m.headD 0 :: cstr m.tail := by
    cases m with
    | nil => rfl
    | cons c m => by_cases hc : c = 0 <;> simp [hc, cstr_cons]
  rw [aux a, aux b]
  generalize a.headD 0 = x
  generalize b.headD 0 = y
  grind

theorem strcmp_eq_zero {a b : Bytes} : strcmp a b = 0 ↔ cstr a = cstr b := by
  induction a generalizing b with
  | nil =>
    have h := toNat_sub_eq_zero (x := 0) (y := b.headD 0)
    rw [strcmp, cstr_nil, eq_comm (a := []), cstr_eq_nil_iff, eq_comm (b := (0 : UInt8)), ← h]
    rfl
  | cons x a ih =>
    rw [strcmp, cstr_eq_iff (a := x :: a), List.tail_cons, ← ih, List.headD_cons]
    split
    · next h => exact iff_of_false (fun e => h (toNat_sub_eq_zero.mp e)) (fun e => h e.1)
    · next h => grind

theorem strncmp_eq_zero {n : Nat} {a b : Bytes} :
    strncmp a b n = 0 ↔ cstr (a.take n) = cstr (b.take n) := by
  induction n generalizing a b with
  | zero => simp [strncmp]
  | succ n ih =>
    have head (m : Bytes) : (m.take (n + 1)).headD 0 = m.headD 0 := by cases m <;> rfl
    have tail (m : Bytes) : (m.take (n + 1)).tail = m.tail.take n := by cases m <;> simp
    rw [strncmp, cstr_eq_iff, head, head, tail, tail, ← ih]
    split
    · next h => exact iff_of_false (fun e => h (toNat_sub_eq_zero.mp e)) (fun e => h e.1)
    · next h => grind

/-! ## Stores -/

/-- Store the run `bs` at offset `i` of `m`. Bytes past the end of `m` are not `m`'s. -/
def poke : Bytes → Nat → Bytes → Bytes
  | [], _, _ => []
  | b :: m, i + 1, bs => b :: poke m i bs
  | b :: m, 0, [] => b :: m
  | _ :: m, 0, c :: bs => c :: poke m 0 bs

@[simp] theorem length_poke (m : Bytes) (i : Nat) (bs : Bytes) :
    (poke m i bs).length = m.length := by
  fun_induction poke m i bs <;> simp_all

/-- What stands before the offset stays. -/
theorem take_poke (m : Bytes) (i : Nat) (bs : Bytes) : (poke m i bs).take i = m.take i := by
  fun_induction poke m i bs <;> simp_all

/-- A run that fits replaces what stood in its place. -/
theorem poke_eq {m : Bytes} {i : Nat} {bs : Bytes} (h : i + bs.length ≤ m.length) :
    poke m i bs = m.take i ++ bs ++ m.drop (i + bs.length) := by
  fun_induction poke m i bs with
  | case1 i bs => simp at h; simp [h]
  | case2 b m i bs ih =>
    have ih := ih (by simp at h; omega)
    rw [ih, show i + 1 + bs.length = (i + bs.length) + 1 by omega]
    simp
  | case3 b m => simp
  | case4 b m c bs ih =>
    have ih := ih (by simpa using h)
    rw [ih]
    simp

/-- A run that fits stands behind what stood before it. -/
theorem take_poke_add {m : Bytes} {i : Nat} {bs : Bytes} (h : i + bs.length ≤ m.length) :
    (poke m i bs).take (i + bs.length) = m.take i ++ bs := by
  rw [poke_eq h]
  exact List.take_left' (by rw [List.length_append, List.length_take, Nat.min_eq_left (by omega)])

theorem poke_zero {m bs : Bytes} (h : bs.length ≤ m.length) :
    poke m 0 bs = bs ++ m.drop bs.length := by
  rw [poke_eq (by omega)]; simp

/-- Nothing is stored. -/
theorem poke_nil (m : Bytes) (i : Nat) : poke m i [] = m := by
  induction m generalizing i with
  | nil => rfl
  | cons b m ih =>
    cases i with
    | zero => rfl
    | succ i => exact congrArg (b :: ·) (ih i)

/-- Two runs, one behind the other, are one run. -/
theorem poke_poke (m : Bytes) (i : Nat) (bs cs : Bytes) :
    poke (poke m i bs) (i + bs.length) cs = poke m i (bs ++ cs) := by
  fun_induction poke m i bs with
  | case1 => rfl
  | case2 b m i bs ih =>
    rw [Nat.succ_add]
    exact congrArg (b :: ·) ih
  | case3 b m => rfl
  | case4 b m c bs ih => exact congrArg (c :: ·) ih

/-- Store one byte, which has to be a byte of `m`. -/
def store (m : Bytes) (i : Nat) (c : UInt8) : Option Bytes :=
  if i < m.length then some (poke m i [c]) else none

theorem store_eq_some {m : Bytes} {i : Nat} (h : i < m.length) (c : UInt8) :
    store m i c = some (poke m i [c]) := if_pos h

/-- A terminated run that fits is the string read back. -/
theorem cstr_poke_zero {m s t : Bytes} (hs : 0 ∉ s) (h : s.length + t.length < m.length) :
    cstr (poke m 0 (s ++ 0 :: t)) = s := by
  rw [poke_zero (by simp; omega), List.append_assoc, List.cons_append, cstr_append_zero hs]

/-! ## Fixed-size arrays -/

/-- The C type `char[n]`. -/
structure CharArray (n : Nat) where
  bytes : Bytes
  length_eq : bytes.length = n
  deriving DecidableEq

namespace CharArray

variable {n : Nat}

@[ext] theorem ext {a b : CharArray n} (h : a.bytes = b.bytes) : a = b := by
  cases a; cases b; cases h; rfl

/-- An array of zero bytes, as `= {}` leaves it. -/
def zero (n : Nat) : CharArray n := ⟨List.replicate n 0, List.length_replicate⟩

/-- The string the array holds; the whole array when it has no terminator. -/
def str (a : CharArray n) : Bytes := cstr a.bytes

/-- `a[0]`, which is `0` exactly for the empty string. -/
def first (a : CharArray n) : UInt8 := a.bytes.headD 0

/-- A NUL stands within the array, so that reading it as a C string stays inside. -/
def Terminated (a : CharArray n) : Prop := 0 ∈ a.bytes

instance : DecidablePred (Terminated (n := n)) := fun a => inferInstanceAs (Decidable (0 ∈ a.bytes))

def poke (a : CharArray n) (i : Nat) (bs : Bytes) : CharArray n :=
  ⟨CStr.poke a.bytes i bs, by rw [length_poke, a.length_eq]⟩

@[simp] theorem str_zero : (zero n).str = [] := by cases n <;> rfl

theorem zero_notMem_str (a : CharArray n) : 0 ∉ a.str := zero_notMem_cstr _

theorem length_str_le (a : CharArray n) : a.str.length ≤ n :=
  (cstr_length_le _).trans_eq a.length_eq

theorem Terminated.length_str_lt {a : CharArray n} (h : a.Terminated) : a.str.length < n :=
  (cstr_length_lt h).trans_eq a.length_eq

theorem first_eq_zero {a : CharArray n} : a.first = 0 ↔ a.str = [] := cstr_eq_nil_iff.symm

theorem poke_zero_bytes {a : CharArray n} {bs : Bytes} (h : bs.length ≤ n) :
    (a.poke 0 bs).bytes = bs ++ a.bytes.drop bs.length :=
  CStr.poke_zero (by rw [a.length_eq]; exact h)

theorem str_poke {a : CharArray n} {s : Bytes} (hs : 0 ∉ s) (h : s.length < n) :
    (a.poke 0 (s ++ [0])).str = s :=
  cstr_poke_zero hs (by rw [a.length_eq]; simpa using h)

theorem terminated_poke {a : CharArray n} {s : Bytes} (h : s.length < n) :
    (a.poke 0 (s ++ [0])).Terminated := by
  rw [Terminated, poke_zero_bytes (by simp; omega)]
  simp

/-- Two arrays of one size agree under a full-length `strncmp` exactly when they hold the same
string, whether they are terminated or not. -/
theorem strncmp_eq_zero {a b : CharArray n} : strncmp a.bytes b.bytes n = 0 ↔ a.str = b.str := by
  rw [CStr.strncmp_eq_zero, List.take_of_length_le a.length_eq.le,
    List.take_of_length_le b.length_eq.le, str, str]

end CharArray

/-! ## Copying -/

/-- The `n` bytes `strncpy(dest, src, n)` stores: the string cut to `n`, padded with NULs. -/
def strncpy (src : Bytes) (n : Nat) : Bytes :=
  (cstr src).take n ++ List.replicate (n - (cstr src).length) 0

@[simp] theorem length_strncpy (src : Bytes) (n : Nat) : (strncpy src n).length = n := by
  simp only [strncpy, List.length_append, List.length_take, List.length_replicate]
  omega

/-- Followed by a terminator, what `strncpy` stored reads back as the string cut to `n`. -/
theorem cstr_strncpy_append_zero (src : Bytes) (n : Nat) (m : Bytes) :
    cstr (strncpy src n ++ 0 :: m) = (cstr src).take n := by
  have h0 : 0 ∉ (cstr src).take n := fun h => zero_notMem_cstr src (List.mem_of_mem_take h)
  rw [strncpy, List.append_assoc]
  cases hk : n - (cstr src).length with
  | zero => exact cstr_append_zero h0 m
  | succ k => exact cstr_append_zero h0 _

end CStr
