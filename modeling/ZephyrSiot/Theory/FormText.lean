import ZephyrSiot.Theory.CString

/-!
# Form data

The spellings of a text in form data: a byte is written as it is, as `+` when it is a space, or as
`%` and two hexadecimal digits. `strtok` is `strtok_r` of `string.h` with one delimiter, on the
string that is still to be split.
-/

namespace FormText
open CStr

@[match_pattern] abbrev percent : UInt8 := 0x25
@[match_pattern] abbrev ampersand : UInt8 := 0x26
@[match_pattern] abbrev plus : UInt8 := 0x2b
@[match_pattern] abbrev equals : UInt8 := 0x3d

/-! ## Spellings -/

/-- The hexadecimal digits, in either case. -/
abbrev IsHex (c : UInt8) : Prop := IsDigit c ∨ 0x41 ≤ c ∧ c ≤ 0x46 ∨ 0x61 ≤ c ∧ c ≤ 0x66

theorem IsHex.ne_zero {c : UInt8} (h : IsHex c) : c ≠ 0 := by
  rintro rfl
  exact absurd h (by decide)

def hexValue (c : UInt8) : UInt8 :=
  if IsDigit c then c - 0x30 else if c ≤ 0x46 then c - 0x41 + 10 else c - 0x61 + 10

/-- `e` stands for `s`. Only bytes that are `Literal` are written as they are. -/
inductive Spells (Literal : UInt8 → Prop) : (e s : Bytes) → Prop
  | nil : Spells Literal [] []
  | literal {c : UInt8} {e s : Bytes} : Literal c → Spells Literal e s →
    Spells Literal (c :: e) (c :: s)
  | plus {e s : Bytes} : Spells Literal e s → Spells Literal (plus :: e) (space :: s)
  | percent {a b : UInt8} {e s : Bytes} : IsHex a → IsHex b → Spells Literal e s →
    Spells Literal (percent :: a :: b :: e) ((16 * hexValue a + hexValue b) :: s)

variable {Literal : UInt8 → Prop} {e s : Bytes}

theorem Spells.eq_nil_iff (h : Spells Literal e s) : e = [] ↔ s = [] := by
  cases h <;> simp

/-- A spelling is made of bytes that are written as they are, marks and digits. -/
theorem Spells.mem (h : Spells Literal e s) {c : UInt8} (hc : c ∈ e) :
    (Literal c ∧ c ∈ s) ∨ c = FormText.plus ∨ c = FormText.percent ∨ IsHex c := by
  induction h with
  | nil => exact (List.not_mem_nil hc).elim
  | literal hd _ ih =>
    rcases List.mem_cons.mp hc with rfl | hc
    · exact .inl ⟨hd, List.mem_cons_self ..⟩
    · exact (ih hc).imp_left fun h => ⟨h.1, List.mem_cons_of_mem _ h.2⟩
  | plus _ ih =>
    rcases List.mem_cons.mp hc with rfl | hc
    · exact .inr (.inl rfl)
    · exact (ih hc).imp_left fun h => ⟨h.1, List.mem_cons_of_mem _ h.2⟩
  | percent ha hb _ ih =>
    rw [List.mem_cons, List.mem_cons, List.mem_cons] at hc
    rcases hc with rfl | rfl | rfl | hc
    · exact .inr (.inr (.inl rfl))
    · exact .inr (.inr (.inr ha))
    · exact .inr (.inr (.inr hb))
    · exact (ih hc).imp_left fun h => ⟨h.1, List.mem_cons_of_mem _ h.2⟩

/-! ## Tokens -/

/-- The next token of `s` and what is left behind its delimiter. Delimiters in front of the token
are skipped. -/
def strtok (delim : UInt8) (s : Bytes) : Option (Bytes × Bytes) :=
  let s := s.dropWhile (· = delim)
  if s = [] then none else some (s.takeWhile (· ≠ delim), (s.dropWhile (· ≠ delim)).tail)

@[simp] theorem strtok_nil (delim : UInt8) : strtok delim [] = none := rfl

variable {delim : UInt8} {t : Bytes}

theorem strtok_cons {c : UInt8} (hc : c ≠ delim) (s : Bytes) :
    strtok delim (c :: s) =
      some ((c :: s).takeWhile (· ≠ delim), ((c :: s).dropWhile (· ≠ delim)).tail) := by
  have hskip : (c :: s).dropWhile (· = delim) = c :: s :=
    List.dropWhile_cons_of_neg (by simpa using hc)
  rw [strtok, hskip]
  exact if_neg (List.cons_ne_nil c s)

theorem strtok_append (ht : t ≠ []) (hdelim : delim ∉ t) (rest : Bytes) :
    strtok delim (t ++ delim :: rest) = some (t, rest) := by
  have hall : ∀ c ∈ t, decide (c ≠ delim) = true := by
    intro c hc
    simpa using fun e : c = delim => hdelim (e ▸ hc)
  obtain ⟨c, u, rfl⟩ := List.exists_cons_of_ne_nil ht
  rw [List.cons_append, strtok_cons (by simpa using hall c (List.mem_cons_self ..)),
    ← List.cons_append, List.takeWhile_append_of_pos hall, List.dropWhile_append_of_pos hall]
  simp

/-- The last token is followed by no delimiter. -/
theorem strtok_self (ht : t ≠ []) (hdelim : delim ∉ t) : strtok delim t = some (t, []) := by
  have hall : ∀ c ∈ t, decide (c ≠ delim) = true := by
    intro c hc
    simpa using fun e : c = delim => hdelim (e ▸ hc)
  obtain ⟨c, u, rfl⟩ := List.exists_cons_of_ne_nil ht
  rw [strtok_cons (by simpa using hall c (List.mem_cons_self ..)),
    List.takeWhile_eq_self_iff.mpr hall, List.dropWhile_eq_nil_iff.mpr hall, List.tail_nil]

end FormText
