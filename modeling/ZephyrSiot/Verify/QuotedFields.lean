import ZephyrSiot.PointShell
import ZephyrSiot.Theory.ShellWords
import ZephyrSiot.Verify.JsonRoundTrip
import Mathlib.Data.List.Induction

/-!
# Fields of a report, read by the shell

What `quote_field` writes (`quoteField_eq`), and what the shell makes of it: the value of a quoted
field (`value`), and whether the quote at its end closes the section (`closes`), which it does not
when the field ends with a backslash.
-/

namespace ZephyrSiot
open CStr ShellWords

/-! ## What is written -/

namespace quoteField

/-- A character in a quoted field. -/
def escapeOne (c : UInt8) : Bytes := if esc c ≠ 0 then [backslash, esc c] else [c]

def escape (s : Bytes) : Bytes := s.flatMap escapeOne

def rendering (s : Bytes) : Bytes := if NeedsQuote s then quote :: escape s ++ [quote] else s

@[simp] theorem escape_nil : escape [] = [] := rfl

@[simp] theorem escape_cons (c : UInt8) (s : Bytes) : escape (c :: s) = escapeOne c ++ escape s :=
  rfl

theorem length_escape_le (s : Bytes) : (escape s).length ≤ 2 * s.length := by
  induction s with
  | nil => exact Nat.le_refl _
  | cons c s ih =>
    have : (escapeOne c).length ≤ 2 := by
      unfold escapeOne
      split <;> simp
    rw [escape_cons, List.length_append, List.length_cons]
    omega

theorem bare_eq {dstLen di : Nat} {s : Bytes} (h : di + s.length < dstLen) :
    bare dstLen s di = (true, s) := by
  induction s generalizing di with
  | nil => rfl
  | cons c s ih =>
    rw [List.length_cons] at h
    rw [bare, if_neg (by omega), ih (by omega)]

theorem quoted_eq {dstLen di : Nat} {s : Bytes} (h : di + (escape s).length < dstLen) :
    quoted dstLen s di = (true, escape s) := by
  induction s generalizing di with
  | nil => rfl
  | cons c s ih =>
    rw [escape_cons, List.length_append] at h
    rw [quoted, escape_cons]
    unfold escapeOne at h ⊢
    split
    · next hc =>
      rw [if_pos hc] at h
      simp only [List.length_cons, List.length_nil] at h
      rw [if_neg (by omega), ih (by omega)]
      rfl
    · next hc =>
      rw [if_neg hc] at h
      simp only [List.length_cons, List.length_nil] at h
      rw [if_neg (by omega), ih (by omega)]
      rfl

theorem zero_notMem_rendering {s : Bytes} (h : 0 ∉ s) : 0 ∉ rendering s := by
  have hesc : ∀ c, esc c = 0 ∨ esc c ≠ 0 := fun c => eq_or_ne ..
  have hone (c : UInt8) (hc : 0 ≠ c) : 0 ∉ escapeOne c := by
    unfold escapeOne
    split
    · next he => simpa using ⟨by decide, Ne.symm he⟩
    · simpa using hc
  unfold rendering
  split
  · simp only [escape, List.cons_append, List.mem_cons, List.mem_append, List.mem_flatMap,
      List.not_mem_nil, or_false, not_or, not_exists, not_and]
    refine ⟨by decide, fun c hc => hone c fun h0 => h (h0 ▸ hc), by decide⟩
  · exact h

end quoteField

open quoteField

/-- A buffer for every character escaped and two quotes holds the field. -/
theorem quoteField_eq {src : Bytes} {dstLen : Nat} (h : 2 * (cstr src).length + 4 ≤ dstLen) :
    quoteField src dstLen =
      (((rendering (cstr src)).length : Int), rendering (cstr src) ++ [nul]) := by
  have hlen := length_escape_le (cstr src)
  unfold quoteField rendering
  dsimp only
  rcases Classical.em (NeedsQuote (cstr src)) with hq | hq
  · rw [if_neg (not_not_intro hq), if_pos hq, if_neg (by omega), quoted_eq (by omega)]
    dsimp only
    rw [if_neg (by simp), if_neg (by omega)]
    simp
    omega
  · rw [if_pos hq, if_neg hq, bare_eq (by omega)]
    rfl

/-! ## What is read -/

/-- Where the shell stands in a quoted field: after the first backslash of a pair it waits for what
the second one is followed by. -/
inductive Reading where
  | inside
  | pending
  | number (r : Radix) (n : Nat) (v : UInt8)
  deriving DecidableEq

def Reading.mode : Reading → Mode
  | inside => .inside quote
  | pending => .insideEscaped quote
  | number r n v => .numeric quote r n v

/-- What a character other than a backslash is read as: of the escapes only that of the quote is
undone. -/
def kept (c : UInt8) : Bytes := if c = quote then [quote] else escapeOne c

/-- The characters that the shell reads of a quoted field. -/
def value (m : Reading) : Bytes → Bytes
  | [] =>
    match m with
    | .inside => []
    | .pending => [quote]
    | .number r n v => r.flush n v
  | c :: w =>
    let inside := if c = backslash then backslash :: value .pending w else kept c ++ value .inside w
    match m with
    | .inside => inside
    | .pending =>
      if c = Radix.octal.letter then value (.number .octal 0 0) w
      else if c = Radix.hex.letter then value (.number .hex 0 0) w
      else backslash :: inside
    | .number r n v =>
      match r.digit c with
      | some d =>
        if n + 1 = r.maxDigits then (v * r.base + d) :: value .inside w
        else value (.number r (n + 1) (v * r.base + d)) w
      | none => r.flush n v ++ inside

/-- Whether the quote at the end of the field closes the section. -/
def closes (m : Reading) (w : Bytes) : Bool :=
  match w.getLast? with
  | some c => c ≠ backslash
  | none => m ≠ .pending

section
variable {m m' : Reading} {c : UInt8} {w : Bytes}

theorem value_inside_cons (h : c ≠ backslash) : value .inside (c :: w) = kept c ++ value .inside w :=
  if_neg h

theorem value_pending_letter (r : Radix) :
    value .pending (r.letter :: w) = value (.number r 0 0) w := by
  cases r <;> rfl

theorem value_pending_cons (h8 : c ≠ Radix.octal.letter) (h16 : c ≠ Radix.hex.letter) :
    value .pending (c :: w) = backslash :: value .inside (c :: w) := by
  change (if c = Radix.octal.letter then _ else if c = Radix.hex.letter then _ else _) = _
  rw [if_neg h8, if_neg h16]
  rfl

theorem value_number_cons {r : Radix} {n : Nat} {v : UInt8} (h : r.digit c = none) :
    value (.number r n v) (c :: w) = r.flush n v ++ value .inside (c :: w) := by
  change (match r.digit c with | some _ => _ | none => _) = _
  rw [h]
  rfl

theorem value_number_digit {r : Radix} {n : Nat} {v d : UInt8} (h : r.digit c = some d) :
    value (.number r n v) (c :: w) = if n + 1 = r.maxDigits
      then (v * r.base + d) :: value .inside w
      else value (.number r (n + 1) (v * r.base + d)) w := by
  change (match r.digit c with | some d => _ | none => _) = _
  rw [h]

/-- Where characters follow, only the last of them counts. -/
theorem closes_irrel (m m' : Reading) (c : UInt8) (w : Bytes) :
    closes m (c :: w) = closes m' (c :: w) := by
  simp only [closes, List.getLast?_cons]

theorem closes_backslash : closes m (backslash :: w) = closes .pending w := by
  cases w using List.reverseRecOn with
  | nil => rfl
  | append_singleton w d => simp [closes, List.getLast?_cons]

theorem closes_cons (hc : c ≠ backslash) (hm : m' ≠ .pending) :
    closes m (c :: w) = closes m' w := by
  cases w using List.reverseRecOn with
  | nil => simp [closes, hc, hm]
  | append_singleton w d => simp [closes, List.getLast?_cons]

end

/-- The characters that have an escape, and what stands for each behind a backslash. -/
def escapes : List (UInt8 × UInt8) :=
  [(backslash, backslash), (quote, quote), (cr, 0x72), (lf, 0x6e), (tab, 0x74)]

theorem forall_mem_escapes {p : UInt8 × UInt8 → Prop} : (∀ x ∈ escapes, p x) ↔
    p (backslash, backslash) ∧ p (quote, quote) ∧ p (cr, 0x72) ∧ p (lf, 0x6e) ∧ p (tab, 0x74) := by
  simp only [escapes, List.forall_mem_cons, List.not_mem_nil, false_imp_iff, implies_true, and_true]

/-- A character is written as its escape, or as it is. -/
theorem escapeOne_spec (c : UInt8) :
    (∃ e, (c, e) ∈ escapes ∧ escapeOne c = [backslash, e]) ∨
      c ∉ escapes.map Prod.fst ∧ escapeOne c = [c] := by
  rcases Classical.em (c ∈ escapes.map Prod.fst) with hmem | hmem
  · obtain ⟨x, hx, rfl⟩ := List.mem_map.mp hmem
    have hall : ∀ x ∈ escapes, escapeOne x.1 = [backslash, x.2] :=
      forall_mem_escapes.mpr (by decide)
    exact .inl ⟨x.2, hx, hall x hx⟩
  · refine .inr ⟨hmem, ?_⟩
    simp only [escapes, List.map_cons, List.map_nil, List.mem_cons, List.not_mem_nil, or_false,
      not_or] at hmem
    obtain ⟨hbs, hq, hcr, hlf, htab⟩ := hmem
    rw [escapeOne, esc, if_neg hq, if_neg hbs, if_neg hcr, if_neg hlf, if_neg htab]
    rfl

/-- How a character is written: a backslash, a quote, a control character and any other. -/
theorem escapeOne_cases (c : UInt8) :
    c = backslash ∧ escapeOne c = [backslash, backslash] ∨
      c = quote ∧ escapeOne c = [backslash, quote] ∨
        IsControl c ∧ (∃ e ∈ [(0x72 : UInt8), 0x6e, 0x74], escapeOne c = [backslash, e]) ∨
          (c ≠ backslash ∧ c ≠ quote) ∧ escapeOne c = [c] := by
  rcases escapeOne_spec c with ⟨e, hmem, he⟩ | ⟨hmem, he⟩
  · have hall : ∀ x ∈ escapes, x = (backslash, backslash) ∨ x = (quote, quote) ∨
        IsControl x.1 ∧ x.2 ∈ [(0x72 : UInt8), 0x6e, 0x74] := forall_mem_escapes.mpr (by decide)
    rcases hall _ hmem with h | h | ⟨hctl, hletter⟩
    · obtain ⟨rfl, rfl⟩ := Prod.mk.inj h
      exact .inl ⟨rfl, he⟩
    · obtain ⟨rfl, rfl⟩ := Prod.mk.inj h
      exact .inr (.inl ⟨rfl, he⟩)
    · exact .inr (.inr (.inl ⟨hctl, e, hletter, he⟩))
  · refine .inr (.inr (.inr ⟨⟨?_, ?_⟩, he⟩))
    · rintro rfl
      exact hmem (by decide)
    · rintro rfl
      exact hmem (by decide)

theorem escapeOne_head (c : UInt8) :
    ∃ d t, escapeOne c = d :: t ∧ (d = backslash ∨ d = c ∧ c ≠ quote) := by
  rcases escapeOne_cases c with ⟨-, h⟩ | ⟨-, h⟩ | ⟨-, e, -, h⟩ | ⟨⟨-, hq⟩, h⟩
  · exact ⟨_, _, h, .inl rfl⟩
  · exact ⟨_, _, h, .inl rfl⟩
  · exact ⟨_, _, h, .inl rfl⟩
  · exact ⟨_, _, h, .inr ⟨rfl, hq⟩⟩

/-- The digits of a number are written as they are. -/
theorem escapeOne_digit {r : Radix} {c d : UInt8} (h : r.digit c = some d) :
    escapeOne c = [c] := by
  have hc : ¬ IsControl c := by
    cases r <;> simp only [Radix.digit] at h <;> grind
  rcases escapeOne_cases c with ⟨rfl, -⟩ | ⟨rfl, -⟩ | ⟨hctl, -⟩ | ⟨-, h⟩
  · cases r <;> cases h
  · cases r <;> cases h
  · exact (hc hctl).elim
  · exact h

section
variable {s : State} {c : UInt8} {w : Bytes}

theorem letter_ne (r : Radix) : r.letter ≠ backslash := by cases r <;> decide

theorem digit_ne {r : Radix} {d : UInt8} (h : r.digit c = some d) : c ≠ backslash := by
  rintro rfl
  cases r <;> cases h

/-- After a backslash, or a number that ends, the text is read as if it had been put there. -/
theorem step_pending (hs : s.mode = .insideEscaped quote) (hq : c ≠ quote)
    (h8 : c ≠ Radix.octal.letter) (h16 : c ≠ Radix.hex.letter) :
    s.step c = State.step { s.put [backslash] with mode := .inside quote } c := by
  rw [State.step, hs]
  dsimp only
  rw [if_neg hq, if_neg h8, if_neg h16]
  rfl

theorem step_number {r : Radix} {n : Nat} {v : UInt8} (hs : s.mode = .numeric quote r n v)
    (hc : r.digit c = none) :
    s.step c = State.step { s.put (r.flush n v) with mode := .inside quote } c := by
  rw [State.step, hs]
  dsimp only
  rw [hc]
  rfl

theorem scan_escapeOne_inside (hs : s.mode = .inside quote) (hc : c ≠ backslash) :
    scan s (escapeOne c) = s.put (kept c) := by
  obtain ⟨mode, word, args⟩ := s
  obtain rfl : mode = .inside quote := hs
  unfold kept
  rcases escapeOne_cases c with ⟨h, -⟩ | ⟨rfl, he⟩ | ⟨hctl, e, hmem, he⟩ | ⟨⟨-, hq⟩, he⟩
  · exact (hc h).elim
  · rfl
  · rw [if_neg (hctl.ne (by decide)), he]
    simp only [List.mem_cons, List.not_mem_nil, or_false] at hmem
    obtain ⟨hq, h8, h16, hbs⟩ : e ≠ quote ∧ e ≠ Radix.octal.letter ∧ e ≠ Radix.hex.letter ∧
        e ≠ backslash := by
      rcases hmem with rfl | rfl | rfl <;> decide
    change State.step ⟨.insideEscaped quote, word, args⟩ e = _
    rw [step_pending rfl hq h8 h16, step_inside rfl, readInside_ordinary hq hbs]
    exact congrArg (fun t : State => { t with mode := .inside quote }) (put_put ..)
  · rw [if_neg hq, he]
    change State.step ⟨.inside quote, word, args⟩ c = _
    rw [step_inside rfl, readInside_ordinary hq hc]
    rfl

/-- The state behind a quoted field and the quote that ends it. -/
def sectionEnd (s : State) (m : Reading) (w : Bytes) : State :=
  ⟨if closes m w then .plain else .inside quote, some (s.word.getD [] ++ value m w), s.args⟩

/-- A quoted field is read from within to its end. -/
def ScansSection (w : Bytes) : Prop :=
  ∀ {s : State} {m : Reading}, s.mode = m.mode → scan s (escape w ++ [quote]) = sectionEnd s m w

theorem scansSection_nil : ScansSection [] := by
  intro s m hs
  change s.step quote = _
  rw [State.step, hs]
  cases m with
  | inside => rfl
  | pending => rfl
  | number r n v =>
    have : r.digit quote = none := by cases r <;> rfl
    simp only [Reading.mode, this]
    exact congrArg (fun word => State.mk .plain (some word) s.args) (List.append_nil _)

theorem ScansSection.cons_inside (h : ScansSection w) (c : UInt8) (hs : s.mode = .inside quote) :
    scan s (escapeOne c ++ (escape w ++ [quote])) = sectionEnd s .inside (c :: w) := by
  rcases eq_or_ne c backslash with rfl | hc
  · have hpair : scan s (escapeOne backslash) =
        ⟨Reading.pending.mode, some (s.word.getD [] ++ [backslash]), s.args⟩ := by
      rw [show s = { s with mode := .inside quote } from
        congrArg (fun k => State.mk k s.word s.args) hs]
      rfl
    rw [scan_append, hpair, h (m := .pending) rfl, sectionEnd, sectionEnd, closes_backslash]
    exact congrArg (fun word => State.mk _ (some word) _) (List.append_assoc ..)
  · rw [scan_append, scan_escapeOne_inside hs hc, h (s := s.put (kept c)) (m := .inside) hs,
      sectionEnd, sectionEnd, value_inside_cons hc,
      closes_cons hc (show Reading.inside ≠ .pending by decide)]
    exact congrArg (fun word => State.mk _ (some word) _) (List.append_assoc ..)

/-- A letter behind the backslash starts a number. -/
theorem ScansSection.cons_letter (h : ScansSection w) (r : Radix)
    (hs : s.mode = .insideEscaped quote) :
    scan s (escapeOne r.letter ++ (escape w ++ [quote])) =
      sectionEnd s .pending (r.letter :: w) := by
  have hstep : scan s (escapeOne r.letter) = { s with mode := Reading.mode (.number r 0 0) } := by
    rw [show s = { s with mode := .insideEscaped quote } from
      congrArg (fun k => State.mk k s.word s.args) hs]
    cases r <;> rfl
  rw [scan_append, hstep, h (m := .number r 0 0) rfl, sectionEnd, sectionEnd, value_pending_letter,
    closes_cons (by cases r <;> decide) (show Reading.number r 0 0 ≠ .pending by simp)]

theorem ScansSection.cons_pending (h : ScansSection w) (c : UInt8)
    (hs : s.mode = .insideEscaped quote) :
    scan s (escapeOne c ++ (escape w ++ [quote])) = sectionEnd s .pending (c :: w) := by
  rcases eq_or_ne c Radix.octal.letter with rfl | h8
  · exact h.cons_letter _ hs
  rcases eq_or_ne c Radix.hex.letter with rfl | h16
  · exact h.cons_letter _ hs
  -- Any other character is read from within, behind the backslash that it keeps.
  obtain ⟨d, t, he, hd⟩ := escapeOne_head c
  obtain ⟨hq, hd8, hd16⟩ : d ≠ quote ∧ d ≠ Radix.octal.letter ∧ d ≠ Radix.hex.letter := by
    rcases hd with rfl | ⟨rfl, hq⟩
    · decide
    · exact ⟨hq, h8, h16⟩
  have hinside := h.cons_inside c (s := { s.put [backslash] with mode := .inside quote }) rfl
  rw [he, List.cons_append, scan, Machine.run_cons] at hinside ⊢
  rw [step_pending hs hq hd8 hd16, hinside, sectionEnd, sectionEnd, value_pending_cons h8 h16,
    closes_irrel .pending .inside]
  exact congrArg (fun word => State.mk _ (some word) _) (List.append_assoc ..)

theorem ScansSection.cons_digit (h : ScansSection w) {r : Radix} {n : Nat} {v c d : UInt8}
    (hdigit : r.digit c = some d) (hs : s.mode = Reading.mode (.number r n v)) :
    scan s (escapeOne c ++ (escape w ++ [quote])) = sectionEnd s (.number r n v) (c :: w) := by
  have hbs := digit_ne hdigit
  have he : escapeOne c = [c] := escapeOne_digit hdigit
  have hstep : scan s [c] = if n + 1 = r.maxDigits
      then { s.put [v * r.base + d] with mode := .inside quote }
      else { s with mode := Reading.mode (.number r (n + 1) (v * r.base + d)) } := by
    change s.step c = _
    rw [State.step, hs]
    dsimp only [Reading.mode]
    rw [hdigit]
  rw [he, scan_append, hstep, sectionEnd, value_number_digit hdigit]
  split
  · rw [h (m := .inside) rfl, sectionEnd,
      closes_cons hbs (show Reading.inside ≠ .pending by decide)]
    exact congrArg (fun word => State.mk _ (some word) _) (List.append_assoc ..)
  · rw [h (m := .number r (n + 1) (v * r.base + d)) rfl, sectionEnd,
      closes_cons hbs (show Reading.number r (n + 1) (v * r.base + d) ≠ .pending by simp)]

/-- A number ends at a character that is not a digit, which is read from within. -/
theorem ScansSection.cons_number (h : ScansSection w) {r : Radix} {n : Nat} {v c : UInt8}
    (hdigit : r.digit c = none) (hs : s.mode = Reading.mode (.number r n v)) :
    scan s (escapeOne c ++ (escape w ++ [quote])) = sectionEnd s (.number r n v) (c :: w) := by
  obtain ⟨d, t, he, hd⟩ := escapeOne_head c
  have hnone : r.digit d = none := by
    rcases hd with rfl | ⟨rfl, -⟩
    · cases r <;> rfl
    · exact hdigit
  have hinside := h.cons_inside c (s := { s.put (r.flush n v) with mode := .inside quote }) rfl
  rw [he, List.cons_append, scan, Machine.run_cons] at hinside ⊢
  rw [step_number hs hnone, hinside, sectionEnd, sectionEnd, value_number_cons hdigit,
    closes_irrel (.number r n v) .inside]
  exact congrArg (fun word => State.mk _ (some word) _) (List.append_assoc ..)

theorem scansSection : ScansSection w := by
  induction w with
  | nil => exact scansSection_nil
  | cons c w ih =>
    intro s m hs
    rw [escape_cons, List.append_assoc]
    cases m with
    | inside => exact ih.cons_inside c hs
    | pending => exact ih.cons_pending c hs
    | number r n v =>
      cases hdigit : r.digit c with
      | some d => exact ih.cons_digit hdigit hs
      | none => exact ih.cons_number hdigit hs

/-- A quoted field from within, and the quote that ends it. -/
theorem scan_section {m : Reading} (hs : s.mode = m.mode) :
    scan s (escape w ++ [quote]) = ⟨if closes m w then .plain else .inside quote,
      some (s.word.getD [] ++ value m w), s.args⟩ := scansSection hs

end

/-! ## Which values are the field -/

section
variable {m : Reading} {c : UInt8} {w : Bytes}

theorem weight_cons (hc : c ≠ backslash) : weight (c :: w) = weight w + 1 := by
  simp [weight, hc]

@[simp] theorem weight_backslash_cons : weight (backslash :: w) = weight w := by
  simp [weight]

theorem weight_flush_le (r : Radix) (n : Nat) (v : UInt8) : weight (r.flush n v) ≤ 1 := by
  unfold Radix.flush
  split
  · cases r <;> decide
  · exact weight_singleton_le v

theorem weight_kept_le (c : UInt8) : weight (kept c) ≤ 1 := by
  unfold kept
  split
  · decide
  · next hq =>
    rcases escapeOne_cases c with ⟨-, h⟩ | ⟨h, -⟩ | ⟨-, e, -, h⟩ | ⟨-, h⟩
    · rw [h]; decide
    · exact (hq h).elim
    · rw [h, weight_backslash_cons]; exact weight_singleton_le e
    · rw [h]; exact weight_singleton_le c

/-- Numbers shorten a field, and nothing makes it longer. -/
theorem weight_value_le (h : closes m w) : weight (value m w) ≤ weight w + match m with
    | .number .. => 1
    | _ => 0 := by
  induction w generalizing m with
  | nil =>
    cases m with
    | inside => exact Nat.le_refl _
    | pending => cases h
    | number r n v => exact (weight_flush_le r n v).trans (Nat.le_add_left ..)
  | cons c w ih =>
    have hinside : weight (value .inside (c :: w)) ≤ weight (c :: w) := by
      rcases eq_or_ne c backslash with rfl | hc
      · have := ih (m := .pending) (closes_backslash.symm.trans h)
        change weight (backslash :: value .pending w) ≤ _
        rwa [weight_backslash_cons, weight_backslash_cons]
      · have := ih (m := .inside) ((closes_cons hc (by decide)).symm.trans h)
        have := weight_kept_le c
        rw [value_inside_cons hc, weight_append, weight_cons hc]
        simp only at *
        omega
    cases m with
    | inside => exact hinside
    | pending =>
      have hletter (r : Radix) (h : closes .pending (r.letter :: w)) :
          weight (value .pending (r.letter :: w)) ≤ weight (r.letter :: w) := by
        rw [value_pending_letter, weight_cons (letter_ne r)]
        exact ih (m := .number r 0 0) ((closes_cons (letter_ne r) (by simp)).symm.trans h)
      rcases eq_or_ne c Radix.octal.letter with rfl | h8
      · exact hletter _ h
      rcases eq_or_ne c Radix.hex.letter with rfl | h16
      · exact hletter _ h
      rw [value_pending_cons h8 h16, weight_backslash_cons]
      exact hinside
    | number r n v =>
      cases hdigit : r.digit c with
      | some d =>
        have hc := digit_ne hdigit
        rw [value_number_digit hdigit, weight_cons hc]
        split
        · have := ih (m := .inside) ((closes_cons hc (by decide)).symm.trans h)
          have := weight_singleton_le (v * r.base + d)
          rw [← List.singleton_append, weight_append]
          simp only at *
          omega
        · have := ih (m := .number r (n + 1) (v * r.base + d))
            ((closes_cons hc (by simp)).symm.trans h)
          simp only at *
          omega
      | none =>
        have := weight_flush_le r n v
        rw [value_number_cons hdigit, weight_append]
        simp only
        omega

/-- A letter without digits comes back behind its backslash. With digits something is lost. -/
theorem number_cases {r : Radix} (h : closes (.number r 0 0) w) :
    (∃ u, value (.number r 0 0) w = backslash :: r.letter :: u) ∨
      weight (value (.number r 0 0) w) ≤ weight w := by
  cases w with
  | nil => exact .inl ⟨[], rfl⟩
  | cons c w =>
    cases hdigit : r.digit c with
    | none => exact .inl ⟨_, value_number_cons hdigit⟩
    | some d =>
      have hc := digit_ne hdigit
      have hmax : 0 + 1 ≠ r.maxDigits := by cases r <;> decide
      rw [value_number_digit hdigit, if_neg hmax, weight_cons hc]
      exact .inr (weight_value_le ((closes_cons hc (by simp)).symm.trans h))

/-- Behind an escaped backslash: where the field has a character of its own the value still has
backslashes, or the value is lighter. -/
theorem pending_cases (h : closes .pending w) :
    (∃ k c u, w[k]? = some c ∧ c ≠ backslash ∧
        value .pending w = .replicate (k + 1) backslash ++ u) ∨
      weight (value .pending w) < weight w := by
  induction w with
  | nil => cases h
  | cons c w ih =>
    rcases eq_or_ne c backslash with rfl | hc
    · have hvalue : value .pending (backslash :: w) = backslash :: backslash :: value .pending w :=
        rfl
      rw [hvalue, weight_backslash_cons, weight_backslash_cons, weight_backslash_cons]
      refine (ih (closes_backslash.symm.trans h)).imp_left ?_
      rintro ⟨k, d, u, hk, hd, hu⟩
      refine ⟨k + 1, d, backslash :: u, hk, hd, ?_⟩
      rw [hu]
      change List.replicate (k + 2 + 1) backslash ++ u = _
      rw [List.replicate_succ', List.append_assoc]
      rfl
    · have hletter (r : Radix) (h : closes .pending (r.letter :: w)) :
          (∃ k c u, (r.letter :: w)[k]? = some c ∧ c ≠ backslash ∧
              value .pending (r.letter :: w) = .replicate (k + 1) backslash ++ u) ∨
            weight (value .pending (r.letter :: w)) < weight (r.letter :: w) := by
        have hr := letter_ne r
        rw [value_pending_letter, weight_cons hr]
        rcases number_cases ((closes_cons hr (by simp)).symm.trans h) with ⟨u, hu⟩ | hle
        · exact .inl ⟨0, _, _, rfl, hr, hu⟩
        · exact .inr (Nat.lt_succ_of_le hle)
      rcases eq_or_ne c Radix.octal.letter with rfl | h8
      · exact hletter _ h
      rcases eq_or_ne c Radix.hex.letter with rfl | h16
      · exact hletter _ h
      exact .inl ⟨0, c, _, rfl, hc, value_pending_cons h8 h16⟩

theorem kept_ordinary (h : ¬ IsControl c) (hc : c ≠ backslash) : kept c = [c] := by
  unfold kept
  split
  · next hq => rw [hq]
  · next hq =>
    rcases escapeOne_cases c with ⟨h, -⟩ | ⟨h, -⟩ | ⟨h', -⟩ | ⟨-, h⟩
    · exact (hc h).elim
    · exact (hq h).elim
    · exact (h h').elim
    · exact h

theorem value_inside_eq (hctl : ∀ c ∈ w, ¬ IsControl c) (hbs : backslash ∉ w) :
    value .inside w = w := by
  induction w with
  | nil => rfl
  | cons c w ih =>
    rw [List.forall_mem_cons] at hctl
    rw [List.mem_cons, not_or] at hbs
    rw [value_inside_cons (Ne.symm hbs.1), kept_ordinary hctl.1 (Ne.symm hbs.1),
      ih hctl.2 hbs.2]
    rfl

theorem closes_inside (hbs : backslash ∉ w) : closes .inside w := by
  induction w with
  | nil => rfl
  | cons c w ih =>
    rw [List.mem_cons, not_or] at hbs
    rw [closes_cons (Ne.symm hbs.1) (show Reading.inside ≠ .pending by decide), ih hbs.2]

/-- A field that comes back, whatever follows it, has no backslash. -/
theorem prefix_value_iff (hctl : ∀ c ∈ w, ¬ IsControl c) (h : closes .inside w) :
    w <+: value .inside w ↔ backslash ∉ w := by
  refine ⟨fun hpre hbs => ?_, fun hbs => (value_inside_eq hctl hbs).symm ▸ List.prefix_refl w⟩
  induction w with
  | nil => cases hbs
  | cons c w ih =>
    rw [List.forall_mem_cons] at hctl
    rcases eq_or_ne c backslash with rfl | hc
    · have hpre : w <+: value .pending w := (List.cons_prefix_cons.mp hpre).2
      rcases pending_cases (closes_backslash.symm.trans h) with ⟨k, c, u, hk, hc, hu⟩ | hlt
      · obtain ⟨t, ht⟩ := hpre
        have := congrArg (·[k]?) (ht.trans hu)
        rw [List.getElem?_append_left (List.getElem?_eq_some_iff.mp hk).1, hk,
          List.getElem?_append_left (by simp), List.getElem?_replicate_of_lt (by omega)] at this
        exact hc (Option.some.inj this)
      · exact absurd (hpre.sublist.countP_le) (Nat.not_le.mpr hlt)
    · rw [value_inside_cons hc, kept_ordinary hctl.1 hc, List.singleton_append,
        List.cons_prefix_cons] at hpre
      refine ih hctl.2 ((closes_cons hc (by decide)).symm.trans h) hpre.2 ?_
      exact (List.mem_cons.mp hbs).resolve_left (Ne.symm hc)

/-! ## Which data comes back -/

open jsonUnescapeString in
/-- The decoder stops at a NUL of its own accord. -/
theorem loop_cstr (dstLen : Nat) (src : Bytes) (di : Nat) :
    loop dstLen (cstr src) di = loop dstLen src di := by
  fun_induction loop dstLen src di with
  | case1 => rfl
  | case2 => simp [loop]
  | case3 di c h0 hdi => rw [cstr_cons h0, loop_full hdi]
  | case4 di c h0 hdi => rw [cstr_cons h0, cstr_nil, loop, if_neg h0, if_neg hdi]
  | case5 => simp [loop]
  | case6 next src di hdi h0 => rw [cstr_cons h0, loop_full hdi]
  | case7 next src di decoded hdi h0 hdecode ih =>
    have hnext : next ≠ 0 := by
      rintro rfl
      exact hdecode rfl
    rw [cstr_cons h0, cstr_cons hnext, loop_backslash (by omega) hdecode, ih]
  | case8 next src di decoded hdi h0 hdecode ih =>
    rcases eq_or_ne next 0 with rfl | hnext
    · rw [cstr_cons h0, cstr_zero_cons, loop, if_neg h0, if_neg hdi, loop.eq_def dstLen (0 :: src)]
      cases src <;> rfl
    · rw [cstr_cons hnext] at ih
      rw [cstr_cons h0, cstr_cons hnext, loop_backslash_unknown (by omega) (not_not.mp hdecode),
        ih]
      exact congrArg (· :: _) (not_not.mp hdecode).symm
  | case9 c next src di h0 hc hdi => rw [cstr_cons h0, loop_full hdi]
  | case10 c next src di h0 hc hdi ih => rw [cstr_cons h0, loop_cons h0 hc (by omega), ih]

open jsonUnescapeString in
theorem weight_loop_le (dstLen : Nat) (src : Bytes) (di : Nat) :
    weight (loop dstLen src di) ≤ weight src := by
  have hcons (c : UInt8) (w : Bytes) : weight (c :: w) = weight [c] + weight w :=
    weight_append [c] w
  fun_induction loop dstLen src di with
  | case1 | case2 | case3 | case5 | case6 | case9 => exact Nat.zero_le _
  | case4 => exact Nat.le_refl _
  | case7 next src di decoded hdi h0 hdecode ih =>
    have hnext : next ≠ backslash := by
      rintro rfl
      exact hdecode rfl
    have := weight_singleton_le decoded
    rw [hcons, weight_backslash_cons, weight_cons hnext]
    omega
  | case8 next src di decoded hdi h0 hdecode ih =>
    rw [show decoded = backslash from not_not.mp hdecode, weight_backslash_cons,
      weight_backslash_cons]
    exact ih
  | case10 c next src di h0 hc hdi ih =>
    rw [hcons, hcons c (next :: src)]
    exact Nat.add_le_add_left ih _

/-- Data that comes back: each backslash stands in front of a slash or a quote. -/
def BackslashPaired (s : Bytes) : Prop :=
  ∀ i, s[i]? = some backslash → s[i + 1]? = some slash ∨ s[i + 1]? = some quote

instance (s : Bytes) : Decidable (BackslashPaired s) :=
  decidable_of_iff (∀ i < s.length, s[i]? = some backslash →
      s[i + 1]? = some slash ∨ s[i + 1]? = some quote)
    ⟨fun h i hi => h i (List.getElem?_eq_some_iff.mp hi).1 hi, fun h i _ => h i⟩

theorem backslashPaired_cons :
    BackslashPaired (c :: w) ↔
      (c = backslash → w.head? = some slash ∨ w.head? = some quote) ∧ BackslashPaired w := by
  constructor
  · intro h
    refine ⟨fun hc => ?_, fun i hi => ?_⟩
    · simpa [List.head?_eq_getElem?, hc] using h 0
    · simpa using h (i + 1) (by simpa using hi)
  · rintro ⟨hhead, htail⟩ (_ | i) hi
    · have hc : c = backslash := by simpa using hi
      simpa [List.head?_eq_getElem?, hc] using hhead hc
    · simpa using htail i (by simpa using hi)

section
open jsonUnescapeString
variable {di n : Nat}

/-- A character that is no backslash comes back. -/
theorem loop_kept (hdi : di + 1 < 20) (h0 : c ≠ 0) (hc : c ≠ backslash)
    (hctl : IsControl c → c = cr ∨ c = lf ∨ c = tab) (src : Bytes) :
    loop 20 (kept c ++ src) di = c :: loop 20 src (di + 1) := by
  rcases Classical.em (IsControl c) with hcontrol | hcontrol
  · rcases hctl hcontrol with rfl | rfl | rfl <;> exact loop_backslash hdi (by decide) _
  · rw [kept_ordinary hcontrol hc]
    exact loop_cons h0 hc hdi _

/-- Behind a backslash that was not the only one. -/
theorem ne_loop_pending (h : closes .pending w) (hlen : di + w.length < 20) :
    w ≠ loop 20 (backslash :: value .pending w) di := by
  intro heq
  rcases pending_cases h with ⟨k, c, u, hk, hc, hu⟩ | hlt
  · have hklt := (List.getElem?_eq_some_iff.mp hk).1
    obtain ⟨t, ht⟩ := exists_loop_replicate_append (by omega : di + (19 - di) + 1 = 20) (k + 1) u
    have hw : backslash :: value .pending w = .replicate (k + 1) backslash ++ backslash :: u := by
      rw [hu, ← List.cons_append, ← List.replicate_succ, List.replicate_succ', List.append_assoc]
      rfl
    rw [hw, ht] at heq
    have := congrArg (·[k]?) heq
    rw [hk, List.getElem?_append_left (by simp; omega),
      List.getElem?_replicate_of_lt (by omega)] at this
    exact hc (Option.some.inj this)
  · have := weight_loop_le 20 (backslash :: value .pending w) di
    rw [← heq, weight_backslash_cons] at this
    omega

/-- An escaped backslash and the character behind it. -/
theorem loop_escaped_iff (hw0 : c ≠ 0) (hctl : IsControl c → c = cr ∨ c = lf ∨ c = tab)
    (h : closes .pending (c :: w)) (hlen : di + (w.length + 2) < 20) :
    loop 20 (backslash :: value .pending (c :: w)) di = backslash :: c :: w ↔
      (c = slash ∨ c = quote) ∧ loop 20 (value .inside w) (di + 2) = w := by
  have hhead {s : Bytes} : loop 20 (backslash :: backslash :: s) di = backslash :: c :: w ↔
      loop 20 (backslash :: s) (di + 1) = c :: w := by
    rw [loop_backslash_unknown (by omega) rfl, List.cons.injEq, and_iff_right rfl]
  rcases eq_or_ne c backslash with rfl | hc
  · have hvalue : value .pending (backslash :: w) = backslash :: backslash :: value .pending w := rfl
    rw [hvalue, hhead, loop_backslash_unknown (by omega) rfl, List.cons.injEq, and_iff_right rfl]
    refine iff_of_false (fun heq => ?_) (by decide ∘ And.left)
    exact ne_loop_pending (closes_backslash.symm.trans h) (by omega) heq.symm
  have hletter (r : Radix) (h : closes .pending (r.letter :: w)) :
      loop 20 (backslash :: value .pending (r.letter :: w)) di ≠ backslash :: r.letter :: w := by
    have hr := letter_ne r
    rw [value_pending_letter]
    rcases number_cases ((closes_cons hr (by simp)).symm.trans h) with ⟨u, hu⟩ | hle
    · rw [hu, loop_backslash_unknown (by omega) rfl]
      intro heq
      exact loop_backslash_ne (by omega) (by cases r <;> decide) hr (by cases r <;> decide) _ _
        (List.cons.inj heq).2
    · intro heq
      have := weight_loop_le 20 (backslash :: value (.number r 0 0) w) di
      rw [heq, weight_backslash_cons, weight_backslash_cons, weight_cons hr] at this
      omega
  rcases eq_or_ne c Radix.octal.letter with rfl | h8
  · exact iff_of_false (hletter .octal h) (by decide ∘ And.left)
  rcases eq_or_ne c Radix.hex.letter with rfl | h16
  · exact iff_of_false (hletter .hex h) (by decide ∘ And.left)
  rw [value_pending_cons h8 h16, value_inside_cons hc, hhead]
  rcases Classical.em (IsControl c) with hcontrol | hcontrol
  · refine iff_of_false (fun heq => ?_) fun h => ?_
    · rcases hctl hcontrol with rfl | rfl | rfl
      all_goals
        have := congrArg List.head? (show loop 20 (backslash :: backslash :: _) (di + 1) = _ from heq)
        rw [loop_backslash_unknown (by omega) rfl] at this
        exact hc (Option.some.inj this).symm
    · rcases h.1 with rfl | rfl <;> exact absurd hcontrol (by decide)
  rw [kept_ordinary hcontrol hc, List.singleton_append]
  rcases Classical.em (c = slash ∨ c = quote) with hpair | hpair
  · have hdecode : decode c = c := by rcases hpair with rfl | rfl <;> rfl
    rw [loop_backslash (by omega) (hdecode.symm ▸ hc), hdecode, List.cons.injEq]
    exact and_congr_left' (iff_of_true rfl hpair)
  · rw [not_or] at hpair
    exact iff_of_false (loop_backslash_ne (by omega) hpair.2 hc hpair.1 _ _) (by simp [hpair])

/-- **Data that comes back.** The shell gives a quoted data string, and the decoder makes of it
what it was, exactly when its backslashes are paired. -/
theorem loop_value_iff (h0 : 0 ∉ w) (hctl : ∀ c ∈ w, IsControl c → c = cr ∨ c = lf ∨ c = tab)
    (hlen : di + w.length < 20) (h : closes .inside w) :
    loop 20 (value .inside w) di = w ↔ BackslashPaired w := by
  have hordinary {c : UInt8} {w : Bytes} {di : Nat} (h0 : 0 ∉ c :: w)
      (hctl : ∀ d ∈ c :: w, IsControl d → d = cr ∨ d = lf ∨ d = tab) (hdi : di + 1 < 20)
      (hc : c ≠ backslash) (ih : loop 20 (value .inside w) (di + 1) = w ↔ BackslashPaired w) :
      loop 20 (value .inside (c :: w)) di = c :: w ↔ BackslashPaired (c :: w) := by
    rw [List.mem_cons, not_or] at h0
    rw [value_inside_cons hc, loop_kept hdi (Ne.symm h0.1) hc (hctl c (List.mem_cons_self ..)),
      List.cons.injEq, and_iff_right rfl, ih, backslashPaired_cons]
    exact (and_iff_right fun heq => (hc heq).elim).symm
  induction w using List.twoStepInduction generalizing di with
  | nil => simp [BackslashPaired, value, loop]
  | singleton c =>
    have hc : c ≠ backslash := by
      rintro rfl
      cases h
    exact hordinary h0 hctl hlen hc (by simp [BackslashPaired, value, loop])
  | cons_cons c d w ih1 ih2 =>
    simp only [List.length_cons] at hlen
    have h0' : 0 ∉ d :: w := fun hmem => h0 (List.mem_cons_of_mem _ hmem)
    have hctl' := (List.forall_mem_cons.mp hctl).2
    rcases eq_or_ne c backslash with rfl | hc
    · rw [List.mem_cons, not_or] at h0'
      rw [List.forall_mem_cons] at hctl'
      change loop 20 (backslash :: value .pending (d :: w)) di = _ ↔ _
      rw [loop_escaped_iff (Ne.symm h0'.1) hctl'.1 (closes_backslash.symm.trans h) (by omega),
        backslashPaired_cons, List.head?_cons, Option.some_inj, Option.some_inj,
        forall_prop_of_true rfl]
      refine and_congr_right fun hpair => ?_
      have hd : d ≠ backslash := by rcases hpair with rfl | rfl <;> decide
      have hclose : closes .inside w :=
        (closes_cons hd (by decide)).symm.trans (closes_backslash.symm.trans h)
      have ih : loop 20 (value .inside w) (di + 2) = w ↔ BackslashPaired w :=
        ih1 h0'.2 hctl'.2 (by omega) hclose
      rw [ih, backslashPaired_cons]
      exact (and_iff_right fun heq => (hd heq).elim).symm
    · refine hordinary h0 hctl (by omega) hc (ih2 d h0' hctl' ?_ ?_)
      · rw [List.length_cons]
        omega
      · exact (closes_cons hc (by decide)).symm.trans h

end

end

end ZephyrSiot
