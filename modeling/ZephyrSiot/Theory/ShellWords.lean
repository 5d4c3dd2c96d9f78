import ZephyrSiot.Theory.CString
import ZephyrSiot.Theory.Machine

/-!
# Splitting a shell line into words

The quoting rules of a small shell, as a machine that reads the line one character at a time.
Words are separated by white space. Outside of quotes a backslash makes the next character an
ordinary one. A single or double quote opens a section that the same quote closes; in it a
backslash stands for itself, unless that quote follows, or `0` with one to three octal digits, or
`x` with one or two hexadecimal digits. A line with a section left open has no words.
-/

namespace ShellWords
open CStr

/-! ## The machine -/

abbrev IsSpace (c : UInt8) : Prop := c = space ∨ 0x09 ≤ c ∧ c ≤ 0x0d

abbrev IsQuote (c : UInt8) : Prop := c = quote ∨ c = apostrophe

/-- The two ways to give a character by its number. -/
inductive Radix where
  | octal
  | hex
  deriving DecidableEq

namespace Radix

/-- The letter after the backslash. -/
def letter : Radix → UInt8
  | octal => 0x30
  | hex => 0x78

def base : Radix → UInt8
  | octal => 8
  | hex => 16

def maxDigits : Radix → Nat
  | octal => 3
  | hex => 2

def digit (r : Radix) (c : UInt8) : Option UInt8 :=
  match r with
  | octal => if 0x30 ≤ c ∧ c ≤ 0x37 then some (c - 0x30) else none
  | hex =>
    if 0x30 ≤ c ∧ c ≤ 0x39 then some (c - 0x30)
    else if 0x61 ≤ c ∧ c ≤ 0x66 then some (c - 0x61 + 10)
    else if 0x41 ≤ c ∧ c ≤ 0x46 then some (c - 0x41 + 10)
    else none

/-- What stands for a number that ends after `n` digits: without a digit it was none. -/
def flush (r : Radix) (n : Nat) (v : UInt8) : Bytes := if n = 0 then [backslash, r.letter] else [v]

end Radix

inductive Mode where
  | plain
  | escaped
  /-- In a section of this quote. -/
  | inside (q : UInt8)
  /-- In a section, after a backslash. -/
  | insideEscaped (q : UInt8)
  /-- In a section, after a backslash, the letter of `r` and `n` digits of value `v`. -/
  | numeric (q : UInt8) (r : Radix) (n : Nat) (v : UInt8)
  deriving DecidableEq

structure State where
  mode : Mode
  /-- The word that is being read. A section opens one even when nothing is in it. -/
  word : Option Bytes
  /-- The words before it. -/
  args : List Bytes
  deriving DecidableEq

namespace State

def start : State := ⟨.plain, none, []⟩

def put (s : State) (cs : Bytes) : State := { s with word := some (s.word.getD [] ++ cs) }

/-- A character of a section that no backslash precedes. -/
def readInside (s : State) (q c : UInt8) : State :=
  if c = q then { s.put [] with mode := .plain }
  else if c = backslash then { s with mode := .insideEscaped q }
  else { s.put [c] with mode := .inside q }

def step (s : State) (c : UInt8) : State :=
  match s.mode with
  | .plain =>
    if IsSpace c then { s with word := none, args := s.args ++ s.word.toList }
    else if c = backslash then { s.put [] with mode := .escaped }
    else if IsQuote c then { s.put [] with mode := .inside c }
    else s.put [c]
  | .escaped => { s.put [c] with mode := .plain }
  | .inside q => s.readInside q c
  | .insideEscaped q =>
    if c = q then { s.put [c] with mode := .inside q }
    else if c = Radix.octal.letter then { s with mode := .numeric q .octal 0 0 }
    else if c = Radix.hex.letter then { s with mode := .numeric q .hex 0 0 }
    else (s.put [backslash]).readInside q c
  | .numeric q r n v =>
    match r.digit c with
    | some d =>
      if n + 1 = r.maxDigits then { s.put [v * r.base + d] with mode := .inside q }
      else { s with mode := .numeric q r (n + 1) (v * r.base + d) }
    | none => (s.put (r.flush n v)).readInside q c

def words (s : State) : List Bytes := s.args ++ s.word.toList

/-- The words at the end of the line. -/
def finish (s : State) : Option (List Bytes) :=
  match s.mode with
  | .plain | .escaped => some s.words
  | _ => none

end State

abbrev scan (s : State) (line : Bytes) : State := Machine.run State.step s line

def split (line : Bytes) : Option (List Bytes) := (scan .start line).finish

example : split (lit "p 'a b'c \x22\x22") = some [lit "p", lit "a bc", []] := by decide
example : split (lit "p 'a") = none := by decide

theorem scan_append (s : State) (a b : Bytes) : scan s (a ++ b) = scan (scan s a) b :=
  Machine.run_append ..

/-! ## Sections -/

/-- The quote of the section that is open. -/
def Mode.openQuote : Mode → Option UInt8
  | .plain | .escaped => none
  | .inside q | .insideEscaped q | .numeric q .. => some q

variable {s : State} {q c : UInt8}

@[simp] theorem put_mode (cs : Bytes) : (s.put cs).mode = s.mode := rfl

@[simp] theorem put_args (cs : Bytes) : (s.put cs).args = s.args := rfl

theorem step_inside (h : s.mode = .inside q) (c : UInt8) : s.step c = s.readInside q c := by
  rw [State.step, h]

theorem readInside_ordinary (hq : c ≠ q) (hbs : c ≠ backslash) :
    s.readInside q c = { s.put [c] with mode := .inside q } := by
  rw [State.readInside, if_neg hq, if_neg hbs]

theorem readInside_of_ne (h : c ≠ q) :
    (s.readInside q c).mode.openQuote = some q ∧ (s.readInside q c).args = s.args := by
  rw [State.readInside, if_neg h]
  split <;> exact ⟨rfl, rfl⟩

/-- In a section no character but its quote ends it, and no word either. -/
theorem step_of_open (h : s.mode.openQuote = some q) (hc : c ≠ q) :
    (s.step c).mode.openQuote = some q ∧ (s.step c).args = s.args := by
  rw [State.step]
  cases hmode : s.mode with rw [hmode] at h
  | plain => cases h
  | escaped => cases h
  | inside q' =>
    obtain rfl := Option.some.inj h
    exact readInside_of_ne hc
  | insideEscaped q' =>
    obtain rfl := Option.some.inj h
    dsimp only
    rw [if_neg hc]
    split
    · exact ⟨rfl, rfl⟩
    split
    · exact ⟨rfl, rfl⟩
    · exact readInside_of_ne hc
  | numeric q' r n v =>
    obtain rfl := Option.some.inj h
    dsimp only
    split
    · split <;> exact ⟨rfl, rfl⟩
    · exact readInside_of_ne hc

theorem scan_of_open (h : s.mode.openQuote = some q) {line : Bytes} (hline : q ∉ line) :
    (scan s line).mode.openQuote = some q ∧ (scan s line).args = s.args := by
  induction line generalizing s with
  | nil => exact ⟨h, rfl⟩
  | cons c line ih =>
    rw [List.mem_cons, not_or] at hline
    obtain ⟨hopen, hargs⟩ := step_of_open h (Ne.symm hline.1)
    rw [scan, Machine.run_cons]
    exact hargs ▸ ih hopen hline.2

/-- The quote of a section ends it, or is an ordinary character in it. -/
theorem step_of_open_self (h : s.mode.openQuote = some q) :
    (s.step q).mode = .plain ∨ (s.step q).mode.openQuote = some q := by
  have hread (s : State) : (s.readInside q q).mode = .plain := by
    rw [State.readInside, if_pos rfl]
  rw [State.step]
  cases hmode : s.mode with rw [hmode] at h
  | plain => cases h
  | escaped => cases h
  | inside q' =>
    obtain rfl := Option.some.inj h
    exact .inl (hread s)
  | insideEscaped q' =>
    obtain rfl := Option.some.inj h
    dsimp only
    rw [if_pos rfl]
    exact .inr rfl
  | numeric q' r n v =>
    obtain rfl := Option.some.inj h
    dsimp only
    split
    · split <;> exact .inr rfl
    · exact .inl (hread _)

theorem finish_of_open (h : s.mode.openQuote = some q) : s.finish = none := by
  rw [State.finish]
  split
  · next hmode => rw [hmode] at h; cases h
  · next hmode => rw [hmode] at h; cases h
  · rfl

/-- A section that is never closed leaves the line without words. -/
theorem finish_scan_of_open (h : s.mode.openQuote = some q) {line : Bytes} (hline : q ∉ line) :
    (scan s line).finish = none :=
  finish_of_open (scan_of_open h hline).1

/-! ## Words only grow -/

/-- The words of one state are found in another, perhaps with more characters. -/
def Grows (xs ys : List Bytes) : Prop :=
  ∀ (i : Nat) (w : Bytes), xs[i]? = some w → ∃ w', ys[i]? = some w' ∧ w <+: w'

theorem Grows.refl (xs : List Bytes) : Grows xs xs := fun _ w h => ⟨w, h, List.prefix_refl w⟩

theorem Grows.trans {xs ys zs : List Bytes} (h : Grows xs ys) (h' : Grows ys zs) :
    Grows xs zs := fun i w hi =>
  let ⟨w', hi', hw⟩ := h i w hi
  let ⟨w'', hi'', hw'⟩ := h' i w' hi'
  ⟨w'', hi'', hw.trans hw'⟩

theorem grows_put (cs : Bytes) : Grows s.words (s.put cs).words := by
  intro i w hi
  cases hword : s.word with
  | none =>
    refine ⟨w, ?_, List.prefix_refl w⟩
    simp only [State.words, State.put, hword, Option.toList_none, List.append_nil] at hi ⊢
    exact (List.getElem?_append_left (List.getElem?_eq_some_iff.mp hi).1).trans hi
  | some w0 =>
    simp only [State.words, State.put, hword, Option.toList_some, Option.getD_some] at hi ⊢
    rcases Nat.lt_or_ge i s.args.length with hlt | hge
    · rw [List.getElem?_append_left hlt] at hi ⊢
      exact ⟨w, hi, List.prefix_refl w⟩
    · rw [List.getElem?_append_right hge] at hi ⊢
      rw [List.getElem?_singleton] at hi ⊢
      split at hi
      · obtain rfl := Option.some.inj hi
        next h0 => exact ⟨w0 ++ cs, if_pos h0, List.prefix_append ..⟩
      · cases hi

theorem grows_readInside (c : UInt8) : Grows s.words (s.readInside q c).words := by
  rw [State.readInside]
  split
  · exact grows_put _
  split
  · exact .refl _
  · exact grows_put _

theorem grows_step (s : State) (c : UInt8) : Grows s.words (s.step c).words := by
  rw [State.step]
  split
  · split
    · simp only [State.words, Option.toList_none, List.append_nil]
      exact .refl _
    split
    · exact grows_put _
    split <;> exact grows_put _
  · exact grows_put _
  · exact grows_readInside _
  · split
    · exact grows_put _
    split
    · exact .refl _
    split
    · exact .refl _
    · exact (grows_put _).trans (grows_readInside _)
  · split
    · split
      · exact grows_put _
      · exact .refl _
    · exact (grows_put _).trans (grows_readInside _)

theorem grows_scan (s : State) (line : Bytes) : Grows s.words (scan s line).words := by
  induction line generalizing s with
  | nil => exact .refl _
  | cons c line ih => exact (grows_step s c).trans (ih _)

/-! ## Complete words stay -/

theorem args_step (s : State) (c : UInt8) :
    (s.step c).args = s.args ∨ IsSpace c ∧ (s.step c).args = s.args ++ s.word.toList := by
  have hinside (s : State) (q : UInt8) : (s.readInside q c).args = s.args := by
    rw [State.readInside]
    split
    · rfl
    split <;> rfl
  rw [State.step]
  split
  · split
    · next hc => exact .inr ⟨hc, rfl⟩
    split
    · exact .inl rfl
    split <;> exact .inl rfl
  · exact .inl rfl
  · exact .inl (hinside ..)
  · split
    · exact .inl rfl
    split
    · exact .inl rfl
    split
    · exact .inl rfl
    · exact .inl (hinside ..)
  · split
    · split <;> exact .inl rfl
    · exact .inl (hinside ..)

theorem args_prefix_scan (s : State) (line : Bytes) : s.args <+: (scan s line).args := by
  induction line generalizing s with
  | nil => exact List.prefix_refl _
  | cons c line ih =>
    refine List.IsPrefix.trans ?_ (ih (s.step c))
    rcases args_step s c with h | ⟨-, h⟩
    · exact h ▸ List.prefix_refl _
    · exact h ▸ List.prefix_append ..

/-- Each white space ends at most one word. -/
theorem length_args_scan_le (s : State) (line : Bytes) :
    (scan s line).args.length ≤ s.args.length + line.countP (IsSpace ·) := by
  induction line generalizing s with
  | nil => exact Nat.le_refl _
  | cons c line ih =>
    have hstep : (s.step c).args.length ≤ s.args.length + if IsSpace c then 1 else 0 := by
      rcases args_step s c with h | ⟨hc, h⟩
      · exact h ▸ Nat.le_add_right ..
      · rw [h, if_pos hc, List.length_append]
        exact Nat.add_le_add_left (by cases s.word <;> simp) _
    have := ih (s.step c)
    rw [List.countP_cons]
    simp only [decide_eq_true_eq]
    change (scan (s.step c) line).args.length ≤ _
    omega

theorem words_of_finish {ws : List Bytes} (h : s.finish = some ws) : s.words = ws := by
  rw [State.finish] at h
  split at h
  · exact Option.some.inj h
  · exact Option.some.inj h
  · cases h

/-- A complete word is a word at the end of the line. -/
theorem getElem?_of_finish {line : Bytes} {ws : List Bytes} (h : (scan s line).finish = some ws)
    {i : Nat} (hi : i < s.args.length) : ws[i]? = s.args[i]? := by
  rw [← words_of_finish h]
  obtain ⟨t, ht⟩ := args_prefix_scan s line
  rw [State.words, ← ht, List.append_assoc, List.getElem?_append_left hi]

/-! ## Reading makes no characters -/

/-- The characters that are not backslashes. -/
def weight (w : Bytes) : Nat := w.countP (· ≠ backslash)

@[simp] theorem weight_nil : weight [] = 0 := rfl

@[simp] theorem weight_append (w w' : Bytes) : weight (w ++ w') = weight w + weight w' :=
  List.countP_append

theorem weight_singleton_le (c : UInt8) : weight [c] ≤ 1 := List.countP_le_length

/-- The characters of the words, and the separators between them. -/
def State.settled (s : State) : Nat :=
  (s.args.map weight).sum + s.args.length + weight (s.word.getD [])

/-- What a state has read, with a letter that may still become one. -/
def State.weight (s : State) : Nat :=
  s.settled + match s.mode with
    | .numeric .. => 1
    | _ => 0

theorem settled_put (s : State) (cs : Bytes) :
    (s.put cs).settled = s.settled + ShellWords.weight cs := by
  simp only [State.settled, State.put, Option.getD_some, weight_append]
  omega

theorem weight_readInside_le (s : State) (q c : UInt8) :
    (s.readInside q c).weight ≤ s.settled + weight [c] := by
  rw [State.readInside]
  split
  · exact (settled_put s []).le.trans (Nat.le_add_right ..)
  split
  · exact Nat.le_add_right ..
  · exact (settled_put s [c]).le

/-- A white space that ends a word is counted as a separator. -/
theorem settled_space_le {c : UInt8} (hc : IsSpace c) (s : State) :
    State.settled { s with word := none, args := s.args ++ s.word.toList } ≤
      s.settled + weight [c] := by
  have hc1 : weight [c] = 1 := by
    have : c ≠ backslash := by
      rintro rfl
      revert hc
      decide
    simp [weight, this]
  cases hword : s.word with
  | none => simp [State.settled, hword]
  | some w =>
    simp only [State.settled, hword, hc1, Option.toList_some, List.map_append, List.sum_append,
      List.length_append, Option.getD_some, Option.getD_none, weight_nil, List.map_cons,
      List.map_nil, List.sum_cons, List.sum_nil, List.length_cons, List.length_nil]
    omega

theorem weight_step_le (s : State) (c : UInt8) : (s.step c).weight ≤ s.weight + weight [c] := by
  have hput (cs : Bytes) := settled_put s cs
  have hle : s.settled ≤ s.weight := Nat.le_add_right ..
  have hread {t : State} {q : UInt8} (ht : t.settled ≤ s.weight) :
      (t.readInside q c).weight ≤ s.weight + weight [c] :=
    (weight_readInside_le t q c).trans (Nat.add_le_add_right ht _)
  have hletter : ∀ r : Radix, weight [r.letter] = 1 := by
    rintro (_ | _) <;> rfl
  rw [State.step]
  cases hmode : s.mode with
  | plain =>
    dsimp only
    split
    · next hc => exact (settled_space_le hc s).trans (Nat.add_le_add_right hle _)
    split
    · exact ((hput []).le.trans hle).trans (Nat.le_add_right ..)
    split
    · exact ((hput []).le.trans hle).trans (Nat.le_add_right ..)
    · have hplain : (s.put [c]).weight = (s.put [c]).settled := by
        rw [State.weight, put_mode, hmode, Nat.add_zero]
      exact hplain.le.trans ((hput [c]).le.trans (Nat.add_le_add_right hle _))
  | escaped => exact (hput [c]).le.trans (Nat.add_le_add_right hle _)
  | inside q => exact hread hle
  | insideEscaped q =>
    dsimp only
    split
    · exact (hput [c]).le.trans (Nat.add_le_add_right hle _)
    split
    · next hc => exact Nat.add_le_add hle (hc ▸ (hletter .octal).ge)
    split
    · next hc => exact Nat.add_le_add hle (hc ▸ (hletter .hex).ge)
    · exact hread ((hput [backslash]).le.trans hle)
  | numeric q r n v =>
    have hnum : s.settled + 1 = s.weight := by rw [State.weight, hmode]
    have hone (b : UInt8) : (s.put [b]).settled ≤ s.weight :=
      hnum ▸ (hput [b]).le.trans (Nat.add_le_add_left (weight_singleton_le b) _)
    dsimp only
    split
    · split
      · exact (hone _).trans (Nat.le_add_right ..)
      · exact hnum.le.trans (Nat.le_add_right ..)
    · refine hread ?_
      unfold Radix.flush
      split
      · have : weight [backslash, r.letter] = 1 := by cases r <;> rfl
        exact hnum ▸ (hput _).le.trans (Nat.add_le_add_left this.le _)
      · exact hone v

theorem weight_scan_le (s : State) (line : Bytes) :
    (scan s line).weight ≤ s.weight + weight line := by
  induction line generalizing s with
  | nil => exact Nat.le_refl _
  | cons c line ih =>
    have := weight_step_le s c
    have := ih (s.step c)
    have : weight (c :: line) = weight [c] + weight line := weight_append [c] line
    change (scan (s.step c) line).weight ≤ _
    omega

/-! ## Text without escapes -/

/-- Neither white space nor a backslash nor a double quote. -/
abbrev Bare (w : Bytes) : Prop := ∀ c ∈ w, ¬ IsSpace c ∧ c ≠ backslash ∧ c ≠ quote

@[simp] theorem put_put (a b : Bytes) : (s.put a).put b = s.put (a ++ b) := by
  simp [State.put]

/-- Characters that a mode puts into the word as they are. -/
theorem scan_put {m : Mode} {w : Bytes}
    (hstep : ∀ s : State, s.mode = m → ∀ c ∈ w, s.step c = s.put [c]) (hmode : s.mode = m)
    (hne : w ≠ []) : scan s w = s.put w := by
  induction w generalizing s with
  | nil => exact (hne rfl).elim
  | cons c w ih =>
    have hc := hstep s hmode c (List.mem_cons_self ..)
    rw [scan, Machine.run_cons, hc]
    cases w with
    | nil => rfl
    | cons d w =>
      have := ih (s := s.put [c]) (fun s hs d hd => hstep s hs d (List.mem_cons_of_mem _ hd)) hmode
        (List.cons_ne_nil d w)
      rw [scan] at this
      rw [this, put_put]
      rfl

/-- Outside of quotes, bare text without apostrophes. -/
theorem scan_plain (hmode : s.mode = .plain) {w : Bytes} (hw : Bare w) (hquote : apostrophe ∉ w)
    (hne : w ≠ []) : scan s w = s.put w := by
  refine scan_put (fun s hs c hc => ?_) hmode hne
  obtain ⟨hspace, hbs, hq⟩ := hw c hc
  have hap : c ≠ apostrophe := fun h => hquote (h ▸ hc)
  rw [State.step, hs]
  dsimp only
  rw [if_neg hspace, if_neg hbs, if_neg (not_or.mpr ⟨hq, hap⟩)]

/-- In a section, text without its quote and without backslashes. -/
theorem scan_inside (hmode : s.mode = .inside q) {w : Bytes} (hq : q ∉ w) (hbs : backslash ∉ w)
    (hne : w ≠ []) : scan s w = s.put w := by
  refine scan_put (fun s hs c hc => ?_) hmode hne
  rw [State.step, hs]
  dsimp only
  rw [State.readInside, if_neg fun h : c = q => hq (h ▸ hc),
    if_neg fun h : c = backslash => hbs (h ▸ hc), ← hs]
  rfl

private theorem step_bare (hmode : s.mode = .plain ∨ s.mode = .inside apostrophe)
    (hc : ¬ IsSpace c ∧ c ≠ backslash ∧ c ≠ quote) :
    ∃ m, (m = .plain ∨ m = .inside apostrophe) ∧
      s.step c = { s.put ([c].filter (· ≠ apostrophe)) with mode := m } := by
  obtain ⟨hspace, hbs, hq⟩ := hc
  rcases eq_or_ne c apostrophe with rfl | hap
  · rcases hmode with hmode | hmode
    · refine ⟨_, .inr rfl, ?_⟩
      rw [State.step, hmode]
      rfl
    · refine ⟨_, .inl rfl, ?_⟩
      rw [State.step, hmode]
      rfl
  · have hfilter : [c].filter (· ≠ apostrophe) = [c] := by simp [hap]
    rw [hfilter]
    rcases hmode with hmode | hmode
    · refine ⟨_, .inl rfl, ?_⟩
      rw [State.step, hmode]
      dsimp only
      rw [if_neg hspace, if_neg hbs, if_neg (not_or.mpr ⟨hq, hap⟩), ← hmode]
      rfl
    · refine ⟨_, .inr rfl, ?_⟩
      rw [State.step, hmode]
      dsimp only
      rw [State.readInside, if_neg hap, if_neg hbs]

/-- The apostrophes of bare text open and close sections, the rest of it goes into the word. -/
theorem scan_bare (hmode : s.mode = .plain ∨ s.mode = .inside apostrophe) {w : Bytes}
    (hw : Bare w) (hne : w ≠ []) :
    ∃ m, (m = .plain ∨ m = .inside apostrophe) ∧
      scan s w = { s.put (w.filter (· ≠ apostrophe)) with mode := m } := by
  induction w generalizing s with
  | nil => exact (hne rfl).elim
  | cons c w ih =>
    rw [Bare, List.forall_mem_cons] at hw
    obtain ⟨m, hm, hstep⟩ := step_bare hmode hw.1
    rw [scan, Machine.run_cons, hstep]
    cases w with
    | nil => exact ⟨m, hm, rfl⟩
    | cons d w =>
      obtain ⟨m', hm', hscan⟩ :=
        ih (s := { s.put ([c].filter (· ≠ apostrophe)) with mode := m }) hm hw.2
          (List.cons_ne_nil d w)
      refine ⟨m', hm', hscan.trans ?_⟩
      have : (c :: d :: w).filter (· ≠ apostrophe) =
          [c].filter (· ≠ apostrophe) ++ (d :: w).filter (· ≠ apostrophe) := by
        rw [← List.filter_append]
        rfl
      rw [this, ← put_put]
      rfl

end ShellWords
