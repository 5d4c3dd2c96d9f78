import ZephyrSiot.Theory.CString
import ZephyrSiot.Theory.Machine

/-!
# Fields of a line

A line is split at its spaces, those within a double-quoted section excepted. In a section a
backslash protects the character behind it. Fields that close their sections come back from the
line that joins them (`split_intercalate`), and the text of a section from its escapes
(`unescape_flatMap`).
-/

namespace LineFields
open CStr

/-! ## Splitting -/

/-- Where a line is read: outside of sections, within one, or behind a backslash there. -/
inductive Mode where
  | outside
  | inside
  | escaped
  deriving DecidableEq

def Mode.step : Mode → UInt8 → Mode
  | outside, c => if c = quote then inside else outside
  | inside, c => if c = quote then outside else if c = backslash then escaped else inside
  | escaped, _ => inside

/-- The character ends a field. -/
abbrev Ends (m : Mode) (c : UInt8) : Prop := m = .outside ∧ c = space

/-- The fields of a line, from within a field of which `field` was read. -/
def splitFrom (m : Mode) (field : Bytes) : Bytes → List Bytes
  | [] => [field]
  | c :: s =>
    if Ends m c then field :: splitFrom .outside [] s else splitFrom (m.step c) (field ++ [c]) s

def split (line : Bytes) : List Bytes := splitFrom .outside [] line

/-- Text that ends no field, and leaves the mode it is read in as it was. -/
structure Kept (m : Mode) (s : Bytes) : Prop where
  whole : Machine.AtEveryStep Mode.step (fun m c => ¬ Ends m c) m s
  back : Machine.run Mode.step m s = m

section
variable {m : Mode} {s t : Bytes}

theorem Kept.nil (m : Mode) : Kept m [] := ⟨trivial, rfl⟩

theorem Kept.append (h : Kept m s) (h' : Kept m t) : Kept m (s ++ t) := by
  constructor
  · rw [Machine.atEveryStep_append, h.back]
    exact ⟨h.whole, h'.whole⟩
  · rw [Machine.run_append, h.back, h'.back]

theorem Kept.flatMap {enc : UInt8 → Bytes} (h : ∀ c ∈ s, Kept m (enc c)) :
    Kept m (s.flatMap enc) := by
  induction s with
  | nil => exact .nil m
  | cons c s ih =>
    rw [List.forall_mem_cons] at h
    exact h.1.append (ih h.2)

/-- Text without quotes and spaces. -/
theorem kept_outside (hq : quote ∉ s) (hs : space ∉ s) : Kept .outside s := by
  induction s with
  | nil => exact .nil _
  | cons c s ih =>
    rw [List.mem_cons, not_or] at hq hs
    have hstep : Mode.step .outside c = .outside := if_neg (Ne.symm hq.1)
    have hc : Kept .outside [c] := ⟨⟨fun h => hs.1 h.2.symm, trivial⟩, hstep⟩
    exact hc.append (ih hq.2 hs.2)

theorem not_ends (h : m ≠ .outside) (c : UInt8) : ¬ Ends m c := fun hc => h hc.1

theorem kept_inside {c : UInt8} (hq : c ≠ quote) (hbs : c ≠ backslash) : Kept .inside [c] :=
  ⟨⟨not_ends (by decide) c, trivial⟩, (if_neg hq).trans (if_neg hbs)⟩

theorem kept_escape (c : UInt8) : Kept .inside [backslash, c] :=
  ⟨⟨not_ends (by decide) _, not_ends (show Mode.escaped ≠ .outside by decide) c, trivial⟩, rfl⟩

theorem Kept.enclosed (h : Kept .inside s) : Kept .outside (quote :: s ++ [quote]) := by
  constructor
  · rw [List.cons_append, Machine.AtEveryStep]
    refine ⟨by decide, ?_⟩
    change Machine.AtEveryStep _ _ Mode.inside (s ++ [quote])
    rw [Machine.atEveryStep_append, h.back]
    exact ⟨h.whole, by decide, trivial⟩
  · change Machine.run _ Mode.inside (s ++ [quote]) = Mode.outside
    rw [Machine.run_append, h.back]
    rfl

theorem splitFrom_append (h : Machine.AtEveryStep Mode.step (fun m c => ¬ Ends m c) m s)
    (field t : Bytes) :
    splitFrom m field (s ++ t) = splitFrom (Machine.run Mode.step m s) (field ++ s) t := by
  induction s generalizing m field with
  | nil => rw [List.append_nil]; rfl
  | cons c s ih =>
    rw [List.cons_append, splitFrom, if_neg h.1, ih h.2, List.append_assoc]
    rfl

end

/-- **Fields come back** from the line that joins them with spaces. -/
theorem split_intercalate {fs : List Bytes} (hne : fs ≠ []) (h : ∀ f ∈ fs, Kept .outside f) :
    split ([space].intercalate fs) = fs := by
  induction fs with
  | nil => exact (hne rfl).elim
  | cons f fs ih =>
    rw [List.forall_mem_cons] at h
    cases fs with
    | nil =>
      have hsplit := splitFrom_append h.1.whole [] []
      rw [List.append_nil, h.1.back] at hsplit
      rw [List.intercalate_singleton]
      exact hsplit
    | cons g fs =>
      rw [List.intercalate_cons_cons, List.append_assoc, split, splitFrom_append h.1.whole,
        h.1.back, List.nil_append, List.singleton_append, splitFrom, if_pos ⟨rfl, rfl⟩]
      exact congrArg (f :: ·) (ih (List.cons_ne_nil _ _) h.2)

theorem mem_intercalate {c : UInt8} {fs : List Bytes} (h : c ∈ [space].intercalate fs) :
    c = space ∨ ∃ f ∈ fs, c ∈ f := by
  induction fs with
  | nil => cases h
  | cons f fs ih =>
    cases fs with
    | nil => exact .inr ⟨f, List.mem_singleton_self _, by rwa [List.intercalate_singleton] at h⟩
    | cons g fs =>
      rw [List.intercalate_cons_cons, List.mem_append, List.mem_append, List.mem_singleton] at h
      rcases h with (hf | hc) | h
      · exact .inr ⟨f, List.mem_cons_self, hf⟩
      · exact .inl hc
      · exact (ih h).imp_right fun ⟨g, hg, hc⟩ => ⟨g, List.mem_cons_of_mem _ hg, hc⟩

/-! ## Escapes -/

/-- Undo escapes: `decode` says what a character behind a backslash stands for. -/
def unescape (decode : UInt8 → Option UInt8) : Bytes → Bytes
  | [] => []
  | [c] => [c]
  | c :: e :: s =>
    if c = backslash then
      match decode e with
      | some d => d :: unescape decode s
      | none => c :: unescape decode (e :: s)
    else c :: unescape decode (e :: s)

/-- What a field stands for: the text of its section, or the field as it is. -/
def unquote (decode : UInt8 → Option UInt8) (f : Bytes) : Bytes :=
  if f.head? = some quote then unescape decode f.tail.dropLast else f

section
variable {decode : UInt8 → Option UInt8} {c e : UInt8} {s : Bytes}

theorem unescape_cons (hc : c ≠ backslash) : unescape decode (c :: s) = c :: unescape decode s := by
  cases s with
  | nil => rfl
  | cons e s => rw [unescape, if_neg hc]

theorem unescape_pair (h : decode e = some c) :
    unescape decode (backslash :: e :: s) = c :: unescape decode s := by
  rw [unescape, if_pos rfl, h]

/-- Characters that are written as they are, or as the escape that stands for them. -/
theorem unescape_flatMap {enc : UInt8 → Bytes} (h : ∀ c ∈ s, c ≠ backslash ∧ enc c = [c] ∨
    ∃ e, enc c = [backslash, e] ∧ decode e = some c) : unescape decode (s.flatMap enc) = s := by
  induction s with
  | nil => rfl
  | cons c s ih =>
    rw [List.forall_mem_cons] at h
    rw [List.flatMap_cons]
    rcases h.1 with ⟨hc, henc⟩ | ⟨e, henc, he⟩
    · rw [henc, List.singleton_append, unescape_cons hc, ih h.2]
    · rw [henc]
      change unescape decode (backslash :: e :: s.flatMap enc) = _
      rw [unescape_pair he, ih h.2]

theorem unescape_of_notMem (h : backslash ∉ s) : unescape decode s = s := by
  induction s with
  | nil => rfl
  | cons c s ih =>
    rw [List.mem_cons, not_or] at h
    rw [unescape_cons (Ne.symm h.1), ih h.2]

theorem unquote_enclosed : unquote decode (quote :: s ++ [quote]) = unescape decode s := by
  rw [List.cons_append, unquote, List.head?_cons, if_pos rfl, List.tail_cons, List.dropLast_concat]

theorem unquote_bare (h : s.head? ≠ some quote) : unquote decode s = s :=
  if_neg h

end

end LineFields
