import Mathlib.Data.List.Induction

/-!
# Completing text as it is typed

A text is built up from an input, character by character. A character that the text so far accepts
is added to it. A character may instead have the text padded, and is read again then. Any other ends
the reading. A text is valid when every character of it was accepted by what is in front of it.
-/

namespace Completion

variable {α : Type*} {accepts : List α → α → Prop} {pad : List α → α → Option (List α)}
variable {input out result t : List α} {c : α}

inductive Valid (accepts : List α → α → Prop) : List α → Prop
  | nil : Valid accepts []
  | snoc {out : List α} {c : α} : Valid accepts out → accepts out c → Valid accepts (out ++ [c])

/-- Each character of a text is accepted behind `out` and what is in front of it. -/
def Continues (accepts : List α → α → Prop) : (out t : List α) → Prop
  | _, [] => True
  | out, c :: t => accepts out c ∧ Continues accepts (out ++ [c]) t

/-- Reading `input` behind the text `out` ends with the text `result`. -/
inductive Reads (accepts : List α → α → Prop) (pad : List α → α → Option (List α)) :
    (input out result : List α) → Prop
  | done {out : List α} : Reads accepts pad [] out out
  | accept {c : α} {input out result : List α} : accepts out c →
    Reads accepts pad input (out ++ [c]) result → Reads accepts pad (c :: input) out result
  | pad {c : α} {input out out' result : List α} : pad out c = some out' →
    Reads accepts pad (c :: input) out' result → Reads accepts pad (c :: input) out result
  | stop {c : α} {input out : List α} : ¬ accepts out c → pad out c = none →
    Reads accepts pad (c :: input) out out

/-- The check of one character, as a branch. -/
theorem Reads.ite {P : Prop} [Decidable P] {next : List α × List α} {rest : List α}
    (haccepts : accepts out c ↔ P) (hpad : pad out c = none)
    (h : Reads accepts pad input (out ++ [c]) next.2) :
    Reads accepts pad (c :: input) out (if P then next else (rest, out)).2 := by
  split
  · next hP => exact .accept (haccepts.mpr hP) h
  · next hP => exact .stop (mt haccepts.mp hP) hpad

/-- A branch that the character need not decide. -/
theorem Reads.branch {P : Prop} [Decidable P] {next next' : List α × List α}
    (h : P → Reads accepts pad input out next.2) (h' : ¬ P → Reads accepts pad input out next'.2) :
    Reads accepts pad input out (if P then next else next').2 := by
  split
  · next hP => exact h hP
  · next hP => exact h' hP

theorem valid_snoc_iff : Valid accepts (out ++ [c]) ↔ Valid accepts out ∧ accepts out c := by
  refine ⟨fun h => ?_, fun h => .snoc h.1 h.2⟩
  generalize hout : out ++ [c] = t at h
  cases h with
  | nil => simp at hout
  | snoc hvalid haccepts =>
    obtain ⟨rfl, hc⟩ := List.append_inj' hout rfl
    obtain rfl := (List.cons.inj hc).1
    exact ⟨hvalid, haccepts⟩

theorem valid_append_iff :
    Valid accepts (out ++ t) ↔ Valid accepts out ∧ Continues accepts out t := by
  induction t generalizing out with
  | nil => simp [Continues]
  | cons c t ih => rw [List.append_cons, ih, valid_snoc_iff, and_assoc, Continues]

theorem valid_iff_continues : Valid accepts t ↔ Continues accepts [] t :=
  valid_append_iff.trans (and_iff_right .nil)

theorem Reads.valid
    (hpad : ∀ out c out', Valid accepts out → pad out c = some out' → Valid accepts out')
    (h : Reads accepts pad input out result) (hvalid : Valid accepts out) :
    Valid accepts result := by
  induction h with
  | done => exact hvalid
  | accept haccepts _ ih => exact ih (.snoc hvalid haccepts)
  | pad hout _ ih => exact ih (hpad _ _ _ hvalid hout)
  | stop => exact hvalid

/-- What is read is the front of the input, unless the text was padded. -/
theorem Reads.isPrefix_or_pad (h : Reads accepts pad input out result) :
    result <+: out ++ input ∨ ∃ t c u out', input = t ++ c :: u ∧ pad (out ++ t) c = some out' ∧
      Reads accepts pad (c :: u) out' result := by
  induction h with
  | done => exact .inl (List.prefix_append _ _)
  | @accept c input out _ _ _ ih =>
    rw [List.append_cons]
    obtain hread | ⟨t, c', u, out', rfl, hout, hreads⟩ := ih
    · exact .inl hread
    · rw [List.append_assoc] at hout
      exact .inr ⟨c :: t, c', u, out', rfl, hout, hreads⟩
  | @pad c input out out' _ hout hreads _ =>
    rw [← List.append_nil out] at hout
    exact .inr ⟨[], c, input, out', rfl, hout, hreads⟩
  | stop => exact .inl (List.prefix_append _ _)

/-- A continuation is read to its end. -/
theorem Reads.of_continues (hdisjoint : ∀ out c, accepts out c → pad out c = none)
    (h : Reads accepts pad (t ++ input) out result) (ht : Continues accepts out t) :
    Reads accepts pad input (out ++ t) result := by
  induction t generalizing out with
  | nil => rwa [List.append_nil]
  | cons c t ih =>
    rw [List.append_cons]
    refine ih ?_ ht.2
    cases h with
    | accept _ hreads => exact hreads
    | pad hout _ => simp [hdisjoint out c ht.1] at hout
    | stop hnot _ => exact (hnot ht.1).elim

theorem Reads.of_pad (hdisjoint : ∀ out c, accepts out c → pad out c = none)
    (h : Reads accepts pad (c :: input) out result) (hout : pad out c = some t) :
    Reads accepts pad (c :: input) t result := by
  cases h with
  | accept haccepts _ => simp [hdisjoint out c haccepts] at hout
  | pad hout' hreads =>
    obtain rfl := Option.some.inj (hout.symm.trans hout')
    exact hreads
  | stop _ hout' => simp [hout'] at hout

theorem Reads.eq_of_full (h : Reads accepts pad input out result)
    (hfull : ∀ c, ¬ accepts out c ∧ pad out c = none) : result = out := by
  cases h with
  | @accept c _ _ _ haccepts _ => exact ((hfull c).1 haccepts).elim
  | @pad c _ _ _ _ hout _ => simp [(hfull c).2] at hout
  | done | stop => rfl

/-- A valid text is read as it is. -/
theorem Reads.eq_of_valid (hdisjoint : ∀ out c, accepts out c → pad out c = none)
    (h : Reads accepts pad t [] result) (hvalid : Valid accepts t) : result = t := by
  have hend : Reads accepts pad [] ([] ++ t) result :=
    .of_continues hdisjoint (by rwa [List.append_nil]) (valid_iff_continues.mp hvalid)
  cases hend
  rfl

/-! ## Texts that are never padded -/

/-- The longest text in front of `s` that has a property. -/
structure LongestPrefix (P : List α → Prop) (s t : List α) : Prop where
  isPrefix : t <+: s
  holds : P t
  longest {u : List α} : u <+: s → P u → u.length ≤ t.length

section
variable {P : List α → Prop} {s : List α}

theorem LongestPrefix.nil (h : P []) : LongestPrefix P [] [] where
  isPrefix := List.prefix_rfl
  holds := h
  longest hu _ := hu.length_le

/-- No element of a list can be taken. -/
theorem LongestPrefix.stop (h : P []) (hnot : ∀ u, ¬ P (c :: u)) : LongestPrefix P (c :: s) [] where
  isPrefix := List.nil_prefix
  holds := h
  longest {u} hu hP := by
    cases u with
    | nil => exact Nat.le_refl _
    | cons d u =>
      obtain ⟨rfl, -⟩ := List.cons_prefix_cons.mp hu
      exact (hnot u hP).elim

/-- The first element of a list can be taken. -/
theorem LongestPrefix.cons (h : LongestPrefix (fun u => P (c :: u)) s t) :
    LongestPrefix P (c :: s) (c :: t) where
  isPrefix := List.cons_prefix_cons.mpr ⟨rfl, h.isPrefix⟩
  holds := h.holds
  longest {u} hu hP := by
    cases u with
    | nil => exact Nat.zero_le _
    | cons d u =>
      obtain ⟨rfl, hu'⟩ := List.cons_prefix_cons.mp hu
      exact Nat.succ_le_succ (h.longest hu' hP)

end

theorem LongestPrefix.congr {P Q : List α → Prop} {s : List α} (h : LongestPrefix P s t)
    (hPQ : ∀ t, P t ↔ Q t) : LongestPrefix Q s t where
  isPrefix := h.isPrefix
  holds := (hPQ t).mp h.holds
  longest hu hQ := h.longest hu ((hPQ _).mpr hQ)

theorem Reads.isPrefix (h : Reads accepts pad input out result)
    (hnone : ∀ out c, pad out c = none) : out <+: result := by
  induction h with
  | done => exact List.prefix_rfl
  | accept _ _ ih => exact (List.prefix_append _ _).trans ih
  | pad hout _ _ => simp [hnone] at hout
  | stop => exact List.prefix_rfl

/-- What is read is the longest valid text in front of the input. -/
theorem Reads.longestPrefix (h : Reads accepts pad input [] result)
    (hnone : ∀ out c, pad out c = none) : LongestPrefix (Valid accepts) input result where
  isPrefix := by
    obtain hread | ⟨t, c, u, out', -, hpad, -⟩ := h.isPrefix_or_pad
    · exact hread
    · simp [hnone] at hpad
  holds := by
    refine h.valid (fun out c out' _ hpad => ?_) .nil
    simp [hnone] at hpad
  longest := by
    rintro u ⟨s, rfl⟩ hvalid
    have hreads : Reads accepts pad s u result :=
      h.of_continues (fun out c _ => hnone out c) (valid_iff_continues.mp hvalid)
    exact (hreads.isPrefix hnone).length_le

end Completion
