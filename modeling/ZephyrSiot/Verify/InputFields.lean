import ZephyrSiot.Sanitize
import ZephyrSiot.Theory.Completion

/-!
# Fields of two digits

The number that two digits stand for, as it is checked while it is typed and as the parsers read it.
-/

namespace ZephyrSiot
open Elm ElmParser Sanitize Completion

/-! ## Two digits -/

/-- A number in two digits. -/
def two (n : Nat) : List Char := [Nat.digitChar (n / 10), Nat.digitChar (n % 10)]

theorem exists_digitChar {c : Char} (h : IsDigit c) : ∃ n < 10, c = Nat.digitChar n := by
  have hlow : 48 ≤ c.toNat := h.1
  have hhigh : c.toNat ≤ 57 := h.2
  have hall : ∀ n ≤ 57, 48 ≤ n → Char.ofNat n = Nat.digitChar (n - 48) := by decide
  refine ⟨c.toNat - 48, by omega, ?_⟩
  rw [← hall _ hhigh hlow, Char.ofNat_toNat]

theorem exists_two {a b : Char} (ha : IsDigit a) (hb : IsDigit b) : ∃ n < 100, [a, b] = two n := by
  obtain ⟨m, hm, rfl⟩ := exists_digitChar ha
  obtain ⟨n, hn, rfl⟩ := exists_digitChar hb
  refine ⟨10 * m + n, by omega, ?_⟩
  rw [two, show (10 * m + n) / 10 = m by omega, show (10 * m + n) % 10 = n by omega]

theorem isDigit_digitChar : ∀ n < 10, IsDigit (Nat.digitChar n) := by decide

theorem isDigit_two {n : Nat} (hn : n < 100) : ∀ c ∈ two n, IsDigit c := by
  have htens := isDigit_digitChar (n / 10) (by omega)
  have hones := isDigit_digitChar (n % 10) (by omega)
  simp only [two, List.forall_mem_cons]
  exact ⟨htens, hones, fun c hc => absurd hc List.not_mem_nil⟩

theorem toInt_two : ∀ n < 100, toInt (two n) = some (n : Int) := by decide

theorem decimalValue_two : ∀ n < 100, decimalValue (two n) = n := by decide

theorem isIntText_digitChar {n : Nat} (hn : n < 10) : IsIntText [Nat.digitChar n] := by
  by_cases h : Nat.digitChar n = '0'
  · exact .inl (by rw [h])
  · exact .inr ⟨List.cons_ne_nil _ _, by simpa using h, by simpa using isDigit_digitChar n hn⟩

theorem decimalValue_digitChar : ∀ n < 10, decimalValue [Nat.digitChar n] = n := by decide

theorem head_two_ne_zero : ∀ n < 100, 10 ≤ n → (two n).head? ≠ some '0' := by decide

theorem two_of_lt {n : Nat} (hn : n < 10) : two n = '0' :: [Nat.digitChar n] := by
  rw [two, Nat.div_eq_of_lt hn, Nat.mod_eq_of_lt hn]
  rfl

/-! ## The check of a number that is typed -/

def IsUpTo (max : Int) (t : List Char) : Prop := ∃ n ∈ toInt t, n ≤ max

theorem isUpTo_two {max : Int} {n : Nat} (hn : n < 100) : IsUpTo max (two n) ↔ n ≤ max := by
  simp [IsUpTo, toInt_two n hn]

theorem isUpTo_leadingZero {max : Int} {a : Char} (ha : IsDigit a) (hmax : 9 ≤ max) :
    IsUpTo max ['0', a] := by
  obtain ⟨n, hn, rfl⟩ := exists_digitChar ha
  rw [← two_of_lt hn, isUpTo_two (by omega)]
  omega

theorem exists_two_le (max : Nat) {a b : Char} (ha : IsDigit a)
    (hb : IsDigit b ∧ IsUpTo max [a, b]) : ∃ n ≤ max, [a, b] = two n := by
  obtain ⟨n, hn, hab⟩ := exists_two ha hb.1
  have hupTo := hb.2
  rw [hab, isUpTo_two hn] at hupTo
  exact ⟨n, by omega, hab⟩

theorem reads_number {accepts : List Char → Char → Prop}
    {pad : List Char → Char → Option (List Char)} {input sOut t : List Char} {c : Char} {max : Int}
    {next : List Char × List Char} (haccepts : accepts sOut c ↔ IsDigit c ∧ IsUpTo max t)
    (hpad : pad sOut c = none) (h : Reads accepts pad input (sOut ++ [c]) next.2) :
    Reads accepts pad (c :: input) sOut
      (if IsDigit c then
        match toInt t with
        | some n => if n > max then ([], sOut) else next
        | none => ([], sOut)
      else ([], sOut)).2 := by
  split
  · next hdigit =>
    cases hn : toInt t with
    | none => exact .stop (by simp [haccepts, IsUpTo, hn]) hpad
    | some n =>
      have haccepts' : accepts sOut c ↔ ¬ n > max := by
        rw [haccepts, and_iff_right hdigit]
        simp [IsUpTo, hn]
      dsimp only
      split
      · next hmax => exact .stop (by simp [haccepts', hmax]) hpad
      · next hmax => exact .accept (haccepts'.mpr hmax) h
  · next hdigit => exact .stop (by simp [haccepts, hdigit]) hpad

/-! ## Reading a number -/

section
variable {E : ElmParser} {p : E.Parser Int} {s s' : List Char} {n : Nat}

/-- A parser for the numbers that start with 0. -/
structure ReadsLeadingZero (E : ElmParser) (p : E.Parser Int) : Prop where
  takes {n : Nat} {s : List Char} : n < 10 → EndsInt s → E.Takes p (two n ++ s) n s
  passes {s : List Char} : s.head? ≠ some '0' → E.Passes p s

theorem readsLeadingZero_altIntParser (hE : E.Lawful) :
    ReadsLeadingZero E (altIntParser E) where
  takes {n s} hn hs := by
    have hint := Takes.int hE (isIntText_digitChar hn) hs
    rw [decimalValue_digitChar n hn] at hint
    rw [two_of_lt hn]
    exact (Takes.symbol hE (by decide) _).andThen hE hint
  passes {s} h := by
    refine (Passes.symbol hE (by decide) ?_).andThen hE
    rintro ⟨t, rfl⟩
    exact h rfl

theorem ReadsLeadingZero.backtrackable (hE : E.Lawful) (h : ReadsLeadingZero E p) :
    ReadsLeadingZero E (E.backtrackable p) where
  takes hn hs := (h.takes hn hs).backtrackable hE
  passes hs := (h.passes hs).backtrackable hE

theorem ReadsLeadingZero.takes_int (hE : E.Lawful) (h : ReadsLeadingZero E p) {ds : List Char}
    (hds : IsIntText ds) (hzero : ds.head? ≠ some '0') (hs : EndsInt s) :
    E.Takes (E.oneOf [p, E.int]) (ds ++ s) (decimalValue ds) s := by
  have hhead : (ds ++ s).head? ≠ some '0' := by
    rcases hds with rfl | ⟨hne, -⟩
    · exact (hzero rfl).elim
    · rwa [List.head?_append_of_ne_nil _ hne]
  exact .oneOf_tail hE (h.passes hhead) (.oneOf_head hE (.int hE hds hs) [])

theorem ReadsLeadingZero.takes_two (hE : E.Lawful) (h : ReadsLeadingZero E p) (hn : n < 100)
    (hs : EndsInt s) : E.Takes (E.oneOf [p, E.int]) (two n ++ s) n s := by
  by_cases hn' : n < 10
  · exact .oneOf_head hE (h.takes hn' hs) _
  · have hzero := head_two_ne_zero n hn (by omega)
    have hds : IsIntText (two n) := .inr ⟨List.cons_ne_nil _ _, hzero, isDigit_two hn⟩
    have hint := h.takes_int hE hds hzero hs
    rwa [decimalValue_two n hn] at hint

/-! ## Fields -/

theorem takes_inRange (hE : E.Lawful) {p : E.Parser Int} {n lo hi : Int} {message : String}
    (h : E.Takes p s n s') (hn : lo ≤ n ∧ n ≤ hi) : E.Takes (inRange E lo hi message p) s n s' := by
  refine h.andThen hE ?_
  rw [if_neg (by omega)]
  exact .succeed hE n s'

theorem refuses_inRange (hE : E.Lawful) {p : E.Parser Int} {n lo hi : Int} {message : String}
    (h : E.Takes p s n s') (hn : n < lo ∨ n > hi) : E.Refuses (inRange E lo hi message p) s := by
  refine .andThen_of_takes hE h ?_
  rw [if_pos hn]
  exact .problem hE message s'

theorem takes_twoDigits (hE : E.Lawful) {p : E.Parser Int} {n : Int} {message : String}
    {t : List Char} (ht : t.length = 2) (h : E.Takes p (t ++ s) n s) :
    E.Takes (twoDigits E message p) (t ++ s) t s := by
  refine (h.getChompedString hE).andThen hE ?_
  rw [if_neg (not_not_intro ht)]
  exact .succeed hE t s

theorem takes_field (hE : E.Lawful) {lo hi : Int} {message message' : String} (hn : n < 100)
    (hs : EndsInt s) (hrange : lo ≤ n ∧ n ≤ hi) :
    E.Takes (twoDigits E message (inRange E lo hi message' (E.oneOf [altIntParser E, E.int])))
      (two n ++ s) (two n) s := by
  have hread := (readsLeadingZero_altIntParser hE).takes_two hE hn hs
  exact takes_twoDigits hE rfl (takes_inRange hE hread hrange)

theorem refuses_field (hE : E.Lawful) {lo hi : Int} {message message' : String} (hn : n < 100)
    (hs : EndsInt s) (hrange : n < lo ∨ n > hi) :
    E.Refuses (twoDigits E message (inRange E lo hi message' (E.oneOf [altIntParser E, E.int])))
      (two n ++ s) := by
  have hread := (readsLeadingZero_altIntParser hE).takes_two hE hn hs
  exact .andThen hE ((refuses_inRange hE hread hrange).getChompedString hE)

end

end ZephyrSiot
