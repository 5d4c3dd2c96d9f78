import ZephyrSiot.Verify.InputFields

/-!
# The date sanitizer

`dateHelper` completes text (`dateHelper_reads`), and a month of one digit is padded. The texts of
ten characters that it makes are those of dates from 2000 on, of which `dateParser` does not take
all: no year before 2023, no month 0 and no day 0.
-/

namespace ZephyrSiot
open Elm ElmParser Sanitize Completion

/-! ## The sanitizer completes text -/

/-- The characters that may follow the text of a date so far. -/
def dateAccepts (sOut : List Char) (c : Char) : Prop :=
  match sOut.length with
  | 0 => c = '2'
  | 1 => c = '0'
  | 2 | 3 | 5 | 8 => IsDigit c
  | 4 | 7 => c = '-'
  | 6 => IsDigit c ∧ IsUpTo 12 (slice 5 7 (sOut ++ [c]))
  | 9 => IsDigit c ∧ IsUpTo 31 (slice 8 10 (sOut ++ [c]))
  | _ => False

/-- A dash behind a month of one digit has a 0 put in front of that digit. -/
def datePad (sOut : List Char) (c : Char) : Option (List Char) :=
  if sOut.length = 6 ∧ c = '-' then some (sOut.take 5 ++ '0' :: sOut.drop 5) else none

theorem dateHelper_reads (sIn sOut : List Char) :
    Reads dateAccepts datePad sIn sOut (dateHelper sIn sOut).2 := by
  cases sIn with
  | nil =>
    rw [dateHelper]
    exact .done
  | cons c rest =>
    have ih := dateHelper_reads rest (sOut ++ [c])
    have hpad (h : sOut.length ≠ 6) : datePad sOut c = none := if_neg fun hpad => h hpad.1
    rw [dateHelper]
    dsimp only
    -- The text has 0, 1, 2 and so on up to 9 characters.
    refine .branch (fun h => ?_) fun h0 => ?_
    · refine .branch (fun hc => ?_) fun hc => ?_
      · exact .stop (by simp [dateAccepts, h, hc]) (hpad (by omega))
      · obtain rfl := not_not.mp hc
        exact .ite (by simp only [dateAccepts, h]; decide) (hpad (by omega)) ih
    refine .branch (fun h => ?_) fun h1 => ?_
    · refine .branch (fun hc => ?_) fun hc => ?_
      · exact .stop (by simp [dateAccepts, h, hc]) (hpad (by omega))
      · obtain rfl := not_not.mp hc
        exact .ite (by simp only [dateAccepts, h]; decide) (hpad (by omega)) ih
    refine .branch (fun h => ?_) fun h2 => ?_
    · exact .ite (by simp [dateAccepts, h]) (hpad (by omega)) ih
    refine .branch (fun h => ?_) fun h3 => ?_
    · exact .ite (by simp [dateAccepts, h]) (hpad (by omega)) ih
    refine .branch (fun h => ?_) fun h4 => ?_
    · exact .ite (by simp [dateAccepts, h]) (hpad (by omega)) ih
    refine .branch (fun h => ?_) fun h5 => ?_
    · exact .ite (by simp [dateAccepts, h]) (hpad (by omega)) ih
    refine .branch (fun h => ?_) fun h6 => ?_
    · refine .branch (fun hc => ?_) fun hc => ?_
      · have hreads := dateHelper_reads (c :: rest) (sOut.take 5 ++ '0' :: sOut.drop 5)
        exact .pad (if_pos ⟨h, hc⟩) hreads
      · exact reads_number (by simp [dateAccepts, h]) (if_neg fun hpad => hc hpad.2) ih
    refine .branch (fun h => ?_) fun h7 => ?_
    · exact .ite (by simp [dateAccepts, h]) (hpad (by omega)) ih
    refine .branch (fun h => ?_) fun h8 => ?_
    · exact .ite (by simp [dateAccepts, h]) (hpad (by omega)) ih
    refine .branch (fun h => ?_) fun h9 => ?_
    · exact reads_number (by simp [dateAccepts, h]) (hpad (by omega)) ih
    exact .stop (by simp [dateAccepts]) (hpad h6)
termination_by 2 * sIn.length + (7 - sOut.length)
decreasing_by
  all_goals
    simp only [List.length_cons, List.length_append, List.length_nil, List.length_take,
      List.length_drop]
    omega

theorem date_reads (d : List Char) : Reads dateAccepts datePad d [] (date d) :=
  dateHelper_reads d []

theorem datePad_eq_some {sOut sOut' : List Char} {c : Char} (h : datePad sOut c = some sOut') :
    c = '-' ∧ ∃ y₀ y₁ y₂ y₃ e m, sOut = [y₀, y₁, y₂, y₃, e, m] ∧
      sOut' = [y₀, y₁, y₂, y₃, e, '0', m] := by
  unfold datePad at h
  split at h
  · next hpad =>
    match sOut, hpad.1 with
    | [y₀, y₁, y₂, y₃, e, m], _ =>
      exact ⟨hpad.2, y₀, y₁, y₂, y₃, e, m, rfl, (Option.some.inj h).symm⟩
  · contradiction

theorem datePad_eq_none {sOut : List Char} {c : Char} (h : dateAccepts sOut c) :
    datePad sOut c = none := by
  refine if_neg ?_
  rintro ⟨hlength, rfl⟩
  rw [dateAccepts, hlength] at h
  exact absurd h.1 (by decide)

section
variable {c₀ c₁ y₂ y₃ e₄ m₅ m₆ e₇ d₈ d₉ : Char}

theorem valid_front_iff : Valid dateAccepts [c₀, c₁, y₂, y₃, e₄, m₅] ↔
    c₀ = '2' ∧ c₁ = '0' ∧ IsDigit y₂ ∧ IsDigit y₃ ∧ e₄ = '-' ∧ IsDigit m₅ := by
  simp [valid_iff_continues, Continues, dateAccepts]

theorem valid_month_iff : Valid dateAccepts [c₀, c₁, y₂, y₃, e₄, m₅, m₆] ↔
    Valid dateAccepts [c₀, c₁, y₂, y₃, e₄, m₅] ∧ IsDigit m₆ ∧ IsUpTo 12 [m₅, m₆] := by
  simp [valid_iff_continues, Continues, dateAccepts, slice, and_assoc]

theorem continues_day_iff : Continues dateAccepts [c₀, c₁, y₂, y₃, e₄, m₅, m₆] [e₇, d₈, d₉] ↔
    e₇ = '-' ∧ IsDigit d₈ ∧ IsDigit d₉ ∧ IsUpTo 31 [d₈, d₉] := by
  simp [Continues, dateAccepts, slice]

theorem valid_date_iff : Valid dateAccepts [c₀, c₁, y₂, y₃, e₄, m₅, m₆, e₇, d₈, d₉] ↔
    Valid dateAccepts [c₀, c₁, y₂, y₃, e₄, m₅, m₆] ∧
      e₇ = '-' ∧ IsDigit d₈ ∧ IsDigit d₉ ∧ IsUpTo 31 [d₈, d₉] := by
  rw [← continues_day_iff, ← valid_append_iff]
  rfl

end

theorem valid_of_datePad {sOut sOut' : List Char} {c : Char} (h : Valid dateAccepts sOut)
    (hpad : datePad sOut c = some sOut') : Valid dateAccepts sOut' := by
  obtain ⟨-, y₀, y₁, y₂, y₃, e, m, rfl, rfl⟩ := datePad_eq_some hpad
  obtain ⟨h₀, h₁, h₂, h₃, he, hm⟩ := valid_front_iff.mp h
  have hfront : Valid dateAccepts [y₀, y₁, y₂, y₃, e, '0'] :=
    valid_front_iff.mpr ⟨h₀, h₁, h₂, h₃, he, by decide⟩
  exact valid_month_iff.mpr ⟨hfront, hm, isUpTo_leadingZero hm (by decide)⟩

theorem date_valid (d : List Char) : Valid dateAccepts (date d) := by
  refine (date_reads d).valid ?_ .nil
  intro sOut c sOut' h hpad
  exact valid_of_datePad h hpad

/-! ## Dates -/

/-- 20yy-mm-dd -/
def dateText (year month day : Nat) : List Char :=
  '2' :: '0' :: (two year ++ '-' :: (two month ++ '-' :: two day))

/-- 20yy-m-dd -/
def shortDateText (year month day : Nat) : List Char :=
  '2' :: '0' :: (two year ++ '-' :: Nat.digitChar month :: '-' :: two day)

theorem valid_length_ten {t : List Char} (h : Valid dateAccepts t) (hlength : t.length = 10) :
    ∃ year ≤ 99, ∃ month ≤ 12, ∃ day ≤ 31, t = dateText year month day := by
  match t, hlength with
  | [c₀, c₁, y₂, y₃, e₄, m₅, m₆, e₇, d₈, d₉], _ => ?_
  obtain ⟨hupToMonth, rfl, h₈, h₉⟩ := valid_date_iff.mp h
  obtain ⟨hfront, h₆⟩ := valid_month_iff.mp hupToMonth
  obtain ⟨rfl, rfl, h₂, h₃, rfl, h₅⟩ := valid_front_iff.mp hfront
  obtain ⟨year, hyear, hy⟩ := exists_two h₂ h₃
  obtain ⟨month, hmonth, hm⟩ := exists_two_le 12 h₅ h₆
  obtain ⟨day, hday, hd⟩ := exists_two_le 31 h₈ h₉
  refine ⟨year, by omega, month, hmonth, day, hday, ?_⟩
  rw [dateText, ← hy, ← hm, ← hd]
  rfl

section
variable {year month day : Nat}

theorem valid_front (hyear : year ≤ 99) {c : Char} (hc : IsDigit c) :
    Valid dateAccepts ('2' :: '0' :: (two year ++ ['-', c])) := by
  have htens := isDigit_digitChar (year / 10) (by omega)
  have hones := isDigit_digitChar (year % 10) (by omega)
  exact valid_front_iff.mpr ⟨rfl, rfl, htens, hones, rfl, hc⟩

theorem valid_dateText (hyear : year ≤ 99) (hmonth : month ≤ 12) (hday : day ≤ 31) :
    Valid dateAccepts (dateText year month day) := by
  have hdigits {n : Nat} (hn : n < 100) :
      IsDigit (Nat.digitChar (n / 10)) ∧ IsDigit (Nat.digitChar (n % 10)) :=
    ⟨isDigit_digitChar _ (by omega), isDigit_digitChar _ (by omega)⟩
  obtain ⟨h₅, h₆⟩ := hdigits (n := month) (by omega)
  obtain ⟨h₈, h₉⟩ := hdigits (n := day) (by omega)
  have hmonth' : IsUpTo 12 (two month) := (isUpTo_two (by omega)).mpr (by omega)
  have hday' : IsUpTo 31 (two day) := (isUpTo_two (by omega)).mpr (by omega)
  have hupToMonth := valid_month_iff.mpr ⟨valid_front hyear h₅, h₆, hmonth'⟩
  exact valid_date_iff.mpr ⟨hupToMonth, rfl, h₈, h₉, hday'⟩

theorem dateText_full (c : Char) : ¬ dateAccepts (dateText year month day) c ∧
    datePad (dateText year month day) c = none :=
  ⟨id, if_neg fun h => absurd h.1 (show (10 : Nat) ≠ 6 by decide)⟩

theorem date_of_dateText {rest : List Char} (hyear : year ≤ 99) (hmonth : month ≤ 12)
    (hday : day ≤ 31) : date (dateText year month day ++ rest) = dateText year month day := by
  have hreads := (date_reads (dateText year month day ++ rest)).of_continues
    (fun _ _ => datePad_eq_none) (valid_iff_continues.mp (valid_dateText hyear hmonth hday))
  exact hreads.eq_of_full dateText_full

theorem date_of_shortDateText {rest : List Char} (hyear : year ≤ 99) (hmonth : month ≤ 9)
    (hday : day ≤ 31) : date (shortDateText year month day ++ rest) = dateText year month day := by
  have hdisjoint (sOut : List Char) (c : Char) : dateAccepts sOut c → datePad sOut c = none :=
    datePad_eq_none
  let front := '2' :: '0' :: (two year ++ ['-', Nat.digitChar month])
  have htext : shortDateText year month day ++ rest = front ++ ('-' :: two day ++ rest) := rfl
  have hreads := date_reads (shortDateText year month day ++ rest)
  rw [htext] at hreads ⊢
  have hfront := hreads.of_continues hdisjoint
    (valid_iff_continues.mp (valid_front hyear (isDigit_digitChar month (by omega))))
  have hpad : datePad front '-' = some ('2' :: '0' :: (two year ++ '-' :: two month)) := by
    rw [two_of_lt (n := month) (by omega)]
    rfl
  have hdate : Valid dateAccepts
      ('2' :: '0' :: (two year ++ '-' :: two month) ++ '-' :: two day) :=
    valid_dateText hyear (Nat.le_trans hmonth (by decide)) hday
  have hday' := (hfront.of_pad hdisjoint hpad).of_continues hdisjoint (valid_append_iff.mp hdate).2
  exact hday'.eq_of_full dateText_full

/-- The input starts with the date, its month perhaps in one digit. -/
def StartsWithDate (d : List Char) (year month day : Nat) : Prop :=
  dateText year month day <+: d ∨ month ≤ 9 ∧ shortDateText year month day <+: d

/-- A date that is read off a text behind a padded month starts the text that was typed. -/
theorem shortDateText_of_padded {y₀ y₁ y₂ y₃ e m : Char} {rest : List Char} (hmonth : month ≤ 12)
    (h : dateText year month day <+: [y₀, y₁, y₂, y₃, e, '0', m] ++ '-' :: rest) :
    month ≤ 9 ∧ shortDateText year month day <+: [y₀, y₁, y₂, y₃, e, m] ++ '-' :: rest := by
  obtain ⟨tail, htail⟩ := h
  simp only [dateText, two, List.cons_append, List.nil_append, List.cons.injEq, true_and] at htail
  obtain ⟨rfl, rfl, rfl, rfl, rfl, hzero, rfl, rfl⟩ := htail
  have hsmall : ∀ n ≤ 12, Nat.digitChar (n / 10) = '0' → n ≤ 9 := by decide
  have hmonth' := hsmall month hmonth hzero
  refine ⟨hmonth', tail, ?_⟩
  rw [Nat.mod_eq_of_lt (a := month) (by omega)]
  rfl

theorem date_eq_dateText_iff {d : List Char} (hyear : year ≤ 99) (hmonth : month ≤ 12)
    (hday : day ≤ 31) : date d = dateText year month day ↔ StartsWithDate d year month day := by
  refine ⟨fun hdate => ?_, ?_⟩
  · obtain hread | ⟨t, c, rest, sOut, rfl, hpad, hreads⟩ := (date_reads d).isPrefix_or_pad
    · exact .inl (by rwa [hdate] at hread)
    obtain ⟨rfl, y₀, y₁, y₂, y₃, e, m, ht, rfl⟩ := datePad_eq_some hpad
    obtain rfl : t = _ := ht
    rw [hdate] at hreads
    obtain hread | ⟨t, c, rest', sOut, -, hpad, -⟩ := hreads.isPrefix_or_pad
    · exact .inr (shortDateText_of_padded hmonth hread)
    -- A month of two digits is not padded again.
    · obtain ⟨-, _, _, _, _, _, _, ht, -⟩ := datePad_eq_some hpad
      simp at ht
  · rintro (⟨rest, rfl⟩ | ⟨hshort, rest, rfl⟩)
    · exact date_of_dateText hyear hmonth hday
    · exact date_of_shortDateText hyear hshort hday

/-! ## What the parser takes -/

variable {E : ElmParser} {s : List Char}

/-- The parser of dates, up to the month. -/
def upToMonth (E : ElmParser) : E.Parser (Unit → Unit) :=
  E.ignore (E.ignore (E.succeed id) (inRange E 2023 2099 "year is out of range"
    (E.oneOf [E.backtrackable (altIntParser E), E.int]))) (E.symbol "-")

/-- The parser of dates, up to the day. -/
def upToDay (E : ElmParser) : E.Parser (Unit → Unit) :=
  E.ignore (E.ignore (upToMonth E) (twoDigits E "month must be 2 digits"
    (inRange E 1 12 "month is not in range" (E.oneOf [altIntParser E, E.int])))) (E.symbol "-")

theorem dateParser_eq (E : ElmParser) : dateParser E =
    E.getChompedString (E.ignore (upToDay E) (twoDigits E "day must be 2 digits"
      (inRange E 1 31 "day is not in range" (E.oneOf [altIntParser E, E.int])))) := rfl

theorem takes_dash (hE : E.Lawful) (s : List Char) : E.Takes (E.symbol "-") ('-' :: s) () s :=
  .symbol hE (by decide) s

theorem endsInt_dash (s : List Char) : EndsInt ('-' :: s) := .cons (by decide) s

theorem takes_year (hE : E.Lawful) (hyear : year ≤ 99) (hs : EndsInt s) :
    E.Takes (E.oneOf [E.backtrackable (altIntParser E), E.int]) ('2' :: '0' :: (two year ++ s))
      (2000 + year : Nat) s := by
  have hvalue : ∀ n ≤ 99, decimalValue ('2' :: '0' :: two n) = 2000 + n := by decide
  have hdigits : ∀ c ∈ '2' :: '0' :: two year, IsDigit c := by
    have := isDigit_two (n := year) (by omega)
    simp only [List.forall_mem_cons]
    exact ⟨by decide, by decide, this⟩
  have hds : IsIntText ('2' :: '0' :: two year) := .inr ⟨List.cons_ne_nil _ _, by simp, hdigits⟩
  have hread := ((readsLeadingZero_altIntParser hE).backtrackable hE).takes_int hE hds (by simp) hs
  rwa [hvalue year hyear] at hread

theorem takes_upToMonth (hE : E.Lawful) (hyear : 23 ≤ year ∧ year ≤ 99) (s : List Char) :
    E.Takes (upToMonth E) ('2' :: '0' :: (two year ++ '-' :: s)) id s := by
  have hread := takes_year hE hyear.2 (endsInt_dash s)
  refine .ignore hE (.ignore hE (.succeed hE id _) (takes_inRange hE hread ?_)) (takes_dash hE s)
  omega

theorem refuses_upToMonth (hE : E.Lawful) (hyear : year < 23) (s : List Char) :
    E.Refuses (upToMonth E) ('2' :: '0' :: (two year ++ '-' :: s)) := by
  have hread := takes_year hE (Nat.le_trans (Nat.le_of_lt hyear) (by decide)) (endsInt_dash s)
  refine .ignore hE (.ignore_of_takes hE (.succeed hE id _) (refuses_inRange hE hread ?_)) _
  omega

theorem takes_upToDay (hE : E.Lawful) (hyear : 23 ≤ year ∧ year ≤ 99)
    (hmonth : 1 ≤ month ∧ month ≤ 12) (s : List Char) :
    E.Takes (upToDay E) ('2' :: '0' :: (two year ++ '-' :: (two month ++ '-' :: s))) id s := by
  have hread := takes_upToMonth hE hyear (two month ++ '-' :: s)
  refine .ignore hE (.ignore hE hread ?_ (w := two month)) (takes_dash hE s)
  exact takes_field hE (by omega) (endsInt_dash s) (by omega)

theorem refuses_upToDay (hE : E.Lawful) (hyear : year ≤ 99) (h : year < 23 ∨ month = 0)
    (s : List Char) :
    E.Refuses (upToDay E) ('2' :: '0' :: (two year ++ '-' :: (two month ++ '-' :: s))) := by
  refine .ignore hE ?_ _
  by_cases hlow : year < 23
  · exact .ignore hE (refuses_upToMonth hE hlow _) _
  · have hread := takes_upToMonth hE ⟨Nat.not_lt.mp hlow, hyear⟩ (two month ++ '-' :: s)
    refine .ignore_of_takes hE hread (refuses_field hE ?_ (endsInt_dash s) ?_)
    all_goals omega

theorem parseDate_of_takes (hE : E.Lawful) (hyear : 23 ≤ year ∧ year ≤ 99)
    (hmonth : 1 ≤ month ∧ month ≤ 12) (hday : 1 ≤ day ∧ day ≤ 31) :
    parseDate E (dateText year month day) = some (dateText year month day) := by
  have hread : E.Takes (dateParser E) (dateText year month day ++ []) (dateText year month day)
      [] := by
    rw [dateParser_eq]
    refine .getChompedString hE (v := id) ?_
    refine .ignore hE (takes_upToDay hE hyear hmonth (two day)) (w := two day) ?_
    exact takes_field hE (n := day) (by omega) .nil (by omega)
  rw [List.append_nil] at hread
  exact hread.run hE

theorem parseDate_of_refuses (hE : E.Lawful) (hyear : year ≤ 99) (hmonth : month ≤ 12)
    (h : year < 23 ∨ month = 0 ∨ day = 0) : parseDate E (dateText year month day) = none := by
  refine Refuses.run hE ?_
  rw [dateParser_eq]
  refine .getChompedString hE ?_
  by_cases hlow : year < 23 ∨ month = 0
  · exact .ignore hE (refuses_upToDay hE hyear hlow (two day)) _
  · have hyear' : 23 ≤ year ∧ year ≤ 99 := by omega
    have hmonth' : 1 ≤ month ∧ month ≤ 12 := by omega
    have hread := takes_upToDay hE hyear' hmonth' (two day)
    refine .ignore_of_takes hE hread (refuses_field hE (n := day) (by omega) .nil (by omega))

end

/-! ## Real dates -/

/-- What the sanitizer completes, the parser takes. -/
def CompletesRealDate (E : ElmParser) (d : List Char) : Prop :=
  (date d).length = 10 → parseDate E (date d) = some (date d)

/-- **The date sanitizer completes only real dates** exactly when the input does not start with a
date in a year before 2023, in month 0 or with day 0. -/
theorem completesRealDate_iff {E : ElmParser} (hE : E.Lawful) (d : List Char) :
    CompletesRealDate E d ↔ ¬ ∃ year ≤ 99, ∃ month ≤ 12, ∃ day ≤ 31,
      (year < 23 ∨ month = 0 ∨ day = 0) ∧ StartsWithDate d year month day := by
  constructor
  · rintro h ⟨year, hyear, month, hmonth, day, hday, hbad, hstarts⟩
    have hdate := (date_eq_dateText_iff hyear hmonth hday).mpr hstarts
    have htaken := h (by rw [hdate]; rfl)
    rw [hdate, parseDate_of_refuses hE hyear hmonth hbad] at htaken
    contradiction
  · intro h hlength
    obtain ⟨year, hyear, month, hmonth, day, hday, hdate⟩ := valid_length_ten (date_valid d) hlength
    have hgood : ¬ (year < 23 ∨ month = 0 ∨ day = 0) := by
      intro hbad
      have hstarts := (date_eq_dateText_iff hyear hmonth hday).mp hdate
      exact h ⟨year, hyear, month, hmonth, day, hday, hbad, hstarts⟩
    rw [hdate]
    exact parseDate_of_takes hE (by omega) (by omega) (by omega)

theorem completesRealDate_iff_reference :
    ¬ ∃ year ≤ 99, ∃ month ≤ 12, ∃ day ≤ 31, (year < 23 ∨ month = 0 ∨ day = 0) ∧
      StartsWithDate "2023-6-01".toList year month day := by
  refine (completesRealDate_iff lawful_reference "2023-6-01".toList).mp fun _ => ?_
  decide +kernel

theorem not_completesRealDate_2000 : ¬ CompletesRealDate .reference "2000-01-01".toList := by
  have hdate : date "2000-01-01".toList = "2000-01-01".toList := by decide +kernel
  intro h
  have htaken := h (by rw [hdate]; rfl)
  rw [hdate] at htaken
  revert htaken
  decide +kernel

end ZephyrSiot
