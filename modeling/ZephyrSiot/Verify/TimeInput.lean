import ZephyrSiot.Verify.InputFields

/-!
# The time sanitizer

`timeHelper` completes text (`timeHelper_reads`): which characters it accepts depends on how long the
text is, and an hour of one digit is padded. What it makes of an input is therefore valid, and a
valid text of five characters is a time that `hmParser` takes.
-/

namespace ZephyrSiot
open Elm ElmParser Sanitize Completion

/-! ## The sanitizer completes text -/

/-- The characters that may follow the text of a time so far. -/
def timeAccepts (sOut : List Char) (c : Char) : Prop :=
  match sOut.length with
  | 0 => IsDigit c
  | 1 => IsDigit c ∧ IsUpTo 23 (slice 0 2 (sOut ++ [c]))
  | 2 => c = ':'
  | 3 => IsDigit c
  | 4 => IsDigit c ∧ IsUpTo 59 (slice 3 5 (sOut ++ [c]))
  | _ => False

/-- A colon behind an hour of one digit has a 0 put in front of it. -/
def timePad (sOut : List Char) (c : Char) : Option (List Char) :=
  if sOut.length = 1 ∧ c = ':' then some ('0' :: sOut) else none

theorem timeHelper_reads (sIn sOut : List Char) :
    Reads timeAccepts timePad sIn sOut (timeHelper sIn sOut).2 := by
  cases sIn with
  | nil =>
    rw [timeHelper]
    exact .done
  | cons c rest =>
    have ih := timeHelper_reads rest (sOut ++ [c])
    rw [timeHelper]
    dsimp only
    -- The text has 0, 1, 2, 3 or 4 characters.
    refine .branch (fun h => ?_) fun h0 => ?_
    · exact .ite (by simp [timeAccepts, h]) (by simp [timePad, h]) ih
    refine .branch (fun h => ?_) fun h1 => ?_
    · refine .branch (fun hc => ?_) fun hc => ?_
      · have hreads := timeHelper_reads (c :: rest) ('0' :: sOut)
        exact .pad (if_pos ⟨h, hc⟩) hreads
      · exact reads_number (by simp [timeAccepts, h]) (if_neg fun hpad => hc hpad.2) ih
    refine .branch (fun h => ?_) fun h2 => ?_
    · exact .ite (by simp [timeAccepts, h]) (by simp [timePad, h]) ih
    refine .branch (fun h => ?_) fun h3 => ?_
    · exact .ite (by simp [timeAccepts, h]) (by simp [timePad, h]) ih
    refine .branch (fun h => ?_) fun h4 => ?_
    · exact reads_number (by simp [timeAccepts, h]) (by simp [timePad, h]) ih
    exact .stop (by simp [timeAccepts]) (if_neg fun hpad => h1 hpad.1)
termination_by 2 * sIn.length + (2 - sOut.length)
decreasing_by all_goals simp only [List.length_cons, List.length_append, List.length_nil]; omega

theorem time_reads (t : List Char) : Reads timeAccepts timePad t [] (time t) :=
  timeHelper_reads t []

theorem length_lt_of_timeAccepts {sOut : List Char} {c : Char} (h : timeAccepts sOut c) :
    sOut.length < 5 := by
  unfold timeAccepts at h
  split at h
  all_goals first | omega | exact h.elim

theorem timePad_eq_some {sOut sOut' : List Char} {c : Char} (h : timePad sOut c = some sOut') :
    c = ':' ∧ ∃ a, sOut = [a] ∧ sOut' = ['0', a] := by
  unfold timePad at h
  split at h
  · next hpad =>
    obtain ⟨a, rfl⟩ := List.length_eq_one_iff.mp hpad.1
    exact ⟨hpad.2, a, rfl, (Option.some.inj h).symm⟩
  · contradiction

theorem timePad_eq_none {sOut : List Char} {c : Char} (h : timeAccepts sOut c) :
    timePad sOut c = none := by
  refine if_neg ?_
  rintro ⟨hlength, rfl⟩
  rw [timeAccepts, hlength] at h
  exact absurd h.1 (by decide)

theorem valid_of_timePad {sOut sOut' : List Char} {c : Char} (h : Valid timeAccepts sOut)
    (hpad : timePad sOut c = some sOut') : Valid timeAccepts sOut' := by
  obtain ⟨-, a, rfl, rfl⟩ := timePad_eq_some hpad
  have ha : IsDigit a := (valid_iff_continues.mp h).1
  have hzero : timeAccepts [] '0' := show IsDigit '0' by decide
  have hdigit : timeAccepts ['0'] a := ⟨ha, isUpTo_leadingZero ha (by decide)⟩
  exact .snoc (.snoc .nil hzero) hdigit

theorem time_valid (t : List Char) : Valid timeAccepts (time t) := by
  refine (time_reads t).valid ?_ .nil
  intro sOut c sOut' h hpad
  exact valid_of_timePad h hpad

/-- The times hh:mm, and nothing longer. -/
theorem length_le_of_valid {t : List Char} (h : Valid timeAccepts t) : t.length ≤ 5 := by
  cases h with
  | nil => exact Nat.zero_le _
  | snoc _ haccepts =>
    rw [List.length_append]
    exact length_lt_of_timeAccepts haccepts

/-- hh:mm -/
def timeText (hour minute : Nat) : List Char := two hour ++ ':' :: two minute

theorem valid_length_five {t : List Char} (h : Valid timeAccepts t) (hlength : t.length = 5) :
    ∃ hour ≤ 23, ∃ minute ≤ 59, t = timeText hour minute := by
  match t, hlength with
  | [a, b, c, d, e], _ => ?_
  obtain ⟨ha, hb, hc, hd, he, -⟩ := valid_iff_continues.mp h
  obtain ⟨hour, hhour, hab⟩ := exists_two_le 23 ha hb
  obtain ⟨minute, hminute, hde⟩ := exists_two_le 59 hd he
  refine ⟨hour, hhour, minute, hminute, ?_⟩
  rw [timeText, ← hab, ← hde, hc]
  rfl

/-! ## The parser takes it -/

theorem parseHM_timeText {E : ElmParser} (hE : E.Lawful) {hour minute : Nat} (hhour : hour ≤ 23)
    (hminute : minute ≤ 59) :
    parseHM E (timeText hour minute) = some (timeText hour minute) := by
  have hcolon : EndsInt (':' :: two minute) := .cons (by decide) _
  have hzero := (readsLeadingZero_altIntParser hE).backtrackable hE
  have hreadHour := hzero.takes_two hE (n := hour) (by omega) hcolon
  have hreadColon : E.Takes (E.symbol ":") (':' :: two minute) () (two minute) :=
    .symbol hE (by decide) _
  have hread : E.Takes (hmParser E) (timeText hour minute ++ []) (timeText hour minute) [] := by
    refine .getChompedString hE (v := id) ?_
    refine .ignore hE (w := two minute) (.ignore hE ?_ hreadColon) ?_
    · exact .ignore hE (.succeed hE id _) (takes_inRange hE hreadHour (by omega))
    · exact takes_field hE (n := minute) (by omega) .nil (by omega)
  rw [List.append_nil] at hread
  exact hread.run hE

/-! ## The time -/

theorem time_isPrefix (t : List Char) : time t <+: t ∨ time t <+: '0' :: t := by
  obtain hread | ⟨t', c, rest, sOut, rfl, hpad, hreads⟩ := (time_reads t).isPrefix_or_pad
  · exact .inl hread
  · obtain ⟨rfl, a, rfl, rfl⟩ := timePad_eq_some hpad
    obtain hread | ⟨t', c, rest', sOut, -, hpad, -⟩ := hreads.isPrefix_or_pad
    · exact .inr hread
    -- A text of two characters or more is not padded again.
    · obtain ⟨-, a', ha', -⟩ := timePad_eq_some hpad
      simp at ha'

theorem time_time (t : List Char) : time (time t) = time t := by
  refine (time_reads (time t)).eq_of_valid ?_ (time_valid t)
  intro sOut c h
  exact timePad_eq_none h

/-- **The time sanitizer is a projection onto times**: what it makes of a text is short, is what
was typed or that behind a 0, is not changed again, and when it is whole it is a time of the day,
which the parser of the page takes as it is. -/
theorem time_projects {E : ElmParser} (hE : E.Lawful) (t : List Char) :
    (time t).length ≤ 5 ∧ (time t <+: t ∨ time t <+: '0' :: t) ∧ time (time t) = time t ∧
      ((time t).length = 5 →
        (∃ hour ≤ 23, ∃ minute ≤ 59, time t = timeText hour minute) ∧
          parseHM E (time t) = some (time t)) := by
  refine ⟨length_le_of_valid (time_valid t), time_isPrefix t, time_time t, fun hlength => ?_⟩
  obtain ⟨hour, hhour, minute, hminute, htext⟩ := valid_length_five (time_valid t) hlength
  refine ⟨⟨hour, hhour, minute, hminute, htext⟩, ?_⟩
  rw [htext]
  exact parseHM_timeText hE hhour hminute

theorem time_projects_reference :
    parseHM reference (time "7:450".toList) = some (time "7:450".toList) := by
  have hlength : (time "7:450".toList).length = 5 := by decide +kernel
  exact ((time_projects lawful_reference "7:450".toList).2.2.2 hlength).2

end ZephyrSiot
