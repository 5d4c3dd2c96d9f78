import ZephyrSiot.Theory.ElmParser

/-!
# Sanitized input

`apps/siot-net/frontend/src/UI/Sanitize.elm`: the texts that the page makes of what is typed for a
number, a time and a date, and the parsers that read times and dates. A string is the list of its
characters.
-/

namespace ZephyrSiot

namespace Sanitize
open Elm

/-! ## The number -/

/-- The state is "incoming string", then "output". -/
def floatHelper (sIn sOut : List Char) : List Char × List Char :=
  match sIn with
  | c :: rest =>
    if (sOut.length = 0 ∧ c = '-') ∨ IsDigit c ∨ (c = '.' ∧ ¬ sOut.contains '.') then
      floatHelper rest (sOut ++ [c])
    else (c :: rest, sOut)
  | [] => ([], sOut)

def float (input : List Char) : List Char := (floatHelper input []).2

/-! ## The time -/

/-- The state is that of `floatHelper`. -/
def timeHelper (sIn sOut : List Char) : List Char × List Char :=
  match sIn with
  | c :: rest =>
    let checkDigit := if IsDigit c then timeHelper rest (sOut ++ [c]) else ([], sOut)
    if sOut.length = 0 then checkDigit
    else if sOut.length = 1 then
      -- "add a leading digit and try again"
      if c = ':' then timeHelper (c :: rest) ('0' :: sOut)
      else if IsDigit c then
        let sOutNew := sOut ++ [c]
        match toInt (slice 0 2 sOutNew) with
        | some hr => if hr > 23 then ([], sOut) else timeHelper rest sOutNew
        | none => ([], sOut)
      else ([], sOut)
    else if sOut.length = 2 then
      if c = ':' then timeHelper rest (sOut ++ [c]) else ([], sOut)
    else if sOut.length = 3 then checkDigit
    else if sOut.length = 4 then
      if IsDigit c then
        let sOutNew := sOut ++ [c]
        match toInt (slice 3 5 sOutNew) with
        | some hr => if hr > 59 then ([], sOut) else timeHelper rest sOutNew
        | none => ([], sOut)
      else ([], sOut)
    else ([], sOut)
  -- "we are done"
  | [] => ([], sOut)
termination_by 2 * sIn.length + (2 - sOut.length)
decreasing_by all_goals simp only [List.length_cons, List.length_append, List.length_nil]; omega

def time (t : List Char) : List Char := (timeHelper t []).2

/-! ## The date -/

def dateHelper (sIn sOut : List Char) : List Char × List Char :=
  match sIn with
  | c :: rest =>
    let checkDigit := if IsDigit c then dateHelper rest (sOut ++ [c]) else ([], sOut)
    if sOut.length = 0 then if c ≠ '2' then ([], sOut) else checkDigit
    else if sOut.length = 1 then if c ≠ '0' then ([], sOut) else checkDigit
    else if sOut.length = 2 then checkDigit
    else if sOut.length = 3 then checkDigit
    else if sOut.length = 4 then
      if c = '-' then dateHelper rest (sOut ++ [c]) else ([], sOut)
    else if sOut.length = 5 then checkDigit
    else if sOut.length = 6 then
      if c = '-' then dateHelper (c :: rest) (sOut.take 5 ++ '0' :: sOut.drop 5)
      else if IsDigit c then
        let sOutNew := sOut ++ [c]
        match toInt (slice 5 7 sOutNew) with
        | some mo => if mo > 12 then ([], sOut) else dateHelper rest sOutNew
        | none => ([], sOut)
      else ([], sOut)
    else if sOut.length = 7 then
      if c = '-' then dateHelper rest (sOut ++ [c]) else ([], sOut)
    else if sOut.length = 8 then checkDigit
    else if sOut.length = 9 then
      if IsDigit c then
        let sOutNew := sOut ++ [c]
        match toInt (slice 8 10 sOutNew) with
        | some day => if day > 31 then ([], sOut) else dateHelper rest sOutNew
        | none => ([], sOut)
      else ([], sOut)
    else ([], sOut)
  -- "we are done"
  | [] => ([], sOut)
termination_by 2 * sIn.length + (7 - sOut.length)
decreasing_by
  all_goals
    simp only [List.length_cons, List.length_append, List.length_nil, List.length_take,
      List.length_drop]
    omega

def date (d : List Char) : List Char := (dateHelper d []).2

variable (E : ElmParser)

/-! ## Reading a time and a date -/

def altIntParser : E.Parser Int := E.andThen (fun _ => E.int) (E.symbol "0")

/-- A number that is not in its range is a problem. -/
def inRange (lo hi : Int) (message : String) (p : E.Parser Int) : E.Parser Int :=
  E.andThen (fun v => if v < lo ∨ v > hi then E.problem message else E.succeed v) p

/-- The characters of a number, of which there have to be two. -/
def twoDigits (message : String) (p : E.Parser Int) : E.Parser (List Char) :=
  E.andThen (fun s => if s.length ≠ 2 then E.problem message else E.succeed s)
    (E.getChompedString p)

def hmParser : E.Parser (List Char) :=
  let hour := inRange E 0 23 "hour is out of range"
    (E.oneOf [E.backtrackable (altIntParser E), E.int])
  let minute := twoDigits E "minute must be 2 digits"
    (inRange E 0 59 "minute is not in range" (E.oneOf [altIntParser E, E.int]))
  E.getChompedString
    (E.ignore (E.ignore (E.ignore (E.succeed (id : Unit → Unit)) hour) (E.symbol ":")) minute)

def parseHM (t : List Char) : Option (List Char) := (E.run (hmParser E) t).toOption

def dateParser : E.Parser (List Char) :=
  let year := inRange E 2023 2099 "year is out of range"
    (E.oneOf [E.backtrackable (altIntParser E), E.int])
  let month := twoDigits E "month must be 2 digits"
    (inRange E 1 12 "month is not in range" (E.oneOf [altIntParser E, E.int]))
  let day := twoDigits E "day must be 2 digits"
    (inRange E 1 31 "day is not in range" (E.oneOf [altIntParser E, E.int]))
  E.getChompedString
    (E.ignore (E.ignore (E.ignore (E.ignore (E.ignore (E.succeed (id : Unit → Unit)) year)
      (E.symbol "-")) month) (E.symbol "-")) day)

def parseDate (d : List Char) : Option (List Char) := (E.run (dateParser E) d).toOption

end Sanitize

end ZephyrSiot
