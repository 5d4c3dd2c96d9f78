import ZephyrSiot.Theory.FormText

/-!
# Form data

`lib/html.c`: a string is decoded into memory of its own, and a form is split into pairs at whose
halves a callback is called. Allocations succeed.
-/

namespace ZephyrSiot
open CStr FormText

/-- The value of a digit for which `isxdigit` holds, by subtracting. -/
def urlDecode.digit (a : UInt8) : UInt8 :=
  let a := if a ≥ 0x61 then a - (0x61 - 0x41) else a
  if a ≥ 0x41 then a - (0x41 - 10) else a - 0x30

/-- What is written for the memory that `src` points to, `none` when a read leaves that memory. The
two characters behind a `%` are read one after the other, the second only when the first is no
NUL. -/
def urlDecode : (src : Bytes) → Option Bytes
  | [] => none
  | c :: src =>
    let copied := (urlDecode src).map (c :: ·)
    if c = 0 then some [nul]
    else if c = percent then
      match src with
      | [] => none
      | a :: src =>
        if a = 0 then copied
        else
          match src with
          | [] => none
          | b :: src =>
            if b ≠ 0 ∧ IsHex a ∧ IsHex b then
              (urlDecode src).map ((16 * urlDecode.digit a + urlDecode.digit b) :: ·)
            else copied
    else if c = plus then (urlDecode src).map (space :: ·)
    else copied

/-- The second `strtok_r` on a pair, and `value ? value : ""`. -/
def htmlParseFormData.value (saved : Bytes) : Bytes :=
  match strtok equals saved with
  | some (value, _) => value
  | none => []

/-- The loop over the pairs: the calls of `callback` with key and decoded value. There are at most
as many pairs as characters, which is what `fuel` allows for. -/
def htmlParseFormData.loop : (fuel : Nat) → (rest : Bytes) → Option (List (Bytes × Bytes))
  | 0, _ => some []
  | fuel + 1, rest =>
    match strtok ampersand rest with
    | none => some []
    | some (keyValue, rest) =>
      match strtok equals keyValue with
      | none => loop fuel rest
      | some (key, saved) =>
        match urlDecode (value saved ++ [nul]), loop fuel rest with
        | some decodedValue, some calls => some ((key, cstr decodedValue) :: calls)
        | _, _ => none

def htmlParseFormData (body : Bytes) : Option (List (Bytes × Bytes)) :=
  let formData := cstr body
  htmlParseFormData.loop (formData.length + 1) formData

end ZephyrSiot
