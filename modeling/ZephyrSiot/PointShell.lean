import ZephyrSiot.PointJson
import ZephyrSiot.Timeconv

/-!
# Points on the shell

`quote_field` and `point_emit` of `lib/point-cache.c`, which report a point as a line on the
console, and `handle_sendpoint` of `lib/point.c`, the `p` command that publishes a point. Zephyr's
shell, which splits a command line into arguments, is not part of this repository.
-/

namespace ZephyrSiot
open CStr

/-! ## Reports -/

/-- The first loop of `quote_field`: a string that cannot be emitted bare. -/
def NeedsQuote (src : Bytes) : Prop :=
  src = [] ∨ ∃ c ∈ src, c = space ∨ c = quote ∨ c = backslash ∨ c = tab ∨ c = cr ∨ c = lf ∨
    IsControl c

instance : DecidablePred NeedsQuote := fun _ => inferInstanceAs (Decidable (_ ∨ _))

/-- The switch of the second loop, `0` for a character that needs no escape. -/
def quoteField.esc (c : UInt8) : UInt8 :=
  if c = quote then quote
  else if c = backslash then backslash
  else if c = cr then 0x72
  else if c = lf then 0x6e
  else if c = tab then 0x74
  else 0

/-- The loop that copies from `di` on: whether the string fits, and what is stored. -/
def quoteField.bare (dstLen : Nat) : Bytes → (di : Nat) → Bool × Bytes
  | [], _ => (true, [])
  | c :: src, di =>
    if di + 1 ≥ dstLen then (false, [])
    else
      let (fits, run) := bare dstLen src (di + 1)
      (fits, c :: run)

/-- The loop that escapes from `di` on: whether the string fits, and what is stored. -/
def quoteField.quoted (dstLen : Nat) : Bytes → (di : Nat) → Bool × Bytes
  | [], _ => (true, [])
  | c :: src, di =>
    if esc c ≠ 0 then
      if di + 2 ≥ dstLen then (false, [])
      else
        let (fits, run) := quoted dstLen src (di + 2)
        (fits, backslash :: esc c :: run)
    else if di + 1 ≥ dstLen then (false, [])
    else
      let (fits, run) := quoted dstLen src (di + 1)
      (fits, c :: run)

/-- The result, and the run stored at `dst`. -/
def quoteField (src : Bytes) (dstLen : Nat) : Int × Bytes :=
  let src := cstr src
  if ¬ NeedsQuote src then
    let (fits, run) := quoteField.bare dstLen src 0
    if fits then (run.length, run ++ [nul]) else (-1, run)
  else if 0 + 1 ≥ dstLen then (-1, [])
  else
    let (fits, run) := quoteField.quoted dstLen src 1
    if ¬ fits then (-1, quote :: run)
    else if 1 + run.length + 2 > dstLen - 1 then (-1, quote :: run)
    else (run.length + 2, quote :: run ++ [quote, nul])

/-- `return (int)di`: the result as an `int`. -/
def quoteField.ret (src : Bytes) (dstLen : Nat) : Int := wrap32 (quoteField src dstLen).1

/-- The line that is printed, if any. `sh` says whether there is a shell to print to. -/
def pointEmit (sh : Bool) (p : Point) : Option Bytes :=
  if ¬ sh then none
  else if InvalidDataType p.dataType then none
  else
    let dt :=
      if p.dataType = pointDataTypeFloat then pointDataTypeFloatS
      else if p.dataType = pointDataTypeInt then pointDataTypeIntS
      else if p.dataType = pointDataTypeString then pointDataTypeStringS
      else pointDataTypeJsonS
    let (ret, raw) := p.dataToString 21
    if ret ≠ 0 then none
    else
      let (dataRet, dataQ) := quoteField raw 45
      let (typeRet, typeQ) := quoteField p.type.bytes 51
      let (keyRet, keyQ) := quoteField p.key.bytes 49
      -- "point does not fit in the emit buffer"
      if dataRet < 0 ∨ typeRet < 0 ∨ keyRet < 0 then none
      else
        let line := lit "pt " ++ cstr typeQ ++ [space] ++ cstr keyQ ++ [space] ++ dt ++ [space] ++
          cstr dataQ
        if p.time ≥ pointTimeMin then
          let (timeRet, timeBuf) := timeconvRfc3339FromEpochNsUtc p.time rfc3339MaxLen
          if timeRet = 0 then some (line ++ [space] ++ cstr timeBuf) else some line
        -- "ignoring implausible timestamp"
        else some line

/-! ## Commands -/

/-- The result, and the point that is published, if any. -/
def handleSendpoint (timegm : Tm → Int) (argv : List Bytes) : Int × Option Point :=
  if argv.length < 5 then (-1, none)
  else
    let arg (i : Nat) : Bytes := argv.getD i []
    let js : PointJs := ⟨some (arg 1), some (arg 2), some (arg 3), cstr (arg 4)⟩
    let (ret, p) := pointJsToPoint js .zero
    if ret ≠ 0 then (-1, none)
    else if argv.length ≥ 6 then
      let t := timeconvEpochNsFromRfc3339 timegm (arg 5) (cstr (arg 5)).length
      if t = 0 then (-1, none) else (0, some { p with time := t })
    else (0, some p)

/-- The point that the words of a command stand for, without its time. -/
def commandPoint (argv : List Bytes) : Point :=
  let dataType := dataTypeOfCode (argv.getD 3 [])
  ⟨0, copyStrField (.zero 24) (argv.getD 1 []), copyStrField (.zero 23) (argv.getD 2 []), dataType,
    (CharArray.zero 20).poke 0 (decodedRun dataType (cstr (argv.getD 4 [])))⟩

theorem handleSendpoint_eq (timegm : Tm → Int) {argv : List Bytes} (h : 5 ≤ argv.length) :
    handleSendpoint timegm argv =
      if (commandPoint argv).dataType = pointDataTypeUnknown then (-1, none)
      else if argv.length ≥ 6 then
        let time := argv.getD 5 []
        let t := timeconvEpochNsFromRfc3339 timegm time (cstr time).length
        if t = 0 then (-1, none) else (0, some { commandPoint argv with time := t })
      else (0, some (commandPoint argv)) := by
  rw [handleSendpoint, if_neg (Nat.not_lt.mpr h)]
  dsimp only
  rw [pointJsToPoint_some]
  dsimp only
  rcases Classical.em (dataTypeOfCode (argv.getD 3 []) = pointDataTypeUnknown) with hdt | hdt
  · rw [if_pos hdt]
    exact (if_pos (by decide)).trans (if_pos hdt).symm
  · rw [if_neg hdt]
    exact (if_neg (by decide)).trans (if_neg hdt).symm

end ZephyrSiot
