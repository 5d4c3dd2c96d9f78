import ZephyrSiot.Theory.CString
import Mathlib.Data.Rat.Floor

/-!
# Numbers as text

`lib/siot-string.c`: the conversions between numbers and text that the codecs use in place of
`printf` and `scanf`. An `int` is an integer in the 32-bit range, and the operations that can
leave it wrap (`wrap32`). The float conversions are written over the `float` operations
they use (`CFloat`), to be run on IEEE single precision or read as exact arithmetic.
-/

namespace ZephyrSiot
open CStr

/-- Two's complement 32-bit arithmetic. -/
def wrap32 (v : Int) : Int := v.bmod (2 ^ 32)

/-- The digit characters `0`-`9`, then `a`-`z`. -/
def digitChar (rem : Int) : UInt8 := .ofInt (if rem > 9 then rem - 10 + 97 else rem + 48)

/-- `c - '0'` -/
def digitVal (c : UInt8) : Int := (c.toNat : Int) - 48

/-! ## Integers -/

/-- `reverse` on the first `length` bytes, which are all of `str`. -/
def reverse (str : Bytes) : Bytes := str.reverse

/-- The loop of `reverse`: the bytes at `start` and `last` change places. -/
def reverse.loop (str : Bytes) (start last : Nat) : Bytes :=
  if start < last then
    loop ((str.set start (str.getD last 0)).set last (str.getD start 0)) (start + 1) (last - 1)
  else str
termination_by last - start

/-- The digit loop of `itoa` and `utoa64`: the digits of `num`, least significant first. The
division truncates and the remainder has the sign of `num`, as in C. An `int` and a `uint64_t`
have at most 64 digits in any base from 2 on, which is what `fuel` allows for. -/
def digitLoop (base : Int) : (fuel : Nat) → Int → Bytes
  | 0, _ => []
  | fuel + 1, num =>
    if num = 0 then [] else digitChar (num.tmod base) :: digitLoop base fuel (num.tdiv base)

/-- The digit loop, started at `num`, stops at `0` and has written `str`. -/
inductive digitLoop.Writes (base : Int) : (num : Int) → (str : Bytes) → Prop
  | stop : Writes base 0 []
  | digit {num : Int} {str : Bytes} : num ≠ 0 → Writes base (num.tdiv base) str →
    Writes base num (digitChar (num.tmod base) :: str)

def itoa (num : Int) (base : Int) : Bytes :=
  if num = 0 then lit "0"
  else if num < 0 ∧ base = 10 then reverse (digitLoop base 64 (wrap32 (-num)) ++ lit "-")
  else reverse (digitLoop base 64 num)

def utoa64 (num : UInt64) (base : Int) : Bytes :=
  if num = 0 then lit "0" else reverse (digitLoop base 64 num.toNat)

def atoi.loop : Bytes → Int → Int
  | [], result => result
  | c :: str, result =>
    if c = 0 then result
    else if IsDigit c then loop str (wrap32 (result * 10 + digitVal c)) else result

def atoi : Bytes → Int
  | 0x2d :: str => wrap32 (-1 * atoi.loop str 0)
  | str => wrap32 (1 * atoi.loop str 0)

def atou64.loop : Bytes → UInt64 → UInt64
  | [], result => result
  | c :: str, result =>
    if c = 0 then result
    else if IsDigit c then loop str (result * 10 + (c - 48).toUInt64) else result

def atou64 : Bytes → UInt64
  | 0x2d :: _ => 0
  | str => atou64.loop str 0

/-! ## Floats -/

/-- The `float` operations and constants of `ftoa` and `atof`. -/
class CFloat (F : Type) extends Add F, Sub F, Mul F, Div F, Neg F where
  ofInt : Int → F
  /-- The cast `(int)`, truncating toward zero. -/
  toInt : F → Int
  isNeg : F → Bool
  half : F
  tenth : F

instance : CFloat Float32 where
  ofInt := .ofInt
  toInt x := x.toInt32.toInt
  isNeg x := x < 0
  half := 0.5
  tenth := 0.1

/-- The operations read as exact rational arithmetic. -/
instance : CFloat ℚ where
  ofInt n := n
  toInt x := x.num.tdiv x.den
  isNeg x := x < 0
  half := 1 / 2
  tenth := 1 / 10

section
variable {F : Type} [CFloat F]
open CFloat

/-- `rounding_factor`, divided by ten `precision` times. -/
def ftoa.roundingFactor : Nat → F
  | 0 => half
  | precision + 1 => roundingFactor precision / ofInt 10

/-- The fraction loop: `precision` digits. -/
def ftoa.fractionDigits : Nat → F → List Int
  | 0, _ => []
  | precision + 1, fraction =>
    let fraction := fraction * ofInt 10
    let digit := toInt fraction
    digit :: fractionDigits precision (fraction - ofInt digit)

/-- `i = last_non_zero`: the digits up to the last one that is not `0`. -/
def ftoa.truncateZeros (digits : List Int) : List Int :=
  (digits.reverse.dropWhile (· = 0)).reverse

/-- The whole part, written while `temp > 0`. A non-negative `int` has at most ten digits. -/
def ftoa.wholeDigits (whole : Int) : Bytes :=
  if whole = 0 then lit "0" else if whole > 0 then reverse (digitLoop 10 64 whole) else []

def ftoa (num : F) (precision : Nat) : Bytes :=
  let sign := if isNeg num then lit "-" else []
  let num := if isNeg num then -num else num
  let num := num + ftoa.roundingFactor precision
  let whole := toInt num
  let fraction := num - ofInt whole
  let str := sign ++ ftoa.wholeDigits whole
  let str := if precision > 0 then
      str ++ lit "." ++ (ftoa.truncateZeros (ftoa.fractionDigits precision fraction)).map fun d =>
        .ofInt (d + 48)
    else str
  -- "Remove decimal point if it's the last character"
  if str.getLast? = some 0x2e then str.dropLast else str

/-- The loop of `atof`: `fraction` is the place value of the next digit once a point was read. -/
def atof.loop : Bytes → (result fraction : F) → (inFraction : Bool) → F
  | [], result, _, _ => result
  | c :: str, result, fraction, inFraction =>
    if c = 0 then result
    else if IsDigit c then
      if inFraction then
        loop str (result + ofInt (digitVal c) * fraction) (fraction * tenth) inFraction
      else loop str (result * ofInt 10 + ofInt (digitVal c)) fraction inFraction
    else if c = 0x2e then
      if inFraction then result else loop str result fraction true
    else result

def atof (F : Type) [CFloat F] : Bytes → F
  | 0x2d :: str => ofInt (-1) * atof.loop str (ofInt 0) tenth false
  | str => ofInt 1 * atof.loop str (ofInt 0) tenth false

/-- The loop of `atof` with its index `i`: where in the text it stops, and `result`. -/
def atof.scan : Bytes → (i : Nat) → (result fraction : F) → (inFraction : Bool) → Nat × F
  | [], i, result, _, _ => (i, result)
  | c :: str, i, result, fraction, inFraction =>
    if c = 0 then (i, result)
    else if IsDigit c then
      if inFraction then
        scan str (i + 1) (result + ofInt (digitVal c) * fraction) (fraction * tenth) inFraction
      else scan str (i + 1) (result * ofInt 10 + ofInt (digitVal c)) fraction inFraction
    else if c = 0x2e then
      if inFraction then (i, result) else scan str (i + 1) result fraction true
    else (i, result)

/-- `atof` with the index at which it stops. -/
def atof.run (F : Type) [CFloat F] : Bytes → Nat × F
  | 0x2d :: str => (scan str 1 (ofInt 0) tenth false).map id (ofInt (-1) * ·)
  | str => (scan str 0 (ofInt 0) tenth false).map id (ofInt 1 * ·)

theorem atof.scan_snd (str : Bytes) (i : Nat) (result fraction : F) (inFraction : Bool) :
    (scan str i result fraction inFraction).2 = loop str result fraction inFraction := by
  fun_induction scan str i result fraction inFraction <;> simp_all [loop]

theorem atof.run_snd (F : Type) [CFloat F] (str : Bytes) : (run F str).2 = atof F str := by
  unfold run atof
  split
  · exact congrArg (ofInt (-1) * ·) (scan_snd _ _ _ _ _)
  · exact congrArg (ofInt 1 * ·) (scan_snd _ _ _ _ _)

end

end ZephyrSiot
