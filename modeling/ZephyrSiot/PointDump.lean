import ZephyrSiot.PointJson

/-!
# Describing points for the log

`point_dump` and `points_dump` of `lib/point.c` print into a buffer with `snprintf`, and carry
`offset` and `remaining` as `int`s from one call to the next. What they write is a log of
stores relative to `buf`. The `int`s are integers: to overflow one takes a text of 2 GiB. A
length becomes an `int`, and an `int` a length, as on the 32-bit targets. The macros of `point.h` describe
points for the log so, in a buffer on the stack of the thread that they are used in.
-/

namespace ZephyrSiot
open CStr

/-- The bytes that `snprintf(dst, size, ...)` stores for the text it renders: the text cut to the
size and its terminator. -/
def snprintf (size : UInt32) (text : Bytes) : Bytes :=
  if size = 0 then [] else text.take (size.toNat - 1) ++ [nul]

structure DumpResult where
  ret : Int
  /-- The stores: the offset from `buf` and the bytes. -/
  stores : List (Int × Bytes)

structure DumpState where
  offset : Int
  remaining : Int
  stores : List (Int × Bytes)

/-- `cnt = snprintf(buf + offset, remaining, ...); offset += cnt; remaining -= cnt;` -/
def DumpState.print (s : DumpState) (text : Bytes) : DumpState where
  offset := s.offset + text.length
  remaining := s.remaining - text.length
  stores := s.stores ++ [(s.offset, snprintf (.ofInt s.remaining) text)]

section
-- what `%f` renders for a `float` given by its bit pattern
variable (formatFloat : UInt32 → Bytes)

/-- The text of the second `snprintf`. -/
def Point.keyText (p : Point) : Bytes :=
  if p.key.str.length > 0 then lit "." ++ p.key.str ++ lit ": " else lit ": "

/-- The text of the third `snprintf`. -/
def Point.valueText (p : Point) : Bytes :=
  if p.dataType = pointDataTypeInt then lit "INT: " ++ lit (toString p.getInt)
  else if p.dataType = pointDataTypeFloat then lit "FLT: " ++ formatFloat p.getFloat
  else if p.dataType = pointDataTypeString then lit "STR: " ++ p.data.str
  else if p.dataType = pointDataTypeUnknown then lit "unknown point type"
  else lit "invalid point type"

def pointDump (p : Point) (len : UInt32) : DumpResult :=
  let remaining := wrap32 (len.toNat - 1)
  -- "Buffer is too small, recommend 40 characters"
  if remaining ≤ 0 then ⟨-1, []⟩
  else
    let s : DumpState := ⟨0, remaining, []⟩
    let s := s.print p.type.str
    let s := s.print p.keyText
    let s := s.print (p.valueText formatFloat)
    ⟨s.offset, s.stores⟩

/-- The loop of `points_dump`. -/
def pointsDump.loop : List Point → DumpState → DumpState
  | [], s => s
  | p :: pts, s =>
    if p.type.first ≠ 0 then
      if s.remaining < 6 then s
      else
        let stores := s.stores ++ [(s.offset, strncpy (lit "\r\n\t- ") s.remaining.toNat)]
        let offset := s.offset + 5
        let remaining := s.remaining - 5
        let r := pointDump formatFloat p (.ofInt remaining)
        loop pts ⟨offset + r.ret, remaining - r.ret,
          stores ++ r.stores.map fun st => (offset + st.1, st.2)⟩
    else loop pts s

def pointsDump (pts : List Point) (bufLen : UInt32) : DumpResult :=
  if bufLen.toNat ≤ 0 then ⟨-enomem, []⟩
  else
    let s := pointsDump.loop formatFloat pts ⟨0, wrap32 (bufLen.toNat - 1), [(0, [nul])]⟩
    ⟨s.offset, s.stores⟩

end

/-! ## Describing points for the log -/

/-- Every byte stored lies in `buf[0..len)`. -/
def InBounds (len : Int) (stores : List (Int × Bytes)) : Prop :=
  ∀ st ∈ stores, st.2 ≠ [] → 0 ≤ st.1 ∧ st.1 + st.2.length ≤ len

instance (len : Int) (stores : List (Int × Bytes)) : Decidable (InBounds len stores) :=
  inferInstanceAs (Decidable (∀ st ∈ stores, _))

/-- A description in a `char buf[]` of the stack: its size and the stores, given what `%f` renders. -/
structure LogDump where
  size : Nat
  stores : (UInt32 → Bytes) → List (Int × Bytes)

/-- `LOG_DBG_POINT`. -/
def logDbgPoint (p : Point) : LogDump := ⟨40, fun formatFloat => (pointDump formatFloat p 40).stores⟩

/-- `LOG_DBG_POINTS`. -/
def logDbgPoints (pts : List Point) : LogDump :=
  ⟨128, fun formatFloat => (pointsDump formatFloat pts 128).stores⟩

/-- Nothing is stored past the buffer, after which the code does not do what the model does. -/
def LogDump.Fits (formatFloat : UInt32 → Bytes) (d : LogDump) : Prop :=
  InBounds d.size (d.stores formatFloat)

instance (formatFloat : UInt32 → Bytes) : DecidablePred (LogDump.Fits formatFloat) := fun d =>
  inferInstanceAs (Decidable (InBounds d.size (d.stores formatFloat)))

/-! ## What is stored -/

@[simp] theorem length_snprintf (size : UInt32) (text : Bytes) :
    (snprintf size text).length = min size.toNat (text.length + 1) := by
  rw [snprintf]
  split
  · next h => subst h; simp
  · next h =>
    have : size.toNat ≠ 0 := fun e => h (UInt32.toNat_inj.mp e)
    simp only [List.length_append, List.length_take, List.length_singleton]
    omega

/-- A non-negative `int` is that length. -/
theorem toNat_ofInt32 {v : Int} (h0 : 0 ≤ v) (h : v < 2 ^ 32) :
    ((UInt32.ofInt v).toNat : Int) = v := by
  rw [UInt32.ofInt, UInt32.toNat_ofNat']
  omega

/-- A negative `int` is a huge length. -/
theorem toNat_ofInt32_neg {v : Int} (h0 : v < 0) (h : -2 ^ 31 ≤ v) :
    2 ^ 31 ≤ (UInt32.ofInt v).toNat := by
  rw [UInt32.ofInt, UInt32.toNat_ofNat']
  omega

end ZephyrSiot
