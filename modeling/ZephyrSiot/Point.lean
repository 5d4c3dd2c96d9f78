import ZephyrSiot.Theory.CString

/-!
# Points

The `point` struct of `include/point.h` and the setters and getters of `lib/point.c`. A point is
the unit of configuration and sensor data: everything the firmware publishes, caches, persists
or shows is one of these 80 bytes.

All supported targets are little-endian, so an `int` or a `float` kept in `data` is the
four bytes `le32` of its two's complement or IEEE bit pattern.
-/

namespace ZephyrSiot
open CStr

/-! ## Data types -/

abbrev pointDataTypeUnknown : UInt8 := 0
abbrev pointDataTypeFloat : UInt8 := 1
abbrev pointDataTypeInt : UInt8 := 2
abbrev pointDataTypeString : UInt8 := 3
abbrev pointDataTypeJson : UInt8 := 4
abbrev pointDataTypeEnd : UInt8 := 5

/-! The three letter codes used in JSON packets and on shell lines. -/

def pointDataTypeFloatS : Bytes := lit "FLT"
def pointDataTypeIntS : Bytes := lit "INT"
def pointDataTypeStringS : Bytes := lit "STR"
def pointDataTypeJsonS : Bytes := lit "JSN"

/-- The check that the encoder, the merge and the emitter make on a stored point. -/
abbrev InvalidDataType (t : UInt8) : Prop := t = pointDataTypeUnknown ∨ t ≥ pointDataTypeEnd

/-- 2020-01-01T00:00:00Z: a smaller time is an uninitialized struct, not a timestamp. -/
def pointTimeMin : UInt64 := 1577836800000000000

/-! Error numbers, returned negated. -/

def enomem : Int := 12
def einval : Int := 22
def enospc : Int := 28

def pointTypeBootCount : Bytes := lit "bootCount"

/-! ## The struct -/

structure Point where
  time : UInt64
  type : CharArray 24
  key : CharArray 23
  dataType : UInt8
  data : CharArray 20
  deriving DecidableEq

structure PointDef where
  type : Bytes
  /-- An `int` in the source, compared with the `POINT_DATA_TYPE_*` constants. -/
  dataType : Int
  deriving DecidableEq

def pointDefBootCount : PointDef := ⟨pointTypeBootCount, pointDataTypeInt.toNat⟩

/-- `point p = {};` -/
def Point.zero : Point := ⟨0, .zero 24, .zero 23, pointDataTypeUnknown, .zero 20⟩

/-! ## Strings -/

/-- `copy_str_field`: a `strncpy` of all but the last byte, and a terminator there. -/
def copyStrField (dest : CharArray n) (src : Bytes) : CharArray n :=
  (dest.poke 0 (strncpy src (n - 1))).poke (n - 1) [0]

/-- What is copied depends on the source alone: no byte of the old field stays. -/
theorem copyStrField_bytes (dest : CharArray (n + 1)) (src : Bytes) :
    (copyStrField dest src).bytes = strncpy src n ++ [0] := by
  have hlen := dest.length_eq
  have h1 : (dest.poke 0 (strncpy src n)).bytes = strncpy src n ++ dest.bytes.drop n := by
    rw [CharArray.poke_zero_bytes (by simp), length_strncpy]
  change CStr.poke (dest.poke 0 (strncpy src n)).bytes n [0] = _
  rw [h1, poke_eq (by simp; omega), List.take_left' (length_strncpy src n)]
  simp [hlen]

@[simp] theorem copyStrField_str (dest : CharArray (n + 1)) (src : Bytes) :
    (copyStrField dest src).str = (cstr src).take n := by
  rw [CharArray.str, copyStrField_bytes]
  exact cstr_strncpy_append_zero src n []

theorem copyStrField_terminated (dest : CharArray (n + 1)) (src : Bytes) :
    (copyStrField dest src).Terminated := by
  rw [CharArray.Terminated, copyStrField_bytes]
  simp

/-! ## Words -/

/-- The little-endian bytes of a 32-bit word. -/
def le32 (v : Int) : Bytes :=
  [.ofInt v, .ofInt (v / 2 ^ 8), .ofInt (v / 2 ^ 16), .ofInt (v / 2 ^ 24)]

/-- The word the first four bytes hold. -/
def readLe32 (m : Bytes) : Nat :=
  (m.getD 0 0).toNat + 2 ^ 8 * (m.getD 1 0).toNat + 2 ^ 16 * (m.getD 2 0).toNat +
    2 ^ 24 * (m.getD 3 0).toNat

@[simp] theorem length_le32 (v : Int) : (le32 v).length = 4 := rfl

theorem toNat_ofInt8 (v : Int) : ((UInt8.ofInt v).toNat : Int) = v % 256 := by
  rw [UInt8.ofInt, UInt8.toNat_ofNat']; omega

theorem readLe32_le32_append (v : Int) (m : Bytes) : (readLe32 (le32 v ++ m) : Int) = v % 2 ^ 32 := by
  have h0 := toNat_ofInt8 v
  have h1 := toNat_ofInt8 (v / 2 ^ 8)
  have h2 := toNat_ofInt8 (v / 2 ^ 16)
  have h3 := toNat_ofInt8 (v / 2 ^ 24)
  simp only [readLe32, le32, List.cons_append, List.getD_cons_zero, List.getD_cons_succ]
  omega

/-- A word is determined by its four bytes. -/
theorem le32_readLe32 {m : Bytes} (h : m.length = 4) : le32 (readLe32 m) = m := by
  have hof {b : UInt8} {v : Int} (e : v % 256 = b.toNat) : UInt8.ofInt v = b := by
    have := toNat_ofInt8 v
    rw [← UInt8.toNat_inj]; omega
  match m, h with
  | [a, b, c, d], _ =>
    have ha := a.toNat_lt
    have hb := b.toNat_lt
    have hc := c.toNat_lt
    have hd := d.toNat_lt
    simp only [le32, readLe32, List.getD_cons_zero, List.getD_cons_succ]
    rw [hof (b := a) (by omega), hof (b := b) (by omega), hof (b := c) (by omega),
      hof (b := d) (by omega)]

@[simp] theorem readLe32_le32 (v : Int) : (readLe32 (le32 v) : Int) = v % 2 ^ 32 := by
  simpa using readLe32_le32_append v []

/-- A word stored at the start of a field is read back. -/
theorem readLe32_poke (a : CharArray (n + 4)) (v : Int) :
    (readLe32 (a.poke 0 (le32 v)).bytes : Int) = v % 2 ^ 32 := by
  rw [CharArray.poke_zero_bytes (by rw [length_le32]; omega), readLe32_le32_append]

/-- The bit pattern of a `float` stored at the start of a field is read back. -/
theorem ofNat_readLe32_poke (a : CharArray (n + 4)) (w : UInt32) :
    UInt32.ofNat (readLe32 (a.poke 0 (le32 w.toNat)).bytes) = w := by
  have hword := readLe32_poke a w.toNat
  have hlt := w.toNat_lt
  have hread : readLe32 (a.poke 0 (le32 w.toNat)).bytes = w.toNat := by omega
  rw [hread, UInt32.ofNat_toNat]

theorem le32_congr {v w : Int} (h : v % 2 ^ 32 = w % 2 ^ 32) : le32 v = le32 w := by
  have hof {a b : Int} (e : a % 256 = b % 256) : UInt8.ofInt a = UInt8.ofInt b := by
    have := toNat_ofInt8 a
    have := toNat_ofInt8 b
    rw [← UInt8.toNat_inj]; omega
  simp only [le32]
  rw [hof (a := v) (b := w) (by omega), hof (a := v / 2 ^ 8) (b := w / 2 ^ 8) (by omega),
    hof (a := v / 2 ^ 16) (b := w / 2 ^ 16) (by omega),
    hof (a := v / 2 ^ 24) (b := w / 2 ^ 24) (by omega)]

theorem le32_injective {v w : Int} (h : le32 v = le32 w) : v % 2 ^ 32 = w % 2 ^ 32 := by
  rw [← readLe32_le32, ← readLe32_le32, h]

/-! ## Setters and getters -/

namespace Point

def setType (p : Point) (t : Bytes) : Point := { p with type := copyStrField p.type t }

def setKey (p : Point) (k : Bytes) : Point := { p with key := copyStrField p.key k }

def setTypeKey (p : Point) (t k : Bytes) : Point :=
  { p with type := copyStrField p.type t, key := copyStrField p.key k }

def getInt (p : Point) : Int := (readLe32 p.data.bytes : Int).bmod (2 ^ 32)

/-- The bit pattern of the `float`. -/
def getFloat (p : Point) : UInt32 := .ofNat (readLe32 p.data.bytes)

/-- `point_get_string` into a buffer of `len` bytes. -/
def getString (p : Point) (dest : CharArray len) : CharArray len :=
  if len ≤ 0 then dest else copyStrField dest p.data.bytes

def putInt (p : Point) (v : Int) : Point :=
  { p with dataType := pointDataTypeInt, data := p.data.poke 0 (le32 v) }

/-- `point_put_float`, the `float` given by its bit pattern. -/
def putFloat (p : Point) (v : UInt32) : Point :=
  { p with dataType := pointDataTypeFloat, data := p.data.poke 0 (le32 v.toNat) }

def putString (p : Point) (v : Bytes) : Point :=
  { p with dataType := pointDataTypeString, data := copyStrField p.data v }

def dataLen (p : Point) : Nat :=
  if p.dataType = pointDataTypeInt ∨ p.dataType = pointDataTypeFloat then 4
  -- strnlen(p->data, sizeof(p->data) - 1) + 1
  else if p.dataType = pointDataTypeString then (cstr (p.data.bytes.take 19)).length + 1
  else 0

/-- A slot of an array is in use when its type is not the empty string. -/
abbrev Occupied (p : Point) : Prop := p.type.first ≠ 0

/-- A point as stores and codecs take it: it has a type, and one of the four data types. -/
abbrev Valid (p : Point) : Prop := p.Occupied ∧ ¬ InvalidDataType p.dataType

/-- What identifies a point: its type and its key. -/
def pair (p : Point) : Bytes × Bytes := (p.type.str, p.key.str)

theorem occupied_iff {p : Point} : p.Occupied ↔ p.type.str ≠ [] := CharArray.first_eq_zero.not

@[simp] theorem not_occupied_zero : ¬ zero.Occupied := by decide

/-- The getter of the data type reads the same value. No getter reads a point of another type. -/
def SameValue (p q : Point) : Prop :=
  if p.dataType = pointDataTypeFloat then p.getFloat = q.getFloat
  else if p.dataType = pointDataTypeInt then p.getInt = q.getInt
  else if p.dataType = pointDataTypeString ∨ p.dataType = pointDataTypeJson then
    p.data.str = q.data.str
  else True

instance (p q : Point) : Decidable (p.SameValue q) :=
  inferInstanceAs (Decidable (
    if p.dataType = pointDataTypeFloat then p.getFloat = q.getFloat
    else if p.dataType = pointDataTypeInt then p.getInt = q.getInt
    else if p.dataType = pointDataTypeString ∨ p.dataType = pointDataTypeJson then
      p.data.str = q.data.str
    else True))

/-- The points look the same: type, key, data type and value. -/
structure Agrees (p q : Point) : Prop where
  type : p.type.str = q.type.str
  key : p.key.str = q.key.str
  dataType : p.dataType = q.dataType
  value : p.SameValue q

/-- Only the data type and the data are looked at. -/
theorem sameValue_congr {p q p' q' : Point} (hdt : p.dataType = p'.dataType) (hp : p.data = p'.data)
    (hq : q.data = q'.data) : p.SameValue q ↔ p'.SameValue q' := by
  unfold SameValue getFloat getInt
  rw [hdt, hp, hq]

theorem SameValue.of_data {p q : Point} (h : p.data = q.data) : p.SameValue q := by
  unfold SameValue getFloat getInt
  rw [h]
  split
  · rfl
  split
  · rfl
  split
  · rfl
  · trivial

theorem Agrees.refl (p : Point) : p.Agrees p := ⟨rfl, rfl, rfl, .of_data rfl⟩

end Point

end ZephyrSiot
