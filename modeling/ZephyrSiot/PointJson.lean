import ZephyrSiot.JsonLib
import ZephyrSiot.SiotString

/-!
# Points as JSON

The JSON half of `lib/point.c`: a value rendered as text, the hand-written escaping of string
values, the conversions between `point` and `point_js`, and over them the encoder of an array and
the decoders, of one point and of an array. The JSON library is the parameter `J`.
-/

namespace ZephyrSiot
open CStr JsonText

/-- `sizeof(data) * 2` -/
def pointJsonDataBufSize : Nat := 40

/-- `point_data_to_string`: the result, and the string then in the buffer. -/
def Point.dataToString (p : Point) (bufLen : Nat) : Int × Bytes :=
  if bufLen = 0 then (-1, [])
  else if p.dataType = pointDataTypeFloat then (0, ftoa (Float32.ofBits p.getFloat) 4)
  else if p.dataType = pointDataTypeInt then (0, itoa p.getInt 10)
  else if p.dataType = pointDataTypeString ∨ p.dataType = pointDataTypeJson then
    (0, (cstr p.data.bytes).take (bufLen - 1))
  else (-1, [])

/-! ## Escaping -/

/-- The loop from `di` on: what it stores, the terminator left out. -/
def jsonEscapeString.loop (dstLen : Nat) : Bytes → (di : Nat) → Bytes
  | [], _ => []
  | c :: src, di =>
    if c = 0 then []
    else
      let needed := if c = quote ∨ c = backslash then 2 else 1
      if di + needed ≥ dstLen then []
      else if needed = 2 then backslash :: c :: loop dstLen src (di + 2)
      else c :: loop dstLen src (di + 1)

/-- What is returned, and the run stored at `dst`. -/
def jsonEscapeString (src : Bytes) (srcLen dstLen : Nat) : Nat × Bytes :=
  if dstLen = 0 then (0, [])
  else
    let out := jsonEscapeString.loop dstLen (src.take srcLen) 0
    (out.length, out ++ [nul])

/-- The switch on the character behind a backslash. -/
def jsonUnescapeString.decode (next : UInt8) : UInt8 :=
  if next = quote ∨ next = backslash ∨ next = slash then next
  else if next = 0x62 then 0x08
  else if next = 0x66 then 0x0c
  else if next = 0x6e then lf
  else if next = 0x72 then cr
  else if next = 0x74 then tab
  -- "Not an escape this decoder knows, so the backslash is part of the value."
  else backslash

/-- The loop from `di` on: what it stores, the terminator left out. -/
def jsonUnescapeString.loop (dstLen : Nat) : Bytes → (di : Nat) → Bytes
  | [], _ => []
  | [c], di =>
    if c = 0 then []
    else if di + 1 ≥ dstLen then []
    else [c]
  | c :: next :: src, di =>
    if c = 0 then []
    else if c = backslash then
      let decoded := decode next
      if di + 1 ≥ dstLen then []
      -- the second character is skipped when the decoded one is not a backslash
      else if decoded ≠ c then decoded :: loop dstLen src (di + 1)
      else decoded :: loop dstLen (next :: src) (di + 1)
    else if di + 1 ≥ dstLen then []
    else c :: loop dstLen (next :: src) (di + 1)

/-- What is returned, and the run stored at `dst`. -/
def jsonUnescapeString (src : Bytes) (srcLen dstLen : Nat) : Nat × Bytes :=
  if dstLen = 0 then (0, [])
  else
    let out := jsonUnescapeString.loop dstLen (src.take srcLen) 0
    (out.length, out ++ [nul])

/-! ## `point` and `point_js` -/

def pointToPointJs (p : Point) (bufLen : Nat) : PointJs :=
  let number := (p.dataToString bufLen).2
  let (n, run) := jsonEscapeString p.data.bytes 20 bufLen
  let js (dt d : Bytes) : PointJs := ⟨some p.type.bytes, some p.key.bytes, some dt, d⟩
  if p.dataType = pointDataTypeFloat then js pointDataTypeFloatS number
  else if p.dataType = pointDataTypeInt then js pointDataTypeIntS number
  else if p.dataType = pointDataTypeString then js pointDataTypeStringS (run.take n)
  else if p.dataType = pointDataTypeJson then js pointDataTypeJsonS (run.take n)
  else js pointDataTypeStringS []

/-- The result, and what `p` holds then. -/
def pointJsToPoint (js : PointJs) (p : Point) : Int × Point :=
  let p := { p with time := 0 }
  match js.t, js.k, js.dt with
  | some t, some k, some dt =>
    let p := { p with type := copyStrField p.type t, key := copyStrField p.key k }
    -- the number parsers read a copy of at most 29 characters
    let buf := js.d.take 29
    let (_, run) := jsonUnescapeString js.d js.d.length 20
    if strncmp dt pointDataTypeFloatS 3 = 0 then
      (0, { p with
        dataType := pointDataTypeFloat
        data := p.data.poke 0 (le32 (atof Float32 buf).toBits.toNat) })
    else if strncmp dt pointDataTypeIntS 3 = 0 then
      (0, { p with dataType := pointDataTypeInt, data := p.data.poke 0 (le32 (atoi buf)) })
    else if strncmp dt pointDataTypeStringS 3 = 0 then
      (0, { p with dataType := pointDataTypeString, data := p.data.poke 0 run })
    else if strncmp dt pointDataTypeJsonS 3 = 0 then
      (0, { p with dataType := pointDataTypeJson, data := p.data.poke 0 run })
    else (-1, { p with dataType := pointDataTypeUnknown, data := p.data.poke 0 [nul] })
  -- "Refusing to decode point with null type, key or data type"
  | _, _, _ => (-1, p)

/-! ## One point -/

section
variable (J : JsonLib)

def pointJsonDecode (json : Bytes) (p : Point) : Int × Point :=
  let (ret, js) := J.objParse json .zero
  if ret < 0 then (ret, p)
  else if js.t = none ∨ js.k = none then (-200, p)
  -- the result of the conversion is not looked at
  else (0, (pointJsToPoint js p).2)

/-! ## Arrays -/

def pointsJsonEncode.loop : List Point → List PointJs
  | [] => []
  | p :: pts =>
    if p.type.first = 0 then loop pts
    else if InvalidDataType p.dataType then loop pts
    else pointToPointJs p pointJsonDataBufSize :: loop pts

/-- The result, and the string then in the buffer `buf` of `len` bytes. The mutex is held
throughout, so the static `data_buf` is the call's own. -/
def pointsJsonEncode (ptsIn : List Point) (buf : Bytes) (len : Nat) : Int × Bytes :=
  if ptsIn.length > pointJsArrayMax then (-enomem, buf)
  else J.arrEncodeBuf (pointsJsonEncode.loop ptsIn) len

/-- `n` more elements from index `i` on, their results not looked at. -/
def pointsJsonDecode.loop (ptsJs : PointJsArray) : (i n : Nat) → List Point → List Point
  | i, n + 1, p :: pts => (pointJsToPoint (ptsJs.points i) p).2 :: loop ptsJs (i + 1) n pts
  | _, _, pts => pts

/-- The result, and what `pts` holds then. `ptsJs` is what the stack held where the parser's output
goes. -/
def pointsJsonDecode (ptsJs : PointJsArray) (json : Bytes) (pts : List Point) : Int × List Point :=
  let (ret, ptsJs) := J.arrParse json ptsJs
  if ret ≠ 0 then (ret, pts)
  else
    let len := min pts.length ptsJs.len
    (len, pointsJsonDecode.loop ptsJs 0 len pts)

end

/-! ## What the loops compute -/

/-- A character is stored whole or not at all. -/
theorem jsonEscapeString.loop_round {dstLen di : Nat} {c : UInt8} (hc : c ≠ nul) (src : Bytes) :
    loop dstLen (c :: src) di =
      if di + (escapeChar c).length ≥ dstLen then []
      else escapeChar c ++ loop dstLen src (di + (escapeChar c).length) := by
  rw [loop, if_neg hc]
  by_cases h : c = quote ∨ c = backslash
  · rw [escapeChar_special h]
    simp only [if_pos h]
    rfl
  · rw [escapeChar_ordinary h]
    simp only [if_neg h]
    rfl

theorem jsonEscapeString.loop_eq {dstLen : Nat} {src : Bytes} {di : Nat}
    (h : di + (escape (cstr src)).length < dstLen) : loop dstLen src di = escape (cstr src) := by
  induction src generalizing di with
  | nil => rfl
  | cons c src ih =>
    by_cases h0 : c = 0
    · subst h0; rfl
    · rw [cstr_cons h0, escape_cons, List.length_append] at h
      rw [loop_round h0, cstr_cons h0, escape_cons, if_neg (by omega), ih (by omega)]

/-- A buffer of the size asked for holds every escaped data string. -/
theorem jsonEscapeString_data {a : CharArray 20} (h : a.Terminated) {bufLen : Nat}
    (hbuf : pointJsonDataBufSize ≤ bufLen) :
    jsonEscapeString a.bytes 20 bufLen = ((escape a.str).length, escape a.str ++ [nul]) := by
  have hlen := h.length_str_lt
  have hesc := length_escape_le a.str
  have hbuf : 40 ≤ bufLen := hbuf
  have hout : jsonEscapeString.loop bufLen (a.bytes.take 20) 0 = escape a.str := by
    rw [List.take_of_length_le a.length_eq.le]
    exact jsonEscapeString.loop_eq (by change _ + (escape a.str).length < _; omega)
  rw [jsonEscapeString, if_neg (by omega), hout]

abbrev TextDataType (t : UInt8) : Prop := t = pointDataTypeString ∨ t = pointDataTypeJson

def textDataTypeS (t : UInt8) : Bytes :=
  if t = pointDataTypeString then pointDataTypeStringS else pointDataTypeJsonS

theorem pointToPointJs_text {p : Point} (hdt : TextDataType p.dataType) (h : p.data.Terminated)
    {bufLen : Nat} (hbuf : pointJsonDataBufSize ≤ bufLen) :
    pointToPointJs p bufLen = ⟨some p.type.bytes, some p.key.bytes,
      some (textDataTypeS p.dataType), escape p.data.str⟩ := by
  rw [pointToPointJs, jsonEscapeString_data h hbuf]
  rcases hdt with hdt | hdt <;> simp only [hdt, List.take_left] <;> rfl

/-- The run that the decoder stores holds no NUL of its own and fits. -/
theorem jsonUnescapeString.loop_bounds (dstLen : Nat) (src : Bytes) (di : Nat) :
    0 ∉ loop dstLen src di ∧ (loop dstLen src di).length + di ≤ max di (dstLen - 1) := by
  have hdecode (next : UInt8) : decode next ≠ 0 := by
    unfold decode
    split
    · next h => rcases h with rfl | rfl | rfl <;> decide
    · repeat' split
      all_goals decide
  fun_induction loop dstLen src di with
  | case1 => simp
  | case2 => simp
  | case3 => simp
  | case4 di c h0 hdi => simpa using ⟨Ne.symm h0, by omega⟩
  | case5 => simp
  | case6 => simp
  | case7 _ _ _ _ _ _ _ ih | case8 _ _ _ _ _ _ _ ih =>
    simp only [List.mem_cons, not_or, List.length_cons]
    exact ⟨⟨(hdecode _).symm, ih.1⟩, by omega⟩
  | case9 => simp
  | case10 di c next src h0 hc hdi ih =>
    simp only [List.mem_cons, not_or, List.length_cons]
    exact ⟨⟨Ne.symm h0, ih.1⟩, by omega⟩

/-- The data type a code stands for. Only its first three characters count. -/
def dataTypeOfCode (dt : Bytes) : UInt8 :=
  if strncmp dt pointDataTypeFloatS 3 = 0 then pointDataTypeFloat
  else if strncmp dt pointDataTypeIntS 3 = 0 then pointDataTypeInt
  else if strncmp dt pointDataTypeStringS 3 = 0 then pointDataTypeString
  else if strncmp dt pointDataTypeJsonS 3 = 0 then pointDataTypeJson
  else pointDataTypeUnknown

theorem dataTypeOfCode_cases (dt : Bytes) :
    dataTypeOfCode dt = pointDataTypeUnknown ∨ dataTypeOfCode dt = pointDataTypeFloat ∨
      dataTypeOfCode dt = pointDataTypeInt ∨ TextDataType (dataTypeOfCode dt) := by
  unfold dataTypeOfCode
  split
  · exact .inr (.inl rfl)
  split
  · exact .inr (.inr (.inl rfl))
  split
  · exact .inr (.inr (.inr (.inl rfl)))
  split
  · exact .inr (.inr (.inr (.inr rfl)))
  · exact .inl rfl

/-- What is stored at the start of the data field for a value of the given type. -/
def decodedRun (dataType : UInt8) (d : Bytes) : Bytes :=
  if dataType = pointDataTypeFloat then le32 (atof Float32 (d.take 29)).toBits.toNat
  else if dataType = pointDataTypeInt then le32 (atoi (d.take 29))
  else if TextDataType dataType then jsonUnescapeString.loop 20 d 0 ++ [nul]
  else [nul]

/-- Decoding succeeds when no pointer is `NULL` and the code is known. -/
theorem pointJsToPoint_some (t k dt d : Bytes) (q : Point) :
    pointJsToPoint ⟨some t, some k, some dt, d⟩ q =
      (if dataTypeOfCode dt = pointDataTypeUnknown then -1 else 0,
        ⟨0, copyStrField q.type t, copyStrField q.key k, dataTypeOfCode dt,
          q.data.poke 0 (decodedRun (dataTypeOfCode dt) d)⟩) := by
  have hrun : (jsonUnescapeString d d.length 20).2 = jsonUnescapeString.loop 20 d 0 ++ [nul] := by
    rw [jsonUnescapeString, if_neg (by decide), List.take_length]
  rw [pointJsToPoint, dataTypeOfCode]
  dsimp only
  rw [hrun]
  split
  · rfl
  split
  · rfl
  split
  · rfl
  split <;> rfl

theorem pointJsToPoint_none {js : PointJs} (h : js.t = none ∨ js.k = none ∨ js.dt = none)
    (q : Point) : pointJsToPoint js q = (-1, { q with time := 0 }) := by
  obtain ⟨t, k, dt, d⟩ := js
  rcases h with rfl | rfl | rfl
  · rfl
  · cases t <;> rfl
  · cases t <;> cases k <;> rfl

theorem pointJsToPoint_ret {js : PointJs} {q : Point} :
    (pointJsToPoint js q).1 = 0 ↔ ∃ t k dt d, js = ⟨some t, some k, some dt, d⟩ ∧
      dataTypeOfCode dt ≠ pointDataTypeUnknown := by
  constructor
  · intro h
    have hnone (hjs : js.t = none ∨ js.k = none ∨ js.dt = none) : False := by
      rw [pointJsToPoint_none hjs] at h
      exact absurd (show (-1 : Int) = 0 from h) (by decide)
    obtain ⟨t, k, dt, d⟩ := js
    cases t with
    | none => exact (hnone (.inl rfl)).elim
    | some t => cases k with
      | none => exact (hnone (.inr (.inl rfl))).elim
      | some k => cases dt with
        | none => exact (hnone (.inr (.inr rfl))).elim
        | some dt =>
          refine ⟨t, k, dt, d, rfl, fun hdt => ?_⟩
          rw [pointJsToPoint_some, if_pos hdt] at h
          exact absurd (show (-1 : Int) = 0 from h) (by decide)
  · rintro ⟨t, k, dt, d, rfl, hdt⟩
    rw [pointJsToPoint_some, if_neg hdt]

/-- A decoded text value is terminated, and its string is what the loop made of the token. -/
theorem decodedRun_text {dataType : UInt8} (h : TextDataType dataType) (a : CharArray 20)
    (d : Bytes) :
    (a.poke 0 (decodedRun dataType d)).Terminated ∧
      (a.poke 0 (decodedRun dataType d)).str = jsonUnescapeString.loop 20 d 0 := by
  obtain ⟨h0, hlen⟩ := jsonUnescapeString.loop_bounds 20 d 0
  have hlen : (jsonUnescapeString.loop 20 d 0).length < 20 := by omega
  have hrun : decodedRun dataType d = jsonUnescapeString.loop 20 d 0 ++ [nul] := by
    rcases h with rfl | rfl <;> rfl
  rw [hrun]
  exact ⟨CharArray.terminated_poke hlen, CharArray.str_poke h0 hlen⟩

end ZephyrSiot
