import ZephyrSiot.Point
import ZephyrSiot.Theory.JsonText

/-!
# The JSON library

The firmware encodes and decodes points with Zephyr's JSON library, which is not part of this
repository. `JsonLib` is that library at the two descriptors of `lib/point.c`, as a parameter of
the model, and `JsonLib.Lawful` is what `lib/point.c` relies on: an encoder that writes the
compact text, opaque tokens verbatim, and a parser that hands every value back as the raw span
between its quotes and leaves the fields without a member alone. `JsonLib.reference` is a
library that keeps these laws.
-/

namespace ZephyrSiot
open CStr JsonText

/-- A pointer to a C string is the memory it points to, `none` when it is `NULL`. The opaque token
`d` is the `d.length` bytes at `d.start`. -/
structure PointJs where
  t : Option Bytes
  k : Option Bytes
  dt : Option Bytes
  d : Bytes
  deriving DecidableEq

/-- `struct point_js p_js = {};` -/
def PointJs.zero : PointJs := ⟨none, none, none, []⟩

/-- A `point_js` without `NULL` pointers. -/
abbrev PointJs.ofStrings (t k dt d : Bytes) : PointJs := ⟨some t, some k, some dt, d⟩

def pointJsArrayMax : Nat := 47

structure PointJsArray where
  /-- What stands at each index, the memory behind the array included. -/
  points : Nat → PointJs
  len : Nat

/-- A cleared array. The firmware hands the parser whatever its stack held. -/
def PointJsArray.zero : PointJsArray := ⟨fun _ => .zero, 0⟩

/-! ## What a row says -/

/-- The members that the descriptor writes for a `point_js` without `NULL` pointers. -/
def PointJs.row (js : PointJs) : Row :=
  [⟨lit "t", cstr (js.t.getD [])⟩, ⟨lit "k", cstr (js.k.getD [])⟩,
    ⟨lit "dt", cstr (js.dt.getD [])⟩, ⟨lit "d", js.d⟩]

/-- The field that a member names is set to its value. -/
def PointJs.assign (js : PointJs) (m : Member) : PointJs :=
  if m.name = lit "t" then { js with t := some m.value }
  else if m.name = lit "k" then { js with k := some m.value }
  else if m.name = lit "dt" then { js with dt := some m.value }
  else if m.name = lit "d" then { js with d := m.value }
  else js

/-- The other fields keep what they held. -/
def PointJs.assignRow (js : PointJs) (row : Row) : PointJs := row.foldl assign js

def PointJsArray.assignRows (a : PointJsArray) (rows : List Row) : PointJsArray where
  points i := match rows[i]? with
    | some row => (a.points i).assignRow row
    | none => a.points i
  len := rows.length

/-- A `point_js` that the encoder can write as it stands: all pointers set, strings without
special characters, and a legal body for a token. -/
structure PointJs.Encodable (js : PointJs) : Prop where
  t : ∃ s, js.t = some s ∧ Plain (cstr s)
  k : ∃ s, js.k = some s ∧ Plain (cstr s)
  dt : ∃ s, js.dt = some s ∧ Plain (cstr s)
  d : Body js.d

/-- Every member's name and value is a legal body, and no name comes twice. -/
structure LegalRow (row : Row) : Prop where
  legal : ∀ m ∈ row, m.Legal
  nodup : (row.map Member.name).Nodup

/-- The names of the four members are legal, so their values decide. -/
theorem legal_members_iff {t k dt d : Bytes} :
    (∀ m ∈ ([⟨lit "t", t⟩, ⟨lit "k", k⟩, ⟨lit "dt", dt⟩, ⟨lit "d", d⟩] : Row), m.Legal) ↔
      Body t ∧ Body k ∧ Body dt ∧ Body d := by
  have hname : ∀ s ∈ [lit "t", lit "k", lit "dt", lit "d"], Body s :=
    fun s hs => ((by decide : ∀ s ∈ [lit "t", lit "k", lit "dt", lit "d"], Plain s) s hs).body
  simp only [List.forall_mem_cons] at hname
  obtain ⟨ht, hk, hdt, hd, -⟩ := hname
  simp [Member.Legal, ht, hk, hdt, hd]

theorem LegalRow.of_members {t k dt d : Bytes} (ht : Body t) (hk : Body k) (hdt : Body dt)
    (hd : Body d) : LegalRow [⟨lit "t", t⟩, ⟨lit "k", k⟩, ⟨lit "dt", dt⟩, ⟨lit "d", d⟩] where
  legal := legal_members_iff.mpr ⟨ht, hk, hdt, hd⟩
  nodup := (by decide : [lit "t", lit "k", lit "dt", lit "d"].Nodup)

theorem PointJs.Encodable.legalRow {js : PointJs} (h : js.Encodable) : LegalRow js.row := by
  obtain ⟨⟨t, ht, hpt⟩, ⟨k, hk, hpk⟩, ⟨dt, hdt, hpdt⟩, hd⟩ := h
  rw [row, ht, hk, hdt]
  exact .of_members hpt.body hpk.body hpdt.body hd

/-- Reading back what was written sets every field. -/
theorem PointJs.assignRow_row (prior js : PointJs) :
    prior.assignRow js.row =
      ⟨some (cstr (js.t.getD [])), some (cstr (js.k.getD [])), some (cstr (js.dt.getD [])), js.d⟩ :=
  rfl

/-! ## The library -/

/-- Encoders return the result and the string then in the buffer of the given size. Parsers are
given the text and the memory their output goes to. -/
structure JsonLib where
  /-- `json_arr_encode_buf` with `point_js_array_descr` -/
  arrEncodeBuf : List PointJs → Nat → Int × Bytes
  /-- `json_arr_parse` with `point_js_array_descr` -/
  arrParse : Bytes → PointJsArray → Int × PointJsArray
  /-- `json_obj_parse` with `point_js_descr` -/
  objParse : Bytes → PointJs → Int × PointJs

structure JsonLib.Lawful (J : JsonLib) : Prop where
  /-- A text that fits with its terminator is written whole. -/
  encode_fits : ∀ rows len, rows.length ≤ pointJsArrayMax → (∀ js ∈ rows, js.Encodable) →
    (arrayText (rows.map PointJs.row)).length < len →
      J.arrEncodeBuf rows len = (0, arrayText (rows.map PointJs.row))
  /-- One that does not is cut and refused. -/
  encode_overflow : ∀ rows len, rows.length ≤ pointJsArrayMax → (∀ js ∈ rows, js.Encodable) →
    len ≤ (arrayText (rows.map PointJs.row)).length →
      ∃ s, s <+: arrayText (rows.map PointJs.row) ∧ J.arrEncodeBuf rows len = (-enomem, s)
  parse : ∀ (rows : List Row) prior, rows.length ≤ pointJsArrayMax → (∀ row ∈ rows, LegalRow row) →
    J.arrParse (arrayText rows) prior = (0, prior.assignRows rows)

namespace JsonLib

/-- The library over the writer and the parser of `JsonText`. -/
def reference : JsonLib where
  arrEncodeBuf rows len :=
    let text := arrayText (rows.map PointJs.row)
    if text.length < len then (0, text) else (-enomem, text.take (len - 1))
  arrParse text prior :=
    match parseArray text with
    | none => (-einval, prior)
    | some rows =>
      if rows.length ≤ pointJsArrayMax then (0, prior.assignRows rows)
      else (-enospc, prior.assignRows (rows.take pointJsArrayMax))
  objParse text prior :=
    match parseObject text with
    | none => (-einval, prior)
    | some row => (row.length, prior.assignRow row)

theorem reference_lawful : reference.Lawful where
  encode_fits rows len _ _ h := if_pos h
  encode_overflow rows len _ _ h := ⟨_, List.take_prefix (len - 1) _, if_neg (Nat.not_lt.mpr h)⟩
  parse rows prior hlen hrows := by
    simp only [reference, parseArray_arrayText fun row h => (hrows row h).legal, if_pos hlen]

end JsonLib

end ZephyrSiot
