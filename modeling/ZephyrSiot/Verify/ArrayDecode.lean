import ZephyrSiot.PointMerge
import ZephyrSiot.PointJson
import ZephyrSiot.Theory.JsonSound
import Mathlib.Data.List.Induction

/-!
# What the array decoder leaves to chance

`point_json_decode` clears its `point_js` before it parses, `points_json_decode` does not clear its
array: a member that an object lacks is read from what the stack held. A row that has all members is
decoded the same over any memory (`Complete.decodedRow_eq`), and on no other row do the two decoders
agree (`decodesAlike_iff`).
-/

namespace ZephyrSiot
open CStr JsonText

/-! ## Members -/

/-- The value of the last member of the name. -/
def lookup (name : Bytes) (row : Row) : Option Bytes :=
  (row.reverse.find? (·.name = name)).map Member.value

theorem lookup_snoc (name : Bytes) (row : Row) (m : Member) :
    lookup name (row ++ [m]) = if m.name = name then some m.value else lookup name row := by
  rw [lookup, List.reverse_append, List.reverse_singleton, List.singleton_append, List.find?_cons]
  split <;> simp_all [lookup]

/-- Each field is that of the member of its name, or keeps what it held. -/
theorem PointJs.assignRow_eq (prior : PointJs) (row : Row) :
    prior.assignRow row = ⟨(lookup (lit "t") row).or prior.t, (lookup (lit "k") row).or prior.k,
      (lookup (lit "dt") row).or prior.dt, (lookup (lit "d") row).getD prior.d⟩ := by
  induction row using List.reverseRecOn with
  | nil => rfl
  | append_singleton row m ih =>
    rw [assignRow, List.foldl_append, List.foldl_cons, List.foldl_nil]
    change (prior.assignRow row).assign m = _
    rw [ih]
    simp only [assign, lookup_snoc]
    split
    · next h => rw [h]; rfl
    split
    · next h => rw [h]; rfl
    split
    · next h => rw [h]; rfl
    split <;> rfl

/-- The bits that `atof` makes of a text do not depend on the text. -/
def ConstantAtof : Prop :=
  ∀ d : Bytes, (atof Float32 (d.take 29)).toBits = (atof Float32 []).toBits

/-- The row has all members that the decoder looks at: a type, a key, a data type, and a value when
the data type is known. -/
def Complete (row : Row) : Prop :=
  lookup (lit "t") row ≠ none ∧ lookup (lit "k") row ≠ none ∧
    ∃ dt, lookup (lit "dt") row = some dt ∧ (dataTypeOfCode dt = pointDataTypeUnknown ∨
      lookup (lit "d") row ≠ none ∨ dataTypeOfCode dt = pointDataTypeFloat ∧ ConstantAtof)

/-- What the decoder makes of a row that was parsed over `prior`. -/
def decodedRow (prior : PointJs) (row : Row) (q : Point) : Int × Point :=
  pointJsToPoint (prior.assignRow row) q

theorem Complete.decodedRow_eq {row : Row} (h : Complete row) (prior prior' : PointJs) (q : Point) :
    decodedRow prior row q = decodedRow prior' row q := by
  obtain ⟨ht, hk, dt, hdt, hd⟩ := h
  obtain ⟨t, ht⟩ := Option.ne_none_iff_exists'.mp ht
  obtain ⟨k, hk⟩ := Option.ne_none_iff_exists'.mp hk
  rw [decodedRow, decodedRow, PointJs.assignRow_eq, PointJs.assignRow_eq, ht, hk, hdt]
  simp only [Option.some_or]
  rw [pointJsToPoint_some, pointJsToPoint_some]
  suffices decodedRun (dataTypeOfCode dt) ((lookup (lit "d") row).getD prior.d) =
      decodedRun (dataTypeOfCode dt) ((lookup (lit "d") row).getD prior'.d) by rw [this]
  rcases hd with hunknown | hd | ⟨hfloat, hconst⟩
  · rw [hunknown]
    rfl
  · obtain ⟨d, hd⟩ := Option.ne_none_iff_exists'.mp hd
    rw [hd]
    rfl
  · rw [hfloat, decodedRun, decodedRun, if_pos rfl, if_pos rfl, hconst, hconst]

/-- What a value of the given type is decoded to. -/
def valuePoint (dataType : UInt8) (d : Bytes) : Point :=
  ⟨0, .zero 24, .zero 23, dataType, (CharArray.zero 20).poke 0 (decodedRun dataType d)⟩

theorem getFloat_valuePoint (d : Bytes) :
    (valuePoint pointDataTypeFloat d).getFloat = (atof Float32 (d.take 29)).toBits :=
  ofNat_readLe32_poke (n := 16) _ _

/-- A value of a type other than a float depends on its text. -/
theorem not_sameValue_valuePoint {dataType : UInt8}
    (h : dataType = pointDataTypeInt ∨ TextDataType dataType) :
    ¬ (valuePoint dataType (lit "1")).SameValue (valuePoint dataType []) := by
  rcases h with rfl | rfl | rfl <;> decide

/-- Over memory without a null pointer the decoder gets to see all four fields. -/
theorem decodedRow_ofStrings (row : Row) (d : Bytes) :
    decodedRow (.ofStrings (lit "x") (lit "x") (lit "INT") d) row .zero =
      pointJsToPoint (.ofStrings ((lookup (lit "t") row).getD (lit "x"))
        ((lookup (lit "k") row).getD (lit "x")) ((lookup (lit "dt") row).getD (lit "INT"))
        ((lookup (lit "d") row).getD d)) .zero := by
  rw [decodedRow, PointJs.assignRow_eq]
  simp only [Option.or_some]

theorem decodedRow_zero {row : Row} (h : lookup (lit "t") row = none ∨ lookup (lit "k") row = none ∨
    lookup (lit "dt") row = none) : (decodedRow .zero row .zero).2 = .zero := by
  rw [decodedRow, PointJs.assignRow_eq, pointJsToPoint_none]
  · rfl
  · simpa only [PointJs.zero, Option.or_none] using h

section
variable {row : Row} (h : ∀ prior, (decodedRow prior row .zero).2.defaultKey.Agrees
  (decodedRow .zero row .zero).2.defaultKey)
include h

theorem lookups_of_agrees : lookup (lit "t") row ≠ none ∧ lookup (lit "k") row ≠ none ∧
    lookup (lit "dt") row ≠ none := by
  have hagrees := h (.ofStrings (lit "x") (lit "x") (lit "INT") [])
  refine ⟨fun ht => ?_, fun hk => ?_, fun hdt => ?_⟩
  · have htype := hagrees.type
    rw [Point.defaultKey_type, Point.defaultKey_type, decodedRow_zero (.inl ht),
      decodedRow_ofStrings, pointJsToPoint_some, copyStrField_str, ht] at htype
    exact absurd htype (by decide)
  · have hkey := hagrees.key
    rw [Point.defaultKey_key_str, Point.defaultKey_key_str, decodedRow_zero (.inr (.inl hk)),
      decodedRow_ofStrings, pointJsToPoint_some, copyStrField_str, hk] at hkey
    exact absurd hkey (by decide)
  · have hdataType := hagrees.dataType
    rw [Point.defaultKey_dataType, Point.defaultKey_dataType, decodedRow_zero (.inr (.inr hdt)),
      decodedRow_ofStrings, pointJsToPoint_some, hdt] at hdataType
    change dataTypeOfCode (lit "INT") = pointDataTypeUnknown at hdataType
    exact absurd hdataType (by decide)

/-- Without a value of its own the row takes any, so that the value must not matter. -/
theorem sameValue_of_agrees {t k dt : Bytes} (ht : lookup (lit "t") row = some t)
    (hk : lookup (lit "k") row = some k) (hdt : lookup (lit "dt") row = some dt)
    (hd : lookup (lit "d") row = none) (d : Bytes) :
    (valuePoint (dataTypeOfCode dt) d).SameValue (valuePoint (dataTypeOfCode dt) []) := by
  have hcleared : decodedRow .zero row .zero = pointJsToPoint (.ofStrings t k dt []) .zero := by
    rw [decodedRow, PointJs.assignRow_eq, ht, hk, hdt, hd]
    rfl
  have hagrees := (h (.ofStrings (lit "x") (lit "x") (lit "INT") d)).value
  rw [hcleared, decodedRow_ofStrings, pointJsToPoint_some, pointJsToPoint_some, hdt, hd] at hagrees
  exact (Point.sameValue_congr (by exact Point.defaultKey_dataType)
    (by exact Point.defaultKey_data) (by exact Point.defaultKey_data)).mp hagrees

/-- A row that is decoded to points of the same looks over any memory is complete. -/
theorem complete_of_agrees : Complete row := by
  obtain ⟨ht, hk, hdt⟩ := lookups_of_agrees h
  obtain ⟨dt, hdt⟩ := Option.ne_none_iff_exists'.mp hdt
  refine ⟨ht, hk, dt, hdt, ?_⟩
  rcases Option.eq_none_or_eq_some (lookup (lit "d") row) with hd | ⟨d, hd⟩
  · obtain ⟨t, ht⟩ := Option.ne_none_iff_exists'.mp ht
    obtain ⟨k, hk⟩ := Option.ne_none_iff_exists'.mp hk
    have hvalue := sameValue_of_agrees h ht hk hdt hd
    rcases dataTypeOfCode_cases dt with hcode | hcode | hcode
    · exact .inl hcode
    · refine .inr (.inr ⟨hcode, fun d => ?_⟩)
      have hfloat := hvalue d
      have htype : (valuePoint pointDataTypeFloat d).dataType = pointDataTypeFloat := rfl
      rwa [hcode, Point.SameValue, if_pos htype, getFloat_valuePoint, getFloat_valuePoint] at hfloat
    · exact (not_sameValue_valuePoint hcode (hvalue (lit "1"))).elim
  · exact .inr (.inl (by rw [hd]; exact Option.some_ne_none d))

end

/-! ## Arrays -/

/-- None of the four members occurs twice. -/
def SingleMembers (row : Row) : Prop :=
  ∀ name ∈ [lit "t", lit "k", lit "dt", lit "d"], (row.map Member.name).count name ≤ 1

instance : DecidablePred SingleMembers := fun row =>
  inferInstanceAs (Decidable (∀ name ∈ [lit "t", lit "k", lit "dt", lit "d"],
    (row.map Member.name).count name ≤ 1))

/-- The parsers write the fields whose members occur in an object, and the number of elements. -/
structure JsonLib.ReadsMembers (J : JsonLib) : Prop where
  arr : ∀ text rows prior, parseArray text = some rows → rows.length ≤ pointJsArrayMax →
    (∀ row ∈ rows, SingleMembers row) → J.arrParse text prior = (0, prior.assignRows rows)
  obj : ∀ text row prior, parseObject text = some row → SingleMembers row →
    ∃ ret, 0 ≤ ret ∧ J.objParse text prior = (ret, prior.assignRow row)

theorem JsonLib.reference_readsMembers : reference.ReadsMembers where
  arr text rows prior h hlen _ := by
    simp only [reference, h, if_pos hlen]
  obj text row prior h _ := by
    simp only [reference, h]
    exact ⟨_, Int.natCast_nonneg _, rfl⟩

/-- The array decoder and the decoder of one object do the same with element `i`, whose object is
`row`: the points look the same, and the conversion takes both or refuses both. -/
def ElementAlike (J : JsonLib) (ptsJs : PointJsArray) (text : Bytes) (target : List Point) (i : Nat)
    (row : Row) : Prop :=
  ∀ q object, target[i]? = some q → parseObject object = some row →
    (∃ p, (pointsJsonDecode J ptsJs text target).2[i]? = some p ∧
      p.Agrees (pointJsonDecode J object q).2) ∧
    ((pointJsToPoint ((J.arrParse text ptsJs).2.points i) q).1 = 0 ↔
      (pointJsToPoint (J.objParse object .zero).2 q).1 = 0)

/-- Over any memory and any target that is long enough, every element is decoded as its object
alone. -/
def DecodesAlike (J : JsonLib) (text : Bytes) (rows : List Row) : Prop :=
  ∀ (ptsJs : PointJsArray) (target : List Point), rows.length ≤ target.length →
    (pointsJsonDecode J ptsJs text target).1 = rows.length ∧
      ∀ i row, rows[i]? = some row → ElementAlike J ptsJs text target i row

theorem getElem?_decodeLoop (a : PointJsArray) (i n : Nat) (target : List Point) {j : Nat}
    (hj : j < n) : (pointsJsonDecode.loop a i n target)[j]? =
      target[j]?.map fun q => (pointJsToPoint (a.points (i + j)) q).2 := by
  induction n generalizing i j target with
  | zero => omega
  | succ n ih =>
    cases target with
    | nil => simp [pointsJsonDecode.loop]
    | cons p target =>
      rw [pointsJsonDecode.loop]
      cases j with
      | zero => rfl
      | succ j =>
        rw [List.getElem?_cons_succ, ih _ _ (by omega), List.getElem?_cons_succ,
          show i + 1 + j = i + (j + 1) by omega]

theorem getElem?_assignRows {a : PointJsArray} {rows : List Row} {i : Nat} {row : Row}
    (h : rows[i]? = some row) : (a.assignRows rows).points i = (a.points i).assignRow row := by
  simp only [PointJsArray.assignRows, h]

section
variable {J : JsonLib} {text : Bytes} {rows : List Row}

/-- The decoder of one object sets all fields, or leaves the point alone. -/
theorem agrees_pointJsonDecode (hJ : J.ReadsMembers) {object : Bytes} {row : Row}
    (hobject : parseObject object = some row) (honce : SingleMembers row) (p q : Point) :
    p.Agrees (pointJsonDecode J object q).2 ↔ p.Agrees (decodedRow .zero row q).2 := by
  obtain ⟨ret, hret, hparse⟩ := hJ.obj object row .zero hobject honce
  rw [pointJsonDecode, hparse]
  dsimp only
  rw [if_neg (by omega)]
  split
  · next hnull =>
    rw [decodedRow, pointJsToPoint_none (hnull.imp_right .inl)]
    exact ⟨fun h => ⟨h.type, h.key, h.dataType, h.value⟩,
      fun h => ⟨h.type, h.key, h.dataType, h.value⟩⟩
  · exact Iff.rfl

/-- The array decoder goes through all rows. -/
theorem pointsJsonDecode_rows (hJ : J.ReadsMembers) (htext : parseArray text = some rows)
    (hlen : rows.length ≤ pointJsArrayMax) (honce : ∀ row ∈ rows, SingleMembers row)
    (ptsJs : PointJsArray) {target : List Point} (htarget : rows.length ≤ target.length) :
    pointsJsonDecode J ptsJs text target =
      ((rows.length : Int), pointsJsonDecode.loop (ptsJs.assignRows rows) 0 rows.length target) := by
  rw [pointsJsonDecode, hJ.arr text rows ptsJs htext hlen honce]
  simp only [PointJsArray.assignRows, Nat.min_eq_right htarget]
  rfl

theorem elementAlike_iff (hJ : J.ReadsMembers) (htext : parseArray text = some rows)
    (hlen : rows.length ≤ pointJsArrayMax) (honce : ∀ row ∈ rows, SingleMembers row)
    (ptsJs : PointJsArray) {target : List Point} (htarget : rows.length ≤ target.length) {i : Nat}
    {row : Row} (hi : rows[i]? = some row) :
    ElementAlike J ptsJs text target i row ↔ ∀ q, target[i]? = some q →
      (decodedRow (ptsJs.points i) row q).2.Agrees (decodedRow .zero row q).2 ∧
        ((decodedRow (ptsJs.points i) row q).1 = 0 ↔ (decodedRow .zero row q).1 = 0) := by
  have hrow := List.mem_of_getElem? hi
  have hlt := (List.getElem?_eq_some_iff.mp hi).1
  have hparse := hJ.arr text rows ptsJs htext hlen honce
  have helement {q : Point} (hq : target[i]? = some q) :
      (pointsJsonDecode J ptsJs text target).2[i]? = some (decodedRow (ptsJs.points i) row q).2 := by
    rw [pointsJsonDecode_rows hJ htext hlen honce ptsJs htarget, getElem?_decodeLoop _ _ _ _ hlt, hq,
      Nat.zero_add, getElem?_assignRows hi]
    rfl
  have hobject : parseObject (objectText row) = some row :=
    parseObject_objectText ((parseArray_sound htext).1 row hrow)
  have hsingle {object : Bytes} (hparse : parseObject object = some row) (q : Point) :
      pointJsToPoint (J.objParse object .zero).2 q = decodedRow .zero row q := by
    obtain ⟨ret, -, heq⟩ := hJ.obj object row .zero hparse (honce row hrow)
    rw [heq]
    rfl
  have harray (q : Point) : pointJsToPoint ((J.arrParse text ptsJs).2.points i) q =
      decodedRow (ptsJs.points i) row q := by
    rw [hparse, getElem?_assignRows hi]
    rfl
  constructor
  · intro h q hq
    obtain ⟨⟨p, hp, hagrees⟩, hret⟩ := h q _ hq hobject
    obtain rfl := Option.some.inj ((helement hq).symm.trans hp)
    rw [agrees_pointJsonDecode hJ hobject (honce row hrow)] at hagrees
    rw [harray, hsingle hobject] at hret
    exact ⟨hagrees, hret⟩
  · intro h q object hq hparse
    obtain ⟨hagrees, hret⟩ := h q hq
    refine ⟨⟨_, helement hq, (agrees_pointJsonDecode hJ hparse (honce row hrow) _ _).mpr hagrees⟩, ?_⟩
    rw [harray, hsingle hparse]
    exact hret

/-- **The array decoder** agrees with the decoder of one object exactly on complete objects. -/
theorem decodesAlike_iff (hJ : J.ReadsMembers) (htext : parseArray text = some rows)
    (hlen : rows.length ≤ pointJsArrayMax) (honce : ∀ row ∈ rows, SingleMembers row) :
    DecodesAlike J text rows ↔ ∀ row ∈ rows, Complete row := by
  constructor
  · intro h row hrow
    obtain ⟨i, hi⟩ := List.mem_iff_getElem?.mp hrow
    have hlt := (List.getElem?_eq_some_iff.mp hi).1
    refine complete_of_agrees fun prior => ?_
    have htarget : rows.length ≤ (List.replicate rows.length Point.zero).length := by simp
    have hzero : (List.replicate rows.length Point.zero)[i]? = some .zero := by simp [hlt]
    have helement := (h ⟨fun _ => prior, 0⟩ _ htarget).2 i row hi
    rw [elementAlike_iff hJ htext hlen honce _ htarget hi] at helement
    exact (helement _ hzero).1.defaultKey
  · intro h ptsJs target htarget
    rw [pointsJsonDecode_rows hJ htext hlen honce ptsJs htarget]
    refine ⟨rfl, fun i row hi => ?_⟩
    rw [elementAlike_iff hJ htext hlen honce _ htarget hi]
    intro q _
    rw [(h row (List.mem_of_getElem? hi)).decodedRow_eq (ptsJs.points i) .zero q]
    exact ⟨.refl _, Iff.rfl⟩

end

/-- Members in another order, one that the decoder does not know, and a value that is not needed. -/
theorem decodesAlike_temp :
    DecodesAlike .reference
      (lit "[ \x7b\"k\":\"0\", \"x\":\"\", \"d\":\"21\", \"dt\":\"INT\", \"t\":\"temp\"\x7d,
        \x7b\"t\":\"lamp\", \"k\":\"\", \"dt\":\"BOOL\"\x7d ]")
      [[⟨lit "k", lit "0"⟩, ⟨lit "x", []⟩, ⟨lit "d", lit "21"⟩, ⟨lit "dt", lit "INT"⟩,
        ⟨lit "t", lit "temp"⟩], [⟨lit "t", lit "lamp"⟩, ⟨lit "k", []⟩, ⟨lit "dt", lit "BOOL"⟩]] :=
  (decodesAlike_iff JsonLib.reference_readsMembers (by decide) (by decide) (by decide)).mpr (by
    simp only [List.forall_mem_cons]
    exact ⟨⟨by decide, by decide, lit "INT", by decide, .inr (.inl (by decide))⟩,
      ⟨by decide, by decide, lit "BOOL", by decide, .inl (by decide)⟩, by simp⟩)

/-- An object without a type is taken with the type that the stack held. -/
theorem not_decodesAlike_noType :
    let object := lit "\x7b\"k\":\"0\",\"dt\":\"INT\",\"d\":\"21\"\x7d"
    let row : Row := [⟨lit "k", lit "0"⟩, ⟨lit "dt", lit "INT"⟩, ⟨lit "d", lit "21"⟩]
    parseArray (lit "[" ++ object ++ lit "]") = some [row] ∧ SingleMembers row ∧
      ¬ DecodesAlike .reference (lit "[" ++ object ++ lit "]") [row] := by
  refine ⟨by decide, by decide, fun h => ?_⟩
  have hstale := (h ⟨fun _ => .ofStrings (lit "stale") [] [] [], 0⟩ [.zero] (by decide)).2 0 _ rfl
  have htaken :=
    (hstale .zero (lit "\x7b\"k\":\"0\",\"dt\":\"INT\",\"d\":\"21\"\x7d") rfl (by decide)).2
  exact absurd htaken (by decide)

end ZephyrSiot
