import ZephyrSiot.Verify.ArrayDecode

/-!
# What a decoded point is determined by

`point_json_decode` refuses an object without a type or a key, and leaves the rest to
`point_js_to_point`, whose result it drops. An object without a data type is refused there, before
anything but the time is written: the decoder reports success, and the point is the one that the
caller passed in (`determined_iff`). An unknown data type is refused as well, but by then the point
has been written.
-/

namespace ZephyrSiot
open CStr JsonText

/-! ## The conversion -/

namespace Point

theorem SameValue.of_word {p q : Point}
    (hdt : p.dataType = pointDataTypeFloat ∨ p.dataType = pointDataTypeInt)
    (h : readLe32 p.data.bytes = readLe32 q.data.bytes) : p.SameValue q := by
  unfold SameValue getFloat getInt
  rw [h]
  rcases hdt with hdt | hdt <;> rw [hdt]
  · exact rfl
  · exact rfl

theorem SameValue.of_str {p q : Point} (hdt : TextDataType p.dataType)
    (h : p.data.str = q.data.str) : p.SameValue q := by
  unfold SameValue
  rw [h]
  rcases hdt with hdt | hdt <;> rw [hdt]
  · exact rfl
  · exact rfl

theorem SameValue.of_unknown {p q : Point} (hdt : p.dataType = pointDataTypeUnknown) :
    p.SameValue q := by
  unfold SameValue
  rw [hdt]
  trivial

end Point

/-- A word stored at the start of a field is read back, whatever the field held. -/
theorem readLe32_poke_congr (a b : CharArray 20) (v : Int) :
    readLe32 (a.poke 0 (le32 v)).bytes = readLe32 (b.poke 0 (le32 v)).bytes :=
  Int.natCast_inj.mp ((readLe32_poke (n := 16) a v).trans (readLe32_poke (n := 16) b v).symm)

/-- The conversion of a `point_js` without `NULL` pointers writes all that a getter reads. -/
theorem agrees_pointJsToPoint (t k dt d : Bytes) (p q : Point) :
    (pointJsToPoint (.ofStrings t k dt d) p).2.Agrees
      (pointJsToPoint (.ofStrings t k dt d) q).2 := by
  rw [pointJsToPoint_some, pointJsToPoint_some]
  refine ⟨?_, ?_, rfl, ?_⟩
  · exact (copyStrField_str ..).trans (copyStrField_str ..).symm
  · exact (copyStrField_str ..).trans (copyStrField_str ..).symm
  · rcases dataTypeOfCode_cases dt with h | h | h | h
    · exact .of_unknown h
    · refine .of_word (.inl h) ?_
      rw [h]
      exact readLe32_poke_congr ..
    · refine .of_word (.inr h) ?_
      rw [h]
      exact readLe32_poke_congr ..
    · exact .of_str h ((decodedRun_text h p.data d).2.trans (decodedRun_text h q.data d).2.symm)

/-! ## The decoder -/

/-- The pointer that a member of the name sets. The token `d` has a length and no `NULL`. -/
def PointJs.pointer (js : PointJs) (name : Bytes) : Option Bytes :=
  if name = lit "t" then js.t
  else if name = lit "k" then js.k
  else if name = lit "dt" then js.dt
  else none

/-- The names of the members whose pointers start out as `NULL`. -/
def pointerNames : List Bytes := [lit "t", lit "k", lit "dt"]

/-- `Occurs name text` says that the object `text` has a member of that name: the parser writes
the pointers whose members occur in the object, and no others. -/
structure JsonLib.WritesOccurring (J : JsonLib) (Occurs : Bytes → Bytes → Prop) : Prop where
  written : ∀ name ∈ pointerNames, ∀ text prior, 0 ≤ (J.objParse text prior).1 →
    Occurs name text → (J.objParse text prior).2.pointer name ≠ none
  kept : ∀ name ∈ pointerNames, ∀ text prior,
    ¬ Occurs name text → (J.objParse text prior).2.pointer name = prior.pointer name

/-- After a successful decode the point is determined by the text: it looks the same whatever the
target held. -/
def Determined (J : JsonLib) (text : Bytes) : Prop :=
  ∀ p q, 0 ≤ (pointJsonDecode J text p).1 →
    (pointJsonDecode J text p).2.Agrees (pointJsonDecode J text q).2

theorem PointJs.pointer_zero (name : Bytes) : PointJs.zero.pointer name = none := by
  unfold pointer
  split
  · rfl
  split
  · rfl
  split <;> rfl

section
variable {J : JsonLib} {Occurs : Bytes → Bytes → Prop} {text : Bytes}

/-- Over a cleared `point_js` a pointer is `NULL` exactly when its member is missing. -/
theorem JsonLib.WritesOccurring.pointer_eq_none (hJ : J.WritesOccurring Occurs)
    (h : 0 ≤ (J.objParse text .zero).1) (name : Bytes) (hname : name ∈ pointerNames) :
    (J.objParse text .zero).2.pointer name = none ↔ ¬ Occurs name text := by
  refine ⟨fun hnull hoccurs => hJ.written name hname text .zero h hoccurs hnull, fun hoccurs => ?_⟩
  rw [hJ.kept name hname text .zero hoccurs, PointJs.pointer_zero]

/-- The decoder converts what the parser made of the text, unless a check of its own fails. -/
theorem pointJsonDecode_cases (h : 0 ≤ (J.objParse text .zero).1) (p : Point) :
    pointJsonDecode J text p =
      if (J.objParse text .zero).2.t = none ∨ (J.objParse text .zero).2.k = none then (-200, p)
      else (0, (pointJsToPoint (J.objParse text .zero).2 p).2) := by
  rw [pointJsonDecode]
  dsimp only
  rw [if_neg (Int.not_lt.mpr h)]

/-- **A successful decode is a complete one** unless the object has a type and a key and no data
type. -/
theorem determined_iff (hJ : J.WritesOccurring Occurs) (h : 0 ≤ (J.objParse text .zero).1) :
    Determined J text ↔
      ¬ (Occurs (lit "t") text ∧ Occurs (lit "k") text ∧ ¬ Occurs (lit "dt") text) := by
  have ht := hJ.pointer_eq_none h (lit "t") (by decide)
  have hk := hJ.pointer_eq_none h (lit "k") (by decide)
  have hdt := hJ.pointer_eq_none h (lit "dt") (by decide)
  change (J.objParse text .zero).2.t = none ↔ _ at ht
  change (J.objParse text .zero).2.k = none ↔ _ at hk
  change (J.objParse text .zero).2.dt = none ↔ _ at hdt
  have hdecode := pointJsonDecode_cases h
  generalize (J.objParse text .zero).2 = js at ht hk hdt hdecode
  constructor
  · rintro hdetermined ⟨hot, hok, hodt⟩
    -- the conversion stops after the time, so a type that stood there stays
    have hleft (p : Point) : pointJsonDecode J text p = (0, { p with time := 0 }) := by
      rw [hdecode, if_neg, pointJsToPoint_none (.inr (.inr (hdt.mpr hodt)))]
      rw [ht, hk]
      exact fun h => h.elim (· hot) (· hok)
    have hagrees := hdetermined .zero (Point.zero.setType (lit "x"))
    rw [hleft, hleft] at hagrees
    exact absurd (hagrees (by decide)).type (by decide)
  · intro hcomplete p q hret
    rw [hdecode] at hret ⊢
    rw [hdecode]
    split at hret
    · change (0 : Int) ≤ -200 at hret
      exact absurd hret (by decide)
    next hpresent =>
    rw [if_neg hpresent, if_neg hpresent]
    obtain ⟨t, k, dt, d⟩ := js
    cases t with
    | none => exact (hpresent (.inl rfl)).elim
    | some t => cases k with
      | none => exact (hpresent (.inr rfl)).elim
      | some k => cases dt with
        | none =>
          have hot := not_not.mp fun hmissing => Option.some_ne_none t (ht.mpr hmissing)
          have hok := not_not.mp fun hmissing => Option.some_ne_none k (hk.mpr hmissing)
          exact (hcomplete ⟨hot, hok, hdt.mp rfl⟩).elim
        | some dt => exact agrees_pointJsToPoint t k dt d p q

end

/-! ## The reference library -/

/-- The text has a member of the name, by the grammar of `JsonText`. -/
def HasMember (name text : Bytes) : Prop :=
  ∃ row, parseObject text = some row ∧ name ∈ row.map Member.name

theorem lookup_eq_none_iff {name : Bytes} {row : Row} :
    lookup name row = none ↔ name ∉ row.map Member.name := by
  rw [lookup, Option.map_eq_none_iff, List.find?_eq_none, List.mem_map]
  simp

theorem PointJs.pointer_assignRow (prior : PointJs) (row : Row) {name : Bytes}
    (h : name ∈ pointerNames) :
    (prior.assignRow row).pointer name = (lookup name row).or (prior.pointer name) := by
  rw [assignRow_eq]
  simp only [pointerNames, List.mem_cons, List.not_mem_nil, or_false] at h
  rcases h with rfl | rfl | rfl <;> rfl

theorem JsonLib.reference_writesOccurring : reference.WritesOccurring HasMember where
  written name hname text prior _ := by
    rintro ⟨row, hrow, hmem⟩
    simp only [reference, hrow]
    rw [PointJs.pointer_assignRow _ _ hname, Ne, Option.or_eq_none_iff, lookup_eq_none_iff]
    exact fun hnone => hnone.1 hmem
  kept name hname text prior hmissing := by
    simp only [reference]
    split
    · rfl
    next row hrow =>
      rw [PointJs.pointer_assignRow _ _ hname,
        lookup_eq_none_iff.mpr fun hmem => hmissing ⟨row, hrow, hmem⟩, Option.none_or]

/-- An unknown data type leaves nothing to chance, nor does a missing value. -/
theorem determined_noValue :
    Determined .reference (lit "\x7b\"t\":\"temp\",\"k\":\"\",\"dt\":\"\"\x7d") := by
  refine (determined_iff JsonLib.reference_writesOccurring (by decide)).mpr fun h => h.2.2 ?_
  exact ⟨[⟨lit "t", lit "temp"⟩, ⟨lit "k", []⟩, ⟨lit "dt", []⟩], by decide, by decide⟩

/-- Without a data type the decoder reports success and the point stays what it was. -/
theorem not_determined_noDataType :
    let text := lit "\x7b\"t\":\"temp\",\"k\":\"0\",\"d\":\"21\"\x7d"
    (pointJsonDecode .reference text .zero).1 = 0 ∧ ¬ Determined .reference text := by
  refine ⟨by decide, fun h => ?_⟩
  exact absurd (h .zero (Point.zero.setType (lit "lamp")) (by decide)).type (by decide)

end ZephyrSiot
