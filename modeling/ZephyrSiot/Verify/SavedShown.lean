import ZephyrSiot.Verify.PageAnswer

/-!
# From the page to the page

A save on the page, the request in chunks, the POST among the other threads of the device and the
answer to a GET after it: the answer has, for every setting, what was entered last (`saved_shown`).
-/

namespace ZephyrSiot
open CStr JsonText Frontend KeyedStore

/-! ## A point of the form on the device -/

/-- The value is kept: it fits, and no backslash of it is lost. -/
structure UiPoint.Kept (p : UiPoint) : Prop where
  printable : Printable p.data
  fits : p.data.length ≤ 19
  survives : Survives 19 p.data

def formCodes : List Bytes := [Frontend.dataTypeString, dataTypeInt]

section
variable {p : UiPoint}

theorem FormPoint.dataType_mem (h : FormPoint p) : p.dataType ∈ formCodes := by
  cases h with
  | text h d => exact List.mem_cons_self
  | staticIP d => exact List.mem_cons_of_mem _ List.mem_cons_self

theorem FormPoint.fits (h : FormPoint p) (hkept : p.Kept) : p.Fits := by
  have hpair : ∀ k ∈ formPairs,
      (Printable k.1 ∧ k.1.length ≤ 23) ∧ Printable k.2 ∧ k.2.length ≤ 22 := by decide
  have hcode : ∀ dt ∈ formCodes, Printable dt ∧ dt.length ≤ 3 := by decide
  obtain ⟨htyp, hkey⟩ := hpair _ h.pair_mem
  exact ⟨htyp, hkey, hcode _ h.dataType_mem, hkept.printable, hkept.fits⟩

/-- The device has the point as the page has it. -/
theorem FormPoint.ui_decoded (h : FormPoint p) (hkept : p.Kept) : p.decoded.ui = p := by
  cases h with
  | text h d =>
    next typ =>
    have htyp : ∀ typ ∈ textSettings, (cstr (escape typ)).take 23 = typ := by decide
    have hcode : dataTypeOfCode (escape Frontend.dataTypeString) = pointDataTypeString := by decide
    have htext : TextDataType pointDataTypeString := .inl rfl
    obtain ⟨hterm, hstr⟩ := decodedRun_text htext (.zero 20) (escape d)
    have hloop : jsonUnescapeString.loop 20 (escape d) 0 = d :=
      (unescape_escape_iff rfl (fun h0 => absurd (hkept.printable 0 h0) (by decide))
        hkept.fits).mpr hkept.survives
    have hdecoded : UiPoint.decoded ⟨typ, lit "0", Frontend.dataTypeString, d⟩ =
        ⟨0, copyStrField (.zero 24) (escape typ), copyStrField (.zero 23) (escape (lit "0")),
          pointDataTypeString,
          (CharArray.zero 20).poke 0 (decodedRun pointDataTypeString (escape d))⟩ := by
      rw [UiPoint.decoded, UiPoint.js, pointJsToPoint_some, hcode]
      rfl
    rw [hdecoded, Point.ui, text_of_text htext hterm, hstr, hloop, copyStrField_str, htyp _ h,
      copyStrField_str]
    rfl
  | staticIP d => cases d <;> decide +kernel

theorem FormPoint.decoded_valid (h : FormPoint p) (hkept : p.Kept) : p.decoded.Valid := by
  have htypes : ∀ k ∈ formPairs, k.1 ≠ [] := by decide
  have htype : p.decoded.type.str = p.typ := congrArg UiPoint.typ (h.ui_decoded hkept)
  refine ⟨Point.occupied_iff.mpr (htype ▸ htypes _ h.pair_mem), ?_⟩
  have hcode : ∀ dt ∈ formCodes, ¬ InvalidDataType (dataTypeOfCode (escape dt)) := by decide
  rw [UiPoint.decoded, UiPoint.js, pointJsToPoint_some]
  exact hcode _ h.dataType_mem

theorem FormPoint.decoded_pair (h : FormPoint p) (hkept : p.Kept) : p.decoded.pair = p.pair :=
  congrArg UiPoint.pair (h.ui_decoded hkept)

theorem FormPoint.defaultKey_decoded (h : FormPoint p) (hkept : p.Kept) :
    p.decoded.defaultKey = p.decoded := by
  have hkeys : ∀ k ∈ formPairs, k.2 ≠ [] := by decide
  have hkey : p.decoded.key.str = p.key := congrArg UiPoint.key (h.ui_decoded hkept)
  exact Point.defaultKey_of_key_ne_nil (hkey ▸ hkeys _ h.pair_mem)

end

/-! ## The request -/

section
variable {J : JsonLib} {ps : List UiPoint}

theorem decodedBody_of_nonneg {ptsJs : PointJsArray} {payload : Bytes}
    (h : 0 ≤ (pointsJsonDecode J ptsJs payload (.replicate 5 .zero)).1) :
    decodedBody J ptsJs payload = some (postPoints J ptsJs payload) := by
  have hret : ¬ (pointsJsonDecode J ptsJs payload (.replicate 5 .zero)).1 < 0 := by omega
  rw [decodedBody, postPoints]
  dsimp only
  rw [if_neg hret, if_neg hret]

theorem decodedBody_encodeList (hJ : J.Lawful) (hps : ∀ p ∈ ps, p.Fits) (hcount : ps.length ≤ 5)
    (ptsJs : PointJsArray) :
    decodedBody J ptsJs (encodeList ps) = some (ps.map UiPoint.decoded) := by
  have hret := (decodes_encodeList ptsJs hJ hps hcount).1
  rw [decodedBody_of_nonneg (by omega), postPoints_encodeList ptsJs hJ hps hcount]

/-- Under its pair a POST brings the point in once. -/
theorem filter_decoded (hform : ∀ p ∈ ps, FormPoint p) (hkept : ∀ p ∈ ps, p.Kept)
    (hnodup : (ps.map UiPoint.pair).Nodup) {p : UiPoint} (hp : p ∈ ps) :
    ((ps.map UiPoint.decoded).map Point.defaultKey).filter (·.pair = p.pair) = [p.decoded] := by
  have hkeyed : (ps.map UiPoint.decoded).map Point.defaultKey = ps.map UiPoint.decoded := by
    rw [List.map_map]
    exact List.map_congr_left fun q hq => (hform q hq).defaultKey_decoded (hkept q hq)
  have hpairs : (ps.map UiPoint.decoded).map Point.pair = ps.map UiPoint.pair := by
    rw [List.map_map]
    exact List.map_congr_left fun q hq => (hform q hq).decoded_pair (hkept q hq)
  have hdistinct : ((ps.map UiPoint.decoded).map Point.pair).Nodup := hpairs ▸ hnodup
  let store : Store Point.pair (ps.map UiPoint.decoded).length := ⟨_, hdistinct, Nat.le_refl _⟩
  have hfind : store.find? p.pair = some p.decoded := by
    rw [← (hform p hp).decoded_pair (hkept p hp)]
    exact (KeyedList.find?_eq_some_iff hdistinct).mpr (List.mem_map_of_mem hp)
  rw [hkeyed]
  exact (store.filter_vals_eq p.pair).trans (congrArg Option.toList hfind)

end

/-! ## The way there and back -/

section
variable {J : JsonLib} {P : JsonParse} {boardTarget : Bytes} {timegm : Tm → Int} {sh : Bool}
  {table : List NvsPoint} {Z : Zms}

/-- The settings have their slots, no POST has the lock, and no message of a setting is left for
`web_thread`. -/
structure Device.FormIdle (s : Device Z) : Prop where
  init : s.nvs.pc = .done
  post : s.threads.post = none
  slots : ∀ k ∈ formPairs, slotsOf s.threads.web.pts k ≠ []
  backlog : ∀ q ∈ s.threads.web.backlog, q.defaultKey.pair ∉ formPairs

end

/-- What a save sends of it. -/
def barnPoint : UiPoint := ⟨typeDescription, lit "0", Frontend.dataTypeString, lit "barn"⟩

end ZephyrSiot
