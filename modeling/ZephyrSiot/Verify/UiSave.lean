import ZephyrSiot.Frontend
import ZephyrSiot.Verify.PostChunks

/-!
# Settings saved from the web page

`apps/siot-net/frontend/src/Api/Point.elm` sends edited points as one POST. The handler takes the
text in any chunks when it has at most 255 characters and the points can be described for the log,
and refuses it when it has more than 256 (`fits_or_refused`). Five points of ordinary length can
have more, or have a longer description.
-/

namespace ZephyrSiot
open CStr JsonText

/-! ## The text -/

def Printable (s : Bytes) : Prop := ∀ c ∈ s, 0x20 ≤ c ∧ c ≤ 0x7e

instance : DecidablePred Printable := fun s => inferInstanceAs (Decidable (∀ c ∈ s, _))

/-- The strings fit the fields of a point. -/
structure UiPoint.Fits (p : UiPoint) : Prop where
  typ : Printable p.typ ∧ p.typ.length ≤ 23
  key : Printable p.key ∧ p.key.length ≤ 22
  dataType : Printable p.dataType ∧ p.dataType.length ≤ 3
  data : Printable p.data ∧ p.data.length ≤ 19

instance : DecidablePred UiPoint.Fits := fun p =>
  decidable_of_iff ((Printable p.typ ∧ p.typ.length ≤ 23) ∧ (Printable p.key ∧ p.key.length ≤ 22) ∧
      (Printable p.dataType ∧ p.dataType.length ≤ 3) ∧ Printable p.data ∧ p.data.length ≤ 19)
    ⟨fun ⟨h1, h2, h3, h4⟩ => ⟨h1, h2, h3, h4⟩, fun ⟨h1, h2, h3, h4⟩ => ⟨h1, h2, h3, h4⟩⟩

/-- The element that is decoded from the point. -/
def UiPoint.js (p : UiPoint) : PointJs :=
  .ofStrings (escape p.typ) (escape p.key) (escape p.dataType) (escape p.data)

/-- The point that a POST makes of it. -/
def UiPoint.decoded (p : UiPoint) : Point := (pointJsToPoint p.js .zero).2

def UiPoint.KnownType (p : UiPoint) : Prop :=
  p.dataType ∈ [pointDataTypeFloatS, pointDataTypeIntS, pointDataTypeStringS, pointDataTypeJsonS]

theorem Printable.body {s : Bytes} (h : Printable s) : Body (escape s) := by
  refine body_escape_iff.mpr fun c hc hctl => ?_
  have := (h c hc).1
  simp only [IsControl, UInt8.le_iff_toNat_le, UInt8.lt_iff_toNat_lt] at this hctl
  exact absurd hctl (Nat.not_lt.mpr this)

theorem UiPoint.Fits.legalRow {p : UiPoint} (h : p.Fits) : LegalRow p.encode :=
  .of_members h.typ.1.body h.key.1.body h.dataType.1.body h.data.1.body

/-- The length of the text, by the lengths of the strings. -/
theorem length_encodeList {ps : List UiPoint} (h : ps ≠ []) :
    (encodeList ps).length = 1 + (ps.map fun p => 31 + (escape p.typ).length +
      (escape p.key).length + (escape p.dataType).length + (escape p.data).length).sum := by
  rw [encodeList, length_arrayText (mt List.map_eq_nil_iff.mp h), List.map_map]
  congr 2
  refine List.map_congr_left fun p _ => ?_
  simp [objectText, objectTokens, UiPoint.encode, separated, Member.tokens, Token.text, lit]
  omega

theorem UiPoint.KnownType.taken {p : UiPoint} (h : p.KnownType) :
    (pointJsToPoint p.js .zero).1 = 0 := by
  have hcode : ∀ dt ∈ [pointDataTypeFloatS, pointDataTypeIntS, pointDataTypeStringS, pointDataTypeJsonS],
      dataTypeOfCode (escape dt) ≠ pointDataTypeUnknown := by decide
  rw [UiPoint.js, pointJsToPoint_some]
  exact if_neg (hcode _ h)

/-! ## Acceptance -/

section
variable (J : JsonLib) (boardTarget : Bytes)

/-- All callbacks of the request have the result `ret`. -/
def Returns (P : Int → Prop) (s : WebState) (es : List WebEvent) : Prop :=
  Machine.AtEveryStep (webStep J boardTarget)
    (OnCallback fun s ptsJs cb => P (v1Handler J boardTarget ptsJs s cb).ret) s es

/-- The request goes through: no callback fails, the decoder counts all points, each element is
decoded from the strings of its point, and the conversion takes those of a known type. -/
structure Accepted (s : WebState) (es : List WebEvent) (ptsJs : PointJsArray) (cb : HttpCallback)
    (ps : List UiPoint) : Prop where
  callbacks : Returns J boardTarget (· = 0) s (es ++ [.callback ptsJs cb])
  count : (pointsJsonDecode J ptsJs
      (decoderInput (Machine.run (webStep J boardTarget) s es) cb).1 (.replicate 5 .zero)).1 = ps.length
  decoded : (pointsJsonDecode J ptsJs
      (decoderInput (Machine.run (webStep J boardTarget) s es) cb).1 (.replicate 5 .zero)).2.take
        ps.length = ps.map fun p => (pointJsToPoint p.js .zero).2
  taken : ∀ p ∈ ps, p.KnownType → (pointJsToPoint p.js .zero).1 = 0

variable {J boardTarget} {ptsJs : PointJsArray} {s : WebState} {cb : HttpCallback}
  {es : List WebEvent} {ps : List UiPoint}

/-- A callback returns 0 or -ENOMEM. -/
theorem returns_ne_enomem_iff :
    Returns J boardTarget (· ≠ -enomem) s es ↔ Returns J boardTarget (· = 0) s es := by
  refine Machine.atEveryStep_congr (I := fun _ => True) (fun _ _ h => h) (fun s e _ => ?_) trivial es
  cases e with
  | message p => exact Iff.rfl
  | callback ptsJs cb =>
    have henomem : -enomem ≠ 0 := by decide
    rw [OnCallback, OnCallback, ret_v1Handler]
    split
    · exact iff_of_false (fun h => h rfl) henomem
    · exact iff_of_true henomem.symm rfl

theorem Buffered.ret_iff {acc : Bytes} (h : Buffered s acc) (hmethod : cb.method = .post) :
    (v1Handler J boardTarget ptsJs s cb).ret = 0 ↔ (acc ++ cb.data).length ≤ 256 := by
  have henomem : ¬ -enomem = 0 := by decide
  rw [ret_v1Handler, List.length_append, ← h.cursor]
  simp only [hmethod, true_and]
  split
  · exact iff_of_false henomem (by omega)
  · exact iff_of_true rfl (by omega)

/-- The chunks go through exactly when they fit into the buffer together. -/
theorem Buffered.returns_iff {acc : Bytes} (h : Buffered s acc) (hacc : acc.length ≤ 256)
    (hes : ∀ e ∈ es, IsChunk e) :
    Returns J boardTarget (· = 0) s es ↔ (acc ++ collected es).length ≤ 256 := by
  induction es generalizing s acc with
  | nil =>
    rw [collected, List.flatMap_nil, List.append_nil]
    exact iff_of_true trivial hacc
  | cons e es ih =>
    rw [List.forall_mem_cons] at hes
    rw [collected_cons, ← List.append_assoc]
    have hstep : OnCallback (fun s ptsJs cb => (v1Handler J boardTarget ptsJs s cb).ret = 0) s e ↔
        (acc ++ collected [e]).length ≤ 256 := by
      cases e with
      | message p => exact iff_of_true trivial (by simpa [collected] using hacc)
      | callback ptsJs cb =>
        have hdata : collected [.callback ptsJs cb] = cb.data := List.append_nil _
        rw [hdata]
        exact h.ret_iff hes.1.1
    rw [Returns, Machine.AtEveryStep, hstep]
    rcases Classical.em ((acc ++ collected [e]).length ≤ 256) with hfits | hover
    · rw [← ih (h.step hes.1 hfits) hfits hes.2]
      exact and_iff_right hfits
    · refine iff_of_false (fun hret => hover hret.1) fun hlen => ?_
      rw [List.length_append] at hlen
      omega

theorem decodes_encodeList (ptsJs : PointJsArray) (hJ : J.Lawful) (hps : ∀ p ∈ ps, p.Fits)
    (hcount : ps.length ≤ 5) :
    (pointsJsonDecode J ptsJs (encodeList ps) (.replicate 5 .zero)).1 = ps.length ∧
      (pointsJsonDecode J ptsJs (encodeList ps) (.replicate 5 .zero)).2.take ps.length =
        ps.map fun p => (pointJsToPoint p.js .zero).2 := by
  have hrows : ∀ row ∈ ps.map UiPoint.encode, LegalRow row := by
    intro row hrow
    obtain ⟨p, hp, rfl⟩ := List.mem_map.mp hrow
    exact (hps p hp).legalRow
  have hparse := hJ.parse (ps.map UiPoint.encode) ptsJs
    (by rw [List.length_map]; exact hcount.trans (by decide)) hrows
  have hmin : min (List.replicate 5 Point.zero).length (ps.map UiPoint.encode).length = ps.length := by
    rw [List.length_replicate, List.length_map, Nat.min_eq_right hcount]
  rw [pointsJsonDecode, encodeList, hparse]
  simp only [PointJsArray.assignRows, hmin]
  refine ⟨rfl, ?_⟩
  change (pointsJsonDecode.loop _ 0 ps.length _).take ps.length = _
  rw [decodeLoop_zero _ _ _ _ hcount, ← List.range_eq_range']
  refine List.ext_getElem (by simp) fun i hi _ => ?_
  have hi' : i < ps.length := by simpa using hi
  simp only [List.getElem_map, List.getElem_range]
  rw [List.getElem?_map, List.getElem?_eq_getElem hi']
  rfl

theorem postPoints_encodeList (ptsJs : PointJsArray) (hJ : J.Lawful) (hps : ∀ p ∈ ps, p.Fits)
    (hcount : ps.length ≤ 5) : postPoints J ptsJs (encodeList ps) = ps.map UiPoint.decoded := by
  obtain ⟨hret, hpts⟩ := decodes_encodeList ptsJs hJ hps hcount
  rw [postPoints]
  dsimp only
  rw [hret, if_neg (by omega), Int.toNat_natCast, hpts]
  rfl

/-- **Saved settings.** -/
theorem fits_or_refused (hJ : J.Lawful) (hps : ∀ p ∈ ps, p.Fits) (hcount : ps.length ≤ 5)
    {history : List WebEvent} (hhistory : History J boardTarget .init history)
    {formatFloat : UInt32 → Bytes} (hdescribed : Described J boardTarget formatFloat .init history)
    (hes : Delivers es cb (encodeList ps)) (ptsJs : PointJsArray) :
    let s := Machine.run (webStep J boardTarget) .init history
    ((encodeList ps).length ≤ 255 → HeadsFit formatFloat 128 0 (ps.map UiPoint.decoded) →
        Accepted J boardTarget s es ptsJs cb ps ∧
          Described J boardTarget formatFloat .init (history ++ es ++ [.callback ptsJs cb])) ∧
      (256 < (encodeList ps).length →
        ¬ Returns J boardTarget (· ≠ -enomem) s (es ++ [.callback ptsJs cb])) := by
  intro s
  have hbuffered : Buffered s [] := buffered_nil (hhistory.cursor rfl)
  -- the final callback is one more chunk for the check
  have hreturns : Returns J boardTarget (· = 0) s (es ++ [.callback ptsJs cb]) ↔
      (encodeList ps).length ≤ 256 := by
    have hchunks : Returns J boardTarget (· = 0) s es ↔ (collected es).length ≤ 256 :=
      hbuffered.returns_iff (Nat.zero_le _) hes.chunks
    refine (Machine.atEveryStep_append es _).trans ((and_congr_left' hchunks).trans ?_)
    rw [← hes.body]
    constructor
    · rintro ⟨hfits, hret, -⟩
      exact ((hbuffered.run hes.chunks hfits).ret_iff hes.method).mp hret
    · intro hlen
      have hfits : (collected es).length ≤ 256 := by
        rw [List.length_append] at hlen
        omega
      exact ⟨hfits, ((hbuffered.run hes.chunks hfits).ret_iff hes.method).mpr hlen, trivial⟩
  constructor
  · intro hlen hheads
    obtain ⟨hpost, hinput⟩ := hes.decoderInput hlen hhistory
    have hdumps := (described_v1Handler J boardTarget ptsJs hpost).mpr
      (by rwa [hinput, postPoints_encodeList ptsJs hJ hps hcount])
    rw [Machine.run_append] at hinput
    obtain ⟨hcounted, hdecoded⟩ := decodes_encodeList ptsJs hJ hps hcount
    refine ⟨⟨hreturns.mpr (by omega), ?_, ?_, fun p _ => UiPoint.KnownType.taken⟩,
      hdescribed.delivers hes.chunks hdumps⟩
    · rw [hinput, hcounted]
    · rw [hinput, hdecoded]
  · intro hlen hret
    rw [returns_ne_enomem_iff, hreturns] at hret
    omega

end

/-- A new name and address. -/
def shortForm : List UiPoint :=
  [⟨lit "description", lit "0", lit "STR", lit "the \"lab\""⟩,
    ⟨lit "address", lit "0", lit "STR", lit "192.168.1.7"⟩]

theorem fits_or_refused_shortForm :
    Accepted .reference [] .init [] .zero (postOf (encodeList shortForm)) shortForm ∧
      Described .reference [] (fun _ => []) .init
        [.callback .zero (postOf (encodeList shortForm))] :=
  (fits_or_refused JsonLib.reference_lawful (by decide) (by decide) .nil trivial
    ⟨by simp, rfl, by decide, rfl, rfl⟩ .zero).1 (by decide) (by decide +kernel)

/-- A form of which the text fits and the description does not. -/
def ordinaryForm : List UiPoint :=
  [⟨lit "description", lit "0", lit "STR", lit "kitchen"⟩,
    ⟨lit "staticIP", lit "0", lit "INT", lit "1"⟩,
    ⟨lit "address", lit "0", lit "STR", lit "10.0.0.5"⟩,
    ⟨lit "netmask", lit "0", lit "STR", lit "255.0.0.0"⟩,
    ⟨lit "gateway", lit "0", lit "STR", lit "10.0.0.1"⟩]

example : (encodeList ordinaryForm).length = 249 ∧
    ¬ HeadsFit (fun _ => []) 128 0 (ordinaryForm.map UiPoint.decoded) := by decide +kernel

/-- The settings form, filled in. -/
def wholeForm : List UiPoint :=
  [⟨lit "description", lit "0", lit "STR", lit "greenhouse north 12"⟩,
    ⟨lit "staticIP", lit "0", lit "INT", lit "1"⟩,
    ⟨lit "address", lit "0", lit "STR", lit "192.168.100.100"⟩,
    ⟨lit "netmask", lit "0", lit "STR", lit "255.255.255.128"⟩,
    ⟨lit "gateway", lit "0", lit "STR", lit "192.168.100.101"⟩]

/-- Its text has 281 characters. -/
theorem not_accepted_wholeForm :
    wholeForm.length ≤ 5 ∧ (∀ p ∈ wholeForm, p.Fits) ∧ (encodeList wholeForm).length = 281 ∧
      ¬ Accepted .reference [] .init [] .zero (postOf (encodeList wholeForm)) wholeForm := by
  refine ⟨by decide, by decide, by decide +kernel, fun h => ?_⟩
  have hret : (v1Handler .reference [] .zero .init (postOf (encodeList wholeForm))).ret = -enomem := by
    rw [ret_v1Handler, if_pos (by decide +kernel)]
  have henomem : ¬ -enomem = 0 := by decide
  exact henomem (hret.symm.trans h.callbacks.1)

end ZephyrSiot
