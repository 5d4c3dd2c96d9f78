import ZephyrSiot.Theory.LineFields
import ZephyrSiot.Verify.QuotedFields
import ZephyrSiot.Verify.Timestamps

/-!
# A report identifies its point

The line that `point_emit` prints joins five fields, six with a time (`pointEmit_eq`). Each of them
is read back from the line, so a text point that fits its arrays is told by its line
(`line_identifies`).
-/

namespace ZephyrSiot
open CStr quoteField LineFields

/-! ## A field -/

namespace quoteField

/-- What a character behind a backslash stands for. -/
def decode (e : UInt8) : Option UInt8 :=
  if e = quote then some quote
  else if e = backslash then some backslash
  else if e = 0x72 then some cr
  else if e = 0x6e then some lf
  else if e = 0x74 then some tab
  else none

/-- An escape is decoded to its character, and no line end is written as it is. -/
theorem escapeOne_decode (c : UInt8) :
    c ∉ [backslash, quote, cr, lf] ∧ escapeOne c = [c] ∨
      ∃ e, escapeOne c = [backslash, e] ∧ decode e = some c ∧ e ∉ [cr, lf] := by
  rcases escapeOne_spec c with ⟨e, hmem, he⟩ | ⟨hmem, he⟩
  · have hall : ∀ x ∈ escapes, decode x.2 = some x.1 ∧ x.2 ∉ [cr, lf] :=
      forall_mem_escapes.mpr (by decide)
    exact .inr ⟨e, he, hall _ hmem⟩
  · exact .inl ⟨fun hc => hmem (List.mem_append_left [tab] hc), he⟩

theorem unescape_escape (s : Bytes) : unescape decode (escape s) = s := by
  refine unescape_flatMap fun c _ => ?_
  rcases escapeOne_decode c with ⟨hc, he⟩ | ⟨e, he, hdec, -⟩
  · exact .inl ⟨fun h => hc (h ▸ List.mem_cons_self), he⟩
  · exact .inr ⟨e, he, hdec⟩

theorem kept_escape (s : Bytes) : Kept .inside (escape s) := by
  refine .flatMap fun c _ => ?_
  rcases escapeOne_decode c with ⟨hc, he⟩ | ⟨e, he, -⟩
  · rw [he]
    simp only [List.mem_cons, List.not_mem_nil, or_false, not_or] at hc
    exact kept_inside hc.2.1 hc.1
  · rw [he]
    exact LineFields.kept_escape e

/-- A field that is written bare. -/
theorem mem_bare {s : Bytes} (h : ¬ NeedsQuote s) {c : UInt8} (hc : c ∈ s) :
    c ∉ [space, quote, backslash, cr, lf] := by
  have hno := (not_or.mp h).2
  intro hmem
  refine hno ⟨c, hc, ?_⟩
  simp only [List.mem_cons, List.not_mem_nil, or_false] at hmem
  rcases hmem with rfl | rfl | rfl | rfl | rfl <;> decide

/-- **A field stands for its string.** -/
theorem unquote_rendering (s : Bytes) : unquote decode (rendering s) = s := by
  unfold rendering
  split
  · rw [unquote_enclosed, unescape_escape]
  · next h =>
    refine unquote_bare fun hq => ?_
    exact mem_bare h (List.mem_of_head? hq) (by decide)

theorem rendering_injective {s t : Bytes} (h : rendering s = rendering t) : s = t := by
  have := congrArg (unquote decode) h
  rwa [unquote_rendering, unquote_rendering] at this

theorem kept_rendering (s : Bytes) : Kept .outside (rendering s) := by
  unfold rendering
  split
  · exact (kept_escape s).enclosed
  · next h =>
    exact kept_outside (fun hq => mem_bare h hq (by decide)) fun hs => mem_bare h hs (by decide)

/-- A field stays on its line. -/
theorem mem_rendering {s : Bytes} {c : UInt8} (h : c ∈ rendering s) : c ∉ [cr, lf] := by
  unfold rendering at h
  split at h
  · rw [List.mem_append, List.mem_cons, List.mem_singleton] at h
    rcases h with (rfl | h) | rfl
    · decide
    · obtain ⟨d, -, hd⟩ := List.mem_flatMap.mp h
      rcases escapeOne_decode d with ⟨hne, he⟩ | ⟨e, he, -, hne⟩
      · rw [he, List.mem_singleton] at hd
        subst hd
        exact fun hmem => hne (List.mem_cons_of_mem _ (List.mem_cons_of_mem _ hmem))
      · rw [he, List.mem_cons, List.mem_singleton] at hd
        rcases hd with rfl | rfl
        · decide
        · exact hne
    · decide
  · next hq =>
    exact fun hmem => mem_bare hq h
      (List.mem_cons_of_mem _ (List.mem_cons_of_mem _ (List.mem_cons_of_mem _ hmem)))

theorem bare_snd {dstLen di : Nat} {s : Bytes} (h : (bare dstLen s di).1 = true) :
    (bare dstLen s di).2 = s := by
  induction s generalizing di with
  | nil => rfl
  | cons c s ih =>
    rw [bare] at h ⊢
    split at h
    · cases h
    · next hroom =>
      rw [if_neg hroom]
      exact congrArg (c :: ·) (ih h)

theorem quoted_snd {dstLen di : Nat} {s : Bytes} (h : (quoted dstLen s di).1 = true) :
    (quoted dstLen s di).2 = escape s := by
  induction s generalizing di with
  | nil => rfl
  | cons c s ih =>
    rw [quoted] at h ⊢
    rw [escape_cons, escapeOne]
    split at h
    · next hc =>
      rw [if_pos hc, if_pos hc]
      split at h
      · cases h
      · next hroom =>
        rw [if_neg hroom]
        exact congrArg (backslash :: esc c :: ·) (ih h)
    · next hc =>
      rw [if_neg hc, if_neg hc]
      split at h
      · cases h
      · next hroom =>
        rw [if_neg hroom]
        exact congrArg (c :: ·) (ih h)

end quoteField

/-- A field that is not dropped is written whole, whatever the room. -/
theorem quoteField_of_nonneg {src : Bytes} {dstLen : Nat} (h : ¬ (quoteField src dstLen).1 < 0) :
    (quoteField src dstLen).2 = rendering (cstr src) ++ [nul] := by
  have hneg : (-1 : Int) < 0 := by decide
  unfold quoteField rendering at *
  dsimp only at h ⊢
  split at h
  · next hq =>
    rw [if_pos hq, if_neg hq]
    split at h
    · next hfits => rw [if_pos hfits, bare_snd hfits]
    · exact (h hneg).elim
  · next hq =>
    rw [if_neg hq, if_pos (not_not.mp hq)]
    split at h
    · exact (h hneg).elim
    · next hroom =>
      rw [if_neg hroom]
      split at h
      · exact (h hneg).elim
      · next hfits =>
        rw [if_neg hfits]
        split at h
        · exact (h hneg).elim
        · next hend =>
          rw [if_neg hend, quoted_snd (by simpa using hfits), List.append_assoc]
          rfl

/-! ## The time -/

/-- The text of a time. -/
def stampText (t : UInt64) : Bytes := cstr (timeconvRfc3339FromEpochNsUtc t rfc3339MaxLen).2

theorem stampText_spec {timegm : Tm → Int} (htimegm : IsTimegm timegm) (t : UInt64) :
    (timeconvRfc3339FromEpochNsUtc t rfc3339MaxLen).1 = 0 ∧ (stampText t).length = 30 ∧
      (∀ c ∈ stampText t, IsDigit c ∨ TimeMark c) ∧
        timeconvEpochNsFromRfc3339 timegm (stampText t) 30 = t := by
  obtain ⟨text, hformat, hlen, hchars, hparse⟩ :=
    timeconvEpochNs_rfc3339 htimegm t (Nat.le_refl rfc3339MaxLen)
  have h0 : 0 ∉ text := fun h => absurd (hchars 0 h) (by decide)
  have hstamp : stampText t = text := by
    rw [stampText, hformat]
    exact cstr_append_zero h0 []
  rw [hstamp, hformat]
  refine ⟨rfl, hlen, hchars, ?_⟩
  have := hparse []
  rwa [List.append_nil] at this

theorem stampText_injective {t t' : UInt64} (h : stampText t = stampText t') : t = t' := by
  rw [← (stampText_spec isTimegm_gregorian t).2.2.2, h,
    (stampText_spec isTimegm_gregorian t').2.2.2]

theorem mem_stampText {t : UInt64} {c : UInt8} (h : c ∈ stampText t) :
    c ∉ [space, quote, cr, lf] := by
  rcases (stampText_spec isTimegm_gregorian t).2.2.1 c h with hd | hm
  · intro hmem
    simp only [List.mem_cons, List.not_mem_nil, or_false] at hmem
    rcases hmem with rfl | rfl | rfl | rfl
    all_goals exact absurd hd (by decide)
  · simp only [TimeMark, List.mem_cons, List.not_mem_nil, or_false] at hm
    rcases hm with rfl | rfl | rfl | rfl | rfl <;> decide

/-! ## The line -/

def dataTypeS (t : UInt8) : Bytes :=
  if t = pointDataTypeFloat then pointDataTypeFloatS
  else if t = pointDataTypeInt then pointDataTypeIntS
  else if t = pointDataTypeString then pointDataTypeStringS
  else pointDataTypeJsonS

/-- The fields of a report. -/
def reportFields (p : Point) : List Bytes :=
  [lit "pt", rendering p.type.str, rendering p.key.str, dataTypeS p.dataType,
    rendering (cstr (p.dataToString 21).2)] ++
      if p.time ≥ pointTimeMin then [stampText p.time] else []

/-- Every field fits its buffer. -/
def FitsBuffers (p : Point) : Prop :=
  ¬ ((quoteField (p.dataToString 21).2 45).1 < 0 ∨ (quoteField p.type.bytes 51).1 < 0 ∨
    (quoteField p.key.bytes 49).1 < 0)

theorem validDataType_cases {t : UInt8} (h : ¬ InvalidDataType t) :
    t = pointDataTypeFloat ∨ t = pointDataTypeInt ∨ TextDataType t := by
  change ¬ (t = 0 ∨ t ≥ 5) at h
  change t = 1 ∨ t = 2 ∨ t = 3 ∨ t = 4
  grind

theorem dataToString_valid {p : Point} (h : ¬ InvalidDataType p.dataType) {bufLen : Nat}
    (hbuf : bufLen ≠ 0) : (p.dataToString bufLen).1 = 0 := by
  rw [Point.dataToString, if_neg hbuf]
  rcases validDataType_cases h with hdt | hdt | hdt | hdt <;> rw [hdt] <;> rfl

/-- **A report** is the line of its fields, where they fit. -/
theorem pointEmit_eq {p : Point} (h : ¬ InvalidDataType p.dataType) (hfits : FitsBuffers p) :
    pointEmit true p = some ([space].intercalate (reportFields p)) := by
  have hread {src : Bytes} {dstLen : Nat} (h : ¬ (quoteField src dstLen).1 < 0)
      (h0 : 0 ∉ cstr src) : cstr (quoteField src dstLen).2 = rendering (cstr src) := by
    rw [quoteField_of_nonneg h]
    exact cstr_append_zero (zero_notMem_rendering h0) []
  obtain ⟨hdata, htype, hkey⟩ := not_or.mp hfits |>.imp_right not_or.mp
  have hret : ¬ (p.dataToString 21).1 ≠ 0 := not_not.mpr (dataToString_valid h (by decide))
  rw [pointEmit, if_neg (by decide), if_neg h]
  dsimp only
  rw [if_neg hret, if_neg hfits, hread hdata (zero_notMem_cstr _), hread htype (zero_notMem_cstr _),
    hread hkey (zero_notMem_cstr _), if_pos (stampText_spec isTimegm_gregorian p.time).1]
  simp only [← dataTypeS.eq_def]
  unfold reportFields
  split
  · simp [List.intercalate_cons_cons, CharArray.str, stampText, lit]
  · simp [List.intercalate_cons_cons, CharArray.str, lit]

theorem pointEmit_none {p : Point} (h : ¬ InvalidDataType p.dataType) (hfits : ¬ FitsBuffers p) :
    pointEmit true p = none := by
  have hret : ¬ (p.dataToString 21).1 ≠ 0 := not_not.mpr (dataToString_valid h (by decide))
  rw [pointEmit, if_neg (by decide), if_neg h]
  dsimp only
  rw [if_neg hret, if_pos (not_not.mp hfits)]

/-- The fields are those that the line is split into. -/
theorem split_reportFields (p : Point) :
    split ([space].intercalate (reportFields p)) = reportFields p := by
  refine split_intercalate (by simp [reportFields]) fun f hf => ?_
  have hcode (t : UInt8) : Kept .outside (dataTypeS t) := by
    unfold dataTypeS
    repeat' split
    all_goals exact kept_outside (by decide) (by decide)
  simp only [reportFields, List.mem_append, List.mem_cons, List.not_mem_nil, or_false] at hf
  rcases hf with (rfl | rfl | rfl | rfl | rfl) | hf
  · exact kept_outside (by decide) (by decide)
  · exact kept_rendering _
  · exact kept_rendering _
  · exact hcode _
  · exact kept_rendering _
  · split at hf
    · obtain rfl := List.mem_singleton.mp hf
      exact kept_outside (fun h => mem_stampText h (by decide)) fun h => mem_stampText h (by decide)
    · cases hf

/-! ## Text points -/

/-- A text point whose strings end within their arrays, with no time or a plausible one. -/
structure TextPoint (p : Point) : Prop where
  dataType : TextDataType p.dataType
  type : p.type.Terminated
  key : p.key.Terminated
  data : p.data.Terminated
  time : p.time = 0 ∨ pointTimeMin ≤ p.time

namespace TextPoint

variable {p : Point}

theorem valid (h : TextPoint p) : ¬ InvalidDataType p.dataType := by
  rcases h.dataType with hdt | hdt <;> rw [hdt] <;> decide

theorem dataToString (h : TextPoint p) : (p.dataToString 21).2 = p.data.str := by
  have hlen := h.data.length_str_lt
  have hraw : (p.dataToString 21).2 = p.data.str.take 20 := by
    rw [Point.dataToString, if_neg (by decide)]
    rcases h.dataType with hdt | hdt <;> rw [hdt] <;> rfl
  rw [hraw, List.take_of_length_le (by omega)]

/-- The three buffers hold any text with every character escaped. -/
theorem fitsBuffers (h : TextPoint p) : FitsBuffers p := by
  have hdata := h.data.length_str_lt
  have htype := h.type.length_str_lt
  have hkey := h.key.length_str_lt
  have hfits {src : Bytes} {dstLen : Nat} (hroom : 2 * (cstr src).length + 4 ≤ dstLen) :
      ¬ (quoteField src dstLen).1 < 0 := by
    rw [quoteField_eq hroom]
    exact Int.not_lt.mpr (Int.natCast_nonneg _)
  rw [FitsBuffers, h.dataToString, not_or, not_or]
  refine ⟨hfits ?_, hfits ?_, hfits ?_⟩
  · rw [cstr_eq_self p.data.zero_notMem_str]
    omega
  · change 2 * p.type.str.length + 4 ≤ 51
    omega
  · change 2 * p.key.str.length + 4 ≤ 49
    omega

theorem pointEmit (h : TextPoint p) :
    ZephyrSiot.pointEmit true p = some ([space].intercalate (reportFields p)) :=
  pointEmit_eq h.valid h.fitsBuffers

theorem reportFields (h : TextPoint p) : ZephyrSiot.reportFields p =
    [lit "pt", rendering p.type.str, rendering p.key.str, textDataTypeS p.dataType,
      rendering p.data.str] ++ if p.time = 0 then [] else [stampText p.time] := by
  have hcode : dataTypeS p.dataType = textDataTypeS p.dataType := by
    rcases h.dataType with hdt | hdt <;> rw [hdt] <;> decide
  have htime : p.time ≥ pointTimeMin ↔ ¬ p.time = 0 := by
    constructor
    · intro hmin h0
      rw [h0] at hmin
      exact absurd hmin (by decide)
    · exact h.time.resolve_left
  rw [ZephyrSiot.reportFields, hcode, h.dataToString, cstr_eq_self p.data.zero_notMem_str]
  simp only [htime, ite_not]

end TextPoint

theorem textDataTypeS_injective {t t' : UInt8} (h : TextDataType t) (h' : TextDataType t')
    (heq : textDataTypeS t = textDataTypeS t') : t = t' := by
  rcases h with rfl | rfl <;> rcases h' with rfl | rfl
  · rfl
  · exact absurd heq (by decide)
  · exact absurd heq (by decide)
  · rfl

/-- The report holds no line end. -/
theorem mem_report {p : Point} {c : UInt8} (h : c ∈ [space].intercalate (reportFields p)) :
    c ∉ [cr, lf] := by
  have hcode (t : UInt8) : ∀ c ∈ dataTypeS t, c ∉ [cr, lf] := by
    unfold dataTypeS
    repeat' split
    all_goals decide
  rcases mem_intercalate h with rfl | ⟨f, hf, hc⟩
  · decide
  simp only [reportFields, List.mem_append, List.mem_cons, List.not_mem_nil, or_false] at hf
  rcases hf with (rfl | rfl | rfl | rfl | rfl) | hf
  · exact (by decide : ∀ c ∈ lit "pt", c ∉ [cr, lf]) c hc
  · exact mem_rendering hc
  · exact mem_rendering hc
  · exact hcode _ c hc
  · exact mem_rendering hc
  · split at hf
    · obtain rfl := List.mem_singleton.mp hf
      exact fun hmem => mem_stampText hc (List.mem_cons_of_mem _ (List.mem_cons_of_mem _ hmem))
    · cases hf

/-- **A report identifies its point.** A text point is reported on one line, never dropped, and the
line of another text point is the same only when the two agree. -/
theorem line_identifies {p q : Point} (hp : TextPoint p) (hq : TextPoint q) :
    (∃ line, pointEmit true p = some line ∧ cr ∉ line ∧ lf ∉ line ∧
        (split line).length = if p.time = 0 then 5 else 6) ∧
      (pointEmit true p = pointEmit true q → p.type.str = q.type.str ∧ p.key.str = q.key.str ∧
        p.dataType = q.dataType ∧ p.data.str = q.data.str ∧ p.time = q.time) := by
  constructor
  · refine ⟨_, hp.pointEmit, fun h => mem_report h (by decide), fun h => mem_report h (by decide), ?_⟩
    rw [split_reportFields, hp.reportFields]
    split <;> rfl
  · intro heq
    rw [hp.pointEmit, hq.pointEmit] at heq
    have hfields : reportFields p = reportFields q := by
      rw [← split_reportFields p, Option.some.inj heq, split_reportFields q]
    rw [hp.reportFields, hq.reportFields] at hfields
    obtain ⟨hmain, hstamp⟩ := List.append_inj hfields rfl
    simp only [List.cons.injEq, true_and, and_true] at hmain
    obtain ⟨htype, hkey, hcode, hdata⟩ := hmain
    refine ⟨rendering_injective htype, rendering_injective hkey,
      textDataTypeS_injective hp.dataType hq.dataType hcode, rendering_injective hdata, ?_⟩
    split at hstamp
    · next h0 =>
      split at hstamp
      · next h0' => rw [h0, h0']
      · cases hstamp
    · split at hstamp
      · cases hstamp
      · exact stampText_injective (List.cons.inj hstamp).1

/-- An empty key and a data string that ends with a backslash. -/
theorem line_identifies_backslash :
    ∃ line, pointEmit true { backslashPoint.setKey [] with time := pointTimeMin } = some line ∧
      cr ∉ line ∧ lf ∉ line ∧ (split line).length = 6 :=
  (line_identifies (q := backslashPoint) ⟨.inl rfl, by decide, by decide, by decide, .inr (by decide)⟩
    ⟨.inl rfl, by decide, by decide, by decide, .inl rfl⟩).1

end ZephyrSiot
