import ZephyrSiot.Web
import ZephyrSiot.Theory.JsonSound
import ZephyrSiot.Verify.JsonRoundTrip
import ZephyrSiot.Verify.IntegerText

/-!
# The answer to a GET

The handler encodes the 40 slots of `web_points` into the 2048 bytes of `recv_buffer`. When the
text does not fit it logs the error and sends what the encoder has written. The answer is the
whole store exactly when the text and its terminator fit, and every string in it is a legal JSON
string (`answersAll_iff`).
-/

namespace ZephyrSiot
open CStr JsonText

/-! ## The encoder -/

/-- The members that the descriptor writes, a string by `stringText` and the token verbatim. -/
def PointJs.rowText (stringText : Bytes → Bytes) (js : PointJs) : Row :=
  [⟨lit "t", stringText (cstr (js.t.getD []))⟩, ⟨lit "k", stringText (cstr (js.k.getD []))⟩,
    ⟨lit "dt", stringText (cstr (js.dt.getD []))⟩, ⟨lit "d", js.d⟩]

/-- No pointer is `NULL`. -/
def PointJs.Pointed (js : PointJs) : Prop := js.t ≠ none ∧ js.k ≠ none ∧ js.dt ≠ none

/-- The array encoder on arbitrary strings, which it writes as `stringText` does: the text when it
fits with its terminator, else a part of it and an error. -/
structure JsonLib.Writes (J : JsonLib) (stringText : Bytes → Bytes) : Prop where
  plain : ∀ s, Plain s → stringText s = s
  fits : ∀ rows len, rows.length ≤ pointJsArrayMax → (∀ js ∈ rows, js.Pointed) →
    (arrayText (rows.map (PointJs.rowText stringText))).length < len →
      J.arrEncodeBuf rows len = (0, arrayText (rows.map (PointJs.rowText stringText)))
  overflow : ∀ rows len, rows.length ≤ pointJsArrayMax → (∀ js ∈ rows, js.Pointed) → 0 < len →
    len ≤ (arrayText (rows.map (PointJs.rowText stringText))).length →
      ∃ s, s <+: arrayText (rows.map (PointJs.rowText stringText)) ∧ s.length < len ∧
        J.arrEncodeBuf rows len = (-enomem, s)

/-- The reference library writes strings as they are. -/
theorem JsonLib.reference_writes : reference.Writes id where
  plain _ _ := rfl
  fits rows len _ _ h := if_pos h
  overflow rows len _ _ hlen h := by
    refine ⟨_, List.take_prefix (len - 1) _, ?_, if_neg (Nat.not_lt.mpr h)⟩
    rw [List.length_take]
    omega

/-! ## One point -/

/-- A STR or an INT point with terminated fields. -/
structure IsStrOrInt (p : Point) : Prop where
  dataType : p.dataType = pointDataTypeString ∨ p.dataType = pointDataTypeInt
  type : p.type.Terminated
  key : p.key.Terminated
  data : p.dataType = pointDataTypeString → p.data.Terminated

/-- The value of such a point as it stands between the quotes. -/
def Point.token (p : Point) : Bytes :=
  if p.dataType = pointDataTypeString then escape p.data.str else itoa p.getInt 10

def Point.typeCode (p : Point) : Bytes :=
  if p.dataType = pointDataTypeString then pointDataTypeStringS else pointDataTypeIntS

/-- The object of such a point. -/
def Point.object (stringText : Bytes → Bytes) (p : Point) : Row :=
  [⟨lit "t", stringText p.type.str⟩, ⟨lit "k", stringText p.key.str⟩, ⟨lit "dt", p.typeCode⟩,
    ⟨lit "d", p.token⟩]

/-- The characters of the object and of the comma or bracket behind it. -/
def Point.objectSize (stringText : Bytes → Bytes) (p : Point) : Nat :=
  34 + (stringText p.type.str).length + (stringText p.key.str).length + p.token.length

/-- The strings of the object are legal. -/
structure LegalStrings (stringText : Bytes → Bytes) (p : Point) : Prop where
  type : Body (stringText p.type.str)
  key : Body (stringText p.key.str)
  data : p.dataType = pointDataTypeString → ∀ c ∈ p.data.str, ¬ IsControl c

section
variable {stringText : Bytes → Bytes} {p : Point}

theorem pointToPointJs_strOrInt (h : IsStrOrInt p) :
    pointToPointJs p pointJsonDataBufSize =
      ⟨some p.type.bytes, some p.key.bytes, some p.typeCode, p.token⟩ := by
  rcases h.dataType with hdt | hdt
  · rw [pointToPointJs_text (.inl hdt) (h.data hdt) (Nat.le_refl _), Point.typeCode, Point.token,
      if_pos hdt, if_pos hdt, textDataTypeS, if_pos hdt]
  · have hne : ¬ p.dataType = pointDataTypeString := by rw [hdt]; decide
    have hnumber : (p.dataToString pointJsonDataBufSize).2 = itoa p.getInt 10 := by
      rw [Point.dataToString, if_neg (by decide), if_neg (by rw [hdt]; decide), if_pos hdt]
    rw [pointToPointJs, hnumber, Point.typeCode, Point.token, if_neg hne, if_neg hne]
    dsimp only
    rw [if_neg (by rw [hdt]; decide), if_pos hdt]

/-- A remainder is a digit, or one of the nine characters before them. -/
theorem plain_digitChar {d : Int} (h : -10 < d) (h' : d < 10) : Plain [digitChar d] := by
  have hval : ((digitChar d).toNat : Int) = d + 48 := by
    rw [digitChar, if_neg (by omega), toNat_ofInt8]
    omega
  have hne {c : UInt8} (hc : c.toNat < 39 ∨ 57 < c.toNat) : digitChar d ≠ c := by
    rintro rfl
    omega
  refine List.forall_mem_singleton.mpr ⟨fun hc => ?_, hne (.inl (by decide)), hne (.inr (by decide))⟩
  have := UInt8.lt_iff_toNat_lt.mp hc
  change (digitChar d).toNat < 32 at this
  omega

theorem plain_digitLoop (fuel : Nat) (v : Int) : Plain (digitLoop 10 fuel v) := by
  induction fuel generalizing v with
  | zero => simp [digitLoop, Plain]
  | succ fuel ih =>
    rw [digitLoop]
    split
    · simp [Plain]
    · have hlt := Int.tmod_lt_of_pos v (show (0 : Int) < 10 by decide)
      have hgt := Int.lt_tmod_of_pos v (show (0 : Int) < 10 by decide)
      exact List.forall_mem_cons.mpr
        ⟨plain_digitChar (by omega) (by omega) _ (List.mem_singleton_self _), ih _⟩

theorem plain_itoa (v : Int) : Plain (itoa v 10) := by
  have hrev {s : Bytes} (h : Plain s) : Plain (reverse s) := fun c hc =>
    h c (List.mem_reverse.mp hc)
  have hminus : Plain (lit "-") := by decide
  unfold itoa
  split
  · decide
  · split
    · refine hrev fun c hc => ?_
      rcases List.mem_append.mp hc with hc | hc
      · exact plain_digitLoop _ _ c hc
      · exact hminus c hc
    · exact hrev (plain_digitLoop _ _)

theorem length_object (p : Point) :
    (objectText (p.object stringText)).length + 1 = p.objectSize stringText := by
  have hcode : p.typeCode.length = 3 := by
    unfold Point.typeCode
    split <;> rfl
  simp [objectText, objectTokens, Point.object, separated, Member.tokens, Token.text,
    Point.objectSize, hcode, lit]
  omega

theorem legal_object_iff :
    (∀ m ∈ p.object stringText, m.Legal) ↔ LegalStrings stringText p := by
  have hcode : Body p.typeCode := by
    unfold Point.typeCode
    split
    · exact (by decide : Plain pointDataTypeStringS).body
    · exact (by decide : Plain pointDataTypeIntS).body
  have htoken : Body p.token ↔
      (p.dataType = pointDataTypeString → ∀ c ∈ p.data.str, ¬ IsControl c) := by
    unfold Point.token
    split
    · next hdt => rw [body_escape_iff, forall_prop_of_true hdt]
    · next hdt => exact iff_of_true (plain_itoa _).body fun e => (hdt e).elim
  rw [Point.object, legal_members_iff, htoken, and_iff_right hcode]
  exact ⟨fun h => ⟨h.1, h.2.1, h.2.2⟩, fun h => ⟨h.type, h.key, h.data⟩⟩

end

/-! ## The answer -/

/-- The text is an array of one object for each slot in use of valid data type, in slot order. -/
def AnswersAll (stringText : Bytes → Bytes) (pts : List Point) (text : Bytes) : Prop :=
  parseArray text = some ((encodedPoints pts).map (Point.object stringText))

/-- The characters of the whole answer, the opening bracket left out. -/
def answerSize (stringText : Bytes → Bytes) (pts : List Point) : Nat :=
  ((encodedPoints pts).map (Point.objectSize stringText)).sum

section
variable {J : JsonLib} {stringText : Bytes → Bytes} {pts : List Point}

/-- The answer and its terminator fit exactly when the sizes add up to less than the buffer. -/
theorem length_answer_lt {len : Nat} (hlen : 2 < len) :
    (arrayText ((encodedPoints pts).map (Point.object stringText))).length < len ↔
      1 + answerSize stringText pts < len := by
  rcases List.eq_nil_or_concat (encodedPoints pts) with hnil | ⟨ps, p, hps⟩
  · rw [answerSize, hnil]
    exact iff_of_true hlen (by simp; omega)
  · have hne : (encodedPoints pts).map (Point.object stringText) ≠ [] := by simp [hps]
    have hsizes : ((encodedPoints pts).map (Point.object stringText)).map
        (fun ms => (objectText ms).length + 1) =
          (encodedPoints pts).map (Point.objectSize stringText) := by
      rw [List.map_map]
      exact List.map_congr_left fun p _ => length_object p
    rw [length_arrayText hne, hsizes, answerSize]

theorem rowText_pointsJsonEncode (hJ : J.Writes stringText)
    (hpts : ∀ p ∈ encodedPoints pts, IsStrOrInt p) :
    (pointsJsonEncode.loop pts).map (PointJs.rowText stringText) =
      (encodedPoints pts).map (Point.object stringText) := by
  rw [pointsJsonEncode.loop_eq, List.map_map]
  refine List.map_congr_left fun p hp => ?_
  have hcode : stringText (cstr p.typeCode) = p.typeCode := by
    unfold Point.typeCode
    split <;> exact hJ.plain _ (by decide)
  rw [Function.comp, pointToPointJs_strOrInt (hpts p hp), PointJs.rowText, Point.object]
  dsimp only [Option.getD_some]
  rw [hcode]
  rfl

theorem answersAll_pointsJsonEncode (hJ : J.Writes stringText)
    (hpts : ∀ p ∈ encodedPoints pts, IsStrOrInt p) (hcount : pts.length ≤ pointJsArrayMax)
    (buf : Bytes) {len : Nat} (hlen : 2 < len) :
    AnswersAll stringText pts (pointsJsonEncode J pts buf len).2 ↔
      1 + answerSize stringText pts < len ∧ ∀ p ∈ encodedPoints pts, LegalStrings stringText p := by
  have hrows := rowText_pointsJsonEncode hJ hpts
  have hlegal : (∀ ms ∈ (encodedPoints pts).map (Point.object stringText), ∀ m ∈ ms, m.Legal) ↔
      ∀ p ∈ encodedPoints pts, LegalStrings stringText p := by
    rw [List.forall_mem_map]
    exact forall₂_congr fun p _ => legal_object_iff
  have hmax : (pointsJsonEncode.loop pts).length ≤ pointJsArrayMax := by
    rw [pointsJsonEncode.loop_eq, List.length_map]
    exact (List.length_filter_le _ pts).trans hcount
  have hpointed : ∀ js ∈ pointsJsonEncode.loop pts, js.Pointed := by
    intro js hjs
    rw [pointsJsonEncode.loop_eq] at hjs
    obtain ⟨p, hp, rfl⟩ := List.mem_map.mp hjs
    rw [pointToPointJs_strOrInt (hpts p hp)]
    exact ⟨Option.some_ne_none _, Option.some_ne_none _, Option.some_ne_none _⟩
  rw [AnswersAll, pointsJsonEncode, if_neg (by omega), ← hlegal, ← length_answer_lt hlen]
  rcases Nat.lt_or_ge (arrayText ((encodedPoints pts).map (Point.object stringText))).length len with
    hfits | hover
  · rw [hJ.fits _ len hmax hpointed (by rwa [hrows]), hrows, parseArray_prefix_iff List.prefix_rfl,
      and_iff_right rfl, and_iff_right hfits]
  · obtain ⟨s, hs, hshort, heq⟩ := hJ.overflow _ len hmax hpointed (by omega) (by rwa [hrows])
    rw [hrows] at hs
    rw [heq, parseArray_prefix_iff hs]
    refine iff_of_false (fun h => ?_) fun h => by omega
    rw [h.1] at hshort
    omega

end

/-! ## The store -/

theorem IsStrOrInt.defaultKey {p : Point} (h : IsStrOrInt p) : IsStrOrInt p.defaultKey where
  dataType := by rw [Point.defaultKey_dataType]; exact h.dataType
  type := by rw [Point.defaultKey_type]; exact h.type
  key := by
    unfold Point.defaultKey
    split
    · exact CharArray.terminated_poke (by decide)
    · exact h.key
  data := by rw [Point.defaultKey_dataType, Point.defaultKey_data]; exact h.data

/-- The slots in use hold points that were merged. -/
theorem isStrOrInt_mergeRun {pts calls : List Point} (hempty : ∀ q ∈ pts, ¬ q.Occupied)
    (hcalls : ∀ p ∈ calls, IsStrOrInt p) :
    (mergeRun pts calls).length = pts.length ∧
      ∀ q ∈ mergeRun pts calls, q.Occupied → IsStrOrInt q := by
  refine Machine.run_invariant (P := IsStrOrInt)
    (I := fun qs => qs.length = pts.length ∧ ∀ q ∈ qs, q.Occupied → IsStrOrInt q)
    (fun qs p hp h => ⟨(length_pointsMerge qs p).trans h.1, fun q hq ho => ?_⟩)
    ⟨rfl, fun q hq ho => (hempty q hq ho).elim⟩ hcalls
  have hset (i : Nat) (hq : q ∈ qs.set i p.defaultKey) : IsStrOrInt q := by
    rcases List.mem_or_eq_of_mem_set hq with hq | rfl
    · exact h.2 q hq ho
    · exact hp.defaultKey
  rcases pointsMerge_cases qs p with ⟨i, r, _, _, heq⟩ | ⟨_, i, r, _, _, _, heq⟩ | ⟨_, _, heq⟩ <;>
    rw [heq] at hq
  · exact hset i hq
  · exact hset i hq
  · exact h.2 q hq ho

/-- The final callback of a GET of `/v1/points`. -/
structure IsGetPoints (cb : HttpCallback) : Prop where
  method : cb.method = .get
  status : cb.status = .requestDataFinal
  url : cstr cb.urlBuffer = lit "/v1/points"

theorem body_of_isGetPoints {cb : HttpCallback} (h : IsGetPoints cb) (J : JsonLib)
    (boardTarget : Bytes) (ptsJs : PointJsArray) (s : WebState) :
    (v1Handler J boardTarget ptsJs s cb).body =
      some (pointsJsonEncode J s.webPoints s.recvBuffer recvBufferSize).2 := by
  have hurl : strcmp cb.urlBuffer (lit "/v1/points") = 0 := strcmp_eq_zero.mpr h.url
  obtain ⟨method, url, status, data⟩ := cb
  obtain rfl : method = .get := h.method
  obtain rfl : status = .requestDataFinal := h.status
  simp [v1Handler, v1Handler.final, hurl]

/-- **The answer to a GET.** -/
theorem answersAll_iff {J : JsonLib} {stringText : Bytes → Bytes} (hJ : J.Writes stringText)
    {calls : List Point} (hcalls : ∀ p ∈ calls, IsStrOrInt p) {s : WebState}
    (hs : s.webPoints = mergeRun (.replicate 40 .zero) calls) {cb : HttpCallback}
    (hcb : IsGetPoints cb) (boardTarget : Bytes) (ptsJs : PointJsArray) :
    (∃ text, (v1Handler J boardTarget ptsJs s cb).body = some text ∧
        AnswersAll stringText s.webPoints text) ↔
      answerSize stringText s.webPoints ≤ 2046 ∧
        ∀ p ∈ encodedPoints s.webPoints, LegalStrings stringText p := by
  have hempty : ∀ q ∈ List.replicate 40 Point.zero, ¬ q.Occupied := by
    intro q hq
    rw [List.eq_of_mem_replicate hq]
    exact Point.not_occupied_zero
  obtain ⟨hlen, hused⟩ := isStrOrInt_mergeRun hempty hcalls
  rw [← hs] at hlen hused
  rw [List.length_replicate] at hlen
  have hpts : ∀ p ∈ encodedPoints s.webPoints, IsStrOrInt p := fun p hp =>
    hused p (mem_encodedPoints.mp hp).1 (mem_encodedPoints.mp hp).2.1
  have hcount : s.webPoints.length ≤ pointJsArrayMax := by
    rw [hlen]
    decide
  rw [body_of_isGetPoints hcb]
  simp only [Option.some.injEq, exists_eq_left']
  rw [answersAll_pointsJsonEncode hJ hpts hcount s.recvBuffer (by decide), recvBufferSize]
  exact and_congr_left fun _ => by omega

/-- The state after some messages, and a GET. -/
def WebState.withMessages (calls : List Point) : WebState :=
  { WebState.init with webPoints := mergeRun (.replicate 40 .zero) calls }

def getPoints : HttpCallback := ⟨.get, lit "/v1/points", .requestDataFinal, []⟩

instance : DecidablePred IsStrOrInt := fun p =>
  decidable_of_iff ((p.dataType = pointDataTypeString ∨ p.dataType = pointDataTypeInt) ∧
      0 ∈ p.type.bytes ∧ 0 ∈ p.key.bytes ∧ (p.dataType = pointDataTypeString → 0 ∈ p.data.bytes))
    ⟨fun ⟨h1, h2, h3, h4⟩ => ⟨h1, h2, h3, h4⟩, fun ⟨h1, h2, h3, h4⟩ => ⟨h1, h2, h3, h4⟩⟩

def siotPoints : List Point :=
  [(Point.zero.setTypeKey (lit "description") []).putString (lit "say \"hi\""),
    (Point.zero.setTypeKey (lit "bootCount") (lit "0")).putInt 7]

theorem answersAll_siotPoints :
    ∃ text, (v1Handler .reference [] .zero (.withMessages siotPoints) getPoints).body = some text ∧
      AnswersAll id (mergeRun (.replicate 40 .zero) siotPoints) text :=
  (answersAll_iff JsonLib.reference_writes (by decide : ∀ p ∈ siotPoints, IsStrOrInt p) rfl
    ⟨rfl, rfl, by decide⟩ [] .zero).mpr (by
      have hplain : ∀ p ∈ encodedPoints (mergeRun (.replicate 40 .zero) siotPoints),
          Plain p.type.str ∧ Plain p.key.str ∧
            (p.dataType = pointDataTypeString → ∀ c ∈ p.data.str, ¬ IsControl c) := by
        decide +kernel
      refine ⟨by decide +kernel, fun p hp => ?_⟩
      obtain ⟨htype, hkey, hdata⟩ := hplain p hp
      exact ⟨htype.body, hkey.body, hdata⟩)

/-- Eighteen points of the longest type, key and value. -/
def longPoints : List Point :=
  (List.range 18).map fun i =>
    (Point.zero.setTypeKey (.replicate 23 0x74) (.replicate 21 0x6b ++ [.ofNat (0x61 + i)])).putString
      (.replicate 19 quote)

/-- The answer stops within the last of them. -/
theorem not_answersAll_longPoints :
    (∀ p ∈ longPoints, IsStrOrInt p) ∧
      ∀ text, (v1Handler .reference [] .zero (.withMessages longPoints) getPoints).body = some text →
        ¬ AnswersAll id (mergeRun (.replicate 40 .zero) longPoints) text := by
  refine ⟨by decide, fun text htext hall => ?_⟩
  have hpts : ∀ p ∈ encodedPoints (mergeRun (.replicate 40 .zero) longPoints), IsStrOrInt p := by
    decide +kernel
  have hsize : ¬ 1 + answerSize id (mergeRun (.replicate 40 .zero) longPoints) < recvBufferSize := by
    decide +kernel
  rw [body_of_isGetPoints ⟨rfl, rfl, by decide⟩, Option.some.injEq] at htext
  subst htext
  exact hsize ((answersAll_pointsJsonEncode JsonLib.reference_writes hpts (by decide +kernel) _
    (by decide)).mp hall).1

end ZephyrSiot
