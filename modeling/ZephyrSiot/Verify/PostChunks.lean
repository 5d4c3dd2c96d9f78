import ZephyrSiot.Verify.PostBuffer
import ZephyrSiot.Verify.PostHonest
import ZephyrSiot.Verify.ArrayDecode

/-!
# Requests in chunks

The payload buffer and its cursor are static. However earlier requests ended, the cursor is back
at the start before the next one (`History.cursor`), so the decoder is given the body of a POST in
whatever chunks it came (`Delivers.decoderInput`). The answer depends on nothing else but
`web_points`, except where the decoder reads what the parser has not written
(`chunkingIrrelevant_iff`).
-/

namespace ZephyrSiot
open CStr JsonText

section
variable (J : JsonLib) (boardTarget : Bytes)

/-! ## Requests -/

/-- The callbacks of one request, and the messages that the web thread handles meanwhile. A
request is over with its final callback, an abort, or a callback that fails. -/
inductive Request : WebState → List WebEvent → Prop where
  | message : Request (webStep J boardTarget s (.message p)) es → Request s (.message p :: es)
  | more : cb.status = .requestDataMore → (v1Handler J boardTarget ptsJs s cb).ret = 0 →
    Request (webStep J boardTarget s (.callback ptsJs cb)) es → Request s (.callback ptsJs cb :: es)
  | ended : cb.status = .requestDataFinal ∨ cb.status = .aborted → Request s [.callback ptsJs cb]
  | failed : (v1Handler J boardTarget ptsJs s cb).ret ≠ 0 → Request s [.callback ptsJs cb]

/-- What may come when no request is in progress: messages, the abort of a request that failed,
and the report that a response was sent, which has no data. -/
def BetweenRequests : WebEvent → Prop
  | .message _ => True
  | .callback _ cb => cb.status = .aborted ∨ cb.status = .transactionComplete ∧ cb.data = []

/-- Requests one after another. -/
inductive History : WebState → List WebEvent → Prop where
  | nil : History s []
  | between : BetweenRequests e → History (webStep J boardTarget s e) es → History s (e :: es)
  | request : Request J boardTarget s es →
    History (Machine.run (webStep J boardTarget) s es) es' → History s (es ++ es')

/-- The bytes of the chunks. -/
def collected (es : List WebEvent) : Bytes :=
  es.flatMap fun
    | .callback _ cb => cb.data
    | .message _ => []

theorem collected_cons (e : WebEvent) (es : List WebEvent) :
    collected (e :: es) = collected [e] ++ collected es := by
  rw [collected, List.flatMap_cons, collected, List.flatMap_cons, List.flatMap_nil, List.append_nil]
  rfl

/-- A chunk of a POST before the final one, or a message. -/
def IsChunk : WebEvent → Prop
  | .message _ => True
  | .callback _ cb => cb.method = .post ∧ cb.status = .requestDataMore

/-- The events `es` and the final callback `cb` bring the body of a POST to `/v1/points`. -/
structure Delivers (es : List WebEvent) (cb : HttpCallback) (body : Bytes) : Prop where
  chunks : ∀ e ∈ es, IsChunk e
  method : cb.method = .post
  url : cstr cb.urlBuffer = lit "/v1/points"
  status : cb.status = .requestDataFinal
  body : collected es ++ cb.data = body

/-- Nothing that is described for the log runs past its buffer. -/
def Described (formatFloat : UInt32 → Bytes) : WebState → List WebEvent → Prop :=
  Machine.AtEveryStep (webStep J boardTarget)
    (OnCallback fun s ptsJs cb => ∀ d ∈ (v1Handler J boardTarget ptsJs s cb).dumps, d.Fits formatFloat)

/-! ## The cursor -/

variable {J boardTarget} {ptsJs : PointJsArray} {s : WebState} {cb : HttpCallback}

theorem cursor_v1Handler : (v1Handler J boardTarget ptsJs s cb).state.cursor =
    if cb.method = .post ∧ cb.data.length + s.cursor > 256 then 0
    else match cb.status with
      | .aborted | .requestDataFinal => 0
      | .requestDataMore | .transactionComplete =>
        if cb.method = .post then s.cursor + cb.data.length else s.cursor := by
  unfold v1Handler
  split
  · rfl
  · cases cb.status <;> cases cb.method <;> rfl

theorem cursor_of_ended (h : cb.status = .requestDataFinal ∨ cb.status = .aborted) :
    (v1Handler J boardTarget ptsJs s cb).state.cursor = 0 := by
  rw [cursor_v1Handler]
  split
  · rfl
  · rcases h with h | h <;> rw [h]

/-- A callback fails when its chunk does not fit behind the cursor, and only then. -/
theorem ret_v1Handler : (v1Handler J boardTarget ptsJs s cb).ret =
    if cb.method = .post ∧ cb.data.length + s.cursor > 256 then -enomem else 0 := by
  unfold v1Handler
  split
  · rfl
  · cases cb.status with
    | requestDataFinal =>
      dsimp only
      unfold v1Handler.final
      split
      · cases cb.method <;> rfl
      · rfl
    | _ => rfl

theorem cursor_of_failed (h : (v1Handler J boardTarget ptsJs s cb).ret ≠ 0) :
    (v1Handler J boardTarget ptsJs s cb).state.cursor = 0 := by
  rw [ret_v1Handler] at h
  rw [cursor_v1Handler]
  split
  · rfl
  · next hfits => exact (h (if_neg hfits)).elim

theorem BetweenRequests.cursor {e : WebEvent} (he : BetweenRequests e) (h : s.cursor = 0) :
    (webStep J boardTarget s e).cursor = 0 := by
  cases e with
  | message p => exact h
  | callback ptsJs cb =>
    rcases he with he | ⟨he, hdata⟩
    · exact cursor_of_ended (.inr he)
    · rw [webStep, cursor_v1Handler, he, hdata, h]
      split
      · rfl
      · dsimp only
        split <;> rfl

/-- However a request ends, the cursor is back at the start. -/
theorem Request.cursor {es : List WebEvent} (h : Request J boardTarget s es) :
    (Machine.run (webStep J boardTarget) s es).cursor = 0 := by
  induction h with
  | message _ ih => exact ih
  | more _ _ _ ih => exact ih
  | ended h => exact cursor_of_ended h
  | failed h => exact cursor_of_failed h

theorem History.cursor {es : List WebEvent} (h : History J boardTarget s es) (hs : s.cursor = 0) :
    (Machine.run (webStep J boardTarget) s es).cursor = 0 := by
  induction h with
  | nil => exact hs
  | between he _ ih => exact ih (he.cursor hs)
  | request hr _ ih =>
    rw [Machine.run_append]
    exact ih hr.cursor

/-! ## The body -/

/-- The buffer holds what was collected so far. -/
structure Buffered (s : WebState) (acc : Bytes) : Prop where
  cursor : s.cursor = acc.length
  payload : s.payload = acc

theorem buffered_nil (h : s.cursor = 0) : Buffered s [] := ⟨h, by rw [WebState.payload, h]; rfl⟩

theorem Buffered.copyChunk {acc data : Bytes} (h : Buffered s acc)
    (hfits : (acc ++ data).length ≤ 256) :
    Buffered (s.copyChunk data) (acc ++ data) := by
  rw [List.length_append, ← h.cursor] at hfits
  refine ⟨by rw [List.length_append, ← h.cursor]; rfl, ?_⟩
  conv_rhs => rw [← h.payload]
  exact take_poke_add (by rwa [s.payloadBuf.length_eq])

theorem state_of_more (hmethod : cb.method = .post) (hstatus : cb.status = .requestDataMore)
    (hfits : s.cursor + cb.data.length ≤ 256) :
    (v1Handler J boardTarget ptsJs s cb).state = s.copyChunk cb.data := by
  have h : ¬ (cb.method = .post ∧ cb.data.length + s.cursor > 256) := by omega
  rw [v1Handler, if_neg h, hstatus]
  exact if_pos hmethod

/-- A chunk that fits is added, and a message changes nothing. -/
theorem Buffered.step {acc : Bytes} (h : Buffered s acc) {e : WebEvent} (he : IsChunk e)
    (hfits : (acc ++ collected [e]).length ≤ 256) :
    Buffered (webStep J boardTarget s e) (acc ++ collected [e]) := by
  cases e with
  | message p =>
    change Buffered _ (acc ++ [])
    rw [List.append_nil]
    exact ⟨h.cursor, h.payload⟩
  | callback ptsJs cb =>
    have hdata : collected [.callback ptsJs cb] = cb.data := List.append_nil _
    rw [hdata] at hfits ⊢
    have hroom : s.cursor + cb.data.length ≤ 256 := by
      rw [h.cursor, ← List.length_append]
      exact hfits
    rw [webStep, state_of_more he.1 he.2 hroom]
    exact h.copyChunk hfits

theorem Buffered.run {acc : Bytes} (h : Buffered s acc) {es : List WebEvent}
    (hes : ∀ e ∈ es, IsChunk e)
    (hfits : (acc ++ collected es).length ≤ 256) :
    Buffered (Machine.run (webStep J boardTarget) s es) (acc ++ collected es) := by
  induction es generalizing s acc with
  | nil => rwa [collected, List.flatMap_nil, List.append_nil]
  | cons e es ih =>
    rw [List.forall_mem_cons] at hes
    rw [collected_cons, ← List.append_assoc] at hfits ⊢
    refine ih (h.step hes.1 ?_) hes.2 hfits
    rw [List.length_append] at hfits
    omega

/-- The text and the length that the final callback hands to `points_json_decode`. -/
def decoderInput (s : WebState) (cb : HttpCallback) : Bytes × Nat :=
  let s := s.copyChunk cb.data
  ({ s with payloadBuf := s.payloadBuf.poke s.cursor [nul] }.payload, s.cursor)

/-- Behind any history the decoder is given the body, in whatever chunks it comes. -/
theorem Delivers.decoderInput {es history : List WebEvent} {body : Bytes} (h : Delivers es cb body)
    (hbody : body.length ≤ 255) (hhistory : History J boardTarget .init history) :
    let s := Machine.run (webStep J boardTarget) .init (history ++ es)
    IsPost s cb ∧ decoderInput s cb = (body, body.length) := by
  intro s
  have hlen : (collected es ++ cb.data).length ≤ 255 := by rwa [h.body]
  have hchunks : Buffered s ([] ++ collected es) := by
    have hfits : ([] ++ collected es).length ≤ 256 := by
      rw [List.length_append] at hlen
      rw [List.nil_append]
      omega
    have hrun : Buffered (Machine.run (webStep J boardTarget)
        (Machine.run (webStep J boardTarget) .init history) es) ([] ++ collected es) :=
      (buffered_nil (hhistory.cursor rfl)).run h.chunks hfits
    rwa [← Machine.run_append] at hrun
  have hfits : ([] ++ collected es ++ cb.data).length ≤ 256 := by
    rw [List.nil_append]
    omega
  have hfinal := hchunks.copyChunk hfits
  rw [List.nil_append, h.body] at hfinal
  have hcursor : s.cursor + cb.data.length = body.length := hfinal.cursor
  refine ⟨⟨h.method, h.url, h.status, by omega⟩, Prod.ext ?_ hfinal.cursor⟩
  exact (take_poke _ _ _).trans hfinal.payload

/-! ## The answer -/

/-- The points that the handler merges and publishes for a text. -/
def postPoints (J : JsonLib) (ptsJs : PointJsArray) (text : Bytes) : List Point :=
  let (ret, pts) := pointsJsonDecode J ptsJs text (.replicate 5 .zero)
  if ret < 0 then [] else pts.take ret.toNat

theorem v1Handler_postPoints (J : JsonLib) (boardTarget : Bytes) (ptsJs : PointJsArray)
    (h : IsPost s cb) :
    let pts := postPoints J ptsJs (decoderInput s cb).1
    let r := v1Handler J boardTarget ptsJs s cb
    r.state.webPoints = mergeRun s.webPoints pts ∧ r.published = pts.map Point.defaultKey ∧
      r.body = some (errorText []) := by
  intro pts r
  obtain ⟨hbody, -, hpub, -, hweb⟩ := v1Handler_post J boardTarget ptsJs h
  have hpost : (v1Handler.post J ptsJs (s.copyChunk cb.data)).published =
        pts.map Point.defaultKey ∧
      (v1Handler.post J ptsJs (s.copyChunk cb.data)).state.webPoints = mergeRun s.webPoints pts := by
    rcases Classical.em ((pointsJsonDecode J ptsJs (decoderInput s cb).1 (.replicate 5 .zero)).1 < 0)
      with hret | hret
    · have hpts : pts = [] := if_pos hret
      rw [hpts, v1Handler.post]
      simp only [decoderInput] at hret
      simp only [if_pos hret]
      exact ⟨rfl, rfl⟩
    · have hpts : pts = _ := if_neg hret
      rw [hpts, v1Handler.post]
      simp only [decoderInput] at hret
      simp only [if_neg hret]
      exact ⟨mergeLoop_published _ _, mergeLoop_webPoints _ _⟩
  exact ⟨hweb.trans hpost.2, hpub.trans hpost.1, hbody⟩

/-- They are described for the log, unless the text is refused. -/
theorem described_v1Handler {formatFloat : UInt32 → Bytes} (J : JsonLib) (boardTarget : Bytes)
    (ptsJs : PointJsArray) (h : IsPost s cb) :
    (∀ d ∈ (v1Handler J boardTarget ptsJs s cb).dumps, d.Fits formatFloat) ↔
      HeadsFit formatFloat 128 0 (postPoints J ptsJs (decoderInput s cb).1) := by
  obtain ⟨-, -, -, hdumps, -⟩ := v1Handler_post J boardTarget ptsJs h
  rw [hdumps, v1Handler.post, postPoints]
  dsimp only [decoderInput]
  split
  · exact iff_of_true (List.forall_mem_nil _) fun i p hi => by simp at hi
  · exact List.forall_mem_singleton.trans (fits_logDbgPoints formatFloat)

/-- Before the final callback nothing is described. -/
theorem dumps_of_isChunk (h : IsChunk (.callback ptsJs cb)) :
    (v1Handler J boardTarget ptsJs s cb).dumps = [] := by
  rw [v1Handler, h.2]
  split <;> rfl

/-- A request that the log's buffer takes, behind events that it takes. -/
theorem Described.delivers {formatFloat : UInt32 → Bytes} {history es : List WebEvent}
    (h : Described J boardTarget formatFloat .init history) (hes : ∀ e ∈ es, IsChunk e)
    (hcb : ∀ d ∈ (v1Handler J boardTarget ptsJs
        (Machine.run (webStep J boardTarget) .init (history ++ es)) cb).dumps, d.Fits formatFloat) :
    Described J boardTarget formatFloat .init (history ++ es ++ [.callback ptsJs cb]) := by
  refine (Machine.atEveryStep_append _ _).mpr
    ⟨(Machine.atEveryStep_append _ _).mpr ⟨h, ?_⟩, hcb, trivial⟩
  refine Machine.atEveryStep_of_forall fun e he t => ?_
  cases e with
  | message p => trivial
  | callback ptsJs cb =>
    intro d hd
    rw [dumps_of_isChunk (hes _ he)] at hd
    cases hd

/-- What the parser makes of a text depends on the text: it reports an error, or writes the members
of the rows that the text has. -/
structure JsonLib.Parses (J : JsonLib) (parse : Bytes → Option (List Row)) : Prop where
  refused : ∀ text prior, parse text = none → (J.arrParse text prior).1 < 0
  accepted : ∀ text prior rows, parse text = some rows →
    J.arrParse text prior = (0, prior.assignRows rows)

/-- The points are decoded from the first five rows. -/
theorem postPoints_eq {parse : Bytes → Option (List Row)} (hJ : J.Parses parse) (text : Bytes) :
    postPoints J ptsJs text = (((parse text).getD []).take 5).mapIdx
      fun i row => (decodedRow (ptsJs.points i) row .zero).2 := by
  cases hrows : parse text with
  | none =>
    have hneg := hJ.refused text ptsJs hrows
    have hret : (pointsJsonDecode J ptsJs text (.replicate 5 .zero)).1 < 0 := by
      rw [pointsJsonDecode]
      dsimp only
      rwa [if_pos (show (J.arrParse text ptsJs).1 ≠ 0 by omega)]
    exact if_pos hret
  | some rows =>
    have hdecode : postPoints J ptsJs text = (List.range (min 5 rows.length)).map
        fun i => (pointJsToPoint ((ptsJs.assignRows rows).points i) .zero).2 := by
      rw [List.range_eq_range', ← decodeLoop_zero _ _ _ 5 (Nat.min_le_left ..), postPoints,
        pointsJsonDecode, hJ.accepted text ptsJs rows hrows]
      exact if_neg (by simp)
    refine (List.mapIdx_eq_iff.mpr fun i => ?_).symm
    rw [hdecode, List.getElem?_map]
    rcases Nat.lt_or_ge i (min 5 rows.length) with hi | hi
    · have hrow := List.getElem?_eq_getElem (show i < rows.length by omega)
      rw [List.getElem?_range hi, Option.getD_some, List.getElem?_take_of_lt (by omega), hrow,
        Option.map_some, Option.map_some, getElem?_assignRows hrow]
      rfl
    · rw [List.getElem?_eq_none (by simpa using hi),
        List.getElem?_eq_none (by simp only [Option.getD_some, List.length_take]; omega)]
      rfl

/-- Over any memory complete rows are decoded to the same points. -/
theorem postPoints_of_complete {parse : Bytes → Option (List Row)} (hJ : J.Parses parse)
    {text : Bytes} (h : ∀ row ∈ ((parse text).getD []).take 5, Complete row)
    (ptsJs : PointJsArray) : postPoints J ptsJs text =
      (((parse text).getD []).take 5).map fun row => (decodedRow .zero row .zero).2 := by
  rw [postPoints_eq hJ]
  refine List.ext_getElem (by simp) fun i hi hi' => ?_
  rw [List.getElem_mapIdx, List.getElem_map]
  exact congrArg Prod.snd ((h _ (List.getElem_mem _)).decodedRow_eq _ _ _)

/-- Two runs that bring the same body over the same `web_points`, whatever the stack holds. Nothing
was stored past the buffer of the log before the request, and nothing is by it. -/
structure ChunkingIrrelevant (formatFloat : UInt32 → Bytes) (J : JsonLib) (boardTarget body : Bytes) :
    Prop where
  input : ∀ history es cb, History J boardTarget .init history → Delivers es cb body →
    decoderInput (Machine.run (webStep J boardTarget) .init (history ++ es)) cb =
      (body, body.length)
  described : ∀ history es cb ptsJs, History J boardTarget .init history → Delivers es cb body →
    Described J boardTarget formatFloat .init history →
      Described J boardTarget formatFloat .init (history ++ es ++ [.callback ptsJs cb])
  outcome : ∀ history es cb ptsJs history' es' cb' ptsJs',
    History J boardTarget .init history → Delivers es cb body →
    History J boardTarget .init history' → Delivers es' cb' body →
    Described J boardTarget formatFloat .init history →
    Described J boardTarget formatFloat .init history' →
      let s := Machine.run (webStep J boardTarget) .init (history ++ es)
      let s' := Machine.run (webStep J boardTarget) .init (history' ++ es')
      s.webPoints = s'.webPoints →
        let r := v1Handler J boardTarget ptsJs s cb
        let r' := v1Handler J boardTarget ptsJs' s' cb'
        r.state.webPoints = r'.state.webPoints ∧ r.published = r'.published ∧ r.body = r'.body

/-- The first five rows are complete, and the log's buffer takes the points that they are decoded
to. -/
structure DecodesForSure (formatFloat : UInt32 → Bytes) (rows : List Row) : Prop where
  complete : ∀ row ∈ rows.take 5, Complete row
  described : HeadsFit formatFloat 128 0 ((rows.take 5).map fun row => (decodedRow .zero row .zero).2)

/-- **Chunks.** -/
theorem chunkingIrrelevant_iff {parse : Bytes → Option (List Row)} (hJ : J.Parses parse)
    {body : Bytes} (hbody : body.length ≤ 255) (formatFloat : UInt32 → Bytes) :
    ChunkingIrrelevant formatFloat J boardTarget body ↔
      ∀ rows, parse body = some rows → DecodesForSure formatFloat rows := by
  constructor
  · intro h rows hrows
    have hurl : cstr (lit "/v1/points") = lit "/v1/points" := by decide
    have hdelivers : Delivers [] (postOf body) body := ⟨by simp, rfl, hurl, rfl, rfl⟩
    obtain ⟨hpost, hinput⟩ := hdelivers.decoderInput (J := J) hbody History.nil
    have hcomplete : ∀ row ∈ rows.take 5, Complete row := by
      intro row hrow
      obtain ⟨i, hi⟩ := List.mem_iff_getElem?.mp hrow
      refine complete_of_agrees fun prior => ?_
      -- the same request with the same history, once over `prior` and once over cleared memory
      have hsame := (h.outcome [] [] _ ⟨fun _ => prior, 0⟩ [] [] _ .zero .nil hdelivers .nil hdelivers
        trivial trivial rfl).2.1
      rw [(v1Handler_postPoints _ _ _ hpost).2.1, (v1Handler_postPoints _ _ _ hpost).2.1, hinput,
        postPoints_eq hJ, postPoints_eq hJ, hrows] at hsame
      have helement := congrArg (·[i]?) hsame
      simp only [Option.getD_some, List.getElem?_map, List.getElem?_mapIdx, hi, Option.map_some,
        Option.some.injEq] at helement
      rw [helement]
      exact .refl _
    refine ⟨hcomplete, ?_⟩
    obtain ⟨hfits, -⟩ := h.described [] [] _ .zero .nil hdelivers trivial
    have hfits := (described_v1Handler J boardTarget .zero hpost).mp hfits
    rwa [hinput, postPoints_of_complete hJ (by rwa [hrows]), hrows] at hfits
  · intro h
    have hcomplete : ∀ row ∈ ((parse body).getD []).take 5, Complete row := by
      cases hrows : parse body with
      | none => simp
      | some rows => exact (h rows hrows).complete
    have hpoints := postPoints_of_complete hJ hcomplete
    refine ⟨fun history es cb hhistory hes => (hes.decoderInput hbody hhistory).2, ?_, ?_⟩
    · intro history es cb ptsJs hhistory hes hdescribed
      obtain ⟨hpost, hinput⟩ := hes.decoderInput hbody hhistory
      refine hdescribed.delivers hes.chunks ((described_v1Handler J boardTarget ptsJs hpost).mpr ?_)
      rw [hinput, hpoints]
      cases hrows : parse body with
      | none => intro i p hi; simp at hi
      | some rows => exact (h rows hrows).described
    · intro history es cb ptsJs history' es' cb' ptsJs' hhistory hes hhistory' hes' _ _ s s' hweb
      obtain ⟨hpost, hinput⟩ := hes.decoderInput hbody hhistory
      obtain ⟨hpost', hinput'⟩ := hes'.decoderInput hbody hhistory'
      have hr := v1Handler_postPoints J boardTarget ptsJs hpost
      have hr' := v1Handler_postPoints J boardTarget ptsJs' hpost'
      rw [hinput, hpoints] at hr
      rw [hinput', hpoints] at hr'
      exact ⟨hr.1.trans (hweb ▸ hr'.1.symm), hr.2.1.trans hr'.2.1.symm, hr.2.2.trans hr'.2.2.symm⟩

end

/-- The texts that the reference library accepts. -/
def JsonLib.referenceParse (text : Bytes) : Option (List Row) :=
  (parseArray text).filter fun rows => rows.length ≤ pointJsArrayMax

theorem JsonLib.reference_parses : reference.Parses referenceParse where
  refused text prior h := by
    simp only [referenceParse, Option.filter_eq_none_iff, decide_eq_true_eq] at h
    simp only [reference]
    cases hrows : parseArray text with
    | none => exact (by decide : -einval < 0)
    | some rows =>
      simp only [if_neg (h rows hrows)]
      exact (by decide : -enospc < 0)
  accepted text prior rows h := by
    obtain ⟨hrows, hlen⟩ := Option.filter_eq_some_iff.mp h
    simp only [reference, hrows, if_pos (of_decide_eq_true hlen)]

theorem chunkingIrrelevant_temp :
    ChunkingIrrelevant (fun _ => []) .reference []
      (lit "[\x7b\"t\":\"temp\",\"k\":\"0\",\"dt\":\"INT\",\"d\":\"21\"\x7d]") := by
  refine (chunkingIrrelevant_iff JsonLib.reference_parses (by decide) _).mpr fun rows hrows => ?_
  have hparse : JsonLib.referenceParse
      (lit "[\x7b\"t\":\"temp\",\"k\":\"0\",\"dt\":\"INT\",\"d\":\"21\"\x7d]") =
        some [(PointJs.ofStrings (lit "temp") (lit "0") (lit "INT") (lit "21")).row] := by decide
  obtain rfl := Option.some.inj (hparse.symm.trans hrows)
  refine ⟨fun row hrow => ?_, by decide⟩
  obtain rfl := List.mem_singleton.mp hrow
  exact ⟨by decide, by decide, lit "INT", by decide, .inr (.inl (by decide))⟩

/-- An object without a type is published with the type that the stack held. -/
theorem not_chunkingIrrelevant_noType :
    ¬ ChunkingIrrelevant (fun _ => []) .reference []
      (lit "[\x7b\"k\":\"0\",\"dt\":\"INT\",\"d\":\"21\"\x7d]") := by
  intro h
  have hdelivers : Delivers []
      (postOf (lit "[\x7b\"k\":\"0\",\"dt\":\"INT\",\"d\":\"21\"\x7d]")) _ :=
    ⟨by simp, rfl, by decide, rfl, rfl⟩
  have hpublished := (h.outcome [] [] _ ⟨fun _ => .ofStrings (lit "stale") [] [] [], 0⟩ [] [] _ .zero
    .nil hdelivers .nil hdelivers trivial trivial rfl).2.1
  exact absurd hpublished (by decide)

end ZephyrSiot
