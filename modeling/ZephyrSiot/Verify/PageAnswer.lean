import ZephyrSiot.Verify.ReadYourWrites
import ZephyrSiot.Verify.GetPoints
import ZephyrSiot.Verify.PageForm
import ZephyrSiot.Verify.ReadBack
import ZephyrSiot.Verify.WireAgreement

/-!
# What the device says to the page

The page makes of an answer to a GET one point for each slot in use, with the texts of its type, its
key and its value (`expectPoints_answer`). So what it shows is what was published last, under the
edits that are not yet saved (`page_shows_latest`).
-/

namespace ZephyrSiot
open CStr JsonText Frontend KeyedStore

/-! ## `JSON.parse` -/

/-- The names and values of an object of texts. -/
abbrev Fields := List (Bytes × Bytes)

namespace Fields

def row (fields : Fields) : Row := fields.map fun m => ⟨escape m.1, escape m.2⟩

def value (fields : Fields) : JsonValue := .object (fields.map fun m => (m.1, .string m.2))

structure Readable (fields : Fields) : Prop where
  nodup : (fields.map Prod.fst).Nodup
  printable : ∀ m ∈ fields, Printable m.1 ∧ Printable m.2

end Fields

/-- Printable texts, of which only quotes and backslashes are escaped, are read back. -/
structure Frontend.JsonParse.Lawful (P : JsonParse) : Prop where
  parse : ∀ rows : List Fields, (∀ fields ∈ rows, fields.Readable) →
    P.parse (arrayText (rows.map Fields.row)) = some (.array (rows.map Fields.value))

/-- A parser of arrays of objects of texts. -/
def Frontend.JsonParse.reference : JsonParse where
  parse text := (parseArray text).map fun rows => .array (rows.map fun row =>
    .object (row.map fun m => (bodyText m.name, .string (bodyText m.value))))

theorem Frontend.JsonParse.reference_lawful : JsonParse.reference.Lawful where
  parse rows h := by
    have hlegal : ∀ ms ∈ rows.map Fields.row, ∀ m ∈ ms, m.Legal := by
      simp only [Fields.row, List.forall_mem_map]
      intro fields hfields m hm
      obtain ⟨hname, hvalue⟩ := (h fields hfields).printable m hm
      exact ⟨hname.body, hvalue.body⟩
    simp only [reference, parseArray_arrayText hlegal, Option.map_some, List.map_map]
    refine congrArg (some ∘ JsonValue.array) (List.map_congr_left fun fields _ => ?_)
    simp only [Fields.row, Fields.value, List.map_map, Function.comp_def, bodyText_escape]

/-! ## Points -/

/-- `point_data_to_string` in the buffer of the encoder. -/
def Point.text (p : Point) : Bytes := (p.dataToString pointJsonDataBufSize).2

/-- The code that the encoder writes for a valid data type. -/
def dataTypeCode (t : UInt8) : Bytes :=
  if t = pointDataTypeFloat then pointDataTypeFloatS
  else if t = pointDataTypeInt then pointDataTypeIntS
  else textDataTypeS t

/-- The point as the page has it. -/
def Point.ui (p : Point) : UiPoint := ⟨p.type.str, p.key.str, dataTypeCode p.dataType, p.text⟩

def UiPoint.fields (p : UiPoint) : Fields :=
  [(lit "t", p.typ), (lit "k", p.key), (lit "dt", p.dataType), (lit "d", p.data)]

/-- The page can be told of the point: printable texts, a type and a key without quotes and
backslashes, and a float that is rendered without them. -/
structure Tellable (p : Point) : Prop where
  valid : p.Valid
  type : p.type.Terminated ∧ Printable p.type.str ∧ Plain p.type.str
  key : p.key.Terminated ∧ Printable p.key.str ∧ Plain p.key.str
  float : p.dataType = pointDataTypeFloat → Printable p.text ∧ Plain p.text
  data : TextDataType p.dataType → p.data.Terminated ∧ Printable p.data.str

instance : DecidablePred Tellable := fun p =>
  decidable_of_iff (p.Valid ∧ (p.type.Terminated ∧ Printable p.type.str ∧ Plain p.type.str) ∧
      (p.key.Terminated ∧ Printable p.key.str ∧ Plain p.key.str) ∧
      (p.dataType = pointDataTypeFloat → Printable p.text ∧ Plain p.text) ∧
      (TextDataType p.dataType → p.data.Terminated ∧ Printable p.data.str))
    ⟨fun ⟨h1, h2, h3, h4, h5⟩ => ⟨h1, h2, h3, h4, h5⟩,
      fun ⟨h1, h2, h3, h4, h5⟩ => ⟨h1, h2, h3, h4, h5⟩⟩

section
variable {p : Point}

theorem text_of_int (h : p.dataType = pointDataTypeInt) : p.text = itoa p.getInt 10 := by
  rw [Point.text, Point.dataToString, if_neg (by decide), h, if_neg (by decide), if_pos rfl]

theorem text_of_text (h : TextDataType p.dataType) (hdata : p.data.Terminated) :
    p.text = p.data.str := by
  have hlen := hdata.length_str_lt
  have htext : p.text = p.data.str.take 39 := by
    rw [Point.text, Point.dataToString, if_neg (by decide)]
    rcases h with h | h <;> rw [h] <;> rfl
  rw [htext, List.take_of_length_le (by omega)]

theorem printable_itoa {v : Int} (h : -2 ^ 31 ≤ v) (h' : v < 2 ^ 31) : Printable (itoa v 10) := by
  rcases eq_or_ne v (-2 ^ 31) with rfl | hne
  · rw [itoa_min]
    decide
  · intro c hc
    obtain ⟨hnum, -, -⟩ := itoa_spec (by omega : -2 ^ 31 < v) h'
    rcases hnum.mem hc with hc | rfl
    · simp only [IsDigit, UInt8.le_iff_toNat_le, UInt8.toNat_ofNat] at hc ⊢
      omega
    · decide

theorem Point.Valid.dataType_cases (hvalid : p.Valid) :
    p.dataType = pointDataTypeFloat ∨ p.dataType = pointDataTypeInt ∨ TextDataType p.dataType := by
  obtain ⟨-, hdt⟩ := hvalid
  simp only [InvalidDataType, TextDataType, ← UInt8.toNat_inj, UInt8.le_iff_toNat_le, ge_iff_le,
    UInt8.toNat_ofNat] at hdt ⊢
  omega

/-- What the encoder is given, and what the page makes of its text. -/
structure Told (p : Point) : Prop where
  js : pointToPointJs p pointJsonDataBufSize =
    ⟨some p.type.bytes, some p.key.bytes, some (dataTypeCode p.dataType), escape p.text⟩
  text : Printable p.text
  code : Printable (dataTypeCode p.dataType) ∧ Plain (dataTypeCode p.dataType)

theorem Tellable.told (h : Tellable p) : Told p := by
  rcases h.valid.dataType_cases with hdt | hdt | hdt
  · obtain ⟨hprintable, hplain⟩ := h.float hdt
    refine ⟨?_, hprintable, by rw [hdt]; decide⟩
    rw [hplain.escape_eq, pointToPointJs, dataTypeCode]
    dsimp only
    rw [if_pos hdt, if_pos hdt, Point.text]
  · have hplain : Plain p.text := text_of_int hdt ▸ plain_itoa _
    refine ⟨?_, ?_, by rw [hdt]; decide⟩
    · have hne : ¬ p.dataType = pointDataTypeFloat := by rw [hdt]; decide
      rw [hplain.escape_eq, pointToPointJs, dataTypeCode]
      dsimp only
      rw [if_neg hne, if_neg hne, if_pos hdt, if_pos hdt, Point.text]
    · rw [text_of_int hdt]
      exact printable_itoa (getInt_bounds p).1 (getInt_bounds p).2
  · obtain ⟨hterm, hprintable⟩ := h.data hdt
    have hcode : dataTypeCode p.dataType = textDataTypeS p.dataType := by
      rcases hdt with hdt | hdt <;> rw [hdt] <;> rfl
    refine ⟨?_, (text_of_text hdt hterm).symm ▸ hprintable, ?_⟩
    · rw [pointToPointJs_text hdt hterm (Nat.le_refl _), text_of_text hdt hterm, hcode]
    · rcases hdt with hdt | hdt <;> rw [hdt] <;> decide

theorem Told.encodable (h : Tellable p) (ht : Told p) :
    (pointToPointJs p pointJsonDataBufSize).Encodable := by
  rw [ht.js]
  have hcode : Plain (cstr (dataTypeCode p.dataType)) := ht.code.2.cstr_eq.symm ▸ ht.code.2
  exact ⟨⟨_, rfl, h.type.2.2⟩, ⟨_, rfl, h.key.2.2⟩, ⟨_, rfl, hcode⟩, ht.text.body⟩

theorem Told.row_eq (h : Tellable p) (ht : Told p) :
    (pointToPointJs p pointJsonDataBufSize).row = p.ui.fields.row := by
  rw [ht.js, PointJs.row]
  simp only [Option.getD_some, Point.ui, UiPoint.fields, Fields.row, List.map_cons, List.map_nil]
  rw [ht.code.2.cstr_eq, ht.code.2.escape_eq, h.type.2.2.escape_eq, h.key.2.2.escape_eq]
  rfl

theorem Told.readable (h : Tellable p) (ht : Told p) : p.ui.fields.Readable where
  nodup := (by decide : [lit "t", lit "k", lit "dt", lit "d"].Nodup)
  printable := by
    have hname : ∀ name ∈ [lit "t", lit "k", lit "dt", lit "d"], Printable name := by decide
    simp only [List.forall_mem_cons] at hname
    simp only [UiPoint.fields, List.forall_mem_cons]
    exact ⟨⟨hname.1, h.type.2.1⟩, ⟨hname.2.1, h.key.2.1⟩, ⟨hname.2.2.1, ht.code.1⟩,
      ⟨hname.2.2.2.1, ht.text⟩, List.forall_mem_nil _⟩

end

theorem decoder_value (p : UiPoint) : decoder p.fields.value = some p := by
  have hfield {name : Bytes} {fields : Fields} {s : Bytes}
      (h : fields.find? (·.1 = name) = some (name, s)) : required name fields.value = some s := by
    rw [required, Fields.value, JsonValue.field, List.find?_map]
    simp only [Function.comp_def, h]
    rfl
  have htyp : required (lit "t") p.fields.value = some p.typ := hfield rfl
  have hkey : required (lit "k") p.fields.value = some p.key := hfield rfl
  have hdataType : required (lit "dt") p.fields.value = some p.dataType := hfield rfl
  have hdata : required (lit "d") p.fields.value = some p.data := hfield rfl
  simp only [decoder, htyp, hkey, hdataType, hdata, Option.bind_eq_bind, Option.bind_some]
  rfl

theorem mapM_decoder (ps : List UiPoint) :
    (ps.map fun p => p.fields.value).mapM decoder = some ps := by
  induction ps with
  | nil => rfl
  | cons p ps ih =>
    rw [List.map_cons, List.mapM_cons, decoder_value, ih]
    rfl

/-! ## The answer -/

section
variable {J : JsonLib} {P : JsonParse} {pts : List Point} {buf : Bytes} {len : Nat}

/-- The encoder's text, when it reports success. -/
theorem pointsJsonEncode_text (hJ : J.Lawful) (hpts : ∀ p ∈ encodedPoints pts, Tellable p)
    (hret : (pointsJsonEncode J pts buf len).1 = 0) :
    (pointsJsonEncode J pts buf len).2 =
      arrayText ((encodedPoints pts).map fun p => p.ui.fields.row) := by
  have henomem : ¬ -enomem = 0 := by decide
  have hrows : ∀ js ∈ pointsJsonEncode.loop pts, js.Encodable := by
    rw [pointsJsonEncode.loop_eq, List.forall_mem_map]
    exact fun p hp => (hpts p hp).told.encodable (hpts p hp)
  have htext : (pointsJsonEncode.loop pts).map PointJs.row =
      (encodedPoints pts).map fun p => p.ui.fields.row := by
    rw [pointsJsonEncode.loop_eq, List.map_map]
    exact List.map_congr_left fun p hp => (hpts p hp).told.row_eq (hpts p hp)
  have hcount : (pointsJsonEncode.loop pts).length ≤ pts.length := by
    rw [pointsJsonEncode.loop_eq, List.length_map]
    exact List.length_filter_le _ pts
  rw [pointsJsonEncode] at hret ⊢
  split at hret
  · exact (henomem hret).elim
  · next hfew =>
    rw [if_neg hfew]
    have hmax : (pointsJsonEncode.loop pts).length ≤ pointJsArrayMax := by omega
    rcases Nat.lt_or_ge (arrayText ((pointsJsonEncode.loop pts).map PointJs.row)).length len with
      hfits | hover
    · rw [hJ.encode_fits _ len hmax hrows hfits, htext]
    · obtain ⟨s, -, hs⟩ := hJ.encode_overflow _ len hmax hrows hover
      rw [hs] at hret
      exact (henomem hret).elim

theorem expectPoints_ok {body : Bytes} {points : List UiPoint}
    (h : (P.parse body).bind listDecoder = some points) : P.expectPoints body = .ok points := by
  rw [JsonParse.expectPoints, h]

/-- The page makes one point of each slot that is encoded. -/
theorem expectPoints_answer (hJ : J.Lawful) (hP : P.Lawful)
    (hpts : ∀ p ∈ encodedPoints pts, Tellable p)
    (hret : (pointsJsonEncode J pts buf len).1 = 0) :
    P.expectPoints (pointsJsonEncode J pts buf len).2 = .ok ((encodedPoints pts).map Point.ui) := by
  have hreadable : ∀ fields ∈ (encodedPoints pts).map fun p => p.ui.fields, fields.Readable := by
    rw [List.forall_mem_map]
    exact fun p hp => (hpts p hp).told.readable (hpts p hp)
  have hparse := hP.parse _ hreadable
  rw [List.map_map, List.map_map] at hparse
  have hdecoded := mapM_decoder ((encodedPoints pts).map Point.ui)
  rw [List.map_map] at hdecoded
  rw [pointsJsonEncode_text hJ hpts hret]
  refine expectPoints_ok ?_
  have hdecode : listDecoder
      (.array ((encodedPoints pts).map ((fun p => p.fields.value) ∘ Point.ui))) =
      some ((encodedPoints pts).map Point.ui) := hdecoded
  exact (congrArg (Option.bind · listDecoder) hparse).trans hdecode

end

/-! ## What is shown -/

theorem Point.text_defaultKey (p : Point) : p.defaultKey.text = p.text := by
  unfold Point.defaultKey
  split <;> rfl

theorem Tellable.defaultKey {p : Point} (h : Tellable p) : Tellable p.defaultKey where
  valid := h.valid.defaultKey
  type := by rw [Point.defaultKey_type]; exact h.type
  key := by
    rcases eq_or_ne p.key.str [] with hnil | hne
    · have hstr : p.defaultKey.key.str = lit "0" := by
        rw [Point.defaultKey_key_str, if_pos hnil]
      have hterm : p.defaultKey.key.Terminated := by
        rw [Point.defaultKey, if_pos (CharArray.first_eq_zero.mpr hnil)]
        exact CharArray.terminated_poke (by decide)
      rw [hstr]
      exact ⟨hterm, by decide, by decide⟩
    · rw [Point.defaultKey_of_key_ne_nil hne]
      exact h.key
  float := by
    rw [Point.text_defaultKey, Point.defaultKey_dataType]
    exact h.float
  data := by rw [Point.defaultKey_dataType, Point.defaultKey_data]; exact h.data

/-- The page finds the first slot of a pair that is encoded. -/
theorem find?_ui (pts : List Point) (k : Bytes × Bytes) :
    ((encodedPoints pts).map Point.ui).find? (·.pair = k) =
      ((slotsOf pts k).find? (·.Valid)).map Point.ui := by
  rw [List.find?_map, encodedPoints, List.find?_filter, slotsOf, List.find?_filter]
  refine congrArg (fun f : Point → Bool => (pts.find? f).map Point.ui)
    (funext fun q => decide_eq_decide.mpr ?_)
  simp only [decide_eq_true_eq, Function.comp_apply]
  exact ⟨fun h => ⟨⟨h.1.1, h.2⟩, h.1⟩, fun h => ⟨h.2, h.1.2⟩⟩

section
variable {J : JsonLib} {P : JsonParse} {timegm : Tm → Int} {sh : Bool} {table : List NvsPoint}
  {Z : Zms}

/-- **The page shows what was published last.** When all messages have been handled and the answer
fits, a lookup on the page gives the edit of the pair that is not yet saved, if there is one, and
else what was published last. -/
theorem page_shows_latest (hJ : J.Lawful) (hP : P.Lawful) (htable : Named table)
    (hshort : ShortNamed table) {b : Boot} {fs : Z.State}
    (hactions : ∀ a ∈ b.actions, ∀ p ∈ a.points J timegm, p.Valid) {formatFloat : UInt32 → Bytes}
    (hdescribable : ∀ a ∈ b.actions, a.Describable formatFloat J) {s : Device Z}
    (hs : s = b.run J timegm sh table fs) (hpost : s.threads.post = none)
    (hdrained : s.threads.web.Drained)
    (hroom : countPairs (s.threads.published.map Point.defaultKey) ≤ 40)
    (htell : ∀ p ∈ s.threads.published, Tellable p) {buf body : Bytes}
    (hret : (pointsJsonEncode J s.threads.web.pts buf recvBufferSize).1 = 0)
    (hbody : body = (pointsJsonEncode J s.threads.web.pts buf recvBufferSize).2) (msgs : List Msg) :
    let model := Machine.run pageStep init.1 (msgs ++ [.apiRespPointList (P.expectPoints body)])
    s.DumpsFit formatFloat ∧ ∃ points, model.points = .success points ∧ ∀ typ key,
      get (updatePoints points model.pointMods) typ key =
        (latest UiPoint.pair (edits msgs) (typ, lookupKey key)).or
          ((latest Point.pair (s.threads.published.map Point.defaultKey) (typ, lookupKey key)).map
            Point.ui) := by
  intro model
  refine ⟨hs ▸ b.dumpsFit hshort hdescribable, ?_⟩
  have hconv : StoresConverged s.threads := hs ▸ storesConverged (b.following htable hactions)
  have hweb := hconv.web hpost hdrained hroom
  have hlatest {k : Bytes × Bytes} {q : Point}
      (h : latest Point.pair (s.threads.published.map Point.defaultKey) k = some q) : Tellable q := by
    have hmem := List.mem_reverse.mp (List.mem_of_find?_eq_some h)
    obtain ⟨p, hp, rfl⟩ := List.mem_map.mp hmem
    exact (htell p hp).defaultKey
  have hpts : ∀ q ∈ encodedPoints s.threads.web.pts, Tellable q := by
    intro q hq
    obtain ⟨hmem, hvalid⟩ := mem_encodedPoints.mp hq
    have hslot : q ∈ slotsOf s.threads.web.pts q.pair :=
      List.mem_filter.mpr ⟨hmem, decide_eq_true ⟨hvalid.1, rfl⟩⟩
    rw [hweb, Option.mem_toList] at hslot
    exact hlatest hslot
  have hexpect := hbody ▸ expectPoints_answer hJ hP hpts hret
  have hmodel : model = pageStep (Machine.run pageStep init.1 msgs)
      (.apiRespPointList (.ok ((encodedPoints s.threads.web.pts).map Point.ui))) := by
    rw [← hexpect]
    exact Machine.run_append msgs _
  refine ⟨_, congrArg Model.points hmodel, fun typ key => ?_⟩
  have hmods : model.pointMods = (Machine.run pageStep init.1 msgs).pointMods :=
    (congrArg Model.pointMods hmodel).trans rfl
  rw [get_eq_find?, updatePoints_eq, KeyedList.find?_puts, hmods, find?_pointMods, find?_ui, hweb]
  congr 2
  cases h : latest Point.pair (s.threads.published.map Point.defaultKey) (typ, lookupKey key) with
  | none => rfl
  | some q => exact List.find?_cons_of_pos (decide_eq_true (hlatest h).valid)

end

/-- A description is typed in after a boot. -/
theorem page_shows_latest_idle :
    let s : Device .reference :=
      idleBoot.run .reference gregorianTimegm true siotNetNvsPts fun _ => none
    let body := (pointsJsonEncode .reference s.threads.web.pts [] recvBufferSize).2
    let model := Machine.run pageStep init.1
      (typedBarn ++ [.apiRespPointList (JsonParse.reference.expectPoints body)])
    s.DumpsFit (fun _ => []) ∧ ∃ points, model.points = .success points ∧ ∀ typ key,
      get (updatePoints points model.pointMods) typ key =
        (latest UiPoint.pair (edits typedBarn) (typ, lookupKey key)).or
          ((latest Point.pair (s.threads.published.map Point.defaultKey) (typ, lookupKey key)).map
            Point.ui) :=
  page_shows_latest (b := idleBoot) JsonLib.reference_lawful JsonParse.reference_lawful (by decide)
    (by decide) (by decide +kernel) (by decide +kernel) rfl (by decide +kernel)
    ⟨by decide +kernel, by decide +kernel⟩ (by decide +kernel) (by decide +kernel) (by decide +kernel)
    rfl typedBarn

end ZephyrSiot
