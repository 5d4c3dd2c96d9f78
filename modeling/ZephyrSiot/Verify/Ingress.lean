import ZephyrSiot.PointShell
import ZephyrSiot.Verify.PostHonest

/-!
# The two ways in

A point comes in from the shell, by the command `p`, or from the web, in the body of a POST. Both
decode it with `point_js_to_point`. The shell looks at the result of the decoder, and the web
interface merges the point before it publishes it. So the two publish the same exactly when the
data type is known and the key is not blank (`sameIngress_iff`).
-/

namespace ZephyrSiot
open CStr JsonText

/-- Neither publishes a point, or both publish one and these look the same. -/
def SameIngress (posted : List Point) (sent : Option Point) : Prop :=
  posted = [] ∧ sent = none ∨ ∃ p q, posted = [p] ∧ sent = some q ∧ p.Agrees q

/-- What the decoder makes of the four strings. -/
def decodedPoint (t k dt d : Bytes) : Point := (pointJsToPoint (.ofStrings t k dt d) .zero).2

section
variable {J : JsonLib} {boardTarget : Bytes} {ptsJs : PointJsArray} {s : WebState}
  {cb : HttpCallback} {t k dt d : Bytes}

/-- The element that the parser makes of the array, over any memory. -/
theorem parse_ofStrings (hJ : J.Lawful) (ht : Plain t) (hk : Plain k) (hdt : Plain dt)
    (hd : Plain d) (prior : PointJsArray) :
    ∃ a, J.arrParse (arrayText [(PointJs.ofStrings t k dt d).row]) prior = (0, a) ∧
      a.elements = [.ofStrings t k dt d] := by
  have hjs : (PointJs.ofStrings t k dt d).Encodable := by
    refine ⟨⟨t, rfl, ?_⟩, ⟨k, rfl, ?_⟩, ⟨dt, rfl, ?_⟩, hd.body⟩
    · rwa [ht.cstr_eq]
    · rwa [hk.cstr_eq]
    · rwa [hdt.cstr_eq]
  refine ⟨_, hJ.parse _ prior (Nat.le_add_left 1 46) (by simpa using hjs.legalRow), ?_⟩
  change [(prior.points 0).assignRow _] = _
  rw [PointJs.assignRow_row]
  simp only [PointJs.ofStrings, Option.getD_some, ht.cstr_eq, hk.cstr_eq, hdt.cstr_eq]

theorem published_of_isPost (hJ : J.Lawful) (ht : Plain t) (hk : Plain k) (hdt : Plain dt)
    (hd : Plain d) (h : IsPost s cb)
    (hbody : (s.copyChunk cb.data).payload = arrayText [(PointJs.ofStrings t k dt d).row]) :
    (v1Handler J boardTarget ptsJs s cb).published = [(decodedPoint t k dt d).defaultKey] := by
  obtain ⟨a, hparse, helements⟩ := parse_ofStrings hJ ht hk hdt hd ptsJs
  obtain ⟨-, -, hpub, -⟩ := v1Handler_post J boardTarget ptsJs h
  obtain ⟨-, hpub', -⟩ := post_of_parsed J ptsJs (s := s.copyChunk cb.data) rfl
    (by rw [hbody, hparse])
  rw [hpub, hpub', hbody, hparse, helements]
  rfl

theorem handleSendpoint_strings (timegm : Tm → Int) (hd : Plain d) :
    (handleSendpoint timegm [lit "p", t, k, dt, d]).2 =
      if dataTypeOfCode dt = pointDataTypeUnknown then none else some (decodedPoint t k dt d) := by
  have hcommand : commandPoint [lit "p", t, k, dt, d] = decodedPoint t k dt d := by
    rw [decodedPoint, pointJsToPoint_some]
    change Point.mk 0 _ _ _ ((CharArray.zero 20).poke 0 (decodedRun _ (cstr d))) = _
    rw [hd.cstr_eq]
    rfl
  have hdataType : (decodedPoint t k dt d).dataType = dataTypeOfCode dt := by
    rw [decodedPoint, pointJsToPoint_some]
  have hargc : 5 ≤ [lit "p", t, k, dt, d].length := Nat.le_refl 5
  rw [handleSendpoint_eq timegm hargc, hcommand, hdataType]
  split <;> rfl

/-- **The two ways in.** -/
theorem sameIngress_iff (hJ : J.Lawful) (timegm : Tm → Int) (ht : Plain t) (hk : Plain k)
    (hdt : Plain dt) (hd : Plain d) (h : IsPost s cb)
    (hbody : (s.copyChunk cb.data).payload = arrayText [(PointJs.ofStrings t k dt d).row]) :
    SameIngress (v1Handler J boardTarget ptsJs s cb).published
        (handleSendpoint timegm [lit "p", t, k, dt, d]).2 ↔
      dataTypeOfCode dt ≠ pointDataTypeUnknown ∧ k ≠ [] := by
  have hkey : (decodedPoint t k dt d).key.str = k.take 22 := by
    rw [decodedPoint, pointJsToPoint_some, copyStrField_str, hk.cstr_eq]
  have hkey_nil : k.take 22 = [] ↔ k = [] := by simp
  rw [published_of_isPost hJ ht hk hdt hd h hbody, handleSendpoint_strings timegm hd]
  constructor
  · rintro (⟨hnil, -⟩ | ⟨p, q, hp, hq, hagrees⟩)
    · cases hnil
    · split at hq
      · cases hq
      · next hcode =>
        cases hp
        cases hq
        refine ⟨hcode, fun hnil => Point.defaultKey_key_str_ne_nil (hagrees.key.trans ?_)⟩
        rw [hkey, hkey_nil, hnil]
  · rintro ⟨hcode, hne⟩
    have hdefault : (decodedPoint t k dt d).defaultKey = decodedPoint t k dt d :=
      Point.defaultKey_of_key_ne_nil (by rwa [hkey, ne_eq, hkey_nil])
    rw [if_neg hcode, hdefault]
    exact .inr ⟨_, _, rfl, rfl, .refl _⟩

end

/-- A POST of the array with the four strings, in one chunk. -/
def postStrings (t k dt d : Bytes) : HttpCallback :=
  postOf (arrayText [(PointJs.ofStrings t k dt d).row])

theorem sameIngress_temp :
    SameIngress
      (v1Handler .reference [] .zero .init
        (postStrings (lit "temp") (lit "0") (lit "INT") (lit "21"))).published
      (handleSendpoint gregorianTimegm [lit "p", lit "temp", lit "0", lit "INT", lit "21"]).2 :=
  (sameIngress_iff JsonLib.reference_lawful gregorianTimegm (by decide) (by decide) (by decide)
    (by decide) ⟨rfl, by decide, rfl, by decide⟩ (by decide)).mpr (by decide)

/-- A blank key is published as "0" from the web only, and a point of unknown data type is
published from the web only. -/
theorem not_sameIngress :
    ¬ SameIngress
      (v1Handler .reference [] .zero .init
        (postStrings (lit "temp") [] (lit "INT") (lit "21"))).published
      (handleSendpoint gregorianTimegm [lit "p", lit "temp", [], lit "INT", lit "21"]).2 ∧
    ¬ SameIngress
      (v1Handler .reference [] .zero .init
        (postStrings (lit "temp") (lit "0") (lit "BOOL") (lit "1"))).published
      (handleSendpoint gregorianTimegm [lit "p", lit "temp", lit "0", lit "BOOL", lit "1"]).2 := by
  constructor
  · have hposted : (v1Handler .reference [] .zero .init
        (postStrings (lit "temp") [] (lit "INT") (lit "21"))).published =
          [(decodedPoint (lit "temp") [] (lit "INT") (lit "21")).defaultKey] := by decide
    rw [hposted, handleSendpoint_strings gregorianTimegm (by decide), if_neg (by decide)]
    rintro (⟨hnil, -⟩ | ⟨p, q, hp, hq, hagrees⟩)
    · cases hnil
    · cases hp
      cases hq
      exact absurd hagrees.key (by decide)
  · have hposted : (v1Handler .reference [] .zero .init
        (postStrings (lit "temp") (lit "0") (lit "BOOL") (lit "1"))).published ≠ [] := by decide
    rw [handleSendpoint_strings gregorianTimegm (by decide), if_pos (by decide)]
    rintro (⟨hnil, -⟩ | ⟨p, q, -, hq, -⟩)
    · exact hposted hnil
    · cases hq

end ZephyrSiot
