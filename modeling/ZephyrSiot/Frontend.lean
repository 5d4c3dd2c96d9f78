import ZephyrSiot.Theory.JsonText

/-!
# The web page

`apps/siot-net/frontend/src`: the points of the page (`Api/Point.elm`) and the page that shows and
edits them (`Pages/Home_.elm`). A string is the bytes of its text, and the commands that `update`
returns are values.
-/

namespace ZephyrSiot
open CStr JsonText

/-! ## Points -/

/-- The type alias `Point` of the page. -/
structure UiPoint where
  typ : Bytes
  key : Bytes
  dataType : Bytes
  data : Bytes
  deriving DecidableEq

/-- A string of printable ASCII is encoded with a backslash before quotes and backslashes. -/
def UiPoint.encode (p : UiPoint) : Row :=
  [⟨lit "t", escape p.typ⟩, ⟨lit "k", escape p.key⟩, ⟨lit "dt", escape p.dataType⟩,
    ⟨lit "d", escape p.data⟩]

/-- The text of the request. -/
def encodeList (ps : List UiPoint) : Bytes := arrayText (ps.map UiPoint.encode)

namespace Frontend

def get (points : List UiPoint) (typ key : Bytes) : Option UiPoint :=
  let keyS := if key = [] then lit "0" else key
  points.find? fun p => typ = p.typ ∧ keyS = p.key

def updatePoint (points : List UiPoint) (point : UiPoint) : List UiPoint :=
  match points.findIdx? fun p => point.typ = p.typ ∧ point.key = p.key with
  | some index => points.set index point
  | none => point :: points

def updatePoints (points newPoints : List UiPoint) : List UiPoint :=
  newPoints.foldr (fun newPoint updatedPoints => updatePoint updatedPoints newPoint) points

/-! ## The page -/

/-- `Http.Error` -/
inductive HttpError where
  | badUrl (url : Bytes)
  | timeout
  | networkError
  | badStatus (status : Int)
  | badBody (message : Bytes)

/-- `Api.Data` -/
inductive Data (α : Type) where
  | loading
  | success (value : α)
  | failure (httpError : HttpError)

/-- `Point.Resp` -/
structure Resp where
  error : Bytes

structure Model where
  points : Data (List UiPoint)
  pointMods : List UiPoint

inductive Msg where
  | tick (posix : Int)
  | apiRespPointList (result : Except HttpError (List UiPoint))
  | apiRespPointPost (result : Except HttpError Resp)
  | editPoint (points : List UiPoint)
  | apiPostPoints (points : List UiPoint)
  | discardEdits

inductive Effect where
  | none
  | fetch
  /-- `Task.perform Tick Time.now` -/
  | now
  | post (points : List UiPoint)

def init : Model × List Effect := (⟨.loading, []⟩, [.fetch, .now])

def update (msg : Msg) (model : Model) : Model × Effect :=
  match msg with
  | .tick _ => (model, .fetch)
  | .apiRespPointList (.ok points) => ({ model with points := .success points }, .none)
  | .apiRespPointList (.error httpError) => ({ model with points := .failure httpError }, .none)
  | .apiRespPointPost (.ok _) => (model, .none)
  | .apiRespPointPost (.error httpError) => ({ model with points := .failure httpError }, .none)
  | .editPoint points => ({ model with pointMods := updatePoints model.pointMods points }, .none)
  | .apiPostPoints points =>
    -- "optimistically update points?"
    ({ model with points := .success points, pointMods := [] }, .post model.pointMods)
  | .discardEdits => ({ model with pointMods := [] }, .none)

end Frontend

end ZephyrSiot
