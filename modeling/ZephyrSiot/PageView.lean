import ZephyrSiot.Frontend
import ZephyrSiot.Theory.Decimal

/-!
# What the page shows

`apps/siot-net/frontend/src`: how a text of the device becomes points, and what is read of them
(`Api/Point.elm`), and the controls of the settings with the messages that they send
(`Pages/Home_.elm`, `UI/Form.elm`). `JSON.parse`, by which a text is read, is the parameter
`JsonParse`. Of the view only what sends messages is here.
-/

namespace ZephyrSiot
open CStr

namespace Frontend

/-! ## Decoding -/

inductive JsonValue where
  | null
  | bool (b : Bool)
  | number (text : Bytes)
  | string (s : Bytes)
  | array (values : List JsonValue)
  | object (members : List (Bytes × JsonValue))

/-- `JSON.parse`. An object has each name once. -/
structure JsonParse where
  parse : Bytes → Option JsonValue

/-- `Decode.field` -/
def JsonValue.field (name : Bytes) : JsonValue → Option JsonValue
  | .object members => (members.find? (·.1 = name)).map Prod.snd
  | _ => none

/-- `Decode.string` -/
def JsonValue.asString : JsonValue → Option Bytes
  | .string s => some s
  | _ => none

/-- `required name Decode.string` -/
def required (name : Bytes) (v : JsonValue) : Option Bytes := (v.field name).bind JsonValue.asString

def decoder (v : JsonValue) : Option UiPoint := do
  let typ ← required (lit "t") v
  let key ← required (lit "k") v
  let dataType ← required (lit "dt") v
  let data ← required (lit "d") v
  return ⟨typ, key, dataType, data⟩

def listDecoder : JsonValue → Option (List UiPoint)
  | .array values => values.mapM decoder
  | _ => none

/-- `Http.expectJson` with `listDecoder`, on the body of an answer. -/
def JsonParse.expectPoints (P : JsonParse) (body : Bytes) : Except HttpError (List UiPoint) :=
  match (P.parse body).bind listDecoder with
  | some points => .ok points
  | none => .error (.badBody body)

/-! ## Reading points -/

/-- `String.toInt` -/
def toInt (s : Bytes) : Option Int :=
  let number (ds : Bytes) : Option Int :=
    if ds ≠ [] ∧ ∀ c ∈ ds, IsDigit c then some (Decimal.natValue ds) else none
  match s with
  | 0x2d :: ds => (number ds).map (- ·)
  | 0x2b :: ds => number ds
  | ds => number ds

def getInt (points : List UiPoint) (typ key : Bytes) : Int :=
  match get points typ key with
  | some p => (toInt p.data).getD 0
  | none => 0

def getBool (points : List UiPoint) (typ key : Bytes) : Bool := getInt points typ key = 1

def getText (points : List UiPoint) (typ key : Bytes) : Bytes :=
  match get points typ key with
  | some p => p.data
  | none => []

def dataTypeInt : Bytes := lit "INT"
def dataTypeString : Bytes := lit "STR"
def typeDescription : Bytes := lit "description"
def typeStaticIP : Bytes := lit "staticIP"
def typeAddress : Bytes := lit "address"
def typeNetmask : Bytes := lit "netmask"
def typeGateway : Bytes := lit "gateway"

/-! ## Controls -/

/-- What the user can act on, and the messages of the acts. -/
inductive Control where
  /-- `Input.text` -/
  | text (label placeholder shown : Bytes) (onChange : Bytes → Msg)
  /-- `Input.checkbox` -/
  | checkbox (label : Bytes) (checked : Bool) (onChange : Bool → Msg)
  /-- `Form.button` -/
  | button (label : Bytes) (onPress : Msg)
  /-- `Form.onEnterEsc`: a key that goes up in the column. -/
  | onEnterEsc (enterMsg escMsg : Msg)

/-- The user acts, and the message is sent. -/
inductive Control.Sends : Control → Msg → Prop where
  | text (d : Bytes) : Sends (.text label placeholder shown onChange) (onChange d)
  | checkbox (d : Bool) : Sends (.checkbox label checked onChange) (onChange d)
  | button : Sends (.button label onPress) onPress
  | enter : Sends (.onEnterEsc enterMsg escMsg) enterMsg
  | escape : Sends (.onEnterEsc enterMsg escMsg) escMsg

def inputText (pts : List UiPoint) (key typ lbl placeholder : Bytes) : Control :=
  .text lbl placeholder (getText pts typ key) fun d => .editPoint [⟨typ, key, dataTypeString, d⟩]

def inputCheckbox (pts : List UiPoint) (key typ lbl : Bytes) : Control :=
  .checkbox lbl (getBool pts typ key) fun d =>
    let v := if d then lit "1" else lit "0"
    .editPoint [⟨typ, key, dataTypeInt, v⟩]

def viewIf (condition : Bool) (elements : List Control) : List Control :=
  if condition then elements else []

def settings (points : List UiPoint) (edit : Bool) : List Control :=
  let staticIP := getBool points typeStaticIP []
  [.onEnterEsc (.apiPostPoints points) .discardEdits,
    inputText points (lit "0") typeDescription (lit "Description") (lit "desc"),
    inputCheckbox points (lit "0") typeStaticIP (lit "Static IP")] ++
  viewIf staticIP
    [inputText points (lit "0") typeAddress (lit "IP Addr") (lit "ex: 10.0.0.23"),
      inputText points (lit "0") typeNetmask (lit "Netmask") (lit "ex: 255.255.255.0"),
      inputText points (lit "0") typeGateway (lit "Gateway") (lit "ex: 10.0.0.1")] ++
  viewIf edit
    [.button (lit "save") (.apiPostPoints points), .button (lit "discard") .discardEdits]

def deviceContent (model : Model) : List Control :=
  match model.points with
  | .loading => []
  | .success points =>
    let pointsMerge := updatePoints points model.pointMods
    settings pointsMerge (model.pointMods.length > 0)
  | .failure _ => []

/-- A message that the runtime hands to `update`: of a control of some view, which later messages
may have made an old one, of the clock, or with an answer. -/
inductive Arrives : Msg → Prop where
  | control (model : Model) (c : Control) : c ∈ deviceContent model → c.Sends msg → Arrives msg
  | tick (posix : Int) : Arrives (.tick posix)
  | pointList (result : Except HttpError (List UiPoint)) : Arrives (.apiRespPointList result)
  | pointPost (result : Except HttpError Resp) : Arrives (.apiRespPointPost result)

end Frontend

end ZephyrSiot
