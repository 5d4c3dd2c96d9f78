import ZephyrSiot.PointDump
import ZephyrSiot.PointMerge

/-!
# The web interface

`apps/siot-net/src/web.c`: the handler of the `/v1/*` resource and the thread that mirrors the
points of `point_chan` into `web_points`. The HTTP server calls the handler once for each chunk
of a request; the payload buffer and the cursor are static and live on between calls. Both users
of `web_points` hold its lock, so a callback and a message are one step each.
-/

namespace ZephyrSiot
open CStr

/-- The methods the resource is registered for. -/
inductive HttpMethod where
  | get | post
  deriving DecidableEq

inductive HttpTransactionStatus where
  | aborted | requestDataMore | requestDataFinal | transactionComplete
  deriving DecidableEq

/-- What the handler looks at: `client->method`, `client->url_buffer`, `status` and the bytes of
`request_ctx`. -/
structure HttpCallback where
  method : HttpMethod
  urlBuffer : Bytes
  status : HttpTransactionStatus
  data : Bytes

structure WebState where
  payloadBuf : CharArray 256
  cursor : Nat
  webPoints : List Point
  /-- The string in `recv_buffer`. -/
  recvBuffer : Bytes

/-- The static initializers. -/
def WebState.init : WebState := ⟨.zero 256, 0, .replicate 40 .zero, []⟩

/-- What a callback returns and leaves behind, and a log of what it did on its way. -/
structure HandlerResult where
  ret : Int
  state : WebState
  /-- `resp->body`, when the response was filled in. -/
  body : Option Bytes
  /-- The stores into `v1_payload_buf`: the offset and the bytes. -/
  stores : List (Nat × Bytes)
  /-- The descriptions for the log. -/
  dumps : List LogDump
  /-- The results of the `points_merge` calls. -/
  mergeRets : List Int
  /-- The points given to `zbus_chan_pub`. -/
  published : List Point

/-- The text of the handler's answer to a POST. -/
def errorText (e : Bytes) : Bytes := lit "\x7b\"error\":\"" ++ e ++ lit "\"\x7d"

def recvBufferSize : Nat := 2048

/-- The loop over the decoded points: the results of the merges, the store after them, and the
points as they were published. -/
def v1Handler.mergeLoop : List Point → List Point → List Int × List Point × List Point
  | webPoints, [] => ([], webPoints, [])
  | webPoints, p :: pts =>
    let r := pointsMerge webPoints p
    let (rets, webPoints, published) := mergeLoop r.pts pts
    (r.ret :: rets, webPoints, r.p :: published)

/-- Copying a chunk of a POST behind what is in the buffer. The sum of the source cannot wrap: the
chunk and the buffer are disjoint objects of one address space. -/
def WebState.copyChunk (s : WebState) (data : Bytes) : WebState :=
  { s with payloadBuf := s.payloadBuf.poke s.cursor data, cursor := s.cursor + data.length }

/-- The text that the final callback of a POST hands to the decoder. -/
def WebState.payload (s : WebState) : Bytes := s.payloadBuf.bytes.take s.cursor

section
variable (J : JsonLib) (boardTarget : Bytes) (ptsJs : PointJsArray)

/-- "must be a post": the branch of the final callback, the payload complete. -/
def v1Handler.post (s : WebState) : HandlerResult :=
  let stores := [(s.cursor, [nul])]
  let s := { s with payloadBuf := s.payloadBuf.poke s.cursor [nul] }
  let (ret, pts) := pointsJsonDecode J ptsJs s.payload (.replicate 5 .zero)
  let (dumps, rets, s, published) :=
    if ret < 0 then ([], [], { s with recvBuffer := errorText (lit "error decoding data") }, [])
    else
      let dump := logDbgPoints (pts.take ret.toNat)
      let (rets, webPoints, published) := mergeLoop s.webPoints (pts.take ret.toNat)
      ([dump], rets, { s with webPoints }, published)
  let s := { s with recvBuffer := errorText [] }
  ⟨0, s, none, stores, dumps, rets, published⟩

/-- The branches of the final callback. -/
def v1Handler.final (s : WebState) (cb : HttpCallback) : HandlerResult :=
  if strcmp cb.urlBuffer (lit "/v1/points") = 0 then
    match cb.method with
    | .get =>
      let (_, buf) := pointsJsonEncode J s.webPoints s.recvBuffer recvBufferSize
      ⟨0, { s with recvBuffer := buf }, none, [], [], [], []⟩
    | .post => v1Handler.post J ptsJs s
  else ⟨0, { s with recvBuffer := boardTarget }, none, [], [], [], []⟩

/-- The handler. `boardTarget` is `CONFIG_BOARD_TARGET`, and `ptsJs` what the stack held where
`points_json_decode` has the parser write. -/
def v1Handler (s : WebState) (cb : HttpCallback) : HandlerResult :=
  if cb.method = .post ∧ cb.data.length + s.cursor > 256 then
    ⟨-enomem, { s with cursor := 0 }, none, [], [], [], []⟩
  else
    let stores := if cb.method = .post then [(s.cursor, cb.data)] else []
    let s := if cb.method = .post then s.copyChunk cb.data else s
    match cb.status with
    | .aborted => ⟨0, { s with cursor := 0 }, none, stores, [], [], []⟩
    | .requestDataFinal =>
      let r := v1Handler.final J boardTarget ptsJs s cb
      { r with
        stores := stores ++ r.stores
        body := some r.state.recvBuffer
        state := { r.state with cursor := 0 } }
    | .requestDataMore | .transactionComplete => ⟨0, s, none, stores, [], [], []⟩

/-- What happens to the web interface: a callback, with what the stack then holds, or a message
of `point_chan` that `web_thread` handles. -/
inductive WebEvent where
  | callback (ptsJs : PointJsArray) (cb : HttpCallback)
  | message (p : Point)

def webStep (s : WebState) : WebEvent → WebState
  | .callback ptsJs cb => (v1Handler J boardTarget ptsJs s cb).state
  | .message p => { s with webPoints := (pointsMerge s.webPoints p).pts }

end

/-! ## The parts of a POST -/

/-- The handler merges the points in order and publishes them as the merges left them. -/
theorem mergeLoop_published (webPoints pts : List Point) :
    (v1Handler.mergeLoop webPoints pts).2.2 = pts.map Point.defaultKey := by
  induction pts generalizing webPoints with
  | nil => rfl
  | cons p pts ih => rw [v1Handler.mergeLoop, List.map_cons, ← ih, ← pointsMerge_p webPoints]

theorem mergeLoop_webPoints (webPoints pts : List Point) :
    (v1Handler.mergeLoop webPoints pts).2.1 = mergeRun webPoints pts := by
  induction pts generalizing webPoints with
  | nil => rfl
  | cons p pts ih => rw [v1Handler.mergeLoop, mergeRun, Machine.run_cons]; exact ih _

end ZephyrSiot
