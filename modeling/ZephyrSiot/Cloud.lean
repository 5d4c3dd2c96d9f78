import ZephyrSiot.Point
import ZephyrSiot.Theory.Calls

/-!
# The cloud client

`apps/siot-nrf/src/cloud/cloud.c`: provisioning of the certificate and publishing over TLS, as
programs that call the modem library, the sockets, the HTTP client and cJSON, none of which is part
of this repository. A pointer to an object of theirs is a number, `none` when it is `NULL`. Where
the source reads `errno` after a call that fails, the call returns it too.
-/

namespace ZephyrSiot
open CStr Calls

/-- `CONFIG_CLOUD_*`, and the certificate. -/
structure CloudConfig where
  hostname : Bytes
  port : Nat
  publishPath : Bytes
  tlsSecTag : Nat
  /-- The string in `cert`, the text of a PEM file. -/
  cert : Bytes
  certNoNul : 0 ∉ cert

structure DeviceData where
  doSomething : Bool

def eio : Int := 5
def econnaborted : Int := 103

/-! ## Calls -/

inductive TlsPeerVerify where
  | none | optional | required
  deriving DecidableEq

/-- What `setsockopt` sets. The timeouts are in seconds. -/
inductive SocketOption where
  | soRcvtimeo (tvSec : Nat)
  | soSndtimeo (tvSec : Nat)
  | tlsPeerVerify (verify : TlsPeerVerify)
  | tlsSecTagList (tags : List Nat)
  | tlsHostname (hostname : Bytes)
  | tlsSessionCache (enabled : Bool)

/-- What is set in `struct http_request`, the callback and the receive buffer aside. The method is
POST. -/
structure HttpRequest where
  url : Bytes
  host : Bytes
  protocol : Bytes
  /-- The pointer and the string there. -/
  payload : Nat × Bytes
  payloadLen : Nat
  contentTypeValue : Bytes
  headerFields : List Bytes

/-- The calls, by what they return. Results that the source does not look at are left out. -/
inductive CloudCall : Type → Type where
  /-- The result, and `exists`. -/
  | modemKeyMgmtExists (secTag : Nat) : CloudCall (Int × Bool)
  | modemKeyMgmtCmp (secTag : Nat) (cred : Bytes) : CloudCall Int
  | modemKeyMgmtDelete (secTag : Nat) : CloudCall Int
  | modemKeyMgmtWrite (secTag : Nat) (cred : Bytes) : CloudCall Int
  | cjsonCreateObject : CloudCall (Option Nat)
  /-- The pointer to the new item is not `NULL`. -/
  | cjsonAddBoolToObject (obj : Option Nat) (name : Bytes) (boolean : Bool) : CloudCall Bool
  | cjsonPrintUnformatted (obj : Option Nat) : CloudCall (Option (Nat × Bytes))
  | cjsonDelete (obj : Option Nat) : CloudCall Unit
  | cjsonFree (string : Nat) : CloudCall Unit
  /-- The result, and `res`. -/
  | getaddrinfo (node : Bytes) : CloudCall (Int × Nat)
  /-- The store into `sin_port` of the address. -/
  | setSinPort (res : Nat) (port : Nat) : CloudCall Unit
  | freeaddrinfo (res : Nat) : CloudCall Unit
  /-- A stream of the family of the address, over TLS 1.2. -/
  | socket (res : Nat) : CloudCall Int
  /-- The result, and `errno`. -/
  | setsockopt (fd : Int) (option : SocketOption) : CloudCall (Int × Int)
  /-- The result, and `errno`. -/
  | connect (fd : Int) (res : Nat) : CloudCall (Int × Int)
  | close (fd : Int) : CloudCall Unit
  | httpClientReq (fd : Int) (req : HttpRequest) : CloudCall Int
  | nrfModemLibInit : CloudCall Int
  | lteLcPsmReq (enable : Bool) : CloudCall Unit
  | lteLcConnect : CloudCall Int
  | kTimerStart : CloudCall Unit
  | kSemGive : CloudCall Unit

abbrev CloudProgram := Program CloudCall

open CloudCall

section
variable (cfg : CloudConfig)

/-! ## The socket -/

def tlsSetup (fd : Int) : CloudProgram Int := do
  let (err, errno) ← perform (setsockopt fd (.tlsPeerVerify .required))
  if err ≠ 0 then return -errno
  let (err, errno) ← perform (setsockopt fd (.tlsSecTagList [cfg.tlsSecTag]))
  if err ≠ 0 then return -errno
  let (err, errno) ← perform (setsockopt fd (.tlsHostname cfg.hostname))
  if err ≠ 0 then return -errno
  let (err, errno) ← perform (setsockopt fd (.tlsSessionCache true))
  if err ≠ 0 then return -errno
  return 0

/-- From the label `clean_up` on. -/
def socketSetup.cleanUp (res : Nat) (err fd : Int) : CloudProgram Int := do
  perform (freeaddrinfo res)
  if err < 0 ∧ fd > -1 then
    perform (close fd)
    return err
  -- "Return error or socket"
  if err < 0 then return err else return fd

def socketSetup : CloudProgram Int := do
  let (err, res) ← perform (getaddrinfo cfg.hostname)
  if err ≠ 0 then return -eio
  perform (setSinPort res cfg.port)
  let fd ← perform (socket res)
  if fd = -1 then
    socketSetup.cleanUp res (-econnaborted) fd
  else
    let (err, errno) ← perform (setsockopt fd (.soRcvtimeo 5))
    if err ≠ 0 then
      socketSetup.cleanUp res (-errno) fd
    else
      let (err, errno) ← perform (setsockopt fd (.soSndtimeo 5))
      if err ≠ 0 then
        socketSetup.cleanUp res (-errno) fd
      else
        let err ← tlsSetup cfg fd
        if err < 0 then
          socketSetup.cleanUp res err fd
        else
          let (err, errno) ← perform (connect fd res)
          socketSetup.cleanUp res (if err < 0 then -errno else err) fd

/-! ## Publishing -/

def publishRequest (msg : Nat × Bytes) : HttpRequest where
  url := cfg.publishPath
  host := cfg.hostname
  protocol := lit "HTTP/1.1"
  payload := msg
  payloadLen := (cstr msg.2).length
  contentTypeValue := lit "application/json"
  -- "Don't keep connection open.."
  headerFields := [lit "Connection: close" ++ [cr, lf]]

def cloudPublish (data : DeviceData) : CloudProgram Int := do
  let obj ← perform cjsonCreateObject
  let _ ← perform (cjsonAddBoolToObject obj (lit "do_something") data.doSomething)
  let msg ← perform (cjsonPrintUnformatted obj)
  perform (cjsonDelete obj)
  match msg with
  | none => return -enomem
  | some msg =>
    let fd ← socketSetup cfg
    if fd < 0 then
      perform (cjsonFree msg.1)
      return fd
    else
      let ret ← perform (httpClientReq fd (publishRequest cfg msg))
      perform (close fd)
      perform (cjsonFree msg.1)
      if ret < 0 then return ret
      return 0

/-! ## The certificate -/

/-- "Provision certificate to the modem" -/
def certProvision.write : CloudProgram Int := do
  let err ← perform (modemKeyMgmtWrite cfg.tlsSecTag cfg.cert)
  if err ≠ 0 then return err
  return 0

def certProvision : CloudProgram Int := do
  let (err, present) ← perform (modemKeyMgmtExists cfg.tlsSecTag)
  if err ≠ 0 then return err
  if present then
    let mismatch ← perform (modemKeyMgmtCmp cfg.tlsSecTag (cstr cfg.cert))
    if mismatch = 0 then return 0
    -- a failure to delete is only logged
    let _ ← perform (modemKeyMgmtDelete cfg.tlsSecTag)
    certProvision.write cfg
  else
    certProvision.write cfg

/-- The callback is not `NULL`. -/
def cloudInit (callback : Bool) : CloudProgram Int := do
  if callback = false then return -einval
  -- a failure to provision is only logged
  let _ ← certProvision cfg
  return 0

end

end ZephyrSiot
