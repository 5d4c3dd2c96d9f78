import ZephyrSiot.Cloud

/-!
# What the cloud client calls

The state behind the calls of `Cloud`, and what their documentation says of it: when a call may be
made (`Permits`), what it may return (`Possible`) and what it changes (`after`). A handle that is
returned is not one of those in use. A call that fails changes nothing. What the client itself has
to see to before it connects or sends is `Trusted`.
-/

namespace ZephyrSiot
open CStr Calls CloudCall

structure TlsSocket where
  peerVerify : TlsPeerVerify := .optional
  secTagList : List Nat := []
  hostname : Option Bytes := none
  /-- The name that was looked up for the address of the peer, and the port. -/
  peer : Option (Bytes × Nat) := none

structure CloudPost where
  request : HttpRequest
  socket : TlsSocket
  result : Int

structure CloudWorld where
  objects : Nat → Option (List (Bytes × Bool))
  /-- The strings of `cJSON_PrintUnformatted`. -/
  strings : Nat → Option Bytes
  /-- The results of `getaddrinfo`, each with the name that was looked up and its port. -/
  addrs : Nat → Option (Bytes × Nat)
  sockets : Int → Option TlsSocket
  /-- The certificates of the modem, by security tag. They survive a reset. -/
  caChain : Nat → Option Bytes
  /-- The calls that write a certificate, since the reset. -/
  written : List (Nat × Bytes)
  /-- `modem_key_mgmt_cmp` has failed on a certificate that is the one in the modem, since the
  reset. -/
  cmpFailed : Bool
  modemReady : Bool
  /-- `lte_lc_connect` has succeeded. -/
  attached : Bool
  timer : Bool
  threadSem : Nat
  /-- The HTTP requests made since the reset. -/
  posts : List CloudPost

namespace CloudWorld

/-- After a reset. -/
def start (caChain : Nat → Option Bytes) : CloudWorld where
  objects := fun _ => none
  strings := fun _ => none
  addrs := fun _ => none
  sockets := fun _ => none
  caChain := caChain
  written := []
  cmpFailed := false
  modemReady := false
  attached := false
  timer := false
  threadSem := 0
  posts := []

/-- No handle is in use. -/
structure Clean (w : CloudWorld) : Prop where
  objects : ∀ p, w.objects p = none
  strings : ∀ p, w.strings p = none
  addrs : ∀ p, w.addrs p = none
  sockets : ∀ fd, w.sockets fd = none

section
variable (w : CloudWorld)

def setObject (p : Nat) (o : Option (List (Bytes × Bool))) : CloudWorld :=
  { w with objects := Function.update w.objects p o }

def setString (p : Nat) (o : Option Bytes) : CloudWorld :=
  { w with strings := Function.update w.strings p o }

def setAddr (res : Nat) (o : Option (Bytes × Nat)) : CloudWorld :=
  { w with addrs := Function.update w.addrs res o }

def setSocket (fd : Int) (o : Option TlsSocket) : CloudWorld :=
  { w with sockets := Function.update w.sockets fd o }

def setCaChain (tag : Nat) (o : Option Bytes) : CloudWorld :=
  { w with caChain := Function.update w.caChain tag o }

def addPosts (posts : List CloudPost) : CloudWorld := { w with posts := w.posts ++ posts }

/-- `k_sem_give` on `thread_sem`, whose limit is 1. -/
def give : CloudWorld := { w with threadSem := 1 }

end

variable {w : CloudWorld} {p res : Nat} {fd : Int} {o o' : Option TlsSocket}

@[simp] theorem objects_setObject {o : Option (List (Bytes × Bool))} :
    (w.setObject p o).objects p = o := Function.update_self ..

@[simp] theorem setObject_setObject {o o' : Option (List (Bytes × Bool))} :
    (w.setObject p o).setObject p o' = w.setObject p o' := by
  simp [setObject]

theorem setObject_self (h : w.objects p = none) : w.setObject p none = w := by
  rw [setObject, ← h, Function.update_eq_self]

@[simp] theorem strings_setString {o : Option Bytes} : (w.setString p o).strings p = o :=
  Function.update_self ..

@[simp] theorem setString_setString {o o' : Option Bytes} :
    (w.setString p o).setString p o' = w.setString p o' := by
  simp [setString]

theorem setString_self (h : w.strings p = none) : w.setString p none = w := by
  rw [setString, ← h, Function.update_eq_self]

@[simp] theorem addrs_setAddr {o : Option (Bytes × Nat)} : (w.setAddr res o).addrs res = o :=
  Function.update_self ..

@[simp] theorem setAddr_setAddr {o o' : Option (Bytes × Nat)} :
    (w.setAddr res o).setAddr res o' = w.setAddr res o' := by
  simp [setAddr]

theorem setAddr_self (h : w.addrs res = none) : w.setAddr res none = w := by
  rw [setAddr, ← h, Function.update_eq_self]

@[simp] theorem sockets_setSocket : (w.setSocket fd o).sockets fd = o := Function.update_self ..

@[simp] theorem setSocket_setSocket : (w.setSocket fd o).setSocket fd o' = w.setSocket fd o' := by
  simp [setSocket]

@[simp] theorem addrs_setSocket : (w.setSocket fd o).addrs = w.addrs := rfl

@[simp] theorem strings_setSocket : (w.setSocket fd o).strings = w.strings := rfl

@[simp] theorem strings_addPosts {posts : List CloudPost} :
    (w.addPosts posts).strings = w.strings := rfl

@[simp] theorem sockets_addPosts {posts : List CloudPost} :
    (w.addPosts posts).sockets = w.sockets := rfl

@[simp] theorem objects_setString {o : Option Bytes} : (w.setString p o).objects = w.objects := rfl

theorem setSocket_self (h : w.sockets fd = none) : w.setSocket fd none = w := by
  rw [setSocket, ← h, Function.update_eq_self]

end CloudWorld

/-- The text of `cJSON_PrintUnformatted`, where no name needs escaping. -/
def unformatted (members : List (Bytes × Bool)) : Bytes :=
  lit "\x7b" ++ (lit ",").intercalate (members.map fun (name, b) =>
    lit "\"" ++ name ++ lit "\":" ++ if b then lit "true" else lit "false") ++ lit "\x7d"

def TlsSocket.setsockopt (s : TlsSocket) : SocketOption → TlsSocket
  | .soRcvtimeo _ | .soSndtimeo _ | .tlsSessionCache _ => s
  | .tlsPeerVerify verify => { s with peerVerify := verify }
  | .tlsSecTagList tags => { s with secTagList := tags }
  | .tlsHostname hostname => { s with hostname := some hostname }

/-- The peer has to show a certificate for the configured name, from the provisioned root. -/
structure TlsSocket.Verified (cfg : CloudConfig) (s : TlsSocket) : Prop where
  peerVerify : s.peerVerify = .required
  secTagList : s.secTagList = [cfg.tlsSecTag]
  hostname : s.hostname = some cfg.hostname

namespace CloudWorld

/-- A `NULL` pointer, or one to an object. -/
def IsObject (w : CloudWorld) (obj : Option Nat) : Prop := ∀ p ∈ obj, (w.objects p).isSome

def Permits (w : CloudWorld) {β : Type} : CloudCall β → Prop
  | modemKeyMgmtExists _ | modemKeyMgmtCmp _ _ => w.modemReady = true
  -- "Provision certificates before connecting to the LTE network"
  | modemKeyMgmtDelete _ | modemKeyMgmtWrite _ _ => w.modemReady = true ∧ w.attached = false
  | cjsonCreateObject => True
  | cjsonAddBoolToObject obj _ _ | cjsonPrintUnformatted obj | cjsonDelete obj =>
    w.IsObject obj
  | cjsonFree string => (w.strings string).isSome
  | getaddrinfo _ => w.attached = true
  | setSinPort res _ | freeaddrinfo res | CloudCall.socket res => (w.addrs res).isSome
  | CloudCall.setsockopt fd _ => ∃ s, w.sockets fd = some s ∧ s.peer = none
  | connect fd res => (∃ s, w.sockets fd = some s ∧ s.peer = none) ∧ (w.addrs res).isSome
  | close fd => (w.sockets fd).isSome
  | httpClientReq fd req => (∃ s, w.sockets fd = some s ∧ s.peer.isSome) ∧
    w.strings req.payload.1 = some req.payload.2 ∧ req.payloadLen ≤ req.payload.2.length
  | nrfModemLibInit => w.modemReady = false
  | lteLcPsmReq _ | lteLcConnect => w.modemReady = true
  | kTimerStart | kSemGive => True

/-- The modem does not hold the right certificate, or the compare with it has failed. -/
def Unlike (cfg : CloudConfig) (w : CloudWorld) : Prop :=
  w.caChain cfg.tlsSecTag = some cfg.cert → w.cmpFailed = true

/-- The certificate of the modem is touched only where it is not the one in `cert`, or could not be
compared with it. The handshake of `connect` has what it takes to tell the configured server from
another, and what is sent goes there. -/
def Trusted (cfg : CloudConfig) (w : CloudWorld) {β : Type} : CloudCall β → Prop
  | modemKeyMgmtDelete tag => tag = cfg.tlsSecTag ∧ w.Unlike cfg
  | modemKeyMgmtWrite tag cred => tag = cfg.tlsSecTag ∧ cred = cfg.cert ∧ w.Unlike cfg
  | connect fd res =>
    (∀ s ∈ w.sockets fd, s.Verified cfg) ∧ w.addrs res = some (cfg.hostname, cfg.port)
  | httpClientReq fd _ =>
    ∀ s ∈ w.sockets fd, s.Verified cfg ∧ s.peer = some (cfg.hostname, cfg.port)
  | _ => True

def Possible (w : CloudWorld) : {β : Type} → CloudCall β → β → Prop
  | _, modemKeyMgmtExists tag => fun (err, present) => err = 0 → present = (w.caChain tag).isSome
  -- where the two are the same the call may still fail
  | _, modemKeyMgmtCmp tag cred => fun mismatch => mismatch = 0 → w.caChain tag = some cred
  | _, cjsonCreateObject => fun obj => ∀ p ∈ obj, w.objects p = none
  | _, cjsonAddBoolToObject obj _ _ => fun added => added = true → obj.isSome
  | _, cjsonPrintUnformatted obj => fun msg => ∀ m ∈ msg, w.strings m.1 = none ∧
    ∃ p members, obj = some p ∧ w.objects p = some members ∧ m.2 = unformatted members ++ [0]
  | _, getaddrinfo _ => fun (err, res) => err = 0 → w.addrs res = none
  | _, CloudCall.socket _ => fun fd => fd = -1 ∨ 0 ≤ fd ∧ w.sockets fd = none
  | _, CloudCall.setsockopt _ _ | _, connect _ _ => fun (err, errno) =>
    err = 0 ∨ err = -1 ∧ 0 < errno
  | _, modemKeyMgmtDelete _ | _, modemKeyMgmtWrite _ _ | _, httpClientReq _ _
  | _, nrfModemLibInit | _, lteLcConnect => fun _ => True
  | _, cjsonDelete _ | _, cjsonFree _ | _, setSinPort _ _ | _, freeaddrinfo _ | _, close _
  | _, lteLcPsmReq _ | _, kTimerStart | _, kSemGive => fun _ => True

def after (w : CloudWorld) : {β : Type} → CloudCall β → β → CloudWorld
  | _, modemKeyMgmtExists _ => fun _ => w
  | _, modemKeyMgmtCmp tag cred => fun mismatch =>
    if mismatch ≠ 0 ∧ w.caChain tag = some cred then { w with cmpFailed := true } else w
  | _, modemKeyMgmtDelete tag => fun err => if err = 0 then w.setCaChain tag none else w
  | _, modemKeyMgmtWrite tag cred => fun err =>
    let w := { w with written := w.written ++ [(tag, cred)] }
    if err = 0 then w.setCaChain tag (some cred) else w
  | _, cjsonCreateObject => fun obj => obj.elim w fun p => w.setObject p (some [])
  | _, cjsonAddBoolToObject obj name boolean => fun added =>
    if added then
      obj.elim w fun p => w.setObject p ((w.objects p).map (· ++ [(name, boolean)]))
    else w
  | _, cjsonPrintUnformatted _ => fun msg => msg.elim w fun (p, text) => w.setString p (some text)
  | _, cjsonDelete obj => fun _ => obj.elim w fun p => w.setObject p none
  | _, cjsonFree string => fun _ => w.setString string none
  | _, getaddrinfo node => fun (err, res) =>
    if err = 0 then w.setAddr res (some (node, 0)) else w
  | _, setSinPort res port => fun _ =>
    w.setAddr res ((w.addrs res).map fun (node, _) => (node, port))
  | _, freeaddrinfo res => fun _ => w.setAddr res none
  | _, CloudCall.socket _ => fun fd => if fd = -1 then w else w.setSocket fd (some {})
  | _, CloudCall.setsockopt fd option => fun (err, _) =>
    if err = 0 then w.setSocket fd ((w.sockets fd).map (·.setsockopt option)) else w
  | _, connect fd res => fun (err, _) =>
    if err = 0 then
      w.setSocket fd ((w.sockets fd).map fun s => { s with peer := w.addrs res })
    else w
  | _, close fd => fun _ => w.setSocket fd none
  | _, httpClientReq fd req => fun ret =>
    w.addPosts ((w.sockets fd).map fun s => ⟨req, s, ret⟩).toList
  | _, nrfModemLibInit => fun err => if err < 0 then w else { w with modemReady := true }
  | _, lteLcPsmReq _ => fun _ => w
  | _, lteLcConnect => fun err => if err < 0 then w else { w with attached := true }
  | _, kTimerStart => fun _ => { w with timer := true }
  | _, kSemGive => fun _ => w.give

end CloudWorld

def cloudProtocol (cfg : CloudConfig) : Protocol CloudCall CloudWorld where
  Allowed w c := w.Permits c ∧ w.Trusted cfg c
  Possible w c r := w.Possible c r
  after w c r := w.after c r

end ZephyrSiot
