import ZephyrSiot.NvsThreads
import ZephyrSiot.PointShell
import ZephyrSiot.WebThreads

/-!
# The device

The threads of `apps/siot-net` on one `point_chan`: those of `WebThreads` and `NvsThreads`, the
publishers of `lib/zbus.c` and `lib/metrics.c`, and the shell. The thread of `lib/point-cache.c`
reports what it has merged while streaming is on. The shell runs one command at a time, and a
`siot dump` holds `cache_lock` until its last line. A line is printed whole.
-/

namespace ZephyrSiot
open CStr

/-! ## Publishers -/

def pointTypeMetricSysCpuPercent : Bytes := lit "metricSysCPUPercent"
def pointTypeUptime : Bytes := lit "uptime"
def pointTypeBoard : Bytes := lit "board"
def pointTypeVersionFw : Bytes := lit "versionFW"

/-- What `bus_init` publishes: `CONFIG_BOARD`, and one of the two version strings. -/
def busInit (board appVersion appVersionExtended : Bytes) : List Point :=
  let p := (Point.zero.setTypeKey pointTypeBoard (lit "0")).putString board
  let dev : Bool := lit "dev" <:+: cstr appVersionExtended
  let q := (p.setTypeKey pointTypeVersionFw (lit "0")).putString
    (if dev then appVersionExtended else appVersion)
  [p, q]

/-- What `siot_metrics_thread` publishes each second, `cpu_usage` given by its bit pattern. -/
def siotMetrics (cpuUsage uptime : UInt32) : List Point :=
  let p := (Point.zero.setTypeKey pointTypeMetricSysCpuPercent []).putFloat cpuUsage
  [p, (p.setTypeKey pointTypeUptime []).putInt uptime.toNat]

/-! ## Commands -/

/-- What `handle_sendpoint` prints. -/
def handleSendpoint.printed (timegm : Tm → Int) (argv : List Bytes) : List Bytes :=
  if argv.length < 5 then [lit "Usage: p <type> <key> <INT|FLT|STR|JSN> <data> [<time>]"]
  else
    let arg (i : Nat) : Bytes := argv.getD i []
    let js : PointJs := ⟨some (arg 1), some (arg 2), some (arg 3), cstr (arg 4)⟩
    if (pointJsToPoint js .zero).1 ≠ 0 then [lit "Invalid point"]
    else if argv.length ≥ 6 ∧
        timeconvEpochNsFromRfc3339 timegm (arg 5) (cstr (arg 5)).length = 0 then
      [lit "Invalid time: " ++ cstr (arg 5)]
    else []

/-- The callback of `cmd_siot_dump`. The user data is what is printed. -/
def emitCb (sh : Bool) (p : Point) (lines : List Bytes) : Int × List Bytes :=
  (0, lines ++ (pointEmit sh p).toList)

def onOff (streaming : Bool) : Bytes := if streaming then lit "on" else lit "off"

/-- The result, `streaming` after it and what is printed. -/
def cmdSiotStream (streaming : Bool) (argv : List Bytes) : Int × Bool × List Bytes :=
  if argv.length < 2 then (0, streaming, [lit "streaming is " ++ onOff streaming])
  else if strcmp (argv.getD 1 []) (lit "on") = 0 then (0, true, [])
  else if strcmp (argv.getD 1 []) (lit "off") = 0 then (0, false, [])
  else (-1, streaming, [lit "Usage: siot stream <on|off>"])

def cmdSiotStatus (cache : List Point) (streaming : Bool) : List Bytes :=
  [lit "points cached: " ++ lit (toString (pointCacheCount cache)) ++ lit " of " ++
      lit (toString cache.length),
    lit "streaming: " ++ onOff streaming]

inductive ShellCommand where
  | p (argv : List Bytes)
  | siotDump
  | siotStream (argv : List Bytes)
  | siotStatus

/-! ## State -/

deriving instance DecidableEq for NvsInitPc

/-- Where the cache thread stands with a point that it has merged. -/
inductive ReportPc where
  /-- At `if (streaming)`. -/
  | check (p : Point)
  | emit (p : Point)

/-- The threads that print. -/
inductive Printer where
  | pointCache | shell
  deriving DecidableEq

structure ConsoleLine where
  printer : Printer
  text : Bytes

structure Device (Z : Zms) where
  threads : WebThreads
  nvs : NvsThreads Z
  streaming : Bool
  report : Option ReportPc
  /-- The slot that a `siot dump` looks at next. -/
  dump : Option Nat
  console : List ConsoleLine
  /-- The descriptions of the points of POSTs for the log. -/
  dumps : List LogDump

inductive DeviceAction where
  /-- The body of a POST is complete. `ptsJs` is what the stack held where the parser writes. -/
  | request (ptsJs : PointJsArray) (payload : Bytes)
  | post
  /-- A publisher of the firmware publishes a point. -/
  | publish (p : Point)
  | webWaitMsg
  | webHandle
  | cacheWaitMsg
  | cacheMerge
  | cacheReport
  | nvsInit
  | nvsAddObs
  | nvsWaitMsg
  | nvsHandle
  | command (c : ShellCommand)
  | dumpNext

/-- The points that the body of a POST brings in, none when it is not decoded. -/
def decodedBody (J : JsonLib) (ptsJs : PointJsArray) (payload : Bytes) : Option (List Point) :=
  let (ret, pts) := pointsJsonDecode J ptsJs payload (.replicate 5 .zero)
  if ret < 0 then none else some (pts.take ret.toNat)

/-- The point that a command publishes. -/
def ShellCommand.point (timegm : Tm → Int) : ShellCommand → Option Point
  | .p argv => (handleSendpoint timegm argv).2
  | _ => none

/-- The points that come in with an action. -/
def DeviceAction.points (J : JsonLib) (timegm : Tm → Int) : DeviceAction → List Point
  | .request ptsJs payload => (decodedBody J ptsJs payload).getD []
  | .publish p => [p]
  | .command c => (c.point timegm).toList
  | _ => []

/-! ## Steps -/

namespace Device
variable {Z : Zms}

/-- The static initializers, and `nvs_init` at its loop. -/
def start (cacheSize : Nat) (table : List NvsPoint) (fs : Z.State) (w : NvsLocals) : Device Z :=
  ⟨.start cacheSize, .start table fs w, false, none, none, [], []⟩

def zbusChanPub (s : Device Z) (p : Point) : Device Z :=
  { s with threads := s.threads.zbusChanPub p, nvs := s.nvs.zbusChanPub p }

def shellPrint (s : Device Z) (printer : Printer) (lines : List Bytes) : Device Z :=
  { s with console := s.console ++ lines.map (⟨printer, ·⟩) }

/-- The points are described for the log, and then the lock is taken. The server handles one request
at a time, so there is none while a POST holds the lock. -/
def request (J : JsonLib) (s : Device Z) (ptsJs : PointJsArray) (payload : Bytes) : Device Z :=
  match decodedBody J ptsJs payload with
  | some pts =>
    { s with
      threads := s.threads.lock pts
      dumps := s.dumps ++ if s.threads.post = none then [logDbgPoints pts] else [] }
  | none => s

def stepPost (s : Device Z) : Device Z :=
  match s.threads.post with
  | some (.publish p _) => { s with threads := s.threads.stepPost, nvs := s.nvs.zbusChanPub p }
  | _ => { s with threads := s.threads.stepPost }

def nvsInit (table : List NvsPoint) (s : Device Z) : Device Z :=
  let nvs := s.nvs.init table
  match s.nvs.pc with
  | .publish npt _ =>
    { s with threads := s.threads.zbusChanPub (nvsInit.message npt s.nvs.locals), nvs }
  | _ => { s with nvs }

/-- The cache thread is at the head of its loop. -/
def cacheWaitMsg (s : Device Z) : Device Z :=
  match s.report with
  | none => { s with threads := webThreadsStep s.threads .cacheWaitMsg }
  | some _ => s

/-- `point_cache_merge`, which waits for `cache_lock`. The point is reported as it left it. -/
def cacheMerge (s : Device Z) : Device Z :=
  match s.dump, s.threads.cache.held with
  | none, some p =>
    { s with
      threads := webThreadsStep s.threads .cacheHandle
      report := some (.check (pointCacheMerge s.threads.cache.pts p).p) }
  | _, _ => s

def cacheReport (sh : Bool) (s : Device Z) : Device Z :=
  match s.report with
  | some (.check p) => { s with report := if s.streaming then some (.emit p) else none }
  | some (.emit p) => { s.shellPrint .pointCache (pointEmit sh p).toList with report := none }
  | none => s

/-- The shell takes a command when it is done with the one before. -/
def command (timegm : Tm → Int) (s : Device Z) (c : ShellCommand) : Device Z :=
  match s.dump with
  | some _ => s
  | none =>
    match c with
    | .p argv =>
      match (handleSendpoint timegm argv).2 with
      | some p => s.zbusChanPub p
      | none => s.shellPrint .shell (handleSendpoint.printed timegm argv)
    | .siotDump => { s with dump := some 0 }
    | .siotStream argv =>
      let (_, streaming, lines) := cmdSiotStream s.streaming argv
      { s.shellPrint .shell lines with streaming }
    | .siotStatus => s.shellPrint .shell (cmdSiotStatus s.threads.cache.pts s.streaming)

/-- A turn of the loop of `point_cache_foreach`, with the callback of `cmd_siot_dump`. -/
def dumpNext (sh : Bool) (s : Device Z) : Device Z :=
  match s.dump with
  | none => s
  | some i =>
    match s.threads.cache.pts[i]? with
    | none => { s with dump := none }
    | some q =>
      if q.type.first = 0 then { s with dump := some (i + 1) }
      else { s.shellPrint .shell (emitCb sh q []).2 with dump := some (i + 1) }

end Device

section
variable (J : JsonLib) (timegm : Tm → Int) (sh : Bool) (table : List NvsPoint)

open Device in
def deviceStep {Z : Zms} (s : Device Z) : DeviceAction → Device Z
  | .request ptsJs payload => s.request J ptsJs payload
  | .post => s.stepPost
  | .publish p => s.zbusChanPub p
  | .webWaitMsg => { s with threads := webThreadsStep s.threads .waitMsg }
  | .webHandle => { s with threads := webThreadsStep s.threads .handle }
  | .cacheWaitMsg => s.cacheWaitMsg
  | .cacheMerge => s.cacheMerge
  | .cacheReport => s.cacheReport sh
  | .nvsInit => s.nvsInit table
  | .nvsAddObs => { s with nvs := nvsThreadsStep table s.nvs .addObs }
  | .nvsWaitMsg => { s with nvs := nvsThreadsStep table s.nvs .waitMsg }
  | .nvsHandle => { s with nvs := nvsThreadsStep table s.nvs .handle }
  | .command c => s.command timegm c
  | .dumpNext => s.dumpNext sh

end

/-! ## The parts -/

namespace Device
variable (J : JsonLib) (timegm : Tm → Int) (sh : Bool) (table : List NvsPoint) {Z : Zms}

/-- What an action puts on `point_chan`. -/
def published (s : Device Z) : DeviceAction → List Point
  | .post => match s.threads.post with
    | some (.publish p _) => [p]
    | _ => []
  | .publish p => [p]
  | .nvsInit => match s.nvs.pc with
    | .publish npt _ => [nvsInit.message npt s.nvs.locals]
    | _ => []
  | .command c => if s.dump = none then (c.point timegm).toList else []
  | _ => []

/-- What the threads around `web_points` and the cache do at a step. -/
def webActions (s : Device Z) : DeviceAction → List WebAction
  | .request ptsJs payload => (decodedBody J ptsJs payload).toList.map .lock
  | .post => [.post]
  | .webWaitMsg => [.waitMsg]
  | .webHandle => [.handle]
  | .cacheWaitMsg => if s.report.isNone then [.cacheWaitMsg] else []
  | .cacheMerge => if s.dump.isNone ∧ s.threads.cache.held.isSome then [.cacheHandle] else []
  | a => (s.published timegm a).map .publish

/-- What the threads of `lib/nvs.c` do at a step. -/
def nvsActions (s : Device Z) : DeviceAction → List NvsAction
  | .nvsInit => [.init]
  | .nvsAddObs => [.addObs]
  | .nvsWaitMsg => [.waitMsg]
  | .nvsHandle => [.handle]
  | a => (s.published timegm a).map .publish

variable {J timegm sh table}

theorem threads_step (s : Device Z) (a : DeviceAction) :
    (deviceStep J timegm sh table s a).threads =
      Machine.run webThreadsStep s.threads (s.webActions J timegm a) := by
  cases a with
  | request ptsJs payload =>
    simp only [deviceStep, request, webActions]
    cases decodedBody J ptsJs payload <;> rfl
  | post =>
    simp only [deviceStep, stepPost]
    split <;> rfl
  | publish p => rfl
  | webWaitMsg => rfl
  | webHandle => rfl
  | cacheWaitMsg =>
    simp only [deviceStep, cacheWaitMsg, webActions]
    cases s.report <;> rfl
  | cacheMerge =>
    simp only [deviceStep, cacheMerge, webActions]
    cases s.dump <;> cases s.threads.cache.held <;> rfl
  | cacheReport =>
    simp only [deviceStep, cacheReport]
    rcases s.report with _ | (_ | _) <;> rfl
  | nvsInit =>
    simp only [deviceStep, nvsInit, webActions, published]
    cases s.nvs.pc <;> rfl
  | nvsAddObs => rfl
  | nvsWaitMsg => rfl
  | nvsHandle => rfl
  | command c =>
    simp only [deviceStep, command, webActions, published]
    cases s.dump with
    | some i => rfl
    | none =>
      cases c with
      | p argv =>
        dsimp only [ShellCommand.point]
        cases (handleSendpoint timegm argv).2 <;> rfl
      | siotDump => rfl
      | siotStream argv => rfl
      | siotStatus => rfl
  | dumpNext =>
    simp only [deviceStep, dumpNext]
    split
    · rfl
    · split
      · rfl
      · split <;> rfl

theorem nvs_step (s : Device Z) (a : DeviceAction) :
    (deviceStep J timegm sh table s a).nvs =
      Machine.run (nvsThreadsStep table) s.nvs (s.nvsActions timegm a) := by
  cases a with
  | request ptsJs payload =>
    simp only [deviceStep, request]
    split <;> rfl
  | post =>
    simp only [deviceStep, stepPost, nvsActions, published]
    split <;> rfl
  | publish p => rfl
  | webWaitMsg => rfl
  | webHandle => rfl
  | cacheWaitMsg =>
    simp only [deviceStep, cacheWaitMsg]
    cases s.report <;> rfl
  | cacheMerge =>
    simp only [deviceStep, cacheMerge]
    split <;> rfl
  | cacheReport =>
    simp only [deviceStep, cacheReport]
    rcases s.report with _ | (_ | _) <;> rfl
  | nvsInit =>
    simp only [deviceStep, nvsInit]
    cases s.nvs.pc <;> rfl
  | nvsAddObs => rfl
  | nvsWaitMsg => rfl
  | nvsHandle => rfl
  | command c =>
    simp only [deviceStep, command, nvsActions, published]
    cases s.dump with
    | some i => rfl
    | none =>
      cases c with
      | p argv =>
        dsimp only [ShellCommand.point]
        cases (handleSendpoint timegm argv).2 <;> rfl
      | siotDump => rfl
      | siotStream argv => rfl
      | siotStatus => rfl
  | dumpNext =>
    simp only [deviceStep, dumpNext]
    split
    · rfl
    · split
      · rfl
      · split <;> rfl

/-- A step publishes what it puts on `point_chan`. -/
theorem threads_published_step (s : Device Z) (a : DeviceAction) :
    (deviceStep J timegm sh table s a).threads.published =
      s.threads.published ++ s.published timegm a := by
  have hnone {b : WebAction} (hpost : b ≠ .post) (hpub : ∀ p, b ≠ .publish p) :
      (webThreadsStep s.threads b).published = s.threads.published := by
    cases b with
    | lock pts =>
      simp only [webThreadsStep, WebThreads.lock]
      split <;> rfl
    | post => exact (hpost rfl).elim
    | publish p => exact (hpub p rfl).elim
    | handle =>
      simp only [webThreadsStep, WebThreads.handle]
      split <;> rfl
    | _ => rfl
  have hpublish (t : WebThreads) (ps : List Point) :
      (Machine.run webThreadsStep t (ps.map .publish)).published = t.published ++ ps := by
    induction ps generalizing t with
    | nil => exact (List.append_nil _).symm
    | cons p ps ih => rw [List.map_cons, Machine.run_cons, ih, List.append_cons]; rfl
  rw [threads_step]
  cases a with
  | request ptsJs payload =>
    simp only [webActions, published, List.append_nil]
    cases decodedBody J ptsJs payload with
    | none => rfl
    | some pts => exact hnone (b := .lock pts) (by simp) (by simp)
  | post =>
    simp only [webActions, published, Machine.run_cons, Machine.run_nil, webThreadsStep,
      WebThreads.stepPost]
    rcases s.threads.post with _ | (⟨_ | ⟨p, pts⟩⟩ | ⟨p, pts⟩) <;>
      simp [WebThreads.zbusChanPub]
  | webHandle => simpa [webActions, published] using hnone (b := .handle) (by simp) (by simp)
  | webWaitMsg => simp [webActions, published, webThreadsStep]
  | cacheWaitMsg =>
    simp only [webActions, published]
    cases s.report <;> simp [webThreadsStep]
  | cacheMerge =>
    simp only [webActions, published]
    cases s.dump <;> cases s.threads.cache.held <;> simp [webThreadsStep]
  | _ => exact hpublish _ _

end Device

end ZephyrSiot
