import ZephyrSiot.CloudWorld

/-!
# The main loop of the cellular node

`apps/siot-nrf/src/main.c`. The main thread sets up the modem and then publishes once for each time
that it takes `thread_sem`. The semaphore is given by the timer, by the command `publish` and once
by the main thread itself. The handler of the timer and the shell run between any two calls of the
main thread.
-/

namespace ZephyrSiot
open CStr Calls CloudCall

/-- `main` up to its loop: the error that it returns, or 0. -/
def mainInit (cfg : CloudConfig) : CloudProgram Int := do
  let err ← perform nrfModemLibInit
  if err < 0 then return err
  let err ← cloudInit cfg true
  if err < 0 then return err
  perform (lteLcPsmReq true)
  let err ← perform lteLcConnect
  if err < 0 then return err
  perform kTimerStart
  -- "Allow for instant publish"
  perform kSemGive
  return 0

inductive MainPc where
  | init (rest : CloudProgram Int)
  /-- At `k_sem_take`. -/
  | take
  | publish (rest : CloudProgram Int)
  | returned (err : Int)

structure CloudNode where
  main : MainPc
  world : CloudWorld

inductive CloudEvent where
  /-- `thread_sem` is given. -/
  | requested
  /-- `thread_sem` is taken. -/
  | started
  /-- Any other step of the main thread. -/
  | other
  deriving DecidableEq

/-- What a call of the main thread shows. -/
def CloudCall.event {β : Type} : CloudCall β → CloudEvent
  | kSemGive => .requested
  | _ => .other

namespace CloudNode

/-- After a reset. -/
def start (cfg : CloudConfig) (caChain : Nat → Option Bytes) : CloudNode :=
  ⟨.init (mainInit cfg), .start caChain⟩

/-- The steps of the main thread. -/
inductive MainStep (cfg : CloudConfig) : CloudNode → CloudEvent → CloudNode → Prop where
  | initCall {w : CloudWorld} {β : Type} {c : CloudCall β} {next : β → CloudProgram Int}
    {r : β} (h : w.Possible c r) :
    MainStep cfg ⟨.init (.call c next), w⟩ c.event ⟨.init (next r), w.after c r⟩
  | initReturn {w : CloudWorld} {err : Int} (h : err < 0) :
    MainStep cfg ⟨.init (.pure err), w⟩ .other ⟨.returned err, w⟩
  | loop {w : CloudWorld} {err : Int} (h : ¬ err < 0) :
    MainStep cfg ⟨.init (.pure err), w⟩ .other ⟨.take, w⟩
  | take {w : CloudWorld} (h : w.threadSem ≠ 0) :
    MainStep cfg ⟨.take, w⟩ .started
      ⟨.publish (cloudPublish cfg ⟨true⟩), { w with threadSem := w.threadSem - 1 }⟩
  | publishCall {w : CloudWorld} {β : Type} {c : CloudCall β} {next : β → CloudProgram Int}
    {r : β} (h : w.Possible c r) :
    MainStep cfg ⟨.publish (.call c next), w⟩ c.event ⟨.publish (next r), w.after c r⟩
  /-- An error is only logged. -/
  | publishReturn {w : CloudWorld} {err : Int} :
    MainStep cfg ⟨.publish (.pure err), w⟩ .other ⟨.take, w⟩

inductive Step (cfg : CloudConfig) : CloudNode → CloudEvent → CloudNode → Prop where
  | main {n n' : CloudNode} {e : CloudEvent} (h : MainStep cfg n e n') : Step cfg n e n'
  /-- `timeout_handler`. -/
  | timeout {n : CloudNode} (h : n.world.timer = true) :
    Step cfg n .requested { n with world := n.world.give }
  /-- `cmd_publish`. -/
  | cmdPublish {n : CloudNode} : Step cfg n .requested { n with world := n.world.give }

/-- A run from a reset, with what it shows. -/
inductive Run (cfg : CloudConfig) (caChain : Nat → Option Bytes) :
    List CloudEvent → CloudNode → Prop where
  | start : Run cfg caChain [] (start cfg caChain)
  | step {es : List CloudEvent} {n n' : CloudNode} {e : CloudEvent} (h : Run cfg caChain es n)
    (hs : Step cfg n e n') : Run cfg caChain (es ++ [e]) n'

/-- An endless run in which the main thread goes on whenever it can: every call returns, and
`k_sem_take` does once the semaphore is given. -/
structure FairRun (cfg : CloudConfig) (caChain : Nat → Option Bytes) (ns : Nat → CloudNode)
    (es : Nat → CloudEvent) : Prop where
  start : ns 0 = start cfg caChain
  step (i : Nat) : Step cfg (ns i) (es i) (ns (i + 1))
  fair (i : Nat) : (∃ e n', MainStep cfg (ns i) e n') →
    ∃ j, i ≤ j ∧ MainStep cfg (ns j) (es j) (ns (j + 1))

end CloudNode

end ZephyrSiot
