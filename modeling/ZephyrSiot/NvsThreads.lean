import ZephyrSiot.Nvs
import ZephyrSiot.Theory.Machine

/-!
# The two threads of `lib/nvs.c`

`nvs_init` runs on the main thread while `nvs_store_thread` is already up. `NvsThreads` is the
state both see, and `nvsThreadsStep` a step of one of them, or a point that some other thread
publishes. zbus is in the model as far as the file relies on it: a published point is appended to
the subscriber's queue once the observer has been added.
-/

namespace ZephyrSiot

/-- Where `nvs_init` stands, once the file system is mounted. -/
inductive NvsInitPc where
  /-- At the head of the loop, with the entries that are left. -/
  | read (rest : List NvsPoint)
  | increment (npt : NvsPoint) (rest : List NvsPoint)
  | publish (npt : NvsPoint) (rest : List NvsPoint)
  | setPts
  | setCount
  | done

structure NvsThreads (Z : Zms) where
  fs : Z.State
  pc : NvsInitPc
  locals : NvsLocals
  nvsPts : List NvsPoint
  nvsPtsCount : Nat
  /-- `nvs_store_thread` has added `state_sub` to the observers of `point_chan`. -/
  observing : Bool
  queue : List Point
  /-- The message that `nvs_store_thread` has taken from the queue and not handled yet. -/
  held : Option Point
  /-- The descriptions of points for the log. -/
  dumps : List LogDump

inductive NvsAction where
  | init
  | addObs
  | waitMsg
  | handle
  /-- Another thread publishes a point. -/
  | publish (p : Point)

namespace NvsThreads
variable {Z : Zms}

/-- Both threads at their start. -/
def start (table : List NvsPoint) (fs : Z.State) (w : NvsLocals) : NvsThreads Z :=
  ⟨fs, .read table, w, [], 0, false, [], none, []⟩

def zbusChanPub (s : NvsThreads Z) (p : Point) : NvsThreads Z :=
  if s.observing then { s with queue := s.queue ++ [p] } else s

@[simp] theorem zbusChanPub_pc (s : NvsThreads Z) (p : Point) : (s.zbusChanPub p).pc = s.pc := by
  rw [zbusChanPub]
  split <;> rfl

@[simp] theorem zbusChanPub_fs (s : NvsThreads Z) (p : Point) : (s.zbusChanPub p).fs = s.fs := by
  rw [zbusChanPub]
  split <;> rfl

/-- One step of `nvs_init(table, len)`. -/
def init (table : List NvsPoint) (s : NvsThreads Z) : NvsThreads Z :=
  match s.pc with
  | .read [] => { s with pc := .setPts }
  | .read (npt :: rest) =>
    match nvsInit.read Z npt s.fs s.locals with
    -- "Unknown point data type"
    | none => { s with pc := .read rest }
    | some (fs, w) => { s with fs, locals := w, pc := .increment npt rest }
  | .increment npt rest =>
    { s with fs := nvsInit.increment Z npt s.fs s.locals, pc := .publish npt rest }
  | .publish npt rest =>
    let p := nvsInit.message npt s.locals
    { s with locals := { s.locals with p }, pc := .read rest }.zbusChanPub p
  | .setPts => { s with nvsPts := table, pc := .setCount }
  | .setCount => { s with nvsPtsCount := table.length, pc := .done }
  | .done => s

/-- The entries that `nvs_store_handle_point` searches. -/
def searched (s : NvsThreads Z) : List NvsPoint := s.nvsPts.take s.nvsPtsCount

def addObs (s : NvsThreads Z) : NvsThreads Z := { s with observing := true }

/-- `zbus_sub_wait_msg`, which waits while the queue is empty. -/
def waitMsg (s : NvsThreads Z) : NvsThreads Z :=
  match s.held, s.queue with
  | none, p :: queue => { s with queue, held := some p }
  | _, _ => s

def handle (s : NvsThreads Z) : NvsThreads Z :=
  match s.held with
  | some p =>
    let r := nvsStoreHandlePoint Z ⟨s.fs, s.searched, s.dumps⟩ p
    { s with fs := r.fs, dumps := r.dumps, held := none }
  | none => s

end NvsThreads

open NvsThreads in
def nvsThreadsStep {Z : Zms} (table : List NvsPoint) (s : NvsThreads Z) :
    NvsAction → NvsThreads Z
  | .init => s.init table
  | .addObs => s.addObs
  | .waitMsg => s.waitMsg
  | .handle => s.handle
  | .publish p => s.zbusChanPub p

namespace NvsThreads
variable {Z : Zms} {table : List NvsPoint}

theorem zbusChanPub_eq (s : NvsThreads Z) (p : Point) :
    s.zbusChanPub p = { s with queue := s.queue ++ if s.observing then [p] else [] } := by
  rw [zbusChanPub]
  split <;> simp

/-- Only `nvs_init` itself moves on `nvs_init` and sets the static variables. -/
theorem nvsThreadsStep_frame (table : List NvsPoint) (s : NvsThreads Z) {a : NvsAction}
    (h : a ≠ .init) :
    (nvsThreadsStep table s a).pc = s.pc ∧ (nvsThreadsStep table s a).locals = s.locals ∧
      (nvsThreadsStep table s a).nvsPts = s.nvsPts ∧
        (nvsThreadsStep table s a).nvsPtsCount = s.nvsPtsCount := by
  cases a with
  | init => exact (h rfl).elim
  | addObs => exact ⟨rfl, rfl, rfl, rfl⟩
  | waitMsg =>
    simp only [nvsThreadsStep, waitMsg]
    split <;> exact ⟨rfl, rfl, rfl, rfl⟩
  | handle =>
    simp only [nvsThreadsStep, handle]
    split <;> exact ⟨rfl, rfl, rfl, rfl⟩
  | publish p =>
    simp only [nvsThreadsStep, zbusChanPub]
    split <;> exact ⟨rfl, rfl, rfl, rfl⟩

/-- Left alone, `nvs_init` does to the flash what the loop does, and publishes the same points. -/
theorem run_init (rest : List NvsPoint) (s : NvsThreads Z) (hpc : s.pc = .read rest) :
    ∃ n w, Machine.run (nvsThreadsStep table) s (List.replicate n .init) =
      { s with
        fs := (nvsInit.loop Z rest s.fs s.locals).1
        pc := .done
        locals := w
        nvsPts := table
        nvsPtsCount := table.length
        queue := s.queue ++ if s.observing then (nvsInit.loop Z rest s.fs s.locals).2 else [] } := by
  induction rest generalizing s with
  | nil =>
    refine ⟨3, s.locals, ?_⟩
    simp [List.replicate, nvsThreadsStep, init, hpc, nvsInit.loop]
  | cons npt rest ih =>
    cases hread : nvsInit.read Z npt s.fs s.locals with
    | none =>
      obtain ⟨n, w, hrun⟩ := ih { s with pc := .read rest } rfl
      refine ⟨n + 1, w, ?_⟩
      have hstep : nvsThreadsStep table s .init = { s with pc := .read rest } := by
        simp only [nvsThreadsStep, init, hpc, hread]
      rw [List.replicate_succ, Machine.run_cons, hstep, hrun]
      simp only [nvsInit.loop, hread]
    | some r =>
      obtain ⟨fs, w'⟩ := r
      let p := nvsInit.message npt w'
      let s' : NvsThreads Z :=
        { s with
          fs := nvsInit.increment Z npt fs w'
          locals := { w' with p }
          pc := .read rest
          queue := s.queue ++ if s.observing then [p] else [] }
      have hstep : Machine.run (nvsThreadsStep table) s [.init, .init, .init] = s' := by
        simp only [Machine.run_cons, Machine.run_nil, nvsThreadsStep, init, hpc, hread,
          zbusChanPub_eq]
        rfl
      obtain ⟨n, w, hrun⟩ := ih s' rfl
      refine ⟨3 + n, w, ?_⟩
      rw [List.replicate_add, Machine.run_append]
      change Machine.run _ (Machine.run (nvsThreadsStep table) s [.init, .init, .init]) _ = _
      rw [hstep, hrun]
      simp only [nvsInit.loop, hread, s']
      split <;> simp [p]

end NvsThreads

end ZephyrSiot
