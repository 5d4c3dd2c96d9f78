import ZephyrSiot.PointCache
import ZephyrSiot.Web

/-!
# The threads around `web_points`

The POSTs and `web_thread` of `apps/siot-net/src/web.c` and the thread of `lib/point-cache.c`,
side by side. A POST holds `web_points_lock` from before its first merge until it has published
its last point, `web_thread` for one merge. The cache thread shares nothing with them but the
channel: its lock is `cache_lock`.

zbus is in the model as far as the files rely on it: publishes are serialized and succeed, and a
published point is appended to the queue of each subscriber.
-/

namespace ZephyrSiot

/-- A thread that merges the messages of its subscriber into an array. -/
structure StoreThread where
  pts : List Point
  queue : List Point
  /-- The message that the thread has taken from the queue and not merged yet. -/
  held : Option Point
  deriving DecidableEq

/-- Where a POST stands that has taken the lock. -/
inductive PostPc where
  /-- At the head of the loop, with the points that are left. -/
  | merge (pts : List Point)
  | publish (p : Point) (pts : List Point)
  deriving DecidableEq

structure WebThreads where
  web : StoreThread
  cache : StoreThread
  /-- The POST that holds `web_points_lock`. -/
  post : Option PostPc
  /-- The points published on `point_chan`, in order. -/
  published : List Point
  deriving DecidableEq

inductive WebAction where
  /-- A POST has decoded these points and takes the lock. -/
  | lock (pts : List Point)
  | post
  /-- Another thread publishes a point. -/
  | publish (p : Point)
  | waitMsg
  | handle
  | cacheWaitMsg
  | cacheHandle

/-- The points that come in with an action. -/
def WebAction.points : WebAction → List Point
  | .lock pts => pts
  | .publish p => [p]
  | _ => []

namespace StoreThread

def receive (t : StoreThread) (p : Point) : StoreThread := { t with queue := t.queue ++ [p] }

/-- `zbus_sub_wait_msg`, which waits while the queue is empty. -/
def waitMsg (t : StoreThread) : StoreThread :=
  match t.held, t.queue with
  | none, p :: queue => { t with queue, held := some p }
  | _, _ => t

/-- The body of the loop, which merges the message and drops it whatever comes of it. -/
def handle (merge : List Point → Point → MergeResult) (t : StoreThread) : StoreThread :=
  match t.held with
  | some p => { t with pts := (merge t.pts p).pts, held := none }
  | none => t

/-- The messages that are still to be merged. -/
def backlog (t : StoreThread) : List Point := t.held.toList ++ t.queue

/-- Every message has been handled. -/
def Drained (t : StoreThread) : Prop := t.held = none ∧ t.queue = []

end StoreThread

namespace WebThreads

/-- The static initializers. The cache has `CONFIG_SIOT_POINT_CACHE_SIZE` slots. -/
def start (cacheSize : Nat) : WebThreads :=
  ⟨⟨.replicate 40 .zero, [], none⟩, ⟨.replicate cacheSize .zero, [], none⟩, none, []⟩

def zbusChanPub (s : WebThreads) (p : Point) : WebThreads :=
  { s with
    web := s.web.receive p
    cache := s.cache.receive p
    published := s.published ++ [p] }

def lock (s : WebThreads) (pts : List Point) : WebThreads :=
  match s.post with
  | none => { s with post := some (.merge pts) }
  | some _ => s

/-- A step of the POST that holds the lock. A merge leaves the point as it is then published. -/
def stepPost (s : WebThreads) : WebThreads :=
  match s.post with
  | some (.merge (p :: pts)) =>
    let r := pointsMerge s.web.pts p
    { s with web := { s.web with pts := r.pts }, post := some (.publish r.p pts) }
  | some (.publish p pts) => { s with post := some (.merge pts) }.zbusChanPub p
  | some (.merge []) => { s with post := none }
  | none => s

/-- `web_thread` waits while a POST holds the lock. -/
def handle (s : WebThreads) : WebThreads :=
  match s.post with
  | none => { s with web := s.web.handle pointsMerge }
  | some _ => s

end WebThreads

def webThreadsStep (s : WebThreads) : WebAction → WebThreads
  | .lock pts => s.lock pts
  | .post => s.stepPost
  | .publish p => s.zbusChanPub p
  | .waitMsg => { s with web := s.web.waitMsg }
  | .handle => s.handle
  | .cacheWaitMsg => { s with cache := s.cache.waitMsg }
  | .cacheHandle => { s with cache := s.cache.handle pointCacheMerge }

namespace StoreThread

/-- Everything that waiting for a message can do: nothing, or take the next one. -/
theorem waitMsg_cases (t : StoreThread) :
    t.waitMsg = t ∨ ∃ p queue, t.held = none ∧ t.queue = p :: queue ∧
      t.waitMsg = { t with queue, held := some p } := by
  rw [waitMsg]
  split
  · next p queue hheld hqueue => exact .inr ⟨p, queue, hheld, hqueue, rfl⟩
  · exact .inl rfl

theorem backlog_receive (t : StoreThread) (p : Point) :
    (t.receive p).backlog = t.backlog ++ [p] := (List.append_assoc ..).symm

theorem backlog_waitMsg (t : StoreThread) : t.waitMsg.backlog = t.backlog := by
  rcases t.waitMsg_cases with h | ⟨p, queue, hheld, hqueue, h⟩
  · rw [h]
  · rw [h, backlog, backlog, hheld, hqueue]
    rfl

theorem pts_waitMsg (t : StoreThread) : t.waitMsg.pts = t.pts := by
  rcases t.waitMsg_cases with h | ⟨p, queue, -, -, h⟩ <;> rw [h]

theorem backlog_of_drained {t : StoreThread} (h : t.Drained) : t.backlog = [] := by
  rw [backlog, h.1, h.2]
  rfl

end StoreThread

namespace WebThreads

/-! ## A POST in one go -/

/-- The steps of a POST that has `n` points left, and the release of the lock. -/
theorem run_stepPost (s : WebThreads) (pts : List Point) (h : s.post = some (.merge pts)) :
    Machine.run webThreadsStep s (.replicate (2 * pts.length + 1) .post) =
      let (_, webPoints, published) := v1Handler.mergeLoop s.web.pts pts
      { web := { s.web with pts := webPoints, queue := s.web.queue ++ published }
        cache := { s.cache with queue := s.cache.queue ++ published }
        post := none
        published := s.published ++ published } := by
  induction pts generalizing s with
  | nil =>
    simp [webThreadsStep, stepPost, h, v1Handler.mergeLoop]
  | cons p pts ih =>
    let r := pointsMerge s.web.pts p
    let s' : WebThreads :=
      { web := { s.web with pts := r.pts, queue := s.web.queue ++ [r.p] }
        cache := { s.cache with queue := s.cache.queue ++ [r.p] }
        post := some (.merge pts)
        published := s.published ++ [r.p] }
    have hstep : Machine.run webThreadsStep s [.post, .post] = s' := by
      simp only [Machine.run_cons, Machine.run_nil, webThreadsStep, stepPost, h]
      rfl
    have hcount : 2 * (p :: pts).length + 1 = 2 + (2 * pts.length + 1) := by
      rw [List.length_cons]
      omega
    rw [hcount, List.replicate_add, Machine.run_append]
    change Machine.run _ (Machine.run webThreadsStep s [.post, .post]) _ = _
    rw [hstep, ih s' rfl]
    simp [s', r, v1Handler.mergeLoop]

/-- Left alone, a POST does what the loop of the handler does. -/
theorem run_post (s : WebThreads) (h : s.post = none) (pts : List Point) :
    Machine.run webThreadsStep s (.lock pts :: .replicate (2 * pts.length + 1) .post) =
      let (_, webPoints, published) := v1Handler.mergeLoop s.web.pts pts
      { web := { s.web with pts := webPoints, queue := s.web.queue ++ published }
        cache := { s.cache with queue := s.cache.queue ++ published }
        post := none
        published := s.published ++ published } := by
  have hlock : webThreadsStep s (.lock pts) = { s with post := some (.merge pts) } := by
    rw [webThreadsStep, lock, h]
  rw [Machine.run_cons, hlock]
  exact run_stepPost _ pts rfl

end WebThreads

end ZephyrSiot
