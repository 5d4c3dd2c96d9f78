import ZephyrSiot.Theory.StoreLog
import ZephyrSiot.Verify.StoreRefines
import ZephyrSiot.WebThreads
import Mathlib.Data.List.Dedup

/-!
# The web points converge

A POST merges its points at once, and `web_thread` merges them again when it gets to their
messages, behind older messages of the same pairs. What `web_points` holds of a pair may be older
or newer than what was published last, but only while a message of the pair, or the merged point
of a POST, is still on its way (`StoreThread.Follows`). No interleaving of the steps of a POST, of
the other publishers and of the two threads ends that (`Following.step`).
-/

namespace ZephyrSiot
open CStr KeyedStore

/-- The slots in use that hold a pair. -/
def slotsOf (pts : List Point) (k : Bytes × Bytes) : List Point :=
  pts.filter fun q => q.Occupied ∧ q.pair = k

theorem Represents.slotsOf_eq {s : PairStore n} {pts : List Point} (h : Represents s pts)
    (k : Bytes × Bytes) : slotsOf pts k = (s.find? k).toList := by
  obtain ⟨rest, rfl, hrest⟩ := h.eq_append
  have hunused : rest.filter (fun q => q.Occupied ∧ q.pair = k) = [] := by
    rw [List.filter_eq_nil_iff]
    intro q hq hk
    exact hrest q hq (of_decide_eq_true hk).1
  have hused : s.vals.filter (fun q => q.Occupied ∧ q.pair = k) = s.vals.filter (·.pair = k) := by
    apply List.filter_congr
    intro q hq
    simp [(h.used q hq).1.1]
  rw [slotsOf, List.filter_append, hunused, List.append_nil, hused]
  exact s.filter_vals_eq k

theorem represents_start (n : Nat) : Represents (.empty Point.pair n) (.replicate n .zero) where
  length := List.length_replicate
  values := List.nil_prefix
  unused := by
    intro q hq
    rw [List.eq_of_mem_replicate (List.mem_of_mem_drop hq)]
    exact Point.not_occupied_zero
  used := by
    intro q hq
    cases hq

/-! ## One thread -/

namespace StoreThread

variable {t : StoreThread} {s : PairStore n} {p : Point} {ahead log : List Point}

/-- The thread is behind the log of what was published by its backlog, but for points that were
merged `ahead`. -/
structure Follows (t : StoreThread) (s : PairStore n) (ahead log : List Point) : Prop where
  represents : Represents s t.pts
  suffix : t.backlog <:+ log
  settles : Settles s (t.backlog ++ ahead) log

namespace Follows

theorem start (n : Nat) :
    Follows ⟨.replicate n .zero, [], none⟩ (.empty Point.pair n) [] [] where
  represents := represents_start n
  suffix := List.suffix_rfl
  settles := .empty

theorem receive (h : Follows t s ahead log) (p : Point) :
    Follows (t.receive p) s ahead (log ++ [p]) := by
  obtain ⟨done, hdone⟩ := h.suffix
  refine ⟨h.represents, ⟨done, ?_⟩, ?_⟩
  · rw [backlog_receive, ← List.append_assoc, hdone]
  · rw [backlog_receive]
    apply Settles.logged
    · apply h.settles.mono
      intro k hk
      simp only [List.map_append, List.mem_append] at hk ⊢
      exact hk.imp_left .inl
    · simp

theorem waitMsg (h : Follows t s ahead log) : Follows t.waitMsg s ahead log where
  represents := by
    rw [pts_waitMsg]
    exact h.represents
  suffix := by
    rw [backlog_waitMsg]
    exact h.suffix
  settles := by
    rw [backlog_waitMsg]
    exact h.settles

/-- A merge by someone else puts the point ahead of its message. -/
theorem merge (h : Follows t s [] log) (hp : p.Valid) :
    Follows { t with pts := (pointsMerge t.pts p).pts } ((s.put p.defaultKey).getD s)
      [p.defaultKey] log where
  represents := (represents_pointsMerge h.represents hp).2
  suffix := h.suffix
  settles := by
    have hahead := h.settles.put_ahead (v := p.defaultKey)
    rwa [List.append_nil] at hahead

/-- The message of the point that was ahead is now on its way. -/
theorem caught_up (h : Follows t s [p] log) (hp : p ∈ t.backlog) : Follows t s [] log where
  represents := h.represents
  suffix := h.suffix
  settles := by
    apply h.settles.mono
    intro k hk
    rw [List.append_nil]
    rw [List.map_append, List.mem_append, List.map_singleton, List.mem_singleton] at hk
    rcases hk with hk | rfl
    · exact hk
    · exact List.mem_map_of_mem hp

/-- The thread's own merge delivers the next point of the log. -/
theorem handle (h : Follows t s [] log) (hlog : ∀ p ∈ log, p.Valid ∧ p.key.str ≠ []) :
    ∃ s' : PairStore n, Follows (t.handle pointsMerge) s' [] log := by
  cases hheld : t.held with
  | none =>
    refine ⟨s, ?_⟩
    rw [StoreThread.handle, hheld]
    exact h
  | some p =>
    have hbacklog : t.backlog = p :: t.queue := by rw [backlog, hheld]; rfl
    obtain ⟨done, rfl⟩ := h.suffix
    obtain ⟨hp, hkey⟩ := hlog p (by simp [hbacklog])
    have hmerge := (represents_pointsMerge h.represents hp).2
    have hsettles := h.settles
    rw [hbacklog, List.append_nil] at hsettles
    have hdeliver := hsettles.deliver
    rw [Point.defaultKey_of_key_ne_nil hkey] at hmerge
    refine ⟨(s.put p).getD s, ?_⟩
    rw [StoreThread.handle, hheld, hbacklog]
    refine ⟨hmerge, ?_, ?_⟩
    · exact ⟨done ++ [p], by simp [backlog]⟩
    · rwa [List.append_nil]

end Follows

end StoreThread

/-! ## All threads -/

namespace WebThreads

variable {s : WebThreads} {p : Point}

/-- The point that a POST has merged and not published yet. -/
def ahead (s : WebThreads) : List Point :=
  match s.post with
  | some (.publish p _) => [p]
  | _ => []

/-- The points that a POST has not published yet. -/
def unpublished (s : WebThreads) : List Point :=
  match s.post with
  | some (.publish p pts) => p :: pts
  | some (.merge pts) => pts
  | none => []

/-- Both arrays follow what is published, and every point may be stored. -/
structure Following (cacheSize : Nat) (s : WebThreads) : Prop where
  web : ∃ w : PairStore 40, s.web.Follows w s.ahead s.published
  cache : ∃ c : PairStore cacheSize, s.cache.Follows c [] s.published
  points : ∀ p ∈ s.published ++ s.unpublished, p.Valid ∧ p.key.str ≠ []

namespace Following

theorem start (cacheSize : Nat) : Following cacheSize (.start cacheSize) where
  web := ⟨_, .start 40⟩
  cache := ⟨_, .start cacheSize⟩
  points := by
    intro p hp
    cases hp

theorem zbusChanPub (h : Following n s) (hp : p.Valid ∧ p.key.str ≠ []) :
    Following n (s.zbusChanPub p) := by
  obtain ⟨w, hw⟩ := h.web
  obtain ⟨c, hc⟩ := h.cache
  refine ⟨⟨w, hw.receive p⟩, ⟨c, hc.receive p⟩, ?_⟩
  intro q hq
  have hq' : q ∈ s.published ++ s.unpublished ∨ q = p := by
    change q ∈ s.published ++ [p] ++ s.unpublished at hq
    simp only [List.mem_append, List.mem_singleton] at hq ⊢
    tauto
  rcases hq' with hq' | rfl
  · exact h.points q hq'
  · exact hp

theorem lock (h : Following n s) {pts : List Point} (hpts : ∀ p ∈ pts, p.Valid ∧ p.key.str ≠ []) :
    Following n (s.lock pts) := by
  rw [WebThreads.lock]
  split
  · next hpost =>
    obtain ⟨w, hw⟩ := h.web
    rw [ahead, hpost] at hw
    refine ⟨⟨w, hw⟩, h.cache, ?_⟩
    intro q hq
    rcases List.mem_append.mp hq with hq | hq
    · exact h.points q (List.mem_append_left _ hq)
    · exact hpts q hq
  · exact h

theorem stepPost (h : Following n s) : Following n s.stepPost := by
  obtain ⟨w, hw⟩ := h.web
  have hpoints := h.points
  rw [ahead] at hw
  rw [unpublished] at hpoints
  rw [WebThreads.stepPost]
  split
  · next p pts hpost =>
    rw [hpost] at hw hpoints
    obtain ⟨hp, hkey⟩ := hpoints p (by simp)
    have hmerge := hw.merge hp
    rw [Point.defaultKey_of_key_ne_nil hkey] at hmerge
    dsimp only
    rw [pointsMerge_p, Point.defaultKey_of_key_ne_nil hkey]
    exact ⟨⟨_, hmerge⟩, h.cache, hpoints⟩
  · next p pts hpost =>
    rw [hpost] at hw hpoints
    obtain ⟨c, hc⟩ := h.cache
    have hqueued : p ∈ (s.web.receive p).backlog := by
      rw [StoreThread.backlog_receive]
      exact List.mem_append_right _ (List.mem_singleton_self p)
    refine ⟨⟨w, (hw.receive p).caught_up hqueued⟩, ⟨c, hc.receive p⟩, ?_⟩
    intro q hq
    apply hpoints
    rwa [List.append_cons]
  · next hpost =>
    rw [hpost] at hw hpoints
    exact ⟨⟨w, hw⟩, h.cache, hpoints⟩
  · exact h

theorem handle (h : Following n s) : Following n s.handle := by
  rw [WebThreads.handle]
  split
  · next hpost =>
    obtain ⟨w, hw⟩ := h.web
    rw [ahead, hpost] at hw
    obtain ⟨w', hw'⟩ := hw.handle fun p hp => h.points p (List.mem_append_left _ hp)
    refine ⟨⟨w', ?_⟩, h.cache, h.points⟩
    rw [ahead, hpost]
    exact hw'
  · exact h

theorem step (h : Following n s) {a : WebAction}
    (ha : ∀ p ∈ a.points, p.Valid ∧ p.key.str ≠ []) : Following n (webThreadsStep s a) := by
  obtain ⟨w, hw⟩ := h.web
  obtain ⟨c, hc⟩ := h.cache
  cases a with
  | lock pts => exact h.lock ha
  | post => exact h.stepPost
  | publish p => exact h.zbusChanPub (ha p (List.mem_singleton_self p))
  | waitMsg => exact ⟨⟨w, hw.waitMsg⟩, h.cache, h.points⟩
  | handle => exact h.handle
  | cacheWaitMsg => exact ⟨h.web, ⟨c, hc.waitMsg⟩, h.points⟩
  | cacheHandle =>
    have hmerged := hc.handle fun p hp => h.points p (List.mem_append_left _ hp)
    exact ⟨h.web, hmerged, h.points⟩

theorem run {actions : List WebAction}
    (hactions : ∀ a ∈ actions, ∀ p ∈ a.points, p.Valid ∧ p.key.str ≠ []) :
    Following n (Machine.run webThreadsStep (.start n) actions) :=
  Machine.run_invariant (fun _ _ ha h => h.step ha) (.start n) hactions

end Following

end WebThreads

/-! ## When nothing is on its way -/

/-- The number of different type and key pairs. -/
def countPairs (pts : List Point) : Nat := (pts.map Point.pair).dedup.length

namespace StoreThread.Follows

variable {t : StoreThread} {s : PairStore n} {log : List Point}

theorem settled (h : Follows t s [] log) (hdrained : t.Drained) : Settles s [] log := by
  have hsettles := h.settles
  rwa [backlog_of_drained hdrained] at hsettles

theorem slotsOf_eq (h : Follows t s [] log) (hdrained : t.Drained) (hroom : countPairs log ≤ n)
    (k : Bytes × Bytes) : slotsOf t.pts k = (latest Point.pair log k).toList := by
  have hlisted : ∀ p ∈ log, p.pair ∈ (log.map Point.pair).dedup := fun p hp =>
    List.mem_dedup.mpr (List.mem_map_of_mem hp)
  rw [h.represents.slotsOf_eq, (h.settled hdrained).find?_eq hlisted hroom]

theorem latest_of_mem (h : Follows t s [] log) (hdrained : t.Drained) {q : Point} (hq : q ∈ t.pts)
    (hocc : q.Occupied) : latest Point.pair log q.pair = some q :=
  (h.settled hdrained).find?_of_mem (h.represents.mem_vals hq hocc)

end StoreThread.Follows

namespace WebThreads

/-- What the two arrays hold of the points published so far. -/
structure Converged (s : WebThreads) : Prop where
  /-- `web_points` has the point published last of each pair published, in one slot, and no
  other. -/
  web : ∀ k, slotsOf s.web.pts k = (latest Point.pair s.published k).toList
  /-- Whatever is in the cache once its thread is done is the same point. -/
  cached : s.cache.Drained → ∀ q ∈ s.cache.pts, q.Occupied → slotsOf s.web.pts q.pair = [q]
  /-- A cache with room for all pairs has them all. -/
  cache : s.cache.Drained → countPairs s.published ≤ s.cache.pts.length →
    ∀ k, slotsOf s.cache.pts k = slotsOf s.web.pts k

end WebThreads

open WebThreads in
/-- In every state that any interleaving leads to, with at most 40 pairs published, no POST in
progress and every message of `web_thread` handled, `web_points` has converged. -/
theorem webPoints_converge (cacheSize : Nat) {actions : List WebAction}
    (hactions : ∀ a ∈ actions, ∀ p ∈ a.points, p.Valid ∧ p.key.str ≠ []) {s : WebThreads}
    (hs : s = Machine.run webThreadsStep (.start cacheSize) actions)
    (hpairs : countPairs s.published ≤ 40) (hpost : s.post = none) (hweb : s.web.Drained) :
    s.Converged := by
  have h : Following cacheSize s := hs ▸ .run hactions
  obtain ⟨w, hw⟩ := h.web
  obtain ⟨c, hc⟩ := h.cache
  rw [ahead, hpost] at hw
  have hlatest := hw.slotsOf_eq hweb hpairs
  refine ⟨hlatest, ?_, ?_⟩
  · intro hcache q hq hocc
    rw [hlatest, hc.latest_of_mem hcache hq hocc]
    rfl
  · intro hcache hroom k
    rw [hc.represents.length] at hroom
    rw [hlatest, hc.slotsOf_eq hcache hroom]

/-- A POST overtakes an older message of its pair, which the web thread merges behind it. -/
def overtaken : List WebAction :=
  let temp := Point.zero.setTypeKey (lit "temp") (lit "0")
  [.publish (temp.putInt 20), .publish (temp.putInt 21), .waitMsg,
    .lock [temp.putInt 22, (Point.zero.setTypeKey (lit "mode") (lit "0")).putString (lit "auto")],
    .post, .handle, .post, .post, .post, .publish (temp.putInt 23), .post, .handle, .waitMsg, .handle,
    .cacheWaitMsg, .cacheHandle, .waitMsg, .handle, .waitMsg, .handle, .waitMsg, .handle,
    .cacheWaitMsg, .cacheHandle, .cacheWaitMsg, .cacheHandle, .cacheWaitMsg, .cacheHandle,
    .cacheWaitMsg, .cacheHandle]

theorem webPoints_converge_overtaken :
    (Machine.run webThreadsStep (.start 40) overtaken).Converged :=
  webPoints_converge 40 (by decide : ∀ a ∈ overtaken, ∀ p ∈ a.points, p.Valid ∧ p.key.str ≠ []) rfl
    (by decide +kernel) (by decide +kernel) ⟨by decide +kernel, by decide +kernel⟩

end ZephyrSiot
