import ZephyrSiot.Verify.Convergence
import ZephyrSiot.Verify.DeviceDumps
import ZephyrSiot.Verify.NvsRestore

/-!
# The stores of the device

The publishers of the firmware leave keys blank, and the stores take a blank key for "0". A run of
the threads around the stores is the run of the same points with their keys filled in
(`WebThreads.keyed_step`), so both stores converge whatever the keys, and for every interleaving of
all threads of the device (`device_converges`).
-/

namespace ZephyrSiot
open CStr KeyedStore

/-! ## Blank keys -/

theorem Point.defaultKey_defaultKey (p : Point) : p.defaultKey.defaultKey = p.defaultKey :=
  Point.defaultKey_of_key_ne_nil Point.defaultKey_key_str_ne_nil

/-- A merge fills in the key first. -/
theorem pointsMerge_defaultKey (pts : List Point) (p : Point) :
    pointsMerge pts p.defaultKey = pointsMerge pts p := by
  unfold pointsMerge
  rw [Point.defaultKey_defaultKey]

namespace StoreThread

def keyed (t : StoreThread) : StoreThread :=
  ⟨t.pts, t.queue.map Point.defaultKey, t.held.map Point.defaultKey⟩

theorem keyed_receive (t : StoreThread) (p : Point) :
    (t.receive p).keyed = t.keyed.receive p.defaultKey := by
  simp [keyed, receive]

theorem keyed_waitMsg (t : StoreThread) : t.waitMsg.keyed = t.keyed.waitMsg := by
  obtain ⟨pts, queue, held⟩ := t
  cases held <;> cases queue <;> rfl

theorem keyed_handle (t : StoreThread) :
    (t.handle pointsMerge).keyed = t.keyed.handle pointsMerge := by
  obtain ⟨pts, queue, held⟩ := t
  cases held with
  | none => rfl
  | some p => simp [handle, keyed, pointsMerge_defaultKey]

theorem backlog_keyed (t : StoreThread) : t.keyed.backlog = t.backlog.map Point.defaultKey := by
  obtain ⟨pts, queue, held⟩ := t
  cases held <;> rfl

theorem drained_keyed {t : StoreThread} (h : t.Drained) : t.keyed.Drained := by
  obtain ⟨hheld, hqueue⟩ := h
  simp [Drained, keyed, hheld, hqueue]

end StoreThread

def PostPc.keyed : PostPc → PostPc
  | .merge pts => .merge (pts.map Point.defaultKey)
  | .publish p pts => .publish p.defaultKey (pts.map Point.defaultKey)

def WebAction.keyed : WebAction → WebAction
  | .lock pts => .lock (pts.map Point.defaultKey)
  | .publish p => .publish p.defaultKey
  | a => a

namespace WebThreads

/-- The threads, with the keys of all points on their way filled in. -/
def keyed (s : WebThreads) : WebThreads :=
  ⟨s.web.keyed, s.cache.keyed, s.post.map PostPc.keyed, s.published.map Point.defaultKey⟩

theorem keyed_zbusChanPub (s : WebThreads) (p : Point) :
    (s.zbusChanPub p).keyed = s.keyed.zbusChanPub p.defaultKey := by
  simp [keyed, zbusChanPub, StoreThread.keyed_receive]

/-- **Filling in the keys** goes through every step. -/
theorem keyed_step (s : WebThreads) (a : WebAction) :
    (webThreadsStep s a).keyed = webThreadsStep s.keyed a.keyed := by
  cases a with
  | lock pts =>
    obtain ⟨web, cache, post, published⟩ := s
    cases post <;> rfl
  | post =>
    obtain ⟨web, cache, post, published⟩ := s
    rcases post with _ | (⟨_ | ⟨p, pts⟩⟩ | ⟨p, pts⟩)
    · rfl
    · rfl
    · simp [webThreadsStep, stepPost, keyed, StoreThread.keyed, PostPc.keyed, WebAction.keyed,
        pointsMerge_defaultKey, pointsMerge_p, Point.defaultKey_defaultKey]
    · exact keyed_zbusChanPub ..
  | publish p => exact keyed_zbusChanPub s p
  | waitMsg => simp [webThreadsStep, keyed, WebAction.keyed, StoreThread.keyed_waitMsg]
  | handle =>
    obtain ⟨web, cache, post, published⟩ := s
    cases post with
    | none => simp [webThreadsStep, handle, keyed, WebAction.keyed, StoreThread.keyed_handle]
    | some pc => rfl
  | cacheWaitMsg => simp [webThreadsStep, keyed, WebAction.keyed, StoreThread.keyed_waitMsg]
  | cacheHandle =>
    simp only [webThreadsStep, keyed, WebAction.keyed]
    rw [show pointCacheMerge = pointsMerge from rfl, StoreThread.keyed_handle]

theorem keyed_run (s : WebThreads) (actions : List WebAction) :
    (Machine.run webThreadsStep s actions).keyed =
      Machine.run webThreadsStep s.keyed (actions.map WebAction.keyed) := by
  induction actions generalizing s with
  | nil => rfl
  | cons a as ih => rw [Machine.run_cons, ih, keyed_step, List.map_cons, Machine.run_cons]

theorem forall_points_keyed {P : Point → Prop} {actions : List WebAction}
    (h : ∀ a ∈ actions, ∀ p ∈ a.points, P p.defaultKey) :
    ∀ a ∈ actions.map WebAction.keyed, ∀ p ∈ a.points, P p := by
  intro a ha p hp
  obtain ⟨b, hb, rfl⟩ := List.mem_map.mp ha
  obtain ⟨q, hq, rfl⟩ : ∃ q ∈ b.points, q.defaultKey = p := by
    cases b <;> simp_all [WebAction.keyed, WebAction.points]
  exact h b hb q hq

/-- Every run of typed points of valid data type is followed by both stores, with the keys filled
in. -/
theorem following_keyed (cacheSize : Nat) {actions : List WebAction}
    (hactions : ∀ a ∈ actions, ∀ p ∈ a.points, p.Valid) :
    Following cacheSize (Machine.run webThreadsStep (.start cacheSize) actions).keyed := by
  rw [keyed_run]
  exact .run (forall_points_keyed fun a ha p hp =>
    ⟨(hactions a ha p hp).defaultKey, Point.defaultKey_key_str_ne_nil⟩)

end WebThreads

/-! ## What `nvs_init` publishes -/

/-- The point of an entry has the data type of the entry, and no time unless it had one before. -/
theorem nvsInit.read_p {Z : Zms} {npt : NvsPoint} {fs : Z.State} {w : NvsLocals}
    {r : Z.State × NvsLocals} (h : nvsInit.read Z npt fs w = some r) :
    ¬ InvalidDataType r.2.p.dataType ∧ r.2.p.time = w.p.time := by
  unfold nvsInit.read at h
  generalize nvsInit.readWord Z fs npt.nvsId.toNat = word at h
  generalize nvsInit.readString Z fs npt.nvsId.toNat w.stringBuf = string at h
  split at h
  · obtain rfl := Option.some.inj h
    exact ⟨(by decide : ¬ InvalidDataType pointDataTypeFloat), rfl⟩
  split at h
  · obtain rfl := Option.some.inj h
    exact ⟨(by decide : ¬ InvalidDataType pointDataTypeInt), rfl⟩
  split at h
  · obtain rfl := Option.some.inj h
    exact ⟨(by decide : ¬ InvalidDataType pointDataTypeString), rfl⟩
  · cases h

namespace NvsThreads
variable {Z : Zms} {table : List NvsPoint} {s : NvsThreads Z}

/-- The entries that `nvs_init` is not done with. -/
def unpublished (s : NvsThreads Z) : List NvsPoint :=
  match s.pc with
  | .read rest => rest
  | .increment npt rest | .publish npt rest => npt :: rest
  | _ => []

/-- The point that `nvs_init` is about to publish has been read. -/
def Typed (s : NvsThreads Z) : Prop :=
  match s.pc with
  | .increment .. | .publish .. => ¬ InvalidDataType s.locals.p.dataType
  | _ => True

/-- The point of `nvs_init` is typed, without time, and one of an entry. -/
structure Publishes (table : List NvsPoint) (s : NvsThreads Z) : Prop where
  entries : s.unpublished ⊆ table
  typed : s.Typed
  time : s.locals.p.time = 0

namespace Publishes

theorem start (table : List NvsPoint) (fs : Z.State) (uint32Buf : UInt32)
    (stringBuf : CharArray 20) :
    Publishes table (.start table fs (.init uint32Buf stringBuf) : NvsThreads Z) :=
  ⟨List.Subset.refl _, trivial, rfl⟩

theorem zbusChanPub (h : Publishes table s) (p : Point) : Publishes table (s.zbusChanPub p) := by
  rw [zbusChanPub_eq]
  exact ⟨h.entries, h.typed, h.time⟩

theorem init (h : Publishes table s) : Publishes table (s.init table) := by
  obtain ⟨hentries, htyped, htime⟩ := h
  unfold unpublished at hentries
  unfold Typed at htyped
  unfold NvsThreads.init
  cases hpc : s.pc with rw [hpc] at hentries htyped
  | read rest =>
    cases rest with
    | nil => exact ⟨List.nil_subset _, trivial, htime⟩
    | cons npt rest =>
      dsimp only
      split
      · exact ⟨List.Subset.trans (List.subset_cons_self npt rest) hentries, trivial, htime⟩
      · next hread =>
        obtain ⟨hvalid, htime'⟩ := nvsInit.read_p hread
        exact ⟨hentries, hvalid, htime'.trans htime⟩
  | increment npt rest => exact ⟨hentries, htyped, htime⟩
  | publish npt rest =>
    have hread : Publishes table
        { s with
          locals := { s.locals with p := nvsInit.message npt s.locals }
          pc := .read rest } :=
      ⟨List.Subset.trans (List.subset_cons_self npt rest) hentries, trivial, htime⟩
    exact hread.zbusChanPub _
  | setPts => exact ⟨List.nil_subset _, trivial, htime⟩
  | setCount => exact ⟨List.nil_subset _, trivial, htime⟩
  | done =>
    refine ⟨?_, ?_, htime⟩
    · rw [unpublished, hpc]
      exact List.nil_subset _
    · rw [Typed, hpc]
      trivial

theorem step (h : Publishes table s) (a : NvsAction) :
    Publishes table (nvsThreadsStep table s a) := by
  rcases eq_or_ne a .init with rfl | ha
  · exact h.init
  · obtain ⟨hpc, hlocals, -, -⟩ := nvsThreadsStep_frame table s ha
    obtain ⟨hentries, htyped, htime⟩ := h
    unfold unpublished at hentries
    unfold Typed at htyped
    refine ⟨?_, ?_, ?_⟩
    · rwa [unpublished, hpc]
    · rwa [Typed, hpc, hlocals]
    · rwa [hlocals]

end Publishes

theorem Publishes.message (h : Publishes table s) {npt : NvsPoint} {rest : List NvsPoint}
    (hpc : s.pc = .publish npt rest) :
    npt ∈ table ∧ ¬ InvalidDataType (nvsInit.message npt s.locals).dataType ∧
      (nvsInit.message npt s.locals).time = 0 := by
  obtain ⟨hentries, htyped, htime⟩ := h
  rw [unpublished, hpc] at hentries
  rw [Typed, hpc] at htyped
  exact ⟨hentries List.mem_cons_self, htyped, htime⟩

end NvsThreads

/-! ## The device -/

section
variable {J : JsonLib} {timegm : Tm → Int} {sh : Bool} {table : List NvsPoint} {Z : Zms}

/-- What is said of the points that come in is true of what is published, if it is true of what
`nvs_init` publishes. -/
theorem Device.forall_webActions {P : Point → Prop} {s : Device Z} {a : DeviceAction}
    (ha : ∀ p ∈ a.points J timegm, P p)
    (hnvs : ∀ npt rest, s.nvs.pc = .publish npt rest → P (nvsInit.message npt s.nvs.locals)) :
    ∀ b ∈ s.webActions J timegm a, ∀ p ∈ b.points, P p := by
  have hpublish {ps : List Point} (hps : ∀ p ∈ ps, P p) :
      ∀ b ∈ ps.map WebAction.publish, ∀ p ∈ b.points, P p := by
    intro b hb p hp
    obtain ⟨q, hq, rfl⟩ := List.mem_map.mp hb
    rw [List.mem_singleton.mp hp]
    exact hps q hq
  cases a with
  | request ptsJs payload =>
    intro b hb p hp
    simp only [webActions] at hb
    simp only [DeviceAction.points] at ha
    cases hbody : decodedBody J ptsJs payload with
    | none => simp [hbody] at hb
    | some pts =>
      rw [hbody] at ha hb
      rw [Option.toList_some, List.map_singleton, List.mem_singleton] at hb
      subst hb
      exact ha p hp
  | publish p => exact hpublish ha
  | nvsInit =>
    apply hpublish
    simp only [published]
    split
    · next npt rest hpc => exact List.forall_mem_singleton.mpr (hnvs npt rest hpc)
    · exact List.forall_mem_nil _
  | command c =>
    apply hpublish
    simp only [published]
    split
    · exact ha
    · exact List.forall_mem_nil _
  | cacheWaitMsg =>
    simp only [webActions]
    split <;> simp [WebAction.points]
  | cacheMerge =>
    simp only [webActions]
    split <;> simp [WebAction.points]
  | _ => simp [webActions, published, WebAction.points]

/-- A point that `nvs_init` publishes. -/
structure FromEntry (table : List NvsPoint) (p : Point) : Prop where
  entry : ∃ npt ∈ table, p.pair = npt.publishedPair
  typed : ¬ InvalidDataType p.dataType
  time : p.time = 0

/-- A boot of the device, with what the stack holds where `nvs_init` keeps its buffers. -/
structure Boot where
  cacheSize : Nat
  uint32Buf : UInt32
  stringBuf : CharArray 20
  actions : List DeviceAction

/-- The state at the end of a boot, which may be cut off anywhere. -/
def Boot.run (J : JsonLib) (timegm : Tm → Int) (sh : Bool) (table : List NvsPoint) (b : Boot)
    (fs : Z.State) : Device Z :=
  Machine.run (deviceStep J timegm sh table)
    (.start b.cacheSize table fs (.init b.uint32Buf b.stringBuf)) b.actions

variable {b : Boot} {fs : Z.State}

section
variable {formatFloat : UInt32 → Bytes} (htable : ShortNamed table)
  (hactions : ∀ a ∈ b.actions, a.Describable formatFloat J)
include htable hactions

/-- Nothing that a boot describes for the log runs past its buffer. -/
theorem Boot.dumpsFit : (b.run J timegm sh table fs).DumpsFit formatFloat :=
  Device.dumpsFit_run htable b.cacheSize fs _ hactions

/-- Nor does it when the boot goes on. -/
theorem Boot.dumpsFit_run {as : List DeviceAction} (has : ∀ a ∈ as, a.Describable formatFloat J) :
    (Machine.run (deviceStep J timegm sh table) (b.run J timegm sh table fs) as).DumpsFit
      formatFloat := by
  rw [Boot.run, ← Machine.run_append]
  exact Device.dumpsFit_run htable b.cacheSize fs _ (List.forall_mem_append.mpr ⟨hactions, has⟩)

end

/-- The threads around the stores, in a boot: a run of theirs, in which every point comes in from
outside or from `nvs_init`. -/
theorem Boot.threads_eq (sh : Bool) (fs : Z.State) {P : Point → Prop}
    (hactions : ∀ a ∈ b.actions, ∀ p ∈ a.points J timegm, P p)
    (hnvs : ∀ p, FromEntry table p → P p) :
    ∃ actions : List WebAction, (∀ a ∈ actions, ∀ p ∈ a.points, P p) ∧
      (b.run J timegm sh table fs).threads =
        Machine.run webThreadsStep (.start b.cacheSize) actions := by
  refine ⟨_, ?_, Machine.run_view (f := Device.threads) Device.threads_step b.actions⟩
  refine Machine.forall_mem_passed (I := fun s : Device Z => s.nvs.Publishes table)
    (P := fun a => ∀ p ∈ a.points J timegm, P p) (fun s a _ h => ?_) (fun s a ha h => ?_)
    (.start table fs b.uint32Buf b.stringBuf) hactions
  · rw [Device.nvs_step]
    exact Machine.run_invariant (P := fun _ => True) (fun _ a _ h => h.step a) h fun _ _ => trivial
  · refine Device.forall_webActions ha fun npt rest hpc => hnvs _ ?_
    obtain ⟨hmem, htyped, htime⟩ := h.message hpc
    exact ⟨⟨npt, hmem, message_pair ..⟩, htyped, htime⟩

/-- The points of a POST are those that came in with it, with their keys filled in. -/
theorem WebThreads.forall_unpublished_step {P : Point → Prop} (hkey : ∀ p, P p → P p.defaultKey)
    {t : WebThreads} (h : ∀ p ∈ t.unpublished, P p) {a : WebAction}
    (ha : ∀ pts, a = .lock pts → ∀ p ∈ pts, P p) : ∀ p ∈ (webThreadsStep t a).unpublished, P p := by
  obtain ⟨web, cache, post, published⟩ := t
  cases a with
  | lock pts =>
    cases post with
    | none => exact ha pts rfl
    | some pc => exact h
  | post =>
    rcases post with _ | (⟨_ | ⟨p, pts⟩⟩ | ⟨p, pts⟩)
    · exact h
    · exact List.forall_mem_nil _
    · change ∀ q ∈ (pointsMerge web.pts p).p :: pts, P q
      obtain ⟨hp, hpts⟩ := List.forall_mem_cons.mp h
      rw [pointsMerge_p]
      exact List.forall_mem_cons.mpr ⟨hkey p hp, hpts⟩
    · exact (List.forall_mem_cons.mp h).2
  | handle => cases post <;> exact h
  | _ => exact h

/-- What is said of the points that come in, with or without a key, is true of those of a POST. -/
theorem Device.forall_unpublished_step {P : Point → Prop} (hkey : ∀ p, P p → P p.defaultKey)
    {s : Device Z} (h : ∀ p ∈ s.threads.unpublished, P p) {a : DeviceAction}
    (ha : ∀ p ∈ a.points J timegm, P p) :
    ∀ p ∈ (deviceStep J timegm sh table s a).threads.unpublished, P p := by
  rw [threads_step]
  refine Machine.run_invariant (P := fun c : WebAction => ∀ pts, c = .lock pts → ∀ p ∈ pts, P p)
    (I := fun t : WebThreads => ∀ p ∈ t.unpublished, P p)
    (fun t c hc ht => WebThreads.forall_unpublished_step hkey ht hc) h ?_
  rintro c hc pts rfl p hp
  have hlock : a.points J timegm = pts := by
    cases a with
    | request ptsJs payload =>
      simp only [webActions, List.mem_map, WebAction.lock.injEq] at hc
      obtain ⟨pts', hmem, rfl⟩ := hc
      rw [DeviceAction.points, Option.mem_toList.mp hmem]
      rfl
    | cacheWaitMsg =>
      simp only [webActions] at hc
      split at hc <;> simp at hc
    | cacheMerge =>
      simp only [webActions] at hc
      split at hc <;> simp at hc
    | _ => simp [webActions] at hc
  exact ha p (hlock ▸ hp)

/-- And of those that are published, but by `nvs_init`. -/
theorem Device.forall_published {P : Point → Prop} {s : Device Z}
    (h : ∀ p ∈ s.threads.unpublished, P p) {a : DeviceAction} (ha : ∀ p ∈ a.points J timegm, P p)
    (hinit : a ≠ .nvsInit) : ∀ p ∈ s.published timegm a, P p := by
  cases a with
  | post =>
    simp only [published]
    split
    · next p pts hpost =>
      rw [WebThreads.unpublished, hpost] at h
      exact List.forall_mem_singleton.mpr (h p List.mem_cons_self)
    · exact List.forall_mem_nil _
  | publish p => exact ha
  | nvsInit => exact (hinit rfl).elim
  | command c =>
    simp only [published]
    split
    · exact ha
    · exact List.forall_mem_nil _
  | _ => exact List.forall_mem_nil _

/-- What the threads of `lib/nvs.c` do in a boot. -/
def Boot.nvsActions (J : JsonLib) (timegm : Tm → Int) (sh : Bool) (table : List NvsPoint) (b : Boot)
    (fs : Z.State) : List NvsAction :=
  Machine.passed (deviceStep J timegm sh table) (Device.nvsActions timegm)
    (.start b.cacheSize table fs (.init b.uint32Buf b.stringBuf)) b.actions

theorem Boot.nvs_eq (sh : Bool) (fs : Z.State) : (b.run J timegm sh table fs).nvs =
    Machine.run (nvsThreadsStep table) (.start table fs (.init b.uint32Buf b.stringBuf))
      (b.nvsActions J timegm sh table fs) :=
  Machine.run_view (f := Device.nvs) Device.nvs_step b.actions

/-- Others publish points that came in, a key perhaps filled in. -/
theorem Boot.forall_nvsActions (sh : Bool) (table : List NvsPoint) (fs : Z.State) {P : Point → Prop}
    (hkey : ∀ p, P p → P p.defaultKey)
    (hactions : ∀ a ∈ b.actions, ∀ p ∈ a.points J timegm, P p) :
    ∀ a ∈ b.nvsActions J timegm sh table fs, ∀ p, a = .publish p → P p := by
  refine Machine.forall_mem_passed (I := fun s : Device Z => ∀ p ∈ s.threads.unpublished, P p)
    (P := fun a => ∀ p ∈ a.points J timegm, P p)
    (fun s a ha h => Device.forall_unpublished_step hkey h ha) (fun s a ha h => ?_)
    (by exact List.forall_mem_nil P) hactions
  have hpublish (hinit : a ≠ .nvsInit) :
      ∀ c ∈ (s.published timegm a).map NvsAction.publish, ∀ p, c = .publish p → P p := by
    rintro c hc p rfl
    obtain ⟨q, hq, he⟩ := List.mem_map.mp hc
    cases he
    exact Device.forall_published h ha hinit p hq
  cases a with
  | nvsInit => simp [Device.nvsActions]
  | nvsAddObs => simp [Device.nvsActions]
  | nvsWaitMsg => simp [Device.nvsActions]
  | nvsHandle => simp [Device.nvsActions]
  | _ => exact hpublish (by simp)

/-- A table whose entries have a type. -/
def Named (table : List NvsPoint) : Prop := ∀ npt ∈ table, npt.pair.1 ≠ []

instance : DecidablePred Named := fun table =>
  inferInstanceAs (Decidable (∀ npt ∈ table, npt.pair.1 ≠ []))

theorem FromEntry.valid {p : Point} (h : FromEntry table p) (htable : Named table) : p.Valid := by
  obtain ⟨⟨npt, hmem, hpair⟩, htyped, -⟩ := h
  refine ⟨Point.occupied_iff.mpr ?_, htyped⟩
  have htype : p.type.str = npt.pair.1.take 23 := congrArg Prod.fst hpair
  rw [htype, Ne, List.take_eq_nil_iff]
  exact not_or.mpr ⟨by decide, htable npt hmem⟩

/-- What the stores hold of the points published so far, a blank key being the key "0". -/
structure StoresConverged (s : WebThreads) : Prop where
  /-- With no POST in progress and every message handled, `web_points` has the point published last
  of each pair, in one slot, and nothing else. -/
  web : s.post = none → s.web.Drained → countPairs (s.published.map Point.defaultKey) ≤ 40 →
    ∀ k, slotsOf s.web.pts k = (latest Point.pair (s.published.map Point.defaultKey) k).toList
  cache : s.cache.Drained →
    countPairs (s.published.map Point.defaultKey) ≤ s.cache.pts.length →
      ∀ k, slotsOf s.cache.pts k = (latest Point.pair (s.published.map Point.defaultKey) k).toList
  /-- Where there is no room, what is in the cache is not stale. -/
  cached : s.cache.Drained → ∀ q ∈ s.cache.pts, q.Occupied →
    latest Point.pair (s.published.map Point.defaultKey) q.pair = some q

theorem storesConverged {cacheSize : Nat} {s : WebThreads}
    (h : s.keyed.Following cacheSize) : StoresConverged s := by
  obtain ⟨w, hw⟩ := h.web
  obtain ⟨c, hc⟩ := h.cache
  constructor
  · intro hpost hdrained hroom k
    have hahead : s.keyed.ahead = [] := by
      rw [WebThreads.ahead, WebThreads.keyed, hpost]
      rfl
    rw [hahead] at hw
    exact hw.slotsOf_eq (StoreThread.drained_keyed hdrained) hroom k
  · intro hdrained hroom k
    refine hc.slotsOf_eq (StoreThread.drained_keyed hdrained) ?_ k
    rw [← hc.represents.length]
    exact hroom
  · exact fun hdrained q hq hocc => hc.latest_of_mem (StoreThread.drained_keyed hdrained) hq hocc

/-- The stores of a boot follow what was published. -/
theorem Boot.following (htable : Named table)
    (hactions : ∀ a ∈ b.actions, ∀ p ∈ a.points J timegm, p.Valid) :
    WebThreads.Following b.cacheSize (b.run J timegm sh table fs).threads.keyed := by
  obtain ⟨actions, hvalid, hrun⟩ := b.threads_eq sh fs hactions fun p hp => hp.valid htable
  rw [hrun]
  exact WebThreads.following_keyed b.cacheSize hvalid

/-- **The device converges**, in every interleaving of its threads and whatever valid points are
published. -/
theorem device_converges (htable : Named table) (hshort : ShortNamed table)
    (hactions : ∀ a ∈ b.actions, ∀ p ∈ a.points J timegm, p.Valid) {formatFloat : UInt32 → Bytes}
    (hdescribable : ∀ a ∈ b.actions, a.Describable formatFloat J) :
    (b.run J timegm sh table fs).DumpsFit formatFloat ∧
      StoresConverged (b.run J timegm sh table fs).threads :=
  ⟨b.dumpsFit hshort hdescribable, storesConverged (b.following htable hactions)⟩

end

/-- A boot of `apps/siot-net` whose metrics have blank keys, like the point that the shell sends. -/
def metricsBoot : Boot where
  cacheSize := 40
  uint32Buf := 0
  stringBuf := .zero 20
  actions := (busInit (lit "esp32") (lit "1.0.0") (lit "1.0.0-dev")).map .publish ++
    [.nvsInit, .nvsInit, .nvsInit, .cacheWaitMsg, .webWaitMsg] ++
      (siotMetrics 0x42280000 7).map .publish ++
        [.command (.p [lit "p", lit "uptime", lit "0", lit "INT", lit "8"]), .cacheMerge,
          .webHandle]

theorem device_converges_metrics :
    let s : Device .reference :=
      metricsBoot.run .reference gregorianTimegm true siotNetNvsPts fun _ => none
    s.DumpsFit (fun _ => []) ∧ StoresConverged s.threads :=
  device_converges (b := metricsBoot) (by decide) (by decide) (by decide +kernel) (by decide +kernel)

end ZephyrSiot
