import ZephyrSiot.Verify.DeviceStores

/-!
# What the device prints

While streaming is on, the thread of `lib/point-cache.c` prints a line for each point published,
once and in order, whatever else goes on (`stream_lossless`). A `siot dump` prints the cache as it
was at one moment, though publishing goes on while it runs (`dump_snapshot`).
-/

namespace ZephyrSiot
open CStr KeyedStore

section
variable {J : JsonLib} {timegm : Tm → Int} {sh : Bool} {table : List NvsPoint} {Z : Zms}

namespace Device
variable {s : Device Z}

/-- What a thread has printed. -/
def lines (printer : Printer) (s : Device Z) : List Bytes :=
  (s.console.filter (·.printer = printer)).map ConsoleLine.text

theorem lines_shellPrint (printer other : Printer) (s : Device Z) (ls : List Bytes) :
    (s.shellPrint other ls).lines printer =
      s.lines printer ++ if other = printer then ls else [] := by
  rw [lines, shellPrint, List.filter_append, List.map_append, List.filter_map, List.map_map]
  split
  · next h => simp [lines, Function.comp_def, h]
  · next h => simp [lines, Function.comp_def, h]

/-- The lines for some points, in order. -/
def emitted (sh : Bool) (ps : List Point) : List Bytes := ps.flatMap fun p => (pointEmit sh p).toList

theorem emitted_append (sh : Bool) (ps qs : List Point) :
    emitted sh (ps ++ qs) = emitted sh ps ++ emitted sh qs := List.flatMap_append

end Device

def ReportPc.point : ReportPc → Point
  | .check p | .emit p => p

/-- The points that the cache thread has not reported, as it will leave them. -/
def Device.unreported (s : Device Z) : List Point :=
  s.report.toList.map ReportPc.point ++ s.threads.cache.backlog.map Point.defaultKey

/-- The cache thread takes its next message when it has reported the one before. -/
def Device.InTurn (s : Device Z) : Prop := s.report = none ∨ s.threads.cache.held = none

/-- A command that ends streaming. -/
def DeviceAction.StopsStream : DeviceAction → Prop
  | .command (.siotStream argv) => (cmdSiotStream true argv).2.1 = false
  | _ => False

namespace Device
variable {s : Device Z} {a : DeviceAction}

/-! ## The cache thread -/

/-- The steps of the cache thread. -/
def CacheTurn : DeviceAction → Prop
  | .cacheWaitMsg | .cacheMerge | .cacheReport => True
  | _ => False

variable (J timegm sh table) in
/-- At all other steps the cache thread only receives what is published. -/
theorem step_of_not_cacheTurn (ha : ¬ CacheTurn a) :
    (deviceStep J timegm sh table s a).threads.cache =
        { s.threads.cache with queue := s.threads.cache.queue ++ s.published timegm a } ∧
      (deviceStep J timegm sh table s a).report = s.report ∧
      (deviceStep J timegm sh table s a).lines .pointCache = s.lines .pointCache := by
  have hprint (t : Device Z) (ls : List Bytes) :
      (t.shellPrint .shell ls).lines .pointCache = t.lines .pointCache := by
    rw [lines_shellPrint, if_neg (by decide), List.append_nil]
  cases a with
  | request ptsJs payload =>
    simp only [deviceStep, request, WebThreads.lock, published, List.append_nil]
    split
    · split <;> exact ⟨rfl, rfl, rfl⟩
    · exact ⟨rfl, rfl, rfl⟩
  | post =>
    simp only [deviceStep, stepPost, WebThreads.stepPost, published]
    rcases s.threads.post with _ | (⟨_ | ⟨p, pts⟩⟩ | ⟨p, pts⟩) <;>
      simp [WebThreads.zbusChanPub, StoreThread.receive, lines]
  | publish p => exact ⟨rfl, rfl, rfl⟩
  | webWaitMsg => simp [deviceStep, webThreadsStep, published, lines]
  | webHandle =>
    simp only [deviceStep, webThreadsStep, WebThreads.handle, published, List.append_nil]
    cases s.threads.post <;> simp [lines]
  | cacheWaitMsg => exact (ha trivial).elim
  | cacheMerge => exact (ha trivial).elim
  | cacheReport => exact (ha trivial).elim
  | nvsInit =>
    simp only [deviceStep, nvsInit, published]
    cases s.nvs.pc <;> simp [WebThreads.zbusChanPub, StoreThread.receive, lines]
  | nvsAddObs => simp [deviceStep, published, lines]
  | nvsWaitMsg => simp [deviceStep, published, lines]
  | nvsHandle => simp [deviceStep, published, lines]
  | command c =>
    simp only [deviceStep, command, published]
    cases s.dump with
    | some i => simp
    | none =>
      cases c with
      | p argv =>
        simp only [ShellCommand.point, if_true]
        cases (handleSendpoint timegm argv).2 with
        | none => exact ⟨by simp [shellPrint], rfl, hprint ..⟩
        | some p => exact ⟨rfl, rfl, rfl⟩
      | siotDump => simp [ShellCommand.point, lines]
      | siotStream argv => exact ⟨by simp [shellPrint, ShellCommand.point], rfl, hprint ..⟩
      | siotStatus => exact ⟨by simp [shellPrint, ShellCommand.point], rfl, hprint ..⟩
  | dumpNext =>
    simp only [deviceStep, dumpNext, published, List.append_nil]
    split
    · exact ⟨rfl, rfl, rfl⟩
    · split
      · exact ⟨rfl, rfl, rfl⟩
      · split
        · exact ⟨rfl, rfl, rfl⟩
        · exact ⟨rfl, rfl, hprint ..⟩

variable (J timegm sh table) in
theorem InTurn.step (h : s.InTurn) : (deviceStep J timegm sh table s a).InTurn := by
  rcases Classical.em (CacheTurn a) with ha | ha
  · cases a with
    | cacheWaitMsg =>
      simp only [deviceStep, cacheWaitMsg]
      split
      · next hreport => exact .inl hreport
      · exact h
    | cacheMerge =>
      simp only [deviceStep, cacheMerge]
      split
      · next hheld => exact .inr (by simp [webThreadsStep, StoreThread.handle, hheld])
      · exact h
    | cacheReport =>
      simp only [deviceStep, cacheReport]
      split
      · next hreport => exact .inr (h.resolve_left (by simp [hreport]))
      · exact .inl rfl
      · exact h
    | _ => exact ha.elim
  · obtain ⟨hcache, hreport, -⟩ := step_of_not_cacheTurn J timegm sh table (s := s) ha
    rw [InTurn, hcache, hreport]
    exact h

/-! ## Streaming -/

/-- Between two states the cache thread prints lines for some points, in the order in which they
were published, and once. While streaming is `on` it is all that are not left to report. -/
structure Reported (sh : Bool) (on : Prop) (s s' : Device Z) (published ps : List Point) : Prop where
  lines : s'.lines .pointCache = s.lines .pointCache ++ emitted sh ps
  order : (ps ++ s'.unreported).Sublist (s.unreported ++ published.map Point.defaultKey)
  all : on → ps ++ s'.unreported = s.unreported ++ published.map Point.defaultKey

namespace Reported
variable {on on' : Prop} {s' s'' : Device Z} {pub pub' ps ps' : List Point}

theorem refl (on : Prop) (s : Device Z) : Reported sh on s s [] [] :=
  ⟨(List.append_nil _).symm, by simp, fun _ => by simp⟩

/-- Nothing is lost when the points that are left to report become these. -/
theorem of_eq (hlines : s'.lines .pointCache = s.lines .pointCache ++ emitted sh ps)
    (h : ps ++ s'.unreported = s.unreported ++ pub.map Point.defaultKey) :
    Reported sh on s s' pub ps :=
  ⟨hlines, h ▸ List.Sublist.refl _, fun _ => h⟩

theorem trans (h : Reported sh on s s' pub ps) (h' : Reported sh on' s' s'' pub' ps') :
    Reported sh (on ∧ on') s s'' (pub ++ pub') (ps ++ ps') := by
  refine ⟨?_, ?_, fun hon => ?_⟩
  · rw [h'.lines, h.lines, emitted_append, List.append_assoc]
  · rw [List.append_assoc, List.map_append, ← List.append_assoc s.unreported]
    refine (h'.order.append_left ps).trans ?_
    rw [← List.append_assoc]
    exact h.order.append_right _
  · rw [List.append_assoc, h'.all hon.2, ← List.append_assoc, h.all hon.1, List.map_append,
      List.append_assoc]

end Reported

variable (J timegm sh table) in
theorem reported_step (h : s.InTurn) : ∃ ps,
    Reported sh s.streaming s (deviceStep J timegm sh table s a) (s.published timegm a) ps := by
  rcases Classical.em (CacheTurn a) with ha | ha
  · cases a with
    | cacheWaitMsg =>
      refine ⟨[], ?_⟩
      simp only [deviceStep, cacheWaitMsg, published]
      split
      · refine .of_eq (by simp [emitted, Device.lines]) ?_
        simp [unreported, webThreadsStep, StoreThread.backlog_waitMsg]
      · exact .refl _ _
    | cacheMerge =>
      refine ⟨[], ?_⟩
      simp only [deviceStep, cacheMerge, published]
      split
      · next p _ hheld =>
        have hreport : s.report = none := h.resolve_right (by simp [hheld])
        refine .of_eq (by simp [emitted, Device.lines]) ?_
        have hmerge : (pointCacheMerge s.threads.cache.pts p).p = p.defaultKey := pointsMerge_p ..
        simp [unreported, webThreadsStep, StoreThread.handle, StoreThread.backlog, hheld, hreport,
          hmerge, ReportPc.point]
      · exact .refl _ _
    | cacheReport =>
      simp only [deviceStep, cacheReport, published]
      split
      · next p hreport =>
        refine ⟨[], by simp [emitted, Device.lines], ?_, fun hon => ?_⟩
        · cases s.streaming <;> simp [unreported, hreport, ReportPc.point]
        · rw [if_pos hon]
          simp [unreported, hreport, ReportPc.point]
      · next p hreport =>
        refine ⟨[p], .of_eq ?_ ?_⟩
        · change (s.shellPrint .pointCache (pointEmit sh p).toList).lines .pointCache = _
          rw [lines_shellPrint, if_pos rfl]
          simp [emitted]
        · simp [unreported, hreport, ReportPc.point, shellPrint]
      · exact ⟨[], .refl _ _⟩
    | _ => exact ha.elim
  · obtain ⟨hcache, hreport, hlines⟩ := step_of_not_cacheTurn J timegm sh table (s := s) ha
    refine ⟨[], .of_eq (by rw [hlines]; exact (List.append_nil _).symm) ?_⟩
    simp [unreported, hcache, hreport, StoreThread.backlog]

theorem streaming_step (hs : s.streaming) (ha : ¬ a.StopsStream) :
    (deviceStep J timegm sh table s a).streaming := by
  cases a with
  | request ptsJs payload =>
    simp only [deviceStep, request]
    split <;> exact hs
  | post =>
    simp only [deviceStep, stepPost]
    split <;> exact hs
  | cacheWaitMsg =>
    simp only [deviceStep, cacheWaitMsg]
    split <;> exact hs
  | cacheMerge =>
    simp only [deviceStep, cacheMerge]
    split <;> exact hs
  | cacheReport =>
    simp only [deviceStep, cacheReport]
    split <;> exact hs
  | nvsInit =>
    simp only [deviceStep, nvsInit]
    split <;> exact hs
  | command c =>
    simp only [deviceStep, command]
    split
    · exact hs
    · cases c with
      | p argv =>
        dsimp only
        split <;> exact hs
      | siotDump => exact hs
      | siotStream argv =>
        rw [DeviceAction.StopsStream, Bool.not_eq_false, ← hs] at ha
        exact ha.trans hs
      | siotStatus => exact hs
  | dumpNext =>
    simp only [deviceStep, dumpNext]
    split
    · exact hs
    · split
      · exact hs
      · split <;> exact hs
  | _ => exact hs

theorem reported_run (h : s.InTurn) (as : List DeviceAction) : ∃ pub ps,
    (Machine.run (deviceStep J timegm sh table) s as).threads.published =
        s.threads.published ++ pub ∧
      Reported sh (s.streaming ∧ ∀ a ∈ as, ¬ a.StopsStream) s
        (Machine.run (deviceStep J timegm sh table) s as) pub ps := by
  induction as generalizing s with
  | nil => exact ⟨[], [], (List.append_nil _).symm, .refl _ s⟩
  | cons a as ih =>
    obtain ⟨ps, hstep⟩ := reported_step J timegm sh table (a := a) h
    obtain ⟨pub', ps', hpub', hrun⟩ := ih (h.step J timegm sh table (a := a))
    refine ⟨s.published timegm a ++ pub', ps ++ ps', ?_, ?_⟩
    · rw [Machine.run_cons, hpub', threads_published_step, List.append_assoc]
    · obtain ⟨hlines, horder, hall⟩ := hstep.trans hrun
      refine ⟨hlines, horder, fun ⟨hs, has⟩ => hall ⟨hs, ?_⟩⟩
      rw [List.forall_mem_cons] at has
      exact ⟨streaming_step hs has.1, has.2⟩

end Device

theorem Boot.inTurn {b : Boot} {fs : Z.State} : (b.run J timegm sh table fs).InTurn :=
  Machine.run_invariant (P := fun _ => True) (fun _ _ _ h => h.step J timegm sh table) (.inl rfl)
    fun _ _ => trivial

/-- **The stream.** After any boot so far, and over all that happens next, the cache thread prints
lines for points that it had not reported or that were published, in this order and each once. While
streaming is on, these are all that are not left to report at the end. -/
theorem stream_lossless (b : Boot) (fs : Z.State) (as : List DeviceAction) :
    let s := b.run J timegm sh table fs
    let s' := Machine.run (deviceStep J timegm sh table) s as
    ∃ pub ps, s'.threads.published = s.threads.published ++ pub ∧
      s.Reported sh (s.streaming ∧ ∀ a ∈ as, ¬ a.StopsStream) s' pub ps :=
  Device.reported_run Boot.inTurn as

/-! ## The cache -/

/-- The cache is what the messages handled so far make of it. -/
theorem merged_run (n : Nat) (actions : List WebAction) :
    let t := Machine.run webThreadsStep (.start n) actions
    ∃ merged, t.published = merged ++ t.cache.backlog ∧
      t.cache.pts = mergeRun (.replicate n .zero) merged := by
  refine Machine.run_invariant (P := fun _ => True) (I := fun t : WebThreads => ∃ merged,
      t.published = merged ++ t.cache.backlog ∧ t.cache.pts = mergeRun (.replicate n .zero) merged)
    ?_ ⟨[], rfl, rfl⟩ fun _ _ => trivial
  rintro t a - ⟨merged, hlog, hpts⟩
  have hpublish (p : Point) : t.published ++ [p] = merged ++ (t.cache.receive p).backlog := by
    rw [StoreThread.backlog_receive, hlog, List.append_assoc]
  cases a with
  | lock pts =>
    refine ⟨merged, ?_⟩
    simp only [webThreadsStep, WebThreads.lock]
    split <;> exact ⟨hlog, hpts⟩
  | post =>
    refine ⟨merged, ?_⟩
    simp only [webThreadsStep, WebThreads.stepPost]
    rcases t.post with _ | (⟨_ | ⟨p, pts⟩⟩ | ⟨p, pts⟩)
    · exact ⟨hlog, hpts⟩
    · exact ⟨hlog, hpts⟩
    · exact ⟨hlog, hpts⟩
    · exact ⟨hpublish p, hpts⟩
  | publish p => exact ⟨merged, hpublish p, hpts⟩
  | waitMsg => exact ⟨merged, hlog, hpts⟩
  | handle =>
    refine ⟨merged, ?_⟩
    simp only [webThreadsStep, WebThreads.handle]
    split <;> exact ⟨hlog, hpts⟩
  | cacheWaitMsg =>
    refine ⟨merged, ?_, ?_⟩
    · simpa [webThreadsStep, StoreThread.backlog_waitMsg] using hlog
    · simpa [webThreadsStep, StoreThread.pts_waitMsg] using hpts
  | cacheHandle =>
    simp only [webThreadsStep, StoreThread.handle]
    split
    · next p hheld =>
      refine ⟨merged ++ [p], ?_, ?_⟩
      · rw [hlog, StoreThread.backlog, hheld, List.append_assoc]
        rfl
      · rw [mergeRun, Machine.run_append]
        exact congrArg (fun pts => (pointsMerge pts p).pts) hpts
    · exact ⟨merged, hlog, hpts⟩

/-- At every moment the slots in use are the summary of a first part of what was published. -/
theorem Boot.cache_eq (htable : Named table) {b : Boot} (sh : Bool) (fs : Z.State)
    (hactions : ∀ a ∈ b.actions, ∀ p ∈ a.points J timegm, p.Valid) :
    let t := (b.run J timegm sh table fs).threads
    ∃ merged, t.published = merged ++ t.cache.backlog ∧ t.cache.pts.filter (·.Occupied) =
      summary Point.pair b.cacheSize (merged.map Point.defaultKey) := by
  obtain ⟨actions, hvalid, hrun⟩ := b.threads_eq sh fs hactions fun p hp => hp.valid htable
  obtain ⟨merged, hlog, hpts⟩ := merged_run b.cacheSize actions
  rw [← hrun] at hlog hpts
  refine ⟨merged, hlog, ?_⟩
  have hmerged : ∀ p ∈ merged, p.Valid := by
    intro p hp
    have hpoints := (WebThreads.following_keyed b.cacheSize hvalid).points p.defaultKey
    rw [← hrun, WebThreads.keyed, hlog, List.map_append, List.append_assoc] at hpoints
    obtain ⟨hp, -⟩ := hpoints (List.mem_append_left _ (List.mem_map_of_mem hp))
    rwa [Point.Valid, Point.occupied_defaultKey, Point.defaultKey_dataType] at hp
  obtain ⟨hrep, -⟩ := represents_mergeRun (represents_start b.cacheSize) hmerged
  rw [← hpts] at hrep
  obtain ⟨rest, heq, hrest⟩ := hrep.eq_append
  rw [heq, List.filter_append, List.filter_eq_self.mpr, List.filter_eq_nil_iff.mpr, List.append_nil]
  · exact Store.vals_puts _
  · simpa using hrest
  · exact fun q hq => decide_eq_true (hrep.used q hq).1.1

/-! ## A dump -/

/-- The slots in use are printed in order. -/
theorem pointCacheForeach_emitCb (sh : Bool) (pts : List Point) (ls : List Bytes) :
    pointCacheForeach (emitCb sh) pts ls =
      (0, ls ++ Device.emitted sh (pts.filter (·.Occupied))) := by
  induction pts generalizing ls with
  | nil => simp [pointCacheForeach, Device.emitted]
  | cons q pts ih =>
    rw [pointCacheForeach, List.filter_cons]
    split
    · next hq => rw [ih, if_neg (by simpa using fun h : q.Occupied => h hq)]
    · next hq =>
      rw [if_pos (decide_eq_true hq)]
      simp [emitCb, ih, Device.emitted]

namespace Device
variable {s : Device Z} {a : DeviceAction}

variable (J timegm sh table) in
/-- While a dump holds `cache_lock`, nothing is merged into the cache, and the shell does nothing
else. -/
theorem step_of_dump {i : Nat} (hs : s.dump = some i) (ha : a ≠ .dumpNext) :
    (deviceStep J timegm sh table s a).dump = some i ∧
      (deviceStep J timegm sh table s a).threads.cache.pts = s.threads.cache.pts ∧
      (deviceStep J timegm sh table s a).lines .shell = s.lines .shell := by
  cases a with
  | request ptsJs payload =>
    simp only [deviceStep, request, WebThreads.lock]
    split
    · split <;> exact ⟨hs, rfl, rfl⟩
    · exact ⟨hs, rfl, rfl⟩
  | post =>
    simp only [deviceStep, stepPost, WebThreads.stepPost]
    rcases s.threads.post with _ | (⟨_ | ⟨p, pts⟩⟩ | ⟨p, pts⟩)
    all_goals simp [hs, lines, WebThreads.zbusChanPub, StoreThread.receive]
  | webHandle =>
    simp only [deviceStep, webThreadsStep, WebThreads.handle]
    cases s.threads.post <;> simp [hs, lines]
  | cacheWaitMsg =>
    simp only [deviceStep, cacheWaitMsg]
    split
    · exact ⟨hs, StoreThread.pts_waitMsg _, rfl⟩
    · exact ⟨hs, rfl, rfl⟩
  | cacheMerge =>
    simp [deviceStep, cacheMerge, hs]
  | cacheReport =>
    simp only [deviceStep, cacheReport]
    split
    · exact ⟨hs, rfl, rfl⟩
    · refine ⟨hs, rfl, (lines_shellPrint .shell .pointCache s _).trans ?_⟩
      rw [if_neg (by decide), List.append_nil]
    · exact ⟨hs, rfl, rfl⟩
  | nvsInit =>
    simp only [deviceStep, nvsInit]
    cases s.nvs.pc <;> simp [hs, lines, WebThreads.zbusChanPub, StoreThread.receive]
  | command c =>
    simp [deviceStep, command, hs]
  | dumpNext => exact (ha rfl).elim
  | _ => exact ⟨hs, rfl, rfl⟩

/-- The slots that a dump has looked at. -/
def looked (pts : List Point) : Option Nat → List Point
  | some i => pts.take i
  | none => pts

/-- A dump of the cache `pts`, with what the shell had printed before. -/
structure Dumping (sh : Bool) (pts : List Point) (before : List Bytes) (s : Device Z) : Prop where
  cache : s.threads.cache.pts = pts
  lines : s.lines .shell = before ++ emitted sh ((looked pts s.dump).filter (·.Occupied))

theorem Dumping.step {pts : List Point} {before : List Bytes} (h : Dumping sh pts before s)
    (hs : s.dump.isSome) : Dumping sh pts before (deviceStep J timegm sh table s a) := by
  obtain ⟨i, hdump⟩ := Option.isSome_iff_exists.mp hs
  obtain ⟨rfl, hlines⟩ := h
  rw [hdump, looked] at hlines
  rcases Classical.em (a = .dumpNext) with rfl | ha
  · simp only [deviceStep, dumpNext, hdump]
    split
    · next hend =>
      have hlen := List.getElem?_eq_none_iff.mp hend
      refine ⟨rfl, ?_⟩
      rw [List.take_of_length_le hlen] at hlines
      exact hlines
    · next q hq =>
      obtain ⟨hlt, rfl⟩ := List.getElem?_eq_some_iff.mp hq
      split
      · next hfirst =>
        refine ⟨rfl, hlines.trans ?_⟩
        rw [looked, List.take_succ_eq_append_getElem hlt, List.filter_append,
          List.filter_singleton, decide_eq_false (not_not.mpr hfirst)]
        simp
      · next hfirst =>
        refine ⟨rfl, (lines_shellPrint ..).trans ?_⟩
        rw [if_pos rfl, hlines, looked, List.take_succ_eq_append_getElem hlt, List.filter_append,
          List.filter_singleton, decide_eq_true hfirst, emitted_append, List.append_assoc]
        simp [emitCb, emitted]
  · obtain ⟨hdump', hpts, hlines'⟩ := step_of_dump J timegm sh table hdump ha
    refine ⟨hpts, ?_⟩
    rw [hdump', looked, hlines', hlines]

end Device

/-- **A dump is a snapshot.** Whatever the other threads do while it runs, `siot dump` prints what
the cache held when it started. That is the last point of each pair, in the order of the first ones
and as far as there is room, among the messages that the cache thread had handled then. -/
theorem dump_snapshot (htable : Named table) (hshort : ShortNamed table) {b : Boot} {fs : Z.State}
    (hactions : ∀ a ∈ b.actions, ∀ p ∈ a.points J timegm, p.Valid) {formatFloat : UInt32 → Bytes}
    (hdescribable : ∀ a ∈ b.actions, a.Describable formatFloat J) {s s' : Device Z}
    (hs : s = b.run J timegm sh table fs) (hidle : s.dump = none) {as : List DeviceAction}
    (has : ∀ a ∈ as, a.Describable formatFloat J)
    (hs' : s' = Machine.run (deviceStep J timegm sh table) s (.command .siotDump :: as))
    (hbusy : Machine.AtEveryStep (deviceStep J timegm sh table) (fun s _ => s.dump.isSome)
      (deviceStep J timegm sh table s (.command .siotDump)) as) (hdone : s'.dump = none) :
    s'.DumpsFit formatFloat ∧
      s'.lines .shell = (pointCacheForeach (emitCb sh) s.threads.cache.pts (s.lines .shell)).2 ∧
        ∃ merged, s.threads.published = merged ++ s.threads.cache.backlog ∧
          s'.lines .shell = s.lines .shell ++
            Device.emitted sh (summary Point.pair b.cacheSize (merged.map Point.defaultKey)) := by
  obtain ⟨merged, hlog, hcache⟩ := b.cache_eq htable sh fs hactions
  rw [← hs] at hlog hcache
  have hstart : Device.Dumping sh s.threads.cache.pts (s.lines .shell)
      (deviceStep J timegm sh table s (.command .siotDump)) := by
    simp only [deviceStep, Device.command, hidle]
    exact ⟨rfl, (List.append_nil _).symm⟩
  have h := Machine.run_invariant_of_atEveryStep (P := fun _ => True)
    (I := Device.Dumping sh s.threads.cache.pts (s.lines .shell))
    (fun _ _ _ hc h => h.step hc) hstart (fun _ _ => trivial) hbusy
  rw [← Machine.run_cons, ← hs'] at h
  have hlines := h.lines
  rw [hdone, Device.looked] at hlines
  refine ⟨?_, ?_, merged, hlog, ?_⟩
  · rw [hs', hs]
    exact b.dumpsFit_run hshort hdescribable (List.forall_mem_cons.mpr ⟨trivial, has⟩)
  · rw [pointCacheForeach_emitCb, hlines]
  · rw [hlines, hcache]

end

/-- The uptime changes while the dump runs. -/
theorem dump_snapshot_metrics :
    let step := deviceStep (Z := .reference) .reference gregorianTimegm true siotNetNvsPts
    let s : Device .reference := metricsBoot.run .reference gregorianTimegm true siotNetNvsPts
      fun _ => none
    let s' := Machine.run step s (.command .siotDump :: .dumpNext ::
      (siotMetrics 0x42280000 9).map .publish ++ .cacheWaitMsg :: .cacheMerge ::
        .replicate 40 .dumpNext)
    s'.DumpsFit (fun _ => []) ∧
      s'.lines .shell = (pointCacheForeach (emitCb true) s.threads.cache.pts (s.lines .shell)).2 ∧
        ∃ merged, s.threads.published = merged ++ s.threads.cache.backlog ∧
          s'.lines .shell = s.lines .shell ++
            Device.emitted true (summary Point.pair 40 (merged.map Point.defaultKey)) :=
  dump_snapshot (b := metricsBoot) (by decide) (by decide) (by decide +kernel) (by decide +kernel) rfl
    (by decide +kernel) (by decide +kernel) rfl (by decide +kernel) (by decide +kernel)

end ZephyrSiot
