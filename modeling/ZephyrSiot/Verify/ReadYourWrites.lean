import ZephyrSiot.Verify.DeviceStores

/-!
# Reading one's writes

When a POST has answered, `web_points` shows its point, whatever older messages `web_thread` has
still to merge and whatever else is published, as long as these are points of other pairs
(`post_readable`).
-/

namespace ZephyrSiot
open CStr KeyedStore

section
variable {k : Bytes × Bytes} {p q : Point} {pts : List Point}

/-! ## One merge -/

theorem slotsOf_pointsMerge_of_ne {n : Nat} {s : PairStore n} (h : Represents s pts) (hq : q.Valid)
    (hne : q.defaultKey.pair ≠ k) : slotsOf (pointsMerge pts q).pts k = slotsOf pts k := by
  rw [(represents_pointsMerge h hq).2.slotsOf_eq, h.slotsOf_eq]
  cases hput : s.put q.defaultKey with
  | none => rfl
  | some t => rw [Option.getD_some, Store.find?_put hput, if_neg (Ne.symm hne)]

/-- A pair that has a slot keeps it. -/
theorem slotsOf_pointsMerge_of_eq {n : Nat} {s : PairStore n} (h : Represents s pts) (hq : q.Valid)
    (hpair : q.defaultKey.pair = k) (hslot : slotsOf pts k ≠ []) :
    slotsOf (pointsMerge pts q).pts k = [q.defaultKey] := by
  have hmem : k ∈ s.keys := by
    by_contra hnot
    rw [h.slotsOf_eq, Store.find?_eq_none.mpr hnot] at hslot
    exact hslot rfl
  rw [(represents_pointsMerge h hq).2.slotsOf_eq]
  obtain ⟨t, hput⟩ := Option.isSome_iff_exists.mp (Store.put_isSome.mpr (.inl (hpair.symm ▸ hmem)))
  rw [hput, Option.getD_some, Store.find?_put hput, if_pos hpair.symm]
  rfl

/-! ## A POST -/

/-- Of the pair there is this point only. -/
def Only (k : Bytes × Bytes) (p : Point) (ps : List Point) : Prop := ∀ q ∈ ps, q.pair = k → q = p

namespace WebThreads
variable {s : WebThreads}

/-- The pair shows the point, and nothing else of it is on its way. -/
structure Shown (k : Bytes × Bytes) (p : Point) (s : WebThreads) : Prop where
  slot : slotsOf s.web.pts k = [p]
  backlog : Only k p s.web.backlog
  unpublished : Only k p s.unpublished

/-- The points that the POST has not merged. -/
def unmerged (s : WebThreads) : List Point :=
  match s.post with
  | some (.merge pts) | some (.publish _ pts) => pts
  | none => []

/-- The POST has still to merge the point. -/
structure Coming (k : Bytes × Bytes) (p : Point) (s : WebThreads) : Prop where
  slot : slotsOf s.web.pts k ≠ []
  backlog : ∀ q ∈ s.web.backlog, q.pair ≠ k
  ahead : ∀ q ∈ s.ahead, q.pair ≠ k
  point : p ∈ s.unmerged ∧ p.pair = k
  only : Only k p s.unmerged

theorem following_valid {n : Nat} (h : Following n s) :
    (∀ q ∈ s.web.backlog, q.Valid ∧ q.key.str ≠ []) ∧
      ∀ q ∈ s.unpublished, q.Valid ∧ q.key.str ≠ [] := by
  obtain ⟨w, hw⟩ := h.web
  refine ⟨fun q hq => h.points q ?_, fun q hq => h.points q (List.mem_append_right _ hq)⟩
  exact List.mem_append_left _ (hw.suffix.subset hq)

/-- A step of the POST. -/
theorem coming_or_shown_stepPost {n : Nat} (hf : Following n s) (h : Coming k p s ∨ Shown k p s) :
    Coming k p s.stepPost ∨ Shown k p s.stepPost := by
  obtain ⟨w, hw⟩ := hf.web
  obtain ⟨-, hvalid⟩ := following_valid hf
  have hrep := hw.represents
  obtain ⟨web, cache, post, published⟩ := s
  rcases post with _ | (⟨_ | ⟨q, pts⟩⟩ | ⟨q, pts⟩)
  · exact h
  · rcases h with h | h
    · exact (List.not_mem_nil h.point.1).elim
    · exact .inr ⟨h.slot, h.backlog, fun _ hq => (List.not_mem_nil hq).elim⟩
  · obtain ⟨hq, hkey⟩ := hvalid q List.mem_cons_self
    have hq' := Point.defaultKey_of_key_ne_nil hkey
    simp only [stepPost, pointsMerge_p, hq']
    rcases Classical.em (q.pair = k) with hpair | hpair
    · -- this is the point, and from now on it is shown
      have hmerge := slotsOf_pointsMerge_of_eq hrep hq (hq'.symm ▸ hpair)
      rw [hq'] at hmerge
      right
      rcases h with h | h
      · obtain rfl : q = p := h.only q List.mem_cons_self hpair
        exact ⟨hmerge h.slot, fun r hr hk => (h.backlog r hr hk).elim, h.only⟩
      · obtain rfl : q = p := h.unpublished q List.mem_cons_self hpair
        refine ⟨hmerge ?_, h.backlog, h.unpublished⟩
        rw [h.slot]
        exact List.cons_ne_nil _ _
    · have hmerge := slotsOf_pointsMerge_of_ne hrep hq (hq'.symm ▸ hpair)
      refine h.imp (fun h => ?_) fun h => ⟨hmerge.trans h.slot, h.backlog, h.unpublished⟩
      refine ⟨hmerge ▸ h.slot, h.backlog, List.forall_mem_singleton.mpr hpair, ?_,
        fun r hr => h.only r (List.mem_cons_of_mem _ hr)⟩
      obtain ⟨hmem, hp⟩ := h.point
      exact ⟨(List.mem_cons.mp hmem).resolve_left fun e => hpair (e ▸ hp), hp⟩
  · have hbacklog : (web.receive q).backlog = web.backlog ++ [q] := web.backlog_receive q
    refine h.imp (fun h => ⟨h.slot, ?_, List.forall_mem_nil _, h.point, h.only⟩)
      fun h => ⟨h.slot, ?_, fun r hr => h.unpublished r (List.mem_cons_of_mem _ hr)⟩
    · intro r hr
      change r ∈ (web.receive q).backlog at hr
      rw [hbacklog] at hr
      rcases List.mem_append.mp hr with hr | hr
      · exact h.backlog r hr
      · exact h.ahead r hr
    · intro r hr
      change r ∈ (web.receive q).backlog at hr
      rw [hbacklog] at hr
      rcases List.mem_append.mp hr with hr | hr
      · exact h.backlog r hr
      · exact List.mem_singleton.mp hr ▸ h.unpublished q List.mem_cons_self

/-- `web_thread` merges a message, which is not of the pair, or is the point again. -/
theorem coming_or_shown_handle {n : Nat} (hf : Following n s) (h : Coming k p s ∨ Shown k p s) :
    Coming k p s.handle ∨ Shown k p s.handle := by
  obtain ⟨w, hw⟩ := hf.web
  obtain ⟨hvalid, -⟩ := following_valid hf
  have hrep := hw.represents
  rw [handle]
  split
  · next hpost =>
    have h : Shown k p s := h.resolve_left fun h => by
      have hmem := h.point.1
      rw [unmerged, hpost] at hmem
      exact List.not_mem_nil hmem
    cases hheld : s.web.held with
    | none =>
      rw [StoreThread.handle, hheld]
      exact .inr h
    | some q =>
      have hbacklog : s.web.backlog = q :: s.web.queue := by rw [StoreThread.backlog, hheld]; rfl
      obtain ⟨hq, hkey⟩ := hvalid q (hbacklog ▸ List.mem_cons_self)
      have hq' := Point.defaultKey_of_key_ne_nil hkey
      have hrest : Only k p s.web.queue := fun r hr =>
        h.backlog r (hbacklog ▸ List.mem_cons_of_mem _ hr)
      rw [StoreThread.handle, hheld]
      refine .inr ⟨?_, hrest, h.unpublished⟩
      rcases Classical.em (q.pair = k) with hpair | hpair
      · obtain rfl : q = p := h.backlog q (hbacklog ▸ List.mem_cons_self) hpair
        have hmerge := slotsOf_pointsMerge_of_eq hrep hq (hq'.symm ▸ hpair)
        rw [hq'] at hmerge
        refine hmerge ?_
        rw [h.slot]
        exact List.cons_ne_nil _ _
      · exact (slotsOf_pointsMerge_of_ne hrep hq (hq'.symm ▸ hpair)).trans h.slot
  · exact h

/-- Whatever the threads do, as long as nobody else has a point of the pair. -/
theorem coming_or_shown_step {n : Nat} (hf : Following n s) {a : WebAction}
    (ha : ∀ q ∈ a.points, q.pair ≠ k) (h : Coming k p s ∨ Shown k p s) :
    Coming k p (webThreadsStep s a) ∨ Shown k p (webThreadsStep s a) := by
  have hweb {t : WebThreads} (hslot : t.web.pts = s.web.pts)
      (hbacklog : t.web.backlog = s.web.backlog) (hpost : t.post = s.post) :
      Coming k p t ∨ Shown k p t := by
    refine h.imp (fun h => ?_) fun h => ?_
    · refine ⟨hslot ▸ h.slot, hbacklog ▸ h.backlog, ?_, ?_, ?_⟩
      · rw [ahead, hpost]
        exact h.ahead
      · rw [unmerged, hpost]
        exact h.point
      · rw [unmerged, hpost]
        exact h.only
    · refine ⟨hslot ▸ h.slot, hbacklog ▸ h.backlog, ?_⟩
      rw [unpublished, hpost]
      exact h.unpublished
  cases a with
  | lock pts =>
    simp only [webThreadsStep, lock]
    split
    · next hpost =>
      refine .inr ?_
      have h : Shown k p s := h.resolve_left fun h => by
        have hmem := h.point.1
        rw [unmerged, hpost] at hmem
        exact List.not_mem_nil hmem
      exact ⟨h.slot, h.backlog, fun q hq hk => (ha q hq hk).elim⟩
    · exact h
  | post => exact coming_or_shown_stepPost hf h
  | publish q =>
    have hq : q.pair ≠ k := ha q (List.mem_singleton_self q)
    have hbacklog : (s.zbusChanPub q).web.backlog = s.web.backlog ++ [q] := s.web.backlog_receive q
    refine h.imp (fun h => ⟨h.slot, ?_, h.ahead, h.point, h.only⟩)
      fun h => ⟨h.slot, ?_, h.unpublished⟩
    · rw [webThreadsStep, hbacklog, List.forall_mem_append]
      exact ⟨h.backlog, List.forall_mem_singleton.mpr hq⟩
    · rw [webThreadsStep, hbacklog]
      intro r hr hk
      rcases List.mem_append.mp hr with hr | hr
      · exact h.backlog r hr hk
      · exact (hq (List.mem_singleton.mp hr ▸ hk)).elim
  | waitMsg => exact hweb (StoreThread.pts_waitMsg _) (StoreThread.backlog_waitMsg _) rfl
  | handle => exact coming_or_shown_handle hf h
  | cacheWaitMsg => exact hweb rfl rfl rfl
  | cacheHandle => exact hweb rfl rfl rfl

/-- When the POST has answered, its point is shown. -/
theorem Coming.shown_run {n : Nat} (h : Coming k p s) (hf : Following n s) {actions : List WebAction}
    (hactions : ∀ a ∈ actions, ∀ q ∈ a.points, (q.Valid ∧ q.key.str ≠ []) ∧ q.pair ≠ k)
    (hdone : (Machine.run webThreadsStep s actions).post = none) :
    slotsOf (Machine.run webThreadsStep s actions).web.pts k = [p] := by
  obtain ⟨-, hrun⟩ := Machine.run_invariant
    (I := fun t => Following n t ∧ (Coming k p t ∨ Shown k p t))
    (P := fun a : WebAction => ∀ q ∈ a.points, (q.Valid ∧ q.key.str ≠ []) ∧ q.pair ≠ k)
    (fun t a ha h => ⟨h.1.step fun q hq => (ha q hq).1,
      coming_or_shown_step h.1 (fun q hq => (ha q hq).2) h.2⟩) ⟨hf, .inl h⟩ hactions
  refine (hrun.resolve_left fun h => ?_).slot
  have hmem := h.point.1
  rw [unmerged, hdone] at hmem
  exact List.not_mem_nil hmem

end WebThreads
end

/-! ## The device -/

section
variable {J : JsonLib} {timegm : Tm → Int} {sh : Bool} {table : List NvsPoint} {Z : Zms}
  {k : Bytes × Bytes} {p : Point}

theorem NvsThreads.pc_run_of_done {t : NvsThreads Z} (h : t.pc = .done) (actions : List NvsAction) :
    (Machine.run (nvsThreadsStep table) t actions).pc = .done := by
  refine Machine.run_invariant (P := fun _ => True) (I := fun t : NvsThreads Z => t.pc = .done)
    (fun t a _ h => ?_) h fun _ _ => trivial
  rcases eq_or_ne a .init with rfl | ha
  · rwa [nvsThreadsStep, init, h]
  · exact (nvsThreadsStep_frame table t ha).1.trans h

/-- When `nvs_init` is done, the points that the threads around the stores get are those that come
in. -/
theorem Device.exists_keyed_run {P : Point → Prop} {s : Device Z} (hdone : s.nvs.pc = .done)
    {as : List DeviceAction} (has : ∀ a ∈ as, ∀ q ∈ a.points J timegm, P q.defaultKey) :
    ∃ actions : List WebAction, (∀ a ∈ actions, ∀ q ∈ a.points, P q) ∧
      (Machine.run (deviceStep J timegm sh table) s as).threads.keyed =
        Machine.run webThreadsStep s.threads.keyed actions := by
  refine ⟨_, WebThreads.forall_points_keyed ?_, (congrArg WebThreads.keyed
    (Machine.run_view (f := Device.threads) Device.threads_step as)).trans
      (WebThreads.keyed_run ..)⟩
  refine Machine.forall_mem_passed (I := fun s : Device Z => s.nvs.pc = .done)
    (P := fun a => ∀ q ∈ a.points J timegm, P q.defaultKey) (fun s a _ h => ?_)
    (fun s a ha h => ?_) hdone has
  · rw [Device.nvs_step]
    exact NvsThreads.pc_run_of_done h _
  · refine Device.forall_webActions (P := fun q => P q.defaultKey) ha fun npt rest hpc => ?_
    rw [h] at hpc
    cases hpc

/-- A POST that takes the lock while nothing of the pair is left to merge: when it has answered, its
point is shown. -/
theorem Device.shown_run {n : Nat} {s s' : Device Z}
    (hfollowing : WebThreads.Following n s.threads.keyed)
    (hinit : s.nvs.pc = .done) (hidle : s.threads.post = none)
    (hslot : slotsOf s.threads.web.pts k ≠ [])
    (hquiet : ∀ q ∈ s.threads.web.backlog, q.defaultKey.pair ≠ k) {ptsJs : PointJsArray}
    {payload : Bytes} {pts : List Point} (hbody : decodedBody J ptsJs payload = some pts)
    (hpts : ∀ q ∈ pts, q.Valid)
    (hone : (pts.map Point.defaultKey).filter (·.pair = k) = [p]) {as : List DeviceAction}
    (has : ∀ a ∈ as, ∀ q ∈ a.points J timegm, q.Valid ∧ q.defaultKey.pair ≠ k)
    (hs' : s' = Machine.run (deviceStep J timegm sh table) s (.request ptsJs payload :: as))
    (hdone : s'.threads.post = none) : slotsOf s'.threads.web.pts k = [p] := by
  have hlock : (s.request J ptsJs payload).threads = s.threads.lock pts := by
    rw [Device.request, hbody]
  have hnvs : (s.request J ptsJs payload).nvs = s.nvs := by
    rw [Device.request, hbody]
  have hlocked : (s.request J ptsJs payload).threads.keyed =
      webThreadsStep s.threads.keyed (.lock (pts.map Point.defaultKey)) := by
    rw [hlock]
    exact WebThreads.keyed_step s.threads (.lock pts)
  -- the POST has the lock, and still to merge the point
  have hcoming : WebThreads.Coming k p (s.request J ptsJs payload).threads.keyed := by
    have hpost : (s.request J ptsJs payload).threads.keyed.post =
        some (.merge (pts.map Point.defaultKey)) := by
      rw [hlock, WebThreads.lock, hidle]
      rfl
    have hweb : (s.request J ptsJs payload).threads.keyed.web = s.threads.web.keyed := by
      rw [hlock, WebThreads.lock, hidle]
      rfl
    obtain ⟨hmem, hpair⟩ := List.mem_filter.mp (hone ▸ List.mem_singleton_self p)
    refine ⟨hweb ▸ hslot, ?_, ?_, ?_, ?_⟩
    · rw [hweb, StoreThread.backlog_keyed]
      exact List.forall_mem_map.mpr hquiet
    · rw [WebThreads.ahead, hpost]
      exact List.forall_mem_nil _
    · rw [WebThreads.unmerged, hpost]
      exact ⟨hmem, of_decide_eq_true hpair⟩
    · rw [WebThreads.unmerged, hpost]
      intro q hq hk
      have hmem : q ∈ (pts.map Point.defaultKey).filter (·.pair = k) :=
        List.mem_filter.mpr ⟨hq, decide_eq_true hk⟩
      exact List.mem_singleton.mp (hone ▸ hmem)
  have hstarted : WebThreads.Following n (s.request J ptsJs payload).threads.keyed := by
    rw [hlocked]
    exact hfollowing.step (List.forall_mem_map.mpr fun q hq =>
      ⟨(hpts q hq).defaultKey, Point.defaultKey_key_str_ne_nil⟩)
  obtain ⟨rest, hrest, hview⟩ := Device.exists_keyed_run (s := s.request J ptsJs payload)
    (P := fun q => (q.Valid ∧ q.key.str ≠ []) ∧ q.pair ≠ k) (hnvs ▸ hinit) fun a ha q hq =>
      ⟨⟨(has a ha q hq).1.defaultKey, Point.defaultKey_key_str_ne_nil⟩, (has a ha q hq).2⟩
  have hs'' : s'.threads.keyed =
      Machine.run webThreadsStep (s.request J ptsJs payload).threads.keyed rest :=
    hs' ▸ hview
  have hshown := hcoming.shown_run hstarted hrest (by rw [← hs'', WebThreads.keyed, hdone]; rfl)
  rwa [← hs''] at hshown

/-- **Read your writes.** A pair has a slot, and no message of it is left for `web_thread`. When a
POST with one point of the pair has answered, the slot shows that point as long as nobody else
publishes one. -/
theorem post_readable (htable : Named table) (hshort : ShortNamed table) {b : Boot} {fs : Z.State}
    (hactions : ∀ a ∈ b.actions, ∀ q ∈ a.points J timegm, q.Valid) {formatFloat : UInt32 → Bytes}
    (hdescribable : ∀ a ∈ b.actions, a.Describable formatFloat J) {s s' : Device Z}
    (hs : s = b.run J timegm sh table fs) (hinit : s.nvs.pc = .done) (hidle : s.threads.post = none)
    (hslot : slotsOf s.threads.web.pts k ≠ [])
    (hquiet : ∀ q ∈ s.threads.web.backlog, q.defaultKey.pair ≠ k) {ptsJs : PointJsArray}
    {payload : Bytes} {pts : List Point} (hbody : decodedBody J ptsJs payload = some pts)
    (hpts : ∀ q ∈ pts, q.Valid) (hheads : HeadsFit formatFloat 128 0 pts)
    (hone : (pts.map Point.defaultKey).filter (·.pair = k) = [p]) {as : List DeviceAction}
    (has : ∀ a ∈ as, a.Describable formatFloat J ∧
      ∀ q ∈ a.points J timegm, q.Valid ∧ q.defaultKey.pair ≠ k)
    (hs' : s' = Machine.run (deviceStep J timegm sh table) s (.request ptsJs payload :: as))
    (hdone : s'.threads.post = none) :
    s'.DumpsFit formatFloat ∧ slotsOf s'.threads.web.pts k = [p] := by
  constructor
  · rw [hs', hs]
    refine b.dumpsFit_run hshort hdescribable (List.forall_mem_cons.mpr
      ⟨?_, fun a ha => (has a ha).1⟩)
    rwa [DeviceAction.Describable, hbody]
  · have hfollowing : WebThreads.Following b.cacheSize s.threads.keyed :=
      hs ▸ b.following htable hactions
    exact Device.shown_run hfollowing hinit hidle hslot hquiet hbody hpts hone
      (fun a ha => (has a ha).2) hs' hdone

end

/-- A boot after which `web_points` has all settings. -/
def idleBoot : Boot where
  cacheSize := 40
  uint32Buf := 0
  stringBuf := .zero 20
  actions := .replicate 21 .nvsInit ++ (List.replicate 6 [.webWaitMsg, .webHandle]).flatten

/-- The description is read back while the messages of the POST are still on their way. -/
theorem post_readable_description :
    let description := (Point.zero.setTypeKey (lit "description") (lit "0")).putString (lit "barn")
    let s' : Device .reference :=
      Machine.run (deviceStep .reference gregorianTimegm true siotNetNvsPts)
      (idleBoot.run .reference gregorianTimegm true siotNetNvsPts fun _ => none)
      (.request .zero
        (lit "[\x7b\"t\":\"description\",\"k\":\"0\",\"dt\":\"STR\",\"d\":\"barn\"\x7d]") ::
          ((siotMetrics 0x42280000 9).map .publish ++ .replicate 3 .post ++ [.webWaitMsg, .webHandle]))
    s'.DumpsFit (fun _ => []) ∧
      slotsOf s'.threads.web.pts (lit "description", lit "0") = [description] :=
  post_readable (b := idleBoot) (by decide) (by decide) (by decide +kernel) (by decide +kernel) rfl
    (by decide +kernel) (by decide +kernel) (by decide +kernel) (by decide +kernel) rfl
    (by decide +kernel) (by decide +kernel) (by decide +kernel) (by decide +kernel) rfl
    (by decide +kernel)

end ZephyrSiot
