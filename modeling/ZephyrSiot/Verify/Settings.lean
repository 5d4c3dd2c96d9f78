import ZephyrSiot.Verify.Reboot

/-!
# Settings that survive a reboot

What `web_points` shows of a persisted point when all messages have been handled is what the next
boot publishes (`settings_survive`): the flash follows what was published last, with the messages
of the store thread between them (`NvsLog.Follows`).
-/

namespace ZephyrSiot
open CStr KeyedStore

section
variable {Z : Zms} {table : List NvsPoint} {e npt : NvsPoint} {rest : List NvsPoint}

/-! ## The store thread and what was published -/

/-- The threads of `lib/nvs.c`, and what was published since the boot. -/
structure NvsLog (Z : Zms) where
  nvs : NvsThreads Z
  log : List Point

namespace NvsLog
variable {s s' : NvsLog Z}

/-- What an action puts on `point_chan`. -/
def published (s : NvsThreads Z) : NvsAction → List Point
  | .init => match s.pc with
    | .publish npt _ => [nvsInit.message npt s.locals]
    | _ => []
  | .publish p => [p]
  | _ => []

def step (table : List NvsPoint) (s : NvsLog Z) (a : NvsAction) : NvsLog Z :=
  ⟨nvsThreadsStep table s.nvs a, s.log ++ published s.nvs a⟩

/-- Nothing was published of the entry yet, and its record has a value. -/
structure Early (e : NvsPoint) (s : NvsLog Z) : Prop where
  reads : ∃ v, e.Reads v (s.nvs.stored e)
  messages : s.nvs.messages e = []
  silent : e.pair ∉ s.log.map Point.pair

/-- The flash has the value published last of the entry, or will get it: the last message of the
entry is that point. Before `nvs_init` is done no message gets into the flash, which has the value
already. -/
structure Late (e : NvsPoint) (s : NvsLog Z) (q : Point) : Prop where
  latest : latest Point.pair s.log e.pair = some q
  declares : e.Declares q
  messages : ∀ p ∈ s.nvs.messages e, e.Declares p
  last : ∀ p, (s.nvs.messages e).getLast? = some p → p = q
  reads : ∃ v, e.Reads v (s.nvs.stored e) ∧
    (s.nvs.messages e = [] ∨ s.nvs.pc ≠ .done → v = e.value q)

/-- Between two entries. -/
def Between (e : NvsPoint) (s : NvsLog Z) (rest : List NvsPoint) : Prop :=
  e.OnceIn rest ∧ Early e s ∨ (∀ npt ∈ rest, e.Other npt) ∧ ∃ q, Late e s q

/-- The entry was read, and its record is read as the value of the point. -/
structure Read (e : NvsPoint) (s : NvsLog Z) : Prop where
  early : Early e s
  declares : e.Declares (nvsInit.message e s.nvs.locals)
  value : e.Reads (e.value (nvsInit.message e s.nvs.locals)) (s.nvs.stored e)

/-- What holds at each place of `nvs_init`. -/
def Follows (e : NvsPoint) (s : NvsLog Z) : Prop :=
  match s.nvs.pc with
  | .read rest => Between e s rest
  | .increment npt rest | .publish npt rest =>
    e.Other npt ∧ Between e s rest ∨ npt = e ∧ (∀ npt ∈ rest, e.Other npt) ∧ Read e s
  | _ => ∃ q, Late e s q

/-- A point of the entry is published by others only when the store thread is up and `nvs_init` is
done. -/
def Heard (e : NvsPoint) (s : NvsThreads Z) (a : NvsAction) : Prop :=
  ∀ p, a = .publish p → p.pair = e.pair → e.Declares p ∧ s.pc = .done ∧ s.observing

/-! ## Steps that have nothing to do with the entry -/

/-- Its record is left alone, and nothing is published of it. Its messages are handled without
effect as long as `nvs_init` is not done. -/
structure Quiet (e : NvsPoint) (s s' : NvsLog Z) : Prop where
  stored : s'.nvs.stored e = s.nvs.stored e
  messages : s'.nvs.messages e <:+ s.nvs.messages e
  done : s.nvs.pc = .done → s'.nvs.pc = .done ∧ s'.nvs.messages e = s.nvs.messages e
  log : ∃ ps, s'.log = s.log ++ ps ∧ e.pair ∉ ps.map Point.pair

theorem Early.quiet (h : Early e s) (hq : Quiet e s s') : Early e s' := by
  obtain ⟨ps, hlog, hps⟩ := hq.log
  refine ⟨hq.stored ▸ h.reads, List.suffix_nil.mp (h.messages ▸ hq.messages), ?_⟩
  rw [hlog, List.map_append, List.mem_append]
  exact not_or.mpr ⟨h.silent, hps⟩

theorem Late.quiet {q : Point} (h : Late e s q) (hq : Quiet e s s') : Late e s' q := by
  obtain ⟨ps, hlog, hps⟩ := hq.log
  obtain ⟨v, hreads, hv⟩ := h.reads
  refine ⟨?_, h.declares, fun p hp => h.messages p (hq.messages.subset hp), fun p hp => ?_, v,
    hq.stored ▸ hreads, fun hend => hv ?_⟩
  · rw [hlog, latest_append_of_notMem _ hps]
    exact h.latest
  · obtain ⟨handled, he⟩ := hq.messages
    refine h.last p ?_
    rw [← he, List.getLast?_append, hp]
    rfl
  · rcases Classical.em (s.nvs.pc = .done) with hpc | hpc
    · obtain ⟨hpc', he⟩ := hq.done hpc
      exact .inl (he ▸ hend.resolve_right fun hne => hne hpc')
    · exact .inr hpc

theorem Between.quiet (h : Between e s rest) (hq : Quiet e s s') : Between e s' rest :=
  h.imp (And.imp_right fun he => he.quiet hq)
    (And.imp_right fun ⟨q, hl⟩ => ⟨q, hl.quiet hq⟩)

theorem Follows.quiet (h : Follows e s) (hq : Quiet e s s') (hpc : s'.nvs.pc = s.nvs.pc)
    (hlocals : s'.nvs.locals = s.nvs.locals) : Follows e s' := by
  have hread (hr : Read e s) : Read e s' := by
    refine ⟨hr.early.quiet hq, ?_, ?_⟩
    · rw [hlocals]
      exact hr.declares
    · rw [hlocals, hq.stored]
      exact hr.value
  have hentry {npt rest} (he : e.Other npt ∧ Between e s rest ∨
      npt = e ∧ (∀ npt ∈ rest, e.Other npt) ∧ Read e s) :
      e.Other npt ∧ Between e s' rest ∨ npt = e ∧ (∀ npt ∈ rest, e.Other npt) ∧ Read e s' :=
    he.imp (And.imp_right fun hb => hb.quiet hq) (And.imp_right (And.imp_right hread))
  unfold Follows at h ⊢
  rw [hpc]
  split at h
  · exact Between.quiet h hq
  · exact hentry h
  · exact hentry h
  · exact h.imp fun q hl => hl.quiet hq

/-! ## The main thread -/

theorem stored_zbusChanPub {t : NvsThreads Z} (p : Point) :
    (t.zbusChanPub p).stored e = t.stored e := congrArg (Z.contents · _) (by simp)

theorem Between.tail (h : Between e s (npt :: rest)) :
    e.Other npt ∧ Between e s rest ∨ npt = e ∧ (∀ npt ∈ rest, e.Other npt) ∧ Early e s := by
  rcases h with ⟨hin, he⟩ | ⟨hall, hl⟩
  · cases hin with
    | here hrest => exact .inr ⟨rfl, hrest, he⟩
    | there hother hin => exact .inl ⟨hother, .inl ⟨hin, he⟩⟩
  · rw [List.forall_mem_cons] at hall
    exact .inl ⟨hall.1, .inr ⟨hall.2, hl⟩⟩

/-- The point of the entry is published, when its record has the value. -/
theorem Read.publish {t : NvsThreads Z} (h : Read e s) (hkeep : e.publishedPair = e.pair)
    (hstored : t.stored e = s.nvs.stored e) (hmessages : t.messages e = s.nvs.messages e) :
    Late e ⟨t.zbusChanPub (nvsInit.message e s.nvs.locals),
      s.log ++ [nvsInit.message e s.nvs.locals]⟩ (nvsInit.message e s.nvs.locals) := by
  have hpair : (nvsInit.message e s.nvs.locals).pair = e.pair := (message_pair ..).trans hkeep
  obtain ⟨hearly, hdeclares, hvalue⟩ := h
  generalize nvsInit.message e s.nvs.locals = q at hdeclares hvalue hpair
  have hsub : ((t.zbusChanPub q).messages e).Sublist [q] := by
    rw [messages_zbusChanPub, hmessages, hearly.messages, List.nil_append]
    exact List.filter_sublist.trans (by split <;> simp)
  have hone {p} (hp : p ∈ (t.zbusChanPub q).messages e) : p = q :=
    List.mem_singleton.mp (hsub.subset hp)
  refine ⟨?_, hdeclares, fun p hp => hone hp ▸ hdeclares,
    fun p hp => hone (List.mem_of_getLast? hp), e.value q, ?_, fun _ => rfl⟩
  · exact hpair ▸ latest_of_notMem_rest s.log List.not_mem_nil
  · change e.Reads _ ((t.zbusChanPub q).stored e)
    rwa [stored_zbusChanPub, hstored]

theorem Follows.init (hZ : Z.Lawful) (ht : IsNvsTable table) (he : e ∈ table) (hkept : e.Kept)
    (hcount : ¬ e.CountsBoots) (h : Follows e s) : Follows e (step table s .init) := by
  have hne {npt} (hother : e.Other npt) : e.nvsId.toNat ≠ npt.nvsId.toNat :=
    fun hid => hother.id (UInt16.toNat_inj.mp hid.symm)
  have hquiet {t : NvsThreads Z} (hpc : s.nvs.pc ≠ .done) (hstored : t.stored e = s.nvs.stored e)
      (hmessages : t.messages e = s.nvs.messages e) : Quiet e s ⟨t, s.log ++ []⟩ :=
    ⟨hstored, hmessages ▸ List.suffix_refl _, fun h => (hpc h).elim, [], rfl, List.not_mem_nil⟩
  unfold Follows at h
  unfold step published nvsThreadsStep NvsThreads.init
  cases hpc : s.nvs.pc with rw [hpc] at h
  | read rest =>
    have hpc' : s.nvs.pc ≠ .done := by simp [hpc]
    cases rest with
    | nil =>
      rcases h with ⟨hin, -⟩ | ⟨-, q, hl⟩
      · cases hin
      · exact ⟨q, hl.quiet (hquiet hpc' rfl rfl)⟩
    | cons npt rest =>
      rcases h.tail with ⟨hother, hb⟩ | ⟨rfl, hrest, hearly⟩
      · dsimp only
        split
        · exact hb.quiet (hquiet hpc' rfl rfl)
        · next hread =>
          refine .inl ⟨hother, hb.quiet (hquiet hpc' ?_ rfl)⟩
          exact contents_read_of_ne hZ hread (hne hother)
      · obtain ⟨v, hreads⟩ := hearly.reads
        obtain ⟨fs, w, hread, hstored, hvalue, hdeclares⟩ :=
          readsEntry hZ (w := s.nvs.locals) hkept hreads
        simp only [hread]
        refine .inr ⟨rfl, hrest, ⟨⟨v, hstored⟩, hearly.messages, ?_⟩, hdeclares, ?_⟩
        · rw [List.append_nil]
          exact hearly.silent
        · exact hvalue.symm ▸ hstored
  | increment npt rest =>
    have hpc' : s.nvs.pc ≠ .done := by simp [hpc]
    rcases h with ⟨hother, hb⟩ | ⟨rfl, hrest, hread⟩
    · refine .inl ⟨hother, hb.quiet (hquiet hpc' ?_ rfl)⟩
      exact contents_increment_of_ne hZ (hne hother)
    · have hfs : nvsInit.increment Z npt s.nvs.fs s.nvs.locals = s.nvs.fs := if_neg hcount
      dsimp only
      rw [hfs]
      refine .inr ⟨rfl, hrest, hread.early.quiet (hquiet hpc' rfl rfl), hread.declares, ?_⟩
      exact hread.value
  | publish npt rest =>
    have hpair := message_pair npt s.nvs.locals
    dsimp only
    rw [Follows, NvsThreads.zbusChanPub_pc]
    rcases h with ⟨hother, hb⟩ | ⟨rfl, hrest, hread⟩
    · have hne : (nvsInit.message npt s.nvs.locals).pair ≠ e.pair := hpair ▸ hother.pair
      refine hb.quiet ⟨stored_zbusChanPub .., ?_, fun h => ?_, _, rfl, ?_⟩
      · rw [messages_zbusChanPub_of_ne hne]
        exact List.suffix_refl _
      · rw [hpc] at h
        cases h
      · simpa using hne.symm
    · exact .inr ⟨hrest, _, hread.publish (ht.publishedPair_eq he) rfl rfl⟩
  | setPts =>
    exact h.imp fun q hl => hl.quiet (hquiet (by simp [hpc]) rfl rfl)
  | setCount =>
    exact h.imp fun q hl => hl.quiet (hquiet (by simp [hpc]) rfl rfl)
  | done =>
    dsimp only
    rw [Follows, hpc, List.append_nil]
    exact h

/-! ## The store thread -/

/-- Once `nvs_init` is done, a message of the entry gets into the flash. -/
theorem overwrites_of_done {t : NvsThreads Z} (ht : IsNvsTable table) (he : e ∈ table)
    (hguard : Guarded table t) (hpc : t.pc = .done) {p : Point} (hheld : t.held = some p)
    (hpair : p.pair = e.pair) : Overwrites e t .handle := by
  have hsearched : t.searched = table := by
    rw [Guarded, hpc] at hguard
    rw [NvsThreads.searched, hguard.1, hguard.2, List.take_length]
  refine ⟨rfl, p, hheld, ?_⟩
  rw [hsearched, pointTypeKeyToNvsId_eq, ht.find?_eq he hpair.symm]

theorem Follows.handle (hZ : Z.Lawful) (ht : IsNvsTable table) (he : e ∈ table) (hkept : e.Kept)
    (hguard : Guarded table s.nvs) (h : Follows e s) : Follows e (step table s .handle) := by
  obtain ⟨hpc, hlocals, -, -⟩ := NvsThreads.nvsThreadsStep_frame table s.nvs (a := .handle) (by simp)
  rcases Classical.em (Overwrites e s.nvs .handle) with hover | hover
  · obtain ⟨hdone, p, hheld, hmem, hid⟩ := hover.spec hguard (ht.onceIn he)
    have hpair : p.pair = e.pair := of_decide_eq_true (List.mem_filter.mp hmem).2
    have hmessages : s.nvs.messages e = p :: s.nvs.handle.messages e := by
      rw [messages_of_held hheld, List.filter_singleton, decide_eq_true hpair]
      rfl
    rw [Follows, hdone] at h
    obtain ⟨q, hlatest, hdeclares, hall, hlast, -⟩ := h
    rw [hmessages] at hall hlast
    obtain ⟨hp, hall⟩ := List.forall_mem_cons.mp hall
    obtain ⟨hne, hreads⟩ := NvsPoint.reads_stored hkept hp
    have hstored : s.nvs.handle.stored e = some (p.data.bytes.take p.dataLen) := by
      simp only [NvsThreads.stored, NvsThreads.handle, hheld]
      exact contents_nvsStoreHandlePoint_of_eq hZ (s := ⟨s.nvs.fs, s.nvs.searched, s.nvs.dumps⟩) hid hne
    rw [Follows, step, hpc, hdone]
    refine ⟨q, ?_, hdeclares, hall, fun r hr => hlast r ?_, e.value p, ?_, fun hend => ?_⟩
    · exact (List.append_nil s.log).symm ▸ hlatest
    · rw [List.getLast?_cons, show (s.nvs.handle.messages e).getLast? = some r from hr]
      rfl
    · exact hstored.symm ▸ hreads
    · have hnil : s.nvs.handle.messages e = [] := hend.resolve_right fun h => h (hpc.trans hdone)
      rw [hlast p (by rw [hnil]; rfl)]
  · refine h.quiet ⟨stored_handle_of_not_overwrites hZ hover, ?_, fun hdone => ⟨hpc.trans hdone, ?_⟩,
      [], rfl, List.not_mem_nil⟩ hpc hlocals
    · cases hheld : s.nvs.held with
      | none => rw [step, nvsThreadsStep, NvsThreads.handle, hheld]
      | some p =>
        rw [messages_of_held hheld]
        exact List.suffix_append ..
    · cases hheld : s.nvs.held with
      | none => rw [step, nvsThreadsStep, NvsThreads.handle, hheld]
      | some p =>
        have hpair : p.pair ≠ e.pair := fun h =>
          hover (overwrites_of_done ht he hguard hdone hheld h)
        rw [messages_of_held hheld, List.filter_singleton, decide_eq_false hpair]
        rfl

theorem Follows.publish (h : Follows e s) {p : Point} (hheard : Heard e s.nvs (.publish p)) :
    Follows e (step table s (.publish p)) := by
  have hpc : (step table s (.publish p)).nvs.pc = s.nvs.pc := NvsThreads.zbusChanPub_pc ..
  rcases Classical.em (p.pair = e.pair) with hpair | hpair
  · obtain ⟨hdeclares, hdone, hobs⟩ := hheard p rfl hpair
    have hmessages : (step table s (.publish p)).nvs.messages e = s.nvs.messages e ++ [p] := by
      rw [step, nvsThreadsStep, messages_zbusChanPub, if_pos hobs, List.filter_singleton,
        decide_eq_true hpair]
      rfl
    rw [Follows, hdone] at h
    obtain ⟨q, -, -, hall, -, v, hreads, -⟩ := h
    rw [Follows, hpc, hdone]
    refine ⟨p, hpair ▸ latest_of_notMem_rest s.log List.not_mem_nil, hdeclares, ?_, ?_, v, ?_, ?_⟩
    · rw [hmessages, List.forall_mem_append]
      exact ⟨hall, List.forall_mem_singleton.mpr hdeclares⟩
    · intro r hr
      rw [hmessages, List.getLast?_concat] at hr
      exact (Option.some.inj hr).symm
    · exact (stored_zbusChanPub (t := s.nvs) p).symm ▸ hreads
    · rintro (hnil | hne)
      · rw [hmessages] at hnil
        exact absurd hnil (by simp)
      · exact (hne (hpc.trans hdone)).elim
  · have hmessages := messages_zbusChanPub_of_ne (s := s.nvs) hpair
    refine h.quiet ⟨stored_zbusChanPub .., ?_, fun hdone => ⟨hpc.trans hdone, hmessages⟩, [p], rfl,
      by simpa using Ne.symm hpair⟩ hpc ?_
    · exact hmessages ▸ List.suffix_refl _
    · exact (NvsThreads.nvsThreadsStep_frame table s.nvs (by simp)).2.1

/-- **The flash follows** what is published, with every step of the two threads. -/
theorem Follows.step (hZ : Z.Lawful) (ht : IsNvsTable table) (he : e ∈ table) (hkept : e.Kept)
    (hcount : ¬ e.CountsBoots) (hguard : Guarded table s.nvs) {a : NvsAction}
    (hheard : Heard e s.nvs a) (h : Follows e s) : Follows e (step table s a) := by
  cases a with
  | init => exact h.init hZ ht he hkept hcount
  | addObs =>
    exact h.quiet ⟨rfl, List.suffix_refl _, fun hpc => ⟨hpc, rfl⟩, [], rfl, List.not_mem_nil⟩ rfl rfl
  | waitMsg =>
    obtain ⟨hpc, hlocals, -, -⟩ :=
      NvsThreads.nvsThreadsStep_frame table s.nvs (a := .waitMsg) (by simp)
    have hfs : s.nvs.waitMsg.fs = s.nvs.fs := by
      rw [NvsThreads.waitMsg]
      split <;> rfl
    have hmessages := messages_waitMsg (e := e) (s := s.nvs)
    refine h.quiet ⟨congrArg (Z.contents · _) hfs, ?_, fun hdone => ⟨hpc.trans hdone, hmessages⟩, [],
      rfl, List.not_mem_nil⟩ hpc hlocals
    exact hmessages ▸ List.suffix_refl _
  | handle => exact h.handle hZ ht he hkept hguard
  | publish p => exact h.publish hheard

/-- Points that others publish one after another. -/
theorem run_publish (ps : List Point) : Machine.run (step table) s (ps.map .publish) =
    ⟨Machine.run (nvsThreadsStep table) s.nvs (ps.map .publish), s.log ++ ps⟩ := by
  induction ps generalizing s with
  | nil => rw [List.append_nil]; rfl
  | cons p ps ih =>
    rw [List.map_cons, Machine.run_cons, ih, List.append_cons]
    rfl

end NvsLog

/-! ## The device -/

namespace Device
variable {J : JsonLib} {timegm : Tm → Int} {sh : Bool} {s : Device Z}

def nvsLog (s : Device Z) : NvsLog Z := ⟨s.nvs, s.threads.published⟩

variable (J timegm sh table) in
theorem nvsLog_step (s : Device Z) (a : DeviceAction) :
    (deviceStep J timegm sh table s a).nvsLog =
      Machine.run (NvsLog.step table) s.nvsLog (s.nvsActions timegm a) := by
  rw [nvsLog, nvs_step, threads_published_step]
  cases a with
  | nvsInit => rfl
  | nvsAddObs => rfl
  | nvsWaitMsg => rfl
  | nvsHandle => rfl
  | _ => exact (NvsLog.run_publish (s := s.nvsLog) _).symm

/-- What is published, but by `nvs_init`. -/
def publishedByOthers (timegm : Tm → Int) (s : Device Z) : DeviceAction → List Point
  | .nvsInit => []
  | a => s.published timegm a

/-- A point of an entry that is not from `nvs_init` is published with the key of the entry, which
may be "0" but not blank, when the store thread is up and `nvs_init` is done. -/
def Heard (timegm : Tm → Int) (table : List NvsPoint) (s : Device Z) (a : DeviceAction) : Prop :=
  ∀ p ∈ s.publishedByOthers timegm a, ∀ e ∈ table, p.defaultKey.pair = e.pair →
    p.pair = e.pair ∧ s.nvs.pc = .done ∧ s.nvs.observing

/-- What holds of an entry in a boot. -/
structure Persists (table : List NvsPoint) (e : NvsPoint) (s : Device Z) : Prop where
  publishes : s.nvs.Publishes table
  guarded : Guarded table s.nvs
  follows : NvsLog.Follows e s.nvsLog
  declared : ∀ p ∈ s.threads.unpublished, Declared table p
  keyed : ∀ p ∈ s.threads.published, p.defaultKey.pair = e.pair → p.pair = e.pair

/-- A run of the threads of `lib/nvs.c` keeps what holds of the entry. -/
theorem follows_run {t : NvsLog Z} (hZ : Z.Lawful) (ht : IsNvsTable table) (he : e ∈ table)
    (hkept : e.Kept) (hcount : ¬ e.CountsBoots) {actions : List NvsAction}
    (hheard : Machine.AtEveryStep (NvsLog.step table) (fun t a => NvsLog.Heard e t.nvs a) t actions)
    (h : Guarded table t.nvs ∧ NvsLog.Follows e t) :
    Guarded table (Machine.run (NvsLog.step table) t actions).nvs ∧
      NvsLog.Follows e (Machine.run (NvsLog.step table) t actions) :=
  Machine.run_invariant_of_atEveryStep (P := fun _ => True)
    (I := fun t : NvsLog Z => Guarded table t.nvs ∧ NvsLog.Follows e t)
    (fun _ a _ ha h => ⟨h.1.step a, h.2.step hZ ht he hkept hcount h.1 ha⟩) h (fun _ _ => trivial)
    hheard

/-- Publishing does not bring the threads to another place. -/
theorem heard_publish {t : NvsLog Z} {ps : List Point} (hps : ∀ p ∈ ps, p.pair = e.pair →
      e.Declares p ∧ t.nvs.pc = .done ∧ t.nvs.observing) :
    Machine.AtEveryStep (NvsLog.step table) (fun t a => NvsLog.Heard e t.nvs a) t
      (ps.map .publish) := by
  induction ps generalizing t with
  | nil => trivial
  | cons p ps ih =>
    rw [List.forall_mem_cons] at hps
    refine ⟨fun q hq hpair => ?_, ih ?_⟩
    · cases hq
      exact hps.1 hpair
    · have hpc : (NvsLog.step table t (.publish p)).nvs.pc = t.nvs.pc := NvsThreads.zbusChanPub_pc ..
      have hobs : (NvsLog.step table t (.publish p)).nvs.observing = t.nvs.observing := by
        rw [NvsLog.step, nvsThreadsStep, NvsThreads.zbusChanPub_eq]
      rw [hpc, hobs]
      exact hps.2

/-- What the threads of `lib/nvs.c` hear of the others. -/
theorem heard_nvsActions {a : DeviceAction} (he : e ∈ table) (ha : s.Heard timegm table a)
    (hdeclared : a ≠ .nvsInit → ∀ p ∈ s.published timegm a, Declared table p)
    (hkeyed : ∀ p : Point, p.pair = e.pair → p.defaultKey.pair = e.pair) :
    Machine.AtEveryStep (NvsLog.step table) (fun t a => NvsLog.Heard e t.nvs a) s.nvsLog
      (s.nvsActions timegm a) := by
  have hother {b : NvsAction} (hb : ∀ p, b ≠ .publish p) :
      Machine.AtEveryStep (NvsLog.step table) (fun t a => NvsLog.Heard e t.nvs a) s.nvsLog [b] :=
    ⟨fun p hp => (hb p hp).elim, trivial⟩
  cases a with
  | nvsInit => exact hother (by simp)
  | nvsAddObs => exact hother (by simp)
  | nvsWaitMsg => exact hother (by simp)
  | nvsHandle => exact hother (by simp)
  | _ =>
    refine heard_publish fun p hp hpair => ⟨?_, (ha p hp e he (hkeyed p hpair)).2⟩
    exact hdeclared (by simp) p hp e he (.inl hpair.symm)

theorem Persists.step (hZ : Z.Lawful) (ht : IsNvsTable table) (he : e ∈ table) (hkept : e.Kept)
    (hkeys : ∀ npt ∈ table, npt.pair.2 ≠ []) (hcount : ¬ e.CountsBoots) {a : DeviceAction}
    (ha : s.Heard timegm table a) (hpoints : ∀ p ∈ a.points J timegm, Declared table p)
    (h : Persists table e s) : Persists table e (deviceStep J timegm sh table s a) := by
  have hkeyed {npt} (hmem : npt ∈ table) {p : Point} (hp : p.pair = npt.pair) : p.defaultKey = p :=
    Point.defaultKey_of_key_ne_nil fun hnil =>
      hkeys npt hmem ((congrArg Prod.snd hp).symm.trans hnil)
  obtain ⟨hguard, hfollows⟩ := follows_run hZ ht he hkept hcount
    (heard_nvsActions he ha (Device.forall_published h.declared hpoints)
      fun p hp => (congrArg Point.pair (hkeyed he hp)).trans hp) ⟨h.guarded, h.follows⟩
  rw [← nvsLog_step table J timegm sh] at hguard hfollows
  refine ⟨?_, hguard, hfollows, ?_, ?_⟩
  · rw [nvs_step]
    exact Machine.run_invariant (P := fun _ => True) (fun _ a _ h => h.step a) h.publishes
      fun _ _ => trivial
  · exact Device.forall_unpublished_step (fun p hp => hp.defaultKey) h.declared hpoints
  · rw [threads_published_step, List.forall_mem_append]
    refine ⟨h.keyed, fun p hp hpair => ?_⟩
    cases a with
    | nvsInit =>
      simp only [published] at hp
      split at hp
      · next npt rest hpc =>
        rw [List.mem_singleton] at hp
        obtain ⟨hmem, -, -⟩ := h.publishes.message hpc
        have hpub : p.pair = npt.pair := hp ▸ (message_pair ..).trans (ht.publishedPair_eq hmem)
        rwa [hkeyed hmem hpub] at hpair
      · cases hp
    | _ => exact (ha p hp e he hpair).1

/-- All is done: `nvs_init`, the POST, and all messages of the store thread and of `web_thread`. -/
structure Settled (s : Device Z) : Prop where
  init : s.nvs.pc = .done
  stored : s.nvs.held = none ∧ s.nvs.queue = []
  post : s.threads.post = none
  web : s.threads.web.Drained

/-- The record of an entry is then read as what was published last. -/
theorem Persists.settled (h : Persists table e s) (hs : s.Settled) :
    ∃ q, latest Point.pair s.threads.published e.pair = some q ∧ e.Declares q ∧
      e.Reads (e.value q) (s.nvs.stored e) := by
  have hfollows := h.follows
  rw [NvsLog.Follows, show s.nvsLog.nvs.pc = .done from hs.init] at hfollows
  obtain ⟨q, hlatest, hdeclares, -, -, v, hreads, hv⟩ := hfollows
  have hmessages : s.nvs.messages e = [] := by
    rw [NvsThreads.messages, hs.stored.1, hs.stored.2]
    rfl
  exact ⟨q, hlatest, hdeclares, hv (.inl hmessages) ▸ hreads⟩

end Device

/-- What the next boot publishes for an entry, as `web_points` has it. The boot count is another. -/
structure AsShown (webPoints : List Point) (e : NvsPoint) (p : Point) : Prop where
  pair : p.pair = e.pair
  shown : ¬ e.CountsBoots → ∃ q, slotsOf webPoints e.pair = [q] ∧ p.dataType = q.dataType ∧
    e.value p = e.value q

section
variable {J : JsonLib} {timegm : Tm → Int} {sh : Bool} {b : Boot} {fs : Z.State}

theorem Boot.persists (hZ : Z.Lawful) (ht : IsNvsTable table) (he : e ∈ table) (hkept : e.Kept)
    (hkeys : ∀ npt ∈ table, npt.pair.2 ≠ []) (hcount : ¬ e.CountsBoots)
    (hreads : ∃ v, e.Reads v (Z.contents fs e.nvsId.toNat))
    (hdeclared : ∀ a ∈ b.actions, ∀ p ∈ a.points J timegm, Declared table p)
    (hheard : Machine.AtEveryStep (deviceStep J timegm sh table) (Device.Heard timegm table)
      (.start b.cacheSize table fs (.init b.uint32Buf b.stringBuf)) b.actions) :
    (b.run J timegm sh table fs).Persists table e := by
  have hstart : Device.Persists table e
      (.start b.cacheSize table fs (.init b.uint32Buf b.stringBuf) : Device Z) :=
    ⟨.start table fs b.uint32Buf b.stringBuf, rfl,
      .inl ⟨ht.onceIn he, hreads, rfl, List.not_mem_nil⟩, List.forall_mem_nil _,
      List.forall_mem_nil _⟩
  exact Machine.run_invariant_of_atEveryStep (I := Device.Persists table e)
    (P := fun a => ∀ p ∈ a.points J timegm, Declared table p)
    (fun s a hp hh h => h.step hZ ht he hkept hkeys hcount hh hp) hstart hdeclared hheard

/-- With room for all points, `web_points` has the point published last in one slot. -/
theorem Device.Persists.webPoints {s : Device Z} (h : s.Persists table e) (hs : s.Settled)
    (hkey : e.pair.2 ≠ []) (hconv : StoresConverged s.threads)
    (hroom : countPairs (s.threads.published.map Point.defaultKey) ≤ 40) :
    ∃ q, slotsOf s.threads.web.pts e.pair = [q] ∧ e.Declares q ∧
      e.Reads (e.value q) (s.nvs.stored e) := by
  obtain ⟨q, hlatest, hdeclares, hreads⟩ := h.settled hs
  have hkeyed {p : Point} (hp : p.pair = e.pair) : p.defaultKey = p :=
    Point.defaultKey_of_key_ne_nil fun hnil => hkey ((congrArg Prod.snd hp).symm.trans hnil)
  refine ⟨q, ?_, hdeclares, hreads⟩
  rw [hconv.web hs.post hs.web hroom, latest_map, hlatest]
  · exact congrArg (fun p => [p]) (hkeyed (latest_key hlatest))
  · exact fun p hp => ⟨h.keyed p hp, fun hpair => (congrArg Point.pair (hkeyed hpair)).trans hpair⟩

end
end

instance {Z : Zms} (timegm : Tm → Int) (table : List NvsPoint) :
    ∀ (s : Device Z) a, Decidable (s.Heard timegm table a) := fun s a =>
  inferInstanceAs (Decidable (∀ p ∈ s.publishedByOthers timegm a, ∀ e ∈ table,
    p.defaultKey.pair = e.pair → p.pair = e.pair ∧ s.nvs.pc = .done ∧ s.nvs.observing))

end ZephyrSiot
