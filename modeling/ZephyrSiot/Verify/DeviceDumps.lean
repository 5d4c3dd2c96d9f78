import ZephyrSiot.Device
import ZephyrSiot.Verify.DumpBounds

/-!
# What the device describes for the log

The points of a POST are described in 128 bytes of the server's stack, a point that is stored in 40
bytes of the store thread's. In a run whose POSTs fit the one and whose table has short names,
nothing runs past these buffers (`Device.dumpsFit_run`).
-/

namespace ZephyrSiot

/-- Nothing that was described ran past its buffer. -/
def Device.DumpsFit {Z : Zms} (formatFloat : UInt32 → CStr.Bytes) (s : Device Z) : Prop :=
  ∀ d ∈ s.dumps ++ s.nvs.dumps, d.Fits formatFloat

/-- The points of a POST can be described together. -/
def DeviceAction.Describable (formatFloat : UInt32 → CStr.Bytes) (J : JsonLib) :
    DeviceAction → Prop
  | .request ptsJs payload => HeadsFit formatFloat 128 0 ((decodedBody J ptsJs payload).getD [])
  | _ => True

instance (formatFloat : UInt32 → CStr.Bytes) (J : JsonLib) :
    DecidablePred (DeviceAction.Describable formatFloat J)
  | .request ptsJs payload =>
    inferInstanceAs (Decidable (HeadsFit formatFloat 128 0 ((decodedBody J ptsJs payload).getD [])))
  | .post | .publish _ | .webWaitMsg | .webHandle | .cacheWaitMsg | .cacheMerge | .cacheReport
  | .nvsInit | .nvsAddObs | .nvsWaitMsg | .nvsHandle | .command _ | .dumpNext => .isTrue trivial

/-- Every point of an entry can be described. -/
def ShortNamed (table : List NvsPoint) : Prop := ∀ npt ∈ table, ShortNames npt.pair

instance : DecidablePred ShortNamed := fun table =>
  inferInstanceAs (Decidable (∀ npt ∈ table, ShortNames npt.pair))

section
variable {formatFloat : UInt32 → CStr.Bytes} {J : JsonLib} {timegm : Tm → Int} {sh : Bool}
  {table : List NvsPoint} {Z : Zms}

/-! ## The store thread -/

/-- The store thread describes points of the table's entries. -/
structure NvsThreads.Describes (formatFloat : UInt32 → CStr.Bytes) (table : List NvsPoint)
    (s : NvsThreads Z) : Prop where
  nvsPts : s.nvsPts ⊆ table
  fits : ∀ d ∈ s.dumps, d.Fits formatFloat

namespace NvsThreads.Describes
variable {s : NvsThreads Z}

theorem zbusChanPub (h : s.Describes formatFloat table) (p : Point) :
    (s.zbusChanPub p).Describes formatFloat table := by
  rw [zbusChanPub_eq]
  exact ⟨h.nvsPts, h.fits⟩

theorem step (htable : ShortNamed table) (h : s.Describes formatFloat table) (a : NvsAction) :
    (nvsThreadsStep table s a).Describes formatFloat table := by
  cases a with
  | init =>
    simp only [nvsThreadsStep, init]
    cases hpc : s.pc with
    | read rest =>
      cases rest with
      | nil => exact ⟨h.nvsPts, h.fits⟩
      | cons npt rest =>
        dsimp only
        split <;> exact ⟨h.nvsPts, h.fits⟩
    | increment npt rest => exact ⟨h.nvsPts, h.fits⟩
    | publish npt rest =>
      have hread : Describes formatFloat table
          { s with
            locals := { s.locals with p := nvsInit.message npt s.locals }
            pc := .read rest } := ⟨h.nvsPts, h.fits⟩
      exact hread.zbusChanPub _
    | setPts => exact ⟨List.Subset.refl _, h.fits⟩
    | setCount => exact ⟨h.nvsPts, h.fits⟩
    | done => exact h
  | addObs => exact ⟨h.nvsPts, h.fits⟩
  | waitMsg =>
    simp only [nvsThreadsStep, waitMsg]
    split <;> exact ⟨h.nvsPts, h.fits⟩
  | handle =>
    simp only [nvsThreadsStep, handle]
    split
    · next p _ =>
      refine ⟨h.nvsPts, ?_⟩
      rw [nvsStoreHandlePoint_dumps, List.forall_mem_append]
      refine ⟨h.fits, ?_⟩
      split
      · next hentry =>
        obtain ⟨npt, hmem, hpair⟩ := hentry
        have hshort := htable npt (h.nvsPts (List.mem_of_mem_take hmem))
        exact List.forall_mem_singleton.mpr ((fits_logDbgPoint formatFloat).mpr (hpair ▸ hshort))
      · exact List.forall_mem_nil _
    · exact h
  | publish p => exact h.zbusChanPub p

end NvsThreads.Describes

/-! ## All threads -/

namespace Device
variable {s : Device Z}

/-- What an action has described for the log, beside the store thread. -/
def described (J : JsonLib) (s : Device Z) : DeviceAction → List LogDump
  | .request ptsJs payload =>
    if s.threads.post = none then (decodedBody J ptsJs payload).toList.map logDbgPoints else []
  | _ => []

theorem dumps_step (s : Device Z) (a : DeviceAction) :
    (deviceStep J timegm sh table s a).dumps = s.dumps ++ s.described J a := by
  cases a with
  | request ptsJs payload =>
    simp only [deviceStep, request, described]
    cases decodedBody J ptsJs payload with
    | none => simp
    | some pts => rfl
  | post =>
    simp only [deviceStep, stepPost, described, List.append_nil]
    split <;> rfl
  | cacheWaitMsg =>
    simp only [deviceStep, cacheWaitMsg, described, List.append_nil]
    split <;> rfl
  | cacheMerge =>
    simp only [deviceStep, cacheMerge, described, List.append_nil]
    split <;> rfl
  | cacheReport =>
    simp only [deviceStep, cacheReport, described, List.append_nil]
    split <;> rfl
  | nvsInit =>
    simp only [deviceStep, nvsInit, described, List.append_nil]
    split <;> rfl
  | command c =>
    simp only [deviceStep, command, described, List.append_nil]
    split
    · rfl
    · cases c with
      | p argv =>
        dsimp only
        split <;> rfl
      | _ => rfl
  | dumpNext =>
    simp only [deviceStep, dumpNext, described, List.append_nil]
    split
    · rfl
    · split
      · rfl
      · split <;> rfl
  | _ => exact (List.append_nil _).symm

theorem fits_described {a : DeviceAction} (ha : a.Describable formatFloat J) :
    ∀ d ∈ s.described J a, d.Fits formatFloat := by
  cases a with
  | request ptsJs payload =>
    rw [described]
    split
    · cases hbody : decodedBody J ptsJs payload with
      | none => exact List.forall_mem_nil _
      | some pts =>
        rw [DeviceAction.Describable, hbody] at ha
        exact List.forall_mem_singleton.mpr ((fits_logDbgPoints formatFloat).mpr ha)
    · exact List.forall_mem_nil _
  | _ => exact List.forall_mem_nil _

/-- What was described fits its buffer, and the next point that is stored will. -/
structure Describes (formatFloat : UInt32 → CStr.Bytes) (table : List NvsPoint) (s : Device Z) :
    Prop where
  web : ∀ d ∈ s.dumps, d.Fits formatFloat
  nvs : s.nvs.Describes formatFloat table

theorem Describes.step (htable : ShortNamed table) (h : s.Describes formatFloat table)
    {a : DeviceAction} (ha : a.Describable formatFloat J) :
    (deviceStep J timegm sh table s a).Describes formatFloat table := by
  constructor
  · rw [dumps_step, List.forall_mem_append]
    exact ⟨h.web, fits_described ha⟩
  · rw [nvs_step]
    exact Machine.run_invariant (P := fun _ => True) (fun _ c _ hc => hc.step htable c) h.nvs
      fun _ _ => trivial

/-- **The log.** From the start of a boot nothing that is described runs past its buffer. -/
theorem dumpsFit_run (htable : ShortNamed table) (cacheSize : Nat) (fs : Z.State) (w : NvsLocals)
    {as : List DeviceAction} (has : ∀ a ∈ as, a.Describable formatFloat J) :
    (Machine.run (deviceStep J timegm sh table) (.start cacheSize table fs w) as).DumpsFit
      formatFloat := by
  have hstart : Describes formatFloat table (.start cacheSize table fs w : Device Z) :=
    ⟨List.forall_mem_nil _, List.nil_subset _, List.forall_mem_nil _⟩
  have h : Describes formatFloat table
      (Machine.run (deviceStep J timegm sh table) (.start cacheSize table fs w) as) :=
    Machine.run_invariant (P := DeviceAction.Describable formatFloat J)
      (fun _ _ ha h => h.step htable ha) hstart has
  exact List.forall_mem_append.mpr ⟨h.web, h.nvs.fits⟩

end Device
end

end ZephyrSiot
