import ZephyrSiot.Verify.BootCount
import ZephyrSiot.Verify.Reboot

/-!
# The boot count over reboots

Boots are cut off anywhere. The boot count in the flash has then advanced once for every boot that
got behind the write of the incremented count, and in which no published boot count was stored over
it (`bootCount_boots`): it never goes back, and no boot counts twice.
-/

namespace ZephyrSiot
open CStr NvsThreads

section
variable {Z : Zms} {table : List NvsPoint} {e npt : NvsPoint} {v : Nat} {s : NvsThreads Z}

/-! ## One boot -/

/-- The record holds the count, which is 0 when there is none. -/
def Tallied (v : Nat) (record : Option Bytes) : Prop :=
  record = some (le32 v) ∨ record = none ∧ v = 0

/-- `nvs_init` has written the incremented count. -/
def NvsInitPc.Past (e : NvsPoint) : NvsInitPc → Prop
  | .read rest | .publish _ rest => e ∉ rest
  | .increment npt rest => npt ≠ e ∧ e ∉ rest
  | _ => True

instance (e : NvsPoint) : DecidablePred (NvsInitPc.Past e)
  | .read rest | .publish _ rest => inferInstanceAs (Decidable (e ∉ rest))
  | .increment npt rest => inferInstanceAs (Decidable (npt ≠ e ∧ e ∉ rest))
  | .setPts | .setCount | .done => .isTrue trivial

/-- A record that is about to be incremented still holds the count. -/
def Unwritten (e : NvsPoint) (v : Nat) (s : NvsThreads Z) : Prop :=
  match s.pc with
  | .increment npt _ => npt = e → s.stored e = some (le32 v)
  | _ => True

theorem NvsPoint.OnceIn.mem {rest : List NvsPoint} (h : e.OnceIn rest) : e ∈ rest := by
  induction h with
  | here => exact List.mem_cons_self
  | there _ _ ih => exact List.mem_cons_of_mem _ ih

theorem NvsPoint.not_mem_of_other {rest : List NvsPoint} (h : ∀ npt ∈ rest, e.Other npt) :
    e ∉ rest := fun hmem => (h e hmem).id rfl

/-- Where the incremented count is, and where the count still is. -/
theorem Counting.tallied (h : Counting e v s) (hunwritten : Unwritten e v s) :
    (s.pc.Past e → s.stored e = some (le32 (v + 1))) ∧ (¬ s.pc.Past e → Tallied v (s.stored e)) := by
  have hbetween {rest} (hb : Between e v s rest) :
      (e ∉ rest → s.stored e = some (le32 (v + 1))) ∧ (¬ e ∉ rest → Tallied v (s.stored e)) := by
    rcases hb with ⟨hin, hu⟩ | ⟨hall, hc⟩
    · exact ⟨fun hnot => (hnot hin.mem).elim, fun _ => hu.stored⟩
    · exact ⟨fun _ => hc.stored, fun hmem => (hmem (NvsPoint.not_mem_of_other hall)).elim⟩
  unfold Counting at h
  unfold Unwritten at hunwritten
  unfold NvsInitPc.Past
  cases hpc : s.pc with rw [hpc] at h hunwritten
  | read rest => exact hbetween h
  | increment npt rest =>
    rcases h with ⟨hother, hb⟩ | ⟨he, -⟩
    · have hne : npt ≠ e := fun he => hother.id (he ▸ rfl)
      exact ⟨fun hpast => (hbetween hb).1 hpast.2, fun hnot => (hbetween hb).2 fun hmem =>
        hnot ⟨hne, hmem⟩⟩
    · exact ⟨fun hpast => (hpast.1 he).elim, fun _ => .inl (hunwritten he)⟩
  | publish npt rest =>
    rcases h with ⟨hother, hb⟩ | ⟨-, hrest, hstored, -⟩
    · exact hbetween hb
    · exact ⟨fun _ => hstored, fun hmem => (hmem (NvsPoint.not_mem_of_other hrest)).elim⟩
  | setPts => exact ⟨fun _ => h.stored, fun hnot => (hnot trivial).elim⟩
  | setCount => exact ⟨fun _ => h.stored, fun hnot => (hnot trivial).elim⟩
  | done => exact ⟨fun _ => h.stored, fun hnot => (hnot trivial).elim⟩

theorem Unwritten.init (hZ : Z.Lawful) (he : e.CountsBoots) (h : Counting e v s) :
    Unwritten e v (s.init table) := by
  unfold Counting at h
  unfold NvsThreads.init
  cases hpc : s.pc with rw [hpc] at h
  | read rest =>
    cases rest with
    | nil => trivial
    | cons npt rest =>
      dsimp only
      split
      · trivial
      · next hread =>
        intro hnpt
        rcases h.tail with ⟨hother, -⟩ | ⟨-, -, hu⟩
        · exact (hother.id (hnpt ▸ rfl)).elim
        · obtain ⟨fs, w, hread', hself, -⟩ := read_uncounted hZ he hu
          rw [hnpt, hread', Option.some.injEq, Prod.mk.injEq] at hread
          exact hread.1 ▸ hself
  | increment npt rest => trivial
  | publish npt rest =>
    dsimp only
    rw [Unwritten, zbusChanPub_pc]
    trivial
  | setPts => trivial
  | setCount => trivial
  | done =>
    dsimp only
    rw [Unwritten, hpc]
    trivial

theorem Unwritten.step (hZ : Z.Lawful) (he : e.CountsBoots) {a : NvsAction}
    (ha : ∀ p, a = .publish p → p.pair ≠ e.pair) (h : Counting e v s)
    (hover : ¬ Overwrites e s a) (hunwritten : Unwritten e v s) :
    Unwritten e v (nvsThreadsStep table s a) := by
  rcases eq_or_ne a .init with rfl | hinit
  · exact .init hZ he h
  · obtain ⟨hpc, -, -, -⟩ := nvsThreadsStep_frame table s hinit
    obtain ⟨hstored, -⟩ := stored_messages_step table hZ hinit ha hover
    unfold Unwritten at hunwritten ⊢
    rwa [hpc, hstored]

/-- A run of the two threads that may be cut off anywhere: the count has advanced by one or not at
all, and which of the two can be told from where it was cut off and what was overwritten. -/
theorem tallied_run (hZ : Z.Lawful) (htable : e.OnceIn table) (he : e.CountsBoots) {fs : Z.State}
    (hfs : Tallied v (Z.contents fs e.nvsId.toNat)) (w : NvsLocals) {actions : List NvsAction}
    (hpub : ∀ a ∈ actions, ∀ p, a = .publish p → p.pair ≠ e.pair) {t : NvsThreads Z}
    (ht : t = Machine.run (nvsThreadsStep table) (start table fs w) actions) :
    let advances := t.pc.Past e ∧ Machine.AtEveryStep (nvsThreadsStep table)
      (fun s a => ¬ Overwrites e s a) (start table fs w) actions
    (advances → t.stored e = some (le32 (v + 1))) ∧ (¬ advances → Tallied v (t.stored e)) := by
  subst ht
  have hstart : Guarded table (start table fs w : NvsThreads Z) ∧
      Counting e v (start table fs w : NvsThreads Z) ∧ Unwritten e v (start table fs w) :=
    ⟨rfl, .inl ⟨htable, hfs, rfl⟩, trivial⟩
  rcases Machine.run_invariant_or_lost
    (I := fun s : NvsThreads Z => Guarded table s ∧ Counting e v s ∧ Unwritten e v s)
    (L := fun s => Guarded table s ∧ BootLost e v s)
    (P := fun a => ∀ p, a = .publish p → p.pair ≠ e.pair) (C := fun s a => ¬ Overwrites e s a)
    (fun s a ha h hc => ⟨h.1.step a, h.2.1.step hZ he ha hc, h.2.2.step hZ he ha h.2.1 hc⟩)
    (fun s a ha h hc => ⟨h.1.step a, .of_overwrites hZ htable h.1 h.2.1 (not_not.mp hc)⟩)
    (fun s a ha h => ⟨h.1.step a, h.2.step hZ htable h.1 ha⟩) hstart hpub with
    ⟨hall, -, hcounting, hunwritten⟩ | ⟨hsome, -, hlost⟩
  · obtain ⟨hpast, hnot⟩ := hcounting.tallied hunwritten
    exact ⟨fun h => hpast h.1, fun h => hnot fun hp => h ⟨hp, hall⟩⟩
  · exact ⟨fun h => (hsome h.2).elim, fun _ => .inl hlost.stored⟩

end

/-! ## Boots -/

/-- A published boot count is handled, and the entry is found. -/
def Device.Overwrites {Z : Zms} (e : NvsPoint) (s : Device Z) : DeviceAction → Prop
  | .nvsHandle => ∃ p ∈ s.nvs.held,
    pointTypeKeyToNvsId s.nvs.searched p.type.bytes p.key.bytes = e.nvsId.toNat
  | _ => False

instance {Z : Zms} (e : NvsPoint) (s : Device Z) : DecidablePred (s.Overwrites e)
  | .nvsHandle => inferInstanceAs (Decidable (∃ p ∈ s.nvs.held,
      pointTypeKeyToNvsId s.nvs.searched p.type.bytes p.key.bytes = e.nvsId.toNat))
  | .request .. | .post | .publish _ | .webWaitMsg | .webHandle | .cacheWaitMsg | .cacheMerge
  | .cacheReport | .nvsInit | .nvsAddObs | .nvsWaitMsg | .command _ | .dumpNext =>
    .isFalse fun h => h

section
variable (J : JsonLib) (timegm : Tm → Int) (sh : Bool) (table : List NvsPoint) (e : NvsPoint)
  {Z : Zms}

/-- The boot gets behind the write of the incremented count, and nothing is stored over it. -/
def Boot.Advances (b : Boot) (fs : Z.State) : Prop :=
  (b.run J timegm sh table fs).nvs.pc.Past e ∧
    Machine.AtEveryStep (deviceStep J timegm sh table) (fun s a => ¬ s.Overwrites e a)
      (.start b.cacheSize table fs (.init b.uint32Buf b.stringBuf)) b.actions

instance (b : Boot) (fs : Z.State) : Decidable (b.Advances J timegm sh table e fs) :=
  instDecidableAnd

/-- How many of the boots advance the count. -/
def advances : List Boot → Z.State → Nat
  | [], _ => 0
  | b :: boots, fs => (if b.Advances J timegm sh table e fs then 1 else 0) +
    advances boots (b.run J timegm sh table fs).nvs.fs

end

section
variable {J : JsonLib} {timegm : Tm → Int} {sh : Bool} {table : List NvsPoint} {e : NvsPoint}
  {Z : Zms} {v : Nat}

theorem Device.not_overwrites_iff (s : Device Z) (a : DeviceAction) :
    Machine.AtEveryStep (nvsThreadsStep table) (fun t c => ¬ ZephyrSiot.Overwrites e t c) s.nvs
      (s.nvsActions timegm a) ↔ ¬ s.Overwrites e a := by
  have hother {actions : List NvsAction} (h : ∀ c ∈ actions, c ≠ .handle) :
      Machine.AtEveryStep (nvsThreadsStep table) (fun t c => ¬ ZephyrSiot.Overwrites e t c) s.nvs
        actions :=
    Machine.atEveryStep_of_forall fun c hc t hover => h c hc hover.1
  cases a with
  | nvsHandle =>
    refine (and_iff_left trivial).trans (not_congr ?_)
    exact and_iff_right rfl
  | _ => exact iff_of_true (hother (by simp [nvsActions])) fun h => h

theorem Boot.advances_iff (b : Boot) (fs : Z.State) : b.Advances J timegm sh table e fs ↔
    (b.run J timegm sh table fs).nvs.pc.Past e ∧ Machine.AtEveryStep (nvsThreadsStep table)
      (fun t c => ¬ ZephyrSiot.Overwrites e t c)
      (NvsThreads.start table fs (.init b.uint32Buf b.stringBuf))
      (b.nvsActions J timegm sh table fs) :=
  and_congr_right fun _ => (Machine.atEveryStep_passed (f := Device.nvs) Device.nvs_step
    Device.not_overwrites_iff b.actions).symm

theorem tallied_boots (hZ : Z.Lawful) (ht : IsNvsTable table) (he : e ∈ table)
    (hcount : e.CountsBoots) {fs : Z.State} (hfs : Tallied v (Z.contents fs e.nvsId.toNat))
    {boots : List Boot} (hboots : ∀ b ∈ boots, ∀ a ∈ b.actions, ∀ p ∈ a.points J timegm,
      p.pair ≠ e.pair ∧ p.defaultKey.pair ≠ e.pair) :
    Tallied (v + advances J timegm sh table e boots fs)
      (Z.contents (flashAfter J timegm sh table boots fs) e.nvsId.toNat) := by
  have hkey (p : Point) (hp : p.pair ≠ e.pair ∧ p.defaultKey.pair ≠ e.pair) :
      p.defaultKey.pair ≠ e.pair ∧ p.defaultKey.defaultKey.pair ≠ e.pair := by
    rw [Point.defaultKey_defaultKey]
    exact ⟨hp.2, hp.2⟩
  induction boots generalizing fs v with
  | nil => exact hfs
  | cons b boots ih =>
    rw [List.forall_mem_cons] at hboots
    have hpub := b.forall_nvsActions sh table fs hkey hboots.1
    obtain ⟨hyes, hno⟩ := tallied_run hZ (ht.onceIn he) hcount hfs (.init b.uint32Buf b.stringBuf)
      (fun a ha p hp => (hpub a ha p hp).1) (b.nvs_eq sh fs)
    have hboot : Tallied (v + if b.Advances J timegm sh table e fs then 1 else 0)
        (Z.contents (b.run J timegm sh table fs).nvs.fs e.nvsId.toNat) := by
      split
      · next h => exact .inl (hyes (b.advances_iff fs |>.mp h))
      · next h => exact hno (mt (b.advances_iff fs).mpr h)
    rw [advances, ← Nat.add_assoc]
    exact ih hboot hboots.2

/-- **Boots are counted once.** After any number of boots, each cut off anywhere, the count is the
one before plus the number of boots that got behind the increment and did not lose it, as long as no
boot count comes in from outside. -/
theorem bootCount_boots (hZ : Z.Lawful) (ht : IsNvsTable table) (hshort : ShortNamed table)
    (he : e ∈ table) (hcount : e.CountsBoots) {fs : Z.State}
    (hfs : Tallied v (Z.contents fs e.nvsId.toNat)) {boots : List Boot}
    (hboots : ∀ b ∈ boots, ∀ a ∈ b.actions, ∀ p ∈ a.points J timegm,
      p.pair ≠ e.pair ∧ p.defaultKey.pair ≠ e.pair) {formatFloat : UInt32 → Bytes}
    (hdescribable : ∀ b ∈ boots, ∀ a ∈ b.actions, a.Describable formatFloat J) :
    (∀ b ∈ boots, ∀ fs : Z.State, (b.run J timegm sh table fs).DumpsFit formatFloat) ∧
      Tallied (v + advances J timegm sh table e boots fs)
        (Z.contents (flashAfter J timegm sh table boots fs) e.nvsId.toNat) :=
  ⟨fun b hb _ => b.dumpsFit hshort (hdescribable b hb), tallied_boots hZ ht he hcount hfs hboots⟩

end

/-- Of two boots the first is counted, although it is cut off. The other one is lost. -/
theorem bootCount_boots_siotNet :
    let boots := [cutOffBoot, descriptionBoot]
    (∀ b ∈ boots, ∀ fs : Zms.reference.State, (b.run .reference gregorianTimegm true siotNetNvsPts
        fs).DumpsFit fun _ => []) ∧
      Tallied (0 + advances (Z := .reference) .reference gregorianTimegm true siotNetNvsPts
          siotSimpleBootCount boots fun _ => none)
        (Zms.reference.contents (flashAfter .reference gregorianTimegm true siotNetNvsPts boots
          fun _ => none) 1) :=
  bootCount_boots Zms.reference_lawful (by decide) (by decide) (by decide) (by decide)
    (.inr ⟨rfl, rfl⟩) (by decide +kernel) (by decide +kernel)

example : advances .reference gregorianTimegm true siotNetNvsPts siotSimpleBootCount
    (Z := .reference) [cutOffBoot, descriptionBoot] (fun _ => none) = 1 := by decide +kernel

end ZephyrSiot
