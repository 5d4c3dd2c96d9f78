import ZephyrSiot.Verify.NvsValues

/-!
# Settings over reboots

A boot may be cut off anywhere. What the flash holds of an entry is a value that some point of the
entry had in this boot or an earlier one, or none (`nothing_invented`).
-/

namespace ZephyrSiot
open CStr

section
variable {Z : Zms} {table : List NvsPoint} {e npt : NvsPoint} {V : Bytes → Prop}

theorem IsNvsTable.eq_or_other (ht : IsNvsTable table) (he : e ∈ table) (hmem : npt ∈ table) :
    npt = e ∨ e.Other npt := by
  rcases Classical.em (npt = e) with h | h
  · exact .inl h
  · refine .inr ⟨fun hid => h (List.inj_on_of_nodup_map ht.ids hmem he hid), fun hpair => h ?_⟩
    exact List.inj_on_of_nodup_map ht.pairs hmem he ((ht.publishedPair_eq hmem).symm.trans hpair)

namespace NvsThreads
variable {s : NvsThreads Z}

/-! ## The entry over the steps of the two threads -/

/-- `nvs_init` has read the entry and not published its point. -/
def Reading (e : NvsPoint) (s : NvsThreads Z) : Prop :=
  match s.pc with
  | .increment npt _ | .publish npt _ => npt = e
  | _ => False

/-- Wherever a value of the entry is, it is one of `V`. -/
structure Holds (e : NvsPoint) (V : Bytes → Prop) (s : NvsThreads Z) : Prop where
  flash : ∃ v, e.Reads v (s.stored e) ∧ V v
  queued : ∀ p ∈ s.messages e, e.Declares p ∧ V (e.value p)
  reading : s.Reading e → e.Declares (nvsInit.message e s.locals) ∧
    V (e.value (nvsInit.message e s.locals))

namespace Holds

theorem init (hZ : Z.Lawful) (ht : IsNvsTable table) (he : e ∈ table) (hkept : e.Kept)
    (hcount : e.CountsBoots → ∀ v, V v) (hpub : s.Publishes table) (h : Holds e V s) :
    Holds e V (s.init table) := by
  obtain ⟨⟨v, hreads, hv⟩, hmessages, hreading⟩ := h
  have hentries := hpub.entries
  unfold unpublished at hentries
  unfold Reading at hreading
  unfold NvsThreads.init
  cases hpc : s.pc with rw [hpc] at hentries hreading
  | read rest =>
    cases rest with
    | nil => exact ⟨⟨v, hreads, hv⟩, hmessages, False.elim⟩
    | cons npt rest =>
      rcases ht.eq_or_other he (hentries List.mem_cons_self) with rfl | hother
      · obtain ⟨fs, w, hread, hstored, hvalue, hdeclares⟩ :=
          readsEntry hZ (w := s.locals) hkept hreads
        simp only [hread]
        exact ⟨⟨v, hstored, hv⟩, hmessages, fun _ => ⟨hdeclares, hvalue ▸ hv⟩⟩
      · have hne : e.nvsId.toNat ≠ npt.nvsId.toNat := fun hid =>
          hother.id (UInt16.toNat_inj.mp hid.symm)
        dsimp only
        split
        · exact ⟨⟨v, hreads, hv⟩, hmessages, False.elim⟩
        · next hread =>
          refine ⟨⟨v, ?_, hv⟩, hmessages, fun hnpt : npt = e => (hother.id (hnpt ▸ rfl)).elim⟩
          rwa [NvsThreads.stored, contents_read_of_ne hZ hread hne]
  | increment npt rest =>
    rcases ht.eq_or_other he (hentries List.mem_cons_self) with rfl | hother
    · rcases Classical.em npt.CountsBoots with hc | hc
      · have hs : ¬ npt.IsText := fun hs => hs.not_countsBoots hc
        refine ⟨⟨le32 (s.locals.uint32Buf + 1).toNat, ?_, hcount hc _⟩, hmessages, hreading⟩
        rw [NvsThreads.stored, contents_increment hZ hc]
        exact NvsPoint.reads_le32 hs _
      · refine ⟨⟨v, ?_, hv⟩, hmessages, hreading⟩
        change npt.Reads v (Z.contents (nvsInit.increment Z npt s.fs s.locals) npt.nvsId.toNat)
        rwa [nvsInit.increment, if_neg hc]
    · have hne : e.nvsId.toNat ≠ npt.nvsId.toNat := fun hid =>
        hother.id (UInt16.toNat_inj.mp hid.symm)
      refine ⟨⟨v, ?_, hv⟩, hmessages, hreading⟩
      rwa [NvsThreads.stored, contents_increment_of_ne hZ hne]
  | publish npt rest =>
    have hstored : ∀ t : NvsThreads Z, t.fs = s.fs → e.Reads v ((t.zbusChanPub
        (nvsInit.message npt s.locals)).stored e) := by
      intro t ht
      rwa [NvsThreads.stored, zbusChanPub_fs, ht]
    have hfalse : ∀ t : NvsThreads Z, t.pc = .read rest →
        ¬ Reading e (t.zbusChanPub (nvsInit.message npt s.locals)) := by
      intro t ht h
      rwa [Reading, zbusChanPub_pc, ht] at h
    refine ⟨⟨v, hstored _ rfl, hv⟩, ?_, fun h => (hfalse _ rfl h).elim⟩
    intro p hp
    rcases ht.eq_or_other he (hentries List.mem_cons_self) with rfl | hother
    · rw [messages_zbusChanPub, List.mem_append] at hp
      rcases hp with hp | hp
      · exact hmessages p hp
      · have hmem := (List.mem_filter.mp hp).1
        split at hmem
        · rw [List.mem_singleton.mp hmem]
          exact hreading rfl
        · cases hmem
    · have hpair : (nvsInit.message npt s.locals).pair ≠ e.pair :=
        message_pair npt s.locals ▸ hother.pair
      rw [messages_zbusChanPub_of_ne hpair] at hp
      exact hmessages p hp
  | setPts => exact ⟨⟨v, hreads, hv⟩, hmessages, False.elim⟩
  | setCount => exact ⟨⟨v, hreads, hv⟩, hmessages, False.elim⟩
  | done =>
    refine ⟨⟨v, hreads, hv⟩, hmessages, ?_⟩
    rw [Reading, hpc]
    exact False.elim

/-- The store thread puts the value of a message into the flash. -/
theorem handle (hZ : Z.Lawful) (ht : IsNvsTable table) (he : e ∈ table) (hkept : e.Kept)
    (hguard : Guarded table s) (h : Holds e V s) : Holds e V s.handle := by
  obtain ⟨hpc, hlocals, -, -⟩ := nvsThreadsStep_frame table s (a := .handle) (by simp)
  rw [nvsThreadsStep] at hpc hlocals
  refine ⟨?_, fun p hp => h.queued p (messages_handle.subset hp), ?_⟩
  · rcases Classical.em (Overwrites e s .handle) with hover | hover
    · obtain ⟨-, p, hheld, hmem, hid⟩ := hover.spec hguard (ht.onceIn he)
      obtain ⟨hdeclares, hv⟩ := h.queued p hmem
      obtain ⟨hne, hreads⟩ := NvsPoint.reads_stored hkept hdeclares
      refine ⟨_, ?_, hv⟩
      simp only [NvsThreads.stored, NvsThreads.handle, hheld]
      exact contents_nvsStoreHandlePoint_of_eq hZ (s := ⟨s.fs, s.searched, s.dumps⟩) hid hne ▸ hreads
    · rw [stored_handle_of_not_overwrites hZ hover]
      exact h.flash
  · rw [Reading, hpc, hlocals]
    exact h.reading

theorem step (hZ : Z.Lawful) (ht : IsNvsTable table) (he : e ∈ table) (hkept : e.Kept)
    (hcount : e.CountsBoots → ∀ v, V v) (hpub : s.Publishes table) (hguard : Guarded table s)
    {a : NvsAction} (ha : ∀ p, a = .publish p → p.pair = e.pair → e.Declares p ∧ V (e.value p))
    (h : Holds e V s) : Holds e V (nvsThreadsStep table s a) := by
  cases a with
  | init => exact h.init hZ ht he hkept hcount hpub
  | addObs => exact ⟨h.flash, h.queued, h.reading⟩
  | waitMsg =>
    have hframe := nvsThreadsStep_frame table s (a := .waitMsg) (by simp)
    have hfs : (nvsThreadsStep table s .waitMsg).fs = s.fs := by
      simp only [nvsThreadsStep, waitMsg]
      split <;> rfl
    refine ⟨?_, ?_, ?_⟩
    · rw [NvsThreads.stored, hfs]
      exact h.flash
    · rw [nvsThreadsStep, messages_waitMsg]
      exact h.queued
    · rw [Reading, hframe.1, hframe.2.1]
      exact h.reading
  | handle => exact h.handle hZ ht he hkept hguard
  | publish p =>
    simp only [nvsThreadsStep, zbusChanPub_eq]
    refine ⟨h.flash, ?_, h.reading⟩
    intro q hq
    have hq' : q ∈ s.messages e ∨ q = p ∧ q.pair = e.pair := by
      rw [NvsThreads.messages, List.mem_filter] at hq ⊢
      obtain ⟨hmem, hpair⟩ := hq
      rw [← List.append_assoc, List.mem_append] at hmem
      rcases hmem with hmem | hmem
      · exact .inl ⟨hmem, hpair⟩
      · split at hmem
        · exact .inr ⟨List.mem_singleton.mp hmem, of_decide_eq_true hpair⟩
        · cases hmem
    rcases hq' with hq' | ⟨rfl, hpair⟩
    · exact h.queued q hq'
    · exact ha q rfl hpair

theorem run (hZ : Z.Lawful) (ht : IsNvsTable table) (he : e ∈ table) (hkept : e.Kept)
    (hcount : e.CountsBoots → ∀ v, V v) {fs : Z.State}
    (hfs : ∃ v, e.Reads v (Z.contents fs e.nvsId.toNat) ∧ V v) (uint32Buf : UInt32)
    (stringBuf : CharArray 20) {actions : List NvsAction} (hactions : ∀ a ∈ actions, ∀ p,
      a = .publish p → p.pair = e.pair → e.Declares p ∧ V (e.value p)) :
    Holds e V (Machine.run (nvsThreadsStep table) (.start table fs (.init uint32Buf stringBuf))
      actions) := by
  have hstart : Holds e V (NvsThreads.start table fs (.init uint32Buf stringBuf) : NvsThreads Z) :=
    ⟨hfs, List.forall_mem_nil _, False.elim⟩
  have h := Machine.run_invariant
    (I := fun s : NvsThreads Z => s.Publishes table ∧ Guarded table s ∧ Holds e V s)
    (fun s a ha h => ⟨h.1.step a, h.2.1.step a, h.2.2.step hZ ht he hkept hcount h.1 h.2.1 ha⟩)
    ⟨Publishes.start table fs uint32Buf stringBuf, rfl, hstart⟩ hactions
  exact h.2.2

end Holds
end NvsThreads

/-! ## Boots -/

/-- A point of an entry, its key being blank or not, has the data type of the entry. -/
def Declared (table : List NvsPoint) (p : Point) : Prop :=
  ∀ npt ∈ table, npt.pair = p.pair ∨ npt.pair = p.defaultKey.pair → npt.Declares p

instance : DecidablePred (Declared table) := fun p => inferInstanceAs (Decidable
  (∀ npt ∈ table, npt.pair = p.pair ∨ npt.pair = p.defaultKey.pair → npt.Declares p))

theorem Declared.defaultKey {p : Point} (h : Declared table p) : Declared table p.defaultKey := by
  intro npt hmem hpair
  rw [Point.defaultKey_defaultKey, or_self] at hpair
  rw [NvsPoint.Declares, Point.defaultKey_dataType]
  exact h npt hmem (.inr hpair)

/-- The points that came in during some boots. -/
def offered (J : JsonLib) (timegm : Tm → Int) (boots : List Boot) : List Point :=
  boots.flatMap fun b => b.actions.flatMap (DeviceAction.points J timegm)

/-- The flash after some boots. -/
def flashAfter (J : JsonLib) (timegm : Tm → Int) (sh : Bool) (table : List NvsPoint)
    (boots : List Boot) (fs : Z.State) : Z.State :=
  boots.foldl (fun fs b => (b.run J timegm sh table fs).nvs.fs) fs

/-- A value that a point of the entry came in with. -/
def OfferedValue (e : NvsPoint) (ps : List Point) (v : Bytes) : Prop :=
  ∃ p ∈ ps, (e.pair = p.pair ∨ e.pair = p.defaultKey.pair) ∧ e.value p = v

/-- What a boot publishes for an entry: a point of the entry, and unless it counts boots, the value
is one that was offered, or the blank one. -/
structure Restored (ps : List Point) (e : NvsPoint) (p : Point) : Prop where
  pair : p.pair = e.pair
  declares : e.Declares p
  time : p.time = 0
  offered : ¬ e.CountsBoots → e.value p = e.blank ∨ OfferedValue e ps (e.value p)

variable {J : JsonLib} {timegm : Tm → Int} {sh : Bool}

theorem NvsPoint.value_defaultKey (e : NvsPoint) (p : Point) : e.value p.defaultKey = e.value p := by
  rw [value, value, Point.defaultKey_data]

/-- After every boot the record of an entry is read as a value that was offered. -/
theorem reads_flashAfter (sh : Bool) (hZ : Z.Lawful) (ht : IsNvsTable table) (he : e ∈ table)
    (hkept : e.Kept)
    {fs : Z.State} (hfs : Z.contents fs e.nvsId.toNat = none) {boots : List Boot}
    (hboots : ∀ b ∈ boots, ∀ a ∈ b.actions, ∀ p ∈ a.points J timegm, Declared table p) :
    ∃ v, e.Reads v (Z.contents (flashAfter J timegm sh table boots fs) e.nvsId.toNat) ∧
      (¬ e.CountsBoots → v = e.blank ∨ OfferedValue e (offered J timegm boots) v) := by
  let V (v : Bytes) : Prop :=
    ¬ e.CountsBoots → v = e.blank ∨ OfferedValue e (offered J timegm boots) v
  have hcount : e.CountsBoots → ∀ v, V v := fun hc v hno => (hno hc).elim
  have hsub : ∀ b ∈ boots, ∀ a ∈ b.actions, ∀ p ∈ a.points J timegm, p ∈ offered J timegm boots :=
    fun b hb a ha p hp => List.mem_flatMap.mpr ⟨b, hb, List.mem_flatMap.mpr ⟨a, ha, hp⟩⟩
  -- a point on its way, perhaps with its key filled in
  let P (p : Point) : Prop := p.pair = e.pair ∨ p.defaultKey.pair = e.pair →
    e.Declares p ∧ V (e.value p)
  have hkey : ∀ p, P p → P p.defaultKey := by
    intro p hp hpair
    rw [Point.defaultKey_defaultKey, or_self] at hpair
    obtain ⟨hdeclares, hv⟩ := hp (.inr hpair)
    refine ⟨?_, e.value_defaultKey p ▸ hv⟩
    rwa [NvsPoint.Declares, Point.defaultKey_dataType]
  suffices h : ∀ (bs : List Boot) (fs : Z.State), bs ⊆ boots →
      (∃ v, e.Reads v (Z.contents fs e.nvsId.toNat) ∧ V v) →
        ∃ v, e.Reads v (Z.contents (flashAfter J timegm sh table bs fs) e.nvsId.toNat) ∧ V v from
    h boots fs (List.Subset.refl _) ⟨e.blank, by rw [hfs]; rfl, fun _ => .inl rfl⟩
  intro bs
  induction bs with
  | nil => exact fun fs _ h => h
  | cons b bs ih =>
    intro fs hbs h
    obtain ⟨hb, hbs⟩ := List.cons_subset.mp hbs
    have hpoints : ∀ a ∈ b.actions, ∀ p ∈ a.points J timegm, P p := by
      intro a ha p hp hpair
      refine ⟨hboots b hb a ha p hp e he (hpair.imp Eq.symm Eq.symm), fun _ => .inr ?_⟩
      exact ⟨p, hsub b hb a ha p hp, hpair.imp Eq.symm Eq.symm, rfl⟩
    have hactions := b.forall_nvsActions sh table fs hkey hpoints
    have hholds := NvsThreads.Holds.run hZ ht he hkept hcount h b.uint32Buf b.stringBuf
      fun a ha p hp hpair => hactions a ha p hp (.inl hpair)
    rw [← b.nvs_eq sh fs] at hholds
    exact ih _ hbs hholds.flash

/-- **Nothing is invented.** After any number of boots, each cut off anywhere, on a flash that was
empty, a boot publishes for each entry in turn a value that came in for it, or the blank one. -/
theorem nothing_invented (hZ : Z.Lawful) (ht : IsNvsTable table) (hshort : ShortNamed table)
    (hkept : ∀ npt ∈ table, npt.Kept) {fs : Z.State}
    (hfs : ∀ npt ∈ table, Z.contents fs npt.nvsId.toNat = none) {boots : List Boot}
    (hboots : ∀ b ∈ boots, ∀ a ∈ b.actions, ∀ p ∈ a.points J timegm, Declared table p)
    {formatFloat : UInt32 → Bytes}
    (hdescribable : ∀ b ∈ boots, ∀ a ∈ b.actions, a.Describable formatFloat J)
    {f : Flash} (hmount : nvsMount f = 0) (uint32Buf : UInt32) (stringBuf : CharArray 20) :
    (∀ b ∈ boots, ∀ fs : Z.State, (b.run J timegm sh table fs).DumpsFit formatFloat) ∧
      List.Forall₂ (Restored (offered J timegm boots)) table
        (nvsInit Z f table ⟨flashAfter J timegm sh table boots fs, [], []⟩
          (.init uint32Buf stringBuf)).published := by
  refine ⟨fun b hb fs => b.dumpsFit hshort (hdescribable b hb), ?_⟩
  have hall : ∀ e ∈ table, ∃ v,
      e.Reads v (Z.contents (flashAfter J timegm sh table boots fs) e.nvsId.toNat) ∧
        (¬ e.CountsBoots → v = e.blank ∨ OfferedValue e (offered J timegm boots) v) :=
    fun e he => reads_flashAfter sh hZ ht he (hkept e he) (hfs e he) hboots
  choose! values hvalues using hall
  have hpub := loop_republishes hZ ht.ids
    (fun npt hmem => ⟨hkept npt hmem, ht.publishedPair_eq hmem⟩)
    (fun npt hmem => (hvalues npt hmem).1) (w := .init uint32Buf stringBuf) rfl
  rw [nvsInit, if_neg (not_not.mpr hmount)]
  refine List.Forall₂.imp ?_ ((List.forall₂_and_left _ _).mpr ⟨fun npt hmem => hmem, hpub⟩)
  rintro npt p ⟨hmem, hp⟩
  exact ⟨hp.pair, hp.declares, hp.time, hp.value ▸ (hvalues npt hmem).2⟩

end

/-! ## Two boots of `apps/siot-net` -/

/-- A boot that is cut off in the middle of `nvs_init`. -/
def cutOffBoot : Boot := ⟨40, 7, .zero 20, .replicate 5 .nvsInit⟩

/-- The description is set in a browser, and all messages are handled. -/
def descriptionBoot : Boot where
  cacheSize := 40
  uint32Buf := 0
  stringBuf := .zero 20
  actions := .nvsAddObs :: .replicate 21 .nvsInit ++
    .request .zero
      (lit "[\x7b\"t\":\"description\",\"k\":\"0\",\"dt\":\"STR\",\"d\":\"barn\"\x7d]") ::
        .replicate 3 .post ++
          (List.replicate 7 [.nvsWaitMsg, .nvsHandle, .webWaitMsg, .webHandle]).flatten

/-- The third boot shows what came in during the second. -/
theorem nothing_invented_siotNet :
    let boots := [cutOffBoot, descriptionBoot]
    (∀ b ∈ boots, ∀ fs : Zms.reference.State, (b.run .reference gregorianTimegm true siotNetNvsPts
        fs).DumpsFit fun _ => []) ∧
      List.Forall₂ (Restored (offered .reference gregorianTimegm boots)) siotNetNvsPts
        (nvsInit .reference twoPages siotNetNvsPts
          ⟨flashAfter .reference gregorianTimegm true siotNetNvsPts boots fun _ => none, [], []⟩
            (.init 0 (.zero 20))).published :=
  nothing_invented Zms.reference_lawful (by decide) (by decide) (by decide) (fun _ _ => rfl)
    (by decide +kernel) (by decide +kernel) (by decide) 0 (.zero 20)

end ZephyrSiot
