import ZephyrSiot.NvsThreads
import ZephyrSiot.Verify.NvsRestore

/-!
# The boot count

Over every interleaving of `nvs_init` and `nvs_store_thread` the boot count advances by one,
unless a published boot count is handled after `nvs_pts_count` was set (`bootCount_iff`): then
the count read at boot is stored over the incremented one, and the boot is lost.
-/

namespace ZephyrSiot
open CStr NvsThreads

/-! ## The entry -/

/-- An entry that is not `e`: its id is another, and so are the points it publishes. -/
structure NvsPoint.Other (e npt : NvsPoint) : Prop where
  id : npt.nvsId ≠ e.nvsId
  pair : npt.publishedPair ≠ e.pair

/-- `e` is in the table, all else is other entries. -/
inductive NvsPoint.OnceIn (e : NvsPoint) : List NvsPoint → Prop
  | here : (∀ npt ∈ rest, e.Other npt) → OnceIn e (e :: rest)
  | there : e.Other npt → OnceIn e rest → OnceIn e (npt :: rest)

/-- The entries of a well formed table do not get in each other's way. -/
theorem IsNvsTable.onceIn {table : List NvsPoint} (h : IsNvsTable table) {e : NvsPoint}
    (hmem : e ∈ table) : e.OnceIn table := by
  have hother : ∀ npt ∈ table, npt ≠ e → e.Other npt := fun npt hnpt hne =>
    ⟨fun hid => hne (List.inj_on_of_nodup_map h.ids hnpt hmem hid),
      fun hpair => hne (List.inj_on_of_nodup_map h.pairs hnpt hmem
        ((h.publishedPair_eq hnpt).symm.trans hpair))⟩
  have hnodup : table.Nodup := h.ids.of_map
  clear h
  induction table with
  | nil => cases hmem
  | cons npt table ih =>
    rw [List.nodup_cons] at hnodup
    rw [List.forall_mem_cons] at hother
    rcases List.mem_cons.mp hmem with rfl | hmem
    · exact .here fun npt hnpt => hother.2 npt hnpt fun he => hnodup.1 (he ▸ hnpt)
    · exact .there (hother.1 fun he => hnodup.1 (he ▸ hmem)) (ih hmem hother.2 hnodup.2)

theorem NvsPoint.OnceIn.eq_of_id {e : NvsPoint} {table : List NvsPoint} (h : e.OnceIn table)
    {npt : NvsPoint} (hmem : npt ∈ table) (hid : npt.nvsId = e.nvsId) : npt = e := by
  induction h with
  | here hrest =>
    rcases List.mem_cons.mp hmem with rfl | hmem
    · rfl
    · exact ((hrest npt hmem).id hid).elim
  | there hother _ ih =>
    rcases List.mem_cons.mp hmem with rfl | hmem
    · exact (hother.id hid).elim
    · exact ih hmem

/-- A point is stored as the entry only when it is a point of the entry. -/
theorem NvsPoint.OnceIn.pair_of_lookup {e : NvsPoint} {table : List NvsPoint}
    (h : e.OnceIn table) {p : Point}
    (hid : pointTypeKeyToNvsId table p.type.bytes p.key.bytes = e.nvsId.toNat) :
    p.pair = e.pair := by
  rw [pointTypeKeyToNvsId_eq] at hid
  split at hid
  · next npt hfind =>
    obtain rfl := h.eq_of_id (List.mem_of_find?_eq_some hfind)
      (UInt16.toNat_inj.mp (Int.ofNat_inj.mp hid))
    have hpair : npt.pair = p.pair := by simpa using List.find?_some hfind
    exact hpair.symm
  · omega

/-! ## The invariant -/

section
variable {Z : Zms} (table : List NvsPoint) (e : NvsPoint) (v : Nat)

/-- A point that holds the count `v`. -/
structure Point.Counts (p : Point) : Prop where
  dataType : p.dataType = pointDataTypeInt
  word : p.data.bytes.take 4 = le32 v

def NvsThreads.stored (s : NvsThreads Z) : Option Bytes := Z.contents s.fs e.nvsId.toNat

/-- The published boot counts that have not been handled. -/
def NvsThreads.messages (s : NvsThreads Z) : List Point :=
  (s.held.toList ++ s.queue).filter (·.pair = e.pair)

/-- `nvs_store_handle_point` finds no entries before `nvs_init` is done. -/
def Guarded (s : NvsThreads Z) : Prop :=
  match s.pc with
  | .setCount => s.nvsPts = table ∧ s.nvsPtsCount = 0
  | .done => s.nvsPts = table ∧ s.nvsPtsCount = table.length
  | _ => s.nvsPtsCount = 0

structure Uncounted (s : NvsThreads Z) : Prop where
  stored : s.stored e = some (le32 v) ∨ s.stored e = none ∧ v = 0
  messages : s.messages e = []

structure Counted (s : NvsThreads Z) : Prop where
  stored : s.stored e = some (le32 (v + 1))
  once : (s.messages e).length ≤ 1
  counts : ∀ p ∈ s.messages e, p.Counts v

/-- Between two entries. -/
def Between (s : NvsThreads Z) (rest : List NvsPoint) : Prop :=
  e.OnceIn rest ∧ Uncounted e v s ∨ (∀ npt ∈ rest, e.Other npt) ∧ Counted e v s

/-- What holds at each place of `nvs_init`. -/
def Counting (s : NvsThreads Z) : Prop :=
  match s.pc with
  | .read rest => Between e v s rest
  | .increment npt rest =>
    e.Other npt ∧ Between e v s rest ∨
      npt = e ∧ (∀ npt ∈ rest, e.Other npt) ∧ s.locals.uint32Buf.toNat = v % 2 ^ 32 ∧
        s.locals.p.Counts v ∧ s.messages e = []
  | .publish npt rest =>
    e.Other npt ∧ Between e v s rest ∨
      npt = e ∧ (∀ npt ∈ rest, e.Other npt) ∧ s.stored e = some (le32 (v + 1)) ∧
        s.locals.p.Counts v ∧ s.messages e = []
  | _ => Counted e v s

/-- A boot count has been stored over the incremented one. -/
structure BootLost (s : NvsThreads Z) : Prop where
  pc : s.pc = .done
  stored : s.stored e = some (le32 v)
  messages : s.messages e = []

/-- The step that loses a boot: a published boot count is handled, and the entry is found. -/
def Overwrites (s : NvsThreads Z) (a : NvsAction) : Prop :=
  a = .handle ∧ ∃ p, s.held = some p ∧
    pointTypeKeyToNvsId s.searched p.type.bytes p.key.bytes = e.nvsId.toNat

end

section
variable {Z : Zms} {table : List NvsPoint} {e : NvsPoint} {v : Nat} {s s' : NvsThreads Z}

/-! ## The store thread -/

/-- Steps that leave `nvs_init` and the record where they are, and publish no boot count. -/
theorem Counting.mono (h : Counting e v s) (hpc : s'.pc = s.pc) (hlocals : s'.locals = s.locals)
    (hstored : s'.stored e = s.stored e)
    (hmessages : (s'.messages e).Sublist (s.messages e)) : Counting e v s' := by
  have hnil (hm : s.messages e = []) : s'.messages e = [] :=
    List.sublist_nil.mp (hm ▸ hmessages)
  have hcounted (hc : Counted e v s) : Counted e v s' :=
    ⟨hstored.trans hc.stored, hmessages.length_le.trans hc.once,
      fun p hp => hc.counts p (hmessages.subset hp)⟩
  have hbetween {rest} (hb : Between e v s rest) : Between e v s' rest :=
    hb.imp (And.imp_right fun hu => ⟨hstored ▸ hu.stored, hnil hu.messages⟩)
      (And.imp_right hcounted)
  unfold Counting at h ⊢
  rw [hpc]
  split at h
  · exact hbetween h
  · rw [hlocals]
    exact h.imp (And.imp_right hbetween)
      fun ⟨he, hrest, hbuf, hp, hm⟩ => ⟨he, hrest, hbuf, hp, hnil hm⟩
  · rw [hlocals, hstored]
    exact h.imp (And.imp_right hbetween)
      fun ⟨he, hrest, hst, hp, hm⟩ => ⟨he, hrest, hst, hp, hnil hm⟩
  · exact hcounted h

theorem messages_waitMsg : s.waitMsg.messages e = s.messages e := by
  unfold waitMsg
  split
  · next hheld hqueue => simp [NvsThreads.messages, hheld, hqueue]
  · rfl

theorem messages_zbusChanPub (p : Point) : (s.zbusChanPub p).messages e =
    s.messages e ++ (if s.observing then [p] else []).filter (·.pair = e.pair) := by
  rw [zbusChanPub_eq]
  simp only [NvsThreads.messages, ← List.append_assoc]
  exact List.filter_append ..

theorem messages_zbusChanPub_of_ne {p : Point} (hp : p.pair ≠ e.pair) :
    (s.zbusChanPub p).messages e = s.messages e := by
  rw [messages_zbusChanPub]
  split <;> simp [hp]

/-- Handling takes a message away. -/
theorem messages_of_held {p : Point} (h : s.held = some p) :
    s.messages e = [p].filter (·.pair = e.pair) ++ s.handle.messages e := by
  rw [handle, h]
  simp only [NvsThreads.messages, h]
  exact List.filter_append ..

theorem messages_handle : (s.handle.messages e).Sublist (s.messages e) := by
  cases h : s.held with
  | none => rw [handle, h]
  | some p => exact messages_of_held h ▸ List.sublist_append_right ..

theorem stored_handle_of_not_overwrites (hZ : Z.Lawful) (h : ¬ Overwrites e s .handle) :
    s.handle.stored e = s.stored e := by
  cases hheld : s.held with
  | none => rw [handle, hheld]
  | some p =>
    rw [handle, hheld]
    exact contents_nvsStoreHandlePoint_of_ne hZ fun hid => h ⟨rfl, p, hheld, hid⟩

/-- Only a boot count is handled over the record, and only when `nvs_init` is done. -/
theorem Overwrites.spec (hguard : Guarded table s) (htable : e.OnceIn table)
    (h : Overwrites e s a) :
    s.pc = .done ∧ ∃ p, s.held = some p ∧ p ∈ s.messages e ∧
      pointTypeKeyToNvsId s.searched p.type.bytes p.key.bytes = e.nvsId.toNat := by
  obtain ⟨-, p, hheld, hid⟩ := h
  have hempty (h0 : s.nvsPtsCount = 0) : False := by
    rw [searched, h0, List.take_zero, pointTypeKeyToNvsId] at hid
    omega
  unfold Guarded at hguard
  split at hguard
  · exact (hempty hguard.2).elim
  · next hpc =>
    have hsearched : s.searched = table := by
      rw [searched, hguard.1, hguard.2, List.take_length]
    refine ⟨hpc, p, hheld, ?_, hid⟩
    rw [hsearched] at hid
    simp [NvsThreads.messages, hheld, htable.pair_of_lookup hid]
  · exact (hempty hguard).elim

/-! ## The main thread -/

theorem Guarded.init (h : Guarded table s) : Guarded table (s.init table) := by
  unfold Guarded at h
  unfold NvsThreads.init
  cases hpc : s.pc with rw [hpc] at h
  | read rest =>
    cases rest with
    | nil => exact h
    | cons npt rest =>
      dsimp only
      split <;> exact h
  | increment npt rest => exact h
  | publish npt rest =>
    dsimp only
    rw [zbusChanPub_eq]
    exact h
  | setPts => exact ⟨rfl, h⟩
  | setCount => exact ⟨h.1, rfl⟩
  | done =>
    dsimp only
    rw [Guarded, hpc]
    exact h

/-- The entry reads as the count, and is written as the count when it is absent. -/
theorem read_uncounted (hZ : Z.Lawful) (he : e.CountsBoots) (h : Uncounted e v s) :
    ∃ fs w, nvsInit.read Z e s.fs s.locals = some (fs, w) ∧
      Z.contents fs e.nvsId.toNat = some (le32 v) ∧ w.uint32Buf.toNat = v % 2 ^ 32 ∧
      w.p.Counts v := by
  have hf : e.pointDef.dataType ≠ pointDataTypeFloat.toNat := he.1 ▸ by decide
  obtain ⟨hval, hself, -⟩ := readWord_spec hZ h.stored
  refine ⟨_, _, by rw [nvsInit.read, if_neg hf, if_pos he.1], hself, hval, rfl, ?_⟩
  refine (take_poke_le32 ..).trans (le32_congr ?_)
  rw [hval]
  omega

theorem Between.tail (h : Between e v s (npt :: rest)) :
    e.Other npt ∧ Between e v s rest ∨
      npt = e ∧ (∀ npt ∈ rest, e.Other npt) ∧ Uncounted e v s := by
  rcases h with ⟨hin, hu⟩ | ⟨hall, hc⟩
  · cases hin with
    | here hrest => exact .inr ⟨rfl, hrest, hu⟩
    | there hother hin => exact .inl ⟨hother, .inl ⟨hin, hu⟩⟩
  · rw [List.forall_mem_cons] at hall
    exact .inl ⟨hall.1, .inr ⟨hall.2, hc⟩⟩

/-- What happens to other entries does not show. -/
theorem Between.congr (h : Between e v s rest) (hstored : s'.stored e = s.stored e)
    (hmessages : s'.messages e = s.messages e) : Between e v s' rest :=
  h.imp (And.imp_right fun hu => ⟨hstored ▸ hu.stored, hmessages ▸ hu.messages⟩)
    (And.imp_right fun hc => ⟨hstored ▸ hc.stored, hmessages ▸ hc.once, hmessages ▸ hc.counts⟩)

/-- Publishing the point of an entry. -/
theorem Counting.zbusChanPub {p : Point} (hpc : s.pc = .read rest)
    (hpair : p.pair = npt.publishedPair)
    (h : e.Other npt ∧ Between e v s rest ∨
      npt = e ∧ (∀ npt ∈ rest, e.Other npt) ∧ s.stored e = some (le32 (v + 1)) ∧ p.Counts v ∧
        s.messages e = []) :
    Counting e v (s.zbusChanPub p) := by
  have hstored : (s.zbusChanPub p).stored e = s.stored e := congrArg (Z.contents · _) (by simp)
  unfold Counting
  rw [zbusChanPub_pc, hpc]
  rcases h with ⟨hother, hb⟩ | ⟨-, hrest, hst, hp, hm⟩
  · exact hb.congr hstored (messages_zbusChanPub_of_ne (hpair ▸ hother.pair))
  · have hsub : ((s.zbusChanPub p).messages e).Sublist [p] := by
      rw [messages_zbusChanPub, hm, List.nil_append]
      exact List.filter_sublist.trans (by split <;> simp)
    exact .inr ⟨hrest, hstored.trans hst, hsub.length_le,
      fun q hq => List.mem_singleton.mp (hsub.subset hq) ▸ hp⟩

/-- A step of `nvs_init` goes from each place to the next. -/
theorem Counting.init (hZ : Z.Lawful) (he : e.CountsBoots) (h : Counting e v s) :
    Counting e v (s.init table) := by
  have hne {npt} (hother : e.Other npt) : e.nvsId.toNat ≠ npt.nvsId.toNat :=
    fun hid => hother.id (UInt16.toNat_inj.mp hid.symm)
  unfold Counting at h
  unfold NvsThreads.init
  cases hpc : s.pc with rw [hpc] at h
  | read rest =>
    cases rest with
    | nil =>
      rcases h with ⟨hin, -⟩ | ⟨-, hc⟩
      · cases hin
      · exact ⟨hc.stored, hc.once, hc.counts⟩
    | cons npt rest =>
      rcases h.tail with ⟨hother, hb⟩ | ⟨rfl, hrest, hu⟩
      · dsimp only
        split
        · exact hb.congr rfl rfl
        · next hread =>
          exact .inl ⟨hother, hb.congr (contents_read_of_ne hZ hread (hne hother)) rfl⟩
      · obtain ⟨fs, w, hread, hself, hbuf, hp⟩ := read_uncounted hZ he hu
        simp only [hread]
        exact .inr ⟨rfl, hrest, hbuf, hp, hu.messages⟩
  | increment npt rest =>
    rcases h with ⟨hother, hb⟩ | ⟨rfl, hrest, hbuf, hp, hm⟩
    · exact .inl ⟨hother, hb.congr (contents_increment_of_ne hZ (hne hother)) rfl⟩
    · refine .inr ⟨rfl, hrest, ?_, hp, hm⟩
      refine (contents_increment hZ he).trans (congrArg some (le32_congr ?_))
      rw [UInt32.toNat_add, hbuf, UInt32.toNat_one]
      omega
  | publish npt rest =>
    refine Counting.zbusChanPub rfl (message_pair npt s.locals) ?_
    exact h.imp (And.imp_right fun hb => hb.congr rfl rfl)
      fun ⟨he, hrest, hst, hp, hm⟩ => ⟨he, hrest, hst, ⟨hp.dataType, hp.word⟩, hm⟩
  | setPts => exact ⟨h.stored, h.once, h.counts⟩
  | setCount => exact ⟨h.stored, h.once, h.counts⟩
  | done =>
    dsimp only
    rw [Counting, hpc]
    exact h

/-! ## Both threads -/

theorem Guarded.step (h : Guarded table s) (a : NvsAction) :
    Guarded table (nvsThreadsStep table s a) := by
  rcases eq_or_ne a .init with rfl | ha
  · exact h.init
  · obtain ⟨hpc, -, hpts, hcount⟩ := nvsThreadsStep_frame table s ha
    unfold Guarded at h ⊢
    rwa [hpc, hpts, hcount]

/-- The store thread and the other publishers leave the record alone without an overwrite, and
add no boot count to the queue. -/
theorem stored_messages_step (table : List NvsPoint) (hZ : Z.Lawful) {a : NvsAction}
    (hinit : a ≠ .init)
    (ha : ∀ p, a = .publish p → p.pair ≠ e.pair) (hover : ¬ Overwrites e s a) :
    (nvsThreadsStep table s a).stored e = s.stored e ∧
      ((nvsThreadsStep table s a).messages e).Sublist (s.messages e) := by
  cases a with
  | init => exact (hinit rfl).elim
  | addObs => exact ⟨rfl, .refl _⟩
  | waitMsg =>
    refine ⟨?_, by rw [nvsThreadsStep, messages_waitMsg]⟩
    simp only [nvsThreadsStep, waitMsg]
    split <;> rfl
  | handle => exact ⟨stored_handle_of_not_overwrites hZ hover, messages_handle⟩
  | publish p =>
    exact ⟨congrArg (Z.contents · _) (zbusChanPub_fs ..),
      by rw [nvsThreadsStep, messages_zbusChanPub_of_ne (ha p rfl)]⟩

/-- Without an overwrite a step keeps the invariant. -/
theorem Counting.step (hZ : Z.Lawful) (he : e.CountsBoots) {a : NvsAction}
    (ha : ∀ p, a = .publish p → p.pair ≠ e.pair) (h : Counting e v s)
    (hover : ¬ Overwrites e s a) : Counting e v (nvsThreadsStep table s a) := by
  rcases eq_or_ne a .init with rfl | hinit
  · exact h.init hZ he
  · obtain ⟨hpc, hlocals, -, -⟩ := nvsThreadsStep_frame table s hinit
    obtain ⟨hstored, hmessages⟩ := stored_messages_step table hZ hinit ha hover
    exact h.mono hpc hlocals hstored hmessages

/-- An overwrite puts the count back that was read at boot. -/
theorem BootLost.of_overwrites (hZ : Z.Lawful) (htable : e.OnceIn table)
    (hguard : Guarded table s) (h : Counting e v s) {a : NvsAction} (hover : Overwrites e s a) :
    BootLost e v (nvsThreadsStep table s a) := by
  obtain ⟨hpc, p, hheld, hmem, hid⟩ := hover.spec hguard htable
  obtain ⟨rfl, -⟩ := hover
  unfold Counting at h
  rw [hpc] at h
  have hp := h.counts p hmem
  have hlen : p.data.bytes.take p.dataLen = le32 v := by
    rw [Point.dataLen, if_pos (.inl hp.dataType), hp.word]
  refine ⟨(nvsThreadsStep_frame _ _ (by simp)).1.trans hpc, ?_, ?_⟩
  · simp only [nvsThreadsStep, handle, hheld, NvsThreads.stored]
    rw [contents_nvsStoreHandlePoint_of_eq hZ hid, hlen]
    rw [hlen, Ne, ← List.length_eq_zero_iff, length_le32]
    decide
  · -- the message handled was the only one
    have hone := h.once
    have hpair : p.pair = e.pair := of_decide_eq_true (List.mem_filter.mp hmem).2
    rw [messages_of_held hheld, List.filter_singleton, decide_eq_true hpair] at hone
    exact List.length_eq_zero_iff.mp (Nat.le_zero.mp (Nat.le_of_succ_le_succ hone))

/-- After that no boot count is left to handle. -/
theorem BootLost.step (hZ : Z.Lawful) (htable : e.OnceIn table) (hguard : Guarded table s)
    {a : NvsAction} (ha : ∀ p, a = .publish p → p.pair ≠ e.pair) (h : BootLost e v s) :
    BootLost e v (nvsThreadsStep table s a) := by
  rcases eq_or_ne a .init with rfl | hinit
  · rwa [nvsThreadsStep, NvsThreads.init, h.pc]
  · have hover : ¬ Overwrites e s a := fun hover => by
      obtain ⟨-, p, -, hmem, -⟩ := hover.spec hguard htable
      rw [h.messages] at hmem
      cases hmem
    obtain ⟨hstored, hmessages⟩ := stored_messages_step table hZ hinit ha hover
    exact ⟨(nvsThreadsStep_frame _ _ hinit).1.trans h.pc, hstored.trans h.stored,
      List.sublist_nil.mp (h.messages ▸ hmessages)⟩

/-- The boot count has advanced by one when `nvs_init` is done, in every interleaving of the two
threads, exactly when no published boot count was handled after `nvs_pts_count` was set. -/
theorem bootCount_iff (hZ : Z.Lawful) (htable : e.OnceIn table) (he : e.CountsBoots)
    {fs : Z.State} (hfs : Z.contents fs e.nvsId.toNat = some (le32 v) ∨
      Z.contents fs e.nvsId.toNat = none ∧ v = 0) (w : NvsLocals) {actions : List NvsAction}
    (hpub : ∀ a ∈ actions, ∀ p, a = .publish p → p.pair ≠ e.pair)
    (hdone : (Machine.run (nvsThreadsStep table) (start table fs w) actions).pc = .done) :
    (Machine.run (nvsThreadsStep table) (start table fs w) actions).stored e =
        some (le32 (v + 1)) ↔
      Machine.AtEveryStep (nvsThreadsStep table) (fun s a => ¬ Overwrites e s a)
        (start table fs w) actions := by
  have hstart : Guarded table (start table fs w) ∧ Counting e v (start table fs w) :=
    ⟨rfl, .inl ⟨htable, hfs, rfl⟩⟩
  rcases Machine.run_invariant_or_lost (I := fun s => Guarded table s ∧ Counting e v s)
    (L := fun s => Guarded table s ∧ BootLost e v s)
    (P := fun a => ∀ p, a = .publish p → p.pair ≠ e.pair) (C := fun s a => ¬ Overwrites e s a)
    (fun s a ha h hc => ⟨h.1.step a, h.2.step hZ he ha hc⟩)
    (fun s a ha h hc => ⟨h.1.step a, .of_overwrites hZ htable h.1 h.2 (Classical.not_not.mp hc)⟩)
    (fun s a ha h => ⟨h.1.step a, h.2.step hZ htable h.1 ha⟩) hstart hpub with
    ⟨hall, -, hcounting⟩ | ⟨hsome, -, hlost⟩
  · rw [Counting, hdone] at hcounting
    exact iff_of_true hcounting.stored hall
  · refine iff_of_false (fun hnext => ?_) hsome
    have := le32_injective (Option.some.inj (hlost.stored.symm.trans hnext))
    omega

end

/-! ## The application `apps/siot-simple` -/

/-- The only entry of its table. -/
def siotSimpleBootCount : NvsPoint := ⟨1, pointDefBootCount, lit "0"⟩

/-- Its first boot. -/
def siotSimpleStart : NvsThreads .reference :=
  start [siotSimpleBootCount] (fun _ => none) (.init 0 (.zero 20))

/-- The boot count is handled while `nvs_store_handle_point` finds no entries: it advances. -/
theorem bootCount_iff_early :
    let actions : List NvsAction :=
      [.addObs, .init, .init, .init, .waitMsg, .handle, .init, .init, .init]
    (Machine.run (nvsThreadsStep [siotSimpleBootCount]) siotSimpleStart actions).stored
        siotSimpleBootCount = some (le32 ((0 : Nat) + 1)) ↔
      Machine.AtEveryStep (nvsThreadsStep [siotSimpleBootCount])
        (fun s a => ¬ Overwrites siotSimpleBootCount s a) siotSimpleStart actions :=
  bootCount_iff Zms.reference_lawful
    ((by decide : IsNvsTable [siotSimpleBootCount]).onceIn (List.mem_singleton.mpr rfl))
    (by decide) (.inr ⟨rfl, rfl⟩) (.init 0 (.zero 20)) (by simp) rfl

/-- The boot count is handled after `nvs_init` has returned, and the first boot is lost. -/
theorem not_bootCount_advances :
    let s := Machine.run (nvsThreadsStep [siotSimpleBootCount]) siotSimpleStart
      [.addObs, .init, .init, .init, .init, .init, .init, .waitMsg, .handle]
    (s.pc = .done ∧ s.queue = [] ∧ s.held = none) ∧
      s.stored siotSimpleBootCount ≠ some (le32 (0 + 1)) :=
  ⟨⟨rfl, rfl, rfl⟩, by decide +kernel⟩

end ZephyrSiot
