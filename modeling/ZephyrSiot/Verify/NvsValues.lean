import ZephyrSiot.Verify.BootCount
import ZephyrSiot.Verify.DeviceStores

/-!
# The values in the flash

What the record of an entry stands for, whatever its history: `nvs_init` reads it as a value, and
publishes a point of that value; a stored point leaves a record of its own.
-/

namespace ZephyrSiot
open CStr

theorem ReadsAs.length_le {r v : Bytes} (h : ReadsAs r v) : v.length ≤ 19 := by
  have hlen := h.length
  rw [← h.string (.replicate (20 - r.length) 0) (by simp; omega)]
  exact (cstr_length_le _).trans (List.length_take_le ..)

namespace NvsPoint

abbrev IsText (npt : NvsPoint) : Prop := npt.pointDef.dataType = pointDataTypeString.toNat

/-- What the entry keeps of a point: its word, or its string up to the last byte of the field. -/
def value (npt : NvsPoint) (p : Point) : Bytes :=
  if npt.IsText then p.data.str.take 19 else p.data.bytes.take 4

/-- What an absent record is read as. -/
def blank (npt : NvsPoint) : Bytes := if npt.IsText then [] else [0, 0, 0, 0]

/-- The record is read as this value. -/
def Reads (npt : NvsPoint) (v : Bytes) : Option Bytes → Prop
  | none => v = npt.blank
  | some r => if npt.IsText then ReadsAs r v else r = v ∧ v.length = 4

/-- The point has the data type that the entry declares. -/
abbrev Declares (npt : NvsPoint) (p : Point) : Prop :=
  (p.dataType.toNat : Int) = npt.pointDef.dataType

variable {npt : NvsPoint} {v : Bytes}

theorem IsText.not_countsBoots (h : npt.IsText) : ¬ npt.CountsBoots := fun hc =>
  absurd (h.symm.trans hc.1) (by decide)

/-- A word, as the number it is written from. -/
theorem Reads.word (hs : ¬ npt.IsText) {r : Option Bytes} (h : npt.Reads v r) :
    ∃ x : Nat, v = le32 x ∧ (r = some (le32 x) ∨ r = none ∧ x = 0) := by
  cases r with
  | none =>
    have hv : v = [0, 0, 0, 0] := by rw [show v = npt.blank from h, blank, if_neg hs]
    exact ⟨0, hv.trans (by decide), .inr ⟨rfl, rfl⟩⟩
  | some r =>
    rw [Reads, if_neg hs] at h
    obtain ⟨rfl, hlen⟩ := h
    have hword := le32_readLe32 hlen
    exact ⟨readLe32 r, hword.symm, .inl (congrArg some hword.symm)⟩

theorem reads_le32 (hs : ¬ npt.IsText) (x : Int) : npt.Reads (le32 x) (some (le32 x)) := by
  rw [Reads, if_neg hs]
  exact ⟨rfl, length_le32 x⟩

theorem Reads.length_text (hs : npt.IsText) {r : Option Bytes} (h : npt.Reads v r) :
    v.length ≤ 19 := by
  cases r with
  | none =>
    rw [show v = npt.blank from h, blank, if_pos hs]
    exact Nat.zero_le _
  | some r =>
    rw [Reads, if_pos hs] at h
    exact h.length_le

/-- What is stored of a point is read as its value. -/
theorem reads_stored (hkept : npt.Kept) {p : Point} (hp : npt.Declares p) :
    p.data.bytes.take p.dataLen ≠ [] ∧
      npt.Reads (npt.value p) (some (p.data.bytes.take p.dataLen)) := by
  have hne := (record_store hkept hp).1
  refine ⟨hne, ?_⟩
  rw [Reads, value]
  rcases Classical.em npt.IsText with hs | hs
  · rw [if_pos hs, if_pos hs]
    exact readsAs_data (UInt8.toNat_inj.mp (Int.ofNat_inj.mp (hp.trans hs)))
  · rw [if_neg hs, if_neg hs]
    have hlen : p.dataLen = 4 := by
      rw [Kept, ← hp] at hkept
      refine if_pos ?_
      rcases hkept with hf | hi | hs'
      · exact .inr (UInt8.toNat_inj.mp (Int.ofNat_inj.mp hf))
      · exact .inl (UInt8.toNat_inj.mp (Int.ofNat_inj.mp hi))
      · exact (hs (hp.symm.trans hs')).elim
    rw [hlen]
    refine ⟨rfl, ?_⟩
    rw [List.length_take, p.data.length_eq]
    rfl

end NvsPoint

/-! ## Reading an entry -/

section
variable {Z : Zms} (hZ : Z.Lawful) {npt : NvsPoint} {v : Bytes} {s : Z.State} {w : NvsLocals}
include hZ

/-- The entry is read as its value, which the flash then holds. -/
def ReadsEntry (Z : Zms) (npt : NvsPoint) (v : Bytes) (s : Z.State) (w : NvsLocals) : Prop :=
  ∃ s' w', nvsInit.read Z npt s w = some (s', w') ∧
    npt.Reads v (Z.contents s' npt.nvsId.toNat) ∧
    npt.value (nvsInit.message npt w') = v ∧ npt.Declares (nvsInit.message npt w')

/-- A word is read and put into the point. -/
theorem word_readWord (hs : ¬ npt.IsText) (h : npt.Reads v (Z.contents s npt.nvsId.toNat))
    (a : CharArray 20) :
    npt.Reads v (Z.contents (nvsInit.readWord Z s npt.nvsId.toNat).1 npt.nvsId.toNat) ∧
      (a.poke 0 (le32 (nvsInit.readWord Z s npt.nvsId.toNat).2.toNat)).bytes.take 4 = v := by
  obtain ⟨x, rfl, hrec⟩ := h.word hs
  obtain ⟨hval, hself, -⟩ := readWord_spec hZ hrec
  rw [hself, take_poke_le32]
  refine ⟨NvsPoint.reads_le32 hs _, le32_congr ?_⟩
  rw [hval]
  omega

theorem readsEntry (hkept : npt.Kept) (h : npt.Reads v (Z.contents s npt.nvsId.toNat)) :
    ReadsEntry Z npt v s w := by
  have hvalue (hs : ¬ npt.IsText) (p : Point) : npt.value p = p.data.bytes.take 4 := if_neg hs
  rcases hkept with hdt | hdt | hdt
  · have hs : ¬ npt.IsText := by
      rw [NvsPoint.IsText, hdt]
      decide
    obtain ⟨hself, hword⟩ := word_readWord hZ hs h w.p.data
    refine ⟨_, _, by rw [nvsInit.read, if_pos hdt], hself, ?_, ?_⟩
    · rw [hvalue hs]
      exact hword
    · exact hdt.symm
  · have hs : ¬ npt.IsText := by
      rw [NvsPoint.IsText, hdt]
      decide
    have hf : npt.pointDef.dataType ≠ pointDataTypeFloat.toNat := by
      rw [hdt]
      decide
    obtain ⟨hself, hword⟩ := word_readWord hZ hs h w.p.data
    refine ⟨_, _, by rw [nvsInit.read, if_neg hf, if_pos hdt], hself, ?_, ?_⟩
    · rw [hvalue hs]
      exact hword
    · exact hdt.symm
  · have hf : npt.pointDef.dataType ≠ pointDataTypeFloat.toNat := by
      rw [hdt]
      decide
    have hi : npt.pointDef.dataType ≠ pointDataTypeInt.toNat := by
      rw [hdt]
      decide
    have hlen := h.length_text hdt
    obtain ⟨r, hr, hrec⟩ : ∃ r, ReadsAs r v ∧ (Z.contents s npt.nvsId.toNat = some r ∧ ReadsAs r v ∨
        Z.contents s npt.nvsId.toNat = none ∧ r = [nul] ∧ v = []) := by
      cases hc : Z.contents s npt.nvsId.toNat with
      | none =>
        rw [hc] at h
        have hv : v = [] := by rw [show v = npt.blank from h, NvsPoint.blank, if_pos hdt]
        exact ⟨[nul], hv ▸ readsAs_nul, .inr ⟨rfl, rfl, hv⟩⟩
      | some r =>
        rw [hc, NvsPoint.Reads, if_pos hdt] at h
        exact ⟨r, h, .inl ⟨rfl, h⟩⟩
    obtain ⟨hval, hself, -⟩ := readString_spec hZ w.stringBuf hrec
    refine ⟨_, _, by rw [nvsInit.read, if_neg hf, if_neg hi, if_pos hdt], ?_, ?_, ?_⟩
    · rw [hself, NvsPoint.Reads, if_pos hdt]
      exact hr
    · rw [NvsPoint.value, if_pos hdt]
      refine (congrArg (List.take 19) (copyStrField_str ..)).trans ?_
      rw [hval, List.take_of_length_le hlen, List.take_of_length_le hlen]
    · exact hdt.symm

/-- A point that a boot publishes for an entry which is read as `v`. -/
structure Republishes (npt : NvsPoint) (v : Bytes) (p : Point) : Prop where
  pair : p.pair = npt.pair
  declares : npt.Declares p
  value : npt.value p = v
  time : p.time = 0

/-- The loop of `nvs_init` publishes the value of each entry. -/
theorem loop_republishes {table : List NvsPoint} {values : NvsPoint → Bytes}
    (hids : (table.map NvsPoint.nvsId).Nodup)
    (htable : ∀ npt ∈ table, npt.Kept ∧ npt.publishedPair = npt.pair)
    (hreads : ∀ npt ∈ table, npt.Reads (values npt) (Z.contents s npt.nvsId.toNat))
    (htime : w.p.time = 0) :
    List.Forall₂ (fun npt p => Republishes npt (values npt) p) table
      (nvsInit.loop Z table s w).2 := by
  induction table generalizing s w with
  | nil => exact .nil
  | cons npt table ih =>
    rw [List.map_cons, List.nodup_cons] at hids
    simp only [List.forall_mem_cons] at htable hreads
    obtain ⟨s', w', hread, -, hvalue, hdeclares⟩ :=
      readsEntry hZ (w := w) htable.1.1 hreads.1
    have hpub : Republishes npt (values npt) (nvsInit.message npt w') :=
      ⟨(message_pair ..).trans htable.1.2, hdeclares, hvalue,
        (nvsInit.read_p hread).2.trans htime⟩
    simp only [nvsInit.loop, hread]
    refine .cons hpub (ih hids.2 htable.2 (fun npt' hmem => ?_) hpub.time)
    have hne : npt'.nvsId.toNat ≠ npt.nvsId.toNat := fun e =>
      hids.1 (List.mem_map.mpr ⟨npt', hmem, UInt16.toNat_inj.mp e⟩)
    rw [contents_increment_of_ne hZ hne, contents_read_of_ne hZ hread hne]
    exact hreads.2 npt' hmem

end

end ZephyrSiot
