import ZephyrSiot.Nvs
import ZephyrSiot.Theory.Machine
import ZephyrSiot.Verify.DumpBounds
import Mathlib.Data.List.Forall2

/-!
# Persisted points are restored

Over every history of boots and stored points, a boot publishes one point for each entry of the
table with the value last stored for it, unless an entry with long names was stored and its
description ran past the buffer of the log (`nvsInit_restores_iff`). The invariant gives the record of
an entry as a function of what happened to the entry (`NvsPoint.record`); a stored point
and a boot are one step each on both sides.
-/

namespace ZephyrSiot
open CStr

/-! ## Histories -/

/-- What has happened to an entry since the flash was empty. -/
structure EntryHistory where
  /-- The point stored last. -/
  last : Option Point
  /-- The boots since then, or since the flash was empty. -/
  boots : Nat

namespace EntryHistory

def empty : EntryHistory := ⟨none, 0⟩

def boot (h : EntryHistory) : EntryHistory := { h with boots := h.boots + 1 }

def store (p : Point) : EntryHistory := ⟨some p, 0⟩

/-- The four bytes of the value stored last, zero when there is none. -/
def word (h : EntryHistory) : Bytes :=
  match h.last with
  | some p => p.data.bytes.take 4
  | none => [0, 0, 0, 0]

/-- The string stored last, which loses its last byte when it fills the whole field. -/
def string (h : EntryHistory) : Bytes :=
  match h.last with
  | some p => p.data.str.take 19
  | none => []

end EntryHistory

inductive NvsEvent where
  | store (p : Point)
  /-- A boot whose `nvs_init` finds this flash device, and these values in its uninitialized
  locals. -/
  | boot (f : Flash) (uint32Buf : UInt32) (stringBuf : CharArray 20)

/-- What has happened to the entries of a table. Points are stored once `nvs_init` has run, and
not at all when it cannot mount the file system. -/
structure NvsHistory where
  booted : Bool
  entry : NvsPoint → EntryHistory

def NvsHistory.empty : NvsHistory := ⟨false, fun _ => .empty⟩

def NvsHistory.step (h : NvsHistory) : NvsEvent → NvsHistory
  | .store p =>
    { h with entry := fun npt =>
        if h.booted ∧ npt.pair = p.pair then .store p else h.entry npt }
  | .boot f .. =>
    if nvsMount f ≠ 0 then { h with booted := false }
    else ⟨true, fun npt => (h.entry npt).boot⟩

/-- A reboot clears the static variables. -/
def nvsBoot (Z : Zms) (table : List NvsPoint) (s : NvsState Z) (f : Flash) (uint32Buf : UInt32)
    (stringBuf : CharArray 20) : NvsInitResult Z :=
  nvsInit Z f table { s with nvsPts := [] } (.init uint32Buf stringBuf)

/-- The firmware's side of an event. -/
def nvsStep (Z : Zms) (table : List NvsPoint) (s : NvsState Z) : NvsEvent → NvsState Z
  | .store p => nvsStoreHandlePoint Z s p
  | .boot f uint32Buf stringBuf => (nvsBoot Z table s f uint32Buf stringBuf).state

/-! ## Records -/

/-- The data types that `nvs_init` restores. -/
def NvsPoint.Kept (npt : NvsPoint) : Prop :=
  npt.pointDef.dataType = pointDataTypeFloat.toNat ∨
    npt.pointDef.dataType = pointDataTypeInt.toNat ∨
      npt.pointDef.dataType = pointDataTypeString.toNat

instance : DecidablePred NvsPoint.Kept := fun _ => inferInstanceAs (Decidable (_ ∨ _))

/-- The boots that the next published count includes. -/
def NvsPoint.bootsCounted (npt : NvsPoint) (h : EntryHistory) : Nat :=
  if npt.CountsBoots then h.boots else 0

/-- The record of an entry, given what happened to it. -/
def NvsPoint.record (npt : NvsPoint) (h : EntryHistory) : Option Bytes :=
  if h.last = none ∧ h.boots = 0 then none
  else if npt.pointDef.dataType = pointDataTypeString.toNat then
    some (match h.last with
      | some p => p.data.bytes.take p.dataLen
      | none => [nul])
  else some (le32 (readLe32 h.word + npt.bootsCounted h : Nat))

/-- The published point is the entry's, with the value that its history says. -/
structure Restores (npt : NvsPoint) (h : EntryHistory) (p : Point) : Prop where
  pair : p.pair = npt.pair
  dataType : (p.dataType.toNat : Int) = npt.pointDef.dataType
  time : p.time = 0
  word : npt.pointDef.dataType ≠ pointDataTypeString.toNat → ¬ npt.CountsBoots →
    p.data.bytes.take 4 = h.word
  count : npt.CountsBoots → readLe32 p.data.bytes = (readLe32 h.word + h.boots) % 2 ^ 32
  string : npt.pointDef.dataType = pointDataTypeString.toNat → p.data.str = h.string

/-! ## Reading -/

section
variable {Z : Zms} (hZ : Z.Lawful) {s : Z.State} {i : Nat}
include hZ

/-- A word that is absent reads as zero, and is written as zero. -/
theorem readWord_spec {x : Nat}
    (h : Z.contents s i = some (le32 x) ∨ Z.contents s i = none ∧ x = 0) :
    (nvsInit.readWord Z s i).2.toNat = x % 2 ^ 32 ∧
      Z.contents (nvsInit.readWord Z s i).1 i = some (le32 x) ∧
      ∀ j, j ≠ i → Z.contents (nvsInit.readWord Z s i).1 j = Z.contents s j := by
  rcases h with h | ⟨h, rfl⟩
  · have hread := hZ.read_some h 4
    have hpos : ¬ ((min (le32 x).length 4 : Nat) : Int) < 0 := by omega
    have hbuf : poke [0, 0, 0, 0] 0 ((le32 x).take 4) = le32 x := rfl
    have hval := readLe32_le32 x
    have hword : nvsInit.readWord Z s i = (s, .ofNat (readLe32 (le32 x))) := by
      rw [nvsInit.readWord, hread]
      simp only [if_neg hpos, hbuf]
    rw [hword]
    refine ⟨?_, h, fun _ _ => rfl⟩
    rw [UInt32.toNat_ofNat']
    omega
  · obtain ⟨hrc, hbytes⟩ := hZ.read_none h 4
    have hread : Z.read s i 4 = ((Z.read s i 4).1, []) := Prod.ext rfl hbytes
    have hword : nvsInit.readWord Z s i = ((Z.write s i [0, 0, 0, 0]).2, 0) := by
      rw [nvsInit.readWord, hread]
      simp only [if_pos hrc]
      rfl
    rw [hword]
    refine ⟨rfl, ?_, fun j hj => ?_⟩
    · exact (hZ.contents_write ..).trans (if_pos rfl)
    · exact (hZ.contents_write ..).trans (if_neg hj)

/-- A record that is read as the string `t`, over any rest of the buffer. -/
structure ReadsAs (v t : Bytes) : Prop where
  length : v.length ≤ 20
  ne_nil : v ≠ []
  string : ∀ rest, v.length + rest.length = 20 → cstr ((v ++ rest).take 19) = t

omit hZ in
theorem readsAs_nul : ReadsAs [nul] [] := ⟨by decide, by decide, fun _ _ => rfl⟩

omit hZ in
theorem readsAs_data {p : Point} (h : p.dataType = pointDataTypeString) :
    ReadsAs (p.data.bytes.take p.dataLen) (p.data.str.take 19) := by
  have hlen := p.data.length_eq
  rw [CharArray.str, cstr, List.take_takeWhile, ← cstr]
  have hstr := cstr_length_le (p.data.bytes.take 19)
  have hdata : p.dataLen = (cstr (p.data.bytes.take 19)).length + 1 := by
    rw [Point.dataLen, h]
    rfl
  rw [List.length_take, hlen] at hstr
  rw [hdata]
  refine ⟨by simp; omega, by simp [← List.length_eq_zero_iff, hlen], fun rest hrest => ?_⟩
  by_cases hfull : (cstr (p.data.bytes.take 19)).length = 19
  · -- no terminator in the first 19 bytes: the whole field was written
    rw [hfull, List.take_of_length_le hlen.le] at hrest ⊢
    obtain rfl : rest = [] := List.length_eq_zero_iff.mp (by omega)
    rw [List.append_nil]
  · have h0 : 0 ∈ p.data.bytes.take 19 := by
      refine by_contra fun hno => hfull ?_
      rw [cstr_eq_self hno, List.length_take, hlen]
      rfl
    have hc0 := zero_notMem_cstr (p.data.bytes.take 19)
    obtain ⟨t, ht⟩ := exists_cstr_append h0
    generalize cstr (p.data.bytes.take 19) = c at *
    have htake : p.data.bytes.take (c.length + 1) = c ++ [0] := by
      rw [← List.take_append_drop 19 p.data.bytes, ht, List.append_assoc, List.take_append,
        List.take_of_length_le (by omega), Nat.add_sub_cancel_left]
      rfl
    rw [htake]
    obtain ⟨n, hn⟩ : ∃ n, 19 = c.length + (n + 1) := ⟨18 - c.length, by omega⟩
    rw [hn, List.append_assoc, List.take_append, List.take_of_length_le (by omega),
      Nat.add_sub_cancel_left]
    exact cstr_append_zero hc0 _

/-- A string that is absent reads as empty, and is written as empty. -/
theorem readString_spec {v t : Bytes} (buf : CharArray 20)
    (h : Z.contents s i = some v ∧ ReadsAs v t ∨ Z.contents s i = none ∧ v = [nul] ∧ t = []) :
    cstr (nvsInit.readString Z s i buf).2.bytes = t ∧
      Z.contents (nvsInit.readString Z s i buf).1 i = some v ∧
      ∀ j, j ≠ i → Z.contents (nvsInit.readString Z s i buf).1 j = Z.contents s j := by
  rcases h with ⟨h, hv⟩ | ⟨h, rfl, rfl⟩
  · have hread := hZ.read_some h 20
    have hpos : ¬ ((min v.length 20 : Nat) : Int) < 0 := by omega
    have hstring : nvsInit.readString Z s i buf =
        (s, ((buf.poke 0 [nul]).poke 0 v).poke 19 [nul]) := by
      rw [nvsInit.readString, hread, List.take_of_length_le hv.length]
      simp only [if_neg hpos]
    rw [hstring]
    refine ⟨?_, h, fun _ _ => rfl⟩
    have hlen := (buf.poke 0 [nul]).length_eq
    have hrun := CharArray.poke_zero_bytes (a := buf.poke 0 [nul]) hv.length
    have hlast : (((buf.poke 0 [nul]).poke 0 v).poke 19 [nul]).bytes =
        (v ++ (buf.poke 0 [nul]).bytes.drop v.length).take 19 ++ [nul] := by
      rw [← hrun]
      exact (poke_eq (by simp [CharArray.length_eq])).trans (by simp [CharArray.length_eq])
    rw [hlast, cstr_append_nul]
    have := hv.length
    exact hv.string _ (by simp [hlen]; omega)
  · obtain ⟨hrc, hbytes⟩ := hZ.read_none h 20
    have hread : Z.read s i 20 = ((Z.read s i 20).1, []) := Prod.ext rfl hbytes
    have hstring : nvsInit.readString Z s i buf =
        ((Z.write s i [nul]).2, (buf.poke 0 [nul]).poke 0 []) := by
      rw [nvsInit.readString, hread]
      simp only [if_pos hrc]
    rw [hstring]
    refine ⟨?_, ?_, fun j hj => ?_⟩
    · change cstr (CStr.poke (CStr.poke buf.bytes 0 [nul]) 0 []) = []
      rw [poke_zero (by simp), poke_zero (by simp [buf.length_eq])]
      rfl
    · exact (hZ.contents_write ..).trans (if_pos rfl)
    · exact (hZ.contents_write ..).trans (if_neg hj)

end

/-! ## One entry -/

theorem EntryHistory.length_word (h : EntryHistory) : h.word.length = 4 := by
  unfold EntryHistory.word
  split
  · next p _ => rw [List.length_take, p.data.length_eq]; rfl
  · rfl

theorem EntryHistory.length_string (h : EntryHistory) : h.string.length ≤ 19 := by
  unfold EntryHistory.string
  split
  · exact List.length_take_le ..
  · exact Nat.zero_le 19

theorem take_poke_le32 (a : CharArray 20) (v : Int) : (a.poke 0 (le32 v)).bytes.take 4 = le32 v := by
  rw [CharArray.poke_zero_bytes (by rw [length_le32]; decide)]
  exact List.take_left' (length_le32 v)

/-- The record of a word entry is its word, once there is one. -/
theorem record_word {npt : NvsPoint} (hs : npt.pointDef.dataType ≠ pointDataTypeString.toNat)
    (h : EntryHistory) :
    (npt.record h = some (le32 (readLe32 h.word + npt.bootsCounted h : Nat)) ∨
      npt.record h = none ∧ readLe32 h.word + npt.bootsCounted h = 0) ∧
      npt.record h.boot = some (le32 (readLe32 h.word + npt.bootsCounted h.boot : Nat)) := by
  refine ⟨?_, ?_⟩
  · rw [NvsPoint.record]
    split
    · next hnone =>
      obtain ⟨hlast, hboots⟩ := hnone
      refine .inr ⟨rfl, ?_⟩
      have hword : h.word = [0, 0, 0, 0] := by rw [EntryHistory.word, hlast]
      rw [hword, NvsPoint.bootsCounted, hboots, ite_self]
      rfl
    · exact .inl rfl
  · rw [NvsPoint.record, if_neg (by simp [EntryHistory.boot]), if_neg hs]
    rfl

/-- The record of a string entry reads as its string, once there is one. -/
theorem record_string {npt : NvsPoint} (hs : npt.pointDef.dataType = pointDataTypeString.toNat)
    {h : EntryHistory}
    (hlast : ∀ p, h.last = some p → (p.dataType.toNat : Int) = npt.pointDef.dataType) :
    ∃ v, npt.record h.boot = some v ∧ (npt.record h = some v ∧ ReadsAs v h.string ∨
      npt.record h = none ∧ v = [nul] ∧ h.string = []) := by
  have hboot : ¬ (h.boot.last = none ∧ h.boot.boots = 0) := by simp [EntryHistory.boot]
  rw [NvsPoint.record, if_neg hboot, if_pos hs]
  refine ⟨_, rfl, ?_⟩
  rw [NvsPoint.record]
  cases hl : h.last with
  | none =>
    have hstring : h.string = [] := by rw [EntryHistory.string, hl]
    have hboots : h.boot.last = none := hl
    rw [hboots, hstring]
    split
    · exact .inr ⟨rfl, rfl, rfl⟩
    · exact .inl ⟨rfl, readsAs_nul⟩
  | some p =>
    have hstring : h.string = p.data.str.take 19 := by rw [EntryHistory.string, hl]
    have hboots : h.boot.last = some p := hl
    have hdt : p.dataType = pointDataTypeString := by
      have := hlast p hl
      rw [hs] at this
      exact UInt8.toNat_inj.mp (by omega)
    rw [hboots, hstring, if_neg (by simp), if_pos hs]
    exact .inl ⟨rfl, readsAs_data hdt⟩

section
variable {Z : Zms} (hZ : Z.Lawful) {npt : NvsPoint} {h : EntryHistory} {s : Z.State}
  {w : NvsLocals}
include hZ

/-- One entry of the loop goes from the record its history says to the record after one more boot,
publishing what the history says. -/
def EntryRestores (Z : Zms) (npt : NvsPoint) (h : EntryHistory) (s : Z.State) (w : NvsLocals) :
    Prop :=
  ∃ s' w', nvsInit.read Z npt s w = some (s', w') ∧
    Z.contents (nvsInit.increment Z npt s' w') npt.nvsId.toNat = npt.record h.boot ∧
    (∀ j, j ≠ npt.nvsId.toNat → Z.contents (nvsInit.increment Z npt s' w') j = Z.contents s j) ∧
    Restores npt h (nvsInit.message npt w')

/-- A float: nothing but the record itself. -/
theorem entry_restores_float (hdt : npt.pointDef.dataType = pointDataTypeFloat.toNat)
    (hpair : npt.publishedPair = npt.pair)
    (hrec : Z.contents s npt.nvsId.toNat = npt.record h) (htime : w.p.time = 0) :
    EntryRestores Z npt h s w := by
  have hcount : ¬ npt.CountsBoots := fun hc =>
    absurd (hdt.symm.trans hc.1) (by decide)
  have hs : npt.pointDef.dataType ≠ pointDataTypeString.toNat := by
    rw [hdt]
    decide
  obtain ⟨hword, hboot⟩ := record_word hs h
  rw [← hrec] at hword
  obtain ⟨hval, hself, hother⟩ := readWord_spec hZ hword
  simp only [NvsPoint.bootsCounted, if_neg hcount, Nat.add_zero] at hval hself hboot
  refine ⟨_, _, by rw [nvsInit.read, if_pos hdt], ?_, ?_, ?_⟩
  · rw [nvsInit.increment, if_neg hcount, hself, hboot]
  · rw [nvsInit.increment, if_neg hcount]
    exact hother
  · refine ⟨(message_pair ..).trans hpair, hdt.symm, htime, fun _ _ => ?_,
      fun hc => (hcount hc).elim, fun hs' => (hs hs').elim⟩
    rw [← le32_readLe32 h.length_word]
    refine (take_poke_le32 ..).trans (le32_congr ?_)
    rw [hval]
    omega

/-- An integer: the record, or the boots that it counts. -/
theorem entry_restores_int (hdt : npt.pointDef.dataType = pointDataTypeInt.toNat)
    (hpair : npt.publishedPair = npt.pair)
    (hrec : Z.contents s npt.nvsId.toNat = npt.record h) (htime : w.p.time = 0) :
    EntryRestores Z npt h s w := by
  have hs : npt.pointDef.dataType ≠ pointDataTypeString.toNat := by
    rw [hdt]
    decide
  have hf : npt.pointDef.dataType ≠ pointDataTypeFloat.toNat := by
    rw [hdt]
    decide
  obtain ⟨hword, hboot⟩ := record_word hs h
  rw [← hrec] at hword
  obtain ⟨hval, hself, hother⟩ := readWord_spec hZ hword
  refine ⟨_, _, by rw [nvsInit.read, if_neg hf, if_pos hdt], ?_, ?_, ?_⟩
  · rw [hboot]
    rcases Classical.em npt.CountsBoots with hc | hc
    · refine (contents_increment hZ hc).trans (congrArg some (le32_congr ?_))
      simp only [NvsPoint.bootsCounted, if_pos hc, EntryHistory.boot] at hval ⊢
      rw [UInt32.toNat_add, hval, UInt32.toNat_one]
      omega
    · rw [nvsInit.increment, if_neg hc, hself]
      simp only [NvsPoint.bootsCounted, if_neg hc]
  · exact fun j hj => (contents_increment_of_ne hZ hj).trans (hother j hj)
  · refine ⟨(message_pair ..).trans hpair, hdt.symm, htime, fun _ hc => ?_, fun hc => ?_,
      fun hs' => (hs hs').elim⟩
    · rw [← le32_readLe32 h.length_word]
      refine (take_poke_le32 ..).trans (le32_congr ?_)
      rw [hval, NvsPoint.bootsCounted, if_neg hc]
      omega
    · rw [NvsPoint.bootsCounted, if_pos hc] at hval
      have hread := readLe32_poke w.p.data (nvsInit.readWord Z s npt.nvsId.toNat).2.toNat
      change readLe32 (w.p.data.poke 0 (le32 _)).bytes = _
      omega

theorem entry_restores_string (hdt : npt.pointDef.dataType = pointDataTypeString.toNat)
    (hpair : npt.publishedPair = npt.pair)
    (hlast : ∀ p, h.last = some p → (p.dataType.toNat : Int) = npt.pointDef.dataType)
    (hrec : Z.contents s npt.nvsId.toNat = npt.record h) (htime : w.p.time = 0) :
    EntryRestores Z npt h s w := by
  have hf : npt.pointDef.dataType ≠ pointDataTypeFloat.toNat := by
    rw [hdt]
    decide
  have hi : npt.pointDef.dataType ≠ pointDataTypeInt.toNat := by
    rw [hdt]
    decide
  have hcount : ¬ npt.CountsBoots := fun hc => hi hc.1
  obtain ⟨v, hboot, hstring⟩ := record_string hdt hlast
  rw [← hrec] at hstring
  obtain ⟨hval, hself, hother⟩ := readString_spec hZ w.stringBuf hstring
  refine ⟨_, _, by rw [nvsInit.read, if_neg hf, if_neg hi, if_pos hdt], ?_, ?_, ?_⟩
  · rw [nvsInit.increment, if_neg hcount, hself, hboot]
  · rw [nvsInit.increment, if_neg hcount]
    exact hother
  · refine ⟨(message_pair ..).trans hpair, hdt.symm, htime, fun hs' => (hs' hdt).elim,
      fun hc => (hcount hc).elim, fun _ => ?_⟩
    refine (copyStrField_str ..).trans ?_
    rw [hval, List.take_of_length_le h.length_string]

theorem entry_restores (hkept : npt.Kept) (hpair : npt.publishedPair = npt.pair)
    (hlast : ∀ p, h.last = some p → (p.dataType.toNat : Int) = npt.pointDef.dataType)
    (hrec : Z.contents s npt.nvsId.toNat = npt.record h) (htime : w.p.time = 0) :
    EntryRestores Z npt h s w := by
  rcases hkept with hdt | hdt | hdt
  · exact entry_restores_float hZ hdt hpair hrec htime
  · exact entry_restores_int hZ hdt hpair hrec htime
  · exact entry_restores_string hZ hdt hpair hlast hrec htime

/-- All entries of the loop. One leaves the records of the others alone, as its id is its own. -/
theorem loop_restores {table : List NvsPoint} {entry : NvsPoint → EntryHistory}
    (hids : (table.map NvsPoint.nvsId).Nodup)
    (htable : ∀ npt ∈ table, npt.Kept ∧ npt.publishedPair = npt.pair)
    (hlast : ∀ npt ∈ table, ∀ p, (entry npt).last = some p →
      (p.dataType.toNat : Int) = npt.pointDef.dataType)
    (hrec : ∀ npt ∈ table, Z.contents s npt.nvsId.toNat = npt.record (entry npt))
    (htime : w.p.time = 0) :
    (∀ npt ∈ table, Z.contents (nvsInit.loop Z table s w).1 npt.nvsId.toNat =
        npt.record (entry npt).boot) ∧
      (∀ j, (∀ npt ∈ table, j ≠ npt.nvsId.toNat) →
        Z.contents (nvsInit.loop Z table s w).1 j = Z.contents s j) ∧
      List.Forall₂ (fun npt p => Restores npt (entry npt) p) table
        (nvsInit.loop Z table s w).2 := by
  induction table generalizing s w with
  | nil => exact ⟨by simp, fun _ _ => rfl, .nil⟩
  | cons npt table ih =>
    rw [List.map_cons, List.nodup_cons] at hids
    simp only [List.forall_mem_cons] at htable hlast hrec ⊢
    obtain ⟨s', w', hread, hself, hother, hpub⟩ :=
      entry_restores hZ htable.1.1 htable.1.2 hlast.1 hrec.1 htime
    have hne : ∀ npt' ∈ table, npt.nvsId.toNat ≠ npt'.nvsId.toNat := fun npt' hmem e =>
      hids.1 (List.mem_map.mpr ⟨npt', hmem, (UInt16.toNat_inj.mp e).symm⟩)
    have hrec' : ∀ npt' ∈ table,
        Z.contents (nvsInit.increment Z npt s' w') npt'.nvsId.toNat = npt'.record (entry npt') :=
      fun npt' hmem => (hother _ (hne npt' hmem).symm).trans (hrec.2 npt' hmem)
    obtain ⟨ihself, ihother, ihpub⟩ := ih hids.2 htable.2 hlast.2 hrec'
      (w := { w' with p := nvsInit.message npt w' }) hpub.time
    simp only [nvsInit.loop, hread]
    refine ⟨⟨?_, ihself⟩, fun j hj => ?_, .cons hpub ihpub⟩
    · rw [ihother _ hne, hself]
    · rw [ihother j hj.2, hother j hj.1]

end

/-! ## Every history -/

section
variable {Z : Zms} (hZ : Z.Lawful) {table : List NvsPoint} (ht : IsNvsTable table)
  {h : NvsHistory} {s : NvsState Z}

/-- The flash holds for each entry the record that the entry's history says. -/
structure NvsRecords (Z : Zms) (table : List NvsPoint) (h : NvsHistory) (s : NvsState Z) : Prop where
  nvsPts : s.nvsPts = if h.booted then table else []
  record : ∀ npt ∈ table, Z.contents s.fs npt.nvsId.toNat = npt.record (h.entry npt)
  last : ∀ npt ∈ table, ∀ p, (h.entry npt).last = some p →
    (p.dataType.toNat : Int) = npt.pointDef.dataType

/-- Points are stored with the data type that the table declares for them. -/
def NvsEvent.Declared (table : List NvsPoint) : NvsEvent → Prop
  | .store p => ∀ npt ∈ table, npt.pair = p.pair →
      (p.dataType.toNat : Int) = npt.pointDef.dataType
  | .boot .. => True

instance : DecidablePred (NvsEvent.Declared table)
  | .store p => inferInstanceAs (Decidable (∀ npt ∈ table, npt.pair = p.pair → _ = _))
  | .boot .. => inferInstanceAs (Decidable True)

/-- The record of an entry whose last event was a stored point is the point's data. -/
theorem record_store {npt : NvsPoint} (hkept : npt.Kept) {p : Point}
    (hdt : (p.dataType.toNat : Int) = npt.pointDef.dataType) :
    p.data.bytes.take p.dataLen ≠ [] ∧
      npt.record (.store p) = some (p.data.bytes.take p.dataLen) := by
  have hlen := p.data.length_eq
  have hne {n : Nat} (hn : n ≠ 0) : p.data.bytes.take n ≠ [] := by
    rw [Ne, ← List.length_eq_zero_iff, List.length_take, hlen]
    omega
  rw [NvsPoint.record, if_neg (by simp [EntryHistory.store]), ← hdt]
  split
  · next hs =>
    refine ⟨hne ?_, rfl⟩
    rw [Point.dataLen, UInt8.toNat_inj.mp (Int.ofNat_inj.mp hs)]
    exact Nat.succ_ne_zero _
  · next hs =>
    have hword : p.dataLen = 4 := by
      rw [NvsPoint.Kept, ← hdt] at hkept
      refine if_pos ?_
      rcases hkept with hf | hi | hs'
      · exact .inr (UInt8.toNat_inj.mp (Int.ofNat_inj.mp hf))
      · exact .inl (UInt8.toNat_inj.mp (Int.ofNat_inj.mp hi))
      · exact (hs hs').elim
    have hcounted : npt.bootsCounted (.store p) = 0 := ite_self 0
    rw [hword, hcounted]
    refine ⟨hne (by decide), congrArg some ?_⟩
    exact le32_readLe32 (EntryHistory.length_word _)

include hZ ht

/-- A stored point keeps the invariant. -/
theorem NvsRecords.store (hkept : ∀ npt ∈ table, npt.Kept) (hinv : NvsRecords Z table h s)
    {p : Point} (hp : NvsEvent.Declared table (.store p)) :
    NvsRecords Z table (h.step (.store p)) (nvsStoreHandlePoint Z s p) := by
  refine ⟨by rw [nvsStoreHandlePoint_nvsPts]; exact hinv.nvsPts, fun npt hmem => ?_, ?_⟩
  · have hid : pointTypeKeyToNvsId s.nvsPts p.type.bytes p.key.bytes = npt.nvsId.toNat ↔
        h.booted ∧ npt.pair = p.pair := by
      rw [hinv.nvsPts]
      split
      · next hb =>
        rw [pointTypeKeyToNvsId_eq, and_iff_right hb]
        constructor
        · split
          · next npt' hfind =>
            intro e
            obtain rfl := ht.eq_of_id (List.mem_of_find?_eq_some hfind) hmem (Int.ofNat_inj.mp e)
            simpa using List.find?_some hfind
          · intro e
            omega
        · intro e
          rw [ht.find?_eq hmem e]
      · next hb => exact iff_of_false (by rw [pointTypeKeyToNvsId]; omega) fun e => hb e.1
    simp only [NvsHistory.step]
    split
    · next hstored =>
      obtain ⟨hne, hrec⟩ := record_store (hkept npt hmem) (hp npt hmem hstored.2)
      rw [contents_nvsStoreHandlePoint_of_eq hZ (hid.mpr hstored) hne, hrec]
    · next hstored =>
      rw [contents_nvsStoreHandlePoint_of_ne hZ (mt hid.mp hstored)]
      exact hinv.record npt hmem
  · intro npt hmem q hq
    simp only [NvsHistory.step] at hq
    split at hq
    · next hstored =>
      obtain rfl : p = q := Option.some.inj hq
      exact hp npt hmem hstored.2
    · exact hinv.last npt hmem q hq

/-- So does a boot, and what it publishes is what the histories say. -/
theorem NvsRecords.boot (hkept : ∀ npt ∈ table, npt.Kept) (hinv : NvsRecords Z table h s)
    (f : Flash) (uint32Buf : UInt32) (stringBuf : CharArray 20) :
    NvsRecords Z table (h.step (.boot f uint32Buf stringBuf))
        (nvsBoot Z table s f uint32Buf stringBuf).state ∧
      (nvsMount f = 0 → List.Forall₂ (fun npt p => Restores npt (h.entry npt) p) table
        (nvsBoot Z table s f uint32Buf stringBuf).published) := by
  have htime : (NvsLocals.init uint32Buf stringBuf).p.time = 0 := rfl
  obtain ⟨hrec, -, hpub⟩ := loop_restores hZ ht.ids
    (fun npt hmem => ⟨hkept npt hmem, ht.publishedPair_eq hmem⟩) hinv.last hinv.record htime
  rw [NvsHistory.step, nvsBoot, nvsInit]
  split
  · next hmount => exact ⟨⟨rfl, hinv.record, hinv.last⟩, fun hm => (hmount hm).elim⟩
  · exact ⟨⟨rfl, hrec, hinv.last⟩, fun _ => hpub⟩

omit hZ ht

/-- A point of an entry is stored only when the names of the entry are short. -/
def NvsHistory.StoresShort (table : List NvsPoint) (h : NvsHistory) : NvsEvent → Prop
  | .store p => h.booted → ∀ npt ∈ table, npt.pair = p.pair → ShortNames npt.pair
  | .boot .. => True

instance (table : List NvsPoint) (h : NvsHistory) : DecidablePred (h.StoresShort table)
  | .store p => inferInstanceAs (Decidable
      (h.booted → ∀ npt ∈ table, npt.pair = p.pair → ShortNames npt.pair))
  | .boot .. => .isTrue trivial

variable {formatFloat : UInt32 → Bytes}

/-- What a stored point is described in. -/
theorem fits_store_iff {p : Point} :
    (∀ d ∈ (nvsStoreHandlePoint Z s p).dumps, d.Fits formatFloat) ↔
      (∀ d ∈ s.dumps, d.Fits formatFloat) ∧
        ∀ npt ∈ s.nvsPts, npt.pair = p.pair → ShortNames npt.pair := by
  rw [nvsStoreHandlePoint_dumps, List.forall_mem_append]
  refine and_congr_right fun _ => ?_
  split
  · next h =>
    obtain ⟨npt, hmem, hpair⟩ := h
    rw [List.forall_mem_singleton, fits_logDbgPoint]
    exact ⟨fun hshort _ _ he => he ▸ hshort, fun hall => hpair ▸ hall npt hmem hpair⟩
  · next h =>
    exact iff_of_true (List.forall_mem_nil _) fun npt hmem hpair => (h ⟨npt, hmem, hpair⟩).elim

/-- Nothing ran past the buffer of the log exactly when only entries with short names were stored. -/
theorem fits_run_iff (hpts : s.nvsPts = if h.booted then table else []) (events : List NvsEvent) :
    (∀ d ∈ (Machine.run (nvsStep Z table) s events).dumps, d.Fits formatFloat) ↔
      (∀ d ∈ s.dumps, d.Fits formatFloat) ∧
        Machine.AtEveryStep NvsHistory.step (NvsHistory.StoresShort table) h events := by
  induction events generalizing s h with
  | nil => exact (and_iff_left trivial).symm
  | cons e events ih =>
    have hpts' : (nvsStep Z table s e).nvsPts = if (h.step e).booted then table else [] := by
      cases e with
      | store p => exact (nvsStoreHandlePoint_nvsPts Z s p).trans hpts
      | boot f u b =>
        rw [nvsStep, nvsBoot, nvsInit, NvsHistory.step]
        split <;> rfl
    have hstep : (∀ d ∈ (nvsStep Z table s e).dumps, d.Fits formatFloat) ↔
        (∀ d ∈ s.dumps, d.Fits formatFloat) ∧ h.StoresShort table e := by
      cases e with
      | store p =>
        rw [nvsStep, fits_store_iff, NvsHistory.StoresShort, hpts]
        cases h.booted <;> simp
      | boot f u b =>
        have hdumps : (nvsStep Z table s (.boot f u b)).dumps = s.dumps := by
          rw [nvsStep, nvsBoot, nvsInit]
          split <;> rfl
        rw [hdumps]
        exact (and_iff_left trivial).symm
    rw [Machine.run_cons, ih hpts', hstep, Machine.AtEveryStep, and_assoc]

include hZ ht

/-- **What is stored is restored.** After a history of boots and stored points on a flash that was
empty, a boot publishes for each entry in turn what the entry's history says. Nothing has run past
the buffer of the log before exactly when only entries with short names were stored. -/
theorem nvsInit_restores_iff (hkept : ∀ npt ∈ table, npt.Kept) {fs : Z.State}
    (hfs : ∀ npt ∈ table, Z.contents fs npt.nvsId.toNat = none) {events : List NvsEvent}
    (hevents : ∀ e ∈ events, e.Declared table) {f : Flash} (hmount : nvsMount f = 0)
    (uint32Buf : UInt32) (stringBuf : CharArray 20) :
    let s := Machine.run (nvsStep Z table) ⟨fs, [], []⟩ events
    (∀ d ∈ s.dumps, d.Fits formatFloat) ∧ List.Forall₂
        (fun npt p => Restores npt ((Machine.run NvsHistory.step .empty events).entry npt) p) table
        (nvsBoot Z table s f uint32Buf stringBuf).published ↔
      Machine.AtEveryStep NvsHistory.step (NvsHistory.StoresShort table) .empty events := by
  have hempty : NvsRecords Z table .empty ⟨fs, [], []⟩ :=
    ⟨rfl, hfs, fun npt hmem p hp => by cases hp⟩
  have hinv : NvsRecords Z table (Machine.run NvsHistory.step .empty events)
      (Machine.run (nvsStep Z table) ⟨fs, [], []⟩ events) := by
    refine Machine.run_simulation (R := NvsRecords Z table) (fun h s e he hinv => ?_) hempty hevents
    cases e with
    | store p => exact hinv.store hZ ht hkept he
    | boot f u b => exact (hinv.boot hZ ht hkept f u b).1
  have hrestores := (hinv.boot hZ ht hkept f uint32Buf stringBuf).2 hmount
  exact (and_iff_left hrestores).trans
    ((fits_run_iff hempty.nvsPts events).trans (and_iff_right (List.forall_mem_nil _)))

end

/-- The table of `apps/siot-net`. -/
def siotNetNvsPts : List NvsPoint :=
  [⟨1, pointDefBootCount, lit "0"⟩, ⟨2, ⟨lit "description", pointDataTypeString.toNat⟩, lit "0"⟩,
    ⟨3, ⟨lit "staticIP", pointDataTypeInt.toNat⟩, lit "0"⟩,
    ⟨4, ⟨lit "address", pointDataTypeString.toNat⟩, lit "0"⟩,
    ⟨5, ⟨lit "gateway", pointDataTypeString.toNat⟩, lit "0"⟩,
    ⟨6, ⟨lit "netmask", pointDataTypeString.toNat⟩, lit "0"⟩]

/-- A flash device with two pages. -/
def twoPages : Flash := ⟨true, 0, 4096, 8192, 0⟩

/-- Two boots of `apps/siot-net`, the description set in between. -/
def siotNetEvents : List NvsEvent :=
  [.boot twoPages 0 (.zero 20),
    .store ((Point.zero.setTypeKey (lit "description") (lit "0")).putString (lit "porch")),
    .boot twoPages 7 (.zero 20)]

theorem nvsInit_restores_siotNet :
    let s := Machine.run (nvsStep .reference siotNetNvsPts) ⟨fun _ => none, [], []⟩ siotNetEvents
    (∀ d ∈ s.dumps, d.Fits fun _ => []) ∧ List.Forall₂
      (fun npt p => Restores npt ((Machine.run NvsHistory.step .empty siotNetEvents).entry npt) p)
      siotNetNvsPts (nvsBoot .reference siotNetNvsPts s twoPages 0 (.zero 20)).published :=
  (nvsInit_restores_iff Zms.reference_lawful (by decide) (by decide) (fun _ _ => rfl)
    (by decide) rfl 0 (.zero 20)).mpr (by decide)

/-- An entry whose names have 22 and 18 characters. -/
def longNamesNvsPts : List NvsPoint :=
  [⟨1, ⟨lit "temperatureCalibration", pointDataTypeString.toNat⟩, lit "outdoorSensorNorth"⟩]

/-- A boot, and a point of the entry that is stored. -/
def longNamesEvents : List NvsEvent :=
  [.boot twoPages 0 (.zero 20),
    .store ((Point.zero.setTypeKey (lit "temperatureCalibration") (lit "outdoorSensorNorth")).putString
      (lit "1.5"))]

/-- Its value is printed behind the end of the log's buffer. -/
theorem not_nvsInit_restores_longNames :
    let s := Machine.run (nvsStep .reference longNamesNvsPts) ⟨fun _ => none, [], []⟩ longNamesEvents
    IsNvsTable longNamesNvsPts ∧ (∀ npt ∈ longNamesNvsPts, npt.Kept) ∧
      (∀ e ∈ longNamesEvents, e.Declared longNamesNvsPts) ∧
        ¬ ((∀ d ∈ s.dumps, d.Fits fun _ => []) ∧ List.Forall₂ (fun npt p => Restores npt
          ((Machine.run NvsHistory.step .empty longNamesEvents).entry npt) p) longNamesNvsPts
            (nvsBoot .reference longNamesNvsPts s twoPages 0 (.zero 20)).published) := by
  refine ⟨by decide, by decide, by decide, fun h => ?_⟩
  exact absurd h.1 (by decide +kernel)

end ZephyrSiot
