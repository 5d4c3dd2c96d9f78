import ZephyrSiot.PointDump
import ZephyrSiot.Zms
import Mathlib.Data.List.Nodup

/-!
# Persistent points

`lib/nvs.c`: a table of the points to keep in flash, `nvs_init`, which publishes the stored ones
at boot, and `nvs_store_handle_point`, which stores what is published afterwards. The static
`nvs_pts` and `nvs_pts_count` are the leading entries of the table that the store thread sees:
none before `nvs_init` has set them.
-/

namespace ZephyrSiot
open CStr

structure NvsPoint where
  nvsId : UInt16
  pointDef : PointDef
  key : Bytes
  deriving DecidableEq

/-- The id of the first entry with this type and key, `-1` when there is none. -/
def pointTypeKeyToNvsId : List NvsPoint → (type key : Bytes) → Int
  | [], _, _ => -1
  | npt :: pts, type, key =>
    if strcmp type npt.pointDef.type = 0 ∧ strcmp key npt.key = 0 then npt.nvsId.toNat
    else pointTypeKeyToNvsId pts type key

/-- What an entry stores points of. -/
def NvsPoint.pair (npt : NvsPoint) : Bytes × Bytes := (cstr npt.pointDef.type, cstr npt.key)

/-- A table as applications write it: distinct ids, distinct pairs, and names that fit a point. -/
structure IsNvsTable (table : List NvsPoint) : Prop where
  ids : (table.map NvsPoint.nvsId).Nodup
  pairs : (table.map NvsPoint.pair).Nodup
  fits : ∀ npt ∈ table, npt.pair.1.length < 24 ∧ npt.pair.2.length < 23

instance : DecidablePred IsNvsTable := fun table =>
  decidable_of_iff ((table.map NvsPoint.nvsId).Nodup ∧ (table.map NvsPoint.pair).Nodup ∧
      ∀ npt ∈ table, npt.pair.1.length < 24 ∧ npt.pair.2.length < 23)
    ⟨fun ⟨h1, h2, h3⟩ => ⟨h1, h2, h3⟩, fun ⟨h1, h2, h3⟩ => ⟨h1, h2, h3⟩⟩

theorem pointTypeKeyToNvsId_eq (table : List NvsPoint) (p : Point) :
    pointTypeKeyToNvsId table p.type.bytes p.key.bytes =
      match table.find? (·.pair = p.pair) with
      | some npt => npt.nvsId.toNat
      | none => -1 := by
  induction table with
  | nil => rfl
  | cons npt table ih =>
    have hpair : strcmp p.type.bytes npt.pointDef.type = 0 ∧ strcmp p.key.bytes npt.key = 0 ↔
        npt.pair = p.pair := by
      rw [strcmp_eq_zero, strcmp_eq_zero, NvsPoint.pair, Point.pair, Prod.mk.injEq]
      exact and_congr eq_comm eq_comm
    rw [pointTypeKeyToNvsId, List.find?_cons]
    split
    · next h => rw [decide_eq_true (hpair.mp h)]
    · next h => rw [decide_eq_false (mt hpair.mpr h), ih]

theorem IsNvsTable.find?_eq {table : List NvsPoint} (h : IsNvsTable table) {npt : NvsPoint}
    (hmem : npt ∈ table) {p : Point} (hp : npt.pair = p.pair) :
    table.find? (·.pair = p.pair) = some npt := by
  cases hfind : table.find? (·.pair = p.pair) with
  | none => exact absurd hp (by simpa using List.find?_eq_none.mp hfind npt hmem)
  | some npt' =>
    have hp' : npt'.pair = p.pair := by simpa using List.find?_some hfind
    exact congrArg some
      (List.inj_on_of_nodup_map h.pairs (List.mem_of_find?_eq_some hfind) hmem (hp'.trans hp.symm))

/-- Two entries with one id are one entry. -/
theorem IsNvsTable.eq_of_id {table : List NvsPoint} (h : IsNvsTable table) {a b : NvsPoint}
    (ha : a ∈ table) (hb : b ∈ table) (hid : a.nvsId.toNat = b.nvsId.toNat) : a = b :=
  List.inj_on_of_nodup_map h.ids ha hb (UInt16.toNat_inj.mp hid)

/-! ## Mounting -/

/-- What `nvs_init` asks of the flash device before it uses the file system. -/
structure Flash where
  deviceIsReady : Bool
  /-- `flash_get_page_info_by_offs`: the result and `info.size`. -/
  pageInfoRc : Int
  pageSize : Nat
  partitionSize : Nat
  mountRc : Int

def nvsMount (f : Flash) : Int :=
  if ¬ f.deviceIsReady then -1
  else if f.pageInfoRc ≠ 0 then -1
  -- "storage_partition (%zu bytes) too small for ZMS"
  else if f.partitionSize / f.pageSize < 2 then -1
  else if f.mountRc ≠ 0 then -1
  else 0

/-! ## Restoring -/

section
variable (Z : Zms)

/-- The locals of `nvs_init` that live on from one entry to the next. -/
structure NvsLocals where
  p : Point
  uint32Buf : UInt32
  stringBuf : CharArray 20

/-- `point p = {}`, the buffers as the stack has them. -/
def NvsLocals.init (uint32Buf : UInt32) (stringBuf : CharArray 20) : NvsLocals :=
  ⟨.zero, uint32Buf, stringBuf⟩

/-- Reading a cleared `float_buf` or `uint32_buf`. When this fails the zero value is written. -/
def nvsInit.readWord (s : Z.State) (id : Nat) : Z.State × UInt32 :=
  let (rc, bytes) := Z.read s id 4
  let buf := poke [0, 0, 0, 0] 0 bytes
  (if rc < 0 then (Z.write s id buf).2 else s, .ofNat (readLe32 buf))

/-- Reading `string_buf`. When this fails the empty string is written, else the last byte is made
a terminator. -/
def nvsInit.readString (s : Z.State) (id : Nat) (stringBuf : CharArray 20) :
    Z.State × CharArray 20 :=
  let buf := stringBuf.poke 0 [nul]
  let (rc, bytes) := Z.read s id 20
  let buf := buf.poke 0 bytes
  if rc < 0 then ((Z.write s id [nul]).2, buf) else (s, buf.poke 19 [nul])

/-- The switch of an entry up to `point_put_*`, `none` for a data type that is not kept. -/
def nvsInit.read (npt : NvsPoint) (s : Z.State) (w : NvsLocals) : Option (Z.State × NvsLocals) :=
  if npt.pointDef.dataType = pointDataTypeFloat.toNat then
    let (s, floatBuf) := nvsInit.readWord Z s npt.nvsId.toNat
    some (s, { w with p := w.p.putFloat floatBuf })
  else if npt.pointDef.dataType = pointDataTypeInt.toNat then
    let (s, uint32Buf) := nvsInit.readWord Z s npt.nvsId.toNat
    some (s, { w with p := w.p.putInt uint32Buf.toNat, uint32Buf })
  else if npt.pointDef.dataType = pointDataTypeString.toNat then
    let (s, stringBuf) := nvsInit.readString Z s npt.nvsId.toNat w.stringBuf
    some (s, { w with p := w.p.putString stringBuf.bytes, stringBuf })
  else none

/-- The entry that counts boots. -/
abbrev NvsPoint.CountsBoots (npt : NvsPoint) : Prop :=
  npt.pointDef.dataType = pointDataTypeInt.toNat ∧ strcmp pointTypeBootCount npt.pointDef.type = 0

/-- The incremented count is written, the point keeps the count as it was read. -/
def nvsInit.increment (npt : NvsPoint) (s : Z.State) (w : NvsLocals) : Z.State :=
  if npt.CountsBoots then (Z.write s npt.nvsId.toNat (le32 (w.uint32Buf + 1).toNat)).2 else s

/-- The point as it is published. -/
def nvsInit.message (npt : NvsPoint) (w : NvsLocals) : Point :=
  w.p.setTypeKey npt.pointDef.type npt.key

/-- What the published points of an entry are points of: its names, as far as they fit. -/
def NvsPoint.publishedPair (npt : NvsPoint) : Bytes × Bytes :=
  (npt.pair.1.take 23, npt.pair.2.take 22)

/-- The loop over the entries: the flash after it and the points published. -/
def nvsInit.loop : List NvsPoint → Z.State → NvsLocals → Z.State × List Point
  | [], s, _ => (s, [])
  | npt :: nvsPts, s, w =>
    match nvsInit.read Z npt s w with
    | none => loop nvsPts s w
    | some (s, w) =>
      let s := nvsInit.increment Z npt s w
      let w := { w with p := nvsInit.message npt w }
      let (s, published) := loop nvsPts s w
      (s, w.p :: published)

structure NvsState where
  fs : Z.State
  nvsPts : List NvsPoint
  /-- The descriptions of points for the log. -/
  dumps : List LogDump

structure NvsInitResult where
  ret : Int
  state : NvsState Z
  published : List Point

def nvsInit (f : Flash) (nvsPtsIn : List NvsPoint) (s : NvsState Z) (w : NvsLocals) :
    NvsInitResult Z :=
  if nvsMount f ≠ 0 then ⟨-1, s, []⟩
  else
    let (fs, published) := nvsInit.loop Z nvsPtsIn s.fs w
    ⟨0, { s with fs, nvsPts := nvsPtsIn }, published⟩

/-! ## Storing -/

def nvsStoreHandlePoint (s : NvsState Z) (p : Point) : NvsState Z :=
  let nvsId := pointTypeKeyToNvsId s.nvsPts p.type.bytes p.key.bytes
  if nvsId < 0 then s
  else
    -- the point is described for the log, in a buffer of 40 bytes, before it is written; its length
    -- is not checked, and the result of the write changes nothing
    { s with
      fs := (Z.write s.fs nvsId.toNat (p.data.bytes.take p.dataLen)).2
      dumps := s.dumps ++ [logDbgPoint p] }

end

/-! ## What an entry does -/

theorem IsNvsTable.publishedPair_eq {table : List NvsPoint} (h : IsNvsTable table)
    {npt : NvsPoint} (hmem : npt ∈ table) : npt.publishedPair = npt.pair :=
  Prod.ext (List.take_of_length_le (Nat.le_of_lt_succ (h.fits npt hmem).1))
    (List.take_of_length_le (Nat.le_of_lt_succ (h.fits npt hmem).2))

@[simp] theorem message_pair (npt : NvsPoint) (w : NvsLocals) :
    (nvsInit.message npt w).pair = npt.publishedPair :=
  Prod.ext (copyStrField_str ..) (copyStrField_str ..)

section
variable {Z : Zms} (hZ : Z.Lawful) {npt : NvsPoint} {s : Z.State} {w : NvsLocals} {j : Nat}
include hZ

theorem contents_readWord_of_ne {i : Nat} (hj : j ≠ i) :
    Z.contents (nvsInit.readWord Z s i).1 j = Z.contents s j := by
  simp only [nvsInit.readWord]
  split
  · exact (hZ.contents_write ..).trans (if_neg hj)
  · rfl

theorem contents_readString_of_ne {i : Nat} (buf : CharArray 20) (hj : j ≠ i) :
    Z.contents (nvsInit.readString Z s i buf).1 j = Z.contents s j := by
  simp only [nvsInit.readString]
  split
  · exact (hZ.contents_write ..).trans (if_neg hj)
  · rfl

/-- Reading an entry leaves the records of the others alone. -/
theorem contents_read_of_ne {r : Z.State × NvsLocals} (h : nvsInit.read Z npt s w = some r)
    (hj : j ≠ npt.nvsId.toNat) : Z.contents r.1 j = Z.contents s j := by
  have hword := contents_readWord_of_ne hZ (s := s) hj
  have hstring := contents_readString_of_ne hZ (s := s) w.stringBuf hj
  unfold nvsInit.read at h
  generalize nvsInit.readWord Z s npt.nvsId.toNat = word at h hword
  generalize nvsInit.readString Z s npt.nvsId.toNat w.stringBuf = string at h hstring
  split at h
  · obtain rfl := Option.some.inj h
    exact hword
  split at h
  · obtain rfl := Option.some.inj h
    exact hword
  split at h
  · obtain rfl := Option.some.inj h
    exact hstring
  · cases h

theorem contents_increment (h : npt.CountsBoots) :
    Z.contents (nvsInit.increment Z npt s w) npt.nvsId.toNat =
      some (le32 (w.uint32Buf + 1).toNat) := by
  rw [nvsInit.increment, if_pos h]
  refine (hZ.contents_write ..).trans ?_
  rw [if_pos rfl, if_neg (by rw [← List.length_eq_zero_iff, length_le32]; decide)]

theorem contents_increment_of_ne (hj : j ≠ npt.nvsId.toNat) :
    Z.contents (nvsInit.increment Z npt s w) j = Z.contents s j := by
  rw [nvsInit.increment]
  split
  · exact (hZ.contents_write ..).trans (if_neg hj)
  · rfl

end

/-! ## What a stored point does -/

section
variable {Z : Zms} (hZ : Z.Lawful) {s : NvsState Z} {p : Point}
include hZ

/-- Storing a point leaves the records of the other entries alone. -/
theorem contents_nvsStoreHandlePoint_of_ne {i : Nat}
    (h : pointTypeKeyToNvsId s.nvsPts p.type.bytes p.key.bytes ≠ i) :
    Z.contents (nvsStoreHandlePoint Z s p).fs i = Z.contents s.fs i := by
  rw [nvsStoreHandlePoint]
  split
  · rfl
  · next hpos =>
    refine (hZ.contents_write ..).trans (if_neg fun e => h ?_)
    omega

theorem contents_nvsStoreHandlePoint_of_eq {i : Nat}
    (h : pointTypeKeyToNvsId s.nvsPts p.type.bytes p.key.bytes = i)
    (hlen : p.data.bytes.take p.dataLen ≠ []) :
    Z.contents (nvsStoreHandlePoint Z s p).fs i = some (p.data.bytes.take p.dataLen) := by
  rw [nvsStoreHandlePoint, h]
  rw [if_neg (by omega)]
  refine (hZ.contents_write ..).trans ?_
  rw [if_pos (Int.toNat_natCast i).symm, if_neg hlen]

end

@[simp] theorem nvsStoreHandlePoint_nvsPts (Z : Zms) (s : NvsState Z) (p : Point) :
    (nvsStoreHandlePoint Z s p).nvsPts = s.nvsPts := by
  rw [nvsStoreHandlePoint]
  split <;> rfl

/-- The points that are written are described for the log. -/
theorem nvsStoreHandlePoint_dumps (Z : Zms) (s : NvsState Z) (p : Point) :
    (nvsStoreHandlePoint Z s p).dumps =
      s.dumps ++ if ∃ npt ∈ s.nvsPts, npt.pair = p.pair then [logDbgPoint p] else [] := by
  rw [nvsStoreHandlePoint, pointTypeKeyToNvsId_eq]
  cases hfind : s.nvsPts.find? (·.pair = p.pair) with
  | none =>
    have hnone : ¬ ∃ npt ∈ s.nvsPts, npt.pair = p.pair := by
      simpa using List.find?_eq_none.mp hfind
    rw [if_neg hnone]
    exact (List.append_nil _).symm
  | some npt =>
    have hsome : ∃ npt ∈ s.nvsPts, npt.pair = p.pair :=
      ⟨npt, List.mem_of_find?_eq_some hfind, by simpa using List.find?_some hfind⟩
    have hid : ¬ (npt.nvsId.toNat : Int) < 0 := by omega
    rw [if_pos hsome]
    exact congrArg NvsState.dumps (if_neg hid)

end ZephyrSiot
