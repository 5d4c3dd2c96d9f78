import ZephyrSiot.PointMerge
import ZephyrSiot.Verify.NvsRestore

/-!
# Points that do not fit their entry

`nvs_store_handle_point` stores a point by its own data type, in the entry that has its type and
key as they stand. What it does with a point of another data type than the entry declares, and
with a point whose key is blank, which the caches take for "0".
-/

namespace ZephyrSiot
open CStr

/-! ## What a boot sees of the flash -/

/-- Two states of the flash with the same records. -/
def SameRecords (Z : Zms) (s s' : Z.State) : Prop := ∀ i, Z.contents s i = Z.contents s' i

section
variable {Z : Zms} (hZ : Z.Lawful) {s s' : Z.State}
include hZ

theorem SameRecords.write (h : SameRecords Z s s') (i : Nat) (v : Bytes) :
    SameRecords Z (Z.write s i v).2 (Z.write s' i v).2 := by
  intro j
  rw [hZ.contents_write, hZ.contents_write, h j]

/-- A read gives the same bytes, and is an error in both or in none. -/
theorem SameRecords.read (h : SameRecords Z s s') (i len : Nat) :
    ((Z.read s i len).1 < 0 ↔ (Z.read s' i len).1 < 0) ∧
      (Z.read s i len).2 = (Z.read s' i len).2 := by
  have hi := h i
  cases hs : Z.contents s i with
  | some v =>
    rw [hZ.read_some hs, hZ.read_some (hi ▸ hs)]
    exact ⟨Iff.rfl, rfl⟩
  | none =>
    obtain ⟨hneg, hnil⟩ := hZ.read_none hs len
    obtain ⟨hneg', hnil'⟩ := hZ.read_none (hi ▸ hs) len
    exact ⟨iff_of_true hneg hneg', hnil.trans hnil'.symm⟩

theorem SameRecords.readWord (h : SameRecords Z s s') (i : Nat) :
    SameRecords Z (nvsInit.readWord Z s i).1 (nvsInit.readWord Z s' i).1 ∧
      (nvsInit.readWord Z s i).2 = (nvsInit.readWord Z s' i).2 := by
  obtain ⟨hneg, hbytes⟩ := h.read hZ i 4
  simp only [nvsInit.readWord, hbytes]
  refine ⟨?_, trivial⟩
  split
  · next hlt =>
    rw [if_pos (hneg.mp hlt)]
    exact h.write hZ i _
  · next hlt =>
    rw [if_neg (mt hneg.mpr hlt)]
    exact h

theorem SameRecords.readString (h : SameRecords Z s s') (i : Nat) (buf : CharArray 20) :
    SameRecords Z (nvsInit.readString Z s i buf).1 (nvsInit.readString Z s' i buf).1 ∧
      (nvsInit.readString Z s i buf).2 = (nvsInit.readString Z s' i buf).2 := by
  obtain ⟨hneg, hbytes⟩ := h.read hZ i 20
  simp only [nvsInit.readString, hbytes]
  split
  · next hlt =>
    rw [if_pos (hneg.mp hlt)]
    exact ⟨h.write hZ i _, rfl⟩
  · next hlt =>
    rw [if_neg (mt hneg.mpr hlt)]
    exact ⟨h, rfl⟩

theorem SameRecords.readEntry (h : SameRecords Z s s') (npt : NvsPoint) (w : NvsLocals) :
    nvsInit.read Z npt s w = none ∧ nvsInit.read Z npt s' w = none ∨
      ∃ r r' v, nvsInit.read Z npt s w = some (r, v) ∧ nvsInit.read Z npt s' w = some (r', v) ∧
        SameRecords Z r r' := by
  obtain ⟨hword, hwordEq⟩ := h.readWord hZ npt.nvsId.toNat
  obtain ⟨hstring, hstringEq⟩ := h.readString hZ npt.nvsId.toNat w.stringBuf
  unfold nvsInit.read
  generalize nvsInit.readWord Z s npt.nvsId.toNat = word at hword hwordEq ⊢
  generalize nvsInit.readWord Z s' npt.nvsId.toNat = word' at hword hwordEq ⊢
  generalize nvsInit.readString Z s npt.nvsId.toNat w.stringBuf = string at hstring hstringEq ⊢
  generalize nvsInit.readString Z s' npt.nvsId.toNat w.stringBuf = string' at hstring hstringEq ⊢
  obtain ⟨r1, x⟩ := word
  obtain ⟨r2, x'⟩ := word'
  obtain ⟨r3, y⟩ := string
  obtain ⟨r4, y'⟩ := string'
  obtain rfl : x = x' := hwordEq
  obtain rfl : y = y' := hstringEq
  split
  · exact .inr ⟨_, _, _, rfl, rfl, hword⟩
  split
  · exact .inr ⟨_, _, _, rfl, rfl, hword⟩
  split
  · exact .inr ⟨_, _, _, rfl, rfl, hstring⟩
  · exact .inl ⟨rfl, rfl⟩

/-- What `nvs_init` publishes is decided by the records. -/
theorem SameRecords.loop (h : SameRecords Z s s') (nvsPts : List NvsPoint) (w : NvsLocals) :
    (nvsInit.loop Z nvsPts s w).2 = (nvsInit.loop Z nvsPts s' w).2 := by
  induction nvsPts generalizing s s' w with
  | nil => rfl
  | cons npt nvsPts ih =>
    rcases h.readEntry hZ npt w with ⟨hnone, hnone'⟩ | ⟨r, r', v, hsome, hsome', hsame⟩
    · rw [nvsInit.loop, nvsInit.loop, hnone, hnone']
      exact ih h w
    · have hincrement : SameRecords Z (nvsInit.increment Z npt r v)
          (nvsInit.increment Z npt r' v) := by
        unfold nvsInit.increment
        split
        · exact hsame.write hZ _ _
        · exact hsame
      rw [nvsInit.loop, nvsInit.loop, hsome, hsome']
      exact congrArg (_ :: ·) (ih hincrement _)

end

/-! ## A point of another data type -/

section
variable {Z : Zms} {s : NvsState Z} {npt : NvsPoint} {p : Point}

/-- What `nvs_store_handle_point` leaves as the record of a point's entry. -/
def storedRecord (p : Point) : Option Bytes :=
  if p.dataLen = 0 then none else some (p.data.bytes.take p.dataLen)

/-- The point is one of this entry, and has another data type than the entry declares. -/
structure Mistyped (table : List NvsPoint) (npt : NvsPoint) (p : Point) : Prop where
  entry : table.find? (·.pair = p.pair) = some npt
  dataType : npt.pointDef.dataType ≠ p.dataType.toNat

/-- The point leaves the record of the entry alone, and what every next boot publishes. What is
described of it for the log stays in its buffer. -/
structure Harmless (formatFloat : UInt32 → Bytes) (Z : Zms) (s : NvsState Z) (npt : NvsPoint)
    (p : Point) : Prop where
  record :
    Z.contents (nvsStoreHandlePoint Z s p).fs npt.nvsId.toNat = Z.contents s.fs npt.nvsId.toNat
  published : ∀ f w, (nvsInit Z f s.nvsPts (nvsStoreHandlePoint Z s p) w).published =
    (nvsInit Z f s.nvsPts s w).published
  described : ∃ ds, (nvsStoreHandlePoint Z s p).dumps = s.dumps ++ ds ∧ ∀ d ∈ ds, d.Fits formatFloat

theorem contents_nvsStoreHandlePoint (hZ : Z.Lawful)
    (h : s.nvsPts.find? (·.pair = p.pair) = some npt) (i : Nat) :
    Z.contents (nvsStoreHandlePoint Z s p).fs i =
      if i = npt.nvsId.toNat then storedRecord p else Z.contents s.fs i := by
  have hid : pointTypeKeyToNvsId s.nvsPts p.type.bytes p.key.bytes = npt.nvsId.toNat := by
    rw [pointTypeKeyToNvsId_eq, h]
  have hnil : p.data.bytes.take p.dataLen = [] ↔ p.dataLen = 0 := by
    rw [List.take_eq_nil_iff, ← List.length_eq_zero_iff, p.data.length_eq]
    exact or_iff_left (by decide)
  rw [nvsStoreHandlePoint, hid, if_neg (by omega)]
  refine (hZ.contents_write ..).trans ?_
  rw [Int.toNat_natCast, storedRecord]
  simp only [hnil]

/-- A mistyped point does no harm exactly when the entry's record is what is stored of the point
already, and the names of the entry are short. -/
theorem harmless_iff (hZ : Z.Lawful) (h : Mistyped s.nvsPts npt p) (formatFloat : UInt32 → Bytes) :
    Harmless formatFloat Z s npt p ↔
      Z.contents s.fs npt.nvsId.toNat = storedRecord p ∧ ShortNames npt.pair := by
  have hrecord := contents_nvsStoreHandlePoint hZ h.entry
  have hpair : npt.pair = p.pair := by simpa using List.find?_some h.entry
  have hdumps : (nvsStoreHandlePoint Z s p).dumps = s.dumps ++ [logDbgPoint p] := by
    have hentry : ∃ npt ∈ s.nvsPts, npt.pair = p.pair :=
      ⟨npt, List.mem_of_find?_eq_some h.entry, hpair⟩
    rw [nvsStoreHandlePoint_dumps, if_pos hentry]
  constructor
  · intro hharmless
    obtain ⟨ds, hds, hfits⟩ := hharmless.described
    obtain rfl := List.append_cancel_left (hds.symm.trans hdumps)
    refine ⟨?_, hpair ▸ (fits_logDbgPoint formatFloat).mp (List.forall_mem_singleton.mp hfits)⟩
    rw [← hharmless.record, hrecord, if_pos rfl]
  · rintro ⟨hsame, hshort⟩
    have hcontents : SameRecords Z (nvsStoreHandlePoint Z s p).fs s.fs := by
      intro i
      rw [hrecord]
      split
      · next hi => rw [hi, hsame]
      · rfl
    refine ⟨hcontents _, fun f w => ?_, _, hdumps,
      List.forall_mem_singleton.mpr ((fits_logDbgPoint formatFloat).mpr (hpair ▸ hshort))⟩
    unfold nvsInit
    split
    · rfl
    · exact hcontents.loop hZ _ _

end

/-- The flash of `apps/siot-net` with a description. -/
def describedFlash : NvsState .reference :=
  ⟨fun id => if id = 2 then some (lit "lab" ++ [nul]) else none, siotNetNvsPts, []⟩

/-- The four bytes of an integer that spell the record. -/
theorem harmless_sameBytes :
    Harmless (fun _ => []) .reference describedFlash ⟨2, ⟨lit "description", pointDataTypeString.toNat⟩, lit "0"⟩
      ((Point.zero.setTypeKey (lit "description") (lit "0")).putInt 0x62616c) :=
  (harmless_iff Zms.reference_lawful ⟨by decide, by decide⟩ _).mpr (by decide)

/-- A description of type JSON. -/
def jsonDescription : Point :=
  { (Point.zero.setTypeKey (lit "description") (lit "0")).putString (lit "[1]") with
    dataType := pointDataTypeJson }

/-- It deletes the description: the next boot publishes an empty one. -/
theorem not_harmless_json :
    let npt : NvsPoint := ⟨2, ⟨lit "description", pointDataTypeString.toNat⟩, lit "0"⟩
    Mistyped describedFlash.nvsPts npt jsonDescription ∧
      ¬ Harmless (fun _ => []) .reference describedFlash npt jsonDescription := by
  refine ⟨⟨by decide, by decide⟩, fun h => ?_⟩
  have hgone : Zms.reference.contents
      (nvsStoreHandlePoint .reference describedFlash jsonDescription).fs 2 = none := by decide
  have hkept : Zms.reference.contents describedFlash.fs 2 = some (lit "lab" ++ [nul]) := by decide
  have := h.record.symm.trans hgone
  exact absurd (hkept.symm.trans this) (by decide)

/-! ## A point with a blank key -/

section
variable {table : List NvsPoint} {npt : NvsPoint} {p : Point} {pts : List Point}

/-- `nvs_store_handle_point` stores the point under the id of this entry. -/
def Selects (table : List NvsPoint) (npt : NvsPoint) (p : Point) : Prop :=
  pointTypeKeyToNvsId table p.type.bytes p.key.bytes = npt.nvsId.toNat

/-- The merge makes the point the value of this pair. -/
def MergesAs (pts : List Point) (p : Point) (pair : Bytes × Bytes) : Prop :=
  (pointsMerge pts p).ret = 0 ∧ (pointsMerge pts p).p ∈ (pointsMerge pts p).pts ∧
    (pointsMerge pts p).p.Occupied ∧ (pointsMerge pts p).p.pair = pair

theorem selects_iff (ht : IsNvsTable table) (hmem : npt ∈ table) :
    Selects table npt p ↔ p.pair = npt.pair := by
  rw [Selects, pointTypeKeyToNvsId_eq]
  constructor
  · intro h
    cases hfind : table.find? (·.pair = p.pair) with
    | none =>
      rw [hfind] at h
      dsimp only at h
      omega
    | some npt' =>
      rw [hfind] at h
      have hpair : npt'.pair = p.pair := by simpa using List.find?_some hfind
      have : npt' = npt :=
        ht.eq_of_id (List.mem_of_find?_eq_some hfind) hmem (Int.natCast_inj.mp h)
      rw [← hpair, this]
  · intro h
    rw [ht.find?_eq hmem h.symm]

theorem mergesAs_iff (hret : (pointsMerge pts p).ret = 0) (pair : Bytes × Bytes) :
    MergesAs pts p pair ↔ p.Occupied ∧ p.defaultKey.pair = pair := by
  have hstored : (pointsMerge pts p).p ∈ (pointsMerge pts p).pts := by
    rcases pointsMerge_cases pts p with ⟨i, q, hi, -, h⟩ | ⟨-, i, q, hi, -, -, h⟩ | ⟨-, -, h⟩
    · rw [h]
      exact List.mem_set (List.getElem?_eq_some_iff.mp hi).1 _
    · rw [h]
      exact List.mem_set (List.getElem?_eq_some_iff.mp hi).1 _
    · rw [h] at hret
      cases hret
  rw [MergesAs, and_iff_right hret, and_iff_right hstored, pointsMerge_p,
    Point.occupied_defaultKey]

/-- The lookup and the merge agree on a point and an entry unless the types match and either the
point's key is blank and the entry's is blank or "0", or the type is empty and the keys match. -/
theorem selects_iff_mergesAs_iff (ht : IsNvsTable table) (hmem : npt ∈ table)
    (hret : (pointsMerge pts p).ret = 0) :
    (Selects table npt p ↔ MergesAs pts p npt.pair) ↔
      (p.type.str = npt.pair.1 →
        if p.type.str = [] then p.key.str ≠ npt.pair.2
        else p.key.str = [] → npt.pair.2 ≠ [] ∧ npt.pair.2 ≠ lit "0") := by
  have h0 : lit "0" ≠ [] := by decide
  rw [selects_iff ht hmem, mergesAs_iff hret, Point.occupied_iff, Point.pair, Point.pair,
    Point.defaultKey_type, Point.defaultKey_key_str, Prod.ext_iff, Prod.ext_iff]
  dsimp only
  rcases Classical.em (p.type.str = npt.pair.1) with htype | htype
  · rw [forall_prop_of_true htype, and_iff_right htype, and_iff_right htype, htype]
    rcases Classical.em (npt.pair.1 = []) with hnil | hnil
    · rw [if_pos hnil]
      simp [hnil]
    · rw [if_neg hnil, and_iff_right hnil]
      rcases Classical.em (p.key.str = []) with hkey | hkey
      · rw [forall_prop_of_true hkey, if_pos hkey, hkey]
        constructor
        · intro h
          exact ⟨fun hk => h0 (hk ▸ (h.mp hk.symm)), fun hk => h0 (hk ▸ (h.mpr hk.symm)).symm⟩
        · rintro ⟨hblank, hzero⟩
          exact iff_of_false (Ne.symm hblank) (Ne.symm hzero)
      · rw [if_neg hkey]
        exact iff_of_true Iff.rfl fun h => (hkey h).elim
  · simp [htype]

end

/-- A description for the key "0", under its own name. -/
theorem selects_description :
    (Selects siotNetNvsPts ⟨2, ⟨lit "description", pointDataTypeString.toNat⟩, lit "0"⟩
        ((Point.zero.setTypeKey (lit "description") (lit "0")).putString (lit "lab")) ↔
      MergesAs [.zero] ((Point.zero.setTypeKey (lit "description") (lit "0")).putString (lit "lab"))
        (lit "description", lit "0")) :=
  (selects_iff_mergesAs_iff (by decide) (by decide) (by decide)).mpr (by decide)

/-- With a blank key the caches have it as the description, and no entry is selected. -/
theorem not_selects_blankKey :
    let npt : NvsPoint := ⟨2, ⟨lit "description", pointDataTypeString.toNat⟩, lit "0"⟩
    let p := (Point.zero.setTypeKey (lit "description") []).putString (lit "lab")
    npt ∈ siotNetNvsPts ∧ MergesAs [.zero] p npt.pair ∧ ¬ Selects siotNetNvsPts npt p :=
  ⟨by decide, ⟨by decide, by decide, by decide, by decide⟩, by unfold Selects; decide⟩

end ZephyrSiot
