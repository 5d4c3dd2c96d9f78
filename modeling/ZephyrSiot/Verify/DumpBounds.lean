import ZephyrSiot.PointDump

/-!
# The stores of the dump functions

Once `remaining` is negative its conversion to a length is huge and the next `snprintf` is not
bounded at all. This happens exactly when the type and the key of a point do not fit into what
is left of the buffer (`dumps_inBounds_iff`): the value printed behind them is cut correctly.
For the buffers of the log's macros that is a bound on the names of the points
(`fits_logDbgPoint`, `fits_logDbgPoints`).
-/

namespace ZephyrSiot
open CStr

/-- The length of the first two texts of a description. -/
def Point.headLength (p : Point) : Nat := p.type.str.length + p.keyText.length

theorem InBounds.append_iff {len : Int} {a b : List (Int × Bytes)} :
    InBounds len (a ++ b) ↔ InBounds len a ∧ InBounds len b := by
  simp only [InBounds, List.mem_append]
  grind

theorem InBounds.singleton_iff {len o : Int} {run : Bytes} :
    InBounds len [(o, run)] ↔ (run ≠ [] → 0 ≤ o ∧ o + run.length ≤ len) := by
  simp [InBounds]

theorem InBounds.map_add_iff {len o : Int} {stores : List (Int × Bytes)}
    (h0 : 0 ≤ o) (hs : ∀ st ∈ stores, 0 ≤ st.1) :
    InBounds len (stores.map fun st => (o + st.1, st.2)) ↔ InBounds (len - o) stores := by
  simp only [InBounds, List.mem_map, forall_exists_index, and_imp, forall_apply_eq_imp_iff₂]
  refine forall₃_congr fun st hst _ => ?_
  have := hs st hst
  omega

/-! ## One point -/

variable (formatFloat : UInt32 → Bytes) {p : Point} {len : UInt32}

theorem length_keyText (p : Point) : 2 ≤ p.keyText.length ∧ p.keyText.length ≤ 26 := by
  have := p.key.length_str_le
  have hlit : (lit "." : Bytes).length = 1 ∧ (lit ": " : Bytes).length = 2 := by decide
  unfold Point.keyText
  split
  · simp only [List.length_append]
    omega
  · omega

theorem length_valueText (p : Point) : 5 ≤ (p.valueText formatFloat).length := by
  have h1 : (lit "INT: ").length = 5 := by decide
  have h2 : (lit "FLT: ").length = 5 := by decide
  have h3 : (lit "STR: ").length = 5 := by decide
  unfold Point.valueText
  split
  · rw [List.length_append]; omega
  split
  · rw [List.length_append]; omega
  split
  · rw [List.length_append]; omega
  split <;> decide

/-- With `remaining` at zero or above, `snprintf` stays before the end that `remaining` stands for. -/
theorem snprintf_inBounds {o r b : Int} {text : Bytes} (h0 : 0 ≤ o) (hr0 : 0 ≤ r) (hr : r < 2 ^ 31)
    (hb : o + r ≤ b) : InBounds b [(o, snprintf (.ofInt r) text)] := by
  have hsize := toNat_ofInt32 hr0 (by omega)
  rw [InBounds.singleton_iff, length_snprintf]
  intro _
  omega

/-- Below zero it runs past that end. -/
theorem not_snprintf_inBounds {o r b : Int} {text : Bytes} (hr0 : r < 0) (hr : -2 ^ 31 ≤ r)
    (htext : 2 ≤ text.length) (hb : b ≤ o + r + 2) :
    ¬ InBounds b [(o, snprintf (.ofInt r) text)] := by
  have hsize := toNat_ofInt32_neg hr0 hr
  rw [InBounds.singleton_iff, length_snprintf]
  intro h
  have hne : snprintf (.ofInt r) text ≠ [] := by
    rw [← List.length_pos_iff, length_snprintf]
    omega
  have := (h hne).2
  omega

/-- A length as the `int` that `point_dump` starts with. -/
theorem wrap32_len (len : UInt32) :
    wrap32 (len.toNat - 1) = if len.toNat ≤ 2 ^ 31 then (len.toNat : Int) - 1
      else (len.toNat : Int) - 1 - 2 ^ 32 := by
  have := len.toNat_lt
  rw [wrap32, Int.bmod_def]
  split <;> split <;> omega

theorem pointDump_small (h : wrap32 (len.toNat - 1) ≤ 0) :
    pointDump formatFloat p len = ⟨-1, []⟩ := if_pos h

theorem pointDump_ret (h : 0 < wrap32 (len.toNat - 1)) :
    (pointDump formatFloat p len).ret = p.headLength + (p.valueText formatFloat).length := by
  rw [pointDump]
  dsimp only
  rw [if_neg (by omega)]
  simp only [DumpState.print, Point.headLength]
  omega

/-- The stores of one point stay before the end exactly when its type and key fit. The end may be
one or two bytes behind the last that `point_dump` reckons with. -/
theorem pointDump_inBounds_iff {b : Int} (h : 0 < wrap32 (len.toNat - 1))
    (hb : wrap32 (len.toNat - 1) ≤ b) (hb' : b ≤ wrap32 (len.toNat - 1) + 2) :
    InBounds b (pointDump formatFloat p len).stores ↔ p.headLength ≤ wrap32 (len.toNat - 1) := by
  have hr : wrap32 (len.toNat - 1) < 2 ^ 31 := by
    have := len.toNat_lt
    rw [wrap32_len]
    split <;> omega
  have htype := p.type.length_str_le
  obtain ⟨hkey, hkey'⟩ := length_keyText p
  have hvalue := length_valueText formatFloat p
  rw [pointDump]
  dsimp only
  rw [if_neg (by omega)]
  generalize wrap32 (len.toNat - 1) = r at *
  simp only [DumpState.print, List.nil_append, InBounds.append_iff, Point.headLength]
  have hfirst : InBounds b [(0, snprintf (.ofInt r) p.type.str)] :=
    snprintf_inBounds (Int.le_refl 0) h.le hr (by omega)
  constructor
  · rintro ⟨⟨-, h2⟩, h3⟩
    refine Int.not_lt.mp fun hlt => ?_
    rcases Int.lt_or_le (r - p.type.str.length) 0 with hneg | hpos
    · exact not_snprintf_inBounds hneg (by omega) hkey (by omega) h2
    · exact not_snprintf_inBounds (by omega) (by omega) (by omega) (by omega) h3
  · intro hfit
    refine ⟨⟨hfirst, ?_⟩, ?_⟩
    · exact snprintf_inBounds (by omega) (by omega) (by omega) (by omega)
    · exact snprintf_inBounds (by omega) (by omega) (by omega) (by omega)

theorem pointDump_stores_nonneg : ∀ st ∈ (pointDump formatFloat p len).stores, 0 ≤ st.1 := by
  rw [pointDump]
  dsimp only
  split
  · simp
  · intro st hst
    simp only [DumpState.print, List.nil_append, List.cons_append, List.mem_cons,
      List.not_mem_nil, or_false] at hst
    rcases hst with rfl | rfl | rfl <;> dsimp only <;> omega

/-! ## An array of points -/

/-- What the description of the points in use takes when nothing is cut. -/
def dumpLength (pts : List Point) : Nat :=
  ((pts.filter (·.Occupied)).map
    fun p => 5 + (p.headLength + (p.valueText formatFloat).length)).sum

/-- Behind a description of length `o` and at least eight bytes from the end of the buffer, every
point in use has room for its separator, its type and its key. -/
def HeadsFit (len o : Int) (pts : List Point) : Prop :=
  ∀ i p, pts[i]? = some p → p.Occupied → o + dumpLength formatFloat (pts.take i) + 7 < len →
    o + dumpLength formatFloat (pts.take i) + 7 + p.headLength ≤ len

theorem headsFit_of_le {len o : Int} {pts : List Point} (h : len ≤ o + 7) :
    HeadsFit formatFloat len o pts := by
  intro i p _ _ hlt
  omega

theorem headsFit_cons {len o : Int} {p : Point} {pts : List Point} :
    HeadsFit formatFloat len o (p :: pts) ↔
      (p.Occupied → o + 7 < len → o + 7 + p.headLength ≤ len) ∧
        HeadsFit formatFloat len (o + dumpLength formatFloat [p]) pts := by
  have hcons (i : Nat) : dumpLength formatFloat ((p :: pts).take (i + 1)) =
      dumpLength formatFloat [p] + dumpLength formatFloat (pts.take i) := by
    rw [dumpLength, dumpLength, dumpLength, List.take_succ_cons, ← List.sum_append,
      ← List.map_append, ← List.filter_append, List.singleton_append]
  constructor
  · intro h
    refine ⟨fun ho => by simpa [dumpLength] using h 0 p rfl ho, fun i q hi ho hlt => ?_⟩
    have := h (i + 1) q (by simpa using hi) ho
    rw [hcons] at this
    omega
  · rintro ⟨hhead, htail⟩ (_ | i) q hi ho
    · obtain rfl : p = q := by simpa using hi
      simpa [dumpLength] using hhead ho
    · have := htail i q (by simpa using hi) ho
      rw [hcons]
      omega

theorem dumpLength_singleton_of_occupied {p : Point} (h : p.Occupied) :
    dumpLength formatFloat [p] = 5 + (p.headLength + (p.valueText formatFloat).length) := by
  rw [dumpLength, List.filter_cons_of_pos (by simpa using h)]
  simp

theorem dumpLength_singleton_of_not_occupied {p : Point} (h : ¬ p.Occupied) :
    dumpLength formatFloat [p] = 0 := by
  rw [dumpLength, List.filter_cons_of_neg (by simpa using h)]
  rfl

/-- A loop entered with less than a separator's room stores nothing. -/
theorem loop_of_small {s : DumpState} (h : s.remaining < 6) (pts : List Point) :
    pointsDump.loop formatFloat pts s = s := by
  induction pts with
  | nil => rfl
  | cons p pts ih =>
    rw [pointsDump.loop]
    split
    · rfl
    · exact ih

section
variable {len o r : Int}

/-- There is room for the separator. -/
theorem separator_inBounds (h0 : 0 ≤ o) (hsum : o + r = len - 1) (hroom : ¬ r < 6) :
    InBounds len [(o, strncpy (lit "\r\n\t- ") r.toNat)] := by
  rw [InBounds.singleton_iff, length_strncpy]
  omega

/-- The length that is left for a point, less its terminator. -/
theorem wrap32_left {r : Int} (hroom : ¬ r < 6) (hr : r < 2 ^ 31) :
    wrap32 ((UInt32.ofInt (r - 5)).toNat - 1) = r - 6 := by
  have hsize : ((UInt32.ofInt (r - 5)).toNat : Int) = r - 5 := toNat_ofInt32 (by omega) (by omega)
  rw [wrap32_len, if_pos (by omega)]
  omega

/-- Behind the separator, with more than one byte left, a point is stored. -/
theorem printed_inBounds_iff (h0 : 0 ≤ o) (hsum : o + r = len - 1) (hlen : len ≤ 2 ^ 31)
    (hpos : 0 < r - 6) (p : Point) :
    InBounds len ((pointDump formatFloat p (.ofInt (r - 5))).stores.map
      fun st => (o + 5 + st.1, st.2)) ↔ o + 7 + p.headLength ≤ len := by
  have hsize : ((UInt32.ofInt (r - 5)).toNat : Int) = r - 5 := toNat_ofInt32 (by omega) (by omega)
  have hwrap := wrap32_left (r := r) (by omega) (by omega)
  rw [InBounds.map_add_iff (by omega) (pointDump_stores_nonneg formatFloat),
    pointDump_inBounds_iff formatFloat (by omega) (by omega) (by omega)]
  omega

end

/-- The loop, entered with `offset` and `remaining` that add up to the length less one. -/
theorem loop_inBounds_iff {len : Int} (hlen : len ≤ 2 ^ 31) {s : DumpState} (h0 : 0 ≤ s.offset)
    (hsum : s.offset + s.remaining = len - 1) (pts : List Point) :
    InBounds len (pointsDump.loop formatFloat pts s).stores ↔
      InBounds len s.stores ∧ HeadsFit formatFloat len s.offset pts := by
  induction pts generalizing s with
  | nil => simp [pointsDump.loop, HeadsFit]
  | cons p pts ih =>
    rw [pointsDump.loop]
    by_cases ho : p.Occupied
    swap
    · rw [if_neg ho, headsFit_cons, dumpLength_singleton_of_not_occupied formatFloat ho, ih h0 hsum]
      simp [ho]
    rw [if_pos ho]
    split
    · next hsmall => exact (and_iff_left (headsFit_of_le formatFloat (by omega))).symm
    · next hroom =>
      dsimp only
      have hsep := separator_inBounds h0 hsum hroom
      have hwrap := wrap32_left hroom (by omega)
      rw [headsFit_cons, dumpLength_singleton_of_occupied formatFloat ho]
      rcases Int.lt_or_le 0 (s.remaining - 6) with hpos | hzero
      · rw [ih, InBounds.append_iff, InBounds.append_iff,
          printed_inBounds_iff formatFloat h0 hsum hlen hpos, pointDump_ret formatFloat (by omega)]
        · dsimp only
          have ho7 : s.offset + 7 < len := by omega
          have hassoc : s.offset + 5 + ((p.headLength : Int) + (p.valueText formatFloat).length) =
              s.offset + ((5 + (p.headLength + (p.valueText formatFloat).length) : Nat) : Int) := by
            push_cast
            omega
          have himp (P : Prop) : (p.Occupied → s.offset + 7 < len → P) ↔ P :=
            ⟨fun h => h ho ho7, fun h _ _ => h⟩
          rw [hassoc, himp]
          simp only [hsep, and_true, and_assoc]
        · dsimp only
          rw [pointDump_ret formatFloat (by omega)]
          omega
        · dsimp only
          omega
      · -- one byte is left: nothing is printed, and the next point in use ends the loop
        rw [pointDump_small formatFloat (by omega), ih]
        · dsimp only
          simp only [List.map_nil, List.append_nil, InBounds.append_iff, hsep, and_true]
          refine and_congr_right fun _ => iff_of_true ?_ ⟨fun _ _ => ?_, ?_⟩
          · exact headsFit_of_le formatFloat (by omega)
          · omega
          · exact headsFit_of_le formatFloat (by omega)
        · dsimp only
          omega
        · dsimp only
          omega

/-- One point into a buffer of any length. -/
theorem pointDump_fits_iff (p : Point) (len : UInt32) :
    InBounds len.toNat (pointDump formatFloat p len).stores ↔
      (1 < len.toNat → len.toNat ≤ 2 ^ 31 → p.headLength + 1 ≤ len.toNat) := by
  have hlt := len.toNat_lt
  have hwrap := wrap32_len len
  by_cases hpos : 0 < wrap32 (len.toNat - 1)
  · rw [pointDump_inBounds_iff formatFloat hpos (by split at hwrap <;> omega)
      (by split at hwrap <;> omega)]
    split at hwrap <;> omega
  · rw [pointDump_small formatFloat (by omega)]
    refine iff_of_true (by simp [InBounds]) fun h1 h2 => ?_
    rw [if_pos h2] at hwrap
    omega

theorem pointsDump_fits_iff (pts : List Point) (len : UInt32) :
    InBounds len.toNat (pointsDump formatFloat pts len).stores ↔
      (len.toNat ≤ 2 ^ 31 → HeadsFit formatFloat len.toNat 0 pts) := by
  have hlt := len.toNat_lt
  have hwrap := wrap32_len len
  rw [pointsDump]
  split
  · next h0 =>
    exact iff_of_true (by simp [InBounds]) fun _ => headsFit_of_le formatFloat (by omega)
  · next h0 =>
    have hfirst : InBounds len.toNat [((0 : Int), [nul])] := by
      rw [InBounds.singleton_iff]
      intro _
      exact ⟨Int.le_refl 0, by simp; omega⟩
    split at hwrap
    · next hle =>
      rw [hwrap]
      refine (loop_inBounds_iff formatFloat (by omega) (Int.le_refl 0) (by simp) pts).trans ?_
      exact ⟨fun h _ => h.2, fun h => ⟨hfirst, h hle⟩⟩
    · next hgt =>
      rw [loop_of_small formatFloat (by dsimp only; omega)]
      exact iff_of_true hfirst fun hle => (hgt hle).elim

/-- **The dump functions.** Every byte they store lies in the buffer exactly when type and key of
the point to print fit into it, where anything is printed at all. -/
theorem dumps_inBounds_iff (p : Point) (pts : List Point) (len : UInt32) :
    (InBounds len.toNat (pointDump formatFloat p len).stores ↔
      (1 < len.toNat → len.toNat ≤ 2 ^ 31 → p.headLength + 1 ≤ len.toNat)) ∧
    (InBounds len.toNat (pointsDump formatFloat pts len).stores ↔
      (len.toNat ≤ 2 ^ 31 → HeadsFit formatFloat len.toNat 0 pts)) :=
  ⟨pointDump_fits_iff formatFloat p len, pointsDump_fits_iff formatFloat pts len⟩

/-- A point whose fields are all full. -/
def longPoint : Point :=
  (Point.zero.setTypeKey (.replicate 23 0x61) (.replicate 22 0x62)).putString (.replicate 19 0x63)

/-- It overruns the buffers of `LOG_DBG_POINT` and, when there are two of it, `LOG_DBG_POINTS`. -/
theorem not_dumps_inBounds_longPoint :
    ¬ InBounds 40 (pointDump (fun _ => []) longPoint 40).stores ∧
      ¬ InBounds 128 (pointsDump (fun _ => []) [longPoint, longPoint] 128).stores := by
  decide +kernel

/-! ## The log -/

/-- Type and key leave room for each other in the 40 bytes of `LOG_DBG_POINT`. -/
abbrev ShortNames (k : Bytes × Bytes) : Prop := k.1.length + k.2.length ≤ 36

theorem headLength_iff_shortNames (p : Point) : p.headLength + 1 ≤ 40 ↔ ShortNames p.pair := by
  have htype := p.type.length_str_le
  have hlit : (lit "." : Bytes).length = 1 ∧ (lit ": " : Bytes).length = 2 := by decide
  rw [ShortNames, Point.pair, Point.headLength, Point.keyText]
  dsimp only
  split
  · simp only [List.length_append]
    omega
  · omega

theorem fits_logDbgPoint {p : Point} : (logDbgPoint p).Fits formatFloat ↔ ShortNames p.pair := by
  refine (pointDump_fits_iff formatFloat p 40).trans ?_
  rw [← headLength_iff_shortNames]
  exact ⟨fun h => h (by decide) (by decide), fun h _ _ => h⟩

theorem fits_logDbgPoints {pts : List Point} :
    (logDbgPoints pts).Fits formatFloat ↔ HeadsFit formatFloat 128 0 pts :=
  (pointsDump_fits_iff formatFloat pts 128).trans ⟨fun h => h (by decide), fun h _ => h⟩

instance (len o : Int) (pts : List Point) : Decidable (HeadsFit formatFloat len o pts) :=
  decidable_of_iff (∀ i, (h : i < pts.length) → pts[i].Occupied →
      o + dumpLength formatFloat (pts.take i) + 7 < len →
        o + dumpLength formatFloat (pts.take i) + 7 + pts[i].headLength ≤ len) <| by
    constructor
    · intro h i p hi
      obtain ⟨hlt, rfl⟩ := List.getElem?_eq_some_iff.mp hi
      exact h i hlt
    · exact fun h i hlt => h i _ (List.getElem?_eq_getElem hlt)

end ZephyrSiot
