import ZephyrSiot.Point
import ZephyrSiot.Theory.Machine

/-!
# Merging points into a store

`points_merge` of `lib/point.c`. A store is an array of slots, an unused slot having the empty
type. The loop looks for the slot that holds the point's type and key, remembers the first
unused slot on its way, and skips the slots whose data type is invalid.
-/

namespace ZephyrSiot
open CStr

/-- "make sure key is set to "0" if blank". The `strcpy` leaves the bytes after the terminator. -/
def Point.defaultKey (p : Point) : Point :=
  if p.key.first = 0 then { p with key := p.key.poke 0 (lit "0" ++ [0]) } else p

namespace pointsMerge

/-- How the loop ends: at a matching slot, or past the array with `empty_i`. -/
inductive Scan where
  | found (i : Nat)
  | absent (emptyI : Option Nat)

/-- The loop from index `i` on. `empty_i` is `none` while it is negative. -/
def scan (p : Point) : List Point → Nat → Option Nat → Scan
  | [], _, emptyI => .absent emptyI
  | q :: pts, i, emptyI =>
    if q.type.first = 0 then scan p pts (i + 1) (if emptyI = none then some i else emptyI)
    else if InvalidDataType q.dataType then scan p pts (i + 1) emptyI
    else if strncmp q.type.bytes p.type.bytes 24 = 0 ∧ strncmp q.key.bytes p.key.bytes 23 = 0 then
      .found i
    else scan p pts (i + 1) emptyI

end pointsMerge

/-- What a merge returns, and what it leaves in the array and in the point it was given. -/
structure MergeResult where
  ret : Int
  pts : List Point
  p : Point
  deriving DecidableEq

def pointsMerge (pts : List Point) (p : Point) : MergeResult :=
  let p := p.defaultKey
  match pointsMerge.scan p pts 0 none with
  | .found i => ⟨0, pts.set i p, p⟩
  | .absent (some i) => ⟨0, pts.set i p, p⟩
  | .absent none => ⟨-enomem, pts, p⟩

/-- The array after a sequence of merges, whatever each of them returns. -/
def mergeRun (pts : List Point) (calls : List Point) : List Point :=
  Machine.run (fun pts p => (pointsMerge pts p).pts) pts calls

/-! ## The key -/

namespace Point

variable {p : Point}

@[simp] theorem defaultKey_type : p.defaultKey.type = p.type := by
  unfold defaultKey; split <;> rfl

@[simp] theorem defaultKey_dataType : p.defaultKey.dataType = p.dataType := by
  unfold defaultKey; split <;> rfl

@[simp] theorem defaultKey_data : p.defaultKey.data = p.data := by
  unfold defaultKey; split <;> rfl

@[simp] theorem defaultKey_time : p.defaultKey.time = p.time := by
  unfold defaultKey; split <;> rfl

theorem occupied_defaultKey : p.defaultKey.Occupied ↔ p.Occupied := by
  rw [Occupied, defaultKey_type]

/-- A blank key is the key "0"; any other is kept. -/
theorem defaultKey_key_str :
    p.defaultKey.key.str = if p.key.str = [] then lit "0" else p.key.str := by
  by_cases h : p.key.first = 0
  · rw [defaultKey, if_pos h, if_pos (CharArray.first_eq_zero.mp h)]
    exact CharArray.str_poke (by decide) (by decide)
  · rw [defaultKey, if_neg h, if_neg (mt CharArray.first_eq_zero.mpr h)]

theorem defaultKey_key_str_ne_nil : p.defaultKey.key.str ≠ [] := by
  rw [defaultKey_key_str]
  split
  · decide
  · assumption

theorem defaultKey_of_key_ne_nil (h : p.key.str ≠ []) : p.defaultKey = p := by
  rw [defaultKey, if_neg (mt CharArray.first_eq_zero.mp h)]

theorem Agrees.defaultKey {p q : Point} (h : p.Agrees q) : p.defaultKey.Agrees q.defaultKey where
  type := by rw [defaultKey_type, defaultKey_type]; exact h.type
  key := by rw [defaultKey_key_str, defaultKey_key_str, h.key]
  dataType := by rw [defaultKey_dataType, defaultKey_dataType]; exact h.dataType
  value := (sameValue_congr defaultKey_dataType defaultKey_data defaultKey_data).mpr h.value

end Point

/-! ## What a merge does -/

namespace pointsMerge

/-- The slot `q` is one at which the loop stops for `p`. -/
abbrev Holds (p q : Point) : Prop :=
  q.Occupied ∧ ¬ InvalidDataType q.dataType ∧ q.pair = p.pair

private theorem strncmp_pair {p q : Point} :
    (strncmp q.type.bytes p.type.bytes 24 = 0 ∧ strncmp q.key.bytes p.key.bytes 23 = 0) ↔
      q.pair = p.pair := by
  rw [CharArray.strncmp_eq_zero, CharArray.strncmp_eq_zero, Point.pair, Point.pair, Prod.mk.injEq]

/-- The loop stops at the first slot that holds the point. When there is none, `empty_i` is the
first unused slot, unless one was remembered before. -/
theorem scan_eq (p : Point) (pts : List Point) (i : Nat) (emptyI : Option Nat) :
    scan p pts i emptyI =
      match pts.findIdx? (Holds p ·) with
      | some k => .found (k + i)
      | none => .absent (emptyI.or ((pts.findIdx? (¬ ·.Occupied)).map (· + i))) := by
  induction pts generalizing i emptyI with
  | nil => simp [scan]
  | cons q pts ih =>
    rw [List.findIdx?_cons, List.findIdx?_cons, scan]
    have shift {e e' : Option Nat} (h : e.or ((pts.findIdx? (¬ ·.Occupied)).map (· + (i + 1))) = e') :
        scan p pts (i + 1) e = match (pts.findIdx? (Holds p ·)).map (· + 1) with
          | some k => .found (k + i)
          | none => .absent e' := by
      rw [ih, h]
      cases pts.findIdx? (Holds p ·) with
      | none => rfl
      | some k => exact congrArg Scan.found (by dsimp only; omega)
    by_cases hq : q.Occupied
    · have hfirst : ¬ q.type.first = 0 := hq
      have hunused : (decide (¬ q.Occupied)) = false := by simpa using hq
      have behind : emptyI.or ((pts.findIdx? (¬ ·.Occupied)).map (· + (i + 1))) =
          emptyI.or (((pts.findIdx? (¬ ·.Occupied)).map (· + 1)).map (· + i)) := by
        rw [Option.map_map]
        congr 2
        funext k
        simp only [Function.comp]
        omega
      rw [if_neg hfirst, hunused]
      by_cases hd : InvalidDataType q.dataType
      · -- skipped, whatever its type and key are
        have hno : decide (Holds p q) = false := by simp [hd]
        rw [if_pos hd, hno]
        exact shift behind
      · rw [if_neg hd]
        by_cases hpair : q.pair = p.pair
        · have hyes : decide (Holds p q) = true := by simp [hq, hd, hpair]
          rw [if_pos (strncmp_pair.mpr hpair), hyes]
          simp
        · have hno : decide (Holds p q) = false := by simp [hpair]
          rw [if_neg (mt strncmp_pair.mp hpair), hno]
          exact shift behind
    · have hfirst : q.type.first = 0 := not_not.mp hq
      have hno : decide (Holds p q) = false := by simp [hq]
      have hunused : (decide (¬ q.Occupied)) = true := by simpa using hq
      rw [if_pos hfirst, hno, hunused]
      refine shift ?_
      cases emptyI <;> simp

end pointsMerge

open pointsMerge in
/-- Everything a merge can do: overwrite a slot that holds the pair, use the first unused slot,
or refuse the point because every slot is in use. -/
theorem pointsMerge_cases (pts : List Point) (p : Point) :
    (∃ i q, pts[i]? = some q ∧ Holds p.defaultKey q ∧
      pointsMerge pts p = ⟨0, pts.set i p.defaultKey, p.defaultKey⟩) ∨
    ((∀ q ∈ pts, ¬ Holds p.defaultKey q) ∧ ∃ i q, pts[i]? = some q ∧ ¬ q.Occupied ∧
      (∀ r ∈ pts.take i, r.Occupied) ∧
      pointsMerge pts p = ⟨0, pts.set i p.defaultKey, p.defaultKey⟩) ∨
    ((∀ q ∈ pts, ¬ Holds p.defaultKey q) ∧ (∀ q ∈ pts, q.Occupied) ∧
      pointsMerge pts p = ⟨-enomem, pts, p.defaultKey⟩) := by
  have heq := scan_eq p.defaultKey pts 0 none
  cases hfound : pts.findIdx? (Holds p.defaultKey ·) with
  | some i =>
    simp only [hfound, Nat.add_zero] at heq
    obtain ⟨hi, hq, _⟩ := List.findIdx?_eq_some_iff_getElem.mp hfound
    refine .inl ⟨i, pts[i], List.getElem?_eq_getElem hi, of_decide_eq_true hq, ?_⟩
    simp only [pointsMerge, heq]
  | none =>
    have hno : ∀ q ∈ pts, ¬ Holds p.defaultKey q := fun q hq =>
      of_decide_eq_false (List.findIdx?_eq_none_iff.mp hfound q hq)
    cases hunused : pts.findIdx? (¬ ·.Occupied) with
    | some i =>
      simp only [hfound, hunused, Option.map_some, Nat.add_zero, Option.none_or] at heq
      obtain ⟨hi, hq, hbefore⟩ := List.findIdx?_eq_some_iff_getElem.mp hunused
      refine .inr (.inl ⟨hno, i, pts[i], List.getElem?_eq_getElem hi, of_decide_eq_true hq,
        fun r hr => ?_, ?_⟩)
      · obtain ⟨j, hj, rfl⟩ := List.mem_take_iff_getElem.mp hr
        simpa using hbefore j (by omega)
      · simp only [pointsMerge, heq]
    | none =>
      simp only [hfound, hunused, Option.map_none, Option.none_or] at heq
      refine .inr (.inr ⟨hno, fun q hq => ?_, ?_⟩)
      · simpa using List.findIdx?_eq_none_iff.mp hunused q hq
      · simp only [pointsMerge, heq]

theorem length_pointsMerge (pts : List Point) (p : Point) :
    (pointsMerge pts p).pts.length = pts.length := by
  rcases pointsMerge_cases pts p with ⟨i, q, _, _, h⟩ | ⟨_, i, q, _, _, _, h⟩ | ⟨_, _, h⟩ <;>
    simp [h]

theorem pointsMerge_p (pts : List Point) (p : Point) : (pointsMerge pts p).p = p.defaultKey := by
  rcases pointsMerge_cases pts p with ⟨i, q, _, _, h⟩ | ⟨_, i, q, _, _, _, h⟩ | ⟨_, _, h⟩ <;>
    simp [h]

/-- A refused merge says so and changes nothing. -/
theorem pointsMerge_refused {pts : List Point} {p : Point} (h : (pointsMerge pts p).ret ≠ 0) :
    (pointsMerge pts p).ret = -enomem ∧ (pointsMerge pts p).pts = pts := by
  rcases pointsMerge_cases pts p with ⟨i, q, _, _, e⟩ | ⟨_, i, q, _, _, _, e⟩ | ⟨_, _, e⟩
  · simp [e] at h
  · simp [e] at h
  · simp [e]

end ZephyrSiot
