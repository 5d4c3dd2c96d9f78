import ZephyrSiot.PointMerge
import Mathlib.Data.List.Nodup
import Mathlib.Data.List.Perm.Basic

/-!
# Uniqueness in the point store

A store should hold a type and key in one slot only. A merge keeps this exactly when it is not
handed a pair that sits in a slot of invalid data type while a slot is free
(`uniquePairs_pointsMerge`): the loop skips that slot without comparing, and adds the point a
second time.
-/

namespace ZephyrSiot
open CStr pointsMerge

/-- The pairs of the slots in use. -/
def storedPairs (pts : List Point) : List (Bytes × Bytes) :=
  (pts.filter (·.Occupied)).map Point.pair

/-- No two slots in use hold one pair. -/
def UniquePairs (pts : List Point) : Prop := (storedPairs pts).Nodup

instance : DecidablePred UniquePairs := fun pts => inferInstanceAs (Decidable (storedPairs pts).Nodup)

/-- The merge does not add beside a slot that it skips: no slot in use with an invalid data type
has the point's pair, or no slot is free. -/
def NoHiddenTwin (pts : List Point) (p : Point) : Prop :=
  (∀ q ∈ pts, q.Occupied → InvalidDataType q.dataType → q.pair ≠ p.defaultKey.pair) ∨
    ∀ q ∈ pts, q.Occupied

theorem mem_storedPairs {pts : List Point} {k : Bytes × Bytes} :
    k ∈ storedPairs pts ↔ ∃ q ∈ pts, q.Occupied ∧ q.pair = k := by
  simp [storedPairs, and_assoc]

theorem storedPairs_perm {pts pts' : List Point} (h : pts.Perm pts') :
    (storedPairs pts).Perm (storedPairs pts') := (h.filter _).map _

theorem storedPairs_cons_of_occupied {p : Point} (h : p.Occupied) (pts : List Point) :
    storedPairs (p :: pts) = p.pair :: storedPairs pts := by
  rw [storedPairs, List.filter_cons_of_pos (by simpa using h)]; rfl

theorem storedPairs_cons_of_not_occupied {p : Point} (h : ¬ p.Occupied) (pts : List Point) :
    storedPairs (p :: pts) = storedPairs pts := by
  rw [storedPairs, List.filter_cons_of_neg (by simpa using h)]; rfl

/-- Overwriting a slot by a point of its pair changes no stored pair. -/
theorem storedPairs_set_same {pts : List Point} {i : Nat} {p q : Point} (hi : pts[i]? = some q)
    (hq : q.Occupied) (hpair : q.pair = p.pair) (hp : p.Occupied) :
    (storedPairs (pts.set i p)).Perm (storedPairs pts) := by
  obtain ⟨hlt, rfl⟩ := List.getElem?_eq_some_iff.mp hi
  have h1 := storedPairs_perm (List.set_perm_cons_eraseIdx hlt p)
  have h2 := storedPairs_perm (List.getElem_cons_eraseIdx_perm hlt)
  rw [storedPairs_cons_of_occupied hp, ← hpair] at h1
  rw [storedPairs_cons_of_occupied hq] at h2
  exact h1.trans h2

/-- Filling an unused slot adds the point's pair to those stored, if the point is one at all. -/
theorem storedPairs_set_unused {pts : List Point} {i : Nat} {p q : Point} (hi : pts[i]? = some q)
    (hq : ¬ q.Occupied) : (storedPairs (pts.set i p)).Perm (storedPairs (p :: pts)) := by
  obtain ⟨hlt, rfl⟩ := List.getElem?_eq_some_iff.mp hi
  have h1 := storedPairs_perm (List.set_perm_cons_eraseIdx hlt p)
  have h2 := storedPairs_perm ((List.getElem_cons_eraseIdx_perm hlt).cons p)
  refine h1.trans (.trans ?_ h2)
  by_cases hp : p.Occupied
  · rw [storedPairs_cons_of_occupied hp, storedPairs_cons_of_occupied hp,
      storedPairs_cons_of_not_occupied hq]
  · rw [storedPairs_cons_of_not_occupied hp, storedPairs_cons_of_not_occupied hp,
      storedPairs_cons_of_not_occupied hq]

theorem Point.Occupied.of_pair {p q : Point} (h : q.Occupied) (hpair : q.pair = p.pair) :
    p.Occupied := by
  rw [Point.occupied_iff] at h ⊢
  exact fun e => h ((congrArg Prod.fst hpair).trans e)

/-- With distinct pairs, a slot in use that has the pair of another is that slot. -/
theorem UniquePairs.eq_of_pair {pts : List Point} (h : UniquePairs pts) {q r : Point}
    (hq : q ∈ pts) (hr : r ∈ pts) (hqo : q.Occupied) (hro : r.Occupied)
    (hpair : q.pair = r.pair) : q = r := by
  apply List.inj_on_of_nodup_map h
  · exact List.mem_filter.mpr ⟨hq, by simpa using hqo⟩
  · exact List.mem_filter.mpr ⟨hr, by simpa using hro⟩
  · exact hpair

/-- The step: a store of distinct pairs keeps them distinct exactly when no twin is hidden. -/
theorem uniquePairs_pointsMerge (pts : List Point) (p : Point) (h : UniquePairs pts) :
    UniquePairs (pointsMerge pts p).pts ↔ NoHiddenTwin pts p := by
  rcases pointsMerge_cases pts p with
    ⟨i, q, hi, hholds, heq⟩ | ⟨hno, i, q, hi, hq, _, heq⟩ | ⟨_, hfull, heq⟩
  · -- the slot found has a valid data type, so no other slot has its pair
    obtain ⟨hqo, hqv, hpair⟩ := hholds
    have hmem := List.mem_of_getElem? hi
    have hp := hqo.of_pair hpair
    rw [heq]
    refine iff_of_true ((storedPairs_set_same hi hqo hpair hp).nodup_iff.mpr h) (.inl ?_)
    intro r hr hro hrv hrpair
    cases h.eq_of_pair hr hmem hro hqo (hrpair.trans hpair.symm)
    exact hqv hrv
  · rw [heq]
    change (storedPairs (pts.set i p.defaultKey)).Nodup ↔ _
    rw [(storedPairs_set_unused hi hq).nodup_iff]
    by_cases hp : p.defaultKey.Occupied
    · rw [storedPairs_cons_of_occupied hp, List.nodup_cons]
      refine (and_iff_left h).trans ?_
      constructor
      · intro hnew
        exact .inl fun r hr hro _ hpair => hnew (mem_storedPairs.mpr ⟨r, hr, hro, hpair⟩)
      · rintro (htwin | hfull) hmem
        · obtain ⟨r, hr, hro, hpair⟩ := mem_storedPairs.mp hmem
          by_cases hrv : InvalidDataType r.dataType
          · exact htwin r hr hro hrv hpair
          · exact hno r hr ⟨hro, hrv, hpair⟩
        · exact hq (hfull q (List.mem_of_getElem? hi))
    · -- a point without a type leaves the slot unused, and is the twin of no slot in use
      rw [storedPairs_cons_of_not_occupied hp]
      exact iff_of_true h (.inl fun r _ hro _ hpair => hp (hro.of_pair hpair))
  · rw [heq]
    exact iff_of_true h (.inr hfull)

theorem uniquePairs_of_unused {pts : List Point} (h : ∀ q ∈ pts, ¬ q.Occupied) :
    UniquePairs pts := by
  have : pts.filter (·.Occupied) = [] := by
    rw [List.filter_eq_nil_iff]
    exact fun q hq => by simpa using h q hq
  rw [UniquePairs, storedPairs, this]
  exact List.nodup_nil

/-- Over a run of merges from an empty array, every state holds its pairs once exactly when no
merge of the run meets a hidden twin. -/
theorem uniquePairs_mergeRun (pts calls : List Point) (hempty : ∀ q ∈ pts, ¬ q.Occupied) :
    Machine.InEveryState (fun pts p => (pointsMerge pts p).pts) UniquePairs pts calls ↔
      Machine.AtEveryStep (fun pts p => (pointsMerge pts p).pts) NoHiddenTwin pts calls :=
  Machine.inEveryState_iff_atEveryStep uniquePairs_pointsMerge (uniquePairs_of_unused hempty) calls

/-- A point without data type, sent twice. -/
def untypedPoint : Point := Point.zero.setTypeKey (lit "temp") (lit "0")

theorem uniquePairs_mergeRun_untyped :
    Machine.InEveryState (fun pts p => (pointsMerge pts p).pts) UniquePairs
      [.zero, .zero] [{ untypedPoint with dataType := pointDataTypeInt }, untypedPoint] :=
  (uniquePairs_mergeRun _ _ (by decide)).mpr (by
    refine ⟨.inl ?_, .inl ?_, trivial⟩
    · decide
    · decide)

/-- The second copy of the untyped point is stored beside the first. -/
theorem not_uniquePairs_mergeRun :
    ¬ UniquePairs (mergeRun [.zero, .zero] [untypedPoint, untypedPoint]) := by
  decide

end ZephyrSiot
