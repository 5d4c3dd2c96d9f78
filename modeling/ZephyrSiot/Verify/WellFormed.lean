import ZephyrSiot.PointJson
import ZephyrSiot.PointMerge
import Mathlib.Logic.Function.Basic

/-!
# Points stay well formed

Points that start zeroed and are written through the setters, the decoder and the merge alone always
end their strings within their arrays (`points_wellFormed`).
-/

namespace ZephyrSiot
open CStr

/-- The strings end within their arrays. Numbers need not. -/
structure Point.WellFormed (p : Point) : Prop where
  type : p.type.Terminated
  key : p.key.Terminated
  data : TextDataType p.dataType → p.data.Terminated

/-- The array holds the longest prefix of the argument that fits. -/
structure HoldsPrefix {n : Nat} (a : CharArray n) (s : Bytes) : Prop where
  terminated : a.Terminated
  str : a.str = (cstr s).take (n - 1)

/-! ## Setters -/

theorem holdsPrefix_copyStrField (a : CharArray (n + 1)) (s : Bytes) :
    HoldsPrefix (copyStrField a s) s :=
  ⟨copyStrField_terminated .., copyStrField_str ..⟩

/-- A call on one point. -/
inductive PointCall where
  | setType (t : Bytes)
  | setKey (k : Bytes)
  | setTypeKey (t k : Bytes)
  | putInt (v : Int)
  | putFloat (v : UInt32)
  | putString (v : Bytes)
  | jsToPoint (js : PointJs)

def PointCall.apply : PointCall → Point → Point
  | setType t, p => p.setType t
  | setKey k, p => p.setKey k
  | setTypeKey t k, p => p.setTypeKey t k
  | putInt v, p => p.putInt v
  | putFloat v, p => p.putFloat v
  | putString v, p => p.putString v
  | jsToPoint js, p => (pointJsToPoint js p).2

namespace Point

variable {p : Point}

theorem wellFormed_zero : zero.WellFormed := ⟨by decide, by decide, by decide⟩

theorem WellFormed.jsToPoint (h : p.WellFormed) (js : PointJs) :
    (pointJsToPoint js p).2.WellFormed := by
  rcases Classical.em (js.t = none ∨ js.k = none ∨ js.dt = none) with hnone | hsome
  · rw [pointJsToPoint_none hnone]
    exact ⟨h.type, h.key, h.data⟩
  · obtain ⟨t, k, dt, d⟩ := js
    simp only [not_or, Option.ne_none_iff_exists'] at hsome
    obtain ⟨⟨t, rfl⟩, ⟨k, rfl⟩, dt, rfl⟩ := hsome
    rw [pointJsToPoint_some]
    exact ⟨copyStrField_terminated .., copyStrField_terminated .., fun hdt =>
      (decodedRun_text hdt _ d).1⟩

/-- Whether it succeeds or not, a call keeps the strings within their arrays. -/
theorem WellFormed.apply (h : p.WellFormed) (c : PointCall) : (c.apply p).WellFormed := by
  cases c with
  | setType t => exact ⟨copyStrField_terminated .., h.key, h.data⟩
  | setKey k => exact ⟨h.type, copyStrField_terminated .., h.data⟩
  | setTypeKey t k => exact ⟨copyStrField_terminated .., copyStrField_terminated .., h.data⟩
  | putInt v =>
    exact ⟨h.type, h.key, fun hdt : TextDataType pointDataTypeInt => absurd hdt (by decide)⟩
  | putFloat v =>
    exact ⟨h.type, h.key, fun hdt : TextDataType pointDataTypeFloat => absurd hdt (by decide)⟩
  | putString v => exact ⟨h.type, h.key, fun _ => copyStrField_terminated ..⟩
  | jsToPoint js => exact h.jsToPoint js

theorem WellFormed.defaultKey (h : p.WellFormed) : p.defaultKey.WellFormed := by
  unfold Point.defaultKey
  split
  · exact ⟨h.type, CharArray.terminated_poke (by decide), h.data⟩
  · exact h

end Point

/-! ## Memory -/

/-- Arrays of points. A point of its own is an array of one. -/
abbrev PointArrays := Nat → List Point

/-- An operation on the points: a call on the point at a place, or a merge of that point into an
array. -/
inductive PointOp where
  | call (array i : Nat) (c : PointCall)
  | merge (array i into : Nat)

namespace PointArrays

def zeroed (lengths : Nat → Nat) : PointArrays := fun array => .replicate (lengths array) .zero

def modify (m : PointArrays) (array i : Nat) (f : Point → Point) : PointArrays :=
  Function.update m array ((m array).modify i f)

/-- A merge writes the default key to its argument before it reads the array. -/
def step (m : PointArrays) : PointOp → PointArrays
  | .call array i c => m.modify array i c.apply
  | .merge array i into =>
    match (m array)[i]? with
    | none => m
    | some p =>
      let m := m.modify array i Point.defaultKey
      Function.update m into (pointsMerge (m into) p).pts

def WellFormed (m : PointArrays) : Prop := ∀ array, ∀ p ∈ m array, p.WellFormed

variable {m : PointArrays}

theorem WellFormed.update (h : m.WellFormed) {array : Nat} {pts : List Point}
    (hpts : ∀ p ∈ pts, p.WellFormed) : WellFormed (Function.update m array pts) := by
  intro other
  rcases eq_or_ne other array with rfl | hne
  · rw [Function.update_self]
    exact hpts
  · rw [Function.update_of_ne hne]
    exact h other

theorem WellFormed.modify (h : m.WellFormed) (array i : Nat) {f : Point → Point}
    (hf : ∀ p, p.WellFormed → (f p).WellFormed) : (m.modify array i f).WellFormed := by
  refine h.update fun p hp => ?_
  rw [List.mem_iff_getElem?] at hp
  obtain ⟨j, hj⟩ := hp
  rw [List.getElem?_modify] at hj
  obtain ⟨q, hq, rfl⟩ := Option.map_eq_some_iff.mp hj
  have hmem := h array q (List.mem_of_getElem? hq)
  split
  · exact hf q hmem
  · exact hmem

/-- A merge stores its point, or leaves the array as it is. -/
theorem mem_pointsMerge {pts : List Point} {p q : Point} (h : q ∈ (pointsMerge pts p).pts) :
    q ∈ pts ∨ q = p.defaultKey := by
  rcases pointsMerge_cases pts p with ⟨i, _, _, _, e⟩ | ⟨_, i, _, _, _, _, e⟩ | ⟨_, _, e⟩
  · rw [e] at h
    exact List.mem_or_eq_of_mem_set h
  · rw [e] at h
    exact List.mem_or_eq_of_mem_set h
  · rw [e] at h
    exact .inl h

theorem WellFormed.step (h : m.WellFormed) (op : PointOp) : (m.step op).WellFormed := by
  cases op with
  | call array i c => exact h.modify array i fun _ hp => hp.apply c
  | merge array i into =>
    unfold PointArrays.step
    dsimp only
    split
    · exact h
    · next p hp =>
      have hkey := h.modify array i fun _ hp => hp.defaultKey
      refine hkey.update fun q hq => ?_
      rcases mem_pointsMerge hq with hq | rfl
      · exact hkey into q hq
      · exact (h array p (List.mem_of_getElem? hp)).defaultKey

theorem wellFormed_zeroed (lengths : Nat → Nat) : (zeroed lengths).WellFormed := by
  intro array p hp
  rw [List.eq_of_mem_replicate hp]
  exact Point.wellFormed_zero

end PointArrays

/-! ## The result -/

/-- What a setter stores, and that it leaves the other fields as they were. -/
structure Point.SettersStore (p : Point) : Prop where
  setType : ∀ t, ∃ a, HoldsPrefix a t ∧ p.setType t = { p with type := a }
  setKey : ∀ k, ∃ a, HoldsPrefix a k ∧ p.setKey k = { p with key := a }
  setTypeKey : ∀ t k, ∃ a b, HoldsPrefix a t ∧ HoldsPrefix b k ∧
    p.setTypeKey t k = { p with type := a, key := b }
  putString : ∀ v, ∃ a, HoldsPrefix a v ∧
    p.putString v = { p with dataType := pointDataTypeString, data := a } ∧
      ∀ (len : Nat) (dest : CharArray len), 20 ≤ len → ((p.putString v).getString dest).str = a.str
  putInt : ∀ v, ∃ a, p.putInt v = { p with dataType := pointDataTypeInt, data := a }
  putFloat : ∀ v, ∃ a, p.putFloat v = { p with dataType := pointDataTypeFloat, data := a }

/-- A string that fits is read back. -/
theorem str_getString {p : Point} (h : p.data.Terminated) {len : Nat} (dest : CharArray len)
    (hlen : 20 ≤ len) : (p.getString dest).str = p.data.str := by
  obtain ⟨n, rfl⟩ : ∃ n, len = n + 1 := ⟨len - 1, by omega⟩
  have hstr := h.length_str_lt
  rw [Point.getString, if_neg (by omega), copyStrField_str]
  exact List.take_of_length_le (by change p.data.str.length ≤ n; omega)

theorem settersStore (p : Point) : p.SettersStore where
  setType t := ⟨_, holdsPrefix_copyStrField _ t, rfl⟩
  setKey k := ⟨_, holdsPrefix_copyStrField _ k, rfl⟩
  setTypeKey t k := ⟨_, _, holdsPrefix_copyStrField _ t, holdsPrefix_copyStrField _ k, rfl⟩
  putString v := ⟨_, holdsPrefix_copyStrField _ v, rfl, fun _ dest hlen =>
    str_getString (copyStrField_terminated ..) dest hlen⟩
  putInt _ := ⟨_, rfl⟩
  putFloat _ := ⟨_, rfl⟩

/-- **Points stay well formed**, and each setter stores the longest prefix that fits and nothing
else. -/
theorem points_wellFormed :
    (∀ (lengths : Nat → Nat) (ops : List PointOp),
      (Machine.run PointArrays.step (.zeroed lengths) ops).WellFormed) ∧
      ∀ p : Point, p.SettersStore := by
  refine ⟨fun lengths ops => ?_, settersStore⟩
  exact Machine.run_invariant (P := fun _ => True) (fun _ op _ h => h.step op)
    (PointArrays.wellFormed_zeroed lengths) fun _ _ => trivial

end ZephyrSiot
