import ZephyrSiot.Theory.KeyedList
import Mathlib.Data.List.Induction

/-!
# Bounded last-writer-wins stores

A store of keyed values with a capacity. A value whose key is present replaces the one stored
under it; another is added behind those present while there is room, and refused when there
is none. `history` is the list of the values accepted over a sequence of puts: the store is
determined by it (`keys_puts`, `find?_puts`).
-/

namespace KeyedStore

variable {κ ν : Type*} [DecidableEq κ]

/-- At most `cap` values, no two under one key, in the order in which their keys came. -/
structure Store (key : ν → κ) (cap : Nat) where
  vals : List ν
  nodup : (vals.map key).Nodup
  length_le : vals.length ≤ cap

variable {key : ν → κ} {cap : Nat}

/-- Put `v` in the place of the value stored under its key. -/
def replace (key : ν → κ) (v : ν) (l : List ν) : List ν :=
  l.map fun w => if key w = key v then v else w

@[simp] theorem length_replace (v : ν) (l : List ν) : (replace key v l).length = l.length :=
  List.length_map _

@[simp] theorem keys_replace (v : ν) (l : List ν) : (replace key v l).map key = l.map key := by
  rw [replace, List.map_map]
  apply List.map_congr_left
  intro w _
  dsimp only [Function.comp]
  split
  · next h => exact h.symm
  · rfl

/-- With distinct keys, replacing changes the one value under the key and no other. -/
theorem replace_eq_set {v : ν} {l : List ν} (hl : (l.map key).Nodup) {i : Nat} {w : ν}
    (hi : l[i]? = some w) (hw : key w = key v) : replace key v l = l.set i v := by
  induction l generalizing i with
  | nil => simp at hi
  | cons u l ih =>
    simp only [List.map_cons, List.nodup_cons] at hl
    cases i with
    | zero =>
      obtain rfl : u = w := by simpa using hi
      have hrest : l.map (fun w => if key w = key v then v else w) = l := by
        conv_rhs => rw [← List.map_id l]
        apply List.map_congr_left
        intro x hx
        exact if_neg fun e => hl.1 (List.mem_map.mpr ⟨x, hx, e.trans hw.symm⟩)
      simp [replace, hw, hrest]
    | succ i =>
      have hi' : l[i]? = some w := by simpa using hi
      have hu : key u ≠ key v := fun e =>
        hl.1 (List.mem_map.mpr ⟨w, List.mem_of_getElem? hi', hw.trans e.symm⟩)
      rw [List.set_cons_succ, ← ih hl.2 hi']
      simp [replace, hu]

theorem find?_replace_self {v : ν} {l : List ν} (h : key v ∈ l.map key) :
    (replace key v l).find? (key · = key v) = some v := by
  induction l with
  | nil => simp at h
  | cons w l ih =>
    by_cases hw : key w = key v
    · simp [replace, hw]
    · have h' : key v ∈ l.map key := by simpa [Ne.symm hw] using h
      simpa [replace, hw] using ih h'

theorem find?_replace_of_ne {v : ν} {l : List ν} {k : κ} (hk : k ≠ key v) :
    (replace key v l).find? (key · = k) = l.find? (key · = k) := by
  induction l with
  | nil => rfl
  | cons w l ih =>
    by_cases hw : key w = key v
    · have hw' : key w ≠ k := fun e => hk (e.symm.trans hw)
      simpa [replace, hw, hw', Ne.symm hk] using ih
    · by_cases hwk : key w = k
      · subst hwk; simp [replace, hw]
      · simpa [replace, hw, hwk] using ih

/-- The distinct members of a list, in the order of their first occurrences. -/
def firstOccurrences (l : List κ) : List κ := l.eraseDups

theorem mem_firstOccurrences {l : List κ} {a : κ} : a ∈ firstOccurrences l ↔ a ∈ l :=
  List.mem_eraseDups

theorem firstOccurrences_snoc (l : List κ) (a : κ) :
    firstOccurrences (l ++ [a]) =
      if a ∈ l then firstOccurrences l else firstOccurrences l ++ [a] := by
  rw [firstOccurrences, List.eraseDups_append]
  split
  · next h => simp [firstOccurrences, List.removeAll, h]
  · next h => simp [firstOccurrences, List.removeAll, h, List.eraseDups_cons]

namespace Store

def empty (key : ν → κ) (cap : Nat) : Store key cap := ⟨[], List.nodup_nil, Nat.zero_le _⟩

def keys (s : Store key cap) : List κ := s.vals.map key

def find? (s : Store key cap) (k : κ) : Option ν := s.vals.find? (key · = k)

/-- Put a value, or refuse it when its key is new and the store is full. -/
def put (s : Store key cap) (v : ν) : Option (Store key cap) :=
  if hmem : key v ∈ s.keys then
    some ⟨replace key v s.vals, by rw [keys_replace]; exact s.nodup,
      by rw [length_replace]; exact s.length_le⟩
  else if hlt : s.vals.length < cap then
    some ⟨s.vals ++ [v], by
      rw [List.map_append, List.map_singleton]
      exact List.nodup_append.mpr ⟨s.nodup, List.nodup_singleton _, fun a ha b hb e =>
        hmem (by rw [← List.mem_singleton.mp hb, ← e]; exact ha)⟩,
      by rw [List.length_append]; exact hlt⟩
  else none

/-- Everything a put can do. -/
theorem put_cases (s : Store key cap) (v : ν) :
    (key v ∈ s.keys ∧ ∃ t, s.put v = some t ∧ t.vals = replace key v s.vals) ∨
    (key v ∉ s.keys ∧ s.vals.length < cap ∧ ∃ t, s.put v = some t ∧ t.vals = s.vals ++ [v]) ∨
    (key v ∉ s.keys ∧ s.vals.length = cap ∧ s.put v = none) := by
  by_cases hmem : key v ∈ s.keys
  · exact .inl ⟨hmem, _, dif_pos hmem, rfl⟩
  · by_cases hlt : s.vals.length < cap
    · refine .inr (.inl ⟨hmem, hlt, ?_⟩)
      rw [put, dif_neg hmem, dif_pos hlt]
      exact ⟨_, rfl, rfl⟩
    · have := s.length_le
      refine .inr (.inr ⟨hmem, by omega, ?_⟩)
      rw [put, dif_neg hmem, dif_neg hlt]

theorem put_isSome {s : Store key cap} {v : ν} :
    (s.put v).isSome ↔ key v ∈ s.keys ∨ s.vals.length < cap := by
  rcases s.put_cases v with ⟨hk, t, ht, _⟩ | ⟨hk, hlt, t, ht, _⟩ | ⟨hk, hfull, hnone⟩
  · simp [ht, hk]
  · simp [ht, hlt]
  · simp [hnone, hk, hfull]

theorem keys_put {s t : Store key cap} {v : ν} (h : s.put v = some t) :
    t.keys = if key v ∈ s.keys then s.keys else s.keys ++ [key v] := by
  rcases s.put_cases v with ⟨hk, u, hu, hv⟩ | ⟨hk, _, u, hu, hv⟩ | ⟨_, _, hnone⟩
  · cases hu.symm.trans h
    rw [if_pos hk, keys, hv, keys_replace, keys]
  · cases hu.symm.trans h
    rw [if_neg hk, keys, hv, List.map_append, List.map_singleton, keys]
  · rw [hnone] at h; cases h

theorem find?_put {s t : Store key cap} {v : ν} (h : s.put v = some t) (k : κ) :
    t.find? k = if k = key v then some v else s.find? k := by
  rcases s.put_cases v with ⟨hk, u, hu, hv⟩ | ⟨hk, _, u, hu, hv⟩ | ⟨_, _, hnone⟩
  · cases hu.symm.trans h
    rw [find?, hv]
    split
    · next e => subst e; exact find?_replace_self hk
    · next e => exact find?_replace_of_ne e
  · cases hu.symm.trans h
    have hnone : s.vals.find? (key · = key v) = none := by
      rw [List.find?_eq_none]
      exact fun w hw e => hk (List.mem_map.mpr ⟨w, hw, of_decide_eq_true e⟩)
    rw [find?, hv, List.find?_append]
    split
    · next e => subst e; simp [hnone]
    · next e => simp [find?, Ne.symm e]
  · rw [hnone] at h; cases h

/-! ## Sequences of puts -/

/-- The store after the puts `vs`, a refused one leaving it unchanged. -/
def puts (s : Store key cap) (vs : List ν) : Store key cap :=
  vs.foldl (fun s v => (s.put v).getD s) s

/-- The values of `vs` that are accepted, in order. -/
def history (s : Store key cap) : List ν → List ν
  | [] => []
  | v :: vs =>
    match s.put v with
    | some t => v :: t.history vs
    | none => s.history vs

theorem puts_snoc (s : Store key cap) (vs : List ν) (v : ν) :
    s.puts (vs ++ [v]) = ((s.puts vs).put v).getD (s.puts vs) := by
  rw [puts, List.foldl_append]; rfl

theorem history_snoc (s : Store key cap) (vs : List ν) (v : ν) :
    s.history (vs ++ [v]) = s.history vs ++ if ((s.puts vs).put v).isSome then [v] else [] := by
  induction vs generalizing s with
  | nil => cases h : s.put v <;> simp [history, puts, h]
  | cons w vs ih =>
    rw [List.cons_append, history, history, puts, List.foldl_cons]
    cases h : s.put w with
    | none => exact ih s
    | some t => exact congrArg (w :: ·) (ih t)

/-- The keys present are those accepted, in the order in which each was first accepted. -/
theorem keys_puts (vs : List ν) :
    ((empty key cap).puts vs).keys = firstOccurrences (((empty key cap).history vs).map key) := by
  induction vs using List.reverseRecOn with
  | nil => rfl
  | append_singleton vs v ih =>
    have hmem : key v ∈ ((empty key cap).puts vs).keys ↔
        key v ∈ ((empty key cap).history vs).map key := by
      rw [ih, mem_firstOccurrences]
    rw [puts_snoc, history_snoc]
    cases h : ((empty key cap).puts vs).put v with
    | none => simpa using ih
    | some t =>
      rw [Option.getD_some, keys_put h, Option.isSome_some, if_pos rfl, List.map_append,
        List.map_singleton, firstOccurrences_snoc, ← ih]
      exact if_congr hmem rfl rfl

/-- What stands under a key is the value last accepted for it. -/
theorem find?_puts (vs : List ν) (k : κ) :
    ((empty key cap).puts vs).find? k =
      ((empty key cap).history vs).reverse.find? (key · = k) := by
  induction vs using List.reverseRecOn with
  | nil => rfl
  | append_singleton vs v ih =>
    rw [puts_snoc, history_snoc]
    cases h : ((empty key cap).puts vs).put v with
    | none => simpa using ih
    | some t =>
      rw [Option.getD_some, find?_put h, Option.isSome_some, if_pos rfl, List.reverse_append,
        List.reverse_singleton, List.singleton_append, List.find?_cons, ← ih]
      by_cases hk : k = key v
      · simp [hk]
      · simp [hk, Ne.symm hk]

/-- Keys are never dropped or moved: later puts only add keys behind. -/
theorem keys_prefix_puts (s : Store key cap) (vs : List ν) : s.keys <+: (s.puts vs).keys := by
  induction vs using List.reverseRecOn with
  | nil => exact List.prefix_rfl
  | append_singleton vs v ih =>
    rw [puts_snoc]
    cases h : (s.puts vs).put v with
    | none => exact ih
    | some t =>
      rw [Option.getD_some, keys_put h]
      split
      · exact ih
      · exact ih.trans (List.prefix_append _ _)

/-- A value of the store is the one found under its key. -/
theorem find?_of_mem (s : Store key cap) {v : ν} (h : v ∈ s.vals) : s.find? (key v) = some v :=
  (KeyedList.find?_eq_some_iff s.nodup).mpr h

end Store

end KeyedStore
