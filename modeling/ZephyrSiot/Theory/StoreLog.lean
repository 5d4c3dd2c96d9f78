import ZephyrSiot.Theory.KeyedStore
import Mathlib.Data.List.Perm.Subperm

/-!
# Stores that follow a log

The values of a log are delivered to a store one after another, and some of them may have been
put ahead of their turn. Under a key that has nothing `pending` the store holds what was logged
last (`Settles`). So once nothing is pending the store is the last writer of the log, as far as
there is room (`Settles.find?_of_mem`, `Settles.find?_eq`).
-/

namespace KeyedStore

variable {κ ν : Type*} [DecidableEq κ] {key : ν → κ} {cap : Nat} {v : ν} {k : κ}
  {log rest pending pending' : List ν}

/-! ## The value logged last -/

def latest (key : ν → κ) (log : List ν) (k : κ) : Option ν := log.reverse.find? (key · = k)

theorem latest_append (before after : List ν) (k : κ) :
    latest key (before ++ after) k = (latest key after k).or (latest key before k) := by
  rw [latest, List.reverse_append, List.find?_append]
  rfl

theorem latest_eq_none : latest key log k = none ↔ k ∉ log.map key := by
  rw [latest, List.find?_eq_none]
  simp

theorem latest_key (h : latest key log k = some v) : key v = k :=
  of_decide_eq_true (List.find?_some (p := (key · = k)) h)

theorem latest_append_of_notMem (before : List ν) {after : List ν} (h : k ∉ after.map key) :
    latest key (before ++ after) k = latest key before k := by
  rw [latest_append, latest_eq_none.mpr h, Option.none_or]

/-- Mapping the entries, where it does not change which ones are under the key. -/
theorem latest_map {f : ν → ν} (h : ∀ v ∈ log, key (f v) = k ↔ key v = k) :
    latest key (log.map f) k = (latest key log k).map f := by
  have hcongr : log.reverse.find? (fun v => key (f v) = k) = log.reverse.find? (key · = k) := by
    rw [← List.head?_filter, ← List.head?_filter]
    refine congrArg List.head? (List.filter_congr fun v hv => ?_)
    simp [h v (List.mem_reverse.mp hv)]
  rw [latest, ← List.map_reverse, List.find?_map, latest, ← hcongr]
  rfl

/-- Nothing under its key comes behind the value. -/
theorem latest_of_notMem_rest (done : List ν) (h : key v ∉ rest.map key) :
    latest key (done ++ v :: rest) (key v) = some v := by
  rw [List.append_cons, latest_append_of_notMem _ h, latest_append]
  simp [latest]

namespace Store

variable {s : Store key cap}

theorem find?_eq_none : s.find? k = none ↔ k ∉ s.keys := by
  rw [find?, List.find?_eq_none, keys]
  simp

omit [DecidableEq κ] in
theorem length_keys_le (s : Store key cap) : s.keys.length ≤ cap := by
  rw [keys, List.length_map]
  exact s.length_le

theorem mem_keys_put {t : Store key cap} (h : s.put v = some t) :
    k ∈ t.keys ↔ k = key v ∨ k ∈ s.keys := by
  rw [keys_put h]
  split
  · next hv => exact ⟨.inr, fun hk => hk.elim (fun e => e ▸ hv) id⟩
  · rw [List.mem_append, List.mem_singleton, or_comm]

theorem length_keys_put {t : Store key cap} (h : s.put v = some t) :
    s.keys.length ≤ t.keys.length := by
  rw [keys_put h]
  split
  · exact Nat.le_refl _
  · rw [List.length_append]
    exact Nat.le_add_right _ _

theorem put_eq_none : s.put v = none ↔ key v ∉ s.keys ∧ s.keys.length = cap := by
  rw [← Option.not_isSome_iff_eq_none, put_isSome, not_or, keys, List.length_map]
  have := s.length_le
  exact and_congr_right fun _ => by omega

/-- The values stored under a key: there is at most one. -/
theorem filter_vals_eq (s : Store key cap) (k : κ) :
    s.vals.filter (key · = k) = (s.find? k).toList := by
  have aux : ∀ l : List ν, (l.map key).Nodup →
      l.filter (key · = k) = (l.find? (key · = k)).toList := by
    intro l hl
    induction l with
    | nil => rfl
    | cons w l ih =>
      obtain ⟨hw, hl⟩ := List.nodup_cons.mp hl
      by_cases hk : key w = k
      · have hrest : l.filter (key · = k) = [] := by
          rw [List.filter_eq_nil_iff]
          intro u hu hku
          have hkey : key u = key w := (of_decide_eq_true hku).trans hk.symm
          exact hw (List.mem_map.mpr ⟨u, hu, hkey⟩)
        simp [hk, hrest]
      · simp [hk, ih hl]
  exact aux s.vals s.nodup

end Store

/-! ## Stores that have the last value, or will get it -/

structure Settles (s : Store key cap) (pending log : List ν) : Prop where
  current : ∀ k ∈ s.keys, k ∉ pending.map key → s.find? k = latest key log k
  /-- A key is missing only when there was no room for it. -/
  full : ∀ k ∈ log.map key, k ∉ pending.map key → k ∉ s.keys → s.keys.length = cap

namespace Settles

variable {s : Store key cap}

theorem empty : Settles (.empty key cap) [] [] where
  current := by
    intro k hk
    cases hk
  full := by
    intro k hk
    cases hk

theorem mono (h : Settles s pending log) (hsub : ∀ k ∈ pending.map key, k ∈ pending'.map key) :
    Settles s pending' log where
  current k hk hp := h.current k hk (mt (hsub k) hp)
  full k hk hp := h.full k hk (mt (hsub k) hp)

/-- A value is logged while it is pending. -/
theorem logged (h : Settles s pending log) (hv : key v ∈ pending.map key) :
    Settles s pending (log ++ [v]) := by
  have hne {k : κ} (hp : k ∉ pending.map key) : k ∉ [v].map key := by
    intro hk
    rw [List.map_singleton, List.mem_singleton] at hk
    exact hp (hk ▸ hv)
  constructor
  · intro k hk hp
    rw [latest_append_of_notMem _ (hne hp)]
    exact h.current k hk hp
  · intro k hk hp
    rw [List.map_append, List.mem_append] at hk
    exact h.full k (hk.resolve_right (hne hp)) hp

/-- A put settles the key of the value, unless it is pending again. -/
theorem put (h : Settles s pending log)
    (hsub : ∀ k ∈ pending.map key, k ≠ key v → k ∈ pending'.map key)
    (hv : key v ∉ pending'.map key → latest key log (key v) = some v) :
    Settles ((s.put v).getD s) pending' log := by
  have hsettled {k : κ} (hp : k ∉ pending'.map key) (hk : k ≠ key v) : k ∉ pending.map key :=
    fun hpending => hp (hsub k hpending hk)
  cases hput : s.put v with
  | some t =>
    rw [Option.getD_some]
    constructor
    · intro k hk hp
      rw [Store.find?_put hput]
      split
      · next e =>
        subst e
        exact (hv hp).symm
      · next e =>
        apply h.current k _ (hsettled hp e)
        exact ((Store.mem_keys_put hput).mp hk).resolve_left e
    · intro k hlog hp hk
      obtain ⟨e, hnew⟩ := not_or.mp (mt (Store.mem_keys_put hput).mpr hk)
      have hfull := h.full k hlog (hsettled hp e) hnew
      apply Nat.le_antisymm t.length_keys_le
      exact Nat.le_trans (Nat.le_of_eq hfull.symm) (Store.length_keys_put hput)
  | none =>
    rw [Option.getD_none]
    obtain ⟨hnew, hfull⟩ := Store.put_eq_none.mp hput
    constructor
    · intro k hk hp
      apply h.current k hk (hsettled hp _)
      rintro rfl
      exact hnew hk
    · exact fun _ _ _ _ => hfull

/-- A value ahead of its turn: it stays pending. -/
theorem put_ahead (h : Settles s pending log) :
    Settles ((s.put v).getD s) (pending ++ [v]) log := by
  apply h.put
  · intro k hk _
    rw [List.map_append]
    exact List.mem_append_left _ hk
  · intro hv
    simp at hv

/-- The next value of the log is delivered. -/
theorem deliver {done : List ν} (h : Settles s (v :: rest) (done ++ v :: rest)) :
    Settles ((s.put v).getD s) rest (done ++ v :: rest) := by
  apply h.put
  · intro k hk hne
    rw [List.map_cons] at hk
    exact (List.mem_cons.mp hk).resolve_left hne
  · exact latest_of_notMem_rest done

/-- With nothing pending, what is stored was logged last under its key. -/
theorem find?_of_mem (h : Settles s [] log) (hv : v ∈ s.vals) : latest key log (key v) = some v := by
  rw [← h.current _ (List.mem_map_of_mem hv) List.not_mem_nil]
  exact s.find?_of_mem hv

/-- With nothing pending and room for all keys, the store is the last writer of the log. -/
theorem find?_eq (h : Settles s [] log) {keys : List κ} (hkeys : ∀ w ∈ log, key w ∈ keys)
    (hroom : keys.length ≤ cap) (k : κ) : s.find? k = latest key log k := by
  by_cases hk : k ∈ s.keys
  · exact h.current k hk List.not_mem_nil
  · rw [Store.find?_eq_none.mpr hk, eq_comm, latest_eq_none]
    intro hlog
    have hfull := h.full k hlog List.not_mem_nil hk
    have hnodup : (k :: s.keys).Nodup := List.nodup_cons.mpr ⟨hk, s.nodup⟩
    have hsub : k :: s.keys ⊆ keys := by
      intro k' hk'
      have hlogged : k' ∈ log.map key := by
        rcases List.mem_cons.mp hk' with rfl | hstored
        · exact hlog
        · obtain ⟨w, hw, rfl⟩ := List.mem_map.mp hstored
          by_contra hnone
          have hlast := h.find?_of_mem hw
          rw [latest_eq_none.mpr hnone] at hlast
          cases hlast
      obtain ⟨w, hw, rfl⟩ := List.mem_map.mp hlogged
      exact hkeys w hw
    have hlen := (List.subperm_of_subset hnodup hsub).length_le
    rw [List.length_cons, hfull] at hlen
    omega

end Settles

/-! ## All puts in order -/

/-- The last value under each of the first `cap` keys of a log. -/
def summary (key : ν → κ) (cap : Nat) (log : List ν) : List ν :=
  ((firstOccurrences (log.map key)).take cap).filterMap (latest key log)

namespace Store

theorem settles_puts (vs : List ν) : Settles ((empty key cap).puts vs) [] vs := by
  induction vs using List.reverseRecOn with
  | nil => exact .empty
  | append_singleton vs v ih =>
    rw [puts_snoc]
    refine Settles.deliver (.logged (ih.mono (List.forall_mem_nil _)) ?_)
    exact List.mem_singleton_self _

theorem keys_puts_eq_take (vs : List ν) :
    ((empty key cap).puts vs).keys = (firstOccurrences (vs.map key)).take cap := by
  induction vs using List.reverseRecOn with
  | nil => exact List.take_nil.symm
  | append_singleton vs v ih =>
    have hlen := length_keys_le ((empty key cap).puts vs)
    rw [puts_snoc, List.map_append, List.map_singleton, firstOccurrences_snoc]
    cases hput : ((empty key cap).puts vs).put v with
    | none =>
      obtain ⟨-, hfull⟩ := put_eq_none.mp hput
      rw [Option.getD_none, ih]
      split
      · rfl
      · rw [ih, List.length_take] at hfull
        exact (List.take_append_of_le_length (by omega)).symm
    | some t =>
      rw [Option.getD_some, keys_put hput]
      by_cases hmem : key v ∈ ((empty key cap).puts vs).keys
      · rw [if_pos hmem, if_pos (mem_firstOccurrences.mp (List.mem_of_mem_take (ih ▸ hmem))), ih]
      · have hlt : ((empty key cap).puts vs).vals.length < cap :=
          (put_isSome.mp (hput ▸ rfl)).resolve_left hmem
        have hroom : (firstOccurrences (vs.map key)).length < cap := by
          have hkeys := congrArg List.length ih
          rw [keys, List.length_map, List.length_take] at hkeys
          omega
        rw [List.take_of_length_le (Nat.le_of_lt hroom)] at ih
        rw [if_neg hmem, if_neg (mt mem_firstOccurrences.mpr (ih ▸ hmem)), ih,
          List.take_of_length_le]
        rw [List.length_append]
        exact hroom

/-- The values are the last ones of the keys. -/
theorem vals_eq (s : Store key cap) : s.vals = s.keys.filterMap s.find? := by
  rw [keys, List.filterMap_map]
  refine Eq.trans ?_ (List.filterMap_congr fun v hv => (s.find?_of_mem hv).symm)
  exact List.filterMap_some.symm

/-- The store is the summary of the puts. -/
theorem vals_puts (vs : List ν) : ((empty key cap).puts vs).vals = summary key cap vs := by
  rw [vals_eq, summary, ← keys_puts_eq_take]
  exact List.filterMap_congr fun k hk => (settles_puts vs).current k hk List.not_mem_nil

end Store

end KeyedStore
