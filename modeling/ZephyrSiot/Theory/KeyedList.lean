import Mathlib.Data.List.Nodup

/-!
# Lists with keys

`put` replaces the first value under a key, or adds one in front of the list; `puts` puts the values
of a list, the last of them first. What is found under a key then (`find?_puts`) does not ask for
distinct keys, and distinct keys stay distinct (`nodup_puts`).
-/

namespace KeyedList

variable {α κ : Type*} [DecidableEq κ] {key : α → κ} {x z : α} {xs l : List α}

def put (key : α → κ) (x : α) (l : List α) : List α :=
  match l.findIdx? (key · = key x) with
  | some i => l.set i x
  | none => x :: l

def puts (key : α → κ) (xs l : List α) : List α := xs.foldr (put key) l

/-- Everything a put can do. -/
theorem put_cases (key : α → κ) (x : α) (l : List α) :
    (∃ l₁ y l₂, l = l₁ ++ y :: l₂ ∧ key y = key x ∧ (∀ z ∈ l₁, key z ≠ key x) ∧
        put key x l = l₁ ++ x :: l₂) ∨
      (∀ z ∈ l, key z ≠ key x) ∧ put key x l = x :: l := by
  unfold put
  cases h : l.findIdx? (key · = key x) with
  | none =>
    rw [List.findIdx?_eq_none_iff] at h
    exact .inr ⟨fun z hz => of_decide_eq_false (h z hz), rfl⟩
  | some i =>
    rw [List.findIdx?_eq_some_iff_getElem] at h
    obtain ⟨hi, hkey, hbefore⟩ := h
    refine .inl ⟨l.take i, l[i], l.drop (i + 1), ?_, of_decide_eq_true hkey, ?_, ?_⟩
    · rw [List.getElem_cons_drop, List.take_append_drop]
    · intro z hz
      obtain ⟨j, hj, rfl⟩ := List.mem_take_iff_getElem.mp hz
      exact fun e => hbefore j (by omega) (decide_eq_true e)
    · dsimp only
      rw [List.set_eq_take_append_cons_drop, if_pos hi]

theorem find?_put (key : α → κ) (x : α) (l : List α) (k : κ) :
    (put key x l).find? (key · = k) = if key x = k then some x else l.find? (key · = k) := by
  rcases eq_or_ne (key x) k with rfl | hk
  · rw [if_pos rfl]
    have hself (t : List α) : (x :: t).find? (key · = key x) = some x :=
      List.find?_cons_of_pos (by simp)
    rcases put_cases key x l with ⟨l₁, y, l₂, -, -, hbefore, hput⟩ | ⟨-, hput⟩
    · have hnone : l₁.find? (key · = key x) = none := by
        rw [List.find?_eq_none]
        exact fun z hz e => hbefore z hz (of_decide_eq_true e)
      rw [hput, List.find?_append, hnone, hself]
      rfl
    · rw [hput, hself]
  · rw [if_neg hk]
    have hother {y : α} (hy : key y = key x) (t : List α) :
        (y :: t).find? (key · = k) = t.find? (key · = k) :=
      List.find?_cons_of_neg (by simpa [hy] using hk)
    rcases put_cases key x l with ⟨l₁, y, l₂, rfl, hy, -, hput⟩ | ⟨-, hput⟩
    · rw [hput, List.find?_append, List.find?_append, hother rfl, hother hy]
    · rw [hput, hother rfl]

theorem find?_puts (key : α → κ) (xs l : List α) (k : κ) :
    (puts key xs l).find? (key · = k) =
      (xs.find? (key · = k)).or (l.find? (key · = k)) := by
  induction xs with
  | nil => rfl
  | cons x xs ih =>
    rw [puts, List.foldr_cons, find?_put, ← puts, ih, List.find?_cons]
    by_cases h : key x = k <;> simp [h]

theorem nodup_put (x : α) (h : (l.map key).Nodup) : ((put key x l).map key).Nodup := by
  rcases put_cases key x l with ⟨l₁, y, l₂, rfl, hy, -, hput⟩ | ⟨hnone, hput⟩
  · rw [hput]
    simpa [hy] using h
  · rw [hput, List.map_cons, List.nodup_cons]
    refine ⟨fun hmem => ?_, h⟩
    obtain ⟨z, hz, hzx⟩ := List.mem_map.mp hmem
    exact hnone z hz hzx

theorem nodup_puts (xs : List α) (h : (l.map key).Nodup) : ((puts key xs l).map key).Nodup := by
  induction xs with
  | nil => exact h
  | cons x xs ih => exact nodup_put x ih

/-- With distinct keys, the members are what is found under their keys. -/
theorem find?_eq_some_iff (h : (l.map key).Nodup) :
    l.find? (key · = key z) = some z ↔ z ∈ l := by
  refine ⟨List.mem_of_find?_eq_some, fun hz => ?_⟩
  cases hfind : l.find? (key · = key z) with
  | none =>
    rw [List.find?_eq_none] at hfind
    exact (hfind z hz (decide_eq_true rfl)).elim
  | some w =>
    have hw : key w = key z := by simpa using List.find?_some hfind
    rw [List.inj_on_of_nodup_map h (List.mem_of_find?_eq_some hfind) hz hw]

/-- The members after a list of puts: the first value of the list under each key, and what stood
under the other keys. -/
theorem mem_puts_iff (h : (l.map key).Nodup) :
    z ∈ puts key xs l ↔
      xs.find? (key · = key z) = some z ∨ z ∈ l ∧ ∀ x ∈ xs, key x ≠ key z := by
  rw [← find?_eq_some_iff (nodup_puts xs h), find?_puts, Option.or_eq_some_iff,
    find?_eq_some_iff h, List.find?_eq_none, and_comm (a := z ∈ l)]
  simp only [decide_eq_true_eq, ne_eq]

end KeyedList
