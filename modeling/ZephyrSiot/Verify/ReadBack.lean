import ZephyrSiot.Verify.PageEdits

/-!
# Reading back an edit

A lookup on the web page takes a blank key for "0", an update does not: a point with a blank key is
stored where no lookup finds it (`readsBack_iff`). No update is seen under another pair.
-/

namespace ZephyrSiot
open CStr Frontend KeyedList

/-- The key that is looked up. -/
def lookupKey (key : Bytes) : Bytes := if key = [] then lit "0" else key

theorem lookupKey_ne (key : Bytes) : lookupKey key ≠ [] := by
  unfold lookupKey
  split
  · decide
  · assumption

theorem lookupKey_of_ne {key : Bytes} (h : key ≠ []) : lookupKey key = key := if_neg h

/-- The point under the key that is looked up. -/
def UiPoint.normalized (p : UiPoint) : UiPoint := { p with key := lookupKey p.key }

theorem get_eq_find? (points : List UiPoint) (typ key : Bytes) :
    get points typ key = points.find? (·.pair = (typ, lookupKey key)) := by
  rw [← get_eq (lookupKey_ne key)]
  unfold Frontend.get
  rw [if_neg (lookupKey_ne key)]
  rfl

/-- After an update a lookup finds the point under its own key, and what it found before under every
other. -/
theorem get_updatePoints (pts : List UiPoint) (p : UiPoint) (typ key : Bytes) :
    get (updatePoints pts [p]) typ key =
      if p.pair = (typ, lookupKey key) then some p else get pts typ key := by
  rw [get_eq_find?, get_eq_find?, updatePoints_eq]
  exact find?_put UiPoint.pair p pts (typ, lookupKey key)

/-- The point is read back, and no lookup of another point is changed. -/
structure ReadsBack (pts : List UiPoint) (p : UiPoint) : Prop where
  back : (get (updatePoints pts [p]) p.typ p.key).map UiPoint.normalized = some p.normalized
  frame : ∀ typ key, (typ, lookupKey key) ≠ (p.typ, lookupKey p.key) →
    get (updatePoints pts [p]) typ key = get pts typ key

theorem get_frame (pts : List UiPoint) (p : UiPoint) {typ key : Bytes}
    (h : (typ, lookupKey key) ≠ (p.typ, lookupKey p.key)) :
    get (updatePoints pts [p]) typ key = get pts typ key := by
  rw [get_updatePoints]
  refine if_neg fun hpair => h ?_
  obtain ⟨rfl, hkey⟩ := Prod.mk.inj hpair
  have hne : p.key ≠ [] := hkey ▸ lookupKey_ne key
  rw [lookupKey_of_ne hne, hkey]

/-- **A point is read back** unless its key is blank. A blank key is read back only where the first
point under "0" has the same value already. -/
theorem readsBack_iff (pts : List UiPoint) (p : UiPoint) :
    ReadsBack pts p ↔ p.key ≠ [] ∨
      ∃ q, pts.find? (·.pair = (p.typ, lit "0")) = some q ∧ q.dataType = p.dataType ∧
        q.data = p.data := by
  by_cases hkey : p.key = []
  · have hlookup : lookupKey p.key = lit "0" := if_pos hkey
    have hget : get (updatePoints pts [p]) p.typ p.key =
        pts.find? (·.pair = (p.typ, lit "0")) := by
      have hne : p.pair ≠ (p.typ, lookupKey p.key) :=
        fun h => lookupKey_ne p.key ((Prod.mk.inj h).2.symm.trans hkey)
      rw [get_updatePoints, if_neg hne, get_eq_find?, hlookup]
    have hnormalized {q : UiPoint} (hq : q.pair = (p.typ, lit "0")) :
        q.normalized = p.normalized ↔ q.dataType = p.dataType ∧ q.data = p.data := by
      obtain ⟨htyp, hzero⟩ := Prod.mk.inj hq
      have hne : q.key ≠ [] := hzero ▸ by decide
      rw [UiPoint.normalized, UiPoint.normalized, hlookup, lookupKey_of_ne hne, hzero, htyp,
        UiPoint.mk.injEq]
      simp
    constructor
    · intro h
      have hback := h.back
      rw [hget, Option.map_eq_some_iff] at hback
      obtain ⟨q, hfind, hq⟩ := hback
      have hpair : q.pair = (p.typ, lit "0") := by simpa using List.find?_some hfind
      exact .inr ⟨q, hfind, (hnormalized hpair).mp hq⟩
    · rintro (hne | ⟨q, hfind, hvalue⟩)
      · exact (hne hkey).elim
      · have hpair : q.pair = (p.typ, lit "0") := by simpa using List.find?_some hfind
        refine ⟨?_, fun _ _ => get_frame pts p⟩
        rw [hget, hfind, Option.map_some, (hnormalized hpair).mpr hvalue]
  · have hget : get (updatePoints pts [p]) p.typ p.key = some p := by
      rw [get_updatePoints, lookupKey_of_ne hkey]
      exact if_pos rfl
    exact iff_of_true ⟨by rw [hget]; rfl, fun _ _ => get_frame pts p⟩ (.inl hkey)

/-- A point with a blank key is stored, and not found. -/
theorem not_readsBack_blank : ¬ ReadsBack [] ⟨lit "description", [], lit "STR", lit "barn"⟩ := by
  intro h
  exact absurd h.back (by decide)

end ZephyrSiot
