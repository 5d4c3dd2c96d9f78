import ZephyrSiot.Theory.CString

/-!
# The flash file system

ZMS is Zephyr's key-value store for flash, which is not part of this repository. `Zms` is that
store as a parameter of the model and `Zms.Lawful` what `lib/nvs.c` relies on: it is a map from
ids to records. `Zms.reference` is such a map.
-/

namespace ZephyrSiot
open CStr

structure Zms where
  /-- What is on the flash. -/
  State : Type
  /-- The record at an id. The firmware sees it through `read` only. -/
  contents : State → Nat → Option Bytes
  /-- `zms_read`: the result, and the bytes stored at the caller's buffer. -/
  read : State → (id len : Nat) → Int × Bytes
  /-- `zms_write`: the result, and the flash after it. -/
  write : State → (id : Nat) → Bytes → Int × State

structure Zms.Lawful (Z : Zms) : Prop where
  read_some : ∀ {s i v}, Z.contents s i = some v →
    ∀ len, Z.read s i len = (((min v.length len : Nat) : Int), v.take len)
  /-- An absent id is an error, and nothing is stored. -/
  read_none : ∀ {s i}, Z.contents s i = none →
    ∀ len, (Z.read s i len).1 < 0 ∧ (Z.read s i len).2 = []
  /-- A write replaces the record, one of no bytes deletes it. -/
  contents_write : ∀ s i v j, Z.contents (Z.write s i v).2 j =
    if j = i then (if v = [] then none else some v) else Z.contents s j

namespace Zms

/-- The map itself. -/
def reference : Zms where
  State := Nat → Option Bytes
  contents s := s
  read s id len := match s id with
    | some v => (((min v.length len : Nat) : Int), v.take len)
    | none => (-2, [])
  write s id v :=
    (if s id = some v then 0 else v.length,
      fun i => if i = id then (if v = [] then none else some v) else s i)

theorem reference_lawful : reference.Lawful where
  read_some h _ := by
    simp only [reference] at h ⊢
    rw [h]
  read_none h _ := by
    simp only [reference] at h ⊢
    rw [h]
    exact ⟨(by decide : (-2 : Int) < 0), rfl⟩
  contents_write _ _ _ _ := rfl

end Zms

end ZephyrSiot
