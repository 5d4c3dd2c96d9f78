import ZephyrSiot.PointMerge

/-!
# The point cache

`lib/point-cache.c`: the store of `CONFIG_SIOT_POINT_CACHE_SIZE` slots that a subscriber thread
keeps current. Every function holds `cache_lock` for its whole duration, so each of them is one
step on the array.
-/

namespace ZephyrSiot
open CStr

def pointCacheMerge (cache : List Point) (p : Point) : MergeResult := pointsMerge cache p

/-- The loop of `point_cache_count`. -/
def pointCacheCount.go : List Point → Nat → Nat
  | [], count => count
  | q :: cache, count => go cache (if q.type.first ≠ 0 then count + 1 else count)

def pointCacheCount (cache : List Point) : Nat := pointCacheCount.go cache 0

/-- `point_cache_foreach`: the callback is given each slot in use and the user data, and a
result other than zero ends the iteration. -/
def pointCacheForeach (cb : Point → σ → Int × σ) : List Point → σ → Int × σ
  | [], user => (0, user)
  | q :: cache, user =>
    if q.type.first = 0 then pointCacheForeach cb cache user
    else
      let (ret, user) := cb q user
      if ret ≠ 0 then (ret, user) else pointCacheForeach cb cache user

theorem pointCacheCount_eq (cache : List Point) :
    pointCacheCount cache = (cache.filter (·.Occupied)).length := by
  have aux (count : Nat) :
      pointCacheCount.go cache count = count + (cache.filter (·.Occupied)).length := by
    induction cache generalizing count with
    | nil => rfl
    | cons q cache ih =>
      rw [pointCacheCount.go, ih, List.filter_cons]
      by_cases hq : q.Occupied
      · rw [if_pos hq, if_pos (by simpa using hq), List.length_cons]; omega
      · rw [if_neg hq, if_neg (by simpa using hq)]
  rw [pointCacheCount, aux, Nat.zero_add]

end ZephyrSiot
