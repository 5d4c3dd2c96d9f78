import ZephyrSiot.PointCache
import ZephyrSiot.Theory.KeyedStore
import ZephyrSiot.Verify.StoreUnique

/-!
# The point store is a bounded last-writer-wins map

For points that have a type and a valid data type, an array with `points_merge` behaves as a
`KeyedStore.Store` keyed by type and key: the values of the store are the leading slots of the
array and the other slots are unused (`Represents`). One merge is one put
(`represents_pointsMerge`), and what a run of merges does is read off the run of puts.
-/

namespace ZephyrSiot
open CStr pointsMerge KeyedStore

/-- The bounded map of type and key to point. -/
abbrev PairStore (n : Nat) := Store Point.pair n

structure Represents (s : PairStore n) (pts : List Point) : Prop where
  length : pts.length = n
  values : s.vals <+: pts
  unused : ∀ q ∈ pts.drop s.vals.length, ¬ q.Occupied
  used : ∀ q ∈ s.vals, q.Valid ∧ q.key.str ≠ []

theorem Point.Valid.defaultKey {p : Point} (h : p.Valid) : p.defaultKey.Valid := by
  rw [Point.Valid, Point.occupied_defaultKey, Point.defaultKey_dataType]
  exact h

theorem represents_empty {pts : List Point} (h : ∀ q ∈ pts, ¬ q.Occupied) :
    Represents (Store.empty Point.pair pts.length) pts where
  length := rfl
  values := List.nil_prefix
  unused := h
  used := by intro q hq; cases hq

namespace Represents

variable {s : PairStore n} {pts : List Point}

theorem eq_append (h : Represents s pts) :
    ∃ rest, pts = s.vals ++ rest ∧ ∀ q ∈ rest, ¬ q.Occupied := by
  obtain ⟨rest, rfl⟩ := h.values
  exact ⟨rest, rfl, by simpa using h.unused⟩

/-- A slot in use is one of the values. -/
theorem mem_vals (h : Represents s pts) {q : Point} (hq : q ∈ pts) (ho : q.Occupied) :
    q ∈ s.vals := by
  obtain ⟨rest, rfl, hrest⟩ := h.eq_append
  exact (List.mem_append.mp hq).resolve_right fun hr => hrest q hr ho

theorem mem (h : Represents s pts) {q : Point} (hq : q ∈ s.vals) : q ∈ pts := h.values.subset hq

theorem getElem?_vals (h : Represents s pts) {i : Nat} {q : Point} (hi : pts[i]? = some q)
    (ho : q.Occupied) : s.vals[i]? = some q := by
  obtain ⟨rest, rfl, hrest⟩ := h.eq_append
  rw [List.getElem?_append] at hi
  split at hi
  · exact hi
  · exact (hrest q (List.mem_of_getElem? hi) ho).elim

/-- The first unused slot comes right behind the values. -/
theorem eq_of_first_unused (h : Represents s pts) {i : Nat} {q : Point} (hi : pts[i]? = some q)
    (hq : ¬ q.Occupied) (hbefore : ∀ r ∈ pts.take i, r.Occupied) : i = s.vals.length := by
  obtain ⟨rest, rfl, hrest⟩ := h.eq_append
  obtain ⟨hlt, rfl⟩ := List.getElem?_eq_some_iff.mp hi
  rcases Nat.lt_trichotomy i s.vals.length with hlt' | heq | hgt
  · have hmem : (s.vals ++ rest)[i] ∈ s.vals := by
      rw [List.getElem_append_left hlt']; exact List.getElem_mem hlt'
    exact (hq (h.used _ hmem).1.1).elim
  · exact heq
  · have hmem : (s.vals ++ rest)[s.vals.length] ∈ (s.vals ++ rest).take i :=
      List.mem_take_iff_getElem.mpr ⟨s.vals.length, by omega, rfl⟩
    refine (hrest _ ?_ (hbefore _ hmem)).elim
    rw [List.getElem_append_right (Nat.le_refl _)]
    exact List.getElem_mem _

theorem storedPairs_eq (h : Represents s pts) : storedPairs pts = s.keys := by
  obtain ⟨rest, rfl, hrest⟩ := h.eq_append
  have hvals : s.vals.filter (·.Occupied) = s.vals :=
    List.filter_eq_self.mpr fun q hq => by simpa using (h.used q hq).1.1
  have hnone : rest.filter (·.Occupied) = [] :=
    List.filter_eq_nil_iff.mpr fun q hq => by simpa using hrest q hq
  rw [storedPairs, List.filter_append, hvals, hnone, List.append_nil]
  rfl

/-- Where the loop finds no slot the pair is new, as every value is a slot it would stop at. -/
theorem notMem_keys (h : Represents s pts) {p : Point} (hno : ∀ q ∈ pts, ¬ Holds p q) :
    p.pair ∉ s.keys := by
  intro hk
  obtain ⟨r, hr, hpair⟩ := List.mem_map.mp hk
  have hvalid := (h.used r hr).1
  exact hno r (h.mem hr) ⟨hvalid.1, hvalid.2, hpair⟩

/-- A put into the slot that holds the pair. -/
theorem put_held (h : Represents s pts) {p q : Point} (hp : p.Valid ∧ p.key.str ≠ []) {i : Nat}
    (hi : pts[i]? = some q) (hq : Holds p q) :
    ∃ t, s.put p = some t ∧ Represents t (pts.set i p) := by
  obtain ⟨hqo, -, hpair⟩ := hq
  have hqi := h.getElem?_vals hi hqo
  have hmem : p.pair ∈ s.keys := List.mem_map.mpr ⟨q, List.mem_of_getElem? hqi, hpair⟩
  rcases s.put_cases p with ⟨_, t, ht, hvals⟩ | ⟨hk, _⟩ | ⟨hk, _⟩
  · rw [replace_eq_set s.nodup hqi hpair] at hvals
    obtain ⟨rest, rfl, hrest⟩ := h.eq_append
    have hlt := (List.getElem?_eq_some_iff.mp hqi).1
    refine ⟨t, ht, by rw [List.length_set, h.length], ?_, ?_, ?_⟩
    · rw [hvals, List.set_append_left _ _ hlt]
      exact List.prefix_append _ _
    · rw [hvals, List.length_set, List.set_append_left _ _ hlt]
      simpa using hrest
    · intro r hr
      rw [hvals] at hr
      rcases List.mem_or_eq_of_mem_set hr with hr | rfl
      · exact h.used r hr
      · exact hp
  · exact (hk hmem).elim
  · exact (hk hmem).elim

/-- A put of a new pair into the first unused slot. -/
theorem put_unused (h : Represents s pts) {p q : Point} (hp : p.Valid ∧ p.key.str ≠ [])
    (hnew : p.pair ∉ s.keys) {i : Nat} (hi : pts[i]? = some q) (hq : ¬ q.Occupied)
    (hbefore : ∀ r ∈ pts.take i, r.Occupied) :
    ∃ t, s.put p = some t ∧ Represents t (pts.set i p) := by
  obtain rfl := h.eq_of_first_unused hi hq hbefore
  obtain ⟨rest, rfl, hrest⟩ := h.eq_append
  obtain ⟨r, rest, rfl⟩ : ∃ r rest', rest = r :: rest' := by
    cases rest with
    | nil => simp at hi
    | cons r rest => exact ⟨r, rest, rfl⟩
  have hlen := h.length
  simp only [List.length_append, List.length_cons] at hlen
  rcases s.put_cases p with ⟨hk, _⟩ | ⟨_, _, t, ht, hvals⟩ | ⟨_, hcap, _⟩
  · exact (hnew hk).elim
  · refine ⟨t, ht, by rw [List.length_set, h.length], ?_, ?_, ?_⟩
    · rw [hvals]
      simp
    · rw [hvals]
      simpa using fun q hq => hrest q (List.mem_cons_of_mem _ hq)
    · intro q hq
      rw [hvals] at hq
      rcases List.mem_append.mp hq with hq | hq
      · exact h.used q hq
      · rw [List.mem_singleton.mp hq]
        exact hp
  · omega

/-- Where every slot is in use there is no put of a new pair. -/
theorem put_full (h : Represents s pts) {p : Point} (hnew : p.pair ∉ s.keys)
    (hfull : ∀ q ∈ pts, q.Occupied) : s.put p = none := by
  have hcap : ¬ s.vals.length < n := by
    have hlen := h.length
    obtain ⟨rest, rfl, hrest⟩ := h.eq_append
    cases rest with
    | nil =>
      rw [List.append_nil] at hlen
      omega
    | cons r rest => exact (hrest r List.mem_cons_self (hfull r (by simp))).elim
  rcases s.put_cases p with ⟨hk, _⟩ | ⟨_, hlt, _⟩ | ⟨_, _, hnone⟩
  · exact (hnew hk).elim
  · exact (hcap hlt).elim
  · exact hnone

end Represents

/-- One merge is one put: it succeeds when the put does, and leaves the array representing the
store after it. -/
theorem represents_pointsMerge {s : PairStore n} {pts : List Point} (h : Represents s pts)
    {p : Point} (hp : p.Valid) :
    ((pointsMerge pts p).ret = 0 ↔ (s.put p.defaultKey).isSome) ∧
      Represents ((s.put p.defaultKey).getD s) (pointsMerge pts p).pts := by
  have hused : p.defaultKey.Valid ∧ p.defaultKey.key.str ≠ [] :=
    ⟨hp.defaultKey, Point.defaultKey_key_str_ne_nil⟩
  rcases pointsMerge_cases pts p with
    ⟨i, q, hi, hq, heq⟩ | ⟨hno, i, q, hi, hq, hbefore, heq⟩ | ⟨hno, hfull, heq⟩
  · obtain ⟨t, ht, hrep⟩ := h.put_held hused hi hq
    rw [heq, ht]
    exact ⟨by simp, hrep⟩
  · obtain ⟨t, ht, hrep⟩ := h.put_unused hused (h.notMem_keys hno) hi hq hbefore
    rw [heq, ht]
    exact ⟨by simp, hrep⟩
  · rw [heq, h.put_full (h.notMem_keys hno) hfull]
    exact ⟨by simp [enomem], h⟩

/-! ## Runs -/

/-- The points of a run that `points_merge` accepted, as it stored them: the calls that returned
0, a blank key replaced by "0". -/
def accepted (pts : List Point) : List Point → List Point
  | [] => []
  | p :: calls =>
    if (pointsMerge pts p).ret = 0 then
      (pointsMerge pts p).p :: accepted (pointsMerge pts p).pts calls
    else accepted (pointsMerge pts p).pts calls

/-- A run of merges is the run of puts of the same points, and accepts what it accepts. -/
theorem represents_mergeRun {s : PairStore n} {pts : List Point} (h : Represents s pts)
    {calls : List Point} (hcalls : ∀ p ∈ calls, p.Valid) :
    Represents (s.puts (calls.map Point.defaultKey)) (mergeRun pts calls) ∧
      accepted pts calls = s.history (calls.map Point.defaultKey) := by
  induction calls generalizing s pts with
  | nil => exact ⟨h, rfl⟩
  | cons p calls ih =>
    obtain ⟨hret, hrep⟩ := represents_pointsMerge h (hcalls p List.mem_cons_self)
    obtain ⟨ih1, ih2⟩ := ih hrep fun q hq => hcalls q (List.mem_cons_of_mem _ hq)
    refine ⟨ih1, ?_⟩
    rw [accepted, pointsMerge_p, ih2, List.map_cons, Store.history]
    cases hput : s.put p.defaultKey with
    | none => rw [if_neg (by rw [hret, hput]; simp)]; rfl
    | some t => rw [if_pos (by rw [hret, hput]; rfl)]; rfl

/-- The slots of an array: the pair of each one in use. -/
def slotPairs (pts : List Point) : List (Option (Bytes × Bytes)) :=
  pts.map fun q => if q.Occupied then some q.pair else none

theorem Represents.slotPairs_eq {s : PairStore n} {pts : List Point} (h : Represents s pts) :
    slotPairs pts = s.keys.map some ++ List.replicate (n - s.keys.length) none := by
  obtain ⟨rest, rfl, hrest⟩ := h.eq_append
  have hlen := h.length
  rw [List.length_append] at hlen
  rw [slotPairs, List.map_append, Store.keys, List.map_map, List.length_map]
  congr 1
  · exact List.map_congr_left fun q hq => if_pos (h.used q hq).1.1
  · rw [List.eq_replicate_iff, List.length_map]
    refine ⟨by omega, fun b hb => ?_⟩
    obtain ⟨q, hq, rfl⟩ := List.mem_map.mp hb
    exact if_neg (hrest q hq)

/-- The array after `calls`, started with no slot in use, is the bounded last-writer-wins map of
what these calls accepted. -/
structure IsLastWriterWins (pts calls : List Point) : Prop where
  distinct : UniquePairs (mergeRun pts calls)
  /-- A further call succeeds exactly when its pair is present or there is room. -/
  outcome : ∀ p, p.Valid → ((pointsMerge (mergeRun pts calls) p).ret = 0 ↔
    p.defaultKey.pair ∈ storedPairs (mergeRun pts calls) ∨
      (storedPairs (mergeRun pts calls)).length < pts.length)
  refused : ∀ p, p.Valid → (pointsMerge (mergeRun pts calls) p).ret ≠ 0 →
    (pointsMerge (mergeRun pts calls) p).ret = -enomem ∧
      (pointsMerge (mergeRun pts calls) p).pts = mergeRun pts calls
  /-- A slot in use holds the point that was last accepted with its pair. -/
  latest : ∀ q ∈ mergeRun pts calls, q.Occupied →
    (accepted pts calls).reverse.find? (·.pair = q.pair) = some q
  /-- The pair of every accepted point has a slot. -/
  present : ∀ p ∈ accepted pts calls, ∃ q ∈ mergeRun pts calls, q.Occupied ∧ q.pair = p.pair
  /-- The slots in use come first, in the order in which their pairs were first accepted. -/
  slots : slotPairs (mergeRun pts calls) =
    (firstOccurrences ((accepted pts calls).map Point.pair)).map some ++ List.replicate
      (pts.length - (firstOccurrences ((accepted pts calls).map Point.pair)).length) none
  /-- Later calls leave every pair in its slot. -/
  stable : ∀ more, (∀ p ∈ more, p.Valid) → ∀ (i : Nat) (k : Bytes × Bytes),
    (slotPairs (mergeRun pts calls))[i]? = some (some k) →
      (slotPairs (mergeRun (mergeRun pts calls) more))[i]? = some (some k)
  count : pointCacheCount (mergeRun pts calls) =
    (firstOccurrences ((accepted pts calls).map Point.pair)).length
  keyed : ∀ q ∈ mergeRun pts calls, q.Occupied → q.key.str ≠ []

/-- Every run of merges of typed points of valid data type, from an array of unused slots. -/
theorem isLastWriterWins (pts calls : List Point) (hempty : ∀ q ∈ pts, ¬ q.Occupied)
    (hcalls : ∀ p ∈ calls, p.Valid) : IsLastWriterWins pts calls := by
  obtain ⟨hrep, hacc⟩ := represents_mergeRun (represents_empty hempty) hcalls
  have hkeys : ((Store.empty Point.pair pts.length).puts (calls.map Point.defaultKey)).keys = _ :=
    Store.keys_puts (calls.map Point.defaultKey)
  rw [← hacc] at hkeys
  have hstored := hrep.storedPairs_eq
  constructor
  case distinct => rw [UniquePairs, hstored]; exact Store.nodup _
  case outcome =>
    intro p hp
    rw [(represents_pointsMerge hrep hp).1, Store.put_isSome, hstored, Store.keys, List.length_map]
  case refused => exact fun p _ hret => pointsMerge_refused hret
  case latest =>
    intro q hq ho
    rw [hacc, ← Store.find?_puts]
    exact Store.find?_of_mem _ (hrep.mem_vals hq ho)
  case present =>
    intro p hp
    rw [← mem_storedPairs, hstored, hkeys, mem_firstOccurrences]
    exact List.mem_map_of_mem hp
  case slots => rw [hrep.slotPairs_eq, hkeys]
  case stable =>
    intro more hmore i k hi
    obtain ⟨hrep', _⟩ := represents_mergeRun hrep hmore
    obtain ⟨added, hadded⟩ := Store.keys_prefix_puts
      ((Store.empty Point.pair pts.length).puts (calls.map Point.defaultKey))
      (more.map Point.defaultKey)
    rw [hrep.slotPairs_eq, List.getElem?_append] at hi
    rw [hrep'.slotPairs_eq, ← hadded]
    split at hi
    · next hlt =>
      rw [List.map_append, List.append_assoc, List.getElem?_append_left hlt]
      exact hi
    · simp [List.getElem?_replicate] at hi
  case count =>
    rw [pointCacheCount_eq, ← List.length_map (f := Point.pair)]
    change (storedPairs _).length = _
    rw [hstored, hkeys]
  case keyed => exact fun q hq ho => (hrep.used q (hrep.mem_vals hq ho)).2

theorem isLastWriterWins_two :
    IsLastWriterWins [.zero, .zero]
      [(Point.zero.setTypeKey (lit "temp") []).putInt 21,
        (Point.zero.setTypeKey (lit "temp") (lit "0")).putString (lit "warm"),
        (Point.zero.setTypeKey (lit "board") (lit "0")).putString (lit "esp32"),
        (Point.zero.setTypeKey (lit "uptime") (lit "0")).putInt 7] :=
  isLastWriterWins _ _ (by decide) (by decide)

end ZephyrSiot
