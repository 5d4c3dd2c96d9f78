import ZephyrSiot.PointJsonMemory
import ZephyrSiot.Theory.Completion
import Mathlib.Data.List.DropRight

/-!
# The string codecs stay in their buffers

On arrays of any size, `json_escape_string` and `json_unescape_string` touch no byte that is not the
arrays', and store the run that `jsonEscapeString` and `jsonUnescapeString` compute
(`inMemory_eq`). The escaped text is that of the longest front of the string for which there is room
(`codecs_inBounds`).
-/

namespace ZephyrSiot
open CStr JsonText Completion

/-! ## Bytes that are stored one behind the other -/

/-- What a loop ends with that stores `out` from `di` on. -/
def stored (dst : Bytes) (di : Nat) (out : Bytes) : Option (Nat × Bytes) :=
  some (di + out.length, poke dst di out)

theorem stored_nil (dst : Bytes) (di : Nat) : stored dst di [] = some (di, dst) := by
  rw [stored, poke_nil]
  rfl

theorem stored_append (dst : Bytes) (di : Nat) (bs out : Bytes) :
    stored (poke dst di bs) (di + bs.length) out = stored dst di (bs ++ out) := by
  rw [stored, stored, poke_poke, List.length_append, Nat.add_assoc]

/-- The terminator is stored behind what is returned. -/
theorem terminate_stored {dst out : Bytes} (h : out.length < dst.length) :
    ((stored dst 0 out).bind fun r => (store r.2 r.1 nul).bind fun dst => some (r.1, dst)) =
      some (out.length, poke dst 0 (out ++ [nul])) := by
  have hlast : out.length < (poke dst 0 out).length := by rwa [length_poke]
  rw [stored, Nat.zero_add, Option.bind_some, store_eq_some hlast, Option.bind_some]
  have hpoke := poke_poke dst 0 out [nul]
  rw [Nat.zero_add] at hpoke
  rw [hpoke]

theorem drop_of_getElem? {src : Bytes} {si : Nat} {c : UInt8} (h : src[si]? = some c) :
    src.drop si = c :: src.drop (si + 1) := by
  obtain ⟨hsi, rfl⟩ := List.getElem?_eq_some_iff.mp h
  exact List.drop_eq_getElem_cons hsi

/-! ## Escaping -/

namespace jsonEscapeString

variable {src dst : Bytes} {dstLen si di : Nat} {c : UInt8}

/-- One round of the loop in memory. -/
theorem memoryLoop_round (hread : src[si]? = some c) (hc : c ≠ nul) (hdst : dst.length = dstLen) :
    memoryLoop src src.length dstLen si di dst =
      if di + (escapeChar c).length ≥ dstLen then some (di, dst)
      else memoryLoop src src.length dstLen (si + 1) (di + (escapeChar c).length)
        (poke dst di (escapeChar c)) := by
  have hsi : si < src.length := (List.getElem?_eq_some_iff.mp hread).1
  rw [memoryLoop, if_pos hsi, hread, Option.bind_eq_bind, Option.bind_some, if_neg hc]
  by_cases h : c = quote ∨ c = backslash
  · rw [escapeChar_special h]
    simp only [if_pos h, List.length_cons, List.length_nil, Option.bind_eq_bind]
    split
    · rfl
    · next hroom =>
      have hsecond : di + 1 < (poke dst di [backslash]).length := by
        rw [length_poke]
        omega
      rw [if_pos trivial, store_eq_some (by omega), Option.bind_some, store_eq_some hsecond,
        Option.bind_some]
      exact congrArg _ (poke_poke dst di [backslash] [c])
  · rw [escapeChar_ordinary h]
    simp only [if_neg h, List.length_cons, List.length_nil, Option.bind_eq_bind]
    split
    · rfl
    · next hroom =>
      rw [if_neg (by decide), store_eq_some (by omega), Option.bind_some]

theorem memoryLoop_eq {dst : Bytes} (hdst : dst.length = dstLen) (si di : Nat) :
    memoryLoop src src.length dstLen si di dst = stored dst di (loop dstLen (src.drop si) di) := by
  cases hread : src[si]? with
  | none =>
    have hsi : src.length ≤ si := List.getElem?_eq_none_iff.mp hread
    rw [memoryLoop, if_neg (Nat.not_lt.mpr hsi), List.drop_of_length_le hsi, loop, stored_nil]
  | some c =>
    have hsi : si < src.length := (List.getElem?_eq_some_iff.mp hread).1
    rw [drop_of_getElem? hread]
    by_cases hc : c = nul
    · rw [memoryLoop, if_pos hsi, hread, Option.bind_eq_bind, Option.bind_some, if_pos hc, loop,
        if_pos hc, stored_nil]
    · rw [memoryLoop_round hread hc hdst, loop_round hc]
      split
      · rw [stored_nil]
      · have hstored := memoryLoop_eq ((length_poke dst di (escapeChar c)).trans hdst) (si + 1)
          (di + (escapeChar c).length)
        exact hstored.trans (stored_append ..)
termination_by src.length - si

/-- **The cut is clean**: what is stored is the text of the longest front for which there is
room. -/
theorem loop_longest (hdi : di < dstLen) (src : Bytes) :
    ∃ w, LongestPrefix (fun w => di + (escape w).length < dstLen) (cstr src) w ∧
      loop dstLen src di = escape w := by
  induction src generalizing di with
  | nil => exact ⟨[], .nil hdi, rfl⟩
  | cons c src ih =>
    by_cases hc : c = nul
    · subst hc
      exact ⟨[], .nil hdi, rfl⟩
    rw [cstr_cons hc, loop_round hc]
    split
    · next hfull =>
      refine ⟨[], .stop hdi fun u hu => ?_, rfl⟩
      rw [escape_cons, List.length_append] at hu
      omega
    · next hroom =>
      obtain ⟨w, hw, hloop⟩ := ih (Nat.lt_of_not_ge hroom)
      refine ⟨c :: w, .cons (hw.congr fun u => ?_), ?_⟩
      · rw [escape_cons, List.length_append, Nat.add_assoc]
      · rw [hloop, escape_cons]

theorem length_loop_lt (hdst : 0 < dstLen) (src : Bytes) : (loop dstLen src 0).length < dstLen := by
  obtain ⟨w, hw, hloop⟩ := loop_longest hdst src
  rw [hloop, ← Nat.zero_add (escape w).length]
  exact hw.holds

/-- What is computed is what is stored. -/
theorem inMemory_eq (src dst : Bytes) :
    inMemory src src.length dst dst.length =
      some ((jsonEscapeString src src.length dst.length).1,
        poke dst 0 (jsonEscapeString src src.length dst.length).2) := by
  unfold inMemory jsonEscapeString
  split
  · rw [poke_nil]
  · next hdst =>
    rw [memoryLoop_eq rfl, List.take_length]
    exact terminate_stored (length_loop_lt (Nat.pos_of_ne_zero hdst) src)

end jsonEscapeString

/-! ## Unescaping -/

namespace jsonUnescapeString

variable {src dst : Bytes} {dstLen si di : Nat} {c : UInt8}

/-- What a round makes of a character and the one behind it, and how far it goes. -/
def round (c : UInt8) (next : Option UInt8) : UInt8 × Nat :=
  match next with
  | some next =>
    if c = backslash then (decode next, if decode next ≠ c then 2 else 1) else (c, 1)
  | none => (c, 1)

theorem round_pos (c : UInt8) (next : Option UInt8) : 0 < (round c next).2 := by
  unfold round
  split
  · split
    · dsimp only
      split <;> decide
    · exact Nat.one_pos
  · exact Nat.one_pos

theorem loop_nul (src : Bytes) : loop dstLen (nul :: src) di = [] := by
  cases src <;> rfl

theorem length_loop_lt (hdst : 0 < dstLen) (src : Bytes) : (loop dstLen src 0).length < dstLen := by
  have := (loop_bounds dstLen src 0).2
  omega

theorem loop_round (hc : c ≠ nul) (src : Bytes) :
    loop dstLen (c :: src) di =
      if di + 1 ≥ dstLen then []
      else (round c src.head?).1 ::
        loop dstLen ((c :: src).drop (round c src.head?).2) (di + 1) := by
  cases src with
  | nil =>
    rw [loop, if_neg hc]
    rfl
  | cons next src =>
    rw [loop, if_neg hc, List.head?_cons, round]
    split
    · dsimp only
      split
      · rfl
      split <;> rfl
    · rfl

/-- One round of the loop in memory. -/
theorem memoryLoop_round (hread : src[si]? = some c) (hc : c ≠ nul) (hdst : dst.length = dstLen) :
    memoryLoop src src.length dstLen si di dst =
      if di + 1 ≥ dstLen then some (di, dst)
      else memoryLoop src src.length dstLen (si + (round c src[si + 1]?).2) (di + 1)
        (poke dst di [(round c src[si + 1]?).1]) := by
  have hsi : si < src.length := (List.getElem?_eq_some_iff.mp hread).1
  have hstore (hroom : ¬ di + 1 ≥ dstLen) (d : UInt8) : store dst di d = some (poke dst di [d]) :=
    store_eq_some (by omega) d
  rw [memoryLoop, if_pos hsi, hread, Option.bind_eq_bind, Option.bind_some, if_neg hc]
  cases hnext : src[si + 1]? with
  | none =>
    have hlast : ¬ si + 1 < src.length := Nat.not_lt.mpr (List.getElem?_eq_none_iff.mp hnext)
    rw [if_neg (mt And.right hlast)]
    split
    · rfl
    · next hroom =>
      rw [hstore hroom]
      rfl
  | some next =>
    have hlt : si + 1 < src.length := (List.getElem?_eq_some_iff.mp hnext).1
    rw [round]
    by_cases h : c = backslash
    · rw [if_pos ⟨h, hlt⟩, if_pos h, Option.bind_eq_bind, Option.bind_some]
      dsimp only
      split
      · rfl
      · next hroom =>
        rw [hstore hroom]
        change (if decode next ≠ c then _ else _) = _
        split <;> rfl
    · rw [if_neg (mt And.left h), if_neg h]
      split
      · rfl
      · next hroom =>
        rw [hstore hroom]
        rfl

theorem memoryLoop_eq {dst : Bytes} (hdst : dst.length = dstLen) (si di : Nat) :
    memoryLoop src src.length dstLen si di dst = stored dst di (loop dstLen (src.drop si) di) := by
  cases hread : src[si]? with
  | none =>
    have hsi : src.length ≤ si := List.getElem?_eq_none_iff.mp hread
    rw [memoryLoop, if_neg (Nat.not_lt.mpr hsi), List.drop_of_length_le hsi, loop, stored_nil]
  | some c =>
    have hsi : si < src.length := (List.getElem?_eq_some_iff.mp hread).1
    rw [drop_of_getElem? hread]
    by_cases hc : c = nul
    · subst hc
      rw [memoryLoop, if_pos hsi, hread, loop_nul, stored_nil]
      rfl
    · rw [memoryLoop_round hread hc hdst, loop_round hc, List.head?_drop]
      split
      · rw [stored_nil]
      · have hstored := memoryLoop_eq ((length_poke dst di [(round c src[si + 1]?).1]).trans hdst)
          (si + (round c src[si + 1]?).2) (di + 1)
        rw [← drop_of_getElem? hread, List.drop_drop]
        exact hstored.trans (stored_append ..)
termination_by src.length - si
decreasing_by
  have := round_pos c src[si + 1]?
  omega

/-- What is computed is what is stored. -/
theorem inMemory_eq (src dst : Bytes) :
    inMemory src src.length dst dst.length =
      some ((jsonUnescapeString src src.length dst.length).1,
        poke dst 0 (jsonUnescapeString src src.length dst.length).2) := by
  unfold inMemory jsonUnescapeString
  split
  · rw [poke_nil]
  · next hdst =>
    rw [memoryLoop_eq rfl, List.take_length]
    exact terminate_stored (length_loop_lt (Nat.pos_of_ne_zero hdst) src)

end jsonUnescapeString

/-! ## The end of the text -/

/-- The text ends in a backslash that neither escapes a character nor is escaped. -/
def EndsUnpaired (s : Bytes) : Prop := Odd (s.rtakeWhile (· = backslash)).length

theorem not_endsUnpaired_escape (w : Bytes) : ¬ EndsUnpaired (escape w) := by
  rw [EndsUnpaired, Nat.not_odd_iff_even]
  induction w using List.reverseRecOn with
  | nil => exact Even.zero
  | append_singleton w c ih =>
    have hescape : escape (w ++ [c]) = escape w ++ escapeChar c := by
      rw [escape, List.flatMap_append, List.flatMap_singleton]
      rfl
    rw [hescape]
    by_cases h : c = quote ∨ c = backslash
    · rw [escapeChar_special h, List.append_cons]
      rcases h with rfl | rfl
      · rw [List.rtakeWhile_concat_neg _ _ _ (by decide)]
        exact Even.zero
      · rw [List.rtakeWhile_concat_pos _ _ _ (by decide),
          List.rtakeWhile_concat_pos _ _ _ (by decide)]
        simpa [Nat.even_add_one] using ih
    · rw [escapeChar_ordinary h, List.rtakeWhile_concat_neg _ _ _ (by simpa using mt Or.inr h)]
      exact Even.zero

/-! ## Both codecs -/

/-- A terminated string of `n` characters is left in `dst`, whose size does not change. -/
structure Terminates (dst : Bytes) (n : Nat) (dst' : Bytes) : Prop where
  size : dst'.length = dst.length
  inside : n < dst.length
  terminator : dst'[n]? = some nul

section
variable {dst out : Bytes}

theorem poke_terminated (h : out.length < dst.length) :
    poke dst 0 (out ++ [nul]) = out ++ nul :: dst.drop (out.length + 1) := by
  have hfit : (out ++ [nul]).length ≤ dst.length := by
    rw [List.length_append]
    exact h
  rw [poke_zero hfit, List.length_append, List.append_assoc]
  rfl

theorem terminates_poke (h : out.length < dst.length) :
    Terminates dst out.length (poke dst 0 (out ++ [nul])) := by
  refine ⟨length_poke .., h, ?_⟩
  rw [poke_terminated h, List.getElem?_append_right (Nat.le_refl _), Nat.sub_self]
  rfl

theorem take_poke_terminated (h : out.length < dst.length) :
    (poke dst 0 (out ++ [nul])).take out.length = out := by
  rw [poke_terminated h, List.take_left' rfl]

end

/-- **The codecs stay in their buffers and cut cleanly.** Both touch nothing outside the arrays,
which need not hold a NUL, and leave a terminated string in `dst`. The escaped text is that of the
longest front of the source string for which there is room, so its last escape is whole. -/
theorem codecs_inBounds (src dst : Bytes) (hdst : 0 < dst.length) :
    (∃ n dst' w,
      jsonEscapeString.inMemory src src.length dst dst.length = some (n, dst') ∧
        Terminates dst n dst' ∧
        LongestPrefix (fun w => (escape w).length ≤ dst.length - 1) (cstr src) w ∧
        dst'.take n = escape w ∧ ¬ EndsUnpaired (dst'.take n)) ∧
      ∃ n dst', jsonUnescapeString.inMemory src src.length dst dst.length = some (n, dst') ∧
        Terminates dst n dst' := by
  have hpos := Nat.pos_iff_ne_zero.mp hdst
  constructor
  · obtain ⟨w, hw, hloop⟩ := jsonEscapeString.loop_longest hdst src
    have hlt := jsonEscapeString.length_loop_lt hdst src
    rw [jsonEscapeString.inMemory_eq, jsonEscapeString, if_neg hpos, List.take_length]
    dsimp only
    rw [hloop] at hlt ⊢
    refine ⟨_, _, w, rfl, terminates_poke hlt, hw.congr fun u => ?_, take_poke_terminated hlt, ?_⟩
    · omega
    · rw [take_poke_terminated hlt]
      exact not_endsUnpaired_escape w
  · rw [jsonUnescapeString.inMemory_eq, jsonUnescapeString, if_neg hpos, List.take_length]
    exact ⟨_, _, rfl, terminates_poke (jsonUnescapeString.length_loop_lt hdst src)⟩

/-- A backslash at the end of an array without a NUL, for which there is no room. -/
theorem codecs_inBounds_cut :
    ∃ n dst', jsonEscapeString.inMemory (lit "a\\") 2 [1, 1, 1] 3 = some (n, dst') ∧
      Terminates [1, 1, 1] n dst' ∧ ¬ EndsUnpaired (dst'.take n) := by
  obtain ⟨⟨n, dst', w, hrun, hend, -, -, hpaired⟩, -⟩ :=
    codecs_inBounds (lit "a\\") [1, 1, 1] (by decide)
  exact ⟨n, dst', hrun, hend, hpaired⟩

end ZephyrSiot
