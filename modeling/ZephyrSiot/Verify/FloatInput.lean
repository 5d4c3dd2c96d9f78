import ZephyrSiot.Sanitize
import ZephyrSiot.SiotString
import ZephyrSiot.Theory.Completion

/-!
# The number that is typed is the number that is read

`Sanitize.float` keeps the longest number in front of what is typed, and that is as far as `atof`
reads (`float_atof`). The page looks for a dot in what it has kept, `atof` has a flag for it.
-/

namespace ZephyrSiot
open CStr Sanitize Completion

/-! ## Numbers -/

/-- An optional minus and digits, perhaps with a dot and digits. There need not be any digits. -/
inductive IsFloatText : List Char → Prop
  | whole {sign ds : List Char} : sign = [] ∨ sign = ['-'] → (∀ c ∈ ds, Elm.IsDigit c) →
    IsFloatText (sign ++ ds)
  | fraction {sign ds fs : List Char} : sign = [] ∨ sign = ['-'] → (∀ c ∈ ds, Elm.IsDigit c) →
    (∀ c ∈ fs, Elm.IsDigit c) → IsFloatText (sign ++ ds ++ '.' :: fs)

/-- The condition of `floatHelper`. -/
abbrev floatAccepts (sOut : List Char) (c : Char) : Prop :=
  (sOut.length = 0 ∧ c = '-') ∨ Elm.IsDigit c ∨ (c = '.' ∧ ¬ sOut.contains '.')

theorem IsFloatText.snoc {out : List Char} {c : Char} (h : IsFloatText out)
    (haccepts : floatAccepts out c) : IsFloatText (out ++ [c]) := by
  cases h with
  | @whole sign ds hsign hds =>
    rcases haccepts with ⟨hnil, rfl⟩ | hdigit | ⟨rfl, -⟩
    · obtain ⟨rfl, rfl⟩ := List.append_eq_nil_iff.mp (List.eq_nil_of_length_eq_zero hnil)
      have hsign : IsFloatText (['-'] ++ []) := .whole (.inr rfl) hds
      exact hsign
    · rw [List.append_assoc]
      exact .whole hsign (List.forall_mem_append.mpr ⟨hds, List.forall_mem_singleton.mpr hdigit⟩)
    · exact .fraction hsign hds (List.forall_mem_nil _)
  | @fraction sign ds fs hsign hds hfs =>
    rcases haccepts with ⟨hnil, rfl⟩ | hdigit | ⟨rfl, hdot⟩
    · simp at hnil
    · rw [List.append_assoc _ _ [c], List.cons_append]
      exact .fraction hsign hds
        (List.forall_mem_append.mpr ⟨hfs, List.forall_mem_singleton.mpr hdigit⟩)
    · simp at hdot

theorem continues_digits {ds : List Char} (hds : ∀ c ∈ ds, Elm.IsDigit c) (out : List Char) :
    Continues floatAccepts out ds := by
  induction ds generalizing out with
  | nil => trivial
  | cons c ds ih =>
    obtain ⟨hc, hds⟩ := List.forall_mem_cons.mp hds
    exact ⟨.inr (.inl hc), ih hds _⟩

theorem valid_floatAccepts_iff (t : List Char) : Valid floatAccepts t ↔ IsFloatText t := by
  have hwhole {sign ds : List Char} (hsign : sign = [] ∨ sign = ['-'])
      (hds : ∀ c ∈ ds, Elm.IsDigit c) : Valid floatAccepts (sign ++ ds) := by
    refine valid_append_iff.mpr ⟨?_, continues_digits hds sign⟩
    rcases hsign with rfl | rfl
    · exact .nil
    · exact .snoc .nil (.inl ⟨rfl, rfl⟩)
  constructor
  · intro h
    induction h with
    | nil => exact .whole (.inl rfl) (List.forall_mem_nil _)
    | snoc _ haccepts ih => exact ih.snoc haccepts
  · intro h
    cases h with
    | whole hsign hds => exact hwhole hsign hds
    | @fraction sign ds fs hsign hds hfs =>
      have hdot : '.' ∉ sign ++ ds := by
        rw [List.mem_append, not_or]
        refine ⟨?_, fun h => absurd (hds '.' h) (by decide)⟩
        rcases hsign with rfl | rfl <;> decide
      refine valid_append_iff.mpr ⟨hwhole hsign hds, .inr (.inr ⟨rfl, ?_⟩), continues_digits hfs _⟩
      rwa [List.contains_iff_mem]

/-! ## The sanitizer -/

theorem floatHelper_reads (sIn sOut : List Char) :
    Reads floatAccepts (fun _ _ => none) sIn sOut (floatHelper sIn sOut).2 := by
  induction sIn generalizing sOut with
  | nil => exact .done
  | cons c rest ih =>
    rw [floatHelper]
    exact .ite .rfl rfl (ih _)

theorem float_longestPrefix (s : List Char) : LongestPrefix IsFloatText s (float s) :=
  ((floatHelper_reads s []).longestPrefix fun _ _ => rfl).congr valid_floatAccepts_iff

theorem float_float (s : List Char) : float (float s) = float s := by
  refine (floatHelper_reads (float s) []).eq_of_valid (fun _ _ _ => rfl) ?_
  exact (valid_floatAccepts_iff _).mpr (float_longestPrefix s).holds

/-! ## `atof` on the same characters -/

/-- The characters as the device has them. -/
def ascii (s : List Char) : Bytes := s.map fun c => c.toNat.toUInt8

section
variable {c : Char}

theorem toUInt8_eq_iff (hc : c.toNat < 128) {d : Char} (hd : d.toNat < 128) :
    c.toNat.toUInt8 = d.toNat.toUInt8 ↔ c = d := by
  rw [← UInt8.toNat_inj, Nat.toUInt8_eq, Nat.toUInt8_eq, UInt8.toNat_ofNat', UInt8.toNat_ofNat',
    Nat.mod_eq_of_lt (by omega), Nat.mod_eq_of_lt (by omega)]
  exact Char.toNat_inj

theorem isDigit_toUInt8 (hc : c.toNat < 128) :
    CStr.IsDigit c.toNat.toUInt8 ↔ Elm.IsDigit c := by
  have hvalue : c.toNat.toUInt8.toNat = c.toNat := by
    rw [Nat.toUInt8_eq, UInt8.toNat_ofNat', Nat.mod_eq_of_lt (by omega)]
  rw [CStr.IsDigit, UInt8.le_iff_toNat_le, UInt8.le_iff_toNat_le, hvalue]
  exact Iff.rfl

end

section
variable {F : Type} [CFloat F] {sIn sOut : List Char} {c : Char} {m : Bytes}
open CFloat

/-- Where the page goes on, so does the loop of `atof`, whatever follows. -/
theorem scan_of_accepts (hc : c.toNat < 128) (haccepts : floatAccepts sOut c)
    (hminus : sOut ≠ [] ∨ c ≠ '-') (result fraction : F) :
    ∃ result' fraction' : F, ∀ str i,
      atof.scan (c.toNat.toUInt8 :: str) i result fraction (sOut.contains '.') =
        atof.scan str (i + 1) result' fraction' ((sOut ++ [c]).contains '.') := by
  rcases haccepts with ⟨hnil, rfl⟩ | hdigit | ⟨rfl, hdot⟩
  · exact (hminus.elim (· (List.eq_nil_of_length_eq_zero hnil)) (· rfl)).elim
  · have hdigit' := (isDigit_toUInt8 hc).mpr hdigit
    have hflag : (sOut ++ [c]).contains '.' = sOut.contains '.' := by
      have hne : '.' ≠ c := by
        rintro rfl
        exact absurd hdigit (by decide)
      rw [List.contains_append, List.contains_cons, beq_false_of_ne hne]
      exact Bool.or_false _
    simp only [hflag, atof.scan, if_neg hdigit'.ne_zero, if_pos hdigit']
    split
    · exact ⟨_, _, fun _ _ => rfl⟩
    · exact ⟨_, _, fun _ _ => rfl⟩
  · have hflag : (sOut ++ ['.']).contains '.' = true := by simp
    refine ⟨result, fraction, fun str i => ?_⟩
    rw [hflag, Bool.eq_false_of_not_eq_true hdot]
    rfl

theorem scan_of_not_accepts (hc : c.toNat < 128) (hnot : ¬ floatAccepts sOut c)
    (result fraction : F) (str : Bytes) (i : Nat) :
    atof.scan (c.toNat.toUInt8 :: str) i result fraction (sOut.contains '.') = (i, result) := by
  have hdigit : ¬ CStr.IsDigit c.toNat.toUInt8 :=
    fun h => hnot (.inr (.inl ((isDigit_toUInt8 hc).mp h)))
  rw [atof.scan, if_neg hdigit]
  split
  · rfl
  split
  · next hdot =>
    have hcontains : sOut.contains '.' = true := by
      by_contra h
      exact hnot (.inr (.inr ⟨(toUInt8_eq_iff hc (d := '.') (by decide)).mp hdot, h⟩))
    rw [if_pos hcontains]
  · rfl

/-- **The two loops stop at the same place**, and what `atof` has read until then it reads from the
text that the page keeps. -/
theorem scan_floatHelper (sOut : List Char) (hascii : ∀ c ∈ sIn, c.toNat < 128)
    (hminus : sOut ≠ [] ∨ sIn.head? ≠ some '-') (i : Nat) (result fraction : F) :
    ∃ t result', (floatHelper sIn sOut).2 = sOut ++ t ∧
      (∀ m, atof.scan (ascii sIn ++ nul :: m) i result fraction (sOut.contains '.') =
        (i + t.length, result')) ∧
      ∀ m, atof.scan (ascii t ++ nul :: m) i result fraction (sOut.contains '.') =
        (i + t.length, result') := by
  induction sIn generalizing sOut i result fraction with
  | nil => exact ⟨[], result, (List.append_nil _).symm, fun _ => rfl, fun _ => rfl⟩
  | cons c rest ih =>
    obtain ⟨hc, hrest⟩ := List.forall_mem_cons.mp hascii
    by_cases haccepts : floatAccepts sOut c
    · have hminus' : sOut ≠ [] ∨ c ≠ '-' := hminus.imp id fun h e => h (congrArg some e)
      obtain ⟨result₁, fraction₁, hstep⟩ := scan_of_accepts hc haccepts hminus' result fraction
      obtain ⟨t, result', hout, hread, hreread⟩ :=
        ih (sOut ++ [c]) hrest (.inl (by simp)) (i + 1) result₁ fraction₁
      have hlength : i + 1 + t.length = i + (c :: t).length := by
        rw [List.length_cons]
        omega
      rw [hlength] at hread hreread
      refine ⟨c :: t, result', ?_, fun m => ?_, fun m => ?_⟩
      · rw [floatHelper, if_pos haccepts, hout, List.append_assoc, List.singleton_append]
      · exact (hstep _ i).trans (hread m)
      · exact (hstep _ i).trans (hreread m)
    · refine ⟨[], result, ?_, fun m => ?_, fun m => rfl⟩
      · rw [floatHelper, if_neg haccepts, List.append_nil]
      · exact scan_of_not_accepts hc haccepts result fraction _ i

theorem atof.run_of_head_ne {str : Bytes} (h : str.head? ≠ some 0x2d) :
    run F str = (scan str 0 (ofInt 0) tenth false).map id (ofInt 1 * ·) := by
  unfold run
  split
  · exact (h rfl).elim
  · rfl

theorem head_ascii (hascii : ∀ c ∈ sIn, c.toNat < 128) (hminus : sIn.head? ≠ some '-') (m : Bytes) :
    (ascii sIn ++ nul :: m).head? ≠ some 0x2d := by
  cases sIn with
  | nil => exact fun h => absurd (Option.some.inj h) (by decide)
  | cons c rest =>
    intro h
    have hc := (toUInt8_eq_iff (hascii c List.mem_cons_self) (d := '-') (by decide)).mp
      (Option.some.inj h)
    exact hminus (congrArg some hc)

theorem run_float (F : Type) [CFloat F] (hascii : ∀ c ∈ sIn, c.toNat < 128) :
    ∃ result : F, (∀ m, atof.run F (ascii sIn ++ nul :: m) = ((float sIn).length, result)) ∧
      ∀ m, atof.run F (ascii (float sIn) ++ nul :: m) = ((float sIn).length, result) := by
  by_cases hminus : sIn.head? = some '-'
  · obtain ⟨rest, rfl⟩ := List.head?_eq_some_iff.mp hminus
    obtain ⟨t, result, hout, hread, hreread⟩ := scan_floatHelper ['-']
      (List.forall_mem_cons.mp hascii).2 (.inl (List.cons_ne_nil _ _)) 1 (ofInt 0 : F) tenth
    have hfloat : float ('-' :: rest) = '-' :: t := by
      rw [float, floatHelper, if_pos (.inl ⟨rfl, rfl⟩)]
      exact hout
    rw [hfloat, List.length_cons, Nat.add_comm]
    refine ⟨ofInt (-1) * result, fun m => ?_, fun m => ?_⟩
    · exact congrArg (Prod.map id (ofInt (-1) * ·)) (hread m)
    · exact congrArg (Prod.map id (ofInt (-1) * ·)) (hreread m)
  · obtain ⟨t, result, hout, hread, hreread⟩ :=
      scan_floatHelper [] hascii (.inr hminus) 0 (ofInt 0 : F) tenth
    have hfloat : float sIn = t := hout
    obtain ⟨u, hu⟩ := (float_longestPrefix sIn).isPrefix
    rw [hfloat] at hu ⊢
    rw [Nat.zero_add] at hread hreread
    have hhead : t.head? ≠ some '-' := by
      intro h
      rw [← hu, List.head?_append, h] at hminus
      exact hminus rfl
    have hascii' : ∀ c ∈ t, c.toNat < 128 := fun c hc => hascii c (by rw [← hu]; simp [hc])
    refine ⟨ofInt 1 * result, fun m => ?_, fun m => ?_⟩
    · rw [atof.run_of_head_ne (head_ascii hascii hminus m)]
      exact congrArg (Prod.map id (ofInt 1 * ·)) (hread m)
    · rw [atof.run_of_head_ne (head_ascii hascii' hhead m)]
      exact congrArg (Prod.map id (ofInt 1 * ·)) (hreread m)

end

/-- **The page and the device read the same number.** What the sanitizer keeps of ASCII characters
is the longest number in front of them, which it keeps as it is; `atof` consumes it and stops, and
makes the same of it alone. -/
theorem float_atof (F : Type) [CFloat F] {s : List Char} (hascii : ∀ c ∈ s, c.toNat < 128)
    (m m' : Bytes) :
    LongestPrefix IsFloatText s (float s) ∧ float (float s) = float s ∧
      (ascii s ++ nul :: m).take (atof.run F (ascii s ++ nul :: m)).1 = ascii (float s) ∧
      atof F (ascii (float s) ++ nul :: m') = atof F (ascii s ++ nul :: m) := by
  obtain ⟨result, hread, hreread⟩ := run_float F hascii
  refine ⟨float_longestPrefix s, float_float s, ?_, ?_⟩
  · obtain ⟨u, hu⟩ := (float_longestPrefix s).isPrefix
    have hsplit : ascii s = ascii (float s) ++ ascii u := by
      conv_lhs => rw [← hu]
      exact List.map_append
    rw [hread, hsplit, List.append_assoc]
    exact List.take_left' (List.length_map _)
  · rw [← atof.run_snd, ← atof.run_snd, hread, hreread]

theorem float_atof_misplaced : float "1-2".toList = "1".toList ∧
    atof Float32 (ascii "1".toList ++ [nul]) = atof Float32 (ascii "1-2".toList ++ [nul]) := by
  have hall : "1-2".toList.all (·.toNat < 128) := by decide
  have hascii : ∀ c ∈ "1-2".toList, c.toNat < 128 :=
    fun c hc => of_decide_eq_true (List.all_eq_true.mp hall c hc)
  have hfloat : float "1-2".toList = "1".toList := by decide
  have heq := (float_atof Float32 hascii [] []).2.2.2
  rw [hfloat] at heq
  exact ⟨hfloat, heq⟩

end ZephyrSiot
