import ZephyrSiot.Html

/-!
# Reading form data

`url_decode` undoes every spelling of a string, stays within the memory of what it reads and never
writes more than it reads (`urlDecode_spec`). A form comes back pair by pair, but its keys come back
as they are spelled (`parses_iff`).
-/

namespace ZephyrSiot
open CStr FormText

/-! ## Decoding -/

theorem urlDecode.digit_eq {a : UInt8} (h : IsHex a) : digit a = hexValue a := by
  unfold digit hexValue
  dsimp only
  rcases h with hdigit | ⟨hlow, hhigh⟩ | ⟨hlow, hhigh⟩
  · rw [if_pos hdigit]
    grind
  · grind
  · have hletter : 0x41 ≤ a - (0x61 - 0x41) := by grind
    rw [if_pos hlow, if_pos hletter, if_neg (by grind), if_neg (by grind)]
    grind

theorem urlDecode_nul (m : Bytes) : urlDecode (nul :: m) = some [nul] := by
  rw [urlDecode.eq_def]
  exact if_pos rfl

theorem urlDecode_copied {c : UInt8} (h0 : c ≠ 0) (hpercent : c ≠ percent) (hplus : c ≠ plus)
    (m : Bytes) : urlDecode (c :: m) = (urlDecode m).map (c :: ·) := by
  rw [urlDecode.eq_def]
  dsimp only
  rw [if_neg h0, if_neg hpercent, if_neg hplus]

theorem urlDecode_plus (m : Bytes) : urlDecode (plus :: m) = (urlDecode m).map (space :: ·) := by
  rw [urlDecode.eq_def]
  dsimp only
  rw [if_neg (by decide), if_neg (by decide), if_pos rfl]

/-- Behind a `%`, two characters are taken together when they are hexadecimal digits. -/
theorem urlDecode_percent {a b : UInt8} (ha : a ≠ 0) (m : Bytes) :
    urlDecode (percent :: a :: b :: m) =
      if b ≠ 0 ∧ IsHex a ∧ IsHex b then (urlDecode m).map ((16 * hexValue a + hexValue b) :: ·)
      else (urlDecode (a :: b :: m)).map (percent :: ·) := by
  rw [urlDecode.eq_def]
  dsimp only
  rw [if_neg (by decide), if_pos rfl, if_neg ha]
  split
  · next h => rw [urlDecode.digit_eq h.2.1, urlDecode.digit_eq h.2.2]
  · rfl

/-- A `%` at the end of the string is copied, and nothing behind the terminator is read. -/
theorem urlDecode_percent_nul (m : Bytes) :
    urlDecode (percent :: nul :: m) = (urlDecode (nul :: m)).map (percent :: ·) := by
  rw [urlDecode.eq_def]
  dsimp only
  rw [if_neg (by decide), if_pos rfl, if_pos rfl]

/-- A spelling is decoded to what it stands for, whatever follows the terminator. -/
theorem urlDecode_spells {Literal : UInt8 → Prop} (hlit : ∀ c, Literal c → c ≠ percent ∧ c ≠ plus)
    {e s : Bytes} (h : Spells Literal e s) (h0 : 0 ∉ s) (rest : Bytes) :
    urlDecode (e ++ nul :: rest) = some (s ++ [nul]) := by
  induction h with
  | nil => exact urlDecode_nul rest
  | literal hc _ ih =>
    rw [List.mem_cons, not_or] at h0
    obtain ⟨hpercent, hplus⟩ := hlit _ hc
    rw [List.cons_append, urlDecode_copied (Ne.symm h0.1) hpercent hplus, ih h0.2]
    rfl
  | plus _ ih =>
    rw [List.mem_cons, not_or] at h0
    rw [List.cons_append, urlDecode_plus, ih h0.2]
    rfl
  | percent ha hb _ ih =>
    rw [List.mem_cons, not_or] at h0
    rw [List.cons_append, List.cons_append, List.cons_append,
      urlDecode_percent (IsHex.ne_zero ha), if_pos ⟨IsHex.ne_zero hb, ha, hb⟩, ih h0.2]
    rfl

/-- One round of the loop writes one character and goes on behind what it has read, malformed
escapes included. -/
theorem urlDecode_step {c : UInt8} {s : Bytes} (hc : c ≠ 0) (hs : 0 ∉ s) :
    ∃ d t, t <:+ s ∧ ∀ rest,
      urlDecode (c :: s ++ nul :: rest) = (urlDecode (t ++ nul :: rest)).map (d :: ·) := by
  by_cases hpercent : c = percent
  · subst hpercent
    match s with
    | [] => exact ⟨percent, [], List.suffix_rfl, urlDecode_percent_nul⟩
    | [a] =>
      rw [List.mem_singleton] at hs
      refine ⟨percent, [a], List.suffix_rfl, fun rest => ?_⟩
      exact (urlDecode_percent (Ne.symm hs) rest).trans (if_neg fun h => h.1 rfl)
    | a :: b :: t =>
      rw [List.mem_cons, not_or] at hs
      have hread (rest : Bytes) := urlDecode_percent (b := b) (Ne.symm hs.1) (t ++ nul :: rest)
      by_cases hescape : b ≠ 0 ∧ IsHex a ∧ IsHex b
      · exact ⟨_, t, List.suffix_append [a, b] t, fun rest => (hread rest).trans (if_pos hescape)⟩
      · exact ⟨percent, a :: b :: t, List.suffix_rfl,
          fun rest => (hread rest).trans (if_neg hescape)⟩
  · by_cases hplus : c = plus
    · subst hplus
      exact ⟨space, s, List.suffix_rfl, fun rest => urlDecode_plus _⟩
    · exact ⟨c, s, List.suffix_rfl, fun rest => urlDecode_copied hc hpercent hplus _⟩

theorem urlDecode_stays {s : Bytes} (hs : 0 ∉ s) :
    ∃ out : Bytes, (∀ rest, urlDecode (s ++ nul :: rest) = some (out ++ [nul])) ∧
      out.length ≤ s.length := by
  induction hn : s.length using Nat.strong_induction_on generalizing s with
  | _ n ih =>
    cases s with
    | nil => exact ⟨[], urlDecode_nul, Nat.zero_le _⟩
    | cons c s =>
      rw [List.mem_cons, not_or] at hs
      obtain ⟨d, t, hsuffix, hstep⟩ := urlDecode_step (Ne.symm hs.1) hs.2
      have hle := hsuffix.length_le
      rw [List.length_cons] at hn
      obtain ⟨out, hout, hlen⟩ := ih t.length (by omega) (fun h => hs.2 (hsuffix.mem h)) rfl
      refine ⟨d :: out, fun rest => ?_, ?_⟩
      · rw [hstep, hout]
        rfl
      · rw [List.length_cons]
        omega

/-- **Decoding undoes every spelling**, and on any string, malformed escapes included, it reads
nothing behind the terminator and writes no more bytes than the string has with it. -/
theorem urlDecode_spec {s : Bytes} (h0 : 0 ∉ s) :
    (∀ e, Spells (fun c => c ≠ percent ∧ c ≠ plus) e s →
      ∀ rest, urlDecode (e ++ nul :: rest) = some (s ++ [nul])) ∧
    ∃ out : Bytes, (∀ rest, urlDecode (s ++ nul :: rest) = some (out ++ [nul])) ∧
      (out ++ [nul]).length ≤ s.length + 1 := by
  refine ⟨fun e h rest => urlDecode_spells (fun _ hc => hc) h h0 rest, ?_⟩
  obtain ⟨out, hout, hlen⟩ := urlDecode_stays h0
  refine ⟨out, hout, ?_⟩
  rw [List.length_append]
  exact Nat.succ_le_succ hlen

theorem urlDecode_spec_mixed : urlDecode (lit "a+%3D%4b" ++ [nul]) = some (lit "a =K" ++ [nul]) := by
  have hspells : Spells (fun c => c ≠ percent ∧ c ≠ plus) (lit "a+%3D%4b") (lit "a =K") :=
    .literal (by decide) (.plus (.percent (a := 0x33) (b := 0x44) (by decide) (by decide)
      (.percent (a := 0x34) (b := 0x62) (by decide) (by decide) .nil)))
  exact (urlDecode_spec (s := lit "a =K") (by decide)).1 _ hspells []

/-! ## Pairs -/

/-- The bytes that a form has as they are. -/
abbrev FormLiteral (c : UInt8) : Prop := c ∉ [percent, plus, space, ampersand, equals]

/-- A pair, and how it is spelled in a form. -/
structure FormField where
  key : Bytes
  value : Bytes
  keyText : Bytes
  valueText : Bytes
  key_ne : key ≠ []
  zero_notMem : 0 ∉ key ∧ 0 ∉ value
  spells_key : Spells FormLiteral keyText key
  spells_value : Spells FormLiteral valueText value

def FormField.text (f : FormField) : Bytes := f.keyText ++ equals :: f.valueText

/-- The pairs, joined. -/
def formBody (fields : List FormField) : Bytes := [ampersand].intercalate (fields.map FormField.text)

/-- The callback is called with the pairs of the form, each of them once and in their order. -/
def Parses (fields : List FormField) : Prop :=
  htmlParseFormData (formBody fields ++ [nul]) = some (fields.map fun f => (f.key, f.value))

namespace FormField
variable (f : FormField)

theorem keyText_ne : f.keyText ≠ [] := fun h => f.key_ne (f.spells_key.eq_nil_iff.mp h)

/-- Only what stands for itself, marks and digits are sent. -/
abbrev Sent (c : UInt8) : Prop := (FormLiteral c ∧ c ≠ 0) ∨ c = plus ∨ c = percent ∨ IsHex c

theorem sent {c : UInt8} (hc : c ∈ f.keyText ∨ c ∈ f.valueText) : Sent c := by
  have hne {s : Bytes} (hs : 0 ∉ s) (h : FormLiteral c ∧ c ∈ s) : FormLiteral c ∧ c ≠ 0 :=
    ⟨h.1, fun h0 => hs (h0 ▸ h.2)⟩
  rcases hc with hc | hc
  · exact (f.spells_key.mem hc).imp_left (hne f.zero_notMem.1)
  · exact (f.spells_value.mem hc).imp_left (hne f.zero_notMem.2)

theorem equals_notMem : equals ∉ f.keyText ∧ equals ∉ f.valueText :=
  ⟨fun h => absurd (f.sent (.inl h)) (by decide), fun h => absurd (f.sent (.inr h)) (by decide)⟩

theorem notMem_text {c : UInt8} (hne : c ≠ equals) (hc : ¬ Sent c) : c ∉ f.text := by
  intro h
  rw [text, List.mem_append, List.mem_cons] at h
  rcases h with h | h | h
  · exact hc (f.sent (.inl h))
  · exact hne h
  · exact hc (f.sent (.inr h))

theorem zero_notMem_text : 0 ∉ f.text := f.notMem_text (by decide) (by decide)

theorem ampersand_notMem_text : ampersand ∉ f.text := f.notMem_text (by decide) (by decide)

theorem text_ne : f.text ≠ [] := by simp [text]

end FormField

@[simp] theorem formBody_nil : formBody [] = [] := rfl

@[simp] theorem formBody_singleton (f : FormField) : formBody [f] = f.text :=
  List.intercalate_singleton

theorem formBody_cons_cons (f g : FormField) (fields : List FormField) :
    formBody (f :: g :: fields) = f.text ++ ampersand :: formBody (g :: fields) := by
  rw [formBody, List.map_cons, List.map_cons, List.intercalate_cons_cons, List.append_assoc]
  rfl

/-- The body is a C string, with a character or more for every pair. -/
theorem formBody_spec (fields : List FormField) :
    0 ∉ formBody fields ∧ fields.length ≤ (formBody fields).length := by
  induction fields with
  | nil => exact ⟨List.not_mem_nil, Nat.le_refl 0⟩
  | cons f fields ih =>
    cases fields with
    | nil =>
      rw [formBody_singleton]
      exact ⟨f.zero_notMem_text, List.length_pos_of_ne_nil f.text_ne⟩
    | cons g fields =>
      rw [formBody_cons_cons, List.mem_append, List.mem_cons, not_or, not_or, List.length_append]
      refine ⟨⟨f.zero_notMem_text, by decide, ih.1⟩, ?_⟩
      calc (f :: g :: fields).length
        _ = (g :: fields).length + 1 := List.length_cons
        _ ≤ (formBody (g :: fields)).length + 1 := Nat.succ_le_succ ih.2
        _ ≤ f.text.length + ((formBody (g :: fields)).length + 1) := Nat.le_add_left ..

/-- One round of the loop: the value is decoded, the key is not. -/
theorem htmlParseFormData.loop_succ (fuel : Nat) {s rest : Bytes} (f : FormField)
    (h : strtok ampersand s = some (f.text, rest)) :
    loop (fuel + 1) s = (loop fuel rest).map ((f.keyText, f.value) :: ·) := by
  have hkey : strtok equals f.text = some (f.keyText, f.valueText) :=
    strtok_append f.keyText_ne f.equals_notMem.1 f.valueText
  have hvalue : value f.valueText = f.valueText := by
    unfold value
    rcases eq_or_ne f.valueText [] with hnil | hne
    · rw [hnil, strtok_nil]
    · rw [strtok_self hne f.equals_notMem.2]
  have hlit (c : UInt8) (hc : FormLiteral c) : c ≠ percent ∧ c ≠ plus := by
    constructor
    · rintro rfl
      exact hc (by decide)
    · rintro rfl
      exact hc (by decide)
  have hdecoded : urlDecode (f.valueText ++ [nul]) = some (f.value ++ [nul]) :=
    urlDecode_spells hlit f.spells_value f.zero_notMem.2 []
  rw [loop, h]
  dsimp only
  rw [hkey]
  dsimp only
  rw [hvalue, hdecoded]
  cases loop fuel rest with
  | none => rfl
  | some calls =>
    dsimp only
    rw [cstr_append_nul, cstr_eq_self f.zero_notMem.2]
    rfl

theorem htmlParseFormData.loop_formBody {fuel : Nat} {fields : List FormField}
    (h : fields.length ≤ fuel) :
    loop fuel (formBody fields) = some (fields.map fun f => (f.keyText, f.value)) := by
  induction fields generalizing fuel with
  | nil => cases fuel <;> rfl
  | cons f fields ih =>
    obtain ⟨fuel, rfl⟩ := Nat.exists_eq_add_of_le' (Nat.le_trans (Nat.le_add_left 1 _) h)
    have hrest := ih (Nat.le_of_succ_le_succ h)
    have hstrtok : strtok ampersand (formBody (f :: fields)) = some (f.text, formBody fields) := by
      cases fields with
      | nil =>
        rw [formBody_singleton]
        exact strtok_self f.text_ne f.ampersand_notMem_text
      | cons g fields =>
        rw [formBody_cons_cons]
        exact strtok_append f.text_ne f.ampersand_notMem_text _
    rw [loop_succ fuel f hstrtok, hrest]
    rfl

/-- **A form comes back** exactly when no key of it is spelled differently from what it is. -/
theorem parses_iff (fields : List FormField) :
    Parses fields ↔ ∀ f ∈ fields, f.keyText = f.key := by
  obtain ⟨hzero, hlength⟩ := formBody_spec fields
  rw [Parses, htmlParseFormData, cstr_append_nul, cstr_eq_self hzero,
    htmlParseFormData.loop_formBody (Nat.le_succ_of_le hlength), Option.some_inj, List.map_inj_left]
  simp only [Prod.mk.injEq, and_true]

/-- A key with a space. -/
def spacedKey : FormField where
  key := lit "a b"
  value := lit "1"
  keyText := lit "a+b"
  valueText := lit "1"
  key_ne := by decide
  zero_notMem := by decide
  spells_key := .literal (by decide) (.plus (.literal (by decide) .nil))
  spells_value := .literal (by decide) .nil

theorem not_parses_spacedKey : ¬ Parses [spacedKey] := by
  have hcalls : htmlParseFormData (lit "a+b=1" ++ [nul]) = some [(lit "a+b", lit "1")] := by
    decide +kernel
  intro h
  exact absurd (hcalls.symm.trans h) (by decide)

end ZephyrSiot
