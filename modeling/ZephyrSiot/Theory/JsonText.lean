import ZephyrSiot.Theory.CString

/-!
# JSON text with string members

The fragment of JSON that a flat record of strings needs: string bodies, objects whose
members are strings, and arrays of these. A string is kept as its body, the raw text between its
quotes, with the escapes still in it. `Body` says which bodies are legal, `escape` makes one
from any text without control characters, and `parseArray` and `parseObject` invert the compact
texts `arrayText` and `objectText`.
-/

namespace JsonText
open CStr

/-! ## String bodies -/

/-- The letters of the two-character escapes. -/
def shortEscapes : Bytes := lit "\"\\/bfnrt"

abbrev IsHex (c : UInt8) : Prop :=
  0x30 ≤ c ∧ c ≤ 0x39 ∨ 0x41 ≤ c ∧ c ≤ 0x46 ∨ 0x61 ≤ c ∧ c ≤ 0x66

/-- The legal bodies of a string: no control character, no bare quote, and every backslash
starts an escape. -/
inductive Body : Bytes → Prop where
  | nil : Body []
  | char : ¬ IsControl c → c ≠ quote → c ≠ backslash → Body s → Body (c :: s)
  | short : c ∈ shortEscapes → Body s → Body (backslash :: c :: s)
  | unicode : IsHex a → IsHex b → IsHex c → IsHex d → Body s →
    Body (backslash :: 0x75 :: a :: b :: c :: d :: s)

/-- Text that is its own body. -/
def Plain (s : Bytes) : Prop := ∀ c ∈ s, ¬ IsControl c ∧ c ≠ quote ∧ c ≠ backslash

instance : DecidablePred Plain := fun s => inferInstanceAs (Decidable (∀ c ∈ s, _))

theorem Plain.body {s : Bytes} (h : Plain s) : Body s := by
  induction s with
  | nil => exact .nil
  | cons c s ih =>
    obtain ⟨hc, hq, hb⟩ := h c List.mem_cons_self
    exact .char hc hq hb (ih fun d hd => h d (List.mem_cons_of_mem _ hd))

theorem Plain.zero_notMem {s : Bytes} (h : Plain s) : 0 ∉ s := fun hs => (h 0 hs).1 (by decide)

theorem Plain.cstr_eq {s : Bytes} (h : Plain s) : cstr s = s := cstr_eq_self h.zero_notMem

def escapeChar (c : UInt8) : Bytes := if c = quote ∨ c = backslash then [backslash, c] else [c]

/-- A text as a body: a backslash before each quote and each backslash. -/
def escape (s : Bytes) : Bytes := s.flatMap escapeChar

@[simp] theorem escape_nil : escape [] = [] := rfl

theorem escape_cons (c : UInt8) (s : Bytes) : escape (c :: s) = escapeChar c ++ escape s :=
  List.flatMap_cons

theorem escapeChar_special {c : UInt8} (h : c = quote ∨ c = backslash) :
    escapeChar c = [backslash, c] := if_pos h

theorem escapeChar_ordinary {c : UInt8} (h : ¬ (c = quote ∨ c = backslash)) :
    escapeChar c = [c] := if_neg h

theorem Plain.escape_eq {s : Bytes} (h : Plain s) : escape s = s := by
  induction s with
  | nil => rfl
  | cons c s ih =>
    rw [Plain, List.forall_mem_cons] at h
    obtain ⟨-, hq, hb⟩ := h.1
    rw [escape_cons, escapeChar_ordinary (not_or.mpr ⟨hq, hb⟩), ih h.2]
    rfl

/-- The text of a body in which a backslash stands only for the character behind it. -/
def bodyText : Bytes → Bytes
  | [] => []
  | [c] => [c]
  | c :: d :: s => if c = backslash then d :: bodyText s else c :: bodyText (d :: s)

theorem bodyText_cons {c : UInt8} (h : c ≠ backslash) (s : Bytes) :
    bodyText (c :: s) = c :: bodyText s := by
  cases s with
  | nil => rfl
  | cons d s => rw [bodyText, if_neg h]

theorem bodyText_escape (s : Bytes) : bodyText (escape s) = s := by
  induction s with
  | nil => rfl
  | cons c s ih =>
    rw [escape_cons]
    by_cases h : c = quote ∨ c = backslash
    · rw [escapeChar_special h, List.cons_append, List.singleton_append, bodyText, if_pos rfl, ih]
    · rw [escapeChar_ordinary h, List.singleton_append, bodyText_cons (fun e => h (.inr e)), ih]

theorem length_escape_le (s : Bytes) : (escape s).length ≤ 2 * s.length := by
  induction s with
  | nil => rfl
  | cons c s ih =>
    have : (escapeChar c).length ≤ 2 := by unfold escapeChar; split <;> simp
    rw [escape_cons, List.length_append, List.length_cons]
    omega

theorem mem_escape {c : UInt8} {s : Bytes} (h : c ∈ s) : c ∈ escape s :=
  List.mem_flatMap.mpr ⟨c, h, by unfold escapeChar; split <;> simp⟩

/-- A legal body holds no control character. -/
theorem Body.not_control {s : Bytes} (h : Body s) : ∀ c ∈ s, ¬ IsControl c := by
  have hex : ∀ c, IsHex c → ¬ IsControl c := by
    intro c hc
    simp only [IsHex, IsControl, UInt8.le_iff_toNat_le, UInt8.lt_iff_toNat_lt, UInt8.toNat_ofNat]
      at *
    omega
  have short : ∀ c ∈ shortEscapes, ¬ IsControl c := by decide
  induction h with
  | nil => simp
  | char hc _ _ _ ih => exact List.forall_mem_cons.mpr ⟨hc, ih⟩
  | short hc _ ih =>
    simp only [List.forall_mem_cons]
    exact ⟨by decide, short _ hc, ih⟩
  | unicode ha hb hc hd _ ih =>
    simp only [List.forall_mem_cons]
    exact ⟨by decide, by decide, hex _ ha, hex _ hb, hex _ hc, hex _ hd, ih⟩

/-- Escaping makes a legal body exactly of the texts without control characters. -/
theorem body_escape_iff {s : Bytes} : Body (escape s) ↔ ∀ c ∈ s, ¬ IsControl c := by
  refine ⟨fun h c hc => h.not_control c (mem_escape hc), fun h => ?_⟩
  induction s with
  | nil => exact .nil
  | cons c s ih =>
    have ih := ih fun d hd => h d (List.mem_cons_of_mem _ hd)
    rw [escape_cons]
    by_cases hc : c = quote ∨ c = backslash
    · rw [escapeChar_special hc]
      refine .short ?_ ih
      rcases hc with rfl | rfl <;> decide
    · rw [escapeChar_ordinary hc]
      obtain ⟨hq, hb⟩ := not_or.mp hc
      exact .char (h c List.mem_cons_self) hq hb ih

/-! ## Tokens -/

inductive Token where
  | lbracket | rbracket | lbrace | rbrace | colon | comma
  | str (body : Bytes)
  deriving DecidableEq

def Token.text : Token → Bytes
  | lbracket => [0x5b]
  | rbracket => [0x5d]
  | lbrace => [0x7b]
  | rbrace => [0x7d]
  | colon => [0x3a]
  | comma => [0x2c]
  | str body => quote :: body ++ [quote]

def Token.Legal : Token → Prop
  | str body => Body body
  | _ => True

def punctuation (c : UInt8) : Option Token :=
  if c = 0x5b then some .lbracket
  else if c = 0x5d then some .rbracket
  else if c = 0x7b then some .lbrace
  else if c = 0x7d then some .rbrace
  else if c = 0x3a then some .colon
  else if c = 0x2c then some .comma
  else none

/-- Where the lexer stands: between tokens, or in a string of which `acc` was read, last byte
first, possibly behind the backslash of an escape or before the last `n + 1` of its digits. -/
inductive Mode where
  | between
  | inside (acc : Bytes)
  | escaped (acc : Bytes)
  | digits (n : Nat) (acc : Bytes)

def lex : Mode → Bytes → Option (List Token)
  | .between, [] => some []
  | .between, c :: cs =>
    if c = quote then lex (.inside []) cs
    else if c = space ∨ c = tab ∨ c = lf ∨ c = cr then lex .between cs
    else match punctuation c with
      | some t => (lex .between cs).map (t :: ·)
      | none => none
  | .inside acc, c :: cs =>
    if c = quote then (lex .between cs).map (.str acc.reverse :: ·)
    else if c = backslash then lex (.escaped (c :: acc)) cs
    else if IsControl c then none
    else lex (.inside (c :: acc)) cs
  | .escaped acc, c :: cs =>
    if c = 0x75 then lex (.digits 3 (c :: acc)) cs
    else if c ∈ shortEscapes then lex (.inside (c :: acc)) cs
    else none
  | .digits n acc, c :: cs =>
    if IsHex c then
      match n with
      | 0 => lex (.inside (c :: acc)) cs
      | n + 1 => lex (.digits n (c :: acc)) cs
    else none
  | _, [] => none

/-- A legal body is read up to the quote that ends it, and kept as it stands. -/
theorem lex_inside {s : Bytes} (h : Body s) (acc rest : Bytes) :
    lex (.inside acc) (s ++ quote :: rest) =
      (lex .between rest).map (.str (acc.reverse ++ s) :: ·) := by
  induction h generalizing acc with
  | nil => rw [List.nil_append, lex, if_pos rfl, List.append_nil]
  | char hc hq hb _ ih =>
    rw [List.cons_append, lex, if_neg hq, if_neg hb, if_neg hc, ih]
    simp
  | short hc _ ih =>
    have hu : ∀ c ∈ shortEscapes, c ≠ 0x75 := by decide
    rw [List.cons_append, List.cons_append, lex, if_neg (by decide), if_pos rfl, lex,
      if_neg (hu _ hc), if_pos hc, ih]
    simp
  | unicode ha hb hc hd _ ih =>
    simp only [List.cons_append]
    rw [lex, if_neg (by decide), if_pos rfl, lex, if_pos rfl, lex, if_pos ha, lex, if_pos hb,
      lex, if_pos hc, lex, if_pos hd, ih]
    simp

theorem lex_text_append {t : Token} (h : t.Legal) (rest : Bytes) :
    lex .between (t.text ++ rest) = (lex .between rest).map (t :: ·) := by
  cases t with
  | str body =>
    rw [Token.text, List.append_assoc, List.cons_append, lex, if_pos rfl]
    exact lex_inside h [] rest
  | _ => rfl

/-- The lexer reads back the tokens that were written. -/
theorem lex_flatMap_text {ts : List Token} (h : ∀ t ∈ ts, t.Legal) :
    lex .between (ts.flatMap Token.text) = some ts := by
  induction ts with
  | nil => rfl
  | cons t ts ih =>
    rw [List.flatMap_cons, lex_text_append (h t List.mem_cons_self),
      ih fun u hu => h u (List.mem_cons_of_mem _ hu)]
    rfl

/-! ## Objects and arrays -/

/-- A member of an object, name and value given by their bodies. -/
structure Member where
  name : Bytes
  value : Bytes
  deriving DecidableEq

/-- An object of string members. -/
abbrev Row := List Member

def Member.Legal (m : Member) : Prop := Body m.name ∧ Body m.value

def Member.tokens (m : Member) : List Token := [.str m.name, .colon, .str m.value]

/-- Token runs with a comma between each two. -/
def separated : List (List Token) → List Token
  | [] => []
  | [x] => x
  | x :: xs => x ++ .comma :: separated xs

def objectTokens (ms : Row) : List Token :=
  .lbrace :: separated (ms.map Member.tokens) ++ [.rbrace]

def arrayTokens (rows : List Row) : List Token :=
  .lbracket :: separated (rows.map objectTokens) ++ [.rbracket]

def objectText (ms : Row) : Bytes := (objectTokens ms).flatMap Token.text

def arrayText (rows : List Row) : Bytes := (arrayTokens rows).flatMap Token.text

example : arrayText [[⟨lit "t", lit "temp"⟩, ⟨lit "k", lit "0"⟩], []] =
    lit "[\x7b\"t\":\"temp\",\"k\":\"0\"\x7d,\x7b\x7d]" := by decide

/-- The members of an object up to its closing brace, and the tokens behind it. -/
def parseMembers : List Token → Option (Row × List Token)
  | .str name :: .colon :: .str value :: .comma :: ts =>
    (parseMembers ts).map fun (ms, rest) => (⟨name, value⟩ :: ms, rest)
  | .str name :: .colon :: .str value :: .rbrace :: ts => some ([⟨name, value⟩], ts)
  | _ => none

def parseRow : List Token → Option (Row × List Token)
  | .lbrace :: .rbrace :: ts => some ([], ts)
  | .lbrace :: ts => parseMembers ts
  | _ => none

/-- The elements of an array up to its closing bracket, which ends the text. -/
def parseRows : (fuel : Nat) → List Token → Option (List Row)
  | 0, _ => none
  | fuel + 1, ts =>
    match parseRow ts with
    | some (row, .comma :: ts) => (parseRows fuel ts).map (row :: ·)
    | some (row, [.rbracket]) => some [row]
    | _ => none

def parseObject (s : Bytes) : Option Row :=
  match lex .between s with
  | some ts => match parseRow ts with
    | some (row, []) => some row
    | _ => none
  | none => none

def parseArray (s : Bytes) : Option (List Row) :=
  match lex .between s with
  | some [.lbracket, .rbracket] => some []
  | some (.lbracket :: ts) => parseRows ts.length ts
  | _ => none

theorem parseMembers_separated {ms : Row} (h : ms ≠ []) (rest : List Token) :
    parseMembers (separated (ms.map Member.tokens) ++ .rbrace :: rest) = some (ms, rest) := by
  induction ms with
  | nil => exact (h rfl).elim
  | cons m ms ih =>
    cases ms with
    | nil => rfl
    | cons m' ms =>
      have ih := ih (by simp)
      simp only [List.map_cons, separated, Member.tokens, List.cons_append, List.nil_append] at ih ⊢
      rw [parseMembers, ih]
      rfl

theorem parseRow_objectTokens (ms : Row) (rest : List Token) :
    parseRow (objectTokens ms ++ rest) = some (ms, rest) := by
  rw [objectTokens, List.cons_append, List.cons_append, List.append_assoc]
  cases ms with
  | nil => rfl
  | cons m ms =>
    have h := parseMembers_separated (List.cons_ne_nil m ms) rest
    cases ms with
    | nil => rfl
    | cons m' ms => exact h

theorem parseRows_separated {rows : List Row} (h : rows ≠ []) {fuel : Nat}
    (hfuel : rows.length ≤ fuel) :
    parseRows fuel (separated (rows.map objectTokens) ++ [.rbracket]) = some rows := by
  induction rows generalizing fuel with
  | nil => exact (h rfl).elim
  | cons row rows ih =>
    cases fuel with
    | zero => simp at hfuel
    | succ fuel =>
      cases rows with
      | nil => rw [List.map_singleton, separated, parseRows, parseRow_objectTokens]
      | cons row' rows =>
        have ih := ih (by simp) (Nat.le_of_succ_le_succ hfuel)
        rw [List.map_cons, List.map_cons, separated, parseRows, List.append_assoc,
          parseRow_objectTokens]
        · simp only [List.cons_append]
          rw [List.map_cons] at ih
          rw [ih]
          rfl
        · simp

private theorem length_le_separated (rows : List Row) :
    rows.length ≤ (separated (rows.map objectTokens) ++ [Token.rbracket]).length := by
  induction rows with
  | nil => simp
  | cons row rows ih =>
    cases rows with
    | nil => simp
    | cons row' rows =>
      simp only [List.map_cons, separated, List.length_append, List.length_cons] at ih ⊢
      omega

theorem legal_of_mem_separated {xs : List (List Token)} (h : ∀ x ∈ xs, ∀ t ∈ x, t.Legal) :
    ∀ t ∈ separated xs, t.Legal := by
  induction xs with
  | nil => simp [separated]
  | cons x xs ih =>
    have hx := h x List.mem_cons_self
    have ih := ih fun y hy => h y (List.mem_cons_of_mem _ hy)
    cases xs with
    | nil => exact hx
    | cons y xs =>
      intro t ht
      rw [separated, List.mem_append, List.mem_cons] at ht
      · rcases ht with ht | rfl | ht
        · exact hx t ht
        · trivial
        · exact ih t ht
      · simp

theorem legal_objectTokens {ms : Row} (h : ∀ m ∈ ms, m.Legal) :
    ∀ t ∈ objectTokens ms, t.Legal := by
  intro t ht
  rw [objectTokens, List.cons_append, List.mem_cons, List.mem_append, List.mem_singleton] at ht
  rcases ht with rfl | ht | rfl
  · trivial
  · refine legal_of_mem_separated ?_ t ht
    intro x hx u hu
    obtain ⟨m, hm, rfl⟩ := List.mem_map.mp hx
    obtain ⟨hname, hvalue⟩ := h m hm
    simp only [Member.tokens, List.mem_cons, List.not_mem_nil, or_false] at hu
    rcases hu with rfl | rfl | rfl
    · exact hname
    · trivial
    · exact hvalue
  · trivial

theorem legal_arrayTokens {rows : List Row} (h : ∀ ms ∈ rows, ∀ m ∈ ms, m.Legal) :
    ∀ t ∈ arrayTokens rows, t.Legal := by
  intro t ht
  rw [arrayTokens, List.cons_append, List.mem_cons, List.mem_append, List.mem_singleton] at ht
  rcases ht with rfl | ht | rfl
  · trivial
  · refine legal_of_mem_separated ?_ t ht
    intro x hx
    obtain ⟨ms, hms, rfl⟩ := List.mem_map.mp hx
    exact legal_objectTokens (h ms hms)
  · trivial

/-- The parser inverts the compact text of an array. -/
theorem parseArray_arrayText {rows : List Row} (h : ∀ ms ∈ rows, ∀ m ∈ ms, m.Legal) :
    parseArray (arrayText rows) = some rows := by
  rw [parseArray, arrayText, lex_flatMap_text (legal_arrayTokens h), arrayTokens, List.cons_append]
  cases rows with
  | nil => rfl
  | cons row rows =>
    have hrows := parseRows_separated (List.cons_ne_nil row rows) (length_le_separated _)
    have hne : separated ((row :: rows).map objectTokens) ++ [.rbracket] ≠ [.rbracket] := by
      intro e
      rw [e] at hrows
      cases hrows
    split
    · next e => simp only [Option.some.injEq, List.cons.injEq, true_and] at e; exact (hne e).elim
    · next e =>
      simp only [Option.some.injEq, List.cons.injEq, true_and] at e
      rw [← e]
      exact hrows
    · next e => exact (e _ rfl).elim

theorem parseObject_objectText {ms : Row} (h : ∀ m ∈ ms, m.Legal) :
    parseObject (objectText ms) = some ms := by
  have hrow := parseRow_objectTokens ms []
  rw [List.append_nil] at hrow
  rw [parseObject, objectText, lex_flatMap_text (legal_objectTokens h)]
  simp only [hrow]

/-! ## Lengths -/

/-- Each run is followed by a comma, or by what ends the list. -/
theorem length_separated_text {xs : List (List Token)} (h : xs ≠ []) :
    ((separated xs).flatMap Token.text).length + 1 =
      (xs.map fun x => (x.flatMap Token.text).length + 1).sum := by
  induction xs with
  | nil => exact (h rfl).elim
  | cons x xs ih =>
    cases xs with
    | nil => rfl
    | cons y xs =>
      have ih := ih (List.cons_ne_nil y xs)
      rw [separated, List.map_cons, List.sum_cons, ← ih]
      · simp only [List.flatMap_append, List.flatMap_cons, List.length_append, Token.text,
          List.length_cons, List.length_nil]
        omega
      · simp

theorem length_arrayText {rows : List Row} (h : rows ≠ []) :
    (arrayText rows).length = 1 + (rows.map fun ms => (objectText ms).length + 1).sum := by
  have hmap : rows.map objectTokens ≠ [] := mt List.map_eq_nil_iff.mp h
  have hsep := length_separated_text hmap
  rw [List.map_map] at hsep
  rw [arrayText, arrayTokens]
  simp only [List.cons_append, List.flatMap_cons, List.flatMap_append, List.flatMap_nil,
    List.length_append, List.length_cons, List.length_nil, Token.text]
  change _ = 1 + (rows.map ((fun x => (x.flatMap Token.text).length + 1) ∘ objectTokens)).sum
  omega

end JsonText
