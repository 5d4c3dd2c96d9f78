import Mathlib.Data.List.Basic

/-!
# Elm: text and parsers

What `elm/core` makes of a text of digits, and `elm/parser` as the parameter `ElmParser`:
`ElmParser.Lawful` says what its combinators do. `Takes` and `Refuses` say what a parser does with a
text, with a rule for each combinator. A string is the list of its characters.
-/

/-! ## `elm/core` -/

namespace Elm

/-- `Char.isDigit` -/
abbrev IsDigit (c : Char) : Prop := '0' ≤ c ∧ c ≤ '9'

/-- The number that decimal digits stand for. -/
def decimalValue (ds : List Char) : Nat := ds.foldl (fun n c => 10 * n + (c.toNat - '0'.toNat)) 0

/-- `String.toInt`: digits, perhaps behind a sign. -/
def toInt (s : List Char) : Option Int :=
  let natural (ds : List Char) : Option Int :=
    if ds ≠ [] ∧ ds.all (IsDigit ·) then some (decimalValue ds) else none
  match s with
  | '-' :: ds => (natural ds).map (- ·)
  | '+' :: ds => natural ds
  | ds => natural ds

/-- `String.slice`, where neither index is negative. -/
def slice (start stop : Nat) (s : List Char) : List Char := (s.take stop).drop start

end Elm

/-! ## `elm/parser` -/

/-- What a parser makes of an input: a value and what is left of the input, or none. `progress` says
that the parser is committed to what it has read. -/
inductive ParserStep (α : Type) where
  | good (progress : Bool) (value : α) (rest : List Char)
  | bad (progress : Bool)

/-- Further steps are taken behind a parser that is or is not committed. -/
def ParserStep.after {α : Type} (progress : Bool) : ParserStep α → ParserStep α
  | good progress' value rest => good (progress || progress') value rest
  | bad progress' => bad (progress || progress')

structure ElmParser where
  Parser : Type → Type
  DeadEnd : Type
  /-- What a parser does at a place of the input. -/
  step : {α : Type} → Parser α → List Char → ParserStep α
  run : {α : Type} → Parser α → List Char → Except (List DeadEnd) α
  succeed : {α : Type} → α → Parser α
  problem : {α : Type} → String → Parser α
  symbol : String → Parser Unit
  int : Parser Int
  andThen : {α β : Type} → (α → Parser β) → Parser α → Parser β
  /-- `(|.)` -/
  ignore : {α β : Type} → Parser α → Parser β → Parser α
  oneOf : {α : Type} → List (Parser α) → Parser α
  backtrackable : {α : Type} → Parser α → Parser α
  getChompedString : {α : Type} → Parser α → Parser (List Char)

/-- A text that `Parser.int` reads as a whole: "a lone 0, or digits not starting with 0". -/
def IsIntText (ds : List Char) : Prop :=
  ds = ['0'] ∨ ds ≠ [] ∧ ds.head? ≠ some '0' ∧ ∀ c ∈ ds, Elm.IsDigit c

/-- Nothing that `Parser.int` would take for more of a number: no digit, dot or letter. -/
def EndsInt (rest : List Char) : Prop :=
  ∀ c ∈ rest.head?, ¬ Elm.IsDigit c ∧ c ≠ '.' ∧ ¬ c.isAlpha

theorem EndsInt.nil : EndsInt [] := by simp [EndsInt]

theorem EndsInt.cons {c : Char} (h : ¬ Elm.IsDigit c ∧ c ≠ '.' ∧ ¬ c.isAlpha) (rest : List Char) :
    EndsInt (c :: rest) := by
  rintro c' hc'
  obtain rfl := Option.some.inj hc'
  exact h

structure ElmParser.Lawful (E : ElmParser) : Prop where
  run_good {α : Type} {p : E.Parser α} {s rest : List Char} {b : Bool} {v : α} :
    E.step p s = .good b v rest → E.run p s = .ok v
  run_bad {α : Type} {p : E.Parser α} {s : List Char} {b : Bool} :
    E.step p s = .bad b → ∃ deadEnds, E.run p s = .error deadEnds
  succeed {α : Type} (v : α) (s : List Char) : E.step (E.succeed v) s = .good false v s
  problem {α : Type} (message : String) (s : List Char) :
    E.step (E.problem message : E.Parser α) s = .bad false
  symbol {str : String} (h : str ≠ "") (s : List Char) : E.step (E.symbol str) s =
    if str.toList.isPrefixOf s then .good true () (s.drop str.toList.length) else .bad false
  int {ds rest : List Char} : IsIntText ds → EndsInt rest →
    E.step E.int (ds ++ rest) = .good true (Elm.decimalValue ds) rest
  andThen {α β : Type} (f : α → E.Parser β) (p : E.Parser α) (s : List Char) :
    E.step (E.andThen f p) s = match E.step p s with
      | .good b v rest => (E.step (f v) rest).after b
      | .bad b => .bad b
  ignore {α β : Type} (p : E.Parser α) (q : E.Parser β) (s : List Char) :
    E.step (E.ignore p q) s = match E.step p s with
      | .good b v rest =>
        match E.step q rest with
        | .good b' _ rest' => .good (b || b') v rest'
        | .bad b' => .bad (b || b')
      | .bad b => .bad b
  oneOf_nil {α : Type} (s : List Char) : E.step (E.oneOf ([] : List (E.Parser α))) s = .bad false
  oneOf_cons {α : Type} (p : E.Parser α) (ps : List (E.Parser α)) (s : List Char) :
    E.step (E.oneOf (p :: ps)) s = match E.step p s with
      | .bad false => E.step (E.oneOf ps) s
      | r => r
  backtrackable {α : Type} (p : E.Parser α) (s : List Char) :
    E.step (E.backtrackable p) s = match E.step p s with
      | .good _ v rest => .good false v rest
      | .bad _ => .bad false
  getChompedString {α : Type} (p : E.Parser α) (s : List Char) :
    E.step (E.getChompedString p) s = match E.step p s with
      | .good b _ rest => .good b (s.take (s.length - rest.length)) rest
      | .bad b => .bad b

/-! A parser that is its own step. -/

namespace ElmParser

def reference.int (s : List Char) : ParserStep Int :=
  let ds := if s.head? = some '0' then ['0'] else s.takeWhile (Elm.IsDigit ·)
  let rest := s.drop ds.length
  if ds = [] then .bad false
  else if rest.head?.any fun c => c = '.' ∨ c.isAlpha then .bad true
  else .good true (Elm.decimalValue ds) rest

def reference.oneOf {α : Type} : List (List Char → ParserStep α) → List Char → ParserStep α
  | [], _ => .bad false
  | p :: ps, s => match p s with
    | .bad false => oneOf ps s
    | r => r

def reference : ElmParser where
  Parser α := List Char → ParserStep α
  DeadEnd := Unit
  step p s := p s
  run p s := match p s with
    | .good _ v _ => .ok v
    | .bad _ => .error [()]
  succeed v s := .good false v s
  problem _ _ := .bad false
  symbol str s :=
    if str.toList.isPrefixOf s then .good true () (s.drop str.toList.length) else .bad false
  int := reference.int
  andThen f p s := match p s with
    | .good b v rest => (f v rest).after b
    | .bad b => .bad b
  ignore p q s := match p s with
    | .good b v rest =>
      match q rest with
      | .good b' _ rest' => .good (b || b') v rest'
      | .bad b' => .bad (b || b')
    | .bad b => .bad b
  oneOf := reference.oneOf
  backtrackable p s := match p s with
    | .good _ v rest => .good false v rest
    | .bad _ => .bad false
  getChompedString p s := match p s with
    | .good b _ rest => .good b (s.take (s.length - rest.length)) rest
    | .bad b => .bad b

theorem reference.int_append {ds rest : List Char} (hds : IsIntText ds) (hrest : EndsInt rest) :
    reference.int (ds ++ rest) = .good true (Elm.decimalValue ds) rest := by
  have hne : ds ≠ [] := by
    rcases hds with rfl | ⟨hne, -⟩
    · decide
    · exact hne
  have hread : (if (ds ++ rest).head? = some '0' then ['0']
      else (ds ++ rest).takeWhile (Elm.IsDigit ·)) = ds := by
    rcases hds with rfl | ⟨-, hzero, hdigits⟩
    · rfl
    · rw [List.head?_append_of_ne_nil _ hne, if_neg hzero,
        List.takeWhile_append_of_pos (by simpa using hdigits)]
      have hend : rest.takeWhile (Elm.IsDigit ·) = [] := by
        cases rest with
        | nil => rfl
        | cons c rest =>
          exact List.takeWhile_cons_of_neg (by simpa using (hrest c rfl).1)
      rw [hend, List.append_nil]
  have hend : ¬ rest.head?.any fun c => decide (c = '.' ∨ c.isAlpha = true) := by
    cases rest with
    | nil => simp
    | cons c rest =>
      obtain ⟨-, hdot, hletter⟩ := hrest c rfl
      simpa using ⟨hdot, by simpa using hletter⟩
  rw [int, hread, List.drop_left, if_neg hne]
  exact if_neg hend

theorem lawful_reference : reference.Lawful where
  run_good {α p s rest b v} h := by
    change (match p s with | .good _ v _ => _ | .bad _ => _) = _
    rw [show p s = _ from h]
    rfl
  run_bad {α p s b} h := by
    refine ⟨[()], ?_⟩
    change (match p s with | .good _ v _ => _ | .bad _ => _) = _
    rw [show p s = _ from h]
    rfl
  succeed _ _ := rfl
  problem _ _ := rfl
  symbol _ _ := rfl
  int := reference.int_append
  andThen _ _ _ := rfl
  ignore _ _ _ := rfl
  oneOf_nil _ := rfl
  oneOf_cons _ _ _ := rfl
  backtrackable _ _ := rfl
  getChompedString _ _ := rfl

/-! ## Rules of parsers -/

section
variable {E : ElmParser} {α β : Type} {p : E.Parser α} {q : E.Parser β} {v : α} {w : β}
variable {s s' s'' : List Char}

/-- The parser reads up to `s'`. -/
def Takes (E : ElmParser) {α : Type} (p : E.Parser α) (s : List Char) (v : α) (s' : List Char) :
    Prop := ∃ b, E.step p s = .good b v s'

def Refuses (E : ElmParser) {α : Type} (p : E.Parser α) (s : List Char) : Prop :=
  ∃ b, E.step p s = .bad b

/-- The parser refuses at once, so that `oneOf` goes on to its next alternative. -/
def Passes (E : ElmParser) {α : Type} (p : E.Parser α) (s : List Char) : Prop :=
  E.step p s = .bad false

theorem Takes.run (hE : E.Lawful) (h : Takes E p s v s') : (E.run p s).toOption = some v := by
  obtain ⟨b, h⟩ := h
  rw [hE.run_good h]
  rfl

theorem Refuses.run (hE : E.Lawful) (h : Refuses E p s) : (E.run p s).toOption = none := by
  obtain ⟨b, h⟩ := h
  obtain ⟨deadEnds, h⟩ := hE.run_bad h
  rw [h]
  rfl

theorem Takes.succeed (hE : E.Lawful) (v : α) (s : List Char) : Takes E (E.succeed v) s v s :=
  ⟨false, hE.succeed v s⟩

theorem Refuses.problem (hE : E.Lawful) (message : String) (s : List Char) :
    Refuses E (E.problem message : E.Parser α) s := ⟨false, hE.problem message s⟩

theorem Takes.int (hE : E.Lawful) {ds : List Char} (hds : IsIntText ds) (hs : EndsInt s) :
    Takes E E.int (ds ++ s) (Elm.decimalValue ds) s := ⟨true, hE.int hds hs⟩

theorem Takes.symbol (hE : E.Lawful) {str : String} (h : str ≠ "") (s : List Char) :
    Takes E (E.symbol str) (str.toList ++ s) () s := by
  refine ⟨true, ?_⟩
  rw [hE.symbol h, if_pos (by simp), List.drop_left]

theorem Passes.symbol (hE : E.Lawful) {str : String} (h : str ≠ "") (hs : ¬ str.toList <+: s) :
    Passes E (E.symbol str) s := by
  rw [Passes, hE.symbol h, if_neg (by rwa [List.isPrefixOf_iff_prefix])]

theorem Takes.andThen (hE : E.Lawful) {f : α → E.Parser β} (hp : Takes E p s v s')
    (hf : Takes E (f v) s' w s'') : Takes E (E.andThen f p) s w s'' := by
  obtain ⟨b, hp⟩ := hp
  obtain ⟨b', hf⟩ := hf
  refine ⟨b || b', ?_⟩
  rw [hE.andThen, hp]
  dsimp only
  rw [hf]
  rfl

theorem Passes.andThen (hE : E.Lawful) {f : α → E.Parser β} (hp : Passes E p s) :
    Passes E (E.andThen f p) s := by
  rw [Passes, hE.andThen, hp]

theorem Refuses.andThen (hE : E.Lawful) {f : α → E.Parser β} (hp : Refuses E p s) :
    Refuses E (E.andThen f p) s := by
  obtain ⟨b, hp⟩ := hp
  refine ⟨b, ?_⟩
  rw [hE.andThen, hp]

theorem Refuses.andThen_of_takes (hE : E.Lawful) {f : α → E.Parser β} (hp : Takes E p s v s')
    (hf : Refuses E (f v) s') : Refuses E (E.andThen f p) s := by
  obtain ⟨b, hp⟩ := hp
  obtain ⟨b', hf⟩ := hf
  refine ⟨b || b', ?_⟩
  rw [hE.andThen, hp]
  dsimp only
  rw [hf]
  rfl

theorem Takes.ignore (hE : E.Lawful) (hp : Takes E p s v s') (hq : Takes E q s' w s'') :
    Takes E (E.ignore p q) s v s'' := by
  obtain ⟨b, hp⟩ := hp
  obtain ⟨b', hq⟩ := hq
  refine ⟨b || b', ?_⟩
  rw [hE.ignore, hp]
  dsimp only
  rw [hq]

theorem Refuses.ignore (hE : E.Lawful) (hp : Refuses E p s) (q : E.Parser β) :
    Refuses E (E.ignore p q) s := by
  obtain ⟨b, hp⟩ := hp
  refine ⟨b, ?_⟩
  rw [hE.ignore, hp]

theorem Refuses.ignore_of_takes (hE : E.Lawful) (hp : Takes E p s v s') (hq : Refuses E q s') :
    Refuses E (E.ignore p q) s := by
  obtain ⟨b, hp⟩ := hp
  obtain ⟨b', hq⟩ := hq
  refine ⟨b || b', ?_⟩
  rw [hE.ignore, hp]
  dsimp only
  rw [hq]

theorem Takes.oneOf_head (hE : E.Lawful) (hp : Takes E p s v s') (ps : List (E.Parser α)) :
    Takes E (E.oneOf (p :: ps)) s v s' := by
  obtain ⟨b, hp⟩ := hp
  refine ⟨b, ?_⟩
  rw [hE.oneOf_cons, hp]

theorem Takes.oneOf_tail (hE : E.Lawful) {ps : List (E.Parser α)} (hp : Passes E p s)
    (hps : Takes E (E.oneOf ps) s v s') : Takes E (E.oneOf (p :: ps)) s v s' := by
  obtain ⟨b, hps⟩ := hps
  refine ⟨b, ?_⟩
  rw [hE.oneOf_cons, hp]
  exact hps

theorem Takes.backtrackable (hE : E.Lawful) (hp : Takes E p s v s') :
    Takes E (E.backtrackable p) s v s' := by
  obtain ⟨b, hp⟩ := hp
  refine ⟨false, ?_⟩
  rw [hE.backtrackable, hp]

theorem Passes.backtrackable (hE : E.Lawful) (hp : Passes E p s) :
    Passes E (E.backtrackable p) s := by
  rw [Passes, hE.backtrackable, hp]

theorem Takes.getChompedString (hE : E.Lawful) {t : List Char} (h : Takes E p (t ++ s) v s) :
    Takes E (E.getChompedString p) (t ++ s) t s := by
  obtain ⟨b, h⟩ := h
  refine ⟨b, ?_⟩
  rw [hE.getChompedString, h]
  dsimp only
  rw [List.length_append, Nat.add_sub_cancel, List.take_left]

theorem Refuses.getChompedString (hE : E.Lawful) (h : Refuses E p s) :
    Refuses E (E.getChompedString p) s := by
  obtain ⟨b, h⟩ := h
  refine ⟨b, ?_⟩
  rw [hE.getChompedString, h]

end

end ElmParser
