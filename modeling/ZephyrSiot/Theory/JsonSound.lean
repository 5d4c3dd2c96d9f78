import ZephyrSiot.Theory.JsonText

/-!
# What the JSON parser accepts

The parser of `JsonText` accepts no more than the texts of its results, up to white space: the
tokens of an accepted text are those of the rows (`parseArray_eq_some`), each of them is legal, and
the text is at least as long as the compact one. So no proper prefix of a compact text is read as
the same rows.
-/

namespace JsonText
open CStr

/-! ## Tokens -/

/-- What was read of a string is the start of a legal body. -/
def Mode.Started : Mode → Prop
  | .between => True
  | .inside acc => ∀ s, Body s → Body (acc.reverse ++ s)
  | .escaped acc => (∀ c s, c ∈ shortEscapes → Body s → Body (acc.reverse ++ c :: s)) ∧
      ∀ hs s, hs.length = 4 → (∀ c ∈ hs, IsHex c) → Body s → Body (acc.reverse ++ 0x75 :: (hs ++ s))
  | .digits n acc => ∀ hs s, hs.length = n + 1 → (∀ c ∈ hs, IsHex c) → Body s →
      Body (acc.reverse ++ (hs ++ s))

theorem Mode.started_between : Mode.between.Started := trivial

/-- The characters read of the token that is not complete. -/
def Mode.pending : Mode → Nat
  | .between => 0
  | .inside acc | .escaped acc | .digits _ acc => acc.length + 1

theorem Body.digits {hs s : Bytes} (hlen : hs.length = 4) (hhex : ∀ c ∈ hs, IsHex c) (h : Body s) :
    Body (backslash :: 0x75 :: (hs ++ s)) := by
  match hs, hlen with
  | [a, b, c, d], _ =>
    simp only [List.forall_mem_cons] at hhex
    exact .unicode hhex.1 hhex.2.1 hhex.2.2.1 hhex.2.2.2.1 h

theorem punctuation_eq_some {c : UInt8} {t : Token} (h : punctuation c = some t) :
    t.Legal ∧ t.text = [c] := by
  unfold punctuation at h
  repeat' split at h
  all_goals
    cases h
    try exact ⟨trivial, by subst c; rfl⟩

/-- The lexer makes legal tokens. -/
theorem lex_legal {mode : Mode} {s : Bytes} {ts : List Token} (hmode : mode.Started)
    (h : lex mode s = some ts) : ∀ t ∈ ts, t.Legal := by
  fun_induction lex mode s generalizing ts with
  | case1 => cases h; simp
  | case2 cs ih => exact ih (fun s hs => hs) h
  | case3 c cs _ _ ih => exact ih trivial h
  | case4 c cs _ _ t ht ih =>
    obtain ⟨us, hus, rfl⟩ := Option.map_eq_some_iff.mp h
    exact List.forall_mem_cons.mpr ⟨(punctuation_eq_some ht).1, ih trivial hus⟩
  | case6 acc cs ih =>
    obtain ⟨us, hus, rfl⟩ := Option.map_eq_some_iff.mp h
    have hbody : Body acc.reverse := by simpa using hmode [] .nil
    exact List.forall_mem_cons.mpr ⟨hbody, ih trivial hus⟩
  | case7 acc cs _ ih =>
    refine ih ⟨fun c s hc hs => ?_, fun hs s hlen hhex hbody => ?_⟩ h
    · rw [List.reverse_cons, List.append_assoc]
      exact hmode _ (.short hc hs)
    · rw [List.reverse_cons, List.append_assoc]
      exact hmode _ (.digits hlen hhex hbody)
  | case9 acc c cs hq hb hc ih =>
    refine ih (fun s hs => ?_) h
    rw [List.reverse_cons, List.append_assoc]
    exact hmode _ (.char hc hq hb hs)
  | case10 acc cs ih =>
    refine ih (fun hs s hlen hhex hbody => ?_) h
    rw [List.reverse_cons, List.append_assoc]
    exact hmode.2 hs s hlen hhex hbody
  | case11 acc c cs _ hc ih =>
    refine ih (fun s hs => ?_) h
    rw [List.reverse_cons, List.append_assoc]
    exact hmode.1 c s hc hs
  | case13 acc c cs hc ih =>
    refine ih (fun s hs => ?_) h
    rw [List.reverse_cons, List.append_assoc]
    exact hmode [c] s rfl (by simpa using hc) hs
  | case14 acc c cs hc n ih =>
    refine ih (fun hs s hlen hhex hbody => ?_) h
    rw [List.reverse_cons, List.append_assoc]
    exact hmode (c :: hs) s (by rw [List.length_cons, hlen])
      (List.forall_mem_cons.mpr ⟨hc, hhex⟩) hbody
  | case5 | case8 | case12 | case15 | case16 => cases h

/-- The tokens stand for no more text than was read. -/
theorem length_text_le {mode : Mode} {s : Bytes} {ts : List Token}
    (h : lex mode s = some ts) : (ts.flatMap Token.text).length ≤ mode.pending + s.length := by
  fun_induction lex mode s generalizing ts with
  | case1 => cases h; simp
  | case4 c cs _ _ t ht ih =>
    obtain ⟨us, hus, rfl⟩ := Option.map_eq_some_iff.mp h
    have := ih hus
    rw [List.flatMap_cons, (punctuation_eq_some ht).2]
    simp only [Mode.pending, List.length_append, List.length_cons, List.length_nil] at this ⊢
    omega
  | case6 acc cs ih =>
    obtain ⟨us, hus, rfl⟩ := Option.map_eq_some_iff.mp h
    have := ih hus
    rw [List.flatMap_cons, Token.text]
    simp only [Mode.pending, List.length_append, List.length_cons, List.length_reverse,
      List.length_nil] at this ⊢
    omega
  | case2 _ ih | case3 _ _ _ _ ih | case7 _ _ _ ih | case9 _ _ _ _ _ _ ih | case10 _ _ ih
  | case11 _ _ _ _ _ ih | case13 _ _ _ _ ih | case14 _ _ _ _ _ ih =>
    have := ih h
    simp only [Mode.pending, List.length_cons, List.length_nil] at this ⊢
    omega
  | case5 | case8 | case12 | case15 | case16 => cases h

/-! ## Rows -/

theorem parseMembers_sound {ts rest : List Token} {ms : Row}
    (h : parseMembers ts = some (ms, rest)) :
    ms ≠ [] ∧ ts = separated (ms.map Member.tokens) ++ .rbrace :: rest := by
  fun_induction parseMembers ts generalizing ms rest with
  | case1 name value ts ih =>
    obtain ⟨⟨ms, rest⟩, hms, he⟩ := Option.map_eq_some_iff.mp h
    obtain ⟨hne, rfl⟩ := ih hms
    cases he
    obtain ⟨m, ms, rfl⟩ := List.exists_cons_of_ne_nil hne
    exact ⟨List.cons_ne_nil _ _, rfl⟩
  | case2 name value ts => cases h; exact ⟨List.cons_ne_nil _ _, rfl⟩
  | case3 => cases h

theorem parseRow_sound {ts rest : List Token} {ms : Row} (h : parseRow ts = some (ms, rest)) :
    ts = objectTokens ms ++ rest := by
  unfold parseRow at h
  split at h
  · cases h; rfl
  · obtain ⟨-, rfl⟩ := parseMembers_sound h
    simp [objectTokens]
  · cases h

theorem parseRows_sound {fuel : Nat} {ts : List Token} {rows : List Row}
    (h : parseRows fuel ts = some rows) :
    rows ≠ [] ∧ ts = separated (rows.map objectTokens) ++ [.rbracket] := by
  fun_induction parseRows fuel ts generalizing rows with
  | case1 => cases h
  | case2 ts fuel row us hrow ih =>
    obtain ⟨rows, hrows, rfl⟩ := Option.map_eq_some_iff.mp h
    obtain ⟨hne, rfl⟩ := ih hrows
    obtain ⟨row', rows, rfl⟩ := List.exists_cons_of_ne_nil hne
    refine ⟨List.cons_ne_nil _ _, ?_⟩
    rw [parseRow_sound hrow]
    simp [separated]
  | case3 ts fuel row hrow => cases h; exact ⟨List.cons_ne_nil _ _, parseRow_sound hrow⟩
  | case4 => cases h

theorem mem_separated {xs : List (List Token)} {x : List Token} (hx : x ∈ xs) {t : Token}
    (ht : t ∈ x) : t ∈ separated xs := by
  induction xs with
  | nil => cases hx
  | cons y xs ih =>
    cases xs with
    | nil => rwa [List.mem_singleton.mp hx] at ht
    | cons z xs =>
      rw [separated, List.mem_append, List.mem_cons]
      · rcases List.mem_cons.mp hx with rfl | hx
        · exact .inl ht
        · exact .inr (.inr (ih hx))
      · simp

theorem mem_arrayTokens {rows : List Row} {ms : Row} (hms : ms ∈ rows) {m : Member} (hm : m ∈ ms)
    {t : Token} (ht : t ∈ m.tokens) : t ∈ arrayTokens rows := by
  have hobject : t ∈ objectTokens ms := by
    rw [objectTokens, List.cons_append, List.mem_cons, List.mem_append]
    exact .inr (.inl (mem_separated (List.mem_map_of_mem hm) ht))
  rw [arrayTokens, List.cons_append, List.mem_cons, List.mem_append]
  exact .inr (.inl (mem_separated (List.mem_map_of_mem hms) hobject))

theorem legal_of_arrayTokens {rows : List Row} (h : ∀ t ∈ arrayTokens rows, t.Legal) :
    ∀ ms ∈ rows, ∀ m ∈ ms, m.Legal := by
  intro ms hms m hm
  refine ⟨h (.str m.name) (mem_arrayTokens hms hm ?_), h (.str m.value) (mem_arrayTokens hms hm ?_)⟩
  · exact List.mem_cons_self ..
  · exact List.mem_cons_of_mem _ (List.mem_cons_of_mem _ (List.mem_cons_self ..))

/-- The parser returns rows exactly when the text has their tokens. -/
theorem parseArray_eq_some {s : Bytes} {rows : List Row} :
    parseArray s = some rows ↔ lex .between s = some (arrayTokens rows) := by
  constructor
  · intro h
    unfold parseArray at h
    split at h
    · next hlex => cases h; exact hlex
    · next ts _ hlex =>
      obtain ⟨-, rfl⟩ := parseRows_sound h
      exact hlex
    · cases h
  · intro h
    have hlegal := lex_legal Mode.started_between h
    have hsame : parseArray s = parseArray (arrayText rows) := by
      rw [parseArray, parseArray, h, arrayText, lex_flatMap_text hlegal]
    rw [hsame, parseArray_arrayText (legal_of_arrayTokens hlegal)]

/-- **Soundness of the parser.** -/
theorem parseArray_sound {s : Bytes} {rows : List Row} (h : parseArray s = some rows) :
    (∀ ms ∈ rows, ∀ m ∈ ms, m.Legal) ∧ (arrayText rows).length ≤ s.length := by
  have hlex := parseArray_eq_some.mp h
  have hlen := length_text_le hlex
  rw [Mode.pending, Nat.zero_add] at hlen
  exact ⟨legal_of_arrayTokens (lex_legal Mode.started_between hlex), hlen⟩

/-- Of the prefixes of a compact text only the whole text is read as its rows. -/
theorem parseArray_prefix_iff {s : Bytes} {rows : List Row} (h : s <+: arrayText rows) :
    parseArray s = some rows ↔ s = arrayText rows ∧ ∀ ms ∈ rows, ∀ m ∈ ms, m.Legal := by
  constructor
  · intro hs
    obtain ⟨hlegal, hlen⟩ := parseArray_sound hs
    exact ⟨h.eq_of_length_le hlen, hlegal⟩
  · rintro ⟨rfl, hlegal⟩
    exact parseArray_arrayText hlegal

end JsonText
