import ZephyrSiot.Verify.ReportLine

/-!
# Reports, replayed as commands

A point that `point_emit` reports is replayed by giving the line to the shell with the verb `p`.
What `handle_sendpoint` then publishes is the point exactly when its type and key hold neither a
backslash nor, written bare, an apostrophe, and its data string passes both the shell and the JSON
decoder.
-/

namespace ZephyrSiot
open CStr ShellWords quoteField

/-! ## One field -/

/-- The value of a field: apostrophes of a bare one are taken for quotes. -/
def shown (f : Bytes) : Bytes :=
  if NeedsQuote f then value .inside f else f.filter (· ≠ apostrophe)

/-- A type or key that comes back. -/
abbrev FieldSafe (f : Bytes) : Prop := backslash ∉ f ∧ (NeedsQuote f ∨ apostrophe ∉ f)

/-- A data string that comes back. -/
abbrev DataSafe (d : Bytes) : Prop := BackslashPaired d ∧ (NeedsQuote d ∨ apostrophe ∉ d)

section
variable {f : Bytes} {args : List Bytes} {s : State}

theorem bare_of_not_needsQuote (h : ¬ NeedsQuote f) : f ≠ [] ∧ Bare f := by
  rw [NeedsQuote, not_or] at h
  refine ⟨h.1, fun c hc => ?_⟩
  have hno := not_exists.mp h.2 c
  simp only [hc, true_and, not_or] at hno
  obtain ⟨hspace, hquote, hbs, htab, hcr, hlf, hctl⟩ := hno
  refine ⟨?_, hbs, hquote⟩
  rintro (h | ⟨-, h⟩)
  · exact hspace h
  · exact hctl (UInt8.lt_of_le_of_lt h (by decide))

/-- A field is read whole, or a section stays open: of a double quote that the backslash before it
hides, or of an apostrophe. -/
theorem scan_rendering (f : Bytes) (args : List Bytes) :
    ∃ m, scan ⟨.plain, none, args⟩ (rendering f) = ⟨m, some (shown f), args⟩ ∧
      (m = .plain ∧ (NeedsQuote f → closes .inside f) ∨
        m = .inside quote ∧ NeedsQuote f ∧ closes .inside f = false ∨
        m = .inside apostrophe ∧ ¬ NeedsQuote f ∧ apostrophe ∈ f) := by
  unfold rendering shown
  split
  · next hq =>
    have hopen : scan ⟨.plain, none, args⟩ (quote :: escape f ++ [quote]) = _ :=
      scan_section (s := ⟨.inside quote, some [], args⟩) (m := .inside) rfl
    refine ⟨_, hopen, ?_⟩
    cases hclose : closes .inside f with
    | true => exact .inl ⟨rfl, fun _ => rfl⟩
    | false => exact .inr (.inl ⟨rfl, hq, rfl⟩)
  · next hq =>
    obtain ⟨hne, hbare⟩ := bare_of_not_needsQuote hq
    rcases Classical.em (apostrophe ∈ f) with hap | hap
    · obtain ⟨m, hm, hscan⟩ := scan_bare (s := ⟨.plain, none, args⟩) (.inl rfl) hbare hne
      refine ⟨m, hscan, ?_⟩
      rcases hm with rfl | rfl
      · exact .inl ⟨rfl, fun h => (hq h).elim⟩
      · exact .inr (.inr ⟨rfl, hq, hap⟩)
    · refine ⟨.plain, (scan_plain rfl hbare hap hne).trans ?_, .inl ⟨rfl, fun h => (hq h).elim⟩⟩
      rw [List.filter_eq_self.mpr fun c hc => by simpa using fun h : c = apostrophe => hap (h ▸ hc)]
      rfl

theorem shown_of_safe (hctl : ∀ c ∈ f, ¬ IsControl c) (h : FieldSafe f) : shown f = f := by
  unfold shown
  split
  · exact value_inside_eq hctl h.1
  · next hq =>
    exact List.filter_eq_self.mpr fun c hc => by
      simpa using fun e : c = apostrophe => h.2.resolve_left hq (e ▸ hc)

theorem length_filter_lt (h : apostrophe ∈ f) : (f.filter (· ≠ apostrophe)).length < f.length :=
  List.length_filter_lt_length_iff_exists.mpr ⟨_, h, by simp⟩

theorem scan_safe (hctl : ∀ c ∈ f, ¬ IsControl c) (h : FieldSafe f) :
    scan ⟨.plain, none, args⟩ (rendering f) = ⟨.plain, some f, args⟩ := by
  obtain ⟨m, hscan, hm⟩ := scan_rendering f args
  rcases hm with ⟨rfl, -⟩ | ⟨-, -, hopen⟩ | ⟨-, hq, hap⟩
  · rw [hscan, shown_of_safe hctl h]
  · rw [closes_inside h.1] at hopen
    cases hopen
  · exact absurd hap (h.2.resolve_left hq)

/-- The word that a type or a key becomes starts with it when the field is safe, or when a section
stays open. -/
theorem scan_field_cases (hctl : ∀ c ∈ f, ¬ IsControl c) {rest : Bytes} {ws : List Bytes}
    {w : Bytes}
    (hws : (scan (scan ⟨.plain, none, args⟩ (rendering f ++ [space])) rest).finish = some ws)
    (hw : ws[args.length]? = some w) (hpre : f <+: w) :
    FieldSafe f ∧
        scan ⟨.plain, none, args⟩ (rendering f ++ [space]) = ⟨.plain, none, args ++ [f]⟩ ∨
      ∃ word, scan ⟨.plain, none, args⟩ (rendering f ++ [space]) =
        ⟨.inside quote, some word, args⟩ := by
  obtain ⟨m, hscan, hm⟩ := scan_rendering f args
  rw [scan_append, hscan] at hws ⊢
  rcases hm with ⟨rfl, hclose⟩ | ⟨rfl, -, -⟩ | ⟨rfl, hq, hap⟩
  · left
    have hlast : scan ⟨.plain, some (shown f), args⟩ [space] =
        ⟨.plain, none, args ++ [shown f]⟩ := rfl
    rw [hlast] at hws ⊢
    have hshown : f <+: shown f := by
      have := getElem?_of_finish hws (i := args.length) (by simp)
      rw [hw, List.getElem?_append_right (Nat.le_refl _), Nat.sub_self] at this
      exact Option.some.inj this ▸ hpre
    have hsafe : FieldSafe f := by
      unfold shown at hshown
      split at hshown
      · next hq => exact ⟨(prefix_value_iff hctl (hclose hq)).mp hshown, .inl hq⟩
      · next hq =>
        refine ⟨fun hbs => ((bare_of_not_needsQuote hq).2 _ hbs).2.1 rfl, .inr fun hap => ?_⟩
        exact absurd hshown.length_le (Nat.not_le.mpr (length_filter_lt hap))
    exact ⟨hsafe, by rw [shown_of_safe hctl hsafe]⟩
  · right
    exact ⟨_, rfl⟩
  · -- the space behind the field is put into the word, and the field holds none
    exfalso
    have hlast : scan ⟨.inside apostrophe, some (shown f), args⟩ [space] =
        ⟨.inside apostrophe, some (shown f ++ [space]), args⟩ := rfl
    rw [hlast] at hws
    obtain ⟨w', hw', hgrow⟩ := grows_scan
      ⟨.inside apostrophe, some (shown f ++ [space]), args⟩ rest args.length (shown f ++ [space])
      (by simp [State.words])
    obtain rfl : w = w' := by
      rw [← words_of_finish hws] at hw
      exact Option.some.inj (hw.symm.trans hw')
    have hlen := length_filter_lt hap
    have hprefix : shown f ++ [space] <+: f := by
      refine List.prefix_of_prefix_length_le hgrow hpre ?_
      rw [shown, if_neg hq, List.length_append]
      exact hlen
    have hspace : space ∈ f := hprefix.subset (by simp)
    exact ((bare_of_not_needsQuote hq).2 _ hspace).1 (.inl rfl)

/-! ## Sections that stay open -/

/-- The text behind the last field: at most one word, without quotes. -/
structure Stamp (t : Bytes) : Prop where
  quote : quote ∉ t
  apostrophe : apostrophe ∉ t
  spaces : t.countP (IsSpace ·) ≤ 1

/-- What a quoted field does outside of double quotes. -/
theorem scan_escape_outside {w : Bytes}
    (h : s.mode = .plain ∨ s.mode.openQuote = some apostrophe) :
    (scan s (escape w)).mode = .plain ∨ (scan s (escape w)).mode.openQuote = some apostrophe := by
  induction w generalizing s with
  | nil => exact h
  | cons c w ih =>
    rw [escape_cons, scan_append]
    refine ih ?_
    have hpair (e : UInt8) (he : e ≠ apostrophe) : (scan s [backslash, e]).mode = .plain ∨
        (scan s [backslash, e]).mode.openQuote = some apostrophe := by
      rcases h with h | h
      · left
        change ((s.step backslash).step e).mode = _
        rw [State.step.eq_def s, h]
        rfl
      · exact .inr (scan_of_open h (by simpa using ⟨by decide, he.symm⟩)).1
    rcases escapeOne_cases c with ⟨-, he⟩ | ⟨-, he⟩ | ⟨-, e, hmem, he⟩ | ⟨⟨hbs, hq⟩, he⟩
    · exact he ▸ hpair _ (by decide)
    · exact he ▸ hpair _ (by decide)
    · refine he ▸ hpair _ ?_
      rintro rfl
      revert hmem
      decide
    · rw [he]
      change (s.step c).mode = _ ∨ (s.step c).mode.openQuote = _
      rcases h with h | h
      · rw [State.step, h]
        dsimp only
        rw [if_neg hbs]
        split
        · exact .inl rfl
        split
        · next hquote =>
          obtain rfl := hquote.resolve_left hq
          exact .inr rfl
        · exact .inl h
      · rcases eq_or_ne c apostrophe with rfl | hap
        · exact step_of_open_self h
        · exact .inr (step_of_open h hap).1

/-- A quoted field that is read from outside of double quotes leaves a section open. -/
theorem finish_escape_outside (h : s.mode = .plain ∨ s.mode.openQuote = some apostrophe)
    {stamp : Bytes} (hstamp : Stamp stamp) (w : Bytes) :
    (scan s (escape w ++ quote :: stamp)).finish = none := by
  rw [scan_append]
  change (scan ((scan s (escape w)).step quote) stamp).finish = none
  rcases scan_escape_outside h with h | h
  · have hopen : ((scan s (escape w)).step quote).mode.openQuote = some quote := by
      rw [State.step, h]
      rfl
    exact finish_scan_of_open hopen hstamp.quote
  · exact finish_scan_of_open (step_of_open h (by decide)).1 hstamp.apostrophe

theorem rendering_of_needsQuote (h : NeedsQuote f) (t : Bytes) :
    rendering f ++ t = quote :: (escape f ++ quote :: t) := by
  rw [rendering, if_pos h, List.append_assoc]
  rfl

/-- A last field that is read in a section of the double quote. -/
theorem finish_rendering_inside (h : s.mode = .inside quote) {stamp : Bytes}
    (hstamp : Stamp stamp) (f : Bytes) : (scan s (rendering f ++ stamp)).finish = none := by
  rcases Classical.em (NeedsQuote f) with hq | hq
  · rw [rendering_of_needsQuote hq]
    refine finish_escape_outside (s := s.step quote) (.inl ?_) hstamp f
    rw [step_inside h, State.readInside, if_pos rfl]
  · rw [rendering, if_neg hq]
    refine finish_scan_of_open (q := quote) (by rw [h]; rfl) ?_
    rw [List.mem_append, not_or]
    exact ⟨fun hmem => ((bare_of_not_needsQuote hq).2 _ hmem).2.2 rfl, hstamp.quote⟩

/-- Text without quotes and backslashes keeps a section as it is. -/
theorem mode_scan_inside (h : s.mode = .inside quote) {t : Bytes} (hq : quote ∉ t)
    (hbs : backslash ∉ t) : (scan s t).mode = .inside quote := by
  rcases eq_or_ne t [] with rfl | hne
  · exact h
  · rw [scan_inside h hq hbs hne]
    exact h

theorem weight_escape (w : Bytes) : weight (escape w) = weight w := by
  induction w with
  | nil => rfl
  | cons c w ih =>
    rw [escape_cons, weight_append, ih, ← List.singleton_append, weight_append]
    congr 1
    rcases escapeOne_cases c with ⟨rfl, he⟩ | ⟨rfl, he⟩ | ⟨hctl, e, hmem, he⟩ | ⟨-, he⟩
    · rw [he]
      rfl
    · rw [he]
      rfl
    · have hc : weight [c] = 1 := weight_cons (hctl.ne (by decide)) (w := [])
      rw [he, hc, weight_backslash_cons]
      refine weight_cons (w := []) ?_
      rintro rfl
      revert hmem
      decide
    · rw [he]

/-- What stands between the key and the data string. -/
abbrev textCode : Bytes := space :: pointDataTypeStringS ++ [space]

/-- The words of a key that is read from outside of a section are too light to be the key. -/
theorem length_args_escape_le {verb word k w : Bytes} (hk : k <+: w) {line : Bytes}
    {ws : List Bytes} (hws : (scan (scan ⟨.plain, some word, [verb]⟩ (escape k)) line).finish = some ws)
    (hw : ws[2]? = some w) :
    (scan ⟨.plain, some word, [verb]⟩ (escape k)).args.length ≤ 2 := by
  by_contra hlen
  have hle := weight_scan_le ⟨.plain, some word, [verb]⟩ (escape k)
  have hgrow := grows_scan ⟨.plain, some word, [verb]⟩ (escape k)
  generalize scan ⟨.plain, some word, [verb]⟩ (escape k) = t at hws hlen hle hgrow
  obtain ⟨mode, last, args⟩ := t
  obtain ⟨a0, a1, a2, args, rfl⟩ : ∃ a0 a1 a2 rest, args = a0 :: a1 :: a2 :: rest := by
    match args, Nat.lt_of_not_le hlen with
    | a0 :: a1 :: a2 :: rest, _ => exact ⟨a0, a1, a2, rest, rfl⟩
  obtain rfl : a2 = w :=
    Option.some.inj ((getElem?_of_finish hws (i := 2) (by simp)).symm.trans hw)
  have hverb : verb <+: a0 := by
    obtain ⟨w', hw', hpre⟩ := hgrow 0 verb rfl
    exact Option.some.inj hw' ▸ hpre
  have hword : word <+: a1 := by
    obtain ⟨w', hw', hpre⟩ := hgrow 1 word rfl
    exact Option.some.inj hw' ▸ hpre
  have h0 : weight verb ≤ weight a0 := hverb.sublist.countP_le
  have h1 : weight word ≤ weight a1 := hword.sublist.countP_le
  have h2 : weight k ≤ weight a2 := hk.sublist.countP_le
  have hsettled : weight a0 + weight a1 + weight a2 + 3 ≤
      State.settled ⟨mode, last, a0 :: a1 :: a2 :: args⟩ := by
    simp only [State.settled, List.map_cons, List.sum_cons, List.length_cons]
    omega
  have hweight := hsettled.trans (Nat.le_add_right _ _) |>.trans hle
  rw [weight_escape] at hweight
  simp only [State.weight, State.settled, List.map_cons, List.map_nil, List.sum_cons,
    List.sum_nil, List.length_cons, List.length_nil, Option.getD_some] at hweight
  omega

/-- Behind a section that stays open, a data string ends at most two words. -/
theorem length_le_of_open {t : State} (hopen : t.mode.openQuote = some apostrophe)
    {stamp d : Bytes} (hstamp : Stamp stamp) {ws : List Bytes}
    (hws : (scan t (rendering d ++ stamp)).finish = some ws) : ws.length ≤ t.args.length + 2 := by
  rcases Classical.em (NeedsQuote d) with hq | hq
  · rw [rendering_of_needsQuote hq] at hws
    have hopen' := (step_of_open hopen (c := quote) (by decide)).1
    have hnone := finish_escape_outside (.inr hopen') hstamp d
    rw [scan, Machine.run_cons, ← scan, hnone] at hws
    cases hws
  · have hnone : (rendering d).countP (IsSpace ·) = 0 := by
      rw [rendering, if_neg hq, List.countP_eq_zero]
      intro c hc
      simpa using ((bare_of_not_needsQuote hq).2 c hc).1
    have hle := length_args_scan_le t (rendering d ++ stamp)
    have hspaces := hstamp.spaces
    rw [List.countP_append, hnone] at hle
    have hwords := congrArg List.length (words_of_finish hws)
    rw [State.words, List.length_append] at hwords
    have hlast : (scan t (rendering d ++ stamp)).word.toList.length ≤ 1 := Option.length_toList_le
    omega

/-- A type that leaves its section open. The key or the data string then leaves one open too, or
there are too few words. -/
theorem not_replays_inside {verb word k d stamp w : Bytes} {ws : List Bytes} (hstamp : Stamp stamp)
    (hws : (scan ⟨.inside quote, some word, [verb]⟩
      (rendering k ++ (textCode ++ (rendering d ++ stamp)))).finish = some ws)
    (hlen : 5 ≤ ws.length) (hw : ws[2]? = some w) (hk : k <+: w) : False := by
  have hlast {s : State} (h : s.mode = .inside quote) :
      (scan s (textCode ++ (rendering d ++ stamp))).finish = none := by
    rw [scan_append]
    exact finish_rendering_inside (mode_scan_inside h (by decide) (by decide)) hstamp d
  rcases Classical.em (NeedsQuote k) with hq | hq
  · rw [rendering_of_needsQuote hq] at hws
    change (scan ⟨.plain, some (word ++ []), [verb]⟩
      (escape k ++ quote :: (textCode ++ (rendering d ++ stamp)))).finish = some ws at hws
    rw [List.append_nil, scan_append] at hws
    have hargs := length_args_escape_le hk hws hw
    have hmode := scan_escape_outside (s := ⟨.plain, some word, [verb]⟩) (.inl rfl) (w := k)
    generalize scan ⟨.plain, some word, [verb]⟩ (escape k) = t at hws hargs hmode
    rw [scan, Machine.run_cons, ← scan] at hws
    rcases hmode with hmode | hopen
    · have : (t.step quote).mode = .inside quote := by
        rw [State.step, hmode]
        rfl
      rw [hlast this] at hws
      cases hws
    · obtain ⟨hopen1, hargs1⟩ := step_of_open hopen (c := quote) (by decide)
      obtain ⟨hopen2, hargs2⟩ := scan_of_open hopen1 (by decide : apostrophe ∉ textCode)
      rw [scan_append] at hws
      have hwords := length_le_of_open hopen2 hstamp hws
      rw [hargs2, hargs1] at hwords
      omega
  · have hbare := (bare_of_not_needsQuote hq).2
    have : (scan ⟨.inside quote, some word, [verb]⟩ (rendering k)).mode = .inside quote := by
      rw [rendering, if_neg hq]
      exact mode_scan_inside rfl (fun h => (hbare _ h).2.2 rfl) fun h => (hbare _ h).2.1 rfl
    rw [scan_append, hlast this] at hws
    cases hws

end

/-! ## The data string -/

section
variable {d : Bytes}

/-- Paired backslashes leave none at the end. -/
theorem BackslashPaired.closes (h : BackslashPaired d) : closes .inside d := by
  cases d using List.reverseRecOn with
  | nil => rfl
  | append_singleton d c =>
    have hc : c ≠ backslash := by
      rintro rfl
      have := h d.length (by simp)
      simp at this
    simpa [ZephyrSiot.closes] using hc

theorem loop_shown_iff (h0 : 0 ∉ d) (hctl : ∀ c ∈ d, IsControl c → c = cr ∨ c = lf ∨ c = tab)
    (hlen : d.length < 20) (hclose : NeedsQuote d → closes .inside d) :
    jsonUnescapeString.loop 20 (cstr (shown d)) 0 = d ↔ DataSafe d := by
  rw [loop_cstr, DataSafe, shown]
  split
  · next hq =>
    rw [loop_value_iff h0 hctl (by omega) (hclose hq)]
    exact (and_iff_left (.inl hq)).symm
  · next hq =>
    have hbs : backslash ∉ d := fun h => ((bare_of_not_needsQuote hq).2 _ h).2.1 rfl
    have hpaired : BackslashPaired d := fun i hi =>
      (hbs (List.mem_of_getElem? hi)).elim
    have hmem {c : UInt8} (hc : c ∉ d) : c ∉ d.filter (· ≠ apostrophe) :=
      fun h => hc (List.mem_of_mem_filter h)
    have hfilter : (d.filter (· ≠ apostrophe)).length ≤ d.length := List.length_filter_le ..
    rw [jsonUnescapeString.loop_ordinary (n := 19) (hmem h0) (hmem hbs) rfl,
      List.take_of_length_le (by omega), and_iff_right hpaired, or_iff_right hq]
    refine ⟨fun h hap => ?_, fun hap => ?_⟩
    · exact absurd (congrArg List.length h) (length_filter_lt hap).ne
    · exact List.filter_eq_self.mpr fun c hc => by
        simpa using fun e : c = apostrophe => hap (e ▸ hc)

end

/-! ## The line -/

/-- A point that is reported: a terminated text point with a type and a key, and no control
characters but tabs and line ends in its data. -/
structure Reported (p : Point) : Prop where
  dataType : p.dataType = pointDataTypeString
  type : p.type.Terminated ∧ p.type.str ≠ [] ∧ ∀ c ∈ p.type.str, ¬ IsControl c
  key : p.key.Terminated ∧ p.key.str ≠ [] ∧ ∀ c ∈ p.key.str, ¬ IsControl c
  data : p.data.Terminated ∧ ∀ c ∈ p.data.str, IsControl c → c = cr ∨ c = lf ∨ c = tab
  time : p.time = 0 ∨ pointTimeMin ≤ p.time

/-- What is printed behind the data string. -/
def StampOf (timegm : Tm → Int) (t : UInt64) (stamp : Bytes) : Prop :=
  t = 0 ∧ stamp = [] ∨
    t ≠ 0 ∧ ∃ text, stamp = space :: text ∧ text ≠ [] ∧ (∀ c ∈ text, IsDigit c ∨ TimeMark c) ∧
      timeconvEpochNsFromRfc3339 timegm text text.length = t

/-- What is printed behind the verb. -/
def fields (p : Point) (stamp : Bytes) : Bytes :=
  rendering p.type.str ++ ([space] ++ (rendering p.key.str ++ (textCode ++
    (rendering p.data.str ++ stamp))))

theorem Reported.textPoint {p : Point} (h : Reported p) : TextPoint p :=
  ⟨.inl h.dataType, h.type.1, h.key.1, h.data.1, h.time⟩

theorem pointEmit_reported {timegm : Tm → Int} (htimegm : IsTimegm timegm) {p : Point}
    (h : Reported p) :
    ∃ stamp, StampOf timegm p.time stamp ∧
      pointEmit true p = some (lit "pt " ++ fields p stamp) := by
  rw [h.textPoint.pointEmit, h.textPoint.reportFields, h.dataType]
  rcases Classical.em (p.time = 0) with ht | ht
  · refine ⟨[], .inl ⟨ht, rfl⟩, ?_⟩
    rw [if_pos ht]
    simp [List.intercalate_cons_cons, fields, lit, textDataTypeS]
  · obtain ⟨-, hlen, hchars, hparse⟩ := stampText_spec htimegm p.time
    have hne : stampText p.time ≠ [] := by
      intro hnil
      rw [hnil] at hlen
      cases hlen
    refine ⟨space :: stampText p.time, .inr ⟨ht, _, rfl, hne, hchars, hlen ▸ hparse⟩, ?_⟩
    rw [if_neg ht]
    simp [List.intercalate_cons_cons, fields, lit, textDataTypeS]

/-! ## Replaying -/

theorem time_char {c : UInt8} (h : IsDigit c ∨ TimeMark c) :
    ¬ IsSpace c ∧ c ≠ backslash ∧ c ≠ quote ∧ c ≠ apostrophe ∧ c ≠ 0 := by
  rcases h with ⟨h1, h2⟩ | h
  · refine ⟨?_, ?_, ?_, ?_, ?_⟩ <;> grind
  · simp only [TimeMark, List.mem_cons, List.not_mem_nil, or_false] at h
    rcases h with rfl | rfl | rfl | rfl | rfl <;> decide

section
variable {timegm : Tm → Int} {t : UInt64} {stamp : Bytes}

theorem StampOf.isStamp (h : StampOf timegm t stamp) : Stamp stamp := by
  rcases h with ⟨-, rfl⟩ | ⟨-, text, rfl, -, hchars, -⟩
  · exact ⟨List.not_mem_nil, List.not_mem_nil, Nat.zero_le _⟩
  · have hnone : text.countP (IsSpace ·) = 0 := by
      rw [List.countP_eq_zero]
      intro c hc
      simpa using (time_char (hchars c hc)).1
    refine ⟨fun hmem => ?_, fun hmem => ?_, ?_⟩
    · exact (time_char (hchars _ ((List.mem_cons.mp hmem).resolve_left (by decide)))).2.2.1 rfl
    · exact (time_char (hchars _ ((List.mem_cons.mp hmem).resolve_left (by decide)))).2.2.2.1 rfl
    · rw [List.countP_cons, hnone]
      split <;> decide

/-- The words behind the data string. -/
theorem finish_scan_stamp (h : StampOf timegm t stamp) (x : Bytes) (args : List Bytes) :
    ∃ tail, (scan ⟨.plain, some x, args⟩ stamp).finish = some (args ++ x :: tail) ∧
      (t = 0 ∧ tail = [] ∨ t ≠ 0 ∧ ∃ text, tail = [text] ∧
        timeconvEpochNsFromRfc3339 timegm text (cstr text).length = t) := by
  rcases h with ⟨ht, rfl⟩ | ⟨ht, text, rfl, hne, hchars, hparse⟩
  · exact ⟨[], rfl, .inl ⟨ht, rfl⟩⟩
  · have hbare : Bare text := fun c hc =>
      ⟨(time_char (hchars c hc)).1, (time_char (hchars c hc)).2.1, (time_char (hchars c hc)).2.2.1⟩
    have hap : apostrophe ∉ text := fun hc => (time_char (hchars _ hc)).2.2.2.1 rfl
    have h0 : 0 ∉ text := fun hc => (time_char (hchars _ hc)).2.2.2.2 rfl
    refine ⟨[text], ?_, .inr ⟨ht, text, rfl, (cstr_eq_self h0).symm ▸ hparse⟩⟩
    have : scan ⟨.plain, some x, args⟩ (space :: text) =
        scan ⟨.plain, none, args ++ [x]⟩ text := rfl
    rw [this, scan_plain rfl hbare hap hne]
    simp [State.finish, State.words, State.put]

end

/-- A type and a key that are safe are read as they are. -/
theorem scan_fields {p : Point} (h : Reported p) (htype : FieldSafe p.type.str)
    (hkey : FieldSafe p.key.str) (verb stamp : Bytes) :
    scan ⟨.plain, none, [verb]⟩ (fields p stamp) =
      scan (scan ⟨.plain, none, [verb, p.type.str, p.key.str, pointDataTypeStringS]⟩
        (rendering p.data.str)) stamp := by
  rw [fields, scan_append, scan_safe h.type.2.2 htype, scan_append]
  have hspace : scan ⟨.plain, some p.type.str, [verb]⟩ [space] =
      ⟨.plain, none, [verb, p.type.str]⟩ := rfl
  have hcode : scan ⟨.plain, some p.key.str, [verb, p.type.str]⟩ textCode =
      ⟨.plain, none, [verb, p.type.str, p.key.str, pointDataTypeStringS]⟩ := rfl
  rw [hspace, scan_append, scan_safe h.key.2.2 hkey, scan_append, hcode, scan_append]

/-- The point that is published has the text and the time of the one that was reported. -/
structure SamePoint (p q : Point) : Prop where
  type : q.type.str = p.type.str
  key : q.key.str = p.key.str
  dataType : q.dataType = p.dataType
  data : q.data.str = p.data.str
  time : q.time = p.time

/-- The shell splits a line into words by the rules of `ShellWords`. -/
def IsMakeArgv (makeArgv : Bytes → Option (List Bytes)) : Prop := ∀ line, makeArgv line = split line

/-- The line that reports a point, given to the shell with the verb `p`, publishes the point. -/
def Replays (timegm : Tm → Int) (makeArgv : Bytes → Option (List Bytes)) (p : Point) : Prop :=
  ∃ line argv q, pointEmit true p = some line ∧
    makeArgv (lit "p" ++ line.drop 2) = some argv ∧
      handleSendpoint timegm argv = (0, some q) ∧ SamePoint p q

section
variable {timegm : Tm → Int} {p : Point}

/-- The type and the key that are published are the words cut to the fields. -/
theorem prefix_of_handleSendpoint {argv : List Bytes} {q : Point}
    (h : handleSendpoint timegm argv = (0, some q)) :
    5 ≤ argv.length ∧ q.type.str <+: argv.getD 1 [] ∧ q.key.str <+: argv.getD 2 [] := by
  have hlen : 5 ≤ argv.length := by
    by_contra hlt
    rw [handleSendpoint, if_pos (Nat.lt_of_not_le hlt)] at h
    cases h
  have hcut (n : Nat) (w : Bytes) : (cstr w).take n <+: w :=
    (List.take_prefix ..).trans (List.takeWhile_prefix _)
  have hq : q.type = (commandPoint argv).type ∧ q.key = (commandPoint argv).key := by
    rw [handleSendpoint_eq timegm hlen] at h
    split at h
    · cases h
    split at h
    · dsimp only at h
      split at h
      · cases h
      · cases h
        exact ⟨rfl, rfl⟩
    · cases h
      exact ⟨rfl, rfl⟩
  rw [hq.1, hq.2]
  exact ⟨hlen, (copyStrField_str ..).symm ▸ hcut 23 _, (copyStrField_str ..).symm ▸ hcut 22 _⟩

/-- A line with a type and a key that come back has a safe type and a safe key. -/
theorem safe_of_finish (h : Reported p) {stamp verb : Bytes} (hstamp : Stamp stamp)
    {argv : List Bytes} (hargv : (scan ⟨.plain, none, [verb]⟩ (fields p stamp)).finish = some argv)
    (hlen : 5 ≤ argv.length) (htype : p.type.str <+: argv.getD 1 [])
    (hkey : p.key.str <+: argv.getD 2 []) : FieldSafe p.type.str ∧ FieldSafe p.key.str := by
  have hword (i : Nat) (hi : i < 5) : argv[i]? = some (argv.getD i []) := by
    rw [List.getD_eq_getElem?_getD, List.getElem?_eq_getElem (by omega)]
    rfl
  rw [fields, ← List.append_assoc, scan_append] at hargv
  rcases scan_field_cases h.type.2.2 hargv (hword 1 (by omega)) htype with
    ⟨hsafe, hscan⟩ | ⟨word, hscan⟩
  · refine ⟨hsafe, ?_⟩
    have hcode (s : Bytes) : rendering p.key.str ++ (textCode ++ s) =
        (rendering p.key.str ++ [space]) ++ ((pointDataTypeStringS ++ [space]) ++ s) := by
      simp [textCode]
    rw [hscan, hcode, scan_append, List.singleton_append] at hargv
    rcases scan_field_cases h.key.2.2 hargv (hword 2 (by omega)) hkey
      with ⟨hsafe, -⟩ | ⟨word, hscan⟩
    · exact hsafe
    · have hmode : (scan ⟨.inside quote, some word, [verb, p.type.str]⟩
          (pointDataTypeStringS ++ [space])).mode = .inside quote :=
        mode_scan_inside rfl (by decide) (by decide)
      rw [hscan, scan_append, finish_rendering_inside hmode hstamp] at hargv
      cases hargv
  · rw [hscan] at hargv
    exact (not_replays_inside hstamp hargv hlen (hword 2 (by omega)) hkey).elim

/-- What a line that is read with its type and key publishes is the point when the decoder makes its
data string of the word. -/
theorem handleSendpoint_words (h : Reported p) {x : Bytes} {tail : List Bytes}
    (htail : p.time = 0 ∧ tail = [] ∨ p.time ≠ 0 ∧ ∃ text, tail = [text] ∧
      timeconvEpochNsFromRfc3339 timegm text (cstr text).length = p.time) :
    ∃ q, handleSendpoint timegm
        ([lit "p", p.type.str, p.key.str, pointDataTypeStringS] ++ x :: tail) = (0, some q) ∧
      (SamePoint p q ↔ jsonUnescapeString.loop 20 (cstr x) 0 = p.data.str) := by
  let argv := [lit "p", p.type.str, p.key.str, pointDataTypeStringS] ++ x :: tail
  have hsame : SamePoint p { commandPoint argv with time := p.time } ↔
      jsonUnescapeString.loop 20 (cstr x) 0 = p.data.str := by
    have hdata := (decodedRun_text (.inl rfl : TextDataType pointDataTypeString)
      (CharArray.zero 20) (cstr x)).2
    rw [← hdata]
    refine ⟨fun hsame => hsame.data, fun hd => ⟨?_, ?_, h.dataType.symm, hd, rfl⟩⟩
    · refine (copyStrField_str (.zero 24) p.type.str).trans ?_
      rw [cstr_eq_self p.type.zero_notMem_str,
        List.take_of_length_le (Nat.le_of_lt_succ h.type.1.length_str_lt)]
    · refine (copyStrField_str (.zero 23) p.key.str).trans ?_
      rw [cstr_eq_self p.key.zero_notMem_str,
        List.take_of_length_le (Nat.le_of_lt_succ h.key.1.length_str_lt)]
  refine ⟨_, ?_, hsame⟩
  have hknown : ¬ (commandPoint argv).dataType = pointDataTypeUnknown := by
    change ¬ dataTypeOfCode pointDataTypeStringS = _
    decide
  rcases htail with ⟨ht, rfl⟩ | ⟨ht, text, rfl, hparse⟩
  · rw [handleSendpoint_eq timegm (by simp), if_neg hknown, if_neg (by simp)]
    rw [ht]
    rfl
  · rw [handleSendpoint_eq timegm (by simp), if_neg hknown, if_pos (by simp)]
    have harg : ([lit "p", p.type.str, p.key.str, pointDataTypeStringS] ++ [x, text]).getD 5 [] =
        text := rfl
    dsimp only
    rw [harg, hparse, if_neg ht]

/-- **Replay.** A report is replayed exactly when type, key and data string are safe. -/
theorem replays_iff (htimegm : IsTimegm timegm) {makeArgv : Bytes → Option (List Bytes)}
    (hmake : IsMakeArgv makeArgv) (h : Reported p) :
    Replays timegm makeArgv p ↔
      FieldSafe p.type.str ∧ FieldSafe p.key.str ∧ DataSafe p.data.str := by
  obtain ⟨stamp, hstamp, hemit⟩ := pointEmit_reported htimegm h
  have hsplit : makeArgv (lit "p" ++ (lit "pt " ++ fields p stamp).drop 2) =
      (scan ⟨.plain, none, [lit "p"]⟩ (fields p stamp)).finish := hmake _
  obtain ⟨m, hscan, hm⟩ := scan_rendering p.data.str
    [lit "p", p.type.str, p.key.str, pointDataTypeStringS]
  obtain ⟨tail, hfinish, htail⟩ := finish_scan_stamp hstamp (shown p.data.str)
    [lit "p", p.type.str, p.key.str, pointDataTypeStringS]
  constructor
  · rintro ⟨line, argv, q, hline, hargv, hsend, hsame⟩
    obtain rfl := Option.some.inj (hline.symm.trans hemit)
    obtain ⟨hlen, htype, hkey⟩ := prefix_of_handleSendpoint hsend
    rw [hsplit] at hargv
    obtain ⟨htype, hkey⟩ := safe_of_finish h hstamp.isStamp hargv hlen (hsame.type ▸ htype)
      (hsame.key ▸ hkey)
    refine ⟨htype, hkey, ?_⟩
    rw [scan_fields h htype hkey, hscan] at hargv
    rcases hm with ⟨rfl, hclose⟩ | ⟨rfl, -, -⟩ | ⟨rfl, -, -⟩
    · obtain rfl := Option.some.inj (hfinish.symm.trans hargv)
      obtain ⟨q', hsend', hiff⟩ := handleSendpoint_words h htail
      obtain rfl : q' = q := by
        rw [hsend'] at hsend
        exact Option.some.inj (Prod.ext_iff.mp hsend).2
      exact (loop_shown_iff p.data.zero_notMem_str h.data.2 h.data.1.length_str_lt hclose).mp
        (hiff.mp hsame)
    · rw [finish_scan_of_open (q := quote) rfl hstamp.isStamp.quote] at hargv
      cases hargv
    · rw [finish_scan_of_open (q := apostrophe) rfl hstamp.isStamp.apostrophe] at hargv
      cases hargv
  · rintro ⟨htype, hkey, hdata⟩
    obtain ⟨rfl, hclose⟩ : m = .plain ∧ (NeedsQuote p.data.str → closes .inside p.data.str) := by
      rcases hm with hplain | ⟨-, -, hopen⟩ | ⟨-, hq, hap⟩
      · exact hplain
      · rw [hdata.1.closes] at hopen
        cases hopen
      · exact absurd hap (hdata.2.resolve_left hq)
    obtain ⟨q, hsend, hiff⟩ := handleSendpoint_words h htail
    refine ⟨_, _, q, hemit, ?_, hsend, hiff.mpr ?_⟩
    · rw [hsplit, scan_fields h htype hkey, hscan, hfinish]
    · exact (loop_shown_iff p.data.zero_notMem_str h.data.2 h.data.1.length_str_lt hclose).mpr hdata

end

theorem replays_escapes :
    Replays gregorianTimegm split { (Point.zero.setTypeKey (lit "say it") (lit "0")).putString
      (lit "it's \"a\" \\/ b") with time := pointTimeMin + 1 } :=
  (replays_iff isTimegm_gregorian (fun _ => rfl)
    ⟨rfl, by decide, by decide, by decide, by decide⟩).mpr (by decide)

/-- A data string that is one backslash is reported, and the shell finds no end of its quotes. -/
theorem not_replays_backslash :
    Reported backslashPoint ∧ pointEmit true backslashPoint =
        some (lit "pt description 0 STR \"\\\\\"") ∧
      ¬ Replays gregorianTimegm split backslashPoint := by
  have hemit : pointEmit true backslashPoint = some (lit "pt description 0 STR \"\\\\\"") := by
    decide
  refine ⟨⟨rfl, by decide, by decide, by decide, .inl rfl⟩, hemit, ?_⟩
  rintro ⟨line, argv, q, hline, hargv, -, -⟩
  obtain rfl := Option.some.inj (hline.symm.trans hemit)
  have hsplit : split (lit "p" ++ (lit "pt description 0 STR \"\\\\\"").drop 2) = none := by decide
  rw [hsplit] at hargv
  cases hargv

end ZephyrSiot
