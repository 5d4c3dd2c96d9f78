import ZephyrSiot.PointJson
import Mathlib.Data.List.Induction

/-!
# The JSON round trip of text points

An array of points written by `points_json_encode` and read back by `points_json_decode`. What
comes back of a data string is decided by the two escaping loops alone
(`unescape_escape_iff`): the decoder takes the second backslash of an escaped backslash for the
start of another escape, so a backslash survives only in front of a slash, or where the end of
the field hides what follows.
-/

namespace ZephyrSiot
open CStr JsonText

/-! ## The decoder's loop -/

namespace jsonUnescapeString

variable {dstLen di n : Nat}

theorem loop_full (h : dstLen ≤ di + 1) (src : Bytes) : loop dstLen src di = [] := by
  fun_cases loop dstLen src di <;> first | rfl | omega

theorem loop_cons {c : UInt8} (h0 : c ≠ 0) (hb : c ≠ backslash) (hdi : di + 1 < dstLen)
    (src : Bytes) : loop dstLen (c :: src) di = c :: loop dstLen src (di + 1) := by
  cases src with
  | nil => simp only [loop, if_neg h0, if_neg (Nat.not_le.mpr hdi)]
  | cons next src => rw [loop, if_neg h0, if_neg hb, if_neg (by omega)]

/-- Text without escapes is cut to the room there is. -/
theorem loop_ordinary {src : Bytes} (h0 : 0 ∉ src) (hb : backslash ∉ src)
    (hn : di + n + 1 = dstLen) : loop dstLen src di = src.take n := by
  induction src generalizing di n with
  | nil => simp [loop]
  | cons c src ih =>
    rw [List.mem_cons, not_or] at h0 hb
    cases n with
    | zero => rw [loop_full (by omega)]; rfl
    | succ n =>
      rw [loop_cons (Ne.symm h0.1) (Ne.symm hb.1) (by omega), ih (n := n) h0.2 hb.2 (by omega),
        List.take_succ_cons]

theorem loop_backslash (hdi : di + 1 < dstLen) {next : UInt8} (hnext : decode next ≠ backslash)
    (src : Bytes) :
    loop dstLen (backslash :: next :: src) di = decode next :: loop dstLen src (di + 1) := by
  rw [loop, if_neg (by decide), if_pos rfl]
  dsimp only
  rw [if_neg (by omega), if_pos hnext]

theorem loop_backslash_unknown (hdi : di + 1 < dstLen) {next : UInt8}
    (hnext : decode next = backslash) (src : Bytes) :
    loop dstLen (backslash :: next :: src) di =
      backslash :: loop dstLen (next :: src) (di + 1) := by
  rw [loop, if_neg (by decide), if_pos rfl]
  dsimp only
  rw [if_neg (by omega), if_neg (not_not.mpr hnext), hnext]

/-- Only the quote, the backslash and the slash are decoded to themselves. -/
theorem decode_ne {c : UInt8} (hq : c ≠ quote) (hbs : c ≠ backslash) (hs : c ≠ slash) :
    decode c ≠ c := by
  unfold decode
  rw [if_neg (by simp [hq, hbs, hs])]
  split
  · next h => rw [h]; decide
  · repeat' split
    all_goals first | exact hbs.symm | next h => rw [h]; decide

/-- Behind a single backslash no other character comes back. -/
theorem loop_backslash_ne {c : UInt8} (hdi : di + 1 < dstLen) (hq : c ≠ quote)
    (hbs : c ≠ backslash) (hs : c ≠ slash) (src t : Bytes) :
    loop dstLen (backslash :: c :: src) di ≠ c :: t := by
  intro h
  rcases eq_or_ne (decode c) backslash with hdec | hdec
  · rw [loop_backslash_unknown hdi hdec] at h
    exact hbs (List.cons.inj h).1.symm
  · rw [loop_backslash hdi hdec] at h
    exact decode_ne hq hbs hs (List.cons.inj h).1

/-- A run of backslashes is copied. -/
theorem loop_replicate (hn : di + n + 1 = dstLen) (k : Nat) :
    loop dstLen (.replicate k backslash) di = .replicate (min k n) backslash := by
  induction k generalizing di n with
  | zero => simp [loop]
  | succ k ih =>
    cases n with
    | zero => rw [loop_full (by omega), Nat.min_zero]; rfl
    | succ n =>
      cases k with
      | zero =>
        change loop dstLen [backslash] di = _
        rw [loop, if_neg (by decide), if_neg (by omega), Nat.zero_add, Nat.min_eq_left (by omega)]
        rfl
      | succ k =>
        rw [List.replicate_succ, List.replicate_succ, loop_backslash_unknown (by omega) rfl,
          ← List.replicate_succ, ih (n := n) (by omega), Nat.succ_min_succ]
        rfl

/-- Whatever follows it, all but the last backslash of a run are copied. -/
theorem exists_loop_replicate_append (hn : di + n + 1 = dstLen) (k : Nat) (src : Bytes) :
    ∃ t, loop dstLen (.replicate k backslash ++ backslash :: src) di =
      .replicate (min k n) backslash ++ t := by
  induction k generalizing di n with
  | zero => exact ⟨_, by rw [Nat.zero_min]; rfl⟩
  | succ k ih =>
    cases n with
    | zero => exact ⟨[], by rw [loop_full (by omega), Nat.min_zero]; rfl⟩
    | succ n =>
      obtain ⟨t, ht⟩ := ih (by omega : di + 1 + n + 1 = dstLen)
      refine ⟨t, ?_⟩
      rw [Nat.succ_min_succ, List.replicate_succ, List.replicate_succ, List.cons_append,
        List.cons_append, ← ht]
      cases k <;> exact loop_backslash_unknown (by omega) rfl _

end jsonUnescapeString

open jsonUnescapeString

/-- A string is a run of backslashes and a rest that starts with none. -/
theorem exists_eq_replicate_append (s : Bytes) :
    ∃ k t, s = List.replicate k backslash ++ t ∧ t.head? ≠ some backslash := by
  induction s with
  | nil => exact ⟨0, [], rfl, by simp⟩
  | cons c s ih =>
    by_cases hc : c = backslash
    · obtain ⟨k, t, rfl, ht⟩ := ih
      exact ⟨k + 1, t, by rw [hc]; rfl, ht⟩
    · exact ⟨0, c :: s, rfl, by simpa using hc⟩

theorem escape_replicate_append (k : Nat) (s : Bytes) :
    escape (.replicate k backslash ++ s) = .replicate (2 * k) backslash ++ escape s := by
  induction k with
  | zero => simp
  | succ k ih =>
    rw [List.replicate_succ, List.cons_append, escape_cons, ih, escapeChar_special (.inr rfl)]
    rfl

/-! ## Which strings survive -/

/-- The strings of at most `n` characters that a field with room for `n` gets back: every
backslash stands in front of a slash, or among the backslashes that end a string of `n`. -/
def Survives (n : Nat) (s : Bytes) : Prop :=
  ∀ i, s[i]? = some backslash →
    s[i + 1]? = some slash ∨ s.length = n ∧ ∀ c ∈ s.drop i, c = backslash

instance (n : Nat) (s : Bytes) : Decidable (Survives n s) :=
  decidable_of_iff (∀ i < s.length, s[i]? = some backslash →
      s[i + 1]? = some slash ∨ s.length = n ∧ ∀ c ∈ s.drop i, c = backslash)
    ⟨fun h i hi => h i (List.getElem?_eq_some_iff.mp hi).1 hi, fun h i _ => h i⟩

theorem survives_cons {c : UInt8} {s : Bytes} {n : Nat} :
    Survives (n + 1) (c :: s) ↔
      (c = backslash → s.head? = some slash ∨ s.length = n ∧ ∀ d ∈ s, d = backslash) ∧
        Survives n s := by
  constructor
  · intro h
    refine ⟨fun hc => ?_, fun i hi => ?_⟩
    · have := h 0 (by simpa using hc)
      simpa [List.head?_eq_getElem?, hc] using this
    · simpa using h (i + 1) (by simpa using hi)
  · rintro ⟨hhead, htail⟩ (_ | i) hi
    · have hc : c = backslash := by simpa using hi
      simpa [List.head?_eq_getElem?, hc] using hhead hc
    · simpa using htail i (by simpa using hi)

theorem survives_of_all {s : Bytes} {n : Nat} (hlen : s.length = n)
    (h : ∀ c ∈ s, c = backslash) : Survives n s :=
  fun _ _ => .inr ⟨hlen, fun c hc => h c (List.mem_of_mem_drop hc)⟩

private theorem loop_escape_cons {dstLen di : Nat} {c : UInt8} (h0 : c ≠ 0) (hb : c ≠ backslash)
    (hdi : di + 1 < dstLen) (s : Bytes) :
    loop dstLen (escape (c :: s)) di = c :: loop dstLen (escape s) (di + 1) := by
  rw [escape_cons]
  by_cases hq : c = quote
  · rw [hq, escapeChar_special (.inl rfl)]
    exact loop_backslash hdi (by decide) _
  · rw [escapeChar_ordinary (by simp [hq, hb])]
    exact loop_cons h0 hb hdi _

/-- Behind an escaped backslash, characters that start with none. -/
theorem loop_backslash_escape_of_head {dstLen di n : Nat} (hn : di + n + 1 = dstLen) {t : Bytes}
    (h0 : 0 ∉ t) (hlen : t.length ≤ n) (ht : t.head? ≠ some backslash) :
    loop dstLen (backslash :: escape t) di = t ↔
      (t.head? = some slash ∧ loop dstLen (escape t.tail) (di + 1) = t.tail) ∨
        t.length = n ∧ ∀ c ∈ t, c = backslash := by
  cases t with
  | nil =>
    -- the lone backslash is copied unless the field is full
    have := loop_replicate hn 1
    simp only [List.replicate_one] at this
    rw [escape_nil, this]
    cases n <;> simp
  | cons d t =>
    obtain ⟨m, rfl⟩ : ∃ m, n = m + 1 := ⟨n - 1, by simp at hlen; omega⟩
    have hd0 : d ≠ 0 := fun e => h0 (e ▸ List.mem_cons_self)
    have hdb : d ≠ backslash := by simpa using ht
    have hall : ¬ ((d :: t).length = m + 1 ∧ ∀ c ∈ d :: t, c = backslash) :=
      fun h => hdb (h.2 d List.mem_cons_self)
    rw [or_iff_left hall, List.head?_cons, Option.some.injEq, List.tail_cons]
    by_cases hq : d = quote
    · subst hq
      have hne : ¬ quote = slash := by decide
      rw [escape_cons, escapeChar_special (.inl rfl), List.cons_append,
        loop_backslash_unknown (by omega) rfl]
      simp [hdb.symm, hne]
    · rw [escape_cons, escapeChar_ordinary (by simp [hq, hdb]), List.singleton_append]
      by_cases hs : d = slash
      · subst hs
        rw [loop_backslash (by omega) (by decide)]
        simp [decode]
      · exact iff_of_false (loop_backslash_ne (by omega) hq hdb hs _ _) fun h => hs h.1

/-- Behind an escaped backslash, more of them: they come back only where they fill the field. -/
theorem loop_backslash_escape_replicate {dstLen di n k : Nat} (hn : di + n + 1 = dstLen) {t : Bytes}
    (hlen : (List.replicate (k + 1) backslash ++ t).length ≤ n) (ht : t.head? ≠ some backslash) :
    loop dstLen (backslash :: escape (.replicate (k + 1) backslash ++ t)) di =
        .replicate (k + 1) backslash ++ t ↔
      (List.replicate (k + 1) backslash ++ t).length = n ∧
        ∀ c ∈ List.replicate (k + 1) backslash ++ t, c = backslash := by
  rw [escape_replicate_append]
  constructor
  · intro h
    obtain ⟨u, hu⟩ := exists_loop_replicate_append hn (2 * (k + 1)) (escape t)
    rw [← List.cons_append, ← List.replicate_succ, List.replicate_succ', List.append_assoc,
      List.singleton_append, hu] at h
    simp only [List.length_append, List.length_replicate] at hlen ⊢
    have hfull : n ≤ k + 1 := by
      refine Nat.not_lt.mp fun hlt => ht ?_
      have := congrArg (·[k + 1]?) h
      rw [List.getElem?_append_left (by simp; omega),
        List.getElem?_append_right (by simp)] at this
      simpa [List.getElem?_replicate, show k + 1 < 2 * (k + 1) by omega, hlt,
        List.head?_eq_getElem?] using this.symm
    obtain rfl : t = [] := List.length_eq_zero_iff.mp (by omega)
    exact ⟨by simp; omega, by simp⟩
  · rintro ⟨hfull, hall⟩
    obtain rfl : t = [] := by
      cases t with
      | nil => rfl
      | cons d t => exact (ht (by simpa using hall d (by simp))).elim
    rw [List.append_nil, List.length_replicate] at hfull
    rw [escape_nil, List.append_nil, List.append_nil, ← List.replicate_succ, loop_replicate hn]
    congr 1
    omega

/-- What becomes of the characters behind an escaped backslash: they come back when they start
with a slash and the rest does, or when they are backslashes that fill the field. -/
theorem loop_backslash_escape_iff {dstLen di n : Nat} (hn : di + n + 1 = dstLen) {s : Bytes}
    (h0 : 0 ∉ s) (hlen : s.length ≤ n) :
    loop dstLen (backslash :: escape s) di = s ↔
      (s.head? = some slash ∧ loop dstLen (escape s.tail) (di + 1) = s.tail) ∨
        s.length = n ∧ ∀ c ∈ s, c = backslash := by
  obtain ⟨k, t, rfl, ht⟩ := exists_eq_replicate_append s
  cases k with
  | zero => exact loop_backslash_escape_of_head hn h0 hlen ht
  | succ k =>
    have hhead : ¬ (List.replicate (k + 1) backslash ++ t).head? = some slash := by
      simp [List.replicate_succ, show backslash ≠ slash by decide]
    rw [or_iff_right fun h => hhead h.1]
    exact loop_backslash_escape_replicate hn hlen ht

/-- The decoder inverts the encoder on exactly the strings that survive. -/
theorem unescape_escape_iff {dstLen di n : Nat} (hn : di + n + 1 = dstLen) {s : Bytes}
    (h0 : 0 ∉ s) (hlen : s.length ≤ n) :
    loop dstLen (escape s) di = s ↔ Survives n s := by
  have step (c : UInt8) (s : Bytes) (h0 : 0 ∉ c :: s) {di m : Nat} (hm : di + (m + 1) + 1 = dstLen)
      (hlen : s.length ≤ m) (ih : loop dstLen (escape s) (di + 1) = s ↔ Survives m s)
      (ihTail : s.head? = some slash →
        (loop dstLen (escape s.tail) (di + 2) = s.tail ↔ Survives m s)) :
      loop dstLen (escape (c :: s)) di = c :: s ↔ Survives (m + 1) (c :: s) := by
    obtain ⟨hc0, hs0⟩ := not_or.mp (mt List.mem_cons.mpr h0)
    rw [survives_cons]
    by_cases hb : c = backslash
    · rw [hb, escape_cons, escapeChar_special (.inr rfl), List.cons_append, List.singleton_append,
        loop_backslash_unknown (by omega) rfl, List.cons.injEq, and_iff_right rfl,
        loop_backslash_escape_iff (by omega : di + 1 + m + 1 = dstLen) hs0 hlen]
      constructor
      · rintro (⟨hslash, h⟩ | ⟨hfull, hall⟩)
        · exact ⟨fun _ => .inl hslash, (ihTail hslash).mp h⟩
        · exact ⟨fun _ => .inr ⟨hfull, hall⟩, survives_of_all hfull hall⟩
      · rintro ⟨h, hs⟩
        exact (h rfl).imp (fun hslash => ⟨hslash, (ihTail hslash).mpr hs⟩) id
    · rw [loop_escape_cons (Ne.symm hc0) hb (by omega), List.cons.injEq, and_iff_right rfl, ih]
      exact (and_iff_right fun e => (hb e).elim).symm
  induction s using List.twoStepInduction generalizing di n with
  | nil => simp [Survives, loop]
  | singleton c =>
    obtain ⟨m, rfl⟩ : ∃ m, n = m + 1 := ⟨n - 1, by simp at hlen; omega⟩
    exact step c [] h0 hn (Nat.zero_le m) (by simp [Survives, loop]) (by simp)
  | cons_cons c d s ih1 ih2 =>
    simp only [List.length_cons] at hlen
    obtain ⟨m, rfl⟩ : ∃ m, n = m + 2 := ⟨n - 2, by omega⟩
    obtain ⟨hc0, hds0⟩ := not_or.mp (mt List.mem_cons.mpr h0)
    obtain ⟨hd0, hs0⟩ := not_or.mp (mt List.mem_cons.mpr hds0)
    refine step c (d :: s) h0 hn (by simp; omega) (ih2 d (by omega) hds0 (by simp; omega)) ?_
    intro hslash
    obtain rfl : d = slash := by simpa using hslash
    rw [survives_cons, and_iff_right (fun e => absurd e (by decide))]
    exact ih1 (by omega) hs0 (by omega)

/-! ## One point -/

/-- A text point as the encoder can be given it: terminated fields, a type and a key that are
their own JSON bodies, and a data string without control characters. -/
structure IsText (p : Point) : Prop where
  dataType : TextDataType p.dataType
  type : p.type.Terminated ∧ Plain p.type.str
  key : p.key.Terminated ∧ Plain p.key.str
  data : p.data.Terminated ∧ ∀ c ∈ p.data.str, ¬ IsControl c

instance : DecidablePred IsText := fun p =>
  decidable_of_iff (TextDataType p.dataType ∧ (p.type.Terminated ∧ Plain p.type.str) ∧
      (p.key.Terminated ∧ Plain p.key.str) ∧ p.data.Terminated ∧ ∀ c ∈ p.data.str, ¬ IsControl c)
    ⟨fun ⟨h1, h2, h3, h4⟩ => ⟨h1, h2, h3, h4⟩, fun ⟨h1, h2, h3, h4⟩ => ⟨h1, h2, h3, h4⟩⟩

/-- `q` is `p` without its time. -/
structure SameText (p q : Point) : Prop where
  type : q.type.str = p.type.str
  key : q.key.str = p.key.str
  dataType : q.dataType = p.dataType
  data : q.data.str = p.data.str
  time : q.time = 0

theorem SameText.map_data {ps qs : List Point} (h : List.Forall₂ SameText ps qs) :
    qs.map (·.data.str) = ps.map (·.data.str) := by
  induction h with
  | nil => rfl
  | cons h _ ih => rw [List.map_cons, List.map_cons, h.data, ih]

theorem IsText.encodable {p : Point} (h : IsText p) :
    (pointToPointJs p pointJsonDataBufSize).Encodable := by
  rw [pointToPointJs_text h.dataType h.data.1 (Nat.le_refl _)]
  refine ⟨⟨_, rfl, h.type.2⟩, ⟨_, rfl, h.key.2⟩, ⟨_, rfl, ?_⟩, body_escape_iff.mpr h.data.2⟩
  unfold textDataTypeS
  split <;> decide

/-- Read back over any memory, one point is the same text exactly when its data survives. -/
theorem IsText.sameText_iff {p : Point} (h : IsText p) (prior : PointJs) (q : Point) :
    SameText p (pointJsToPoint
        (prior.assignRow (pointToPointJs p pointJsonDataBufSize).row) q).2 ↔
      Survives 19 p.data.str := by
  have htype : (cstr p.type.bytes).length ≤ 23 := Nat.le_of_lt_succ h.type.1.length_str_lt
  have hkey : (cstr p.key.bytes).length ≤ 22 := Nat.le_of_lt_succ h.key.1.length_str_lt
  have hcode : dataTypeOfCode (cstr (textDataTypeS p.dataType)) = p.dataType := by
    rcases h.dataType with e | e <;> rw [e] <;> decide
  obtain ⟨-, hdata⟩ := decodedRun_text h.dataType q.data (escape p.data.str)
  have hloop : loop 20 (escape p.data.str) 0 = p.data.str ↔ Survives 19 p.data.str :=
    unescape_escape_iff rfl p.data.zero_notMem_str (Nat.le_of_lt_succ h.data.1.length_str_lt)
  rw [PointJs.assignRow_row, pointToPointJs_text h.dataType h.data.1 (Nat.le_refl _)]
  simp only [Option.getD_some]
  rw [pointJsToPoint_some, hcode, ← hloop, ← hdata]
  refine ⟨fun hsame => hsame.data, fun hd => ⟨?_, ?_, rfl, hd, rfl⟩⟩
  · rw [copyStrField_str, cstr_cstr, List.take_of_length_le htype]
    rfl
  · rw [copyStrField_str, cstr_cstr, List.take_of_length_le hkey]
    rfl

/-! ## Arrays -/

/-- The points that the encoder does not skip. -/
def encodedPoints (pts : List Point) : List Point := pts.filter (·.Valid)

theorem mem_encodedPoints {pts : List Point} {p : Point} :
    p ∈ encodedPoints pts ↔ p ∈ pts ∧ p.Valid := by
  simp [encodedPoints]

theorem pointsJsonEncode.loop_eq (pts : List Point) :
    loop pts = (encodedPoints pts).map (pointToPointJs · pointJsonDataBufSize) := by
  induction pts with
  | nil => rfl
  | cons p pts ih =>
    rw [loop, ih, encodedPoints, encodedPoints]
    by_cases ho : p.type.first = 0
    · rw [if_pos ho, List.filter_cons_of_neg (by simp [ho])]
    · by_cases hv : InvalidDataType p.dataType
      · rw [if_neg ho, if_pos hv, List.filter_cons_of_neg (by simp [hv])]
      · rw [if_neg ho, if_neg hv, List.filter_cons_of_pos (by simp [ho, hv])]
        rfl

/-- The loop turns the rows of some points into these points exactly when all of them survive,
whatever the target held. -/
theorem forall₂_decodeLoop_iff {ps : List Point} (hps : ∀ p ∈ ps, IsText p) {a : PointJsArray}
    {i : Nat} (ha : ∀ j p, ps[j]? = some p →
      ∃ prior : PointJs, a.points (i + j) = prior.assignRow (pointToPointJs p pointJsonDataBufSize).row)
    {target : List Point} (hlen : ps.length ≤ target.length) :
    List.Forall₂ SameText ps ((pointsJsonDecode.loop a i ps.length target).take ps.length) ↔
      ∀ p ∈ ps, Survives 19 p.data.str := by
  induction ps generalizing i target with
  | nil => simp
  | cons p ps ih =>
    obtain ⟨q, target, rfl⟩ : ∃ q t, target = q :: t := by
      cases target with
      | nil => simp at hlen
      | cons q t => exact ⟨q, t, rfl⟩
    obtain ⟨prior, hprior⟩ := ha 0 p rfl
    rw [Nat.add_zero] at hprior
    rw [List.length_cons, pointsJsonDecode.loop, List.take_succ_cons, List.forall₂_cons,
      List.forall_mem_cons, hprior, (hps p List.mem_cons_self).sameText_iff]
    refine and_congr_right fun _ => ih (fun r hr => hps r (List.mem_cons_of_mem _ hr)) ?_ ?_
    · intro j r hj
      have := ha (j + 1) r (by simpa using hj)
      rwa [show i + (j + 1) = i + 1 + j by omega] at this
    · simpa using hlen

section
variable (J : JsonLib) (pts : List Point) (buf : Bytes) (len : Nat)

/-- Encoding the points of `pts` and decoding the text into `target` gives the valid points back,
in their order. -/
def RoundTrips (ptsJs : PointJsArray) (target : List Point) : Prop :=
  let (ret, out) := pointsJsonDecode J ptsJs (pointsJsonEncode J pts buf len).2 target
  ret = (encodedPoints pts).length ∧
    List.Forall₂ SameText (encodedPoints pts) (out.take (encodedPoints pts).length)

/-- The encoder's text, when it reports success. -/
theorem pointsJsonEncode_success (hJ : J.Lawful) (hpts : ∀ p ∈ pts, p.Valid → IsText p)
    (hret : (pointsJsonEncode J pts buf len).1 = 0) :
    (encodedPoints pts).length ≤ pointJsArrayMax ∧
      (pointsJsonEncode J pts buf len).2 = arrayText ((encodedPoints pts).map
        fun p => (pointToPointJs p pointJsonDataBufSize).row) := by
  have henomem : ¬ -enomem = 0 := by decide
  by_cases hcount : pts.length > pointJsArrayMax
  · rw [pointsJsonEncode, if_pos hcount] at hret
    exact (henomem hret).elim
  · have hvalid : (encodedPoints pts).length ≤ pointJsArrayMax :=
      Nat.le_trans (List.length_filter_le _ pts) (Nat.not_lt.mp hcount)
    refine ⟨hvalid, ?_⟩
    have hrows : ∀ js ∈ (encodedPoints pts).map (pointToPointJs · pointJsonDataBufSize),
        js.Encodable := by
      intro js hjs
      obtain ⟨p, hp, rfl⟩ := List.mem_map.mp hjs
      obtain ⟨hp, hv⟩ := mem_encodedPoints.mp hp
      exact (hpts p hp hv).encodable
    rw [pointsJsonEncode, if_neg hcount, pointsJsonEncode.loop_eq] at hret ⊢
    rw [← List.length_map (pointToPointJs · pointJsonDataBufSize)] at hvalid
    rcases Nat.lt_or_ge (arrayText (List.map PointJs.row _)).length len with hfits | hover
    · rw [hJ.encode_fits _ len hvalid hrows hfits, List.map_map]
      rfl
    · obtain ⟨s, _, hs⟩ := hJ.encode_overflow _ len hvalid hrows hover
      rw [hs] at hret
      exact (henomem hret).elim

/-- **The round trip.** An array of empty points, points of invalid data type and text points
that was encoded comes back, into a target that is large enough, exactly when the data string of
every valid point survives. -/
theorem roundTrips_iff (hJ : J.Lawful) (hpts : ∀ p ∈ pts, p.Valid → IsText p)
    (hret : (pointsJsonEncode J pts buf len).1 = 0) (ptsJs : PointJsArray) (target : List Point)
    (htarget : (encodedPoints pts).length ≤ target.length) :
    RoundTrips J pts buf len ptsJs target ↔ ∀ p ∈ pts, p.Valid → Survives 19 p.data.str := by
  obtain ⟨hmax, htext⟩ := pointsJsonEncode_success J pts buf len hJ hpts hret
  have hps : ∀ p ∈ encodedPoints pts, IsText p := by
    intro p hp
    obtain ⟨hp, hv⟩ := mem_encodedPoints.mp hp
    exact hpts p hp hv
  have hparse := hJ.parse ((encodedPoints pts).map
    fun p => (pointToPointJs p pointJsonDataBufSize).row) ptsJs (by simpa using hmax) (by
      intro row hrow
      obtain ⟨p, hp, rfl⟩ := List.mem_map.mp hrow
      exact (hps p hp).encodable.legalRow)
  have hdecode : pointsJsonDecode J ptsJs (pointsJsonEncode J pts buf len).2 target =
      (((encodedPoints pts).length : Int), pointsJsonDecode.loop
        (ptsJs.assignRows ((encodedPoints pts).map
          fun p => (pointToPointJs p pointJsonDataBufSize).row)) 0
        (encodedPoints pts).length target) := by
    rw [htext, pointsJsonDecode, hparse]
    simp only [PointJsArray.assignRows, List.length_map, Nat.min_eq_right htarget]
    rfl
  rw [RoundTrips, hdecode]
  simp only [true_and]
  rw [forall₂_decodeLoop_iff hps ?_ htarget]
  · simp only [mem_encodedPoints, and_imp]
  · intro j p hj
    exact ⟨ptsJs.points j, by simp [PointJsArray.assignRows, hj]⟩

end

theorem roundTrips_quoted :
    RoundTrips .reference
      [(Point.zero.setTypeKey (lit "description") (lit "0")).putString (lit "say \"hi\" \\/"),
        .zero, Point.zero.setTypeKey (lit "temp") (lit "0")]
      [] 2048 .zero [.zero] :=
  (roundTrips_iff _ _ _ _ JsonLib.reference_lawful (by decide) (by decide) _ _ (by decide)).mpr
    (by decide)

/-- A data string that is one backslash. -/
def backslashPoint : Point := (Point.zero.setTypeKey (lit "description") (lit "0")).putString [backslash]

/-- It is encoded, and comes back as two backslashes. -/
theorem not_roundTrips_backslash :
    IsText backslashPoint ∧ (pointsJsonEncode .reference [backslashPoint] [] 2048).1 = 0 ∧
      ¬ RoundTrips .reference [backslashPoint] [] 2048 .zero [.zero] := by
  have hout : ((pointsJsonDecode .reference .zero
      (pointsJsonEncode .reference [backslashPoint] [] 2048).2 [.zero]).2.take 1).map (·.data.str) =
        [[backslash, backslash]] := by decide
  refine ⟨by decide, by decide, fun h => ?_⟩
  have hdata := hout.symm.trans (SameText.map_data h.2)
  exact absurd hdata (by decide)

end ZephyrSiot
