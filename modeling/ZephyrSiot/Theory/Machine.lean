import Mathlib.Data.List.Basic

/-!
# Deterministic machines

A machine is a step function `σ → α → σ`. A property is lifted from one step to a whole run in
two ways: `InEveryState` asks it of every state the run goes through, `AtEveryStep` of every
step, given the state before the step and its input. The two `_iff` theorems turn what is
known of one step under an invariant into what is known of every run.
-/

namespace Machine

variable {σ α : Type*} {step : σ → α → σ} {s : σ}

/-- The state after the inputs `as`. -/
def run (step : σ → α → σ) (s : σ) (as : List α) : σ := as.foldl step s

@[simp] theorem run_nil : run step s [] = s := rfl

@[simp] theorem run_cons (a : α) (as : List α) : run step s (a :: as) = run step (step s a) as := rfl

theorem run_append (as bs : List α) : run step s (as ++ bs) = run step (run step s as) bs :=
  List.foldl_append

def InEveryState (step : σ → α → σ) (I : σ → Prop) (s : σ) : List α → Prop
  | [] => I s
  | a :: as => I s ∧ InEveryState step I (step s a) as

def AtEveryStep (step : σ → α → σ) (P : σ → α → Prop) (s : σ) : List α → Prop
  | [] => True
  | a :: as => P s a ∧ AtEveryStep step P (step s a) as

instance decidableAtEveryStep {P : σ → α → Prop} [h : ∀ s a, Decidable (P s a)] :
    ∀ s as, Decidable (AtEveryStep step P s as)
  | _, [] => .isTrue trivial
  | s, a :: as => @instDecidableAnd _ _ (h s a) (decidableAtEveryStep (step s a) as)

theorem atEveryStep_append {P : σ → α → Prop} (as bs : List α) :
    AtEveryStep step P s (as ++ bs) ↔
      AtEveryStep step P s as ∧ AtEveryStep step P (run step s as) bs := by
  induction as generalizing s with
  | nil => exact (and_iff_right trivial).symm
  | cons a as ih => rw [List.cons_append, AtEveryStep, AtEveryStep, ih, and_assoc, run_cons]

theorem atEveryStep_of_forall {P : σ → α → Prop} {as : List α} (h : ∀ a ∈ as, ∀ s, P s a) :
    AtEveryStep step P s as := by
  induction as generalizing s with
  | nil => trivial
  | cons a as ih =>
    rw [List.forall_mem_cons] at h
    exact ⟨h.1 s, ih h.2⟩

/-- A property of every state of the run is one of the state after each prefix. -/
theorem inEveryState_iff {I : σ → Prop} {as : List α} :
    InEveryState step I s as ↔ ∀ bs, bs <+: as → I (run step s bs) := by
  induction as generalizing s with
  | nil => simp [InEveryState]
  | cons a as ih =>
    rw [InEveryState, ih]
    constructor
    · rintro ⟨h0, h⟩ bs hbs
      cases bs with
      | nil => exact h0
      | cons b bs =>
        obtain ⟨rfl, hbs'⟩ := List.cons_prefix_cons.mp hbs
        exact h bs hbs'
    · intro h
      exact ⟨h [] List.nil_prefix, fun bs hbs =>
        h (a :: bs) (List.cons_prefix_cons.mpr ⟨rfl, hbs⟩)⟩

/-- A property that a step on an input in `P` keeps. -/
theorem run_invariant {I : σ → Prop} {P : α → Prop}
    (hstep : ∀ s a, P a → I s → I (step s a)) (h : I s) {as : List α} (has : ∀ a ∈ as, P a) :
    I (run step s as) := by
  induction as generalizing s with
  | nil => exact h
  | cons a as ih =>
    rw [List.forall_mem_cons] at has
    exact ih (hstep s a has.1 h) has.2

/-- A property that a step on an input in `P` keeps when it meets the condition `C`. -/
theorem run_invariant_of_atEveryStep {I : σ → Prop} {P : α → Prop} {C : σ → α → Prop}
    (hstep : ∀ s a, P a → C s a → I s → I (step s a)) (h : I s) {as : List α}
    (has : ∀ a ∈ as, P a) (hC : AtEveryStep step C s as) : I (run step s as) := by
  induction as generalizing s with
  | nil => exact h
  | cons a as ih =>
    rw [List.forall_mem_cons] at has
    exact ih (hstep s a has.1 hC.1 h) has.2 hC.2

/-- Two machines whose states stay related by a step on an input in `P`. -/
theorem run_simulation {τ : Type*} {step' : τ → α → τ} {t : τ} {R : σ → τ → Prop} {P : α → Prop}
    (hstep : ∀ s t a, P a → R s t → R (step s a) (step' t a)) (h : R s t) {as : List α}
    (has : ∀ a ∈ as, P a) : R (run step s as) (run step' t as) := by
  induction as generalizing s t with
  | nil => exact h
  | cons a as ih =>
    rw [List.forall_mem_cons] at has
    exact ih (hstep s t a has.1 h) has.2

/-- Where a step keeps `I` exactly under the condition `C`, as long as `J` holds, which is never
left, a run stays in `I` exactly when every step of it meets `C`. -/
theorem inEveryState_iff_atEveryStep_of_inv {I J : σ → Prop} {C : σ → α → Prop}
    (hinv : ∀ s a, J s → J (step s a)) (hstep : ∀ s a, J s → I s → (I (step s a) ↔ C s a))
    (hJ : J s) (h : I s) (as : List α) : InEveryState step I s as ↔ AtEveryStep step C s as := by
  induction as generalizing s with
  | nil => exact iff_of_true h trivial
  | cons a as ih =>
    constructor
    · rintro ⟨_, hrest⟩
      have ha : I (step s a) := by cases as with
        | nil => exact hrest
        | cons => exact hrest.1
      exact ⟨(hstep s a hJ h).mp ha, (ih (hinv s a hJ) ha).mp hrest⟩
    · rintro ⟨hc, hrest⟩
      have ha := (hstep s a hJ h).mpr hc
      exact ⟨h, (ih (hinv s a hJ) ha).mpr hrest⟩

/-- Where a step keeps `I` exactly under the condition `C`, a run stays in `I` exactly when
every step of it meets `C`. -/
theorem inEveryState_iff_atEveryStep {I : σ → Prop} {C : σ → α → Prop}
    (hstep : ∀ s a, I s → (I (step s a) ↔ C s a)) (h : I s) (as : List α) :
    InEveryState step I s as ↔ AtEveryStep step C s as :=
  inEveryState_iff_atEveryStep_of_inv (J := fun _ => True) (fun _ _ hJ => hJ)
    (fun s a _ => hstep s a) trivial h as

/-- A run that meets `C` at every step keeps `I`. Where the first step that does not leads to `L`,
and `L` is never left again, every other run ends in `L`. -/
theorem run_invariant_or_lost {I L : σ → Prop} {P : α → Prop} {C : σ → α → Prop}
    (hkeep : ∀ s a, P a → I s → C s a → I (step s a))
    (hlose : ∀ s a, P a → I s → ¬ C s a → L (step s a))
    (hlost : ∀ s a, P a → L s → L (step s a)) (h : I s) {as : List α} (has : ∀ a ∈ as, P a) :
    AtEveryStep step C s as ∧ I (run step s as) ∨
      ¬ AtEveryStep step C s as ∧ L (run step s as) := by
  induction as generalizing s with
  | nil => exact .inl ⟨trivial, h⟩
  | cons a as ih =>
    rw [List.forall_mem_cons] at has
    rcases Classical.em (C s a) with hc | hc
    · rcases ih (hkeep s a has.1 h hc) has.2 with ⟨hall, hI⟩ | ⟨hsome, hL⟩
      · exact .inl ⟨⟨hc, hall⟩, hI⟩
      · exact .inr ⟨fun hall => hsome hall.2, hL⟩
    · exact .inr ⟨fun hall => hc hall.1, run_invariant hlost (hlose s a has.1 h hc) has.2⟩

/-- Where an invariant makes `P` and `C` the same at each step, they are the same over runs. -/
theorem atEveryStep_congr {I : σ → Prop} {P C : σ → α → Prop}
    (hinv : ∀ s a, I s → I (step s a)) (hstep : ∀ s a, I s → (P s a ↔ C s a)) (h : I s)
    (as : List α) : AtEveryStep step P s as ↔ AtEveryStep step C s as := by
  induction as generalizing s with
  | nil => exact Iff.rfl
  | cons a as ih => exact and_congr (hstep s a h) (ih (hinv s a h))

/-! ## A machine inside another -/

section
variable {τ β : Type*} {step' : τ → β → τ}

/-- The inputs that a run passes on to a machine inside, which are none, one or more at a step. -/
def passed (step : σ → α → σ) (sent : σ → α → List β) (s : σ) : List α → List β
  | [] => []
  | a :: as => sent s a ++ passed step sent (step s a) as

/-- Where every step is what the machine inside does with the inputs it is passed, so is a run. -/
theorem run_view {f : σ → τ} {sent : σ → α → List β}
    (hstep : ∀ s a, f (step s a) = run step' (f s) (sent s a)) (as : List α) :
    f (run step s as) = run step' (f s) (passed step sent s as) := by
  induction as generalizing s with
  | nil => rfl
  | cons a as ih => rw [run_cons, ih, hstep, passed, run_append]

/-- A property of every step of the machine inside is one of every step that passes inputs on. -/
theorem atEveryStep_passed {f : σ → τ} {sent : σ → α → List β} {P : τ → β → Prop} {C : σ → α → Prop}
    (hstep : ∀ s a, f (step s a) = run step' (f s) (sent s a))
    (hsent : ∀ s a, AtEveryStep step' P (f s) (sent s a) ↔ C s a) (as : List α) :
    AtEveryStep step' P (f s) (passed step sent s as) ↔ AtEveryStep step C s as := by
  induction as generalizing s with
  | nil => exact Iff.rfl
  | cons a as ih => rw [passed, atEveryStep_append, hsent, ← hstep, ih, AtEveryStep]

/-- What is passed on has the property `Q` where no step under the invariant `I` passes on anything
else. -/
theorem forall_mem_passed {I : σ → Prop} {P : α → Prop} {Q : β → Prop} {sent : σ → α → List β}
    (hinv : ∀ s a, P a → I s → I (step s a)) (hsent : ∀ s a, P a → I s → ∀ b ∈ sent s a, Q b)
    (h : I s) {as : List α} (has : ∀ a ∈ as, P a) : ∀ b ∈ passed step sent s as, Q b := by
  induction as generalizing s with
  | nil => exact List.forall_mem_nil _
  | cons a as ih =>
    rw [List.forall_mem_cons] at has
    intro b hb
    rcases List.mem_append.mp hb with hb | hb
    · exact hsent s a has.1 h b hb
    · exact ih (hinv s a has.1 h) has.2 b hb

end

end Machine
