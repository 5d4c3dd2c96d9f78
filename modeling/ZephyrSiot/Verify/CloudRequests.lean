import ZephyrSiot.Verify.CloudRuns

/-!
# Requests to publish

`thread_sem` keeps a request until it is taken. It is given exactly while the last request has not
been followed by a publish (`threadSem_run`), so none is lost and none is made up. The programs of
the main thread end, so in a fair run a publish starts after every request.
-/

namespace ZephyrSiot
open CStr Calls CloudCall CloudWorld CloudNode

variable {cfg : CloudConfig} {caChain : Nat → Option Bytes} {w : CloudWorld} {n n' : CloudNode}
  {e : CloudEvent} {es : List CloudEvent}

/-! ## The semaphore -/

/-- The count of `thread_sem` after an event, when it was `sem` before. -/
def CloudEvent.sem (sem : Nat) : CloudEvent → Nat
  | .requested => 1
  | .started => 0
  | .other => sem

theorem threadSem_after {β : Type} (c : CloudCall β) (r : β) :
    (w.after c r).threadSem = c.event.sem w.threadSem := by
  cases c with
  | modemKeyMgmtCmp | modemKeyMgmtDelete | modemKeyMgmtWrite | getaddrinfo | socket | setsockopt
  | connect | nrfModemLibInit | lteLcConnect =>
    simp only [after]
    split <;> rfl
  | cjsonCreateObject | cjsonPrintUnformatted => cases r <;> rfl
  | cjsonAddBoolToObject obj => cases obj <;> cases r <;> rfl
  | cjsonDelete obj => cases obj <;> rfl
  | _ => rfl

theorem threadSem_step (hs : Step cfg n e n') (h : n.world.threadSem ≤ 1) :
    n'.world.threadSem = e.sem n.world.threadSem := by
  cases hs with
  | main hm => cases hm with
    | initCall | publishCall => exact threadSem_after _ _
    | take => exact Nat.sub_eq_zero_of_le h
    | initReturn | loop | publishReturn => rfl
  | timeout | cmdPublish => rfl

theorem CloudEvent.sem_le {sem : Nat} (h : sem ≤ 1) : e.sem sem ≤ 1 := by
  cases e
  · exact le_rfl
  · exact Nat.zero_le 1
  · exact h

theorem threadSem_run (h : Run cfg caChain es n) :
    n.world.threadSem = es.foldl CloudEvent.sem 0 ∧ n.world.threadSem ≤ 1 := by
  induction h with
  | start => exact ⟨rfl, Nat.zero_le 1⟩
  | step _ hs ih =>
    have hstep := threadSem_step hs ih.2
    rw [List.foldl_concat, ← ih.1]
    exact ⟨hstep, hstep ▸ CloudEvent.sem_le ih.2⟩

theorem foldl_sem_of_not_started {sem : Nat} (h : .started ∉ es) :
    es.foldl CloudEvent.sem sem = if .requested ∈ es then 1 else sem := by
  induction es generalizing sem with
  | nil => rfl
  | cons e es ih =>
    rw [List.mem_cons, not_or] at h
    rw [List.foldl_cons, ih h.2]
    cases e with
    | requested => simp [CloudEvent.sem]
    | started => exact absurd rfl h.1
    | other => simp [CloudEvent.sem]

/-- The last request has not been followed by a publish. -/
theorem foldl_sem_ne_zero (h : es.foldl CloudEvent.sem 0 ≠ 0) :
    ∃ es₁ es₂, es = es₁ ++ .requested :: es₂ ∧ .started ∉ es₂ := by
  induction es using List.reverseRecOn with
  | nil => exact absurd rfl h
  | append_singleton es e ih =>
    rw [List.foldl_concat] at h
    cases e with
    | requested => exact ⟨es, [], rfl, List.not_mem_nil⟩
    | started => exact absurd rfl h
    | other =>
      obtain ⟨es₁, es₂, rfl, hes₂⟩ := ih h
      exact ⟨es₁, es₂ ++ [.other], by simp, by simpa using hes₂⟩

theorem threadSem_of_started (hs : Step cfg n .started n') : n.world.threadSem ≠ 0 := by
  generalize he : CloudEvent.started = e at hs
  cases hs with
  | main hm => cases hm with
    | initCall | publishCall => exact absurd he.symm (event_ne_started _)
    | take hsem => exact hsem
    | initReturn | loop | publishReturn => cases he
  | timeout | cmdPublish => cases he

/-- A publish starts only where the semaphore is given. -/
theorem started_run (h : Run cfg caChain es n) {es₁ es₂ : List CloudEvent}
    (hes : es = es₁ ++ .started :: es₂) : es₁.foldl CloudEvent.sem 0 ≠ 0 := by
  induction h generalizing es₂ with
  | start => simp at hes
  | @step es n n' e hn hs ih =>
    rcases List.eq_nil_or_concat es₂ with rfl | ⟨es₂, e', rfl⟩
    · obtain ⟨rfl, he⟩ := List.append_inj' hes rfl
      obtain rfl : e = .started := by simpa using he
      rw [← (threadSem_run hn).1]
      exact threadSem_of_started hs
    · have hes' : es ++ [e] = (es₁ ++ .started :: es₂) ++ [e'] := by simpa using hes
      exact ih (List.append_inj' hes' rfl).1

/-- **No request is lost: after each of them a publish has started, or the semaphore is given. None
is made up: each publish that starts has a request before it that no earlier one has taken.** -/
theorem requests_kept (h : Run cfg caChain es n) :
    (∀ es₁ es₂, es = es₁ ++ .requested :: es₂ → .started ∈ es₂ ∨ n.world.threadSem = 1) ∧
      ∀ es₁ es₂, es = es₁ ++ .started :: es₂ →
        ∃ es₀ es', es₁ = es₀ ++ .requested :: es' ∧ .started ∉ es' := by
  refine ⟨?_, fun es₁ es₂ hes => foldl_sem_ne_zero (started_run h hes)⟩
  rintro es₁ es₂ rfl
  by_cases hmem : .started ∈ es₂
  · exact .inl hmem
  · rw [(threadSem_run h).1, List.foldl_append, List.foldl_cons, foldl_sem_of_not_started hmem]
    exact .inr (ite_self 1)

/-- The request of `main` itself has come, and no publish has started. -/
theorem requests_kept_first : (nth .default (fun _ => none) 7).world.threadSem = 1 :=
  have hes : (List.range 7).map (fun i => ((nth .default (fun _ => none) i).next .default).1) =
      .replicate 6 .other ++ .requested :: [] := by decide +kernel
  ((requests_kept (fairRun_nth.run 7)).1 _ [] hes).resolve_left List.not_mem_nil

/-! ## Fair runs -/

namespace CloudNode

theorem MainStep.init_pure {err : Int} (h : MainStep cfg n e n') (hn : n.main = .init (.pure err)) :
    n'.main = .take ∨ ∃ err, n'.main = .returned err := by
  cases h <;> cases hn
  · exact .inr ⟨err, rfl⟩
  · exact .inl rfl

theorem MainStep.init_call {β : Type} {c : CloudCall β} {next : β → CloudProgram Int}
    (h : MainStep cfg n e n') (hn : n.main = .init (.call c next)) :
    ∃ r, n'.main = .init (next r) := by
  cases h <;> cases hn
  exact ⟨_, rfl⟩

theorem MainStep.publish_pure {err : Int} (h : MainStep cfg n e n')
    (hn : n.main = .publish (.pure err)) : n'.main = .take := by
  cases h <;> cases hn
  rfl

theorem MainStep.publish_call {β : Type} {c : CloudCall β} {next : β → CloudProgram Int}
    (h : MainStep cfg n e n') (hn : n.main = .publish (.call c next)) :
    ∃ r, n'.main = .publish (next r) := by
  cases h <;> cases hn
  exact ⟨_, rfl⟩

theorem MainStep.take_started (h : MainStep cfg n e n') (hn : n.main = .take) : e = .started := by
  cases h <;> cases hn
  rfl

/-- The others leave the main thread where it is. -/
theorem main_of_not_mainStep (hs : Step cfg n e n') (hm : ¬ MainStep cfg n e n') :
    n'.main = n.main := by
  cases hs with
  | main h => exact absurd h hm
  | timeout | cmdPublish => rfl

theorem exists_mainStep_init {rest : CloudProgram Int} (hn : n.main = .init rest) :
    ∃ e n', MainStep cfg n e n' := by
  obtain ⟨_, w⟩ := n
  obtain rfl := hn
  cases rest with
  | pure err =>
    by_cases h : err < 0
    · exact ⟨_, _, .initReturn h⟩
    · exact ⟨_, _, .loop h⟩
  | call c next => exact ⟨_, _, .initCall (possible_reply w c)⟩

theorem exists_mainStep_publish {rest : CloudProgram Int} (hn : n.main = .publish rest) :
    ∃ e n', MainStep cfg n e n' := by
  obtain ⟨_, w⟩ := n
  obtain rfl := hn
  cases rest with
  | pure err => exact ⟨_, _, .publishReturn⟩
  | call c next => exact ⟨_, _, .publishCall (possible_reply w c)⟩

theorem exists_mainStep_take (hn : n.main = .take) (hsem : n.world.threadSem = 1) :
    ∃ e n', MainStep cfg n e n' := by
  obtain ⟨_, w⟩ := n
  obtain rfl := hn
  exact ⟨_, _, .take (hsem.trans_ne one_ne_zero)⟩

namespace FairRun

variable {ns : Nat → CloudNode} {es : Nat → CloudEvent}

/-- The next step of the main thread is from where it is. -/
theorem next_mainStep (h : FairRun cfg caChain ns es) (d : Nat) (i : Nat)
    (hd : MainStep cfg (ns (i + d)) (es (i + d)) (ns (i + d + 1))) :
    ∃ j, i ≤ j ∧ (ns j).main = (ns i).main ∧ MainStep cfg (ns j) (es j) (ns (j + 1)) := by
  induction d generalizing i with
  | zero => exact ⟨i, le_rfl, rfl, hd⟩
  | succ d ih =>
    by_cases hm : MainStep cfg (ns i) (es i) (ns (i + 1))
    · exact ⟨i, le_rfl, rfl, hm⟩
    · obtain ⟨j, hj, hmain, hstep⟩ := ih (i + 1) (by rwa [show i + 1 + d = i + (d + 1) by omega])
      exact ⟨j, by omega, hmain.trans (main_of_not_mainStep (h.step i) hm), hstep⟩

theorem exists_mainStep (h : FairRun cfg caChain ns es) {i : Nat}
    (hi : ∃ e n', MainStep cfg (ns i) e n') :
    ∃ j, i ≤ j ∧ (ns j).main = (ns i).main ∧ MainStep cfg (ns j) (es j) (ns (j + 1)) := by
  obtain ⟨j, hj, hm⟩ := h.fair i hi
  obtain ⟨d, rfl⟩ := Nat.exists_eq_add_of_le hj
  exact h.next_mainStep d i hm

theorem publish_ends (h : FairRun cfg caChain ns es) {rest : CloudProgram Int} {i : Nat}
    (hi : (ns i).main = .publish rest) : ∃ j, i ≤ j ∧ (ns j).main = .take := by
  induction rest generalizing i with
  | pure err =>
    obtain ⟨j, hj, hmain, hm⟩ := h.exists_mainStep (exists_mainStep_publish hi)
    exact ⟨j + 1, by omega, hm.publish_pure (hmain.trans hi)⟩
  | call c next ih =>
    obtain ⟨j, hj, hmain, hm⟩ := h.exists_mainStep (exists_mainStep_publish hi)
    obtain ⟨r, hr⟩ := hm.publish_call (hmain.trans hi)
    obtain ⟨l, hl, hmain⟩ := ih r hr
    exact ⟨l, by omega, hmain⟩

theorem init_ends (h : FairRun cfg caChain ns es) {rest : CloudProgram Int} {i : Nat}
    (hi : (ns i).main = .init rest) :
    ∃ j, i ≤ j ∧ ((ns j).main = .take ∨ ∃ err, (ns j).main = .returned err) := by
  induction rest generalizing i with
  | pure err =>
    obtain ⟨j, hj, hmain, hm⟩ := h.exists_mainStep (exists_mainStep_init hi)
    exact ⟨j + 1, by omega, hm.init_pure (hmain.trans hi)⟩
  | call c next ih =>
    obtain ⟨j, hj, hmain, hm⟩ := h.exists_mainStep (exists_mainStep_init hi)
    obtain ⟨r, hr⟩ := hm.init_call (hmain.trans hi)
    obtain ⟨l, hl, hmain⟩ := ih r hr
    exact ⟨l, by omega, hmain⟩

/-- The main thread comes to `k_sem_take` again, unless it returns. -/
theorem main_ends (h : FairRun cfg caChain ns es) (i : Nat) :
    ∃ j, i ≤ j ∧ ((ns j).main = .take ∨ ∃ err, (ns j).main = .returned err) := by
  cases hi : (ns i).main with
  | init rest => exact h.init_ends hi
  | take => exact ⟨i, le_rfl, .inl hi⟩
  | publish rest =>
    obtain ⟨j, hj, hmain⟩ := h.publish_ends hi
    exact ⟨j, hj, .inl hmain⟩
  | returned err => exact ⟨i, le_rfl, .inr ⟨err, hi⟩⟩

/-- The semaphore stays given until it is taken. -/
theorem given (h : FairRun cfg caChain ns es) {i : Nat} (hi : es i = .requested) (d : Nat)
    (hno : ∀ j, i < j → j ≤ i + d → es j ≠ .started) : (ns (i + d + 1)).world.threadSem = 1 := by
  induction d with
  | zero =>
    have hstep := threadSem_step (h.step i) (threadSem_run (h.run i)).2
    rw [hi] at hstep
    exact hstep
  | succ d ih =>
    have hprev : (ns (i + (d + 1))).world.threadSem = 1 := ih fun j hj hle => hno j hj (by omega)
    have hne : es (i + (d + 1)) ≠ .started := hno _ (by omega) le_rfl
    rw [threadSem_step (h.step (i + (d + 1))) (threadSem_run (h.run _)).2]
    cases he : es (i + (d + 1)) with
    | requested => rfl
    | started => exact absurd he hne
    | other => exact hprev

end FairRun

end CloudNode

/-- **After every request a publish starts, unless `main` has returned: when every call returns, and
the main thread goes on whenever it can.** -/
theorem request_served {ns : Nat → CloudNode} {es : Nat → CloudEvent}
    (h : FairRun cfg caChain ns es) {i : Nat} (hi : es i = .requested) :
    ∃ j, i < j ∧ (es j = .started ∨ ∃ err, (ns j).main = .returned err) := by
  obtain ⟨j, hj, hmain⟩ := h.main_ends (i + 1)
  obtain ⟨d, rfl⟩ := Nat.exists_eq_add_of_le hj
  rcases hmain with hmain | hmain
  swap
  · exact ⟨_, by omega, .inr hmain⟩
  by_cases hno : ∃ l, i < l ∧ l ≤ i + d ∧ es l = .started
  · obtain ⟨l, hl, _, hl'⟩ := hno
    exact ⟨l, hl, .inl hl'⟩
  -- it waits for a semaphore that is still given
  have hgiven : (ns (i + d + 1)).world.threadSem = 1 :=
    h.given hi d fun l hl hle he => hno ⟨l, hl, hle, he⟩
  rw [show i + 1 + d = i + d + 1 by omega] at hmain
  obtain ⟨l, hl, hmain', hm⟩ := h.exists_mainStep (exists_mainStep_take hmain hgiven)
  exact ⟨l, by omega, .inl (hm.take_started (hmain'.trans hmain))⟩

/-- The request of `main` itself. -/
theorem request_served_first : ∃ j, 6 < j ∧
    (((nth .default (fun _ => none) j).next .default).1 = .started ∨
      ∃ err, (nth .default (fun _ => none) j).main = .returned err) := by
  have hi : ((nth .default (fun _ => none) 6).next .default).1 = .requested := by decide +kernel
  exact request_served fairRun_nth hi

end ZephyrSiot
