import Mathlib.Logic.Function.Basic

/-!
# Programs that call out

A program makes calls and goes on with whatever they return. A protocol says in which states a call
is allowed, what it may return there and which state it leaves. A program is `Correct` from a state
when it makes no call where it is not allowed, and ends in the postcondition, whatever the calls
return. Correctness is kept by every call that returns (`Correct.next`), so it is an invariant of a
program that runs among others, and it is proved one function after the other (`correct_bind`,
`Correct.mono`).
-/

namespace Calls

/-- A program whose calls are those of `F`. A call of type `F β` returns a `β`. -/
inductive Program (F : Type → Type) (α : Type) : Type 1 where
  | pure (a : α)
  | call {β : Type} (c : F β) (next : β → Program F α)

variable {F : Type → Type} {α β γ σ : Type}

def Program.bind : Program F α → (α → Program F β) → Program F β
  | .pure a, f => f a
  | .call c next, f => .call c fun r => (next r).bind f

instance : Monad (Program F) where
  pure := .pure
  bind := .bind

def perform (c : F β) : Program F β := .call c .pure

structure Protocol (F : Type → Type) (σ : Type) where
  Allowed {β : Type} : σ → F β → Prop
  Possible {β : Type} : σ → F β → β → Prop
  after {β : Type} : σ → F β → β → σ

/-- The weakest precondition. -/
def Correct (P : Protocol F σ) (Q : α → σ → Prop) : Program F α → σ → Prop
  | .pure a, s => Q a s
  | .call c next, s =>
    P.Allowed s c ∧ ∀ r, P.Possible s c r → Correct P Q (next r) (P.after s c r)

variable {P : Protocol F σ} {Q R : α → σ → Prop} {s : σ}

@[simp] theorem correct_pure {a : α} : Correct P Q (pure a) s ↔ Q a s := Iff.rfl

theorem correct_perform {c : F α} : Correct P Q (perform c) s ↔
    P.Allowed s c ∧ ∀ r, P.Possible s c r → Q r (P.after s c r) := Iff.rfl

theorem Correct.allowed {c : F β} {next : β → Program F α}
    (h : Correct P Q (.call c next) s) : P.Allowed s c := h.1

/-- A call that returns leaves a correct program. -/
theorem Correct.next {c : F β} {next : β → Program F α}
    (h : Correct P Q (.call c next) s) {r : β} (hr : P.Possible s c r) :
    Correct P Q (next r) (P.after s c r) := h.2 r hr

theorem Correct.mono {p : Program F α} (h : Correct P Q p s) (hQ : ∀ a s, Q a s → R a s) :
    Correct P R p s := by
  induction p generalizing s with
  | pure a => exact hQ a s h
  | call c next ih => exact ⟨h.allowed, fun r hr => ih r (h.next hr)⟩

theorem correct_bind {p : Program F α} {f : α → Program F β} {Q : β → σ → Prop} :
    Correct P Q (p >>= f) s ↔ Correct P (fun a s => Correct P Q (f a) s) p s := by
  induction p generalizing s with
  | pure a => exact Iff.rfl
  | call c next ih => exact and_congr_right fun _ => forall₂_congr fun r _ => ih r

/-- The rest is correct from where a correct program ends. -/
theorem Correct.bind {p : Program F α} {f : α → Program F β} {Q : β → σ → Prop}
    (h : Correct P R p s) (hf : ∀ a s, R a s → Correct P Q (f a) s) : Correct P Q (p >>= f) s :=
  correct_bind.mpr (h.mono hf)

/-! ## Interference -/

/-- A change that something else makes to the state, and that the calls do not see. -/
structure Protocol.Unseen (P : Protocol F σ) (f : σ → σ) : Prop where
  allowed {β : Type} (s : σ) (c : F β) : P.Allowed s c → P.Allowed (f s) c
  possible {β : Type} (s : σ) (c : F β) (r : β) : P.Possible (f s) c r → P.Possible s c r
  after {β : Type} (s : σ) (c : F β) (r : β) : P.after (f s) c r = f (P.after s c r)

theorem Correct.interfere {f : σ → σ} (hf : P.Unseen f) (hQ : ∀ a s, Q a s → Q a (f s))
    {p : Program F α} (h : Correct P Q p s) : Correct P Q p (f s) := by
  induction p generalizing s with
  | pure a => exact hQ a s h
  | call c next ih =>
    refine ⟨hf.allowed s c h.allowed, fun r hr => ?_⟩
    rw [hf.after]
    exact ih r (h.next (hf.possible s c r hr))

end Calls
