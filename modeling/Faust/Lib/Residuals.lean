import Mathlib.Tactic.Common

/-!
# Invariants between a system and what is left of its specification

In some of its states a deterministic system takes a step for a symbol; what a specification
demands after the symbol is its derivative. A relation between states and specifications that holds
along the words that the system takes is the greatest one that every step keeps: to establish it,
any relation that every step keeps will do.
-/

namespace Residuals

variable {σ K R : Type*} {step : σ → K → Option σ} {deriv : R → K → R} {P Q : σ → R → Prop}

/-- The state after a word. -/
def run (step : σ → K → Option σ) : σ → List K → Option σ
  | s, [] => some s
  | s, k :: w => (step s k).bind fun s' => run step s' w

/-- The relation holds after each word that the system takes. -/
def Along (step : σ → K → Option σ) (deriv : R → K → R) (P : σ → R → Prop) (s : σ) (x : R) :
    Prop :=
  ∀ w s', run step s w = some s' → P s' (w.foldl deriv x)

namespace Along

variable {s : σ} {x : R}

theorem here (h : Along step deriv P s x) : P s x :=
  h [] s rfl

theorem mono (hPQ : ∀ s x, P s x → Q s x) (h : Along step deriv P s x) :
    Along step deriv Q s x :=
  fun w s' hw => hPQ _ _ (h w s' hw)

theorem next (h : Along step deriv P s x) {k : K} {s' : σ} (hk : step s k = some s') :
    Along step deriv P s' (deriv x k) := by
  intro w s'' hw
  apply h (k :: w)
  rw [run, hk]
  exact hw

/-- A relation that every step keeps holds along all words. -/
theorem of_invariant (hP : ∀ s x, Q s x → P s x)
    (hstep : ∀ s x k s', Q s x → step s k = some s' → Q s' (deriv x k)) (h : Q s x) :
    Along step deriv P s x := by
  intro w
  induction w generalizing s x with
  | nil =>
    intro s' hw
    cases hw
    exact hP s x h
  | cons k w ih =>
    intro s'' hw
    obtain ⟨s', hk, hw⟩ := Option.bind_eq_some_iff.mp hw
    exact ih (hstep s x k s' h hk) s'' hw

theorem of_next (hP : P s x)
    (hnext : ∀ k s', step s k = some s' → Along step deriv P s' (deriv x k)) :
    Along step deriv P s x := by
  intro w s'' hw
  cases w with
  | nil =>
    cases hw
    exact hP
  | cons k w =>
    obtain ⟨s', hk, hw⟩ := Option.bind_eq_some_iff.mp hw
    exact hnext k s' hk w s'' hw

end Along

end Residuals
