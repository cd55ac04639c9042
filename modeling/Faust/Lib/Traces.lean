import Mathlib.Tactic.Common

/-!
# What a deterministic system performs

A step of the system performs a list of actions. Two executions from one state to states without
a step perform the same actions. A system that takes each step of another one performs what the
other one performs.
-/

namespace Traces

variable {σ τ ε : Type*}

/-- An execution, with all that it performs. -/
inductive Performs (step : σ → Option (List ε × σ)) : σ → List ε → σ → Prop
  | refl (s : σ) : Performs step s [] s
  | head {s s₁ s₂ : σ} {es fs : List ε} :
      step s = some (es, s₁) → Performs step s₁ fs s₂ → Performs step s (es ++ fs) s₂

variable {step : σ → Option (List ε × σ)} {step' : τ → Option (List ε × τ)}

theorem Performs.trans {s s₁ s₂ : σ} {es fs : List ε} (h₁ : Performs step s es s₁)
    (h₂ : Performs step s₁ fs s₂) : Performs step s (es ++ fs) s₂ := by
  induction h₁ with
  | refl => exact h₂
  | head hs _ ih =>
    rw [List.append_assoc]
    exact .head hs (ih h₂)

/-- A complete execution performs what no other one does not. -/
theorem Performs.unique {s s₁ s₂ : σ} {es fs : List ε} (h₁ : Performs step s es s₁)
    (hend₁ : step s₁ = none) (h₂ : Performs step s fs s₂) (hend₂ : step s₂ = none) :
    es = fs ∧ s₁ = s₂ := by
  induction h₁ generalizing fs with
  | refl =>
    cases h₂ with
    | refl => exact ⟨rfl, rfl⟩
    | head hs => simp [hs] at hend₁
  | head hs _ ih =>
    cases h₂ with
    | refl => simp [hs] at hend₂
    | head hs' h₂ =>
      rw [hs] at hs'
      cases hs'
      obtain ⟨rfl, rfl⟩ := ih hend₁ h₂
      exact ⟨rfl, rfl⟩

/-- Lock step: each step of the first system is one of the second system, that performs the
same. -/
theorem Performs.lockstep {R : σ → τ → Prop}
    (hstep : ∀ s t es s', R s t → step s = some (es, s') →
      ∃ t', step' t = some (es, t') ∧ R s' t')
    {s s' : σ} {t : τ} {es : List ε} (hrel : R s t) (h : Performs step s es s') :
    ∃ t', Performs step' t es t' ∧ R s' t' := by
  induction h generalizing t with
  | refl s => exact ⟨t, .refl t, hrel⟩
  | head hs _ ih =>
    obtain ⟨t₁, ht, hrel₁⟩ := hstep _ t _ _ hrel hs
    obtain ⟨t', ht', hrel'⟩ := ih hrel₁
    exact ⟨t', .head ht ht', hrel'⟩

/-! ## Executions that are computed -/

/-- What at most `fuel` steps perform, up to a state without a step. -/
def perform (step : σ → Option (List ε × σ)) : ℕ → σ → Option (List ε × σ)
  | 0, _ => none
  | fuel + 1, s =>
    match step s with
    | none => some ([], s)
    | some (es, s') => (perform step fuel s').map fun r => (es ++ r.1, r.2)

theorem Performs.of_perform {fuel : ℕ} {s s' : σ} {es : List ε}
    (h : perform step fuel s = some (es, s')) : Performs step s es s' ∧ step s' = none := by
  induction fuel generalizing s es with
  | zero => cases h
  | succ fuel ih =>
    rw [perform] at h
    split at h
    · next hnone =>
      cases h
      exact ⟨.refl _, hnone⟩
    · next es₁ s₁ hs =>
      obtain ⟨⟨fs, s₂⟩, hrest, heq⟩ := Option.map_eq_some_iff.1 h
      cases heq
      obtain ⟨hrun, hend⟩ := ih hrest
      exact ⟨.head hs hrun, hend⟩

end Traces
