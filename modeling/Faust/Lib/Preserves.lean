import Faust.Lib.Outcome

/-!
# Computations that preserve an invariant

`Preserves I x Q` says that, from a state that satisfies `I`, the computation `x` fails or ends in a
state that satisfies `I`, with a value that satisfies `Q`. There is one rule for each way to build a
computation.
-/

namespace Outcome

variable {σ ε α β : Type}

/-- The computation keeps the invariant, and its values satisfy a property. -/
def Preserves (I : σ → Prop) (x : StateT σ (Except ε) α) (Q : α → Prop) : Prop :=
  ∀ s, I s → Ends x s (fun _ => True) fun a s' => I s' ∧ Q a

namespace Preserves

variable {I : σ → Prop} {x : StateT σ (Except ε) α} {f : α → StateT σ (Except ε) β}
  {Q Q' : α → Prop} {R : β → Prop}

/-- A run from a state that satisfies the invariant. -/
theorem run (h : Preserves I x Q) {s s' : σ} {a : α} (hs : I s) (hx : x s = .ok (a, s')) :
    I s' ∧ Q a := by
  have hends := h s hs
  unfold Ends at hends
  rw [hx] at hends
  exact hends

theorem pure {a : α} (h : Q a) : Preserves I (pure a : StateT σ (Except ε) α) Q :=
  fun _ hs => .pure ⟨hs, h⟩

theorem throw {e : ε} : Preserves I (throw e : StateT σ (Except ε) α) Q :=
  fun _ _ => .throw trivial

theorem mono (h : Preserves I x Q) (hQ : ∀ a, Q a → Q' a) : Preserves I x Q' :=
  fun s hs => (h s hs).mono fun a _ ha => ⟨ha.1, hQ a ha.2⟩

theorem bind (h : Preserves I x Q) (hf : ∀ a, Q a → Preserves I (f a) R) :
    Preserves I (x >>= f) R :=
  fun s hs => (h s hs).bind fun a s' ha => hf a ha.2 s' ha.1

/-- What is read is a state that satisfies the invariant. -/
theorem get_bind {f : σ → StateT σ (Except ε) β} (hf : ∀ s, I s → Preserves I (f s) R) :
    Preserves I (MonadState.get >>= f) R := by
  intro s hs
  apply Ends.get_eq.bind
  intro s₁ s₂ h
  obtain ⟨rfl, rfl⟩ := h
  exact hf _ hs _ hs

theorem modify {g : σ → σ} {Q : PUnit → Prop} (h : ∀ s, I s → I (g s)) (hQ : Q ⟨⟩) :
    Preserves I (modify g : StateT σ (Except ε) PUnit) Q :=
  fun s hs => .modify ⟨h s hs, hQ⟩

theorem modifyGet {g : σ → α × σ} (h : ∀ s, I s → I (g s).2 ∧ Q (g s).1) :
    Preserves I (modifyGet g : StateT σ (Except ε) α) Q :=
  fun s hs => .modifyGet (h s hs)

theorem ite {p : Prop} [Decidable p] {y : StateT σ (Except ε) α} (hx : p → Preserves I x Q)
    (hy : ¬ p → Preserves I y Q) : Preserves I (if p then x else y) Q := by
  by_cases h : p
  · rw [if_pos h]
    exact hx h
  · rw [if_neg h]
    exact hy h

/-! ## Lists -/

theorem mapM {g : α → StateT σ (Except ε) β} {l : List α} (hg : ∀ a ∈ l, Preserves I (g a) R) :
    Preserves I (l.mapM g) fun bs => bs.length = l.length ∧ ∀ b ∈ bs, R b := by
  induction l with
  | nil =>
    rw [List.mapM_nil]
    exact pure (by simp)
  | cons a l ih =>
    rw [List.mapM_cons]
    apply (hg a List.mem_cons_self).bind
    intro b hb
    apply (ih fun c hc => hg c (List.mem_cons_of_mem _ hc)).bind
    intro bs hbs
    apply pure
    simp only [List.length_cons, hbs.1, List.mem_cons, forall_eq_or_imp]
    exact ⟨trivial, hb, hbs.2⟩

/-- A loop whose accumulator satisfies a property. -/
theorem foldlM {g : β → α → StateT σ (Except ε) β} {l : List α}
    (hg : ∀ a ∈ l, ∀ b, R b → Preserves I (g b a) R) {b : β} (hb : R b) :
    Preserves I (l.foldlM g b) R := by
  induction l generalizing b with
  | nil =>
    rw [List.foldlM_nil]
    exact pure hb
  | cons a l ih =>
    rw [List.foldlM_cons]
    apply (hg a List.mem_cons_self b hb).bind
    intro b' hb'
    exact ih (fun c hc => hg c (List.mem_cons_of_mem _ hc)) hb'

theorem forM {g : α → StateT σ (Except ε) PUnit} {l : List α}
    (hg : ∀ a ∈ l, Preserves I (g a) fun _ => True) :
    Preserves I (l.forM g) fun _ => True := by
  induction l with
  | nil => exact pure trivial
  | cons a l ih =>
    show Preserves I (g a >>= fun _ => l.forM g) _
    apply (hg a List.mem_cons_self).bind
    intro _ _
    exact ih fun c hc => hg c (List.mem_cons_of_mem _ hc)

end Preserves

end Outcome
