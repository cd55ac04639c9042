import Mathlib.Order.Basic
import Mathlib.Tactic.Common

/-!
# Outcomes of computations

A computation reads and writes a state, and may fail. `Ends x s E Q` says how it ends from the
state `s`: with a failure that satisfies `E`, or with a value and a state that satisfy `Q`. So one
statement tells both when a computation fails and what it does otherwise.
-/

namespace Outcome

variable {σ ε α β : Type}

/-- How a computation ends from a state. -/
def Ends (x : StateT σ (Except ε) α) (s : σ) (E : ε → Prop) (Q : α → σ → Prop) : Prop :=
  match x s with
  | .ok (a, s') => Q a s'
  | .error e => E e

variable {x : StateT σ (Except ε) α} {f : α → StateT σ (Except ε) β} {s : σ} {E : ε → Prop}
  {Q : α → σ → Prop} {R : β → σ → Prop}

theorem Ends.pure {a : α} (h : Q a s) : Ends (pure a) s E Q := h

theorem Ends.throw {e : ε} (h : E e) : Ends (throw e : StateT σ (Except ε) α) s E Q := h

theorem Ends.get {Q : σ → σ → Prop} (h : Q s s) : Ends (get : StateT σ (Except ε) σ) s E Q := h

/-- What is read is the state, which stays. -/
theorem Ends.get_eq : Ends (MonadState.get : StateT σ (Except ε) σ) s E fun a s' =>
    a = s ∧ s' = s := ⟨rfl, rfl⟩

theorem Ends.modify {g : σ → σ} {Q : PUnit → σ → Prop} (h : Q ⟨⟩ (g s)) :
    Ends (modify g : StateT σ (Except ε) PUnit) s E Q := h

theorem Ends.modifyGet {g : σ → α × σ} (h : Q (g s).1 (g s).2) :
    Ends (modifyGet g : StateT σ (Except ε) α) s E Q := h

theorem Ends.imp {E' : ε → Prop} {Q' : α → σ → Prop} (h : Ends x s E Q) (hE : ∀ e, E e → E' e)
    (hQ : ∀ a s', Q a s' → Q' a s') : Ends x s E' Q' := by
  unfold Ends at h ⊢
  split at h
  · exact hQ _ _ h
  · exact hE _ h

theorem Ends.mono {Q' : α → σ → Prop} (h : Ends x s E Q) (hQ : ∀ a s', Q a s' → Q' a s') :
    Ends x s E Q' := h.imp (fun _ he => he) hQ

theorem Ends.bind (hx : Ends x s E Q) (hf : ∀ a s', Q a s' → Ends (f a) s' E R) :
    Ends (x >>= f) s E R := by
  unfold Ends at hx ⊢
  have hbind : (x >>= f) s = (x s >>= fun p => f p.1 p.2) := rfl
  rw [hbind]
  split at hx
  · next a s' heq =>
    rw [heq]
    exact hf a s' hx
  · next e heq =>
    rw [heq]
    exact hx

/-- A change of the state before what follows. -/
theorem Ends.modify_bind {g : σ → σ} {f : PUnit → StateT σ (Except ε) β}
    (h : Ends (f ⟨⟩) (g s) E R) : Ends (MonadState.modifyGet (fun s => (⟨⟩, g s)) >>= f) s E R := h

theorem Ends.map {g : α → β} (hx : Ends x s E fun a s' => R (g a) s') :
    Ends (g <$> x) s E R := by
  rw [map_eq_pure_bind]
  exact hx.bind fun a s' h => .pure h

/-- A value or a failure, by what `Ends` says. -/
theorem Ends.cases (h : Ends x s E Q) :
    (∃ a s', x s = .ok (a, s') ∧ Q a s') ∨ ∃ e, x s = .error e ∧ E e := by
  unfold Ends at h
  split at h
  · next a s' heq => exact Or.inl ⟨a, s', heq, h⟩
  · next e heq => exact Or.inr ⟨e, heq, h⟩

/-- What holds of the value of a computation that succeeds. -/
theorem Ends.of_ok (h : Ends x s E Q) {a : α} {s' : σ} (hx : x s = .ok (a, s')) : Q a s' := by
  unfold Ends at h
  rw [hx] at h
  exact h

/-- The way a computation ends, with the end itself. -/
theorem Ends.run (h : Ends x s E Q) :
    Ends x s (fun e => x s = .error e ∧ E e) fun a s' => x s = .ok (a, s') ∧ Q a s' := by
  unfold Ends at h ⊢
  split at h
  · next a s' heq => exact ⟨heq, h⟩
  · next e heq => exact ⟨heq, h⟩

/-! ## Lists -/

/-- The computations on the elements of a list keep an invariant `I` and extend the state, in the
sense of `G`; what each of them makes true, extensions keep true. -/
theorem Ends.mapM {I : σ → Prop} {G : σ → σ → Prop} {P : α → σ → Prop}
    {f : α → StateT σ (Except ε) β} (hrefl : ∀ s, G s s)
    (htrans : ∀ {s₁ s₂ s₃}, G s₁ s₂ → G s₂ s₃ → G s₁ s₃)
    (hstable : ∀ {a s₁ s₂}, P a s₁ → G s₁ s₂ → P a s₂) {l : List α}
    (hf : ∀ a ∈ l, ∀ s, I s → Ends (f a) s E fun _ s' => I s' ∧ G s s' ∧ P a s')
    (hs : I s) : Ends (l.mapM f) s E fun _ s' => I s' ∧ G s s' ∧ ∀ a ∈ l, P a s' := by
  induction l generalizing s with
  | nil =>
    rw [List.mapM_nil]
    exact .pure ⟨hs, hrefl s, by simp⟩
  | cons a l ih =>
    rw [List.mapM_cons]
    apply (hf a List.mem_cons_self s hs).bind
    intro _ s₁ h₁
    obtain ⟨hI₁, hg₁, hP₁⟩ := h₁
    apply (ih (fun b hb => hf b (List.mem_cons_of_mem _ hb)) hI₁).bind
    intro _ s₂ h₂
    obtain ⟨hI₂, hg₂, hP₂⟩ := h₂
    refine .pure ⟨hI₂, htrans hg₁ hg₂, ?_⟩
    intro b hb
    rcases List.mem_cons.1 hb with rfl | hb
    · exact hstable hP₁ hg₂
    · exact hP₂ b hb

/-- A loop over a list: what one turn does to the accumulator, in the sense of `R` for one
element, the loop does in the sense of `R` for the list. -/
theorem Ends.foldlM {I : β → σ → Prop} {R : List α → β → β → Prop}
    {f : β → α → StateT σ (Except ε) β} (hnil : ∀ b, R [] b b)
    (hcons : ∀ {a l b₁ b₂ b₃}, R [a] b₁ b₂ → R l b₂ b₃ → R (a :: l) b₁ b₃) {l : List α}
    (hf : ∀ a ∈ l, ∀ b s, I b s → Ends (f b a) s E fun b' s' => I b' s' ∧ R [a] b b')
    {b : β} (hs : I b s) : Ends (l.foldlM f b) s E fun b' s' => I b' s' ∧ R l b b' := by
  induction l generalizing b s with
  | nil =>
    rw [List.foldlM_nil]
    exact .pure ⟨hs, hnil b⟩
  | cons a l ih =>
    rw [List.foldlM_cons]
    apply (hf a List.mem_cons_self b s hs).bind
    intro b₁ s₁ h₁
    apply (ih (fun c hc => hf c (List.mem_cons_of_mem _ hc)) h₁.1).mono
    intro b₂ s₂ h₂
    exact ⟨h₂.1, hcons h₁.2 h₂.2⟩

/-- What each computation makes true of its value, extensions of the state keep true. -/
theorem Ends.mapM_forall {I : σ → Prop} {G : σ → σ → Prop} {R : β → σ → Prop}
    {f : α → StateT σ (Except ε) β} (hrefl : ∀ s, G s s)
    (htrans : ∀ {s₁ s₂ s₃}, G s₁ s₂ → G s₂ s₃ → G s₁ s₃)
    (hstable : ∀ {b s₁ s₂}, R b s₁ → G s₁ s₂ → R b s₂) {l : List α}
    (hf : ∀ a ∈ l, ∀ s, I s → Ends (f a) s E fun b s' => I s' ∧ G s s' ∧ R b s')
    (hs : I s) : Ends (l.mapM f) s E fun bs s' =>
      I s' ∧ G s s' ∧ bs.length = l.length ∧ ∀ b ∈ bs, R b s' := by
  induction l generalizing s with
  | nil =>
    rw [List.mapM_nil]
    exact .pure ⟨hs, hrefl s, rfl, by simp⟩
  | cons a l ih =>
    rw [List.mapM_cons]
    apply (hf a List.mem_cons_self s hs).bind
    intro b s₁ h₁
    obtain ⟨hI₁, hg₁, hR₁⟩ := h₁
    apply (ih (fun b hb => hf b (List.mem_cons_of_mem _ hb)) hI₁).bind
    intro bs s₂ h₂
    obtain ⟨hI₂, hg₂, hlen, hR₂⟩ := h₂
    refine .pure ⟨hI₂, htrans hg₁ hg₂, by simp [hlen], ?_⟩
    intro b' hb'
    rcases List.mem_cons.1 hb' with rfl | hb'
    · exact hstable hR₁ hg₂
    · exact hR₂ b' hb'

theorem Ends.forM {I : σ → Prop} {G : σ → σ → Prop} {P : α → σ → Prop}
    {f : α → StateT σ (Except ε) PUnit} (hrefl : ∀ s, G s s)
    (htrans : ∀ {s₁ s₂ s₃}, G s₁ s₂ → G s₂ s₃ → G s₁ s₃)
    (hstable : ∀ {a s₁ s₂}, P a s₁ → G s₁ s₂ → P a s₂) {l : List α}
    (hf : ∀ a ∈ l, ∀ s, I s → Ends (f a) s E fun _ s' => I s' ∧ G s s' ∧ P a s')
    (hs : I s) : Ends (l.forM f) s E fun _ s' => I s' ∧ G s s' ∧ ∀ a ∈ l, P a s' := by
  induction l generalizing s with
  | nil =>
    exact Ends.pure ⟨hs, hrefl s, by simp⟩
  | cons a l ih =>
    show Ends (f a >>= fun _ => l.forM f) s E _
    apply (hf a List.mem_cons_self s hs).bind
    intro _ s₁ h₁
    obtain ⟨hI₁, hg₁, hP₁⟩ := h₁
    apply (ih (fun b hb => hf b (List.mem_cons_of_mem _ hb)) hI₁).mono
    intro _ s₂ h₂
    obtain ⟨hI₂, hg₂, hP₂⟩ := h₂
    refine ⟨hI₂, htrans hg₁ hg₂, ?_⟩
    intro b hb
    rcases List.mem_cons.1 hb with rfl | hb
    · exact hstable hP₁ hg₂
    · exact hP₂ b hb

/-- What the computations make true is said with a ghost value, which an invariant ties to the
state; what holds with a ghost value holds with the greater ones. -/
theorem Ends.mapM_ghost {γ : Type} [Preorder γ] {I : γ → σ → Prop} {R : γ → α → β → Prop}
    {f : α → StateT σ (Except ε) β}
    (hmono : ∀ {g₁ g₂ a b}, g₁ ≤ g₂ → R g₁ a b → R g₂ a b) {l : List α}
    (hf : ∀ a ∈ l, ∀ g s, I g s → Ends (f a) s E fun b s' => ∃ g', g ≤ g' ∧ I g' s' ∧ R g' a b)
    {g : γ} (hs : I g s) : Ends (l.mapM f) s E fun bs s' =>
      ∃ g', g ≤ g' ∧ I g' s' ∧ List.Forall₂ (R g') l bs := by
  induction l generalizing s g with
  | nil =>
    rw [List.mapM_nil]
    exact .pure ⟨g, le_rfl, hs, .nil⟩
  | cons a l ih =>
    rw [List.mapM_cons]
    apply (hf a List.mem_cons_self g s hs).bind
    intro b s₁ h₁
    obtain ⟨g₁, hg₁, hI₁, hR₁⟩ := h₁
    apply (ih (fun c hc => hf c (List.mem_cons_of_mem _ hc)) hI₁).bind
    intro bs s₂ h₂
    obtain ⟨g₂, hg₂, hI₂, hR₂⟩ := h₂
    exact .pure ⟨g₂, hg₁.trans hg₂, hI₂, .cons (hmono hg₂ hR₁) hR₂⟩

end Outcome
