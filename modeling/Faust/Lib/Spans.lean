import Mathlib.Data.List.Basic
import Mathlib.Tactic.Common

/-!
# Spans

`IsSpan p a t`: in the list `a ++ t`, the elements of `a` satisfy `p` and the one that comes after
them does not. A list splits in this way in exactly one manner, which is what a loop that reads
while `p` holds computes.
-/

namespace Faust

variable {α : Type*} {p : α → Bool} {a t a' t' : List α}

/-- The longest beginning of `a ++ t` whose elements satisfy `p` is `a`. -/
structure IsSpan (p : α → Bool) (a t : List α) : Prop where
  all : ∀ c ∈ a, p c = true
  stop : ∀ c, t.head? = some c → p c = false

theorem exists_span (p : α → Bool) (s : List α) : ∃ a t, s = a ++ t ∧ IsSpan p a t := by
  induction s with
  | nil => exact ⟨[], [], rfl, by simp, by simp⟩
  | cons c s ih =>
    by_cases hc : p c = true
    · obtain ⟨a, t, rfl, hall, hstop⟩ := ih
      refine ⟨c :: a, t, rfl, ?_, hstop⟩
      intro d hd
      rcases List.mem_cons.mp hd with rfl | hd
      · exact hc
      · exact hall d hd
    · refine ⟨[], c :: s, rfl, by simp, ?_⟩
      intro d hd
      cases hd
      simpa using hc

namespace IsSpan

/-- Nothing is read where the first element does not satisfy `p`. -/
theorem nil (h : ∀ c, t.head? = some c → p c = false) : IsSpan p [] t := ⟨by simp, h⟩

theorem cons {c : α} (hc : p c = true) (h : IsSpan p a t) : IsSpan p (c :: a) t := by
  refine ⟨fun d hd => ?_, h.stop⟩
  rcases List.mem_cons.mp hd with rfl | hd
  · exact hc
  · exact h.all d hd

/-- A list splits in one manner. -/
theorem unique (h : IsSpan p a t) (h' : IsSpan p a' t') (heq : a ++ t = a' ++ t') :
    a = a' ∧ t = t' := by
  induction a generalizing a' with
  | nil =>
    cases a' with
    | nil => exact ⟨rfl, heq⟩
    | cons c a' =>
      have ht : t = c :: (a' ++ t') := heq
      have hc := h.stop c (by rw [ht]; rfl)
      rw [h'.all c List.mem_cons_self] at hc
      cases hc
  | cons c a ih =>
    cases a' with
    | nil =>
      have ht : t' = c :: (a ++ t) := heq.symm
      have hc := h'.stop c (by rw [ht]; rfl)
      rw [h.all c List.mem_cons_self] at hc
      cases hc
    | cons d a' =>
      injection heq with hcd heq
      subst hcd
      have hrest : IsSpan p a t := ⟨fun e he => h.all e (List.mem_cons_of_mem _ he), h.stop⟩
      have hrest' : IsSpan p a' t' := ⟨fun e he => h'.all e (List.mem_cons_of_mem _ he), h'.stop⟩
      obtain ⟨rfl, rfl⟩ := ih hrest hrest' heq
      exact ⟨rfl, rfl⟩

end IsSpan

end Faust
