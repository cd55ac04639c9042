import Faust.Evaluate.Eval
import Faust.Evaluate.EvalLabelTheorems
import Faust.Lib.Preserves

/-!
# Labels in the evaluator

The evaluator computes the values of the identifiers of a label as the loop of `evalLabel` finds
them. Whatever these values are, no pattern is left in the result.
-/

namespace Faust.Eval

open Outcome

variable {value : List Char → EvalM ℤ} {I : EvalState → Prop}

/-- What stops a pattern still does without its digits. -/
theorem stops_dropWhile_digit {src : List Char} (h : Stops src) :
    Stops (src.dropWhile isDigitChar) := by
  induction src with
  | nil => exact h
  | cons c src ih =>
    by_cases hc : isDigitChar c = true
    · rw [Stops.cons_digit hc] at h
      rw [List.dropWhile_cons_of_pos hc]
      exact ih h
    · rwa [List.dropWhile_cons_of_neg hc]

/-- What the loop adds to a label has no pattern, and stops a pattern if the source does. -/
def Adds (src dst out : List Char) : Prop :=
  ∃ added, out = dst ++ added ∧ Quiet added ∧ (Stops src → Stops added)

/-- The loop adds text without patterns, whatever the values are. -/
theorem preserves_evalLabelLoop (hvalue : ∀ ident, Preserves I (value ident) fun _ => True)
    (src dst ident format : List Char) :
    Preserves I (evalLabelLoop value .text src dst ident format) (Adds src dst) := by
  induction hn : src.length using Nat.strong_induction_on
    generalizing src dst ident format with
  | _ n ih =>
    subst hn
    cases src with
    | nil =>
      rw [evalLabelLoop]
      exact .pure ⟨[], by simp, trivial, id⟩
    | cons c src =>
      rw [evalLabelLoop]
      by_cases hc : c = '%'
      · subst hc
        have h₁ := (src.dropWhile_sublist isDigitChar).length_le
        rw [if_pos rfl, evalLabelLoop_format]
        split
        · -- no identifier: the digits are copied with the `%`
          next hstop =>
          have hlen : (src.dropWhile isDigitChar).length < (('%' : Char) :: src).length := by
            simp only [List.length_cons]
            omega
          apply (ih _ hlen _ _ _ _ rfl).mono
          intro out h
          obtain ⟨added, rfl, hquiet, hstops⟩ := h
          have hrest : Stops (src.dropWhile isDigitChar) := stops_dropWhile_digit hstop
          refine ⟨'%' :: (src.takeWhile isDigitChar ++ added), by simp, ⟨fun _ => ?_, ?_⟩,
            fun _ => Stops.cons _ (by decide)⟩
          · exact Stops.append_digits (fun c hc => List.mem_takeWhile_imp hc) (hstops hrest)
          · exact hquiet.append (percent_not_mem_digits src)
        · have h₂ := ((src.dropWhile isDigitChar).dropWhile_sublist isIdentChar).length_le
          have hlen : ((src.dropWhile isDigitChar).dropWhile isIdentChar).length <
              (('%' : Char) :: src).length := by
            simp only [List.length_cons]
            omega
          rw [evalLabelLoop_ident, writeIdentValue, bind_assoc]
          apply (hvalue _).bind
          intro n _
          rw [pure_bind]
          apply (ih _ hlen _ _ _ _ rfl).mono
          intro out h
          obtain ⟨added, rfl, hquiet, hstops⟩ := h
          have hafter := hstops (stops_dropWhile_ident _)
          exact ⟨_, List.append_assoc _ _ _, hquiet.append (percent_not_mem_printInt _ n),
            fun _ => Stops.printInt _ n hafter⟩
      · rw [if_neg hc]
        apply (ih src.length (by simp) _ _ _ _ rfl).mono
        intro out h
        obtain ⟨added, rfl, hquiet, hstops⟩ := h
        refine ⟨c :: added, by simp, ⟨fun he => absurd he hc, hquiet⟩, fun h => ?_⟩
        by_cases hdigit : isDigitChar c = true
        · rw [Stops.cons_digit hdigit] at h ⊢
          exact hstops h
        · apply Stops.cons
          simpa [Stops, hdigit] using h

end Faust.Eval
