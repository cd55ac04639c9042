import Mathlib.Logic.Function.Iterate
import Mathlib.Order.Basic
import Mathlib.Tactic.Common

/-!
# Causal functions on families of streams

A family of streams assigns a stream of values to each index. A function on families is
causal when its output up to a time depends on its input up to that time only, and strictly
causal when it depends on its input before that time. A strictly causal function has exactly
one fixpoint.
-/

namespace Streams

variable {ι V : Type*}

/-- `g` and `h` have the same values at the times before `n`. -/
def AgreeUpTo (n : ℕ) (g h : ι → ℕ → V) : Prop := ∀ i, ∀ t < n, g i t = h i t

namespace AgreeUpTo

variable {n m : ℕ} {g h k : ι → ℕ → V}

theorem refl (n : ℕ) (g : ι → ℕ → V) : AgreeUpTo n g g := fun _ _ _ => rfl

theorem symm (hgh : AgreeUpTo n g h) : AgreeUpTo n h g := fun i t ht => (hgh i t ht).symm

theorem trans (hgh : AgreeUpTo n g h) (hhk : AgreeUpTo n h k) : AgreeUpTo n g k :=
  fun i t ht => (hgh i t ht).trans (hhk i t ht)

theorem mono (hmn : m ≤ n) (hgh : AgreeUpTo n g h) : AgreeUpTo m g h :=
  fun i t ht => hgh i t (Nat.lt_of_lt_of_le ht hmn)

theorem zero (g h : ι → ℕ → V) : AgreeUpTo 0 g h := fun _ _ ht => absurd ht (Nat.not_lt_zero _)

end AgreeUpTo

/-- Families that agree up to any time are equal. -/
theorem eq_of_agreeUpTo {g h : ι → ℕ → V} (hgh : ∀ n, AgreeUpTo n g h) : g = h := by
  funext i t
  exact hgh (t + 1) i t (Nat.lt_succ_self t)

/-- The output of `F` up to a time depends on its input before that time. -/
def StrictlyCausal (F : (ι → ℕ → V) → ι → ℕ → V) : Prop :=
  ∀ n g h, AgreeUpTo n g h → AgreeUpTo (n + 1) (F g) (F h)

/-- The fixpoint of a strictly causal function: the value at time `t` is settled after
`t + 1` iterations from any family `g₀`. -/
def fix (g₀ : ι → ℕ → V) (F : (ι → ℕ → V) → ι → ℕ → V) : ι → ℕ → V :=
  fun i t => F^[t + 1] g₀ i t

section
variable {F F' : (ι → ℕ → V) → ι → ℕ → V} {g₀ : ι → ℕ → V}

/-- After `n` iterations the values before time `n` do not change any more. -/
theorem StrictlyCausal.iterate_agree (hF : StrictlyCausal F) (n : ℕ) (g h : ι → ℕ → V) :
    AgreeUpTo n (F^[n] g) (F^[n] h) := by
  induction n with
  | zero => exact .zero _ _
  | succ n ih =>
    rw [Function.iterate_succ_apply', Function.iterate_succ_apply']
    exact hF n _ _ ih

theorem StrictlyCausal.fix_agree (hF : StrictlyCausal F) (g₀ : ι → ℕ → V) (n : ℕ) :
    AgreeUpTo n (fix g₀ F) (F^[n] g₀) := by
  intro i t ht
  obtain ⟨k, rfl⟩ : ∃ k, n = t + 1 + k := ⟨n - (t + 1), by omega⟩
  rw [Function.iterate_add_apply]
  exact hF.iterate_agree (t + 1) _ _ i t (Nat.lt_succ_self t)

theorem StrictlyCausal.fix_eq (hF : StrictlyCausal F) : F (fix g₀ F) = fix g₀ F := by
  refine eq_of_agreeUpTo fun n => ?_
  have hstep := hF n _ _ (hF.fix_agree g₀ n)
  rw [← Function.iterate_succ_apply' F n g₀] at hstep
  exact (hstep.trans (hF.fix_agree g₀ (n + 1)).symm).mono (Nat.le_succ n)

/-- The fixpoint is unique. -/
theorem StrictlyCausal.eq_fix (hF : StrictlyCausal F) {g : ι → ℕ → V} (hg : F g = g) :
    g = fix g₀ F := by
  refine eq_of_agreeUpTo fun n => ?_
  induction n with
  | zero => exact .zero _ _
  | succ n ih =>
    have hstep := hF n _ _ ih
    rwa [hg, hF.fix_eq] at hstep

/-- Functions that agree up to a time on every family have fixpoints that do. -/
theorem StrictlyCausal.fix_congr (hF : StrictlyCausal F) (hF' : StrictlyCausal F') {n : ℕ}
    (h : ∀ g, AgreeUpTo n (F g) (F' g)) : AgreeUpTo n (fix g₀ F) (fix g₀ F') := by
  have hle : ∀ m ≤ n, AgreeUpTo m (fix g₀ F) (fix g₀ F') := by
    intro m
    induction m with
    | zero => exact fun _ => .zero _ _
    | succ m ih =>
      intro hm
      rw [← hF.fix_eq, ← hF'.fix_eq]
      exact (hF m _ _ (ih (by omega))).trans ((h (fix g₀ F')).mono hm)
  exact hle n (Nat.le_refl n)

end

/-- The stream `s` one sample later, from the value `v`. -/
def delay (v : V) (s : ℕ → V) : ℕ → V
  | 0 => v
  | t + 1 => s t

/-- A delayed stream up to a time depends on the stream before that time. -/
theorem delay_congr {n : ℕ} (v : V) {s s' : ℕ → V} (h : ∀ t < n, s t = s' t) :
    ∀ t < n + 1, delay v s t = delay v s' t := by
  intro t ht
  cases t with
  | zero => rfl
  | succ t => exact h t (by omega)

end Streams
