import Mathlib.Data.Int.ModEq
import Mathlib.Data.List.Basic
import Mathlib.Tactic.Common
import Mathlib.Tactic.Ring

/-!
# Buffers for delayed streams

A stream has a value at each time from 0 on; before time 0 its value is the one the buffers
start with. Two layouts keep its recent past: a register, whose element `d` is the value `d`
samples ago, and a ring, where the value of time `s` is at `s` modulo the size. A window, a
piece of the stream in order of time, is what a block of samples is copied from and to.
-/

namespace DelayBuffer

variable {α : Type*} (zero : α) (x : ℕ → α)

/-- The value at time `s`. -/
def history (s : ℤ) : α := if 0 ≤ s then x s.toNat else zero

theorem history_natCast (t : ℕ) : history zero x t = x t := by simp [history]

theorem history_of_neg {s : ℤ} (h : s < 0) : history zero x s = zero := by
  simp [history, not_le.mpr h]

/-- The value `d` samples before time `t`. -/
theorem history_sub (t d : ℕ) :
    history zero x (t - d) = if d ≤ t then x (t - d) else zero := by
  by_cases h : d ≤ t
  · rw [if_pos h, ← Nat.cast_sub h, history_natCast]
  · rw [if_neg h, history_of_neg zero x (by omega)]

/-! ## Registers -/

/-- Element `d` is the value `d` samples before time `t`, from `d = k` on. -/
def Register (k : ℕ) (t : ℤ) (vs : List α) : Prop :=
  ∀ d, k ≤ d → d < vs.length → vs[d]? = some (history zero x (t - d))

variable {zero x}

/-- A register full of zeros is one of time 0. -/
theorem register_replicate (n : ℕ) : Register zero x 1 0 (List.replicate n zero) := by
  intro d hd hlt
  rw [List.length_replicate] at hlt
  rw [List.getElem?_replicate_of_lt hlt, history_of_neg zero x (by omega)]

/-- The value of time `t` is stored. -/
theorem Register.store {t : ℕ} {vs : List α} (h : Register zero x 1 t vs) :
    Register zero x 0 t (vs.set 0 (x t)) := by
  intro d _ hlt
  rw [List.length_set] at hlt
  cases d with
  | zero =>
    rw [List.getElem?_set_self hlt]
    simp [history_natCast]
  | succ d =>
    rw [List.getElem?_set_ne (by omega)]
    exact h (d + 1) (by omega) hlt

/-- The values move up by one place. -/
theorem Register.shift {t : ℤ} {vs vs' : List α} (h : Register zero x 0 t vs)
    (hlen : vs'.length = vs.length) (hshift : ∀ d < vs.length - 1, vs'[d + 1]? = vs[d]?) :
    Register zero x 1 (t + 1) vs' := by
  intro d hd hlt
  obtain ⟨d, rfl⟩ := Nat.exists_eq_add_of_le' hd
  rw [hshift d (by omega), h d (by omega) (by omega)]
  congr 2
  push_cast
  ring

/-! ## Rings -/

variable (zero x) in
/-- The last values before time `w` are each at its place. -/
def Ring (w : ℤ) (vs : List α) : Prop :=
  ∀ s : ℤ, w - vs.length ≤ s → s < w → vs[(s % vs.length).toNat]? = some (history zero x s)

variable (zero x) in
/-- A ring full of zeros is one of time 0. -/
theorem ring_replicate {n : ℕ} (hn : 0 < n) : Ring zero x 0 (List.replicate n zero) := by
  intro s _ hs
  rw [List.length_replicate, List.getElem?_replicate_of_lt, history_of_neg zero x hs]
  have := Int.emod_lt_of_pos s (by omega : (0 : ℤ) < n)
  omega

/-- The value of time `w` replaces the oldest one. -/
theorem Ring.store {w : ℕ} {vs : List α} (h : Ring zero x w vs) (hpos : 0 < vs.length) :
    Ring zero x (w + 1) (vs.set ((w : ℤ) % vs.length).toNat (x w)) := by
  intro s hle hlt
  rw [List.length_set] at hle ⊢
  have hn : (0 : ℤ) < vs.length := by omega
  have hw₀ := Int.emod_nonneg (w : ℤ) hn.ne'
  have hw₁ := Int.emod_lt_of_pos (w : ℤ) hn
  have hs₀ := Int.emod_nonneg s hn.ne'
  by_cases hs : s = w
  · subst hs
    rw [List.getElem?_set_self (by omega), history_natCast]
  · rw [List.getElem?_set_ne]
    · exact h s (by omega) (by omega)
    · -- two times in a window of the size of the ring have different places
      intro heq
      have hmod : (w : ℤ) % vs.length = s % vs.length := by omega
      have hdiff := Int.emod_eq_emod_iff_emod_sub_eq_zero.mp hmod
      rw [Int.emod_eq_of_lt (by omega) (by omega)] at hdiff
      omega

/-! ## Windows -/

variable (zero x) in
/-- The elements before `n` are the values of the times from `s` on. -/
def Window (s : ℤ) (n : ℕ) (vs : List α) : Prop :=
  n ≤ vs.length ∧ ∀ j < n, vs[j]? = some (history zero x (s + j))

variable (zero x) in
theorem window_zero (s : ℤ) (vs : List α) : Window zero x s 0 vs :=
  ⟨Nat.zero_le _, fun _ hj => absurd hj (Nat.not_lt_zero _)⟩

variable (zero x) in
/-- A window full of zeros ends before time 0. -/
theorem window_replicate (n : ℕ) : Window zero x (-n) n (List.replicate n zero) := by
  refine ⟨by rw [List.length_replicate], fun j hj => ?_⟩
  rw [List.getElem?_replicate_of_lt hj, history_of_neg zero x (by omega)]

/-- The next value is stored at the end of a window. -/
theorem Window.store {s : ℤ} {n t : ℕ} {vs : List α} (h : Window zero x s n vs)
    (hlt : n < vs.length) (ht : s + n = t) : Window zero x s (n + 1) (vs.set n (x t)) := by
  refine ⟨by rw [List.length_set]; omega, fun j hj => ?_⟩
  by_cases hjn : j = n
  · subst hjn
    rw [List.getElem?_set_self hlt, ht, history_natCast]
  · rw [List.getElem?_set_ne (Ne.symm hjn)]
    exact h.2 j (by omega)

/-- A copy of the elements of a window from `off` on. -/
theorem Window.copy {s : ℤ} {n : ℕ} {vs : List α} (h : Window zero x s n vs) (vs' : List α)
    (off r : ℕ) (hr : off + r ≤ n) (hlen : r ≤ vs'.length)
    (hcopy : ∀ j < r, vs'[j]? = vs[off + j]?) :
    Window zero x (s + off) r vs' := by
  refine ⟨hlen, fun j hj => ?_⟩
  rw [hcopy j hj, h.2 (off + j) (by omega)]
  congr 2
  push_cast
  ring

end DelayBuffer
