import Faust.Boxes.Box

/-!
# What the type of a composition says of its parts

One inversion lemma for each composition of boxes: when the composition has a type, so have
its two parts, and their widths fit.
-/

namespace Faust

/-- `getBoxType` succeeds with `m` inputs and `n` outputs. -/
def HasBoxType (b : Box) (m n : ℕ) : Prop := getBoxType b = .ok (some (m, n))

instance (b : Box) (m n : ℕ) : Decidable (HasBoxType b m n) := by
  unfold HasBoxType
  cases getBoxType b with
  | error e => exact isFalse nofun
  | ok o => exact decidable_of_iff (o = some (m, n)) (by simp)

/-- The type of a box is unique. -/
theorem HasBoxType.unique {b : Box} {m n m' n' : ℕ} (h : HasBoxType b m n)
    (h' : HasBoxType b m' n') : m = m' ∧ n = n' := by
  unfold HasBoxType at h h'
  rw [h] at h'
  simpa using h'

theorem ifTyped_some {r : BoxType} {f : ℕ → ℕ → BoxType} {p : ℕ × ℕ}
    (h : ifTyped r f = .ok (some p)) : ∃ u v, r = .ok (some (u, v)) ∧ f u v = .ok (some p) := by
  match r, h with
  | .ok (some (u, v)), h => exact ⟨u, v, rfl, h⟩

namespace HasBoxType

variable {a b : Box} {m n : ℕ}

theorem symbolic_inv {slot : ℤ} (h : HasBoxType (.symbolic slot b) m n) :
    ∃ u, m = u + 1 ∧ HasBoxType b u n := by
  obtain ⟨u, v, hb, h⟩ := ifTyped_some h
  cases h
  exact ⟨u, rfl, hb⟩

theorem group_inv {kind : GroupKind} {label : String} (h : HasBoxType (.group kind label b) m n) :
    HasBoxType b m n := h

theorem seq_inv (h : HasBoxType (.seq a b) m n) :
    ∃ k, HasBoxType a m k ∧ HasBoxType b k n := by
  obtain ⟨u, v, ha, h⟩ := ifTyped_some h
  obtain ⟨x, y, hb, h⟩ := ifTyped_some h
  by_cases hv : v = x
  · rw [if_neg (not_not.mpr hv)] at h
    cases h
    exact ⟨v, ha, hv ▸ hb⟩
  · rw [if_pos hv] at h
    cases h

theorem par_inv (h : HasBoxType (.par a b) m n) :
    ∃ m₁ n₁ m₂ n₂, HasBoxType a m₁ n₁ ∧ HasBoxType b m₂ n₂ ∧ m = m₁ + m₂ ∧ n = n₁ + n₂ := by
  obtain ⟨u, v, ha, h⟩ := ifTyped_some h
  obtain ⟨x, y, hb, h⟩ := ifTyped_some h
  cases h
  exact ⟨u, v, x, y, ha, hb, rfl, rfl⟩

/-- The width conditions of a split or a merge: no side is empty, one divides the other. -/
theorem split_inv (h : HasBoxType (.split a b) m n) :
    ∃ v x, HasBoxType a m v ∧ HasBoxType b x n ∧ 0 < v ∧ 0 < x ∧ v ∣ x := by
  obtain ⟨u, v, ha, h⟩ := ifTyped_some h
  obtain ⟨x, y, hb, h⟩ := ifTyped_some h
  by_cases hv : v = 0
  · rw [if_pos hv] at h
    cases h
  by_cases hx : x = 0
  · rw [if_neg hv, if_pos hx] at h
    cases h
  by_cases hd : x % v = 0
  · rw [if_neg hv, if_neg hx, if_neg (not_not.mpr hd)] at h
    cases h
    exact ⟨v, x, ha, hb, Nat.pos_of_ne_zero hv, Nat.pos_of_ne_zero hx,
      Nat.dvd_of_mod_eq_zero hd⟩
  · rw [if_neg hv, if_neg hx, if_pos hd] at h
    cases h

theorem merge_inv (h : HasBoxType (.merge a b) m n) :
    ∃ v x, HasBoxType a m v ∧ HasBoxType b x n ∧ 0 < v ∧ 0 < x ∧ x ∣ v := by
  obtain ⟨u, v, ha, h⟩ := ifTyped_some h
  obtain ⟨x, y, hb, h⟩ := ifTyped_some h
  by_cases hv : v = 0
  · rw [if_pos hv] at h
    cases h
  by_cases hx : x = 0
  · rw [if_neg hv, if_pos hx] at h
    cases h
  by_cases hd : v % x = 0
  · rw [if_neg hv, if_neg hx, if_neg (not_not.mpr hd)] at h
    cases h
    exact ⟨v, x, ha, hb, Nat.pos_of_ne_zero hv, Nat.pos_of_ne_zero hx,
      Nat.dvd_of_mod_eq_zero hd⟩
  · rw [if_neg hv, if_neg hx, if_pos hd] at h
    cases h

/-- In a recursion the feedback takes its inputs from the outputs of the first box and
feeds its first inputs. -/
theorem recur_inv (h : HasBoxType (.recur a b) m n) :
    ∃ u x y, HasBoxType a u n ∧ HasBoxType b x y ∧ x ≤ n ∧ y + m = u := by
  obtain ⟨u, v, ha, h⟩ := ifTyped_some h
  obtain ⟨x, y, hb, h⟩ := ifTyped_some h
  by_cases hc : x > v ∨ y > u
  · rw [if_pos hc] at h
    cases h
  · rw [if_neg hc] at h
    cases h
    exact ⟨u, x, y, ha, hb, by omega, by omega⟩

end HasBoxType

end Faust
