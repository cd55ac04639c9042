import Mathlib
import Faust.Signals.Enclosure
import Faust.Lib.Bits

/-!
# Which operations enclose their values

The interval operations are sound one by one, except for `operator&`, where a possibly
negative second operand is bounded by its own mask, and where truncation is overlooked: the
cast to `int` keeps the interval of its operand, and two `int`s have the interval of their exact
quotient. The exact condition is `Operation.Safe`.
-/

namespace Faust

/-! ## Truncation -/

theorem truncInt_of_nonneg {x : ℚ} (h : 0 ≤ x) : truncInt x = ⌊x⌋ := if_pos h

theorem truncInt_of_nonpos {x : ℚ} (h : x ≤ 0) : truncInt x = ⌈x⌉ := by
  rcases h.eq_or_lt with rfl | h
  · simp [truncInt]
  · exact if_neg h.not_ge

@[simp] theorem truncInt_intCast (i : ℤ) : truncInt i = i := by
  unfold truncInt
  split <;> simp

theorem truncInt_nonneg {x : ℚ} (h : 0 ≤ x) : 0 ≤ truncInt x := by
  rw [truncInt_of_nonneg h]
  exact Int.floor_nonneg.mpr h

theorem truncInt_nonpos {x : ℚ} (h : x ≤ 0) : truncInt x ≤ 0 := by
  rw [truncInt_of_nonpos h]
  exact Int.ceil_nonpos.mpr h

theorem truncInt_mono : Monotone truncInt := by
  intro x y hxy
  rcases le_total 0 x with hx | hx
  · rw [truncInt_of_nonneg hx, truncInt_of_nonneg (hx.trans hxy)]
    exact Int.floor_le_floor hxy
  · rcases le_total 0 y with hy | hy
    · exact (truncInt_nonpos hx).trans (truncInt_nonneg hy)
    · rw [truncInt_of_nonpos hx, truncInt_of_nonpos hy]
      exact Int.ceil_le_ceil hxy

/-- Truncation goes towards zero. -/
theorem truncInt_le {x : ℚ} (h : 0 ≤ x) : (truncInt x : ℚ) ≤ x := by
  rw [truncInt_of_nonneg h]
  exact Int.floor_le x

theorem le_truncInt {x : ℚ} (h : x ≤ 0) : x ≤ (truncInt x : ℚ) := by
  rw [truncInt_of_nonpos h]
  exact Int.le_ceil x

theorem truncInt_neg (x : ℚ) : truncInt (-x) = -truncInt x := by
  rcases le_total 0 x with h | h
  · rw [truncInt_of_nonneg h, truncInt_of_nonpos (by linarith), Int.ceil_neg]
  · rw [truncInt_of_nonpos h, truncInt_of_nonneg (by linarith), Int.floor_neg]

/-- Truncating a quotient of integers is dividing them. -/
theorem truncInt_div (i j : ℤ) : truncInt ((i : ℚ) / j) = i.tdiv j := by
  have hnat : ∀ a b : ℕ, truncInt ((a : ℚ) / b) = (a : ℤ).tdiv b := by
    intro a b
    have hf := Rat.floor_intCast_div_natCast a b
    rw [Int.cast_natCast] at hf
    rw [truncInt_of_nonneg (by positivity), hf, Int.tdiv_eq_ediv_of_nonneg (Int.natCast_nonneg a)]
  obtain ⟨a, rfl | rfl⟩ := i.eq_nat_or_neg <;> obtain ⟨b, rfl | rfl⟩ := j.eq_nat_or_neg <;>
    push_cast <;>
    simp only [neg_div, div_neg, neg_neg, truncInt_neg, hnat, Int.neg_tdiv, Int.tdiv_neg]

/-- Every `int` between the truncated bounds is the truncation of a value within them. -/
theorem exists_truncInt {lo hi : ℚ} (h : lo ≤ hi) {n : ℤ} (h₁ : truncInt lo ≤ n)
    (h₂ : n ≤ truncInt hi) : ∃ x, lo ≤ x ∧ x ≤ hi ∧ truncInt x = n := by
  by_cases hlo : lo ≤ n
  · by_cases hhi : (n : ℚ) ≤ hi
    · exact ⟨n, hlo, hhi, truncInt_intCast n⟩
    · -- `n` is above `hi`, so it is the truncation of `hi` itself
      refine ⟨hi, h, le_rfl, le_antisymm ?_ h₂⟩
      rw [← truncInt_intCast n]
      exact truncInt_mono (not_le.mp hhi).le
  · refine ⟨lo, le_rfl, h, le_antisymm h₁ ?_⟩
    rw [← truncInt_intCast n]
    exact truncInt_mono (not_le.mp hlo).le

/-! ## Sums, products and quotients -/

namespace Interval

theorem mem_add {x y : Interval} {a b : ℚ} (hx : x.valid = true) (hy : y.valid = true)
    (ha : a ∈ x) (hb : b ∈ y) : a + b ∈ x.add y := by
  rw [add, if_pos (by simp [hx, hy])]
  exact mem_ofBounds (add_le_add ha.1 hb.1) (add_le_add ha.2 hb.2)

theorem mem_sub {x y : Interval} {a b : ℚ} (hx : x.valid = true) (hy : y.valid = true)
    (ha : a ∈ x) (hb : b ∈ y) : a - b ∈ x.sub y := by
  rw [sub, if_pos (by simp [hx, hy])]
  exact mem_ofBounds (sub_le_sub ha.1 hb.2) (sub_le_sub ha.2 hb.1)

/-- A product by a constant lies between the products of the bounds. -/
theorem mul_mem_bounds {lo hi a : ℚ} (c : ℚ) (h₁ : lo ≤ a) (h₂ : a ≤ hi) :
    min (lo * c) (hi * c) ≤ a * c ∧ a * c ≤ max (lo * c) (hi * c) := by
  rcases le_total 0 c with hc | hc
  · exact ⟨min_le_of_left_le (mul_le_mul_of_nonneg_right h₁ hc),
      le_max_of_le_right (mul_le_mul_of_nonneg_right h₂ hc)⟩
  · exact ⟨min_le_of_right_le (mul_le_mul_of_nonpos_right h₂ hc),
      le_max_of_le_left (mul_le_mul_of_nonpos_right h₁ hc)⟩

theorem mem_mul {x y : Interval} {a b : ℚ} (hx : x.valid = true) (hy : y.valid = true)
    (ha : a ∈ x) (hb : b ∈ y) : a * b ∈ x.mul y := by
  rw [mul, if_pos (by simp [hx, hy])]
  obtain ⟨h₁, h₂⟩ := mul_mem_bounds b ha.1 ha.2
  obtain ⟨h₃, h₄⟩ := mul_mem_bounds x.lo hb.1 hb.2
  obtain ⟨h₅, h₆⟩ := mul_mem_bounds x.hi hb.1 hb.2
  rw [mul_comm y.lo, mul_comm y.hi, mul_comm b] at h₃ h₄ h₅ h₆
  refine mem_ofBounds ?_ ?_
  · exact (min_le_min h₃ h₅).trans h₁
  · exact h₂.trans (max_le_max h₄ h₆)

theorem mem_div {x y : Interval} {a b : ℚ}
    (hv : (x.div y).valid = true) (ha : a ∈ x) (hb : b ∈ y) : a / b ∈ x.div y := by
  unfold div at hv ⊢
  split at hv
  · rename_i hc
    rw [if_pos hc]
    simp only [Bool.and_eq_true, Bool.or_eq_true, decide_eq_true_eq] at hc
    obtain ⟨⟨hx, -⟩, hsign⟩ := hc
    have hinv : 1 / b ∈ ofBounds (1 / y.hi) (1 / y.lo) := by
      rcases hsign with hpos | hneg
      · exact mem_ofBounds (one_div_le_one_div_of_le (hpos.trans_le hb.1) hb.2)
          (one_div_le_one_div_of_le hpos hb.1)
      · exact mem_ofBounds (one_div_le_one_div_of_neg_of_le hneg hb.2)
          (one_div_le_one_div_of_neg_of_le (hb.2.trans_lt hneg) hb.1)
    have hdiv : a / b = a * (1 / b) := div_eq_mul_one_div a b
    rw [hdiv]
    exact mem_mul hx rfl ha hinv
  · cases hv

/-! ## The quotient nearest to zero -/

theorem zero_notMem {x : Interval} (h : 0 ∉ x) : 0 < x.lo ∨ x.hi < 0 := by
  rwa [mem_def, not_and_or, not_le, not_le] at h

theorem near_mem (x : Interval) : x.near ∈ x := by
  unfold near
  split
  · exact ⟨le_rfl, x.le⟩
  · exact ⟨x.le, le_rfl⟩

theorem far_mem (x : Interval) : x.far ∈ x := by
  unfold far
  split
  · exact ⟨x.le, le_rfl⟩
  · exact ⟨le_rfl, x.le⟩

theorem abs_near_le {x : Interval} (h : 0 ∉ x) {a : ℚ} (ha : a ∈ x) : |x.near| ≤ |a| := by
  unfold near
  rcases zero_notMem h with hpos | hneg
  · rw [if_pos hpos, abs_of_pos hpos, abs_of_pos (hpos.trans_le ha.1)]
    exact ha.1
  · rw [if_neg (x.le.trans_lt hneg).not_gt, abs_of_neg hneg, abs_of_neg (ha.2.trans_lt hneg)]
    exact neg_le_neg ha.2

theorem abs_le_far {x : Interval} (h : 0 ∉ x) {a : ℚ} (ha : a ∈ x) : |a| ≤ |x.far| := by
  unfold far
  rcases zero_notMem h with hpos | hneg
  · rw [if_pos hpos, abs_of_pos (hpos.trans_le ha.1), abs_of_pos (hpos.trans_le x.le)]
    exact ha.2
  · rw [if_neg (x.le.trans_lt hneg).not_gt, abs_of_neg (ha.2.trans_lt hneg),
      abs_of_neg (x.le.trans_lt hneg)]
    exact neg_le_neg ha.1

/-- No quotient is nearer to zero than that of the bounds. -/
theorem abs_near_div_far_le {x y : Interval} (hx : 0 ∉ x) (hy : 0 ∉ y) {a b : ℚ} (ha : a ∈ x)
    (hb : b ∈ y) : |x.near / y.far| ≤ |a / b| := by
  have hb₀ : 0 < |b| := abs_pos.mpr fun h => hy (h ▸ hb)
  rw [abs_div, abs_div]
  exact div_le_div₀ (abs_nonneg a) (abs_near_le hx ha) hb₀ (abs_le_far hy hb)

/-- The quotients of two intervals without zero have one sign. -/
theorem div_sign {x y : Interval} (hx : 0 ∉ x) (hy : 0 ∉ y) :
    (∀ a ∈ x, ∀ b ∈ y, 0 < a / b) ∨ ∀ a ∈ x, ∀ b ∈ y, a / b < 0 := by
  rcases zero_notMem hx with h₁ | h₁ <;> rcases zero_notMem hy with h₂ | h₂
  · exact .inl fun a ha b hb => div_pos (h₁.trans_le ha.1) (h₂.trans_le hb.1)
  · exact .inr fun a ha b hb => div_neg_of_pos_of_neg (h₁.trans_le ha.1) (hb.2.trans_lt h₂)
  · exact .inr fun a ha b hb => div_neg_of_neg_of_pos (ha.2.trans_lt h₁) (h₂.trans_le hb.1)
  · exact .inl fun a ha b hb => div_pos_of_neg_of_neg (ha.2.trans_lt h₁) (hb.2.trans_lt h₂)

theorem valid_div {x y : Interval} (hx : x.valid = true) (hy : y.valid = true) :
    (x.div y).valid = true ↔ 0 ∉ y := by
  rw [mem_def, not_and_or, not_le, not_le]
  unfold div
  split
  · rename_i hc
    simp only [hx, hy, Bool.true_and, Bool.or_eq_true, decide_eq_true_eq] at hc
    exact iff_of_true (by simp [mul, hx]) hc
  · rename_i hc
    simp only [hx, hy, Bool.true_and, Bool.or_eq_true, decide_eq_true_eq] at hc
    exact iff_of_false (by simp) hc

/-- The bounds of the interval of the quotients are quotients. -/
theorem bounds_div {P : ℚ → Prop} {x y : Interval} (hv : (x.div y).valid = true)
    (h : ∀ a ∈ x, ∀ b ∈ y, P (a / b)) : P (x.div y).lo ∧ P (x.div y).hi := by
  have hlo : x.lo ∈ x := ⟨le_rfl, x.le⟩
  have hhi : x.hi ∈ x := ⟨x.le, le_rfl⟩
  have hinv : ∀ a ∈ x, P (a * min (1 / y.hi) (1 / y.lo)) ∧ P (a * max (1 / y.hi) (1 / y.lo)) := by
    intro a ha
    have h₁ : P (a * (1 / y.hi)) := by
      rw [mul_one_div]
      exact h a ha y.hi ⟨y.le, le_rfl⟩
    have h₂ : P (a * (1 / y.lo)) := by
      rw [mul_one_div]
      exact h a ha y.lo ⟨le_rfl, y.le⟩
    exact ⟨min_rec' (fun t => P (a * t)) h₁ h₂, max_rec' (fun t => P (a * t)) h₁ h₂⟩
  unfold div at hv ⊢
  split at hv
  · rename_i hc
    rw [if_pos hc]
    simp only [Bool.and_eq_true] at hc
    rw [mul, if_pos (by simp [hc.1.1]), lo_ofBounds, hi_ofBounds, min4, max4]
    obtain ⟨h₁, h₂⟩ := hinv _ hlo
    obtain ⟨h₃, h₄⟩ := hinv _ hhi
    have hmin := min_rec' P (min_rec' P h₁ h₂) (min_rec' P h₃ h₄)
    have hmax := max_rec' P (max_rec' P h₁ h₂) (max_rec' P h₃ h₄)
    exact ⟨min_rec' P hmin hmax, max_rec' P hmin hmax⟩
  · cases hv

/-- No element of the interval of the quotients is nearer to zero than the quotient of the
bounds. -/
theorem abs_near_div_far_le_of_mem {x y : Interval} (hv : (x.div y).valid = true) (hx : 0 ∉ x)
    (hy : 0 ∉ y) {r : ℚ} (hr : r ∈ x.div y) : |x.near / y.far| ≤ |r| := by
  have hle := bounds_div (P := fun t => |x.near / y.far| ≤ |t|) hv fun a ha b hb =>
    abs_near_div_far_le hx hy ha hb
  rcases div_sign hx hy with hpos | hneg
  · have hlo := (bounds_div hv hpos).1
    rw [abs_of_pos (hlo.trans_le hr.1)]
    exact (hle.1.trans_eq (abs_of_pos hlo)).trans hr.1
  · have hhi := (bounds_div (P := fun t => t < 0) hv hneg).2
    rw [abs_of_neg (hr.2.trans_lt hhi)]
    exact (hle.2.trans_eq (abs_of_neg hhi)).trans (neg_le_neg hr.2)

/-! ## Reunion, minimum, maximum and absolute value -/

theorem mem_reunion_left {x y : Interval} {a : ℚ} (hx : x.valid = true) (hy : y.valid = true)
    (ha : a ∈ x) : a ∈ x.reunion y := by
  rw [reunion, if_pos (by simp [hx, hy])]
  exact mem_ofBounds (min_le_of_left_le ha.1) (le_max_of_le_left ha.2)

theorem mem_reunion_right {x y : Interval} {a : ℚ} (hx : x.valid = true)
    (hy : y.valid = true) (ha : a ∈ y) : a ∈ x.reunion y := by
  rw [reunion, if_pos (by simp [hx, hy])]
  exact mem_ofBounds (min_le_of_right_le ha.1) (le_max_of_le_right ha.2)

theorem mem_min {x y : Interval} {a b : ℚ} (ha : a ∈ x) (hb : b ∈ y) :
    min a b ∈ x.min y :=
  mem_ofBounds (min_le_min ha.1 hb.1) (min_le_min ha.2 hb.2)

theorem mem_max {x y : Interval} {a b : ℚ} (ha : a ∈ x) (hb : b ∈ y) :
    max a b ∈ x.max y :=
  mem_ofBounds (max_le_max ha.1 hb.1) (max_le_max ha.2 hb.2)

theorem mem_abs {x : Interval} {a : ℚ} (hx : x.valid = true) (ha : a ∈ x) : |a| ∈ x.abs := by
  rw [Interval.abs, if_pos hx]
  split
  · rename_i hlo
    rwa [abs_of_nonneg (le_trans hlo ha.1)]
  · split
    · rename_i hhi
      refine mem_ofBounds ?_ ?_
      · rw [abs_of_neg hhi, abs_of_neg (ha.2.trans_lt hhi)]
        exact neg_le_neg ha.2
      · rw [abs_of_neg (ha.2.trans_lt hhi), abs_of_neg (x.le.trans_lt hhi)]
        exact neg_le_neg ha.1
    · rename_i hhi
      have hmax := abs_le_max_abs_abs ha.1 ha.2
      rw [abs_of_nonneg (not_lt.mp hhi)] at hmax
      exact mem_ofBounds (abs_nonneg a) hmax

end Interval

/-! ## Values of literals -/

/-- A typed literal is a number. -/
theorem HasType.num {a : Node} {t : SimpleType} (h : HasType a t) :
    (∃ i, a = .int i ∧ IsInt32 i) ∨ ∃ x, a = .double x := by
  have := h.nature
  split at this
  · exact .inl this
  · exact .inr this

/-- The value of an operation on literals whose `int` version does not overflow. -/
theorem toDouble_arith {f : ℤ → ℤ → ℤ} (g : ℚ → ℚ → ℚ) (hfg : ∀ i j : ℤ, (f i j : ℚ) = g i j)
    {a b : Node} {t₁ t₂ : SimpleType} (ha : HasType a t₁) (hb : HasType b t₂)
    (hdef : NoOverflow f a b) :
    (Node.arith wrap32 f g a b).toDouble = g a.toDouble b.toDouble := by
  unfold Node.arith
  rcases ha.num with ⟨i, rfl, -⟩ | ⟨x, rfl⟩ <;> rcases hb.num with ⟨j, rfl, -⟩ | ⟨y, rfl⟩
  · simp only [Node.isDouble, Bool.or_self, Bool.false_eq_true, if_false, Node.toInt_int,
      Node.toDouble_int]
    rw [wrap32_of_isInt32 (hdef i j rfl rfl), hfg]
  all_goals simp [Node.isDouble]

/-- The conversion of a typed literal to `int`, when it is defined. -/
theorem toInt_eq {a : Node} {t : SimpleType} (ha : HasType a t) (hc : Convertible a) :
    a.toInt wrap32 = truncInt a.toDouble := by
  rcases ha.num with ⟨i, rfl, -⟩ | ⟨x, rfl⟩
  · rw [Node.toInt_int, Node.toDouble_int, truncInt_intCast]
  · exact wrap32_of_isInt32 hc

theorem toDouble_compare (f : ℤ → ℤ → Bool) (g : ℚ → ℚ → Bool) (a b : Node) :
    (Node.compare wrap32 f g a b).toDouble ∈ Interval.ofBounds 0 1 := by
  rw [Interval.mem_ofBounds_iff (by norm_num), Node.compare, Node.toDouble_int]
  split
  · cases g a.toDouble b.toDouble <;> simp
  · cases f (a.toInt wrap32) (b.toInt wrap32) <;> simp

/-! ## Masks -/

namespace Interval

theorem smear_smeared (v : BitVec 32) : Bits.Smeared 32 v (smear v) :=
  (((((Bits.Smeared.one v).double (by decide)).double (by decide)).double
    (by decide)).double (by decide)).double (by decide)

/-- A mask has the bits up to the highest one of the number it is made from. -/
theorem getLsbD_smear (v : BitVec 32) {j : ℕ} (hj : j < 32) :
    (smear v).getLsbD j = true ↔ ∃ k, j ≤ k ∧ k < 32 ∧ v.getLsbD k = true :=
  (smear_smeared v).getLsbD hj

theorem getLsbD_smear_mono (v : BitVec 32) {j k : ℕ} (hjk : j ≤ k) (hk : k < 32)
    (h : (smear v).getLsbD k = true) : (smear v).getLsbD j = true := by
  obtain ⟨l, hl, hl', hbit⟩ := (getLsbD_smear v hk).mp h
  exact (getLsbD_smear v (hjk.trans_lt hk)).mpr ⟨l, hjk.trans hl, hl', hbit⟩

theorem bitmask_eq_some {x : ℚ} {m : BitVec 32} :
    bitmask x = some m ↔ IsInt32 (truncInt x) ∧ m = smear (.ofInt 32 (truncInt x)) := by
  unfold bitmask
  split <;> simp [*, eq_comm]

theorem bitmask_isSome {x : ℚ} (h : IsInt32 (truncInt x)) :
    bitmask x = some (smear (.ofInt 32 (truncInt x))) := if_pos h

theorem toInt_ofInt_of_isInt32 {i : ℤ} (h : IsInt32 i) : (BitVec.ofInt 32 i).toInt = i := by
  rw [BitVec.toInt_ofInt]
  exact wrap32_of_isInt32 h

theorem msb_ofInt {i : ℤ} (h : IsInt32 i) (hi : 0 ≤ i) : (BitVec.ofInt 32 i).msb = false := by
  rw [BitVec.msb_eq_toInt, toInt_ofInt_of_isInt32 h]
  exact decide_eq_false (by omega)

theorem msb_smear (v : BitVec 32) : (smear v).msb = v.msb := by
  rw [BitVec.msb_eq_getLsbD_last, BitVec.msb_eq_getLsbD_last, Bool.eq_iff_iff,
    getLsbD_smear v (by decide)]
  constructor
  · rintro ⟨k, hk, hlt, hbit⟩
    obtain rfl : k = 31 := by omega
    exact hbit
  · exact fun h => ⟨31, le_rfl, by decide, h⟩

/-- The mask of a nonnegative number has every bit of the numbers below it. -/
theorem getLsbD_smear_of_le {n b : ℤ} (hn : IsInt32 n) (hb : 0 ≤ b) (hbn : b ≤ n) {j : ℕ}
    (hj : j < 32) (hbit : (BitVec.ofInt 32 b).getLsbD j = true) :
    (smear (BitVec.ofInt 32 n)).getLsbD j = true := by
  have hb32 : IsInt32 b := ⟨by have := hn.1; omega, hbn.trans_lt hn.2⟩
  have hge := Bits.two_pow_le_toInt (msb_ofInt hb32 hb) hbit
  rw [toInt_ofInt_of_isInt32 hb32] at hge
  have hn' : (2 : ℤ) ^ j ≤ (BitVec.ofInt 32 n).toNat := by
    rw [← BitVec.toInt_eq_toNat_of_msb (msb_ofInt hn (hb.trans hbn)),
      toInt_ofInt_of_isInt32 hn]
    exact hge.trans hbn
  obtain ⟨k, hk, hkbit⟩ := Nat.exists_ge_and_testBit_of_ge_two_pow (by exact_mod_cast hn')
  rw [BitVec.testBit_toNat] at hkbit
  exact (getLsbD_smear _ hj).mpr ⟨k, hk, BitVec.lt_of_getLsbD hkbit, hkbit⟩

theorem mem_ofBounds_zero {c m : ℤ} (hc : 0 ≤ c) :
    (c : ℚ) ∈ ofBounds 0 m ↔ c ≤ m.toNat := by
  have hlo : min (0 : ℚ) m ≤ c := min_le_of_left_le (by exact_mod_cast hc)
  have hmax : max (0 : ℚ) m = ((m.toNat : ℤ) : ℚ) := by
    rw [Int.toNat_eq_max, max_comm]
    push_cast
    rfl
  rw [mem_def, lo_ofBounds, hi_ofBounds, hmax]
  exact ⟨fun h => by exact_mod_cast h.2, fun h => ⟨hlo, by exact_mod_cast h⟩⟩

/-- An integer with bits of a nonnegative mask only is in the interval up to the mask. -/
theorem mem_ofBounds_of_bits {a m : BitVec 32} (hm : m.msb = false)
    (h : ∀ j < 32, a.getLsbD j = true → m.getLsbD j = true) :
    (a.toInt : ℚ) ∈ ofBounds 0 m.toInt := by
  obtain ⟨h₁, h₂⟩ := Bits.toInt_le_of_bits hm h
  rw [mem_ofBounds_zero h₁]
  omega

end Interval

/-! ## The integers a type allows -/

namespace SimpleType

theorem isInt32_of_mem {t : SimpleType} {n : ℤ} (h₁ : t.intLo ≤ n) (h₂ : n ≤ t.intHi) :
    IsInt32 n := by
  have hlo : -2 ^ 31 ≤ t.intLo := le_max_left ..
  have hhi : t.intHi ≤ 2 ^ 31 - 1 := min_le_left ..
  exact ⟨by omega, by omega⟩

/-- A value that converts to `int` does so between `intLo` and `intHi`. -/
theorem intLo_le_truncInt {t : SimpleType} (ht : t.interval.valid = true) {a : Node}
    (ha : HasType a t) (hc : Convertible a) :
    t.intLo ≤ truncInt a.toDouble ∧ truncInt a.toDouble ≤ t.intHi := by
  obtain ⟨h₁, h₂⟩ := ha.mem ht
  have hnat := ha.nature
  obtain ⟨hc₁, hc₂⟩ := hc
  unfold intLo intHi
  cases hk : t.nature with
  | kInt =>
    simp only [hk] at hnat ⊢
    obtain ⟨i, rfl, -⟩ := hnat
    rw [Node.toDouble_int, truncInt_intCast] at *
    exact ⟨max_le hc₁ (Int.ceil_le.mpr h₁), le_min (by omega) (Int.le_floor.mpr h₂)⟩
  | kReal =>
    exact ⟨max_le hc₁ (truncInt_mono h₁), le_min (by omega) (truncInt_mono h₂)⟩

/-- Every integer from `intLo` to `intHi` is a value of an `int` signal. -/
theorem hasType_int {t : SimpleType} (hk : t.nature = .kInt) {n : ℤ}
    (h : t.intLo ≤ n ∧ n ≤ t.intHi) : HasType (.int n) t := by
  have hlo := (le_max_right ..).trans h.1
  have hhi := h.2.trans (min_le_right ..)
  simp only [hk] at hlo hhi
  exact ⟨by simp [hk, isInt32_of_mem h.1 h.2],
    fun _ => ⟨Int.ceil_le.mp hlo, Int.le_floor.mp hhi⟩⟩

/-- Every integer from `intLo` to `intHi` is the conversion of a value. -/
theorem exists_hasType {t : SimpleType} {n : ℤ} (h₁ : t.intLo ≤ n) (h₂ : n ≤ t.intHi) :
    ∃ a, HasType a t ∧ truncInt a.toDouble = n := by
  cases hk : t.nature with
  | kInt => exact ⟨.int n, hasType_int hk ⟨h₁, h₂⟩, truncInt_intCast n⟩
  | kReal =>
    have hlo := (le_max_right ..).trans h₁
    have hhi := h₂.trans (min_le_right ..)
    simp only [hk] at hlo hhi
    obtain ⟨x, hx₁, hx₂, hx⟩ := exists_truncInt t.interval.le hlo hhi
    exact ⟨.double x, ⟨by simp [hk], fun _ => ⟨hx₁, hx₂⟩⟩, hx⟩

/-- `CanSet` is what it says: a value of the type has the bit. -/
theorem canSet_iff {t : SimpleType} (ht : t.interval.valid = true) {i : ℕ} (hi : i < 32) :
    t.CanSet i ↔ ∃ a, HasType a t ∧ Convertible a ∧
      (BitVec.ofInt 32 (truncInt a.toDouble)).getLsbD i = true := by
  constructor
  · rintro ⟨hle, hbit⟩
    obtain ⟨n, h₁, h₂, hodd⟩ := (Bits.exists_bit_iff hle i).mpr hbit
    obtain ⟨a, ha, rfl⟩ := exists_hasType h₁ h₂
    refine ⟨a, ha, isInt32_of_mem h₁ h₂, ?_⟩
    rw [Bits.getLsbD_ofInt _ hi]
    exact decide_eq_true hodd
  · rintro ⟨a, ha, hc, hbit⟩
    obtain ⟨h₁, h₂⟩ := intLo_le_truncInt ht ha hc
    rw [Bits.getLsbD_ofInt _ hi] at hbit
    exact ⟨h₁.trans h₂, (Bits.exists_bit_iff (h₁.trans h₂) i).mp
      ⟨_, h₁, h₂, of_decide_eq_true hbit⟩⟩

end SimpleType

/-! ## Values of `int` signals -/

theorem HasType.eq_int {a : Node} {t : SimpleType} (h : HasType a t) (hk : t.nature = .kInt) :
    ∃ i, a = .int i := by
  have hnat := h.nature
  simp only [hk] at hnat
  exact hnat.imp fun _ h => h.1

theorem isInt32_of_toDouble {a : Node} {t : SimpleType} (ha : HasType a t) {i : ℤ}
    (h : a = .int i) : IsInt32 i := by
  rcases ha.num with ⟨j, rfl, hj⟩ | ⟨x, rfl⟩
  · cases h
    exact hj
  · cases h

theorem HasType.int_bounds {t : SimpleType} (ht : t.interval.valid = true) {i : ℤ}
    (h : HasType (.int i) t) : t.intLo ≤ i ∧ i ≤ t.intHi := by
  have hconv : Convertible (.int i) := by
    unfold Convertible
    rw [Node.toDouble_int, truncInt_intCast]
    exact isInt32_of_toDouble h rfl
  have hle := SimpleType.intLo_le_truncInt ht h hconv
  rwa [Node.toDouble_int, truncInt_intCast] at hle

namespace SimpleType

theorem intNear_mem (t : SimpleType) (h : t.intLo ≤ t.intHi) :
    t.intLo ≤ t.intNear ∧ t.intNear ≤ t.intHi := by
  unfold intNear
  split
  · exact ⟨le_rfl, h⟩
  · exact ⟨h, le_rfl⟩

theorem intFar_mem (t : SimpleType) (h : t.intLo ≤ t.intHi) :
    t.intLo ≤ t.intFar ∧ t.intFar ≤ t.intHi := by
  unfold intFar
  split
  · exact ⟨h, le_rfl⟩
  · exact ⟨le_rfl, h⟩

theorem abs_intNear_le {t : SimpleType} (hk : t.nature = .kInt) (ht : t.interval.valid = true)
    (h₀ : 0 ∉ t.interval) {i : ℤ} (hi : HasType (.int i) t) :
    |(t.intNear : ℚ)| ≤ |(i : ℚ)| := by
  obtain ⟨h₁, h₂⟩ := hi.int_bounds ht
  have hn : (t.intNear : ℚ) ∈ t.interval :=
    (hasType_int hk (t.intNear_mem (h₁.trans h₂))).mem ht
  have hi : (i : ℚ) ∈ t.interval := hi.mem ht
  unfold intNear at *
  rcases Interval.zero_notMem h₀ with hpos | hneg
  · rw [if_pos hpos] at *
    rw [abs_of_pos (hpos.trans_le hn.1), abs_of_pos (hpos.trans_le hi.1)]
    exact_mod_cast h₁
  · rw [if_neg (t.interval.le.trans_lt hneg).not_gt] at *
    rw [abs_of_neg (hn.2.trans_lt hneg), abs_of_neg (hi.2.trans_lt hneg)]
    exact neg_le_neg (by exact_mod_cast h₂)

theorem abs_le_intFar {t : SimpleType} (hk : t.nature = .kInt) (ht : t.interval.valid = true)
    (h₀ : 0 ∉ t.interval) {i : ℤ} (hi : HasType (.int i) t) :
    |(i : ℚ)| ≤ |(t.intFar : ℚ)| := by
  obtain ⟨h₁, h₂⟩ := hi.int_bounds ht
  have hf : (t.intFar : ℚ) ∈ t.interval :=
    (hasType_int hk (t.intFar_mem (h₁.trans h₂))).mem ht
  have hi : (i : ℚ) ∈ t.interval := hi.mem ht
  unfold intFar at *
  rcases Interval.zero_notMem h₀ with hpos | hneg
  · rw [if_pos hpos] at *
    rw [abs_of_pos (hpos.trans_le hf.1), abs_of_pos (hpos.trans_le hi.1)]
    exact_mod_cast h₂
  · rw [if_neg (t.interval.le.trans_lt hneg).not_gt] at *
    rw [abs_of_neg (hf.2.trans_lt hneg), abs_of_neg (hi.2.trans_lt hneg)]
    exact neg_le_neg (by exact_mod_cast h₁)

end SimpleType

/-! ## Operators on bits -/

/-- The bits of the conversion of a literal to `int`. -/
def Node.bits (a : Node) : BitVec 32 := .ofInt 32 (truncInt a.toDouble)

theorem toDouble_bitwise (f : BitVec 32 → BitVec 32 → BitVec 32) {a b : Node}
    {t₁ t₂ : SimpleType} (ha : HasType a t₁) (hb : HasType b t₂) (hca : Convertible a)
    (hcb : Convertible b) :
    (Node.bitwise wrap32 f a b).toDouble = (f a.bits b.bits).toInt := by
  rw [Node.bitwise, Node.toDouble_int, toInt_eq ha hca, toInt_eq hb hcb]
  rfl

/-- The value of a literal whose type has no negative value. -/
theorem HasType.truncInt_bounds {a : Node} {t : SimpleType} (ha : HasType a t)
    (ht : t.interval.valid = true) (hlo : 0 ≤ t.interval.lo) :
    0 ≤ truncInt a.toDouble ∧ truncInt a.toDouble ≤ truncInt t.interval.hi :=
  ⟨truncInt_nonneg (hlo.trans (ha.mem ht).1), truncInt_mono (ha.mem ht).2⟩

/-- The bits of a value of a type without negative values are in the mask of its bound. -/
theorem HasType.bits_mask {a : Node} {t : SimpleType} (ha : HasType a t)
    (ht : t.interval.valid = true) (hlo : 0 ≤ t.interval.lo)
    (hhi : IsInt32 (truncInt t.interval.hi)) {j : ℕ} (hj : j < 32)
    (hbit : a.bits.getLsbD j = true) :
    (Interval.smear (.ofInt 32 (truncInt t.interval.hi))).getLsbD j = true := by
  obtain ⟨h₁, h₂⟩ := ha.truncInt_bounds ht hlo
  exact Interval.getLsbD_smear_of_le hhi h₁ h₂ hj hbit

theorem msb_mask {t : SimpleType} (hlo : 0 ≤ t.interval.lo)
    (hhi : IsInt32 (truncInt t.interval.hi)) :
    (Interval.smear (.ofInt 32 (truncInt t.interval.hi))).msb = false := by
  rw [Interval.msb_smear]
  exact Interval.msb_ofInt hhi (truncInt_nonneg (hlo.trans t.interval.le))

/-- When only the second operand may be negative, `a & b` is in the interval returned
unless a bit above the mask is common to `a` and `b`. -/
theorem mem_and_mask {a b : BitVec 32} (ha : a.msb = false) (v : BitVec 32) :
    ((a &&& b).toInt : ℚ) ∈ Interval.ofBounds 0 (Interval.smear v).toInt ↔
      ∀ i < 32, (Interval.smear v).toInt.toNat < 2 ^ i →
        ¬ (a.getLsbD i = true ∧ b.getLsbD i = true) := by
  set m := Interval.smear v with hm
  have hmsb : (a &&& b).msb = false := by rw [BitVec.msb_and, ha, Bool.false_and]
  have hnonneg : 0 ≤ (a &&& b).toInt := by
    rw [BitVec.toInt_eq_toNat_of_msb hmsb]
    positivity
  rw [Interval.mem_ofBounds_zero hnonneg]
  constructor
  · rintro hle i - hlt ⟨hai, hbi⟩
    have hbit : (a &&& b).getLsbD i = true := by rw [BitVec.getLsbD_and, hai, hbi]; rfl
    have hge := Bits.two_pow_le_toInt hmsb hbit
    have : ((2 ^ i : ℕ) : ℤ) ≤ m.toInt.toNat := by
      push_cast
      exact hge.trans hle
    omega
  · intro h
    -- a bit of `a & b` is one of the mask, as masks have every bit below their highest one
    have hbits : ∀ j < 32, (a &&& b).getLsbD j = true → 2 ^ j ≤ m.toInt.toNat := by
      intro j hj hbit
      rw [BitVec.getLsbD_and, Bool.and_eq_true] at hbit
      by_contra hlt
      exact h j hj (not_le.mp hlt) hbit
    cases hmm : m.msb with
    | true =>
      have hneg : m.toInt < 0 := by
        rw [BitVec.msb_eq_toInt] at hmm
        exact of_decide_eq_true hmm
      have hzero : a &&& b = 0 := by
        apply BitVec.eq_of_getLsbD_eq
        intro j hj
        by_contra hne
        have := hbits j hj (by simpa using hne)
        have := Nat.two_pow_pos j
        omega
      rw [hzero]
      simp
    | false =>
      have hcover : ∀ j < 32, (a &&& b).getLsbD j = true → m.getLsbD j = true := by
        intro j hj hbit
        have hge := hbits j hj hbit
        rw [BitVec.toInt_eq_toNat_of_msb hmm, Int.toNat_natCast] at hge
        obtain ⟨k, hk, hkbit⟩ := Nat.exists_ge_and_testBit_of_ge_two_pow hge
        rw [BitVec.testBit_toNat] at hkbit
        exact Interval.getLsbD_smear_mono v hk (BitVec.lt_of_getLsbD hkbit) hkbit
      have := (Bits.toInt_le_of_bits hmm hcover).2
      omega

/-! ## Enclosure operator by operator -/

theorem encloses_ok {o : Operation} {t₁ t₂ t : SimpleType} (h : o.infere t₁ t₂ = .ok t) :
    Encloses o t₁ t₂ ↔ (t.interval.valid = true → ∀ x y : ℕ → Node,
      (∀ n, HasType (x n) t₁) → (o.arity = 2 → ∀ n, HasType (y n) t₂) → ∀ n,
      o.Defined (x n) (y n) → (o.compute x y n).toDouble ∈ t.interval) := by
  rw [Encloses, h]

theorem infereBinOpType_some {op : BinOp} {t₁ t₂ : SimpleType} {I : Interval}
    (h : arithmetic op t₁.interval t₂.interval = some I) :
    ∃ t, infereBinOpType op t₁ t₂ = .ok t ∧ t.interval = I := by
  rw [infereBinOpType, h]
  cases op <;> exact ⟨_, rfl, rfl⟩

/-- For an operator, it is enough to look at the interval returned and at one sample. -/
theorem encloses_value {op : BinOp} {t₁ t₂ : SimpleType} :
    Encloses (.binOp op) t₁ t₂ ↔ ∃ I, arithmetic op t₁.interval t₂.interval = some I ∧
      (I.valid = true → ∀ a b, HasType a t₁ → HasType b t₂ →
        (Operation.binOp op).Defined a b → (op.value a b).toDouble ∈ I) := by
  cases harith : arithmetic op t₁.interval t₂.interval with
  | none =>
    have herr : (Operation.binOp op).infere t₁ t₂ = .error .undefinedConversion := by
      rw [Operation.infere, infereBinOpType, harith]
    rw [Encloses, herr]
    simp
  | some I =>
    obtain ⟨t, ht, rfl⟩ := infereBinOpType_some harith
    have hok : (Operation.binOp op).infere t₁ t₂ = .ok t := ht
    rw [encloses_ok hok]
    constructor
    · intro h
      exact ⟨_, rfl, fun hv a b ha hb hdef =>
        h hv (fun _ => a) (fun _ => b) (fun _ => ha) (fun _ _ => hb) 0 hdef⟩
    · rintro ⟨J, hJ, h⟩ hv x y hx hy n hdef
      cases hJ
      exact h hv (x n) (y n) (hx n) (hy rfl n) hdef

theorem BinOp.value_eq {op : BinOp} (h : op ≠ .kDiv) (a b : Node) :
    op.value a b = op.compute wrap32 a b := by
  cases op with
  | kDiv => exact absurd rfl h
  | _ => rfl

/-- The value of an operator other than `/` is that of the operator on literals. -/
theorem encloses_binOp {op : BinOp} (h : op ≠ .kDiv) {t₁ t₂ : SimpleType} :
    Encloses (.binOp op) t₁ t₂ ↔ ∃ I, arithmetic op t₁.interval t₂.interval = some I ∧
      (I.valid = true → ∀ a b, HasType a t₁ → HasType b t₂ →
        (Operation.binOp op).Defined a b → (op.compute wrap32 a b).toDouble ∈ I) := by
  simp only [encloses_value, BinOp.value_eq h]

theorem encloses_comparison {op : BinOp} (hdiv : op ≠ .kDiv) {t₁ t₂ : SimpleType}
    (f : ℤ → ℤ → Bool) (g : ℚ → ℚ → Bool)
    (hop : arithmetic op t₁.interval t₂.interval =
      some (Interval.comparison t₁.interval t₂.interval))
    (hcomp : ∀ a b, op.compute wrap32 a b = Node.compare wrap32 f g a b) :
    Encloses (.binOp op) t₁ t₂ := by
  rw [encloses_binOp hdiv]
  refine ⟨_, hop, fun _ a b _ _ _ => ?_⟩
  rw [hcomp]
  exact toDouble_compare f g a b

/-- An operator with an interval that is not valid encloses whatever it computes. -/
theorem encloses_invalid {op : BinOp} {t₁ t₂ : SimpleType}
    (hop : arithmetic op t₁.interval t₂.interval = some Interval.invalid) :
    Encloses (.binOp op) t₁ t₂ := by
  rw [encloses_value]
  refine ⟨_, hop, fun hv => ?_⟩
  rw [Interval.valid_invalid] at hv
  cases hv

/-- The remainder of nonnegative operands is less than the divisor. -/
theorem rem_bounds {x y : Interval} (hv : (x.rem y).valid = true) {a b : ℚ} (ha : a ∈ x)
    (hb : b ∈ y) (hne : truncInt b ≠ 0) :
    x.rem y = .ofBounds 0 y.hi ∧ 0 ≤ (truncInt a).tmod (truncInt b) ∧
      (truncInt a).tmod (truncInt b) < truncInt b ∧ (truncInt b : ℚ) ≤ y.hi := by
  unfold Interval.rem at hv ⊢
  split at hv
  · rename_i hc
    simp only [Bool.and_eq_true, decide_eq_true_eq] at hc
    have hb₀ : 0 ≤ b := hc.2.le.trans hb.1
    have hpos : 0 < truncInt b := lt_of_le_of_ne (truncInt_nonneg hb₀) hne.symm
    exact ⟨if_pos (by simpa using hc), Int.tmod_nonneg _ (truncInt_nonneg (hc.1.2.trans ha.1)),
      Int.tmod_lt_of_pos _ hpos, (truncInt_le hb₀).trans hb.2⟩
  · rw [Interval.valid_invalid] at hv
    cases hv

/-- The operators whose interval depends neither on masks nor on truncation enclose their
values. -/
theorem encloses_arithmetic {op : BinOp} (hdiv : op ≠ .kDiv) (hand : op ≠ .kAND)
    (hor : op ≠ .kOR) {t₁ t₂ : SimpleType} (h₁ : t₁.interval.valid = true) (h₂ : t₂.interval.valid = true) :
    Encloses (.binOp op) t₁ t₂ := by
  cases op with
  | kAdd =>
    refine (encloses_binOp (by decide)).mpr ⟨_, rfl, fun _ a b ha hb hdef => ?_⟩
    have hval := toDouble_arith (· + ·) (fun i j => by push_cast; rfl) ha hb hdef
    rw [BinOp.compute, Node.addNode, hval]
    exact Interval.mem_add h₁ h₂ (ha.mem h₁) (hb.mem h₂)
  | kSub =>
    refine (encloses_binOp (by decide)).mpr ⟨_, rfl, fun _ a b ha hb hdef => ?_⟩
    have hval := toDouble_arith (· - ·) (fun i j => by push_cast; rfl) ha hb hdef
    rw [BinOp.compute, Node.subNode, hval]
    exact Interval.mem_sub h₁ h₂ (ha.mem h₁) (hb.mem h₂)
  | kMul =>
    refine (encloses_binOp (by decide)).mpr ⟨_, rfl, fun _ a b ha hb hdef => ?_⟩
    have hval := toDouble_arith (· * ·) (fun i j => by push_cast; rfl) ha hb hdef
    rw [BinOp.compute, Node.mulNode, hval]
    exact Interval.mem_mul h₁ h₂ (ha.mem h₁) (hb.mem h₂)
  | kRem =>
    refine (encloses_binOp (by decide)).mpr ⟨_, rfl, fun hv a b ha hb hdef => ?_⟩
    obtain ⟨hca, hcb, hne, -⟩ := hdef
    obtain ⟨hI, h₀, hlt, hle⟩ := rem_bounds hv (ha.mem h₁) (hb.mem h₂) hne
    have hrange : IsInt32 ((truncInt a.toDouble).tmod (truncInt b.toDouble)) :=
      ⟨by omega, hlt.trans hcb.2⟩
    rw [BinOp.compute, Node.remNode, toInt_eq ha hca, toInt_eq hb hcb,
      wrap32_of_isInt32 hrange, Node.toDouble_int, hI]
    exact Interval.mem_ofBounds (by exact_mod_cast h₀)
      (le_trans (by exact_mod_cast hlt.le) hle)
  | kLsh | kRsh | kXOR => exact encloses_invalid rfl
  | kGT =>
    exact encloses_comparison (by decide) (fun i j => i > j) (fun x y => x > y) rfl fun _ _ => rfl
  | kLT =>
    exact encloses_comparison (by decide) (fun i j => i < j) (fun x y => x < y) rfl fun _ _ => rfl
  | kGE =>
    exact encloses_comparison (by decide) (fun i j => i ≥ j) (fun x y => x ≥ y) rfl fun _ _ => rfl
  | kLE =>
    exact encloses_comparison (by decide) (fun i j => i ≤ j) (fun x y => x ≤ y) rfl fun _ _ => rfl
  | kEQ =>
    exact encloses_comparison (by decide) (fun i j => i == j) (fun x y => x == y) rfl fun _ _ => rfl
  | kNE =>
    exact encloses_comparison (by decide) (fun i j => i != j) (fun x y => x != y) rfl fun _ _ => rfl
  | kDiv => exact absurd rfl hdiv
  | kAND => exact absurd rfl hand
  | kOR => exact absurd rfl hor

/-! ## Enclosure by masks -/

theorem bitmask_isSome_iff {x : ℚ} {m : BitVec 32} (h : Interval.bitmask x = some m) :
    IsInt32 (truncInt x) := (Interval.bitmask_eq_some.mp h).1

/-- `operator|` encloses its values when the bounds it converts are in the range of `int`. -/
theorem encloses_or_iff {t₁ t₂ : SimpleType} (h₁ : t₁.interval.valid = true)
    (h₂ : t₂.interval.valid = true) :
    Encloses (.binOp .kOR) t₁ t₂ ↔ (Operation.binOp .kOR).Safe t₁ t₂ := by
  have hor : arithmetic .kOR t₁.interval t₂.interval = t₁.interval.or t₂.interval := rfl
  by_cases hlo : 0 ≤ t₁.interval.lo ∧ 0 ≤ t₂.interval.lo
  · have hval : t₁.interval.or t₂.interval = (Interval.bitmask t₁.interval.hi).bind fun a =>
        (Interval.bitmask t₂.interval.hi).map fun b => .ofBounds 0 (a ||| b).toInt :=
      if_pos (by simpa [h₁, h₂] using hlo)
    rw [encloses_binOp (by decide), hor, hval]
    constructor
    · rintro ⟨I, hI, -⟩ -
      obtain ⟨a, ha, hI⟩ := Option.bind_eq_some_iff.mp hI
      obtain ⟨b, hb, -⟩ := Option.map_eq_some_iff.mp hI
      exact ⟨bitmask_isSome_iff ha, bitmask_isSome_iff hb⟩
    · intro hsafe
      obtain ⟨hc₁, hc₂⟩ := hsafe hlo
      rw [Interval.bitmask_isSome hc₁, Interval.bitmask_isSome hc₂]
      refine ⟨_, rfl, fun _ a b ha hb hdef => ?_⟩
      rw [BinOp.compute, Node.orNode, toDouble_bitwise _ ha hb hdef.1 hdef.2]
      refine Interval.mem_ofBounds_of_bits ?_ fun j hj hbit => ?_
      · rw [BitVec.msb_or, msb_mask hlo.1 hc₁, msb_mask hlo.2 hc₂]
        rfl
      · rw [BitVec.getLsbD_or, Bool.or_eq_true] at hbit ⊢
        exact hbit.imp (ha.bits_mask h₁ hlo.1 hc₁ hj) (hb.bits_mask h₂ hlo.2 hc₂ hj)
  · have hval : t₁.interval.or t₂.interval = some .invalid :=
      if_neg (by simpa [h₁, h₂] using hlo)
    exact iff_of_true (encloses_invalid (hor.trans hval)) fun h => absurd h hlo

/-- `operator&` on two intervals without negative values. -/
theorem encloses_and_nonneg {t₁ t₂ : SimpleType} (h₁ : t₁.interval.valid = true)
    (h₂ : t₂.interval.valid = true) (hlo₁ : 0 ≤ t₁.interval.lo) (hlo₂ : 0 ≤ t₂.interval.lo) :
    Encloses (.binOp .kAND) t₁ t₂ ↔
      IsInt32 (truncInt t₁.interval.hi) ∧ IsInt32 (truncInt t₂.interval.hi) := by
  have hval : arithmetic .kAND t₁.interval t₂.interval =
      (Interval.bitmask t₁.interval.hi).bind fun a =>
        (Interval.bitmask t₂.interval.hi).map fun b => .ofBounds 0 (a &&& b).toInt := by
    rw [arithmetic, Interval.and, if_pos (by simp [h₁, h₂]), if_pos ⟨hlo₁, hlo₂⟩]
  rw [encloses_binOp (by decide), hval]
  constructor
  · rintro ⟨I, hI, -⟩
    obtain ⟨a, ha, hI⟩ := Option.bind_eq_some_iff.mp hI
    obtain ⟨b, hb, -⟩ := Option.map_eq_some_iff.mp hI
    exact ⟨bitmask_isSome_iff ha, bitmask_isSome_iff hb⟩
  · rintro ⟨hc₁, hc₂⟩
    rw [Interval.bitmask_isSome hc₁, Interval.bitmask_isSome hc₂]
    refine ⟨_, rfl, fun _ a b ha hb hdef => ?_⟩
    rw [BinOp.compute, Node.andNode, toDouble_bitwise _ ha hb hdef.1 hdef.2]
    refine Interval.mem_ofBounds_of_bits ?_ fun j hj hbit => ?_
    · rw [BitVec.msb_and, msb_mask hlo₁ hc₁]
      rfl
    · rw [BitVec.getLsbD_and, Bool.and_eq_true] at hbit ⊢
      exact ⟨ha.bits_mask h₁ hlo₁ hc₁ hj hbit.1, hb.bits_mask h₂ hlo₂ hc₂ hj hbit.2⟩

/-- `operator&` when only the first operand may be negative: the mask of the second one
bounds the values. -/
theorem encloses_and_left {t₁ t₂ : SimpleType} (h₁ : t₁.interval.valid = true)
    (h₂ : t₂.interval.valid = true) (hlo₁ : t₁.interval.lo < 0) (hlo₂ : 0 ≤ t₂.interval.lo) :
    Encloses (.binOp .kAND) t₁ t₂ ↔ IsInt32 (truncInt t₂.interval.hi) := by
  have hval : arithmetic .kAND t₁.interval t₂.interval =
      (Interval.bitmask t₂.interval.hi).map fun b => .ofBounds 0 b.toInt := by
    rw [arithmetic, Interval.and, if_pos (by simp [h₁, h₂]),
      if_neg (fun h => absurd h.1 (not_le.mpr hlo₁)), if_pos hlo₂]
  rw [encloses_binOp (by decide), hval]
  constructor
  · rintro ⟨I, hI, -⟩
    obtain ⟨b, hb, -⟩ := Option.map_eq_some_iff.mp hI
    exact bitmask_isSome_iff hb
  · intro hc₂
    rw [Interval.bitmask_isSome hc₂]
    refine ⟨_, rfl, fun _ a b ha hb hdef => ?_⟩
    rw [BinOp.compute, Node.andNode, toDouble_bitwise _ ha hb hdef.1 hdef.2]
    refine Interval.mem_ofBounds_of_bits (msb_mask hlo₂ hc₂) fun j hj hbit => ?_
    rw [BitVec.getLsbD_and, Bool.and_eq_true] at hbit
    exact hb.bits_mask h₂ hlo₂ hc₂ hj hbit.2

/-- `operator&` when only the second operand may be negative: its mask bounds the values
exactly when no bit above the mask is common. -/
theorem encloses_and_right {t₁ t₂ : SimpleType} (h₁ : t₁.interval.valid = true)
    (h₂ : t₂.interval.valid = true) (hlo₁ : 0 ≤ t₁.interval.lo) (hlo₂ : t₂.interval.lo < 0) :
    Encloses (.binOp .kAND) t₁ t₂ ↔
      IsInt32 (truncInt t₂.interval.hi) ∧ NoCommonBit t₁ t₂ := by
  have hval : arithmetic .kAND t₁.interval t₂.interval =
      (Interval.bitmask t₂.interval.hi).map fun b => .ofBounds 0 b.toInt := by
    rw [arithmetic, Interval.and, if_pos (by simp [h₁, h₂]),
      if_neg (fun h => absurd h.2 (not_le.mpr hlo₂)), if_neg (not_le.mpr hlo₂), if_pos hlo₁]
  have hmsb : ∀ {a : Node}, HasType a t₁ → Convertible a → a.bits.msb = false :=
    fun ha hc => Interval.msb_ofInt hc (ha.truncInt_bounds h₁ hlo₁).1
  rw [encloses_binOp (by decide), hval]
  constructor
  · rintro ⟨I, hI, hmem⟩
    obtain ⟨m, hm, rfl⟩ := Option.map_eq_some_iff.mp hI
    refine ⟨bitmask_isSome_iff hm, fun m' hm' i hi hlt hcan => ?_⟩
    obtain rfl : m = m' := Option.some.inj (hm.symm.trans hm')
    obtain ⟨-, rfl⟩ := Interval.bitmask_eq_some.mp hm
    obtain ⟨a, ha, hca, hai⟩ := (SimpleType.canSet_iff h₁ hi).mp hcan.1
    obtain ⟨b, hb, hcb, hbi⟩ := (SimpleType.canSet_iff h₂ hi).mp hcan.2
    have hin := hmem rfl a b ha hb ⟨hca, hcb⟩
    rw [BinOp.compute, Node.andNode, toDouble_bitwise _ ha hb hca hcb] at hin
    exact (mem_and_mask (hmsb ha hca) _).mp hin i hi hlt ⟨hai, hbi⟩
  · rintro ⟨hc₂, hno⟩
    have hm := Interval.bitmask_isSome hc₂
    rw [hm]
    refine ⟨_, rfl, fun _ a b ha hb hdef => ?_⟩
    rw [BinOp.compute, Node.andNode, toDouble_bitwise _ ha hb hdef.1 hdef.2]
    refine (mem_and_mask (hmsb ha hdef.1) _).mpr fun i hi hlt hbits => ?_
    exact hno _ hm i hi hlt ⟨(SimpleType.canSet_iff h₁ hi).mpr ⟨a, ha, hdef.1, hbits.1⟩,
      (SimpleType.canSet_iff h₂ hi).mpr ⟨b, hb, hdef.2, hbits.2⟩⟩

theorem encloses_and_iff {t₁ t₂ : SimpleType} (h₁ : t₁.interval.valid = true)
    (h₂ : t₂.interval.valid = true) :
    Encloses (.binOp .kAND) t₁ t₂ ↔ (Operation.binOp .kAND).Safe t₁ t₂ := by
  unfold Operation.Safe
  rcases le_or_gt 0 t₁.interval.lo with hlo₁ | hlo₁ <;>
    rcases le_or_gt 0 t₂.interval.lo with hlo₂ | hlo₂
  · rw [encloses_and_nonneg h₁ h₂ hlo₁ hlo₂]
    simp [hlo₁, hlo₂, hlo₂.not_gt]
  · rw [encloses_and_right h₁ h₂ hlo₁ hlo₂]
    simp [hlo₁, hlo₂, hlo₂.not_ge]
  · rw [encloses_and_left h₁ h₂ hlo₁ hlo₂]
    simp [hlo₁.not_ge, hlo₂]
  · refine iff_of_true (encloses_invalid ?_) ?_
    · rw [arithmetic, Interval.and, if_pos (by simp [h₁, h₂]),
        if_neg (fun h => absurd h.1 (not_le.mpr hlo₁)), if_neg (not_le.mpr hlo₂),
        if_neg (not_le.mpr hlo₁)]
    · simp [hlo₁.not_ge, hlo₂.not_ge]

/-! ## The other operations -/

theorem encloses_min {t₁ t₂ : SimpleType} (h₁ : t₁.interval.valid = true)
    (h₂ : t₂.interval.valid = true) : Encloses .min t₁ t₂ := by
  intro _ x y hx hy n _
  have hdef : NoOverflow min (x n) (y n) := by
    intro i j hi hj
    rcases min_choice i j with h | h <;> rw [h]
    · exact isInt32_of_toDouble (hx n) hi
    · exact isInt32_of_toDouble (hy rfl n) hj
  have hval := toDouble_arith min (fun i j => by push_cast; rfl) (hx n) (hy rfl n) hdef
  rw [Operation.compute, Node.minNode, hval]
  exact Interval.mem_min ((hx n).mem h₁) ((hy rfl n).mem h₂)

theorem encloses_max {t₁ t₂ : SimpleType} (h₁ : t₁.interval.valid = true)
    (h₂ : t₂.interval.valid = true) : Encloses .max t₁ t₂ := by
  intro _ x y hx hy n _
  have hdef : NoOverflow max (x n) (y n) := by
    intro i j hi hj
    rcases max_choice i j with h | h <;> rw [h]
    · exact isInt32_of_toDouble (hx n) hi
    · exact isInt32_of_toDouble (hy rfl n) hj
  have hval := toDouble_arith max (fun i j => by push_cast; rfl) (hx n) (hy rfl n) hdef
  rw [Operation.compute, Node.maxNode, hval]
  exact Interval.mem_max ((hx n).mem h₁) ((hy rfl n).mem h₂)

theorem encloses_abs {t₁ t₂ : SimpleType} (h₁ : t₁.interval.valid = true) :
    Encloses .abs t₁ t₂ := by
  intro _ x y hx _ n hdef
  have hval : (Node.absNode wrap32 (x n)).toDouble = |(x n).toDouble| := by
    rcases (hx n).num with ⟨i, hi, -⟩ | ⟨r, hr⟩
    · rw [hi]
      simp only [Node.absNode, Node.isDouble, Bool.false_eq_true, if_false, Node.toInt_int,
        Node.toDouble_int, wrap32_of_isInt32 (hdef i hi)]
      push_cast
      rfl
    · rw [hr]
      rfl
  rw [Operation.compute, hval]
  exact Interval.mem_abs h₁ ((hx n).mem h₁)

theorem encloses_floatCast {t₁ t₂ : SimpleType} : Encloses .floatCast t₁ t₂ :=
  fun h₁ _ _ hx _ n _ => (hx n).mem h₁

/-- A delayed signal takes past values, or zero. -/
theorem encloses_fixDelay {t₁ t₂ : SimpleType} (h₁ : t₁.interval.valid = true) :
    Encloses .fixDelay t₁ t₂ := by
  unfold Encloses Operation.infere infereFixDelayType
  split
  · rename_i t ht
    simp only at ht
    split_ifs at ht
    cases ht
    intro _ x y hx _ n _
    simp only [Operation.compute]
    split
    · exact Interval.mem_reunion_left h₁ rfl ((hx _).mem h₁)
    · exact Interval.mem_reunion_right h₁ rfl (by simp [Interval.mem_def])
  · rename_i ht
    simp only at ht
    split_ifs at ht <;> cases ht
  · trivial

/-- Truncation stays in an interval that holds zero. -/
theorem truncInt_mem {I : Interval} (h₀ : 0 ∈ I) {x : ℚ} (hx : x ∈ I) :
    (truncInt x : ℚ) ∈ I := by
  rcases le_total 0 x with h | h
  · exact ⟨h₀.1.trans (by exact_mod_cast truncInt_nonneg h), (truncInt_le h).trans hx.2⟩
  · exact ⟨hx.1.trans (le_truncInt h), le_trans (by exact_mod_cast truncInt_nonpos h) h₀.2⟩

theorem truncInt_lt_iff {x : ℚ} (h : 0 < x) : truncInt x < 2 ^ 31 ↔ x < 2 ^ 31 := by
  rw [truncInt_of_nonneg h.le, Int.floor_lt]
  norm_num

theorem le_truncInt_iff {x : ℚ} (h : x < 0) : -2 ^ 31 ≤ truncInt x ↔ -2 ^ 31 - 1 < x := by
  rw [truncInt_of_nonpos h.le]
  constructor
  · intro hle
    have := Int.ceil_lt_add_one x
    have hle' : ((-2 ^ 31 : ℤ) : ℚ) ≤ ⌈x⌉ := by exact_mod_cast hle
    push_cast at hle'
    linarith
  · intro hlt
    rw [Int.le_ceil_iff]
    push_cast
    linarith

/-- Truncation of a real interval stays in it exactly when the interval is `CastSafe`. -/
theorem truncInt_mem_iff (I : Interval) :
    (∀ x ∈ I, IsInt32 (truncInt x) → (truncInt x : ℚ) ∈ I) ↔
      0 ∈ I ∨ (0 < I.lo ∧ ((⌊I.lo⌋ : ℚ) = I.lo ∨ 2 ^ 31 ≤ I.lo)) ∨
        (I.hi < 0 ∧ ((⌈I.hi⌉ : ℚ) = I.hi ∨ I.hi ≤ -2 ^ 31 - 1)) := by
  constructor
  · intro h
    by_cases h₀ : 0 ∈ I
    · exact .inl h₀
    rw [Interval.mem_def, not_and_or, not_le, not_le] at h₀
    rcases h₀ with hlo | hhi
    · refine .inr (.inl ⟨hlo, or_iff_not_imp_right.mpr fun hlt => ?_⟩)
      have hc : IsInt32 (truncInt I.lo) :=
        ⟨by have := truncInt_nonneg hlo.le; omega, (truncInt_lt_iff hlo).mpr (not_le.mp hlt)⟩
      have := (h I.lo ⟨le_rfl, I.le⟩ hc).1
      rw [truncInt_of_nonneg hlo.le] at this
      exact le_antisymm (Int.floor_le _) this
    · refine .inr (.inr ⟨hhi, or_iff_not_imp_right.mpr fun hlt => ?_⟩)
      have hc : IsInt32 (truncInt I.hi) :=
        ⟨(le_truncInt_iff hhi).mpr (not_le.mp hlt),
          by have := truncInt_nonpos hhi.le; omega⟩
      have := (h I.hi ⟨I.le, le_rfl⟩ hc).2
      rw [truncInt_of_nonpos hhi.le] at this
      exact le_antisymm this (Int.le_ceil _)
  · rintro (h₀ | ⟨hlo, hint⟩ | ⟨hhi, hint⟩) x hx hc
    · exact truncInt_mem h₀ hx
    · have hpos : 0 < x := hlo.trans_le hx.1
      refine ⟨?_, (truncInt_le hpos.le).trans hx.2⟩
      rcases hint with hint | hbig
      · rw [← hint, truncInt_of_nonneg hpos.le]
        exact_mod_cast Int.floor_le_floor hx.1
      · exact absurd ((truncInt_lt_iff hpos).mp hc.2) (hbig.trans hx.1).not_gt
    · have hneg : x < 0 := hx.2.trans_lt hhi
      refine ⟨hx.1.trans (le_truncInt hneg.le), ?_⟩
      rcases hint with hint | hbig
      · rw [← hint, truncInt_of_nonpos hneg.le]
        exact_mod_cast Int.ceil_le_ceil hx.2
      · exact absurd ((le_truncInt_iff hneg).mp hc.1) (hx.2.trans hbig).not_gt

/-- The cast to `int` encloses its values when truncation stays in the interval. -/
theorem encloses_intCast_iff {t₁ t₂ : SimpleType} (h₁ : t₁.interval.valid = true) :
    Encloses .intCast t₁ t₂ ↔ t₁.CastSafe := by
  have hval : ∀ {a : Node}, HasType a t₁ → Convertible a →
      (Node.int (a.toInt wrap32)).toDouble = truncInt a.toDouble := fun ha hc => by
    rw [Node.toDouble_int, toInt_eq ha hc]
  have hok : Operation.intCast.infere t₁ t₂ = .ok t₁.intCast := rfl
  rw [encloses_ok hok]
  cases hk : t₁.nature with
  | kInt =>
    refine iff_of_true (fun _ x y hx _ n hdef => ?_) (.inl hk)
    have hnat := (hx n).nature
    rw [hk] at hnat
    obtain ⟨i, hi, -⟩ := hnat
    have hmem := (hx n).mem h₁
    rw [hi] at hmem
    rw [Operation.compute, hi]
    exact hmem
  | kReal =>
    have hsafe : t₁.CastSafe ↔ 0 ∈ t₁.interval ∨
        (0 < t₁.interval.lo ∧
          ((⌊t₁.interval.lo⌋ : ℚ) = t₁.interval.lo ∨ 2 ^ 31 ≤ t₁.interval.lo)) ∨
        (t₁.interval.hi < 0 ∧
          ((⌈t₁.interval.hi⌉ : ℚ) = t₁.interval.hi ∨ t₁.interval.hi ≤ -2 ^ 31 - 1)) := by
      simp [SimpleType.CastSafe, hk]
    rw [hsafe, ← truncInt_mem_iff]
    constructor
    · intro h r hr hc
      have ha : HasType (.double r) t₁ := ⟨by simp [hk], fun _ => hr⟩
      have := h h₁ (fun _ => .double r) (fun _ => .double r) (fun _ => ha) nofun 0 hc
      rwa [Operation.compute, hval ha hc] at this
    · intro h _ x y hx _ n hdef
      rw [Operation.compute, hval (hx n) hdef]
      exact h _ ((hx n).mem h₁) hdef

/-! ## Quotients -/

/-- Unless both operands are `int`s, the code computes the exact quotient. -/
theorem toDouble_value_div {a b : Node} {t₁ t₂ : SimpleType} (ha : HasType a t₁)
    (hb : HasType b t₂) (hreal : ¬ (t₁.nature = .kInt ∧ t₂.nature = .kInt)) :
    (BinOp.value .kDiv a b).toDouble = a.toDouble / b.toDouble := by
  have h₁ := ha.nature
  have h₂ := hb.nature
  cases hk₁ : t₁.nature <;> cases hk₂ : t₂.nature <;> simp only [hk₁, hk₂] at h₁ h₂
  · exact absurd ⟨hk₁, hk₂⟩ hreal
  · obtain ⟨i, rfl, -⟩ := h₁
    obtain ⟨y, rfl⟩ := h₂
    rfl
  · obtain ⟨x, rfl⟩ := h₁
    obtain ⟨j, rfl, -⟩ := h₂
    rfl
  · obtain ⟨x, rfl⟩ := h₁
    obtain ⟨y, rfl⟩ := h₂
    rfl

/-- The only quotient of two `int`s that overflows is exact. -/
theorem abs_div_le_tdiv {i j : ℤ} (hi : IsInt32 i) (hov : ¬ IsInt32 (i.tdiv j)) :
    |(i : ℚ) / j| ≤ |(i.tdiv j : ℚ)| := by
  have hnat : (i.tdiv j).natAbs = i.natAbs / j.natAbs := Int.natAbs_tdiv i j
  have hone : j.natAbs ≤ 1 := by
    by_contra htwo
    have hhalf : i.natAbs / j.natAbs ≤ i.natAbs / 2 := Nat.div_le_div_left (by omega) (by omega)
    unfold IsInt32 at hi hov
    omega
  have hdvd : j ∣ i := by
    rcases Nat.le_one_iff_eq_zero_or_eq_one.mp hone with h | h
    · rw [Int.natAbs_eq_zero.mp h, Int.tdiv_zero] at hov
      exact absurd ⟨by decide, by decide⟩ hov
    · exact Int.natAbs_dvd_natAbs.mp (h ▸ one_dvd _)
  have hj₀ : (j : ℚ) ≠ 0 := by
    rintro h
    rw [Int.cast_eq_zero.mp h, Int.tdiv_zero] at hov
    exact hov ⟨by decide, by decide⟩
  rw [Int.tdiv_eq_ediv_of_dvd hdvd, Int.cast_div hdvd hj₀]

/-- When the interval holds the quotient of bounds that is nearest to zero after truncation,
it holds every quotient of two `int`s. -/
theorem tdiv_mem {t₁ t₂ : SimpleType} (h₁ : t₁.interval.valid = true)
    (h₂ : t₂.interval.valid = true) (hk₁ : t₁.nature = .kInt) (hk₂ : t₂.nature = .kInt)
    (hv : (t₁.interval.div t₂.interval).valid = true) (hsafe : QuotientSafe t₁ t₂) {i j : ℤ}
    (hi : HasType (.int i) t₁) (hj : HasType (.int j) t₂) :
    (i.tdiv j : ℚ) ∈ t₁.interval.div t₂.interval := by
  have hy := (Interval.valid_div h₁ h₂).mp hv
  have hr := Interval.mem_div hv (hi.mem h₁) (hj.mem h₂)
  simp only [Node.toDouble_int] at hr
  rw [← truncInt_div]
  by_cases hx : 0 ∈ t₁.interval
  · refine truncInt_mem ?_ hr
    have hzero := Interval.mem_div hv hx (hj.mem h₂)
    rwa [zero_div] at hzero
  obtain ⟨hi₁, hi₂⟩ := hi.int_bounds h₁
  obtain ⟨hj₁, hj₂⟩ := hj.int_bounds h₂
  have hn := SimpleType.hasType_int hk₁ (t₁.intNear_mem (hi₁.trans hi₂))
  have hf := SimpleType.hasType_int hk₂ (t₂.intFar_mem (hj₁.trans hj₂))
  -- the quotient `r₀` of the bounds that is nearest to zero, and its truncation
  have hle := hsafe hk₁ hk₂ hx hy (hi₁.trans hi₂) (hj₁.trans hj₂)
  have habs : |(t₁.intNear : ℚ) / t₂.intFar| ≤ |(i : ℚ) / j| := by
    rw [abs_div, abs_div]
    refine div_le_div₀ (abs_nonneg _) (SimpleType.abs_intNear_le hk₁ h₁ hx hi) ?_
      (SimpleType.abs_le_intFar hk₂ h₂ hy hj)
    exact abs_pos.mpr fun h => hy (h ▸ hj.mem h₂)
  rw [← truncInt_div] at hle
  have hm := Interval.mem_div hv t₁.interval.near_mem t₂.interval.far_mem
  rcases Interval.div_sign hx hy with hpos | hneg
  · have hr₀ := hpos _ (hn.mem h₁) _ (hf.mem h₂)
    have hr' := hpos _ (hi.mem h₁) _ (hj.mem h₂)
    simp only [Node.toDouble_int] at hr₀ hr'
    rw [abs_of_pos hr₀, abs_of_pos hr'] at habs
    rw [abs_of_pos (hpos _ t₁.interval.near_mem _ t₂.interval.far_mem),
      abs_of_nonneg (by exact_mod_cast truncInt_nonneg hr₀.le)] at hle
    have hmono : (truncInt ((t₁.intNear : ℚ) / t₂.intFar) : ℚ) ≤ truncInt ((i : ℚ) / j) := by
      exact_mod_cast truncInt_mono habs
    exact ⟨hm.1.trans (hle.trans hmono), (truncInt_le hr'.le).trans hr.2⟩
  · have hr₀ := hneg _ (hn.mem h₁) _ (hf.mem h₂)
    have hr' := hneg _ (hi.mem h₁) _ (hj.mem h₂)
    simp only [Node.toDouble_int] at hr₀ hr'
    rw [abs_of_neg hr₀, abs_of_neg hr', neg_le_neg_iff] at habs
    rw [abs_of_neg (hneg _ t₁.interval.near_mem _ t₂.interval.far_mem),
      abs_of_nonpos (by exact_mod_cast truncInt_nonpos hr₀.le), neg_le_neg_iff] at hle
    have hmono : (truncInt ((i : ℚ) / j) : ℚ) ≤ truncInt ((t₁.intNear : ℚ) / t₂.intFar) := by
      exact_mod_cast truncInt_mono habs
    exact ⟨hr.1.trans (le_truncInt hr'.le), (hmono.trans hle).trans hm.2⟩

/-- `operator/` encloses the quotients unless both operands are `int`s and truncation leaves
the interval. -/
theorem encloses_div_iff {t₁ t₂ : SimpleType} (h₁ : t₁.interval.valid = true)
    (h₂ : t₂.interval.valid = true) :
    Encloses (.binOp .kDiv) t₁ t₂ ↔ QuotientSafe t₁ t₂ := by
  rw [encloses_value]
  constructor
  · rintro ⟨I, hI, hmem⟩ hk₁ hk₂ hx hy hne₁ hne₂
    obtain rfl : t₁.interval.div t₂.interval = I := Option.some.inj hI
    have hv := (Interval.valid_div h₁ h₂).mpr hy
    have hi := SimpleType.hasType_int hk₁ (t₁.intNear_mem hne₁)
    have hj := SimpleType.hasType_int hk₂ (t₂.intFar_mem hne₂)
    by_cases hov : IsInt32 (t₁.intNear.tdiv t₂.intFar)
    · have hin := hmem hv _ _ hi hj ⟨fun h => hy (h ▸ hj.mem h₂), fun i j e₁ e₂ => by
        cases e₁
        cases e₂
        exact hov⟩
      rw [BinOp.value, Node.toDouble_double, wrap32_of_isInt32 hov] at hin
      exact Interval.abs_near_div_far_le_of_mem hv hx hy hin
    · have hfit := SimpleType.isInt32_of_mem (t₁.intNear_mem hne₁).1 (t₁.intNear_mem hne₁).2
      exact (Interval.abs_near_div_far_le hx hy (hi.mem h₁) (hj.mem h₂)).trans
        (abs_div_le_tdiv hfit hov)
  · intro hsafe
    refine ⟨_, rfl, fun hv a b ha hb hdef => ?_⟩
    by_cases hint : t₁.nature = .kInt ∧ t₂.nature = .kInt
    · obtain ⟨hk₁, hk₂⟩ := hint
      obtain ⟨i, rfl⟩ := ha.eq_int hk₁
      obtain ⟨j, rfl⟩ := hb.eq_int hk₂
      rw [BinOp.value, Node.toDouble_double, wrap32_of_isInt32 (hdef.2 i j rfl rfl)]
      exact tdiv_mem h₁ h₂ hk₁ hk₂ hv hsafe ha hb
    · rw [toDouble_value_div ha hb hint]
      exact Interval.mem_div hv (ha.mem h₁) (hb.mem h₂)

/-! ## The exact condition -/

/-- The inferred interval holds every computed value exactly when the operation is safe on
the types of its operands. -/
theorem encloses_iff_safe (o : Operation) (t₁ t₂ : SimpleType)
    (h₁ : t₁.interval.valid = true) (h₂ : t₂.interval.valid = true) :
    Encloses o t₁ t₂ ↔ o.Safe t₁ t₂ := by
  cases o with
  | binOp op =>
    by_cases hand : op = .kAND
    · subst hand
      exact encloses_and_iff h₁ h₂
    by_cases hor : op = .kOR
    · subst hor
      exact encloses_or_iff h₁ h₂
    by_cases hdiv : op = .kDiv
    · subst hdiv
      exact encloses_div_iff h₁ h₂
    refine iff_of_true (encloses_arithmetic hdiv hand hor h₁ h₂) ?_
    cases op with
    | kDiv => exact absurd rfl hdiv
    | kAND => exact absurd rfl hand
    | kOR => exact absurd rfl hor
    | _ => trivial
  | min => exact iff_of_true (encloses_min h₁ h₂) trivial
  | max => exact iff_of_true (encloses_max h₁ h₂) trivial
  | abs => exact iff_of_true (encloses_abs h₁) trivial
  | intCast => exact encloses_intCast_iff h₁
  | floatCast => exact iff_of_true encloses_floatCast trivial
  | fixDelay => exact iff_of_true (encloses_fixDelay h₁) trivial

/-- An `int` signal of slider rate with values from `lo` to `hi`. -/
def intSlider (lo hi : ℚ) : SimpleType where
  nature := .kInt
  variability := 1
  computability := 3
  vectorability := 0
  boolean := 0
  interval := .ofBounds lo hi

/-- `[6, 9] / [2, 3]` holds its quotients, since 3 divides 6, and `[7, 9] / [2, 2]` does not:
`7 / 2` is 3. -/
theorem encloses_iff_safe_quotient :
    Encloses (.binOp .kDiv) (intSlider 6 9) (intSlider 2 3) ∧
      ¬ Encloses (.binOp .kDiv) (intSlider 7 9) (intSlider 2 2) := by
  constructor
  · refine (encloses_iff_safe (.binOp .kDiv) _ _ rfl rfl).mpr fun _ _ _ _ _ _ => ?_
    decide +kernel
  · intro h
    have hsafe := (encloses_iff_safe (.binOp .kDiv) _ _ rfl rfl).mp h rfl rfl
      (by decide +kernel) (by decide +kernel) (by decide +kernel) (by decide +kernel)
    revert hsafe
    decide +kernel

/-- `255 & -1` is 255, and the interval computed for `[0, 255] & [-1, 0]` is `[0, 0]`. -/
theorem not_encloses_and :
    (intSlider 0 255).interval.valid = true ∧ (intSlider (-1) 0).interval.valid = true ∧
      ¬ Encloses (.binOp .kAND) (intSlider 0 255) (intSlider (-1) 0) := by
  refine ⟨rfl, rfl, ?_⟩
  rw [encloses_binOp (by decide)]
  rintro ⟨I, hI, hmem⟩
  have hval : arithmetic .kAND (intSlider 0 255).interval (intSlider (-1) 0).interval =
      some (.ofBounds 0 0) := by decide +kernel
  obtain rfl : I = .ofBounds 0 0 := Option.some.inj (hI.symm.trans hval)
  have ha : HasType (.int 255) (intSlider 0 255) :=
    ⟨⟨255, rfl, by decide⟩, fun _ => by decide +kernel⟩
  have hb : HasType (.int (-1)) (intSlider (-1) 0) :=
    ⟨⟨-1, rfl, by decide⟩, fun _ => by decide +kernel⟩
  have hout := hmem rfl _ _ ha hb ⟨by unfold Convertible; decide +kernel,
    by unfold Convertible; decide +kernel⟩
  revert hout
  decide +kernel

end Faust
