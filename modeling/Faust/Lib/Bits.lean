import Mathlib.Data.Int.Bitwise
import Mathlib.Tactic.Common
import Mathlib.Tactic.Ring
import Mathlib.Tactic.Positivity

/-!
# Bits of machine integers

Facts about the bits of two's complement integers: which bits a range of integers can set,
and how a comparison of nonnegative integers is read off their bits.
-/

namespace Bits

variable {w : ℕ}

/-- The bits of a converted integer. -/
theorem getLsbD_ofInt (a : ℤ) {i : ℕ} (hi : i < w) :
    (BitVec.ofInt w a).getLsbD i = decide (a / 2 ^ i % 2 = 1) := by
  have hpow : ((2 ^ w : ℕ) : ℤ) = 2 ^ i * (2 * 2 ^ (w - i - 1)) := by
    push_cast
    rw [← pow_succ', ← pow_add]
    congr 1
    omega
  have hdiv : a % ((2 ^ w : ℕ) : ℤ) / 2 ^ i % 2 = a / 2 ^ i % 2 := by
    have hsplit := Int.emod_add_mul_ediv a ((2 ^ w : ℕ) : ℤ)
    set q := a / ((2 ^ w : ℕ) : ℤ)
    set r := a % ((2 ^ w : ℕ) : ℤ)
    have ha : a = r + 2 ^ i * (2 * (2 ^ (w - i - 1) * q)) := by
      rw [← hsplit, hpow]
      ring
    rw [ha, Int.add_mul_ediv_left _ _ (by positivity)]
    omega
  have hnonneg : 0 ≤ a % ((2 ^ w : ℕ) : ℤ) := Int.emod_nonneg _ (by positivity)
  rw [← BitVec.testBit_toNat, BitVec.toNat_ofInt, Nat.testBit_eq_decide_div_mod_eq]
  congr 1
  rw [← hdiv, ← Int.toNat_of_nonneg hnonneg]
  norm_cast

/-- Bit `i` is set in some integer from `lo` to `hi` iff it is set in `lo`, or the next
integer that sets it is not beyond `hi`. -/
theorem exists_bit_iff {lo hi : ℤ} (h : lo ≤ hi) (i : ℕ) :
    (∃ a, lo ≤ a ∧ a ≤ hi ∧ a / 2 ^ i % 2 = 1) ↔
      lo / 2 ^ i % 2 = 1 ∨ (lo / 2 ^ i + 1) * 2 ^ i ≤ hi := by
  have hpos : (0 : ℤ) < 2 ^ i := by positivity
  constructor
  · rintro ⟨a, hlo, hhi, hbit⟩
    by_cases hodd : lo / 2 ^ i % 2 = 1
    · exact .inl hodd
    · have hle : lo / 2 ^ i ≤ a / 2 ^ i := Int.ediv_le_ediv hpos hlo
      have hstep : lo / 2 ^ i + 1 ≤ a / 2 ^ i := by omega
      have := Int.ediv_mul_le a hpos.ne'
      exact .inr ((mul_le_mul_of_nonneg_right hstep hpos.le).trans (this.trans hhi))
  · intro hbit
    by_cases hodd : lo / 2 ^ i % 2 = 1
    · exact ⟨lo, le_rfl, h, hodd⟩
    · refine ⟨(lo / 2 ^ i + 1) * 2 ^ i, (Int.lt_ediv_add_one_mul_self lo hpos).le,
        hbit.resolve_left hodd, ?_⟩
      rw [Int.mul_ediv_cancel _ hpos.ne']
      omega

/-- A bit set in a nonnegative integer bounds it from below. -/
theorem two_pow_le_toInt {a : BitVec w} (ha : a.msb = false) {i : ℕ}
    (hi : a.getLsbD i = true) : (2 : ℤ) ^ i ≤ a.toInt := by
  rw [← BitVec.testBit_toNat] at hi
  rw [BitVec.toInt_eq_toNat_of_msb ha]
  exact_mod_cast Nat.ge_two_pow_of_testBit hi

/-- An integer whose bits are all set in a nonnegative one is nonnegative and not larger. -/
theorem toInt_le_of_bits {a m : BitVec w} (hm : m.msb = false)
    (h : ∀ j < w, a.getLsbD j = true → m.getLsbD j = true) :
    0 ≤ a.toInt ∧ a.toInt ≤ m.toInt := by
  have ha : a = a &&& m := by
    apply BitVec.eq_of_getLsbD_eq
    intro j hj
    rw [BitVec.getLsbD_and]
    cases hb : a.getLsbD j
    · rfl
    · rw [h j hj hb]
      rfl
  have hmsb : a.msb = false := by rw [ha, BitVec.msb_and, hm, Bool.and_false]
  rw [BitVec.toInt_eq_toNat_of_msb hmsb, BitVec.toInt_eq_toNat_of_msb hm]
  refine ⟨by positivity, ?_⟩
  rw [ha, BitVec.toNat_and]
  exact_mod_cast Nat.and_le_right

/-! ## Smearing bits downwards -/

/-- `m` has the bits of `v` and those up to `s - 1` places below them, the sign bit standing
for all places beyond. -/
def Smeared (s : ℕ) (v m : BitVec w) : Prop :=
  ∀ j < w, m.getLsbD j = true ↔ ∃ k, j ≤ k ∧ k < j + s ∧ v.getLsbD (min k (w - 1)) = true

theorem Smeared.one (v : BitVec w) : Smeared 1 v v := by
  intro j hj
  constructor
  · intro h
    exact ⟨j, le_rfl, by omega, by rwa [min_eq_left (by omega)]⟩
  · rintro ⟨k, hk, hlt, hbit⟩
    obtain rfl : k = j := by omega
    rwa [min_eq_left (by omega)] at hbit

/-- Joining a smeared integer with its arithmetic shift by as many places doubles them. -/
theorem Smeared.double {s : ℕ} (hs : 0 < s) {v m : BitVec w} (h : Smeared s v m) :
    Smeared (s + s) v (m ||| m.sshiftRight s) := by
  intro j hj
  have hshift : (m.sshiftRight s).getLsbD j = true ↔
      ∃ k, j + s ≤ k ∧ k < j + (s + s) ∧ v.getLsbD (min k (w - 1)) = true := by
    rw [BitVec.getLsbD_sshiftRight, decide_eq_false (by omega), Bool.not_false, Bool.true_and]
    split
    · rename_i hlt
      rw [h (s + j) hlt]
      constructor <;> rintro ⟨k, hk, hlt', hbit⟩ <;> exact ⟨k, by omega, by omega, hbit⟩
    · rename_i hge
      have hmsb : m.msb = m.getLsbD (w - 1) := BitVec.msb_eq_getLsbD_last m
      rw [hmsb, h (w - 1) (by omega)]
      constructor
      · rintro ⟨k, hk, -, hbit⟩
        rw [min_eq_right (by omega)] at hbit
        exact ⟨j + s, le_rfl, by omega, by rwa [min_eq_right (by omega)]⟩
      · rintro ⟨k, hk, -, hbit⟩
        rw [min_eq_right (by omega)] at hbit
        exact ⟨w - 1, le_rfl, by omega, by rwa [min_self]⟩
  rw [BitVec.getLsbD_or, Bool.or_eq_true, h j hj, hshift]
  constructor
  · rintro (⟨k, hk, hlt, hbit⟩ | ⟨k, hk, hlt, hbit⟩) <;>
      exact ⟨k, by omega, by omega, hbit⟩
  · rintro ⟨k, hk, hlt, hbit⟩
    by_cases hks : k < j + s
    · exact .inl ⟨k, hk, hks, hbit⟩
    · exact .inr ⟨k, by omega, hlt, hbit⟩

/-- Smearing by the whole width sets a bit iff that bit or a higher one was set. -/
theorem Smeared.getLsbD {v m : BitVec w} (h : Smeared w v m) {j : ℕ} (hj : j < w) :
    m.getLsbD j = true ↔ ∃ k, j ≤ k ∧ k < w ∧ v.getLsbD k = true := by
  rw [h j hj]
  constructor
  · rintro ⟨k, hk, -, hbit⟩
    exact ⟨min k (w - 1), by omega, by omega, hbit⟩
  · rintro ⟨k, hk, hlt, hbit⟩
    exact ⟨k, hk, by omega, by rwa [min_eq_left (by omega)]⟩

/-- A difference is taken before or after the conversion. -/
theorem ofInt_sub (a b : ℤ) : BitVec.ofInt w a - BitVec.ofInt w b = BitVec.ofInt w (a - b) := by
  have hadd : BitVec.ofInt w (a - b) + BitVec.ofInt w b = BitVec.ofInt w a := by
    rw [← BitVec.ofInt_add, sub_add_cancel]
  rw [← hadd, BitVec.add_sub_cancel]

/-- The low bits of an integer are its residue. -/
theorem ofInt_and_mask (a : ℤ) {k : ℕ} (hk : k < 31) :
    BitVec.ofInt 32 a &&& BitVec.ofInt 32 (2 ^ k - 1) = BitVec.ofInt 32 (a % 2 ^ k) := by
  have hpow : (2 : ℤ) ^ k ≤ 2 ^ 30 := pow_le_pow_right₀ (by norm_num) (by omega)
  have hpos : (0 : ℤ) < 2 ^ k := by positivity
  have hcast : ((2 ^ k : ℕ) : ℤ) = 2 ^ k := by push_cast; rfl
  have hmask : (BitVec.ofInt 32 (2 ^ k - 1)).toNat = 2 ^ k - 1 := by
    rw [BitVec.toNat_ofInt, Int.emod_eq_of_lt (by omega) (by norm_num; omega)]
    omega
  have hdvd : (2 : ℤ) ^ k ∣ 2 ^ 32 := pow_dvd_pow 2 (by omega)
  have hnat : (((BitVec.ofInt 32 a &&& BitVec.ofInt 32 (2 ^ k - 1)).toNat : ℕ) : ℤ) =
      a % 2 ^ k := by
    rw [BitVec.toNat_and, hmask, Nat.and_two_pow_sub_one_eq_mod, BitVec.toNat_ofInt]
    push_cast
    rw [Int.toNat_of_nonneg (Int.emod_nonneg _ (by norm_num))]
    exact Int.emod_emod_of_dvd a hdvd
  have hlt := Int.emod_lt_of_pos a hpos
  have hnonneg := Int.emod_nonneg a hpos.ne'
  apply BitVec.eq_of_toNat_eq
  rw [BitVec.toNat_ofInt, Int.emod_eq_of_lt hnonneg (by norm_num; omega)]
  omega

/-- The conjunction with -4 rounds down to a multiple of 4. -/
theorem ofNat_and_neg_four {x : ℕ} (hx : x < 2 ^ 32) :
    (BitVec.ofNat 32 x &&& -4).toNat = x / 4 * 4 := by
  have hmask : (-4 : BitVec 32) = (BitVec.allOnes 30).setWidth 32 <<< 2 := by decide
  have hand : BitVec.ofNat 32 x &&& (-4 : BitVec 32) = (BitVec.ofNat 32 x >>> 2) <<< 2 := by
    rw [hmask]
    ext i hi
    simp only [BitVec.getElem_and, BitVec.getElem_shiftLeft, BitVec.getElem_ushiftRight]
    by_cases h2 : i < 2
    · simp [h2]
    · have hlt : i - 2 < 30 := by omega
      have hadd : 2 + (i - 2) = i := by omega
      simp only [h2, decide_false, Bool.not_false, Bool.true_and, BitVec.getElem_setWidth,
        BitVec.getLsbD_allOnes, hlt, decide_true, Bool.and_true, hadd,
        BitVec.getLsbD_eq_getElem hi]
  rw [hand, BitVec.toNat_shiftLeft, BitVec.toNat_ushiftRight, BitVec.toNat_ofNat,
    Nat.mod_eq_of_lt hx, Nat.shiftRight_eq_div_pow, Nat.shiftLeft_eq]
  omega

end Bits
