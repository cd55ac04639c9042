import Faust.Normalize.Mterm

/-!
# Facts on multiplicative terms

What the factors of a term are made of, when a term has a normal form, and what a divisor is. A
predicate on signals that the construction of normal forms keeps is `Stable`.
-/

namespace Faust

open Faust.Tree Faust.OrderedMap

/-! ## Predicates kept by normal forms -/

/-- A predicate that the signals built for normal forms satisfy when their parts do. -/
structure Stable (P : Tree → Prop) : Prop where
  number : ∀ n : Node, n.isNum = true → P (leaf n)
  binOp : ∀ op x y, P x → P y → P (sigBinOp op x y)
  power : ∀ x q, 1 < q → P x → P (sigPow x q)

/-- A predicate that the operands of the signals `mterm` takes apart inherit. -/
structure Inherited (P : Tree → Prop) : Prop where
  binOp : ∀ i br x y, P (.node (.sym .sigBinOp) [.node (.int i) br, x, y]) → P x ∧ P y
  power : ∀ x n br, P (.node (.sym (.xtended .pow)) [x, .node (.int n) br]) → P x

theorem Inherited.pow {P : Tree → Prop} (hP : Inherited P) {t x : Tree} {n : ℤ}
    (h : isSigPow t = some (x, n)) (ht : P t) : P x := by
  unfold isSigPow at h
  split at h
  · cases h
    exact hP.power _ _ _ ht
  · cases h

/-- An expression whose factors satisfy a predicate: its operands do, and the expression itself
unless it is a power of a base that does. -/
structure Operand (P : Tree → Prop) (t : Tree) : Prop where
  binOp : ∀ i br x y, t = .node (.sym .sigBinOp) [.node (.int i) br, x, y] → P x ∧ P y
  factor : isSigPow t = none → P t
  base : ∀ x k, isSigPow t = some (x, k) → P x

theorem Inherited.operand {P : Tree → Prop} (hP : Inherited P) {t : Tree} (ht : P t) :
    Operand P t where
  binOp := by
    intro i br x y h
    exact hP.binOp i br x y (h ▸ ht)
  factor := fun _ => ht
  base := fun x k h => hP.pow h ht

/-! ## Numbers -/

theorem isNum_arith (f : ℤ → ℤ → ℤ) (g : ℚ → ℚ → ℚ) (x y : Node) :
    (Node.arith wrap32 f g x y).isNum = true := by
  unfold Node.arith
  split <;> rfl

theorem isNum_divExtendedNode (x y : Node) :
    (Node.divExtendedNode wrap32 x y).isNum = true := by
  unfold Node.divExtendedNode
  split
  · rfl
  · dsimp only
    split <;> rfl

theorem isInt32_wrap32 (i : ℤ) : IsInt32 (wrap32 i) := by
  unfold IsInt32 wrap32
  have h₁ := Int.le_bmod (x := i) (m := 2 ^ 32) (by omega)
  have h₂ := Int.bmod_lt (x := i) (m := 2 ^ 32) (by omega)
  omega

/-- Zero divided by a number is zero. -/
theorem isZero_divExtendedNode {x : Node} (y : Node) (hx : x.isZero = true) :
    (Node.divExtendedNode wrap32 x y).isZero = true := by
  have hx' : x.isNum = true ∧ x.toDouble = 0 := by simpa [Node.isZero] using hx
  unfold Node.divExtendedNode
  split
  · simp [Node.isZero, Node.isNum, Node.isDouble, hx'.2]
  · dsimp only
    split
    · next h =>
      rw [hx'.2, zero_div] at h
      simpa [Node.isZero, Node.isNum, Node.isInt] using h
    · simp [Node.isZero, Node.isNum, Node.isDouble, hx'.2]

/-- Zero multiplied by a number is zero. -/
theorem isZero_mulNode {x : Node} (y : Node) (hx : x.isZero = true) :
    (Node.mulNode wrap32 x y).isZero = true := by
  have hx' : x.isNum = true ∧ x.toDouble = 0 := by simpa [Node.isZero] using hx
  unfold Node.mulNode Node.arith
  split
  · simp [Node.isZero, Node.isNum, Node.isDouble, hx'.2]
  · next h =>
    cases x with
    | int i =>
      have hi : i = 0 := by simpa using hx'.2
      simp [Node.isZero, Node.isNum, Node.isInt, hi, wrap32]
    | double r => simp [Node.isDouble] at h
    | sym s => simp [Node.isNum, Node.isInt, Node.isDouble] at hx'
    | pointer p => simp [Node.isNum, Node.isInt, Node.isDouble] at hx'

namespace Mterm

variable (before : Tree → Tree → Bool)

/-! ## Sound terms -/

/-- A term whose coefficient is a number, with one power for each factor, and whose factors satisfy
`P`. -/
structure Sound (P : Tree → Prop) (m : Mterm) : Prop where
  coef : m.fCoef.isNum = true
  nodup : (keys m.fFactors).Nodup
  range : ∀ p ∈ m.fFactors, IsInt32 p.2
  factor : ∀ p ∈ m.fFactors, p.2 ≠ 0 → P p.1

variable {P : Tree → Prop} {m n : Mterm}

theorem sound_ofInt (k : ℤ) : Sound P (ofInt k) where
  coef := rfl
  nodup := List.nodup_nil
  range := by simp [ofInt]
  factor := by simp [ofInt]

theorem Sound.withCoef (hm : Sound P m) {c : Node} (hc : c.isNum = true) :
    Sound P { m with fCoef := c } where
  coef := hc
  nodup := hm.nodup
  range := hm.range
  factor := hm.factor

theorem mem_cleanup {p : Tree × ℤ} (h : p ∈ m.cleanup.fFactors) : p ∈ m.fFactors := by
  unfold cleanup at h
  split at h
  · simp at h
  · exact List.mem_of_mem_filter h

@[simp] theorem fCoef_cleanup (m : Mterm) : m.cleanup.fCoef = m.fCoef := by
  unfold cleanup
  split <;> rfl

theorem Sound.cleanup (hm : Sound P m) : Sound P m.cleanup where
  coef := by
    rw [fCoef_cleanup]
    exact hm.coef
  nodup := by
    unfold Mterm.cleanup
    split
    · exact List.nodup_nil
    · exact nodup_filter hm.nodup _
  range := fun p hp => hm.range p (mem_cleanup hp)
  factor := fun p hp => hm.factor p (mem_cleanup hp)

/-- The power of a factor. -/
def power (m : Mterm) (f : Tree) : ℤ := (find f m.fFactors).getD 0

theorem power_of_mem (hm : (keys m.fFactors).Nodup) {p : Tree × ℤ} (h : p ∈ m.fFactors) :
    m.power p.1 = p.2 := by
  unfold power
  rw [find_of_mem hm h]
  rfl

theorem mem_of_power_ne_zero {f : Tree} (h : m.power f ≠ 0) : (f, m.power f) ∈ m.fFactors := by
  unfold power at h ⊢
  cases hf : find f m.fFactors with
  | none => simp [hf] at h
  | some v => exact mem_of_find hf

/-- An entry after `fFactors[f] += n`. -/
theorem mem_addPower {f : Tree} {k : ℤ} {p : Tree × ℤ}
    (h : p ∈ (addPower before f k m).fFactors) :
    p = (f, wrap32 (m.power f + k)) ∨ p ∈ m.fFactors ∧ p.1 ≠ f := mem_put before h

theorem nodup_addPower (hm : (keys m.fFactors).Nodup) (f : Tree) (k : ℤ) :
    (keys (addPower before f k m).fFactors).Nodup := nodup_put before hm f _

@[simp] theorem fCoef_addPower (f : Tree) (k : ℤ) (m : Mterm) :
    (addPower before f k m).fCoef = m.fCoef := rfl

theorem Sound.addPower (hm : Sound P m) {f : Tree} {k : ℤ} (hf : k ≠ 0 → P f) :
    Sound P (addPower before f k m) where
  coef := hm.coef
  nodup := nodup_addPower before hm.nodup f k
  range := by
    intro p hp
    rcases mem_addPower before hp with rfl | hp
    · exact isInt32_wrap32 _
    · exact hm.range p hp.1
  factor := by
    intro p hp hne
    rcases mem_addPower before hp with rfl | hp
    · by_cases hk : k = 0
      · -- the power is the old one
        have hpow : m.power f ≠ 0 := by
          intro h0
          simp [h0, hk, wrap32] at hne
        exact hm.factor (f, m.power f) (mem_of_power_ne_zero hpow) hpow
      · exact hf hk
    · exact hm.factor p hp.1 hne

theorem Sound.scaleFactor (hm : Sound P m) {inv : Bool} {t : Tree} (ht : Operand P t) :
    Sound P (scaleFactor before inv t m) := by
  unfold Mterm.scaleFactor
  split
  · apply hm.withCoef
    split
    · exact isNum_divExtendedNode _ _
    · exact isNum_arith _ _ _ _
  · split
    · next x k h => exact hm.addPower before fun _ => ht.base x k h
    · next h => exact hm.addPower before fun _ => ht.factor h

/-- The factors of a product or of a quotient inherit from it. -/
theorem Sound.scale (hP : Inherited P) {inv : Bool} {t : Tree} (hm : Sound P m)
    (ht : Operand P t) : Sound P (scale before inv t m) := by
  fun_induction Mterm.scale before inv t m with
  | case1 inv br x y m ihx ihy =>
    have hxy := ht.binOp _ _ _ _ rfl
    exact ihy (ihx hm (hP.operand hxy.1)) (hP.operand hxy.2)
  | case2 inv br x y m _ ihx ihy =>
    have hxy := ht.binOp _ _ _ _ rfl
    exact ihy (ihx hm (hP.operand hxy.1)) (hP.operand hxy.2)
  | case3 inv op br x y m _ _ => exact hm.scaleFactor before ht
  | case4 inv t m _ => exact hm.scaleFactor before ht

theorem sound_ofTree (hP : Inherited P) {t : Tree} (ht : Operand P t) :
    Sound P (ofTree before t) :=
  (sound_ofInt 1).scale before hP ht

/-! ## Products and quotients of terms -/

theorem power_addPower (f : Tree) (k : ℤ) (m : Mterm) (g : Tree) :
    (addPower before f k m).power g = if g = f then wrap32 (m.power f + k) else m.power g := by
  unfold power addPower
  rw [find_put]
  split <;> rfl

theorem mul_ofInt (m : Mterm) (k : ℤ) :
    m.mul before (ofInt k)
      = { m with fCoef := Node.mulNode wrap32 m.fCoef (.int k) : Mterm }.cleanup := rfl

/-- The product of a term with the inverses of some powers. -/
def divFactors (l : List (Tree × ℤ)) (m : Mterm) : Mterm :=
  l.foldl (fun r p => addPower before p.1 (-p.2) r) m

theorem Sound.divFactors {l : List (Tree × ℤ)} (hm : Sound P m)
    (hl : ∀ p ∈ l, p.2 ≠ 0 → P p.1) : Sound P (divFactors before l m) := by
  induction l generalizing m with
  | nil => exact hm
  | cons p l ih =>
    have hp : -p.2 ≠ 0 → P p.1 := fun h => hl p List.mem_cons_self (by omega)
    exact ih (hm.addPower before hp) fun q hq => hl q (List.mem_cons_of_mem _ hq)

@[simp] theorem fCoef_divFactors (l : List (Tree × ℤ)) (m : Mterm) :
    (divFactors before l m).fCoef = m.fCoef := by
  induction l generalizing m with
  | nil => rfl
  | cons p l ih => exact ih _

/-- The powers of a quotient are the differences of the powers. -/
theorem power_divFactors {l : List (Tree × ℤ)} (hl : (keys l).Nodup) (m : Mterm) (g : Tree) :
    (divFactors before l m).power g
      = match find g l with
        | some v => wrap32 (m.power g - v)
        | none => m.power g := by
  induction l generalizing m with
  | nil => rfl
  | cons p l ih =>
    obtain ⟨hnot, hl⟩ := List.nodup_cons.mp hl
    show (Mterm.divFactors before l (addPower before p.1 (-p.2) m)).power g = _
    rw [ih hl, power_addPower, find_cons]
    by_cases hg : g = p.1
    · have hnone : find g l = none := by
        rw [← Option.not_isSome_iff_eq_none, find_isSome_iff, hg]
        exact hnot
      rw [hnone, if_pos hg, if_pos hg, hg]
      rfl
    · rw [if_neg hg, if_neg hg]

theorem Sound.div (hm : Sound P m) (hn : Sound P n) : Sound P (m.div before n) :=
  ((hm.withCoef (isNum_divExtendedNode _ _)).divFactors before hn.factor).cleanup

/-! ## Divisors -/

theorem ofTree_num {c : Node} (hc : c.isNum = true) :
    ofTree before (leaf c) = ⟨Node.mulNode wrap32 (.int 1) c, []⟩ := by
  cases c with
  | int i => rfl
  | double x => rfl
  | sym s => simp [Node.isNum, Node.isInt, Node.isDouble] at hc
  | pointer p => simp [Node.isNum, Node.isInt, Node.isDouble] at hc

theorem isInt32_common {a b : ℤ} (ha : IsInt32 a) (hb : IsInt32 b) : IsInt32 (common a b) := by
  unfold common
  unfold IsInt32 at *
  split
  · omega
  · split <;> omega

theorem tdiv_pos_iff_of_pos (u : ℤ) {v : ℤ} (hv : 0 < v) : 0 < u.tdiv v ↔ v ≤ u := by
  by_cases hu : 0 ≤ u
  · rw [Int.tdiv_eq_ediv_of_nonneg hu, Int.lt_iff_add_one_le, Int.le_ediv_iff_mul_le hv]
    omega
  · have h : 0 ≤ (-u).tdiv v := Int.tdiv_nonneg (by omega) (by omega)
    rw [Int.neg_tdiv] at h
    omega

/-- `a/b > 0`: the operands have the same sign and `b` is not greater than `a`. -/
theorem tdiv_pos_iff (u : ℤ) {v : ℤ} (hv : v ≠ 0) :
    0 < u.tdiv v ↔ 0 < v ∧ v ≤ u ∨ v < 0 ∧ u ≤ v := by
  by_cases hpos : 0 < v
  · rw [tdiv_pos_iff_of_pos u hpos]
    omega
  · rw [← Int.neg_tdiv_neg, tdiv_pos_iff_of_pos (-u) (by omega)]
    omega

theorem contains_iff (u v : ℤ) :
    contains u v = true ↔ v = 0 ∨ 0 < v ∧ v ≤ u ∨ v < 0 ∧ u ≤ v := by
  unfold contains
  rw [Bool.or_eq_true, beq_iff_eq, decide_eq_true_iff]
  by_cases hv : v = 0
  · simp [hv]
  · rw [tdiv_pos_iff u hv]

/-- The common quantity of two numbers is contained in both of them. -/
theorem contains_common (a b : ℤ) :
    contains a (common a b) = true ∧ contains b (common a b) = true := by
  rw [contains_iff, contains_iff]
  unfold common
  split
  · omega
  · split
    · omega
    · exact ⟨Or.inl rfl, Or.inl rfl⟩

theorem fCoef_gcdFactor (m2 R : Mterm) (p : Tree × ℤ) :
    (gcdFactor before m2 R p).fCoef = R.fCoef := by
  unfold gcdFactor
  split
  · split <;> rfl
  · rfl

theorem nodup_gcdFactor {R : Mterm} (hR : (keys R.fFactors).Nodup) (m2 : Mterm) (p : Tree × ℤ) :
    (keys (gcdFactor before m2 R p).fFactors).Nodup := by
  unfold gcdFactor
  split
  · split
    · exact nodup_put before hR _ _
    · exact hR
  · exact hR

/-- A factor after a step of the loop of `gcd`. -/
theorem mem_gcdFactor {m2 R : Mterm} {p q : Tree × ℤ}
    (h : q ∈ (gcdFactor before m2 R p).fFactors) :
    q ∈ R.fFactors ∨
      ∃ v2, (p.1, v2) ∈ m2.fFactors ∧ q = (p.1, common p.2 v2) ∧ common p.2 v2 ≠ 0 := by
  unfold gcdFactor at h
  split at h
  · next v2 hv2 =>
    split at h
    · next hc =>
      rcases mem_put before h with rfl | h
      · exact Or.inr ⟨v2, mem_of_find hv2, rfl, hc⟩
      · exact Or.inl h.1
    · exact Or.inl h
  · exact Or.inl h

theorem gcdFactors_spec (m2 : Mterm) (l : List (Tree × ℤ)) {R : Mterm}
    (hR : (keys R.fFactors).Nodup) :
    let R' := l.foldl (gcdFactor before m2) R
    R'.fCoef = R.fCoef ∧ (keys R'.fFactors).Nodup ∧ ∀ q ∈ R'.fFactors, q ∈ R.fFactors ∨
      ∃ v1 v2, (q.1, v1) ∈ l ∧ (q.1, v2) ∈ m2.fFactors ∧ q.2 = common v1 v2 ∧ q.2 ≠ 0 := by
  induction l generalizing R with
  | nil => exact ⟨rfl, hR, fun q hq => Or.inl hq⟩
  | cons p l ih =>
    obtain ⟨hcoef, hnodup, hmem⟩ := ih (nodup_gcdFactor before hR m2 p)
    refine ⟨hcoef.trans (fCoef_gcdFactor before m2 R p), hnodup, fun q hq => ?_⟩
    rcases hmem q hq with h | ⟨v1, v2, h1, h2, h3, h4⟩
    · rcases mem_gcdFactor before h with h | ⟨v2, hv2, rfl, hc⟩
      · exact Or.inl h
      · exact Or.inr ⟨p.2, v2, List.mem_cons_self, hv2, rfl, hc⟩
    · exact Or.inr ⟨v1, v2, List.mem_cons_of_mem _ h1, h2, h3, h4⟩

section
variable {m1 m2 : Mterm} (h1 : m1.Sound P) (h2 : m2.Sound P)
include h1

variable (m2) in
theorem ofTree_gcdCoef :
    ∃ c : Node, c.isNum = true ∧
      ofTree before (leaf (if m1.fCoef = m2.fCoef then m1.fCoef else .int 1)) = ⟨c, []⟩ := by
  refine ⟨_, isNum_arith _ _ _ _, ofTree_num before ?_⟩
  split
  · exact h1.coef
  · rfl

/-- The factors of a gcd are the common factors, with their common quantities. -/
theorem mem_gcd {q : Tree × ℤ} (hq : q ∈ (gcd before m1 m2).fFactors) :
    ∃ v1 v2, (q.1, v1) ∈ m1.fFactors ∧ (q.1, v2) ∈ m2.fFactors ∧ q.2 = common v1 v2 ∧
      q.2 ≠ 0 := by
  obtain ⟨c, _, heq⟩ := ofTree_gcdCoef before m2 h1
  unfold gcd at hq
  rw [heq] at hq
  have hspec := gcdFactors_spec before m2 m1.fFactors (R := ⟨c, []⟩) List.nodup_nil
  rcases hspec.2.2 q hq with h | h
  · simp at h
  · exact h

include h2

theorem Sound.gcd : Sound P (gcd before m1 m2) := by
  obtain ⟨c, hc, heq⟩ := ofTree_gcdCoef before m2 h1
  have hspec := gcdFactors_spec before m2 m1.fFactors (R := ⟨c, []⟩) List.nodup_nil
  have hgcd : Mterm.gcd before m1 m2 = m1.fFactors.foldl (gcdFactor before m2) ⟨c, []⟩ := by
    unfold Mterm.gcd
    rw [heq]
  constructor
  · rw [hgcd, hspec.1]
    exact hc
  · rw [hgcd]
    exact hspec.2.1
  · intro q hq
    obtain ⟨v1, v2, hv1, hv2, hq2, _⟩ := mem_gcd before h1 hq
    rw [hq2]
    exact isInt32_common (h1.range _ hv1) (h2.range _ hv2)
  · intro q hq _
    obtain ⟨v1, v2, hv1, hv2, hq2, hne⟩ := mem_gcd before h1 hq
    have hv1ne : v1 ≠ 0 := by
      intro h0
      rw [hq2, h0] at hne
      simp [common] at hne
    exact h1.factor (q.1, v1) hv1 hv1ne

/-- A gcd is accepted as a divisor of both terms. -/
theorem hasDivisor_gcd :
    m1.hasDivisor (Mterm.gcd before m1 m2) = true ∧ m2.hasDivisor (Mterm.gcd before m1 m2) = true := by
  unfold hasDivisor
  rw [List.all_eq_true, List.all_eq_true]
  constructor
  · intro q hq
    obtain ⟨v1, v2, hv1, hv2, hq2, _⟩ := mem_gcd before h1 hq
    rw [find_of_mem h1.nodup hv1, hq2]
    exact (contains_common v1 v2).1
  · intro q hq
    obtain ⟨v1, v2, hv1, hv2, hq2, _⟩ := mem_gcd before h1 hq
    rw [find_of_mem h2.nodup hv2, hq2]
    exact (contains_common v1 v2).2

end

/-! ## Signals of normal forms -/

theorem combineMulLeft_stable (hP : Stable P) {R : Option Tree} {A : Tree} (hR : ∀ r ∈ R, P r)
    (hA : P A) : P (combineMulLeft R A) := by
  cases R with
  | none => exact hA
  | some r => exact hP.binOp _ _ _ (hR r rfl) hA

theorem combineDivLeft_stable (hP : Stable P) {R : Option Tree} {A : Tree} (hR : ∀ r ∈ R, P r)
    (hA : P A) : P (combineDivLeft R A) := by
  cases R with
  | none => exact hP.binOp _ _ _ (hP.number (.double 1) rfl) hA
  | some r => exact hP.binOp _ _ _ (hR r rfl) hA

theorem buildPowTerm_stable (hP : Stable P) {f t : Tree} {q : ℤ} (hf : P f)
    (h : buildPowTerm f q = some t) : P t := by
  unfold buildPowTerm at h
  split at h
  · cases h
    split
    · next hq => exact hP.power f q hq hf
    · exact hf
  · cases h

/-- A predicate of what there is in a product and in a divisor. -/
def Both (P : Tree → Prop) (AB : Option Tree × Option Tree) : Prop :=
  (∀ t ∈ AB.1, P t) ∧ ∀ t ∈ AB.2, P t

theorem combineMulDiv_stable (hP : Stable P) {AB AB' : Option Tree × Option Tree} {f : Tree}
    {q : ℤ} (hAB : Both P AB) (hf : P f) (h : combineMulDiv AB.1 AB.2 f q = some AB') :
    Both P AB' := by
  unfold combineMulDiv at h
  split at h
  · cases ht : buildPowTerm f q with
    | none => simp [ht] at h
    | some t =>
      simp only [ht, Option.bind_eq_bind, Option.bind_some, Option.pure_def, Option.some.injEq] at h
      subst h
      refine ⟨fun r hr => ?_, hAB.2⟩
      cases hr
      exact combineMulLeft_stable hP hAB.1 (buildPowTerm_stable hP hf ht)
  · split at h
    · cases ht : buildPowTerm f (wrap32 (-q)) with
      | none => simp [ht] at h
      | some t =>
        simp only [ht, Option.bind_eq_bind, Option.bind_some, Option.pure_def, Option.some.injEq] at h
        subst h
        refine ⟨hAB.1, fun r hr => ?_⟩
        cases hr
        exact combineMulLeft_stable hP hAB.2 (buildPowTerm_stable hP hf ht)
    · cases h

/-- The step of `groupOrder`, for a factor with a power. -/
theorem groupOrder_cons {order : ℕ} {f : Tree} {q : ℤ} (l : List (Tree × ℤ))
    (AB : Option Tree × Option Tree) {o : ℕ} (hq : q ≠ 0) (ho : getSigOrder f = some o) :
    groupOrder order ((f, q) :: l) AB
      = if o = order then (combineMulDiv AB.1 AB.2 f q).bind (groupOrder order l)
        else groupOrder order l AB := by
  rw [groupOrder, if_neg hq, ho]
  rfl

theorem groupOrder_cons_zero {order : ℕ} {f : Tree} (l : List (Tree × ℤ))
    (AB : Option Tree × Option Tree) :
    groupOrder order ((f, 0) :: l) AB = groupOrder order l AB := by
  rw [groupOrder, if_pos rfl]

theorem getSigOrder_of_groupOrder {order : ℕ} {f : Tree} {q : ℤ} {l : List (Tree × ℤ)}
    {AB AB' : Option Tree × Option Tree} (hq : q ≠ 0)
    (h : groupOrder order ((f, q) :: l) AB = some AB') : ∃ o, getSigOrder f = some o := by
  rw [groupOrder, if_neg hq] at h
  cases ho : getSigOrder f with
  | none => simp [ho] at h
  | some o => exact ⟨o, rfl⟩

theorem groupOrder_stable (hP : Stable P) {order : ℕ} {l : List (Tree × ℤ)}
    {AB AB' : Option Tree × Option Tree} (hl : ∀ p ∈ l, p.2 ≠ 0 → P p.1) (hAB : Both P AB)
    (h : groupOrder order l AB = some AB') : Both P AB' := by
  induction l generalizing AB with
  | nil =>
    cases h
    exact hAB
  | cons p l ih =>
    have hl' : ∀ q ∈ l, q.2 ≠ 0 → P q.1 := fun q hq => hl q (List.mem_cons_of_mem _ hq)
    by_cases hq : p.2 = 0
    · have hp : p = (p.1, 0) := by rw [← hq]
      rw [hp, groupOrder_cons_zero] at h
      exact ih hl' hAB h
    · obtain ⟨o, ho⟩ := getSigOrder_of_groupOrder (f := p.1) (q := p.2) hq h
      rw [groupOrder_cons (f := p.1) (q := p.2) l AB hq ho] at h
      split at h
      · obtain ⟨AB'', hc, h⟩ := Option.bind_eq_some_iff.mp h
        have hf := hl p List.mem_cons_self hq
        exact ih hl' (combineMulDiv_stable hP hAB hf hc) h
      · exact ih hl' hAB h

theorem combineOrder_stable (hP : Stable P) {RR : Option Tree} {AB : Option Tree × Option Tree}
    (hRR : ∀ t ∈ RR, P t) (hAB : Both P AB) : ∀ t ∈ combineOrder RR AB, P t := by
  obtain ⟨A, B⟩ := AB
  obtain ⟨hA, hB⟩ := hAB
  cases A with
  | none =>
    cases B with
    | none => exact hRR
    | some B =>
      intro t ht
      cases ht
      exact combineDivLeft_stable hP hRR (hB B rfl)
  | some A =>
    cases B with
    | none =>
      intro t ht
      cases ht
      exact combineMulLeft_stable hP hRR (hA A rfl)
    | some B =>
      intro t ht
      cases ht
      exact combineMulLeft_stable hP hRR (hP.binOp _ _ _ (hA A rfl) (hB B rfl))

theorem foldl_combineOrder_stable (hP : Stable P) {l : List (Option Tree × Option Tree)}
    {RR : Option Tree} (hRR : ∀ t ∈ RR, P t) (hl : ∀ AB ∈ l, Both P AB) :
    ∀ t ∈ l.foldl combineOrder RR, P t := by
  induction l generalizing RR with
  | nil => exact hRR
  | cons AB l ih =>
    exact ih (combineOrder_stable hP hRR (hl AB List.mem_cons_self))
      fun q hq => hl q (List.mem_cons_of_mem _ hq)

theorem normalCoef_stable (hP : Stable P) {s g : Bool} {c : Node} (hc : c.isNum = true) :
    ∀ t ∈ normalCoef s g c, P t := by
  intro t ht
  unfold normalCoef at ht
  split at ht
  · cases ht
  · split at ht
    · split at ht
      · cases ht
      · cases ht
        exact hP.number _ (isNum_arith _ _ _ _)
    · split at ht
      · cases ht
      · cases ht
        exact hP.number _ hc

/-- The normal form of factors that satisfy a stable predicate satisfies it. -/
theorem normalizedTree_stable (hP : Stable P) {s g : Bool} {t : Tree} (hc : m.fCoef.isNum = true)
    (hm : m.fCoef.isZero = false → ∀ p ∈ m.fFactors, p.2 ≠ 0 → P p.1)
    (h : m.normalizedTree s g = some t) : P t := by
  unfold normalizedTree at h
  split at h
  · cases h
    split
    · exact hP.number _ rfl
    · split
      · exact hP.number _ (isNum_arith _ _ _ _)
      · exact hP.number _ hc
  · next hne =>
    have hz : m.fCoef.isZero = false := by
      cases hz : m.fCoef.isZero with
      | false => rfl
      | true => simp [hz] at hne
    have hnone : Both P (none, none) := ⟨by simp, by simp⟩
    obtain ⟨AB0, h0, h⟩ := Option.bind_eq_some_iff.mp h
    obtain ⟨AB1, h1, h⟩ := Option.bind_eq_some_iff.mp h
    obtain ⟨AB2, h2, h⟩ := Option.bind_eq_some_iff.mp h
    obtain ⟨AB3, h3, h⟩ := Option.bind_eq_some_iff.mp h
    split at h
    · cases h
      have hall : ∀ AB ∈ [(normalCoef s g m.fCoef, none), AB1, AB2, AB3], Both P AB := by
        intro AB hAB
        simp only [List.mem_cons, List.not_mem_nil, or_false] at hAB
        rcases hAB with rfl | rfl | rfl | rfl
        · exact ⟨normalCoef_stable hP hc, by simp⟩
        · exact groupOrder_stable hP (hm hz) hnone h1
        · exact groupOrder_stable hP (hm hz) hnone h2
        · exact groupOrder_stable hP (hm hz) hnone h3
      have hRR := @foldl_combineOrder_stable _ hP _ none (by simp) hall
      cases hr : List.foldl combineOrder none [(normalCoef s g m.fCoef, none), AB1, AB2, AB3] with
      | none => exact hP.number (.int 1) rfl
      | some r => exact hRR r hr
    · cases h

/-! ## Terms that have a normal form -/

/-- A power of a factor that `normalizedTree` accepts. -/
def Regular (p : Tree × ℤ) : Prop :=
  p.2 = 0 ∨ ∃ o, getSigOrder p.1 = some o ∧ o ≠ 0 ∧ p.2 ≠ -2 ^ 31

/-- A term that `normalizedTree` accepts: a number, or factors that are not constants. -/
def Accepted (m : Mterm) : Prop := m.fCoef.isZero = true ∨ ∀ p ∈ m.fFactors, Regular p

theorem combineMulDiv_isSome {M D : Option Tree} {f : Tree} {q : ℤ} (hq : IsInt32 q)
    (h0 : q ≠ 0) (hmin : q ≠ -2 ^ 31) : ∃ AB, combineMulDiv M D f q = some AB := by
  unfold combineMulDiv
  split
  · next h => exact ⟨_, by rw [buildPowTerm, if_pos h]; rfl⟩
  · next h =>
    rw [if_pos (by omega)]
    have hneg : wrap32 (-q) = -q := wrap32_of_isInt32 (by unfold IsInt32 at *; omega)
    exact ⟨_, by rw [hneg, buildPowTerm, if_pos (by omega)]; rfl⟩

/-- The lowest power cannot be inverted. -/
theorem combineMulDiv_min (M D : Option Tree) (f : Tree) : combineMulDiv M D f (-2 ^ 31) = none := by
  rfl

theorem combineMulDiv_ne_none {M D : Option Tree} {f : Tree} {q : ℤ}
    {AB : Option Tree × Option Tree} (h : combineMulDiv M D f q = some AB) : AB ≠ (none, none) := by
  unfold combineMulDiv at h
  split at h
  · obtain ⟨t, _, h⟩ := Option.bind_eq_some_iff.mp h
    cases h
    simp
  · split at h
    · obtain ⟨t, _, h⟩ := Option.bind_eq_some_iff.mp h
      cases h
      simp
    · cases h

theorem groupOrder_isSome (order : ℕ) {l : List (Tree × ℤ)} (AB : Option Tree × Option Tree)
    (hr : ∀ p ∈ l, IsInt32 p.2) (hl : ∀ p ∈ l, Regular p) :
    ∃ AB', groupOrder order l AB = some AB' ∧ (order = 0 → AB' = AB) := by
  induction l generalizing AB with
  | nil => exact ⟨AB, rfl, fun _ => rfl⟩
  | cons p l ih =>
    have hr' : ∀ q ∈ l, IsInt32 q.2 := fun q hq => hr q (List.mem_cons_of_mem _ hq)
    have hl' : ∀ q ∈ l, Regular q := fun q hq => hl q (List.mem_cons_of_mem _ hq)
    rcases hl p List.mem_cons_self with hq | ⟨o, ho, hne, hmin⟩
    · have hp : p = (p.1, 0) := by rw [← hq]
      rw [hp, groupOrder_cons_zero]
      exact ih AB hr' hl'
    · by_cases hq : p.2 = 0
      · have hp : p = (p.1, 0) := by rw [← hq]
        rw [hp, groupOrder_cons_zero]
        exact ih AB hr' hl'
      · rw [groupOrder_cons (f := p.1) (q := p.2) l AB hq ho]
        split
        · next horder =>
          obtain ⟨AB'', hc⟩ := combineMulDiv_isSome (M := AB.1) (D := AB.2) (f := p.1)
            (hr p List.mem_cons_self) hq hmin
          rw [hc]
          obtain ⟨AB', h', _⟩ := ih AB'' hr' hl'
          exact ⟨AB', h', fun h0 => absurd (horder.trans h0) hne⟩
        · exact ih AB hr' hl'

/-- A group that is not empty stays so. -/
theorem groupOrder_ne_none {order : ℕ} {l : List (Tree × ℤ)} {AB AB' : Option Tree × Option Tree}
    (hAB : AB ≠ (none, none)) (h : groupOrder order l AB = some AB') : AB' ≠ (none, none) := by
  induction l generalizing AB with
  | nil =>
    cases h
    exact hAB
  | cons p l ih =>
    by_cases hq : p.2 = 0
    · have hp : p = (p.1, 0) := by rw [← hq]
      rw [hp, groupOrder_cons_zero] at h
      exact ih hAB h
    · obtain ⟨o, ho⟩ := getSigOrder_of_groupOrder (f := p.1) (q := p.2) hq h
      rw [groupOrder_cons (f := p.1) (q := p.2) l AB hq ho] at h
      split at h
      · obtain ⟨AB'', hc, h⟩ := Option.bind_eq_some_iff.mp h
        exact ih (combineMulDiv_ne_none hc) h
      · exact ih hAB h

/-- The factors of groups that could be built, with nothing in the group of order 0. -/
theorem regular_of_groupOrder {l : List (Tree × ℤ)}
    (h : ∀ order < 4, ∃ AB AB', groupOrder order l AB = some AB')
    (h0 : groupOrder 0 l (none, none) = some (none, none)) : ∀ p ∈ l, Regular p := by
  induction l with
  | nil => simp
  | cons p l ih =>
    by_cases hq : p.2 = 0
    · have hp : p = (p.1, 0) := by rw [← hq]
      rw [hp] at h h0
      simp only [groupOrder_cons_zero] at h h0
      intro q hmem
      rcases List.mem_cons.mp hmem with rfl | hmem
      · exact Or.inl hq
      · exact ih h h0 q hmem
    · obtain ⟨o, ho⟩ := getSigOrder_of_groupOrder (f := p.1) (q := p.2) hq h0
      have hcons := fun order AB => @groupOrder_cons order p.1 p.2 l AB o hq ho
      simp only [Prod.mk.eta] at hcons
      have hne : o ≠ 0 := by
        intro hz
        rw [hcons, if_pos hz] at h0
        obtain ⟨AB'', hc, h0⟩ := Option.bind_eq_some_iff.mp h0
        exact groupOrder_ne_none (combineMulDiv_ne_none hc) h0 rfl
      have hmin : p.2 ≠ -2 ^ 31 := by
        intro hm
        obtain ⟨AB, AB', h'⟩ := h o (Nat.lt_succ_of_le (getSigOrder_le ho))
        rw [hcons, if_pos rfl, hm, combineMulDiv_min] at h'
        cases h'
      intro q hmem
      rcases List.mem_cons.mp hmem with rfl | hmem
      · exact Or.inr ⟨o, ho, hne, hmin⟩
      · refine ih (fun order horder => ?_) ?_ q hmem
        · obtain ⟨AB, AB', h'⟩ := h order horder
          rw [hcons] at h'
          split at h'
          · obtain ⟨AB'', _, h'⟩ := Option.bind_eq_some_iff.mp h'
            exact ⟨AB'', AB', h'⟩
          · exact ⟨AB, AB', h'⟩
        · rw [hcons, if_neg hne] at h0
          exact h0

theorem normalizedTree_isSome_iff {s g : Bool} (hr : ∀ p ∈ m.fFactors, IsInt32 p.2) :
    (m.normalizedTree s g).isSome ↔ m.Accepted := by
  unfold normalizedTree
  split
  · next h =>
    have hacc : m.Accepted := by
      rw [Bool.or_eq_true] at h
      rcases h with h | h
      · refine Or.inr fun p hp => ?_
        rw [List.isEmpty_iff.mp h] at hp
        cases hp
      · exact Or.inl h
    simp [hacc]
  · next h =>
    have hz : ¬ m.fCoef.isZero = true := fun hz => h (by simp [hz])
    constructor
    · intro hsome
      obtain ⟨t, ht⟩ := Option.isSome_iff_exists.mp hsome
      obtain ⟨AB0, h0, ht⟩ := Option.bind_eq_some_iff.mp ht
      obtain ⟨AB1, h1, ht⟩ := Option.bind_eq_some_iff.mp ht
      obtain ⟨AB2, h2, ht⟩ := Option.bind_eq_some_iff.mp ht
      obtain ⟨AB3, h3, ht⟩ := Option.bind_eq_some_iff.mp ht
      split at ht
      · next hAB0 =>
        refine Or.inr (regular_of_groupOrder (fun order horder => ⟨(none, none), ?_⟩) (hAB0 ▸ h0))
        match order, horder with
        | 0, _ => exact ⟨_, h0⟩
        | 1, _ => exact ⟨_, h1⟩
        | 2, _ => exact ⟨_, h2⟩
        | 3, _ => exact ⟨_, h3⟩
      · cases ht
    · intro hacc
      have hl := hacc.resolve_left hz
      obtain ⟨AB0, h0, hAB0⟩ := groupOrder_isSome 0 (none, none) hr hl
      obtain ⟨AB1, h1, _⟩ := groupOrder_isSome 1 (none, none) hr hl
      obtain ⟨AB2, h2, _⟩ := groupOrder_isSome 2 (none, none) hr hl
      obtain ⟨AB3, h3, _⟩ := groupOrder_isSome 3 (none, none) hr hl
      rw [h0, h1, h2, h3, hAB0 rfl]
      rfl

/-! ## Signatures -/

theorem groupOrder_filter (order : ℕ) (l : List (Tree × ℤ)) (AB : Option Tree × Option Tree) :
    groupOrder order (l.filter fun p => p.2 ≠ 0) AB = groupOrder order l AB := by
  induction l generalizing AB with
  | nil => rfl
  | cons p l ih =>
    by_cases hq : p.2 = 0
    · have hp : p = (p.1, 0) := by rw [← hq]
      rw [List.filter_cons_of_neg (by simp [hq]), ih, hp, groupOrder_cons_zero]
    · rw [List.filter_cons_of_pos (by simp [hq])]
      unfold groupOrder
      rw [if_neg hq, if_neg hq]
      simp only [ih]

/-- The product of the powers of the factors. -/
def factorsTree (l : List (Tree × ℤ)) : Option Tree := do
  let AB0 ← groupOrder 0 l (none, none)
  let AB1 ← groupOrder 1 l (none, none)
  let AB2 ← groupOrder 2 l (none, none)
  let AB3 ← groupOrder 3 l (none, none)
  if AB0 = (none, none) then
    return ([AB1, AB2, AB3].foldl combineOrder none).getD (sigInt 1)
  else none

theorem signatureTree_of_ne (h : m.fCoef.isZero = false) :
    m.signatureTree = factorsTree m.fFactors := by
  unfold signatureTree normalizedTree
  rw [h, Bool.or_false]
  split
  · next hnil =>
    rw [List.isEmpty_iff.mp hnil]
    rfl
  · rfl

theorem signatureTree_of_zero (h : m.fCoef.isZero = true) : m.signatureTree = some (sigInt 1) := by
  unfold signatureTree normalizedTree
  rw [h, Bool.or_true, if_pos rfl]
  rfl

theorem signatureTree_cleanup (h : m.fCoef.isZero = false) :
    m.cleanup.signatureTree = m.signatureTree := by
  rw [signatureTree_of_ne h, signatureTree_of_ne (m := m.cleanup) (by rw [fCoef_cleanup]; exact h)]
  unfold cleanup
  rw [h]
  unfold factorsTree
  simp only [Bool.false_eq_true, if_false, groupOrder_filter]

/-- A signature does not depend on the coefficient. -/
theorem signatureTree_withCoef {c : Node} (h : m.fCoef.isZero = false) (hc : c.isZero = false) :
    Mterm.signatureTree { m with fCoef := c } = m.signatureTree := by
  rw [signatureTree_of_ne h, signatureTree_of_ne (m := { m with fCoef := c }) hc]

theorem cleanup_of_zero (h : m.fCoef.isZero = true) : m.cleanup.fFactors = [] := by
  unfold cleanup
  rw [h, if_pos rfl]

/-- The signal of the factors of an accepted term has an order. -/
theorem hasOrder_of_accepted (hm : m.Accepted) :
    m.fCoef.isZero = false → ∀ p ∈ m.fFactors, p.2 ≠ 0 → HasOrder p.1 := by
  intro hz p hp hq
  have hreg := hm.resolve_left (by simp [hz]) p hp
  rcases hreg with h | ⟨o, ho, _⟩
  · exact absurd h hq
  · unfold HasOrder
    rw [ho]
    rfl

/-- What is left of a power after a division by a contained one. -/
theorem Regular.sub {f : Tree} {u v : ℤ} (hr : Regular (f, u)) (hu : IsInt32 u)
    (hc : contains u v = true) : Regular (f, wrap32 (u - v)) := by
  rw [contains_iff] at hc
  -- the difference is between 0 and the old power
  have hw : u ≠ -2 ^ 31 → wrap32 (u - v) = u - v := fun h =>
    wrap32_of_isInt32 (by unfold IsInt32 at *; omega)
  rcases hr with h | ⟨o, ho, hone, hmin⟩
  · have h : u = 0 := h
    have hv : v = 0 := by omega
    exact Or.inl (by rw [h, hv]; rfl)
  · have hmin : u ≠ -2 ^ 31 := hmin
    refine Or.inr ⟨o, ho, hone, ?_⟩
    show wrap32 (u - v) ≠ -2 ^ 31
    unfold IsInt32 at hu
    rw [hw hmin]
    omega

theorem regular_power (hm : ∀ p ∈ m.fFactors, Regular p) (f : Tree) : Regular (f, m.power f) := by
  by_cases h : m.power f = 0
  · exact Or.inl h
  · exact hm _ (mem_of_power_ne_zero h)

theorem isInt32_power (hm : ∀ p ∈ m.fFactors, IsInt32 p.2) (f : Tree) : IsInt32 (m.power f) := by
  by_cases h : m.power f = 0
  · rw [h]
    decide
  · exact hm _ (mem_of_power_ne_zero h)

theorem contains_of_hasDivisor (h : m.hasDivisor n = true) {f : Tree} {v : ℤ}
    (hv : (f, v) ∈ n.fFactors) : contains (m.power f) v = true := by
  have hall := List.all_eq_true.mp h _ hv
  dsimp only at hall
  unfold power
  cases hu : find f m.fFactors with
  | none => simp [hu] at hall
  | some u =>
    rw [hu] at hall
    exact hall

/-- The quotient of an accepted term by a divisor is accepted. -/
theorem accepted_div {Q : Tree → Prop} (hm : m.Sound P) (hn : n.Sound Q) (hacc : m.Accepted)
    (hdiv : m.hasDivisor n = true) : (m.div before n).Accepted := by
  let m' : Mterm := { m with fCoef := Node.divExtendedNode wrap32 m.fCoef n.fCoef }
  have hcoef : (m.div before n).fCoef = m'.fCoef := by
    show (Mterm.cleanup (divFactors before n.fFactors m')).fCoef = m'.fCoef
    rw [fCoef_cleanup, fCoef_divFactors]
  cases hz : m.fCoef.isZero with
  | true =>
    refine Or.inl ?_
    rw [hcoef]
    exact isZero_divExtendedNode _ hz
  | false =>
    have hreg := hacc.resolve_left (by simp [hz])
    refine Or.inr fun p hp => ?_
    have hm' : m'.Sound fun _ => True :=
      { coef := isNum_divExtendedNode _ _, nodup := hm.nodup, range := hm.range,
        factor := fun _ _ _ => trivial }
    have hs := hm'.divFactors before (l := n.fFactors) fun _ _ _ => trivial
    have hpow := power_of_mem hs.nodup (mem_cleanup hp)
    rw [power_divFactors before hn.nodup] at hpow
    have hold : Regular (p.1, m'.power p.1) := regular_power (m := m') hreg p.1
    show Regular (p.1, p.2)
    rw [← hpow]
    cases hv : find p.1 n.fFactors with
    | none => exact hold
    | some v =>
      exact hold.sub (isInt32_power (m := m') hm.range p.1)
        (contains_of_hasDivisor (m := m) hdiv (mem_of_find hv))

end Mterm

end Faust
