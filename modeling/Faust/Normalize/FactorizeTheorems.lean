import Faust.Normalize.AtermTheorems

/-!
# The loop of `normalizeAddTerm`

A divisor that keeps the loop going is the gcd of two mterms. Factorizing by it leaves one mterm in
the place of the two or more that it divides, unless `normalizedTree` refuses the product that is
put there: `aterm::normalizedTree` writes quotients that add up to a negative number `c` as the
difference `0 - c`, a constant that is not a literal.
-/

namespace Faust

open Faust.Tree Faust.OrderedMap

/-! ## Refused terms -/

/-- `normalizedTree` refuses a term with a constant factor, or with the lowest power. -/
def Mterm.Refused (m : Mterm) : Prop :=
  m.fCoef.isZero = false ∧
    ∃ p ∈ m.fFactors, p.2 ≠ 0 ∧ (getSigOrder p.1 = some 0 ∨ p.2 = -2 ^ 31)

theorem Mterm.not_refused_iff {m : Mterm} (hm : ∀ p ∈ m.fFactors, p.2 ≠ 0 → HasOrder p.1) :
    ¬ m.Refused ↔ m.Accepted := by
  constructor
  · intro h
    cases hz : m.fCoef.isZero with
    | true => exact Or.inl hz
    | false =>
      refine Or.inr fun p hp => ?_
      by_cases hq : p.2 = 0
      · exact Or.inl hq
      · obtain ⟨o, ho⟩ := Option.isSome_iff_exists.mp (hm p hp hq)
        have hne : ¬ (getSigOrder p.1 = some 0 ∨ p.2 = -2 ^ 31) := fun h' =>
          h ⟨hz, p, hp, hq, h'⟩
        refine Or.inr ⟨o, ho, fun h0 => hne (Or.inl ?_), fun hmin => hne (Or.inr hmin)⟩
        rw [ho, h0]
  · intro hacc h
    obtain ⟨hz, p, hp, hq, hbad⟩ := h
    rcases hacc.resolve_left (by simp [hz]) p hp with h0 | ⟨o, ho, hne, hmin⟩
    · exact hq h0
    · rcases hbad with h0 | h0
      · rw [ho] at h0
        cases h0
        exact hne rfl
      · exact hmin h0

namespace Aterm

variable (before : Tree → Tree → Bool) {P : Tree → Prop} {A : Aterm} {d D : Mterm}

/-! ## Greatest divisors -/

theorem sublist_of_mem_pairs {p : Mterm × Mterm} (h : p ∈ A.pairs) :
    ∃ e₁ e₂, List.Sublist [e₁, e₂] A ∧ p = (e₁.2, e₂.2) := by
  induction A with
  | nil => simp [pairs] at h
  | cons e A ih =>
    unfold pairs at h
    rcases List.mem_append.mp h with h | h
    · obtain ⟨e₂, he₂, rfl⟩ := List.mem_map.mp h
      exact ⟨e, e₂, (List.singleton_sublist.mpr he₂).cons_cons e, rfl⟩
    · obtain ⟨e₁, e₂, hsub, hp⟩ := ih h
      exact ⟨e₁, e₂, hsub.cons e, hp⟩

/-- The factors of the gcd of two mterms are not constants. -/
theorem Inv.regular_gcd (hA : Inv P A) {e₁ e₂ : Tree × Mterm} (hsub : List.Sublist [e₁, e₂] A) :
    ∀ q ∈ (Mterm.gcd before e₁.2 e₂.2).fFactors, Mterm.Regular q := by
  have he₁ := hA.entry e₁ (hsub.subset (by simp))
  have he₂ := hA.entry e₂ (hsub.subset (by simp))
  have hkeys : e₁.1 ≠ e₂.1 := by
    have hnodup := hA.nodup.sublist (hsub.map Prod.fst)
    intro h
    simp [h] at hnodup
  intro q hq
  obtain ⟨v₁, v₂, h₁, h₂, hc, hne⟩ := Mterm.mem_gcd before he₁.sound hq
  -- two mterms that became zero have no common factor
  have hnz : e₁.2.fCoef.isZero = false ∨ e₂.2.fCoef.isZero = false := by
    by_contra hcon
    obtain ⟨hz₁, hz₂⟩ : e₁.2.fCoef.isZero = true ∧ e₂.2.fCoef.isZero = true := by
      simpa using hcon
    have hk₁ := (he₁.zero hz₁).resolve_right fun h => by simp [h] at h₁
    have hk₂ := (he₂.zero hz₂).resolve_right fun h => by simp [h] at h₂
    exact hkeys (hk₁.trans hk₂.symm)
  have hr₁ := he₁.sound.range _ h₁
  have hr₂ := he₂.sound.range _ h₂
  have hcases : v₁ ≠ 0 ∧ v₂ ≠ 0 ∧ (q.2 = -2 ^ 31 → v₁ = -2 ^ 31 ∧ v₂ = -2 ^ 31) := by
    unfold Mterm.common IsInt32 at *
    dsimp only at hr₁ hr₂
    rw [hc] at hne ⊢
    split at hne
    · next h => rw [if_pos h]; omega
    · next h =>
      rw [if_neg h]
      split at hne
      · next h' => rw [if_pos h']; omega
      · omega
  rcases hnz with hz | hz
  · rcases he₁.accepted.resolve_left (by simp [hz]) _ h₁ with h | ⟨o, ho, hone, hmin⟩
    · exact absurd h hcases.1
    · exact Or.inr ⟨o, ho, hone, fun h => hmin (hcases.2.2 h).1⟩
  · rcases he₂.accepted.resolve_left (by simp [hz]) _ h₂ with h | ⟨o, ho, hone, hmin⟩
    · exact absurd h hcases.2.1
    · exact Or.inr ⟨o, ho, hone, fun h => hmin (hcases.2.2 h).2⟩

theorem complexity_isSome {m : Mterm} (hm : ∀ p ∈ m.fFactors, p.2 ≠ 0 → HasOrder p.1)
    (hne : ∀ p ∈ m.fFactors, p.2 ≠ 0) : ∃ c, m.complexity = some c := by
  unfold Mterm.complexity
  obtain ⟨c, hc, _⟩ := foldlM_isSome (l := m.fFactors) (I := fun _ : ℤ => True)
    (f := fun c p => (do return wrap32 (c + (1 + (← getSigOrder p.1)) * |p.2|) : Option ℤ))
    (b := if m.fCoef.isOne then 0 else 1)
    (fun c p hp _ => by
      obtain ⟨o, ho⟩ := Option.isSome_iff_exists.mp (hm p hp (hne p hp))
      exact ⟨_, by rw [ho]; rfl, trivial⟩)
    trivial
  exact ⟨c, hc⟩

/-- The greatest divisor is the unit or the gcd of two mterms. -/
theorem Inv.greatestDivisor (hA : Inv P A) :
    ∃ D, A.greatestDivisor before = some D ∧ (∃ c, D.complexity = some c) ∧
      (D = .ofInt 1 ∨ ∃ e₁ e₂, List.Sublist [e₁, e₂] A ∧ D = Mterm.gcd before e₁.2 e₂.2) := by
  let I : ℤ × Mterm → Prop := fun S => (∃ c, S.2.complexity = some c) ∧
    (S.2 = .ofInt 1 ∨ ∃ e₁ e₂, List.Sublist [e₁, e₂] A ∧ S.2 = Mterm.gcd before e₁.2 e₂.2)
  have hstep : ∀ S p, p ∈ A.pairs → I S → ∃ S', maxGCD before S p = some S' ∧ I S' := by
    intro S p hp hS
    obtain ⟨e₁, e₂, hsub, rfl⟩ := sublist_of_mem_pairs hp
    have hreg := hA.regular_gcd before hsub
    have he₁ := hA.entry e₁ (hsub.subset (by simp))
    have hne : ∀ q ∈ (Mterm.gcd before e₁.2 e₂.2).fFactors, q.2 ≠ 0 := by
      intro q hq
      obtain ⟨_, _, _, _, _, hne⟩ := Mterm.mem_gcd before he₁.sound hq
      exact hne
    have hord : ∀ q ∈ (Mterm.gcd before e₁.2 e₂.2).fFactors, q.2 ≠ 0 → HasOrder q.1 := by
      intro q hq hq0
      rcases hreg q hq with h | ⟨o, ho, _⟩
      · exact absurd h hq0
      · unfold HasOrder
        rw [ho]
        rfl
    obtain ⟨c, hc⟩ := complexity_isSome hord hne
    refine ⟨if S.1 < c then (c, Mterm.gcd before e₁.2 e₂.2) else S, ?_, ?_⟩
    · unfold maxGCD
      dsimp only
      rw [hc]
      rfl
    · split
      · exact ⟨⟨c, hc⟩, Or.inr ⟨e₁, e₂, hsub, rfl⟩⟩
      · exact hS
  obtain ⟨S, hS, hI⟩ := foldlM_isSome hstep (b := (0, .ofInt 1)) ⟨⟨0, rfl⟩, Or.inl rfl⟩
  refine ⟨S.2, ?_, hI⟩
  unfold Aterm.greatestDivisor
  rw [hS]
  rfl

/-- The unit does not keep the loop going. -/
theorem Inv.gcd_of_continues (hA : Inv P A) (hD : A.Continues before D) :
    ∃ e₁ e₂, List.Sublist [e₁, e₂] A ∧ D = Mterm.gcd before e₁.2 e₂.2 := by
  obtain ⟨D', hD', _, hcases⟩ := hA.greatestDivisor before
  obtain ⟨hgreatest, _, c, hc, hpos⟩ := hD
  rw [hgreatest] at hD'
  cases hD'
  rcases hcases with rfl | h
  · have hunit : (Mterm.ofInt 1).complexity = some 0 := by decide
    rw [hunit] at hc
    cases hc
    omega
  · exact h

/-- A divisor that keeps the loop going divides two mterms at least. -/
theorem Inv.two_le_countP (hA : Inv P A) (hD : A.Continues before D) :
    2 ≤ A.countP fun e => e.2.hasDivisor D := by
  obtain ⟨e₁, e₂, hsub, rfl⟩ := hA.gcd_of_continues before hD
  have he₁ := hA.entry e₁ (hsub.subset (by simp))
  have he₂ := hA.entry e₂ (hsub.subset (by simp))
  obtain ⟨h₁, h₂⟩ := Mterm.hasDivisor_gcd before he₁.sound he₂.sound
  have hcount := hsub.countP_le (p := fun e => e.2.hasDivisor (Mterm.gcd before e₁.2 e₂.2))
  simpa [List.countP_cons, h₁, h₂] using hcount

/-! ## Factorization -/

/-- The sum of the quotients of the mterms that `d` divides. -/
def quotients (d : Mterm) (A : Aterm) : Option Aterm :=
  (A.filter fun e => e.2.hasDivisor d).foldlM (fun Q e => Q.addMterm before (e.2.div before d)) []

/-- The product that `factorize` puts in the place of the mterms that `d` divides. -/
def product (A : Aterm) (d : Mterm) : Option Mterm := do
  let Q ← A.quotients before d
  return .ofTree before (sigMul (← d.normalizedTree false false) (← Q.normalizedTree before))

/-- The product of a factorization by `d` is refused. -/
def ProductRefused (A : Aterm) (d : Mterm) : Prop :=
  ∃ m, A.product before d = some m ∧ m.Refused

/-- The separation of the multiples of `d` from the others: one more mterm at most for each of the
others, and the sum of the quotients. -/
theorem separate_spec {l : Aterm} (hl : ∀ e ∈ l, Mterm.Entry P e.1 e.2) (hd : d.Sound P)
    {A' Q : Aterm} (hA' : Inv P A') (hQ : Inv P Q) :
    ∃ A'' Q', l.foldlM (separate before d) (A', Q) = some (A'', Q') ∧ Inv P A'' ∧ Inv P Q' ∧
      A''.length + l.countP (fun e => e.2.hasDivisor d) ≤ A'.length + l.length ∧
      (l.filter fun e => e.2.hasDivisor d).foldlM
        (fun Q e => Q.addMterm before (e.2.div before d)) Q = some Q' := by
  induction l generalizing A' Q with
  | nil => exact ⟨A', Q, rfl, hA', hQ, by simp, rfl⟩
  | cons e l ih =>
    have he := hl e List.mem_cons_self
    have hl' : ∀ e ∈ l, Mterm.Entry P e.1 e.2 := fun e he => hl e (List.mem_cons_of_mem _ he)
    rw [List.foldlM_cons]
    cases hdiv : e.2.hasDivisor d with
    | true =>
      have hacc := Mterm.accepted_div before he.sound hd he.accepted hdiv
      obtain ⟨Q₁, hQ₁, hinv, _⟩ := hQ.addMterm before (he.sound.div before hd) hacc
      obtain ⟨A'', Q', hfold, hA'', hQ', hlen, hquot⟩ := ih hl' hA' hinv
      refine ⟨A'', Q', ?_, hA'', hQ', ?_, ?_⟩
      · unfold separate
        simp only [hdiv, hQ₁, if_true, Option.bind_eq_bind, Option.bind_some, Option.pure_def]
        exact hfold
      · simp only [List.countP_cons, hdiv, if_true, List.length_cons]
        omega
      · simp only [List.filter_cons, hdiv, if_true, List.foldlM_cons, hQ₁]
        exact hquot
    | false =>
      obtain ⟨A₁, hA₁, hinv, hlen₁⟩ := hA'.addMterm before he.sound he.accepted
      obtain ⟨A'', Q', hfold, hA'', hQ', hlen, hquot⟩ := ih hl' hinv hQ
      refine ⟨A'', Q', ?_, hA'', hQ', ?_, ?_⟩
      · unfold separate
        simp only [hdiv, hA₁, Bool.false_eq_true, if_false, Option.bind_eq_bind, Option.bind_some,
          Option.pure_def]
        exact hfold
      · simp only [List.countP_cons, hdiv, Bool.false_eq_true, if_false, List.length_cons]
        omega
      · simp only [List.filter_cons, hdiv, Bool.false_eq_true, if_false]
        exact hquot

theorem addTree_sigMul (A : Aterm) (x y : Tree) :
    A.addTree before (sigMul x y) = A.addMterm before (.ofTree before (sigMul x y)) := by
  unfold addTree sigMul sigBinOp leaf accumulate
  rfl

/-- Factorizing is adding the product to the mterms that are not divided. -/
theorem Inv.factorize (hA : Inv P A) (hd : d.Sound P) (hdreg : ∀ q ∈ d.fFactors, Mterm.Regular q) :
    ∃ A' m, A.factorize before d = A'.addMterm before m ∧ A.product before d = some m ∧
      Inv P A' ∧ A'.length + A.countP (fun e => e.2.hasDivisor d) ≤ A.length ∧
      m.Sound HasOrder := by
  obtain ⟨A', Q, hfold, hA', hQ, hlen, hquot⟩ :=
    separate_spec before hA.entry hd inv_nil inv_nil
  obtain ⟨t, ht⟩ := Option.isSome_iff_exists.mp
    ((Mterm.normalizedTree_isSome_iff (s := false) (g := false) hd.range).mpr (Or.inr hdreg))
  obtain ⟨u, hu, hordu⟩ := hQ.normalizedTree_isSome before
  have hordt : HasOrder t := Mterm.normalizedTree_stable hasOrder_stable hd.coef
    (Mterm.hasOrder_of_accepted (Or.inr hdreg)) ht
  refine ⟨A', .ofTree before (sigMul t u), ?_, ?_, hA', ?_, ?_⟩
  · unfold Aterm.factorize
    rw [hfold]
    simp only [Option.bind_eq_bind, Option.bind_some, ht, hu]
    exact addTree_sigMul before A' t u
  · unfold product quotients
    rw [hquot]
    simp only [Option.bind_eq_bind, Option.bind_some, ht, hu]
    rfl
  · simpa using hlen
  · exact Mterm.sound_ofTree before hasOrder_inherited
      (hasOrder_inherited.operand (hasOrder_sigBinOp hordt hordu))

/-- An iteration of the loop: it has a result, with fewer mterms, when the product is not refused. -/
theorem Inv.step (hA : Inv (fun _ => True) A) (hD : A.Continues before D) :
    (¬ A.ProductRefused before D → ∃ A', A.factorize before D = some A') ∧
    (A.ProductRefused before D → A.factorize before D = none) ∧
    ∀ A', A.factorize before D = some A' → Inv (fun _ => True) A' ∧
      A'.length + A.countP (fun e => e.2.hasDivisor D) ≤ A.length + 1 := by
  obtain ⟨e₁, e₂, hsub, rfl⟩ := hA.gcd_of_continues before hD
  have he₁ := hA.entry e₁ (hsub.subset (by simp))
  have he₂ := hA.entry e₂ (hsub.subset (by simp))
  obtain ⟨A', m, hfact, hprod, hA', hlen, hm⟩ := hA.factorize before
    (he₁.sound.gcd before he₂.sound) (hA.regular_gcd before hsub)
  have hm' : m.Sound fun _ => True :=
    { coef := hm.coef, nodup := hm.nodup, range := hm.range, factor := fun _ _ _ => trivial }
  have hrefused : A.ProductRefused before (Mterm.gcd before e₁.2 e₂.2) ↔ m.Refused := by
    constructor
    · intro h
      obtain ⟨m', hm', href⟩ := h
      rw [hprod] at hm'
      cases hm'
      exact href
    · exact fun h => ⟨m, hprod, h⟩
  rw [hrefused, hfact, Mterm.not_refused_iff hm.factor]
  refine ⟨fun hacc => ?_, fun href => ?_, fun A'' h => ?_⟩
  · obtain ⟨A'', h, _⟩ := hA'.addMterm before hm' hacc
    exact ⟨A'', h⟩
  · cases h : A'.addMterm before m with
    | none => rfl
    | some A'' =>
      have hacc := accepted_of_addMterm before hm' h
      exact absurd href ((Mterm.not_refused_iff hm.factor).mpr hacc)
  · obtain ⟨hinv, hle⟩ := hA'.of_addMterm before hm' h
    exact ⟨hinv, by omega⟩

/-! ## The loop -/

/-- The loop goes on, or it ends. -/
theorem Inv.continues_or_ends (hA : Inv P A) : (∃ D, A.Continues before D) ∨ A.Ends before := by
  obtain ⟨D, hD, ⟨c, hc⟩, _⟩ := hA.greatestDivisor before
  cases hz : D.isNotZero with
  | false => exact Or.inr ⟨D, hD, Or.inl hz⟩
  | true =>
    by_cases hpos : 0 < c
    · exact Or.inl ⟨D, hD, hz, c, hc, hpos⟩
    · exact Or.inr ⟨D, hD, Or.inr ⟨c, hc, by omega⟩⟩

/-- `normalizeAddTerm` runs the loop to its end: the number of mterms bounds the iterations. -/
theorem factorizeLoop_spec (hA : Inv (fun _ => True) A) {fuel : ℕ} (hfuel : A.length ≤ fuel)
    {B : Aterm} (h : factorizeLoop before fuel A = some B) :
    Relation.ReflTransGen (LoopStep before) A B ∧ B.Ends before := by
  induction fuel generalizing A with
  | zero =>
    cases h
    refine ⟨.refl, (hA.continues_or_ends before).resolve_left ?_⟩
    intro hD
    obtain ⟨D, hD⟩ := hD
    have htwo := hA.two_le_countP before hD
    have hle := List.countP_le_length (p := fun e : Tree × Mterm => e.2.hasDivisor D) (l := B)
    omega
  | succ fuel ih =>
    obtain ⟨D, hD, h⟩ := Option.bind_eq_some_iff.mp h
    split at h
    · next hz =>
      obtain ⟨c, hc, h⟩ := Option.bind_eq_some_iff.mp h
      split at h
      · next hpos =>
        obtain ⟨A', hA', h⟩ := Option.bind_eq_some_iff.mp h
        have hcont : A.Continues before D := ⟨hD, hz, c, hc, hpos⟩
        obtain ⟨hinv, hlen⟩ := (hA.step before hcont).2.2 A' hA'
        have htwo := hA.two_le_countP before hcont
        obtain ⟨hrun, hend⟩ := ih hinv (by omega) h
        exact ⟨hrun.head ⟨D, hcont, hA'⟩, hend⟩
      · next hpos =>
        cases h
        exact ⟨.refl, D, hD, Or.inr ⟨c, hc, by omega⟩⟩
    · next hz =>
      cases h
      exact ⟨.refl, D, hD, Or.inl (by simpa using hz)⟩

section Example

end Example

end Aterm

end Faust
