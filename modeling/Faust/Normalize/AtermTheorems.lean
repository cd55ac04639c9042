import Faust.Normalize.Aterm
import Faust.Normalize.MtermTheorems

/-!
# Facts on additive terms

Every mterm of an additive term is under its signature. A greatest divisor other than the unit is
the gcd of two mterms, so it divides both of them; factorizing replaces the mterms it divides by one.
-/

namespace Faust

open Faust.Tree Faust.OrderedMap

/-! ## Loops that may fail -/

/-- What every step of a loop keeps. -/
theorem foldlM_invariant {α β : Type} {f : β → α → Option β} {I : β → Prop} {l : List α}
    (hf : ∀ b a b', a ∈ l → I b → f b a = some b' → I b') {b b' : β} (hb : I b)
    (h : l.foldlM f b = some b') : I b' := by
  induction l generalizing b with
  | nil =>
    cases h
    exact hb
  | cons a l ih =>
    rw [List.foldlM_cons] at h
    obtain ⟨b₁, h₁, h⟩ := Option.bind_eq_some_iff.mp h
    exact ih (fun b a b' ha => hf b a b' (List.mem_cons_of_mem _ ha))
      (hf b a b₁ List.mem_cons_self hb h₁) h

/-- A loop whose steps do not fail. -/
theorem foldlM_isSome {α β : Type} {f : β → α → Option β} {I : β → Prop} {l : List α}
    (hf : ∀ b a, a ∈ l → I b → ∃ b', f b a = some b' ∧ I b') {b : β} (hb : I b) :
    ∃ b', l.foldlM f b = some b' ∧ I b' := by
  induction l generalizing b with
  | nil => exact ⟨b, rfl, hb⟩
  | cons a l ih =>
    obtain ⟨b₁, h₁, hb₁⟩ := hf b a List.mem_cons_self hb
    obtain ⟨b', h', hb'⟩ := ih (fun b a ha => hf b a (List.mem_cons_of_mem _ ha)) hb₁
    refine ⟨b', ?_, hb'⟩
    rw [List.foldlM_cons, h₁]
    exact h'

/-! ## Orders -/

theorem hasOrder_stable : Stable HasOrder where
  number := fun n hn => hasOrder_num hn
  binOp := fun op x y hx hy => hasOrder_sigBinOp hx hy
  power := by
    intro x q _ hx
    obtain ⟨o, ho⟩ := Option.isSome_iff_exists.mp hx
    unfold HasOrder
    rw [sigPow, getSigOrder_xtended, getSigOrders, ho]
    rfl

theorem hasOrder_inherited : Inherited HasOrder where
  binOp := fun i br x y h => hasOrder_of_binOp h
  power := by
    intro x n br h
    unfold HasOrder at h ⊢
    rw [getSigOrder_xtended, getSigOrders] at h
    cases hx : getSigOrder x with
    | none => simp [hx] at h
    | some o => rfl

namespace Mterm

variable (before : Tree → Tree → Bool) {P : Tree → Prop} {m n : Mterm} {k : Tree}

/-! ## Entries -/

/-- A mterm under a key: the key is its signature, unless the mterm became zero. -/
structure Entry (P : Tree → Prop) (k : Tree) (m : Mterm) : Prop where
  sound : m.Sound P
  signature : m.fCoef.isZero = false → m.signatureTree = some k
  zero : m.fCoef.isZero = true → k = sigInt 1 ∨ m.fFactors = []

theorem Entry.cleanup (hm : m.Sound P) (hk : m.fCoef.isZero = false → m.signatureTree = some k) :
    Entry P k m.cleanup where
  sound := hm.cleanup
  signature := by
    intro hz
    rw [fCoef_cleanup] at hz
    rw [signatureTree_cleanup hz]
    exact hk hz
  zero := by
    intro hz
    rw [fCoef_cleanup] at hz
    exact Or.inr (cleanup_of_zero hz)

/-- A new mterm is put under its signature. -/
theorem entry_new (hm : m.Sound P) (hk : m.signatureTree = some k) : Entry P k m where
  sound := hm
  signature := fun _ => hk
  zero := by
    intro hz
    rw [signatureTree_of_zero hz] at hk
    cases hk
    exact Or.inl rfl

theorem entry_neg (hm : m.Sound P) (hk : m.signatureTree = some k) :
    Entry P k (m.mul before (ofInt (-1))) := by
  rw [mul_ofInt]
  apply Entry.cleanup (hm.withCoef (isNum_arith _ _ _ _))
  intro hz
  have hm0 : m.fCoef.isZero = false := by
    cases h : m.fCoef.isZero with
    | false => rfl
    | true => exact absurd (isZero_mulNode (.int (-1)) h) (by simpa [Node.mulNode] using hz)
  rw [signatureTree_withCoef hm0 hz]
  exact hk

/-- The sum of two mterms of the same signature. -/
theorem Entry.add (hm : Entry P k m) (hn : n.Sound P) (hk : n.signatureTree = some k) :
    ∃ r, m.add n = some r ∧ Entry P k r := by
  unfold Mterm.add
  cases hn0 : n.fCoef.isZero with
  | true => exact ⟨m.cleanup, rfl, .cleanup hm.sound hm.signature⟩
  | false =>
    cases hm0 : m.fCoef.isZero with
    | true => exact ⟨n.cleanup, rfl, .cleanup hn fun _ => hk⟩
    | false =>
      refine ⟨Mterm.cleanup { m with fCoef := Node.addNode wrap32 m.fCoef n.fCoef },
        by simp [hm.signature hm0, hk], ?_⟩
      apply Entry.cleanup (hm.sound.withCoef (isNum_arith _ _ _ _))
      intro hz
      rw [signatureTree_withCoef hm0 hz]
      exact hm.signature hm0

/-- The difference of two mterms of the same signature. -/
theorem Entry.sub (hm : Entry P k m) (hn : n.Sound P) (hk : n.signatureTree = some k) :
    ∃ r, m.sub n = some r ∧ Entry P k r := by
  unfold Mterm.sub
  cases hn0 : n.fCoef.isZero with
  | true => exact ⟨m.cleanup, rfl, .cleanup hm.sound hm.signature⟩
  | false =>
    cases hm0 : m.fCoef.isZero with
    | true =>
      refine ⟨_, rfl, .cleanup (hn.withCoef (isNum_arith _ _ _ _)) fun hz => ?_⟩
      rw [signatureTree_withCoef hn0 hz]
      exact hk
    | false =>
      refine ⟨Mterm.cleanup { m with fCoef := Node.subNode wrap32 m.fCoef n.fCoef },
        by simp [hm.signature hm0, hk], ?_⟩
      apply Entry.cleanup (hm.sound.withCoef (isNum_arith _ _ _ _))
      intro hz
      rw [signatureTree_withCoef hm0 hz]
      exact hm.signature hm0

theorem signatureTree_isSome_iff (hm : m.Sound P) : m.signatureTree.isSome ↔ m.Accepted :=
  normalizedTree_isSome_iff hm.range

theorem Entry.accepted (hm : Entry P k m) : m.Accepted := by
  cases hz : m.fCoef.isZero with
  | true => exact Or.inl hz
  | false =>
    rw [← signatureTree_isSome_iff hm.sound, hm.signature hz]
    rfl

end Mterm

namespace Aterm

variable (before : Tree → Tree → Bool) {P : Tree → Prop} {A : Aterm} {m : Mterm}

/-! ## Sums -/

/-- What the operations on additive terms keep. -/
structure Inv (P : Tree → Prop) (A : Aterm) : Prop where
  nodup : (keys A).Nodup
  entry : ∀ e ∈ A, Mterm.Entry P e.1 e.2

theorem inv_nil : Inv P [] where
  nodup := List.nodup_nil
  entry := by simp

theorem Inv.put (hA : Inv P A) {k : Tree} (hm : Mterm.Entry P k m) :
    Inv P (put before k m A) where
  nodup := nodup_put before hA.nodup k m
  entry := by
    intro e he
    rcases mem_put before he with rfl | he
    · exact hm
    · exact hA.entry e he.1

/-- A mterm that has a signature can be added, and makes at most one more entry. -/
theorem Inv.addMterm (hA : Inv P A) (hm : m.Sound P) (hacc : m.Accepted) :
    ∃ A', A.addMterm before m = some A' ∧ Inv P A' ∧ A'.length ≤ A.length + 1 := by
  rw [← Mterm.signatureTree_isSome_iff hm] at hacc
  obtain ⟨sig, hsig⟩ := Option.isSome_iff_exists.mp hacc
  unfold Aterm.addMterm
  rw [hsig]
  cases hf : find sig A with
  | none =>
    refine ⟨_, by simp only [Option.bind_eq_bind, Option.bind_some, hf]; rfl, ?_, length_put_le ..⟩
    exact hA.put before (Mterm.entry_new hm hsig)
  | some p =>
    obtain ⟨r, hr, hentry⟩ := (hA.entry _ (mem_of_find hf)).add hm hsig
    refine ⟨_, by simp only [Option.bind_eq_bind, Option.bind_some, hf, hr]; rfl, ?_,
      length_put_le ..⟩
    exact hA.put before hentry

theorem Inv.subMterm (hA : Inv P A) (hm : m.Sound P) (hacc : m.Accepted) :
    ∃ A', A.subMterm before m = some A' ∧ Inv P A' ∧ A'.length ≤ A.length + 1 := by
  rw [← Mterm.signatureTree_isSome_iff hm] at hacc
  obtain ⟨sig, hsig⟩ := Option.isSome_iff_exists.mp hacc
  unfold Aterm.subMterm
  rw [hsig]
  cases hf : find sig A with
  | none =>
    refine ⟨_, by simp only [Option.bind_eq_bind, Option.bind_some, hf]; rfl, ?_, length_put_le ..⟩
    exact hA.put before (Mterm.entry_neg before hm hsig)
  | some p =>
    obtain ⟨r, hr, hentry⟩ := (hA.entry _ (mem_of_find hf)).sub hm hsig
    refine ⟨_, by simp only [Option.bind_eq_bind, Option.bind_some, hf, hr]; rfl, ?_,
      length_put_le ..⟩
    exact hA.put before hentry

/-- A mterm that was added has a signature. -/
theorem accepted_of_addMterm (hm : m.Sound P) {A' : Aterm} (h : A.addMterm before m = some A') :
    m.Accepted := by
  obtain ⟨sig, hsig, _⟩ := Option.bind_eq_some_iff.mp h
  rw [← Mterm.signatureTree_isSome_iff hm, hsig]
  rfl

theorem accepted_of_subMterm (hm : m.Sound P) {A' : Aterm} (h : A.subMterm before m = some A') :
    m.Accepted := by
  obtain ⟨sig, hsig, _⟩ := Option.bind_eq_some_iff.mp h
  rw [← Mterm.signatureTree_isSome_iff hm, hsig]
  rfl

theorem Inv.of_addMterm (hA : Inv P A) (hm : m.Sound P) {A' : Aterm}
    (h : A.addMterm before m = some A') : Inv P A' ∧ A'.length ≤ A.length + 1 := by
  obtain ⟨A₁, h₁, hinv⟩ := hA.addMterm before hm (accepted_of_addMterm before hm h)
  rw [h] at h₁
  cases h₁
  exact hinv

theorem Inv.of_subMterm (hA : Inv P A) (hm : m.Sound P) {A' : Aterm}
    (h : A.subMterm before m = some A') : Inv P A' ∧ A'.length ≤ A.length + 1 := by
  obtain ⟨A₁, h₁, hinv⟩ := hA.subMterm before hm (accepted_of_subMterm before hm h)
  rw [h] at h₁
  cases h₁
  exact hinv

theorem Inv.accumulateTerm (hP : Inherited P) (hA : Inv P A) {neg : Bool} {t : Tree} {A' : Aterm}
    (ht : Operand P t) (h : A.accumulateTerm before neg t = some A') : Inv P A' := by
  have hm : (Mterm.ofTree before t).Sound P := Mterm.sound_ofTree before hP ht
  unfold Aterm.accumulateTerm at h
  split at h
  · exact (hA.of_subMterm before hm h).1
  · exact (hA.of_addMterm before hm h).1

/-- The mterms of a sum or of a difference inherit from it. -/
theorem Inv.accumulate (hP : Inherited P) {neg : Bool} {t : Tree} (hA : Inv P A) {A' : Aterm}
    (ht : Operand P t) (h : accumulate before neg t A = some A') : Inv P A' := by
  fun_induction Aterm.accumulate before neg t A generalizing A' with
  | case1 neg br x y A ihx ihy =>
    have hxy := ht.binOp _ _ _ _ rfl
    obtain ⟨A₁, h₁, h⟩ := Option.bind_eq_some_iff.mp h
    exact ihy A₁ (ihx hA (hP.operand hxy.1) h₁) (hP.operand hxy.2) h
  | case2 neg br x y A _ ihx ihy =>
    have hxy := ht.binOp _ _ _ _ rfl
    obtain ⟨A₁, h₁, h⟩ := Option.bind_eq_some_iff.mp h
    exact ihy A₁ (ihx hA (hP.operand hxy.1) h₁) (hP.operand hxy.2) h
  | case3 neg op br x y A _ _ => exact hA.accumulateTerm before hP ht h
  | case4 neg t A _ => exact hA.accumulateTerm before hP ht h

/-! ## Normal form -/

theorem simplifyingAdd_stable (hP : Stable P) {t₁ t₂ : Tree} (h₁ : P t₁) (h₂ : P t₂) :
    P (simplifyingAdd before t₁ t₂) := by
  unfold simplifyingAdd
  split
  · exact hP.number _ (isNum_arith _ _ _ _)
  · split
    · exact h₂
    · split
      · exact h₁
      · split
        · exact hP.binOp _ _ _ h₁ h₂
        · exact hP.binOp _ _ _ h₂ h₁

/-- The sums satisfy a predicate at every order. -/
def SumsSatisfy (P : Tree → Prop) (PN : Sums) : Prop := ∀ order, P (PN.1 order) ∧ P (PN.2 order)

theorem SumsSatisfy.update {PN : Sums} (h : SumsSatisfy P PN) {order : ℕ} {t : Tree} (ht : P t) :
    SumsSatisfy P (Function.update PN.1 order t, PN.2) ∧
      SumsSatisfy P (PN.1, Function.update PN.2 order t) := by
  constructor
  · intro o
    refine ⟨?_, (h o).2⟩
    show P (Function.update PN.1 order t o)
    by_cases ho : o = order
    · rw [ho, Function.update_self]
      exact ht
    · rw [Function.update_of_ne ho]
      exact (h o).1
  · intro o
    refine ⟨(h o).1, ?_⟩
    show P (Function.update PN.2 order t o)
    by_cases ho : o = order
    · rw [ho, Function.update_self]
      exact ht
    · rw [Function.update_of_ne ho]
      exact (h o).2

/-- What the normal form of a mterm is made of, when it is in an additive term. -/
def TermSatisfies (P : Tree → Prop) (m : Mterm) : Prop :=
  m.fCoef.isNum = true ∧ (m.fCoef.isZero = false → ∀ p ∈ m.fFactors, p.2 ≠ 0 → P p.1)

theorem sumTerm_stable (hP : Stable P) {PN PN' : Sums} {e : Tree × Mterm}
    (he : TermSatisfies P e.2) (hPN : SumsSatisfy P PN) (h : sumTerm before PN e = some PN') :
    SumsSatisfy P PN' := by
  unfold sumTerm at h
  split at h
  all_goals
    obtain ⟨t, ht, h⟩ := Option.bind_eq_some_iff.mp h
    obtain ⟨order, ho, h⟩ := Option.bind_eq_some_iff.mp h
    cases h
    have hPt := Mterm.normalizedTree_stable hP he.1 he.2 ht
  · exact (hPN.update (simplifyingAdd_stable before hP (hPN order).2 hPt)).2
  · exact (hPN.update (simplifyingAdd_stable before hP (hPN order).1 hPt)).1

theorem combineSum_stable (hP : Stable P) {Q : ℕ → Tree} (hQ : ∀ order, P (Q order))
    {S : (ℕ → Tree) × Tree} (hN : ∀ order, P (S.1 order)) (hS : P S.2) (order : ℕ) :
    (∀ o, P ((combineSum before Q S order).1 o)) ∧ P (combineSum before Q S order).2 := by
  unfold combineSum
  have hSUM : P (if (Q order).label.isZero then S.2 else simplifyingAdd before S.2 (Q order)) := by
    split
    · exact hS
    · exact simplifyingAdd_stable before hP hS (hQ order)
  dsimp only
  generalize (if (Q order).label.isZero then S.2 else simplifyingAdd before S.2 (Q order)) = SUM
    at hSUM ⊢
  split
  · exact ⟨hN, hSUM⟩
  · split
    · refine ⟨fun o => ?_, hSUM⟩
      show P (Function.update S.1 (order + 1) _ o)
      by_cases ho : o = order + 1
      · rw [ho, Function.update_self]
        exact simplifyingAdd_stable before hP (hN order) (hN (order + 1))
      · rw [Function.update_of_ne ho]
        exact hN o
    · exact ⟨hN, hP.binOp _ _ _ hSUM (hN order)⟩

theorem foldl_combineSum_stable (hP : Stable P) {Q : ℕ → Tree} (hQ : ∀ order, P (Q order))
    (l : List ℕ) {S : (ℕ → Tree) × Tree} (hN : ∀ order, P (S.1 order)) (hS : P S.2) :
    P (l.foldl (combineSum before Q) S).2 := by
  induction l generalizing S with
  | nil => exact hS
  | cons order l ih =>
    obtain ⟨hN', hS'⟩ := combineSum_stable before hP hQ hN hS order
    exact ih hN' hS'

/-- The normal form of mterms whose factors satisfy a stable predicate satisfies it. -/
theorem normalizedTree_stable (hP : Stable P) (hA : ∀ e ∈ A, TermSatisfies P e.2) {t : Tree}
    (h : A.normalizedTree before = some t) : P t := by
  obtain ⟨PN, hPN, h⟩ := Option.bind_eq_some_iff.mp h
  cases h
  have hzero : P (sigInt 0) := hP.number (.int 0) rfl
  have hsums : SumsSatisfy P PN :=
    foldlM_invariant (fun PN e PN' he hPN h => sumTerm_stable before hP (hA e he) hPN h)
      (fun _ => ⟨hzero, hzero⟩) hPN
  exact foldl_combineSum_stable before hP (fun o => (hsums o).1) _ (fun o => (hsums o).2) hzero

theorem Inv.termSatisfies (hA : Inv P A) {e : Tree × Mterm} (he : e ∈ A) :
    TermSatisfies HasOrder e.2 :=
  ⟨(hA.entry e he).sound.coef, Mterm.hasOrder_of_accepted (hA.entry e he).accepted⟩

/-- Additive terms have a normal form, whose order is known. -/
theorem Inv.normalizedTree_isSome (hA : Inv P A) :
    ∃ t, A.normalizedTree before = some t ∧ HasOrder t := by
  have hstep : ∀ (PN : Sums) (e : Tree × Mterm), e ∈ A → True →
      ∃ PN', sumTerm before PN e = some PN' ∧ True := by
    intro PN e he _
    have hentry := hA.entry e he
    have hterm := hA.termSatisfies he
    have hsome : ∀ g, ∃ t order, e.2.normalizedTree false g = some t ∧
        getSigOrder t = some order := by
      intro g
      obtain ⟨t, ht⟩ := Option.isSome_iff_exists.mp
        ((Mterm.normalizedTree_isSome_iff (s := false) (g := g) hentry.sound.range).mpr
          hentry.accepted)
      have hord : HasOrder t := Mterm.normalizedTree_stable hasOrder_stable hterm.1 hterm.2 ht
      obtain ⟨order, horder⟩ := Option.isSome_iff_exists.mp hord
      exact ⟨t, order, ht, horder⟩
    unfold sumTerm
    split
    · obtain ⟨t, order, ht, horder⟩ := hsome true
      exact ⟨_, by simp only [ht, horder, Option.bind_eq_bind, Option.bind_some]; rfl, trivial⟩
    · obtain ⟨t, order, ht, horder⟩ := hsome false
      exact ⟨_, by simp only [ht, horder, Option.bind_eq_bind, Option.bind_some]; rfl, trivial⟩
  obtain ⟨PN, hPN, _⟩ := foldlM_isSome hstep (b := (fun _ => sigInt 0, fun _ => sigInt 0)) trivial
  have hsome : A.normalizedTree before
      = some ([0, 1, 2, 3].foldl (combineSum before PN.1) (PN.2, sigInt 0)).2 := by
    unfold Aterm.normalizedTree
    rw [hPN]
    rfl
  exact ⟨_, hsome, normalizedTree_stable before hasOrder_stable (fun e he => hA.termSatisfies he) hsome⟩

end Aterm

end Faust
