import Faust.Lib.Outcome
import Faust.Normalize.FactorizeTheorems
import Faust.Normalize.Simplify

/-!
# Powers in simplified signals

Normal forms hold powers of a literal exponent greater than one only: a negative exponent makes a
quotient, and the exponents zero and one leave no power. So does a simplified signal.
-/

namespace Faust

open Faust.Tree Faust.OrderedMap

/-! ## Predicates kept by `normalizeAddTerm` -/

namespace Aterm

variable (before : Tree → Tree → Bool) {P : Tree → Prop} {A : Aterm}

theorem Inv.satisfies (hA : Inv P A) : ∀ e ∈ A, TermSatisfies P e.2 := fun e he =>
  ⟨(hA.entry e he).sound.coef, fun _ => (hA.entry e he).sound.factor⟩

/-- A factorization by a divisor of the loop keeps what stable predicates say of the factors. -/
theorem Inv.of_factorize (hS : Stable P) (hI : Inherited P) (hA : Inv P A) {d : Mterm}
    (hd : d.Sound P) {A' : Aterm} (h : A.factorize before d = some A') : Inv P A' := by
  obtain ⟨A'', Q, hfold, hA'', hQ, _⟩ := separate_spec before hA.entry hd inv_nil inv_nil
  unfold Aterm.factorize at h
  rw [hfold] at h
  simp only [Option.bind_eq_bind, Option.bind_some] at h
  obtain ⟨t, ht, h⟩ := Option.bind_eq_some_iff.mp h
  obtain ⟨u, hu, h⟩ := Option.bind_eq_some_iff.mp h
  have hPt : P t := Mterm.normalizedTree_stable hS hd.coef (fun _ => hd.factor) ht
  have hPu : P u := normalizedTree_stable before hS hQ.satisfies hu
  exact hA''.accumulate before hI (hI.operand (hS.binOp _ _ _ hPt hPu)) h

theorem Inv.of_greatestDivisor (hA : Inv P A) {D : Mterm}
    (h : A.greatestDivisor before = some D) : D.Sound P := by
  obtain ⟨D', hD', _, hcases⟩ := hA.greatestDivisor before
  rw [h] at hD'
  cases hD'
  rcases hcases with rfl | ⟨e₁, e₂, hsub, rfl⟩
  · exact Mterm.sound_ofInt 1
  · exact (hA.entry e₁ (hsub.subset (by simp))).sound.gcd before
      (hA.entry e₂ (hsub.subset (by simp))).sound

theorem Inv.of_factorizeLoop (hS : Stable P) (hI : Inherited P) {fuel : ℕ} (hA : Inv P A)
    {B : Aterm} (h : factorizeLoop before fuel A = some B) : Inv P B := by
  induction fuel generalizing A with
  | zero =>
    cases h
    exact hA
  | succ fuel ih =>
    obtain ⟨D, hD, h⟩ := Option.bind_eq_some_iff.mp h
    split at h
    · obtain ⟨c, _, h⟩ := Option.bind_eq_some_iff.mp h
      split at h
      · obtain ⟨A', hA', h⟩ := Option.bind_eq_some_iff.mp h
        exact ih (hA.of_factorize before hS hI (hA.of_greatestDivisor before hD) hA') h
      · cases h
        exact hA
    · cases h
      exact hA

end Aterm

/-- The normal form of an expression whose operands satisfy a stable predicate satisfies it. -/
theorem normalizeAddTerm_stable {before : Tree → Tree → Bool} {P : Tree → Prop} (hS : Stable P)
    (hI : Inherited P) {t r : Tree} (ht : Operand P t) (h : normalizeAddTerm before t = some r) :
    P r := by
  obtain ⟨A, hA, h⟩ := Option.bind_eq_some_iff.mp h
  obtain ⟨B, hB, h⟩ := Option.bind_eq_some_iff.mp h
  have hinv : Aterm.Inv P A := Aterm.inv_nil.accumulate before hI ht hA
  have hinvB := hinv.of_factorizeLoop before hS hI hB
  exact Aterm.normalizedTree_stable before hS hinvB.satisfies h

namespace Simplify

/-! ## Powers -/

/-- The nodes that `simplification` takes apart. -/
def isOperation : Node → Bool
  | .sym (.xtended _) | .sym .sigBinOp | .sym .sigDelay1 | .sym .sigFixDelay | .sym .sigIntCast
  | .sym .sigFloatCast | .sym .sigSelect2 | .sym .sigSelect3 => true
  | _ => false

/-- A signal whose operations are on signals, and not on `nil`, whose nodes satisfy `ok` and whose
recursive symbols satisfy `V`. -/
inductive Built (ok V : Tree → Prop) : Tree → Prop
  | symbol (var : Tree) (h : V (.node (.sym .symRec) [var])) :
      Built ok V (.node (.sym .symRec) [var])
  | node (n : Node) (br : List Tree) (hn : n ≠ .sym .symRec) (hok : ok (.node n br))
      (hop : isOperation n = true → Tree.nil ∉ br) (hbr : ∀ t ∈ br, Built ok V t) :
      Built ok V (.node n br)

/-- A power node of a literal integer exponent has an exponent of 2 or more. -/
def PowerOk (t : Tree) : Prop := ∀ x k, isSigPow t = some (x, k) → 2 ≤ k

/-- A signal that simplification can be given. -/
abbrev WellBuilt : Tree → Prop := Built (fun _ => True) fun _ => True

/-- A signal whose power nodes are right, and whose recursive symbols satisfy `V`. -/
abbrev Powers (V : Tree → Prop) : Tree → Prop := Built PowerOk V

variable {ok V : Tree → Prop}

theorem Built.mono {ok' V' : Tree → Prop} (hok : ∀ t, ok t → ok' t) (hV : ∀ t, V t → V' t)
    {t : Tree} (h : Built ok V t) : Built ok' V' t := by
  induction h with
  | symbol var h => exact .symbol var (hV _ h)
  | node n br hn h hop _ ih => exact .node n br hn (hok _ h) hop ih

theorem Powers.mono {V' : Tree → Prop} (hV : ∀ t, V t → V' t) {t : Tree} (h : Powers V t) :
    Powers V' t := Built.mono (fun _ h => h) hV h

theorem Built.branches {n : Node} {br : List Tree} (h : Built ok V (.node n br))
    (hn : n ≠ .sym .symRec) :
    (∀ t ∈ br, Built ok V t) ∧ (isOperation n = true → Tree.nil ∉ br) := by
  cases h with
  | symbol var _ => exact absurd rfl hn
  | node _ _ _ _ hop hbr => exact ⟨hbr, hop⟩

/-- Only power nodes are asked something. -/
theorem powerOk_of_ne {n : Node} {br : List Tree} (h : n ≠ .sym (.xtended .pow)) :
    PowerOk (.node n br) := by
  intro x k hk
  unfold isSigPow at hk
  split at hk
  · next heq =>
    cases heq
    exact absurd rfl h
  · cases hk

theorem isRec_of_ne {n : Node} {br : List Tree} (h : n ≠ .sym .symRec) :
    isRec (.node n br) = false := by
  unfold isRec
  split
  · next heq =>
    cases heq
    exact absurd rfl h
  · rfl

theorem powers_leaf {n : Node} (hn : n.isNum = true) : Powers V (leaf n) := by
  refine .node n [] (fun h => ?_) ?_ (by simp) (by simp)
  · rw [h] at hn
    cases hn
  · intro x k hk
    unfold isSigPow at hk
    split at hk
    · next heq => cases heq
    · cases hk

/-- A signal that is not `nil` and whose powers are right. -/
def Operational (V : Tree → Prop) (t : Tree) : Prop := Powers V t ∧ t ≠ Tree.nil

theorem Operational.mono {V' : Tree → Prop} (hV : ∀ t, V t → V' t) {t : Tree}
    (h : Operational V t) : Operational V' t := ⟨h.1.mono hV, h.2⟩

theorem operational_num {n : Node} (hn : n.isNum = true) : Operational V (leaf n) := by
  refine ⟨powers_leaf hn, fun h => ?_⟩
  rw [(Tree.node.inj h).1] at hn
  cases hn

theorem Built.operand {n : Node} {br : List Tree} (h : Powers V (.node n br))
    (hn : isOperation n = true) : ∀ t ∈ br, Operational V t := by
  have hrec : n ≠ .sym .symRec := by
    intro h
    rw [h] at hn
    cases hn
  obtain ⟨hbr, hop⟩ := Built.branches h hrec
  exact fun t ht => ⟨hbr t ht, fun hnil => hop hn (hnil ▸ ht)⟩

/-- An operation on signals whose powers are right. -/
theorem operational_node {n : Node} {br : List Tree} (hn : isOperation n = true)
    (hpow : PowerOk (.node n br)) (hbr : ∀ t ∈ br, Operational V t) :
    Operational V (.node n br) := by
  constructor
  · refine .node n br (fun h => ?_) hpow (fun _ hnil => (hbr _ hnil).2 rfl)
      fun t ht => (hbr t ht).1
    rw [h] at hn
    cases hn
  · intro h
    rw [(Tree.node.inj h).1] at hn
    cases hn

theorem operational_sigBinOp (op : BinOp) {x y : Tree} (hx : Operational V x)
    (hy : Operational V y) : Operational V (sigBinOp op x y) := by
  apply operational_node rfl (powerOk_of_ne (by simp))
  intro t ht
  simp only [List.mem_cons, List.not_mem_nil, or_false] at ht
  rcases ht with rfl | rfl | rfl
  · exact operational_num rfl
  · exact hx
  · exact hy

theorem operational_stable : Stable (Operational V) where
  number := fun n hn => operational_num hn
  binOp := fun op x y hx hy => operational_sigBinOp op hx hy
  power := by
    intro x q hq hx
    apply operational_node rfl
    · intro x' k hk
      cases hk
      omega
    · intro t ht
      simp only [List.mem_cons, List.not_mem_nil, or_false] at ht
      rcases ht with rfl | rfl
      · exact hx
      · exact operational_num rfl

theorem operational_inherited : Inherited (Operational V) where
  binOp := by
    intro i br x y h
    have hbr := Built.operand h.1 rfl
    exact ⟨hbr x (by simp), hbr y (by simp)⟩
  power := by
    intro x n br h
    exact Built.operand h.1 rfl x (by simp)

/-- An operation on signals whose powers are right, that may be a power of any exponent. -/
theorem operand_of_branches {n : Node} {br : List Tree} (hn : isOperation n = true)
    (hbr : ∀ t ∈ br, Operational V t) : Operand (Operational V) (.node n br) where
  binOp := by
    intro i br' x y h
    cases h
    exact ⟨hbr x (by simp), hbr y (by simp)⟩
  factor := by
    intro h
    refine operational_node hn ?_ hbr
    intro x k hk
    rw [h] at hk
    cases hk
  base := by
    intro x k h
    unfold isSigPow at h
    split at h
    · next heq =>
      cases heq
      cases h
      exact hbr x (by simp)
    · cases h

/-! ## Simplifications that read no property -/

theorem operational_sigIntCast {t : Tree} (ht : Operational V t) :
    Operational V (sigIntCast t) := by
  unfold sigIntCast
  split
  · exact ht
  · exact operational_num rfl
  · exact ht
  · exact operational_node rfl (powerOk_of_ne (by simp)) (by simpa using ht)

theorem operational_sigFixDelay {s d : Tree} (hs : Operational V s) (hd : Operational V d) :
    Operational V (sigFixDelay s d) := by
  apply operational_node rfl (powerOk_of_ne (by simp))
  intro t ht
  simp only [List.mem_cons, List.not_mem_nil, or_false] at ht
  rcases ht with rfl | rfl
  · exact hs
  · exact operational_sigIntCast hd

theorem operational_sigSelect2 {t1 t2 t3 : Tree} (h1 : Operational V t1) (h2 : Operational V t2)
    (h3 : Operational V t3) : Operational V (sigSelect2 t1 t2 t3) := by
  apply operational_node rfl (powerOk_of_ne (by simp))
  intro t ht
  simp only [List.mem_cons, List.not_mem_nil, or_false] at ht
  rcases ht with rfl | rfl | rfl
  · exact operational_sigIntCast h1
  · exact h2
  · exact h3

theorem isNum_evalNodes (libm : Libm) (p : XtPrim) (args : List Node) :
    (p.evalNodes libm args).isNum = true := by
  unfold XtPrim.evalNodes
  split
  · unfold Node.absNode
    split <;> rfl
  · exact isNum_arith _ _ _ _
  · exact isNum_arith _ _ _ _
  · rfl
  · rfl

theorem isNum_compute (op : BinOp) (x y : Node) : (op.compute wrap32 x y).isNum = true := by
  cases op with
  | kDiv => exact isNum_divExtendedNode x y
  | kAdd | kSub | kMul => exact isNum_arith _ _ _ _
  | kRem | kLsh | kRsh | kGT | kLT | kGE | kLE | kEQ | kNE | kAND | kOR | kXOR => rfl

theorem operational_simplifyXtended {libm : Libm} {before : Tree → Tree → Bool} {p : XtPrim}
    {args : List Tree} {r : Tree} (hargs : ∀ t ∈ args, Operational V t)
    (h : simplifyXtended libm before p args = some r) : Operational V r := by
  unfold simplifyXtended at h
  split at h
  · refine normalizeAddTerm_stable operational_stable operational_inherited ?_ h
    unfold XtPrim.computeSigOutput
    split
    · exact operational_inherited.operand (operational_num (isNum_evalNodes _ _ _))
    · exact operand_of_branches rfl hargs
  · next hp =>
    cases h
    unfold XtPrim.computeSigOutput
    split
    · exact operational_num (isNum_evalNodes _ _ _)
    · exact operational_node rfl (powerOk_of_ne (by simpa using hp)) hargs

theorem operational_simplifyBinOp {before : Tree → Tree → Bool} {sig : Tree} {op : BinOp}
    {t1 t2 r : Tree} (hsig : Operand (Operational V) sig) (h1 : Operational V t1)
    (h2 : Operational V t2) (h : simplifyBinOp before sig op t1 t2 = some r) :
    Operational V r := by
  unfold simplifyBinOp at h
  split at h
  · cases h
    exact operational_num (isNum_compute op _ _)
  · split at h
    · cases h
      exact h2
    · split at h
      · cases h
        exact h1
      · exact normalizeAddTerm_stable operational_stable operational_inherited hsig h

theorem operational_simplifyIntCast {sig t1 : Tree} (hsig : Operational V sig)
    (h1 : Operational V t1) : Operational V (simplifyIntCast sig t1) := by
  unfold simplifyIntCast
  split
  · exact h1
  · exact operational_num rfl
  · exact h1
  · exact hsig

theorem operational_simplifyFloatCast {sig t1 : Tree} (hsig : Operational V sig)
    (h1 : Operational V t1) : Operational V (simplifyFloatCast sig t1) := by
  unfold simplifyFloatCast
  split
  · exact operational_num rfl
  · exact h1
  · exact h1
  · exact hsig

theorem operational_simplifySelect2 {sig t1 t2 t3 : Tree} (hsig : Operational V sig)
    (h2 : Operational V t2) (h3 : Operational V t3) :
    Operational V (simplifySelect2 sig t1 t2 t3) := by
  unfold simplifySelect2
  split
  · exact h2
  · split
    · exact h3
    · split
      · exact h2
      · exact hsig

theorem operational_simplifySelect3 {sig t1 t2 t3 t4 : Tree} (hsig : Operational V sig)
    (h1 : Operational V t1) (h2 : Operational V t2) (h3 : Operational V t3)
    (h4 : Operational V t4) : Operational V (simplifySelect3 sig t1 t2 t3 t4) := by
  unfold simplifySelect3
  split
  · exact h2
  · split
    · exact h3
    · split
      · exact h4
      · split
        · exact operational_simplifySelect2 (operational_sigSelect2 h1 h2 h3) h2 h3
        · exact hsig

/-! ## Simplification -/

open Outcome

/-- The signal has the property `SIMPLIFIED`. -/
def Visited (s : Properties) (t : Tree) : Prop := s.simplified t ≠ none

/-- What a traversal keeps, when the recursive symbols `pending` are being visited: the results have
right powers, and so have the new definitions of the other symbols. -/
structure Inv (pending : List Tree) (s : Properties) : Prop where
  result : ∀ t p, s.simplified t = some p → Powers (Visited s) (if p = Tree.nil then t else p)
  definition : ∀ t, isRec t = true → Visited s t → t ∉ pending →
    ∃ body, s.recDef t = some body ∧ Powers (Visited s) body
  built : ∀ t body, s.recDef t = some body → WellBuilt body

/-- What a traversal adds: signals are visited. -/
def Extends (s s' : Properties) : Prop := ∀ t, Visited s t → Visited s' t

theorem Extends.refl (s : Properties) : Extends s s := fun _ h => h

theorem Extends.trans {s₁ s₂ s₃ : Properties} (h₁ : Extends s₁ s₂) (h₂ : Extends s₂ s₃) :
    Extends s₁ s₃ := fun t h => h₂ t (h₁ t h)

section
variable {libm : Libm} {before : Tree → Tree → Bool} {pending : List Tree} {s : Properties}

theorem ends_require {α : Type} {o : Option α} {Q : α → Properties → Prop}
    (h : ∀ a, o = some a → Q a s) : Ends (require o) s (fun _ => True) Q := by
  cases o with
  | none => exact Ends.throw trivial
  | some a => exact Ends.pure (h a rfl)

theorem Inv.extends_setSimplified (s : Properties) (t p : Tree) :
    Extends s { s with simplified := Function.update s.simplified t (some p) } := by
  intro u hu
  show Function.update s.simplified t (some p) u ≠ none
  by_cases h : u = t
  · rw [h, Function.update_self]
    simp
  · rw [Function.update_of_ne h]
    exact hu

/-- The result of a signal is written. -/
theorem Inv.setSimplified (hs : Inv pending s) {t r : Tree} (ht : isRec t = false)
    (hr : Powers (Visited s) r) (hnil : t ≠ Tree.nil → r ≠ Tree.nil) :
    Ends (setSimplified t r) s (fun _ => True) fun _ s' => Inv pending s' ∧ Extends s s' := by
  unfold Simplify.setSimplified
  apply Ends.modify
  have hext := Inv.extends_setSimplified s t (if r = t then Tree.nil else r)
  refine ⟨⟨?_, ?_, hs.built⟩, hext⟩
  · intro u p hp
    have hp' : Function.update s.simplified t (some (if r = t then Tree.nil else r)) u = some p := hp
    by_cases h : u = t
    · rw [h, Function.update_self] at hp'
      have hval : (if p = Tree.nil then u else p) = r := by
        by_cases hrt : r = t
        · rw [if_pos hrt] at hp'
          cases hp'
          rw [if_pos rfl, h, hrt]
        · rw [if_neg hrt] at hp'
          cases hp'
          -- a result is not `nil`, as `nil` is its own result
          have hr0 : r ≠ Tree.nil := fun h0 => hrt (h0.trans (by_contra fun ht0 => hnil
            (fun h1 => ht0 h1.symm) h0))
          rw [if_neg hr0]
      rw [hval]
      exact hr.mono hext
    · rw [Function.update_of_ne h] at hp'
      exact (hs.result u p hp').mono hext
  · intro u hu hvis hpend
    have hne : u ≠ t := by
      intro h
      rw [h, ht] at hu
      cases hu
    have hvis' : Visited s u := by
      have hv : Function.update s.simplified t
          (some (if r = t then Tree.nil else r)) u ≠ none := hvis
      rwa [Function.update_of_ne hne] at hv
    obtain ⟨body, hbody, hp⟩ := hs.definition u hu hvis' hpend
    exact ⟨body, hbody, hp.mono hext⟩

/-- The visit of a recursive symbol begins. -/
theorem Inv.setPending (hs : Inv pending s) {var : Tree} :
    let t : Tree := .node (.sym .symRec) [var]
    Ends (Simplify.setSimplified t t) s (fun _ => True) fun _ s' =>
      Inv (t :: pending) s' ∧ Extends s s' ∧ Visited s' t ∧ s'.recDef = s.recDef := by
  intro t
  unfold Simplify.setSimplified
  apply Ends.modify
  rw [if_pos rfl]
  have hext := Inv.extends_setSimplified s t Tree.nil
  have hvis : Visited { s with simplified := Function.update s.simplified t (some Tree.nil) } t := by
    show Function.update s.simplified t (some Tree.nil) t ≠ none
    rw [Function.update_self]
    simp
  refine ⟨⟨?_, ?_, hs.built⟩, hext, hvis, rfl⟩
  · intro u p hp
    have hp' : Function.update s.simplified t (some Tree.nil) u = some p := hp
    by_cases h : u = t
    · rw [h, Function.update_self] at hp'
      cases hp'
      rw [if_pos rfl, h]
      exact .symbol var hvis
    · rw [Function.update_of_ne h] at hp'
      exact (hs.result u p hp').mono hext
  · intro u hu hvis hpend
    have hne : u ≠ t := fun h => hpend (h ▸ List.mem_cons_self)
    have hvis' : Visited s u := by
      have hv : Function.update s.simplified t (some Tree.nil) u ≠ none := hvis
      rwa [Function.update_of_ne hne] at hv
    obtain ⟨body, hbody, hp⟩ := hs.definition u hu hvis' fun h => hpend (List.mem_cons_of_mem _ h)
    exact ⟨body, hbody, hp.mono hext⟩

/-- The visit of a recursive symbol ends, with a new definition. -/
theorem Inv.setRecDef {t body : Tree} (hs : Inv (t :: pending) s)
    (hbody : Powers (Visited s) body) :
    Ends (setRecDef t body) s (fun _ => True) fun _ s' => Inv pending s' ∧ Extends s s' := by
  unfold Simplify.setRecDef
  apply Ends.modify
  refine ⟨⟨hs.result, ?_, ?_⟩, fun _ h => h⟩
  · intro u hu hvis hpend
    show ∃ b, Function.update s.recDef t (some body) u = some b ∧ Powers (Visited s) b
    by_cases h : u = t
    · rw [h, Function.update_self]
      exact ⟨body, rfl, hbody⟩
    · rw [Function.update_of_ne h]
      apply hs.definition u hu hvis
      simp [h, hpend]
  · intro u b hb
    have hb' : Function.update s.recDef t (some body) u = some b := hb
    by_cases h : u = t
    · rw [h, Function.update_self] at hb'
      cases hb'
      exact Built.mono (fun _ _ => trivial) (fun _ _ => trivial) hbody
    · rw [Function.update_of_ne h] at hb'
      exact hs.built u b hb'

/-! ### The traversal -/

/-- How a visit ends: with a result whose powers are right, which is not `nil` if `t` is not. -/
def Visits (x : M Tree) (pending : List Tree) (s : Properties) (t : Tree) : Prop :=
  Ends x s (fun _ => True) fun r s' =>
    Inv pending s' ∧ Extends s s' ∧ Powers (Visited s') r ∧ (t ≠ Tree.nil → r ≠ Tree.nil)

/-- How a normalization ends: with an operational result. -/
def Normalizes (x : M Tree) (pending : List Tree) (s : Properties) : Prop :=
  Ends x s (fun _ => True) fun r s' =>
    Inv pending s' ∧ Extends s s' ∧ Operational (Visited s') r

theorem Normalizes.visits {x : M Tree} (h : Normalizes x pending s) (t : Tree) :
    Visits x pending s t :=
  h.mono fun _ _ h => ⟨h.1, h.2.1, h.2.2.1, fun _ => h.2.2.2⟩

theorem normalizes_return (hs : Inv pending s) {r : Tree} (hr : Operational (Visited s) r) :
    Normalizes (return r) pending s := Ends.pure ⟨hs, Extends.refl s, hr⟩

theorem normalizes_require (hs : Inv pending s) {o : Option Tree}
    (hr : ∀ r, o = some r → Operational (Visited s) r) : Normalizes (require o) pending s :=
  ends_require fun r h => ⟨hs, Extends.refl s, hr r h⟩

/-- A normalization inside another one. -/
theorem Normalizes.bind {x : M Tree} {f : Tree → M Tree} (hx : Normalizes x pending s)
    (hf : ∀ r s', Inv pending s' → Extends s s' → Operational (Visited s') r →
      Normalizes (f r) pending s') : Normalizes (x >>= f) pending s := by
  apply Ends.bind hx
  intro r s' h
  obtain ⟨hs', hext, hr⟩ := h
  apply (hf r s' hs' hext hr).mono
  intro r' s'' h'
  exact ⟨h'.1, hext.trans h'.2.1, h'.2.2⟩

/-- The order of a factor is read. -/
theorem normalizes_order {x : Tree} {f : ℕ → M Tree} (hf : ∀ o, Normalizes (f o) pending s) :
    Normalizes (do f (← require (getSigOrder x))) pending s := by
  apply Ends.bind (Q := fun _ s' => s' = s) (ends_require fun _ _ => rfl)
  intro o s' h
  subst h
  exact hf o

theorem operational_of_isSigBinOp {op : BinOp} {t x y : Tree} (ht : Operational (Visited s) t)
    (h : isSigBinOp op t = some (x, y)) :
    Operational (Visited s) x ∧ Operational (Visited s) y := by
  unfold isSigBinOp at h
  split at h
  · split at h
    · cases h
      exact operational_inherited.binOp _ _ _ _ ht
    · cases h
  · cases h

theorem Operational.wellBuilt {t : Tree} (ht : Operational (Visited s) t) : WellBuilt t :=
  Built.mono (fun _ _ => trivial) (fun _ _ => trivial) ht.1

/-- The delays, given the visits of a lower depth. -/
theorem normalizes_delay {fuel : ℕ}
    (hmap : ∀ pending s t, Inv pending s → WellBuilt t →
      Visits (sigMap libm before fuel t) pending s t)
    (hdelay : ∀ pending s x d, Inv pending s → Operational (Visited s) x →
      Operational (Visited s) d →
      Normalizes (normalizeFixedDelayTerm libm before fuel x d) pending s)
    (hs : Inv pending s) {x d : Tree} (hx : Operational (Visited s) x)
    (hd : Operational (Visited s) d) :
    Normalizes (normalizeFixedDelayTerm libm before (fuel + 1) x d) pending s := by
  have hfix : Normalizes (return sigFixDelay x d) pending s :=
    normalizes_return hs (operational_sigFixDelay hx hd)
  unfold normalizeFixedDelayTerm
  split
  · exact normalizes_return hs hx
  next hzero =>
  split
  · exact normalizes_return hs hx
  next hsilent =>
  split
  · next y z hyz =>
    obtain ⟨hy, hz⟩ := operational_of_isSigBinOp hx hyz
    apply normalizes_order
    intro o
    split
    · apply (hdelay pending s z d hs hz hd).bind
      intro r s' hs' hext hr
      exact normalizes_return hs' (operational_sigBinOp _ (hy.mono hext) hr)
    · apply normalizes_order
      intro o'
      split
      · apply (hdelay pending s y d hs hy hd).bind
        intro r s' hs' hext hr
        exact normalizes_return hs' (operational_sigBinOp _ (hz.mono hext) hr)
      · exact hfix
  · next y z hyz _ =>
    obtain ⟨hy, hz⟩ := operational_of_isSigBinOp hx hyz
    apply normalizes_order
    intro o
    split
    · apply (hdelay pending s y d hs hy hd).bind
      intro r s' hs' hext hr
      exact normalizes_return hs' (operational_sigBinOp _ hr (hz.mono hext))
    · exact hfix
  · next y z _ _ =>
    have hyz := Built.operand hx.1 rfl
    have hsum := operational_sigBinOp .kAdd hd (hyz z (by simp))
    apply Ends.bind (hmap pending s (sigAdd d z) hs hsum.wellBuilt)
    intro r s' h
    obtain ⟨hs', hext, hr, hnil⟩ := h
    have hy := (hyz y (by simp)).mono hext
    apply (hdelay pending s' y r hs' hy ⟨hr, hnil hsum.2⟩).mono
    intro r' s'' h'
    exact ⟨h'.1, hext.trans h'.2.1, h'.2.2⟩
  · exact hfix

/-- The simplification of a signal whose branches are simplified, given the delays of a lower
depth. -/
theorem visits_simplification {fuel : ℕ}
    (hdelay : ∀ pending s x d, Inv pending s → Operational (Visited s) x →
      Operational (Visited s) d →
      Normalizes (normalizeFixedDelayTerm libm before fuel x d) pending s)
    (hs : Inv pending s) {n : Node} {br : List Tree} (hn : n ≠ .sym .symRec)
    (hbr : ∀ t ∈ br, Powers (Visited s) t) (hop : isOperation n = true → Tree.nil ∉ br) :
    Visits (simplification libm before (fuel + 1) (.node n br)) pending s (.node n br) := by
  have hoper : isOperation n = true → ∀ t ∈ br, Operational (Visited s) t :=
    fun h t ht => ⟨hbr t ht, fun hnil => hop h (hnil ▸ ht)⟩
  -- an operation that is not a power is operational as it is
  have hself : isOperation n = true → n ≠ .sym (.xtended .pow) →
      Operational (Visited s) (.node n br) :=
    fun h hpow => operational_node h (powerOk_of_ne hpow) (hoper h)
  unfold simplification
  split
  · next p args heq =>
    cases heq
    exact (normalizes_require hs fun r hr =>
      operational_simplifyXtended (hoper rfl) hr).visits _
  · next opnum br' t1 t2 heq =>
    cases heq
    have h := hoper rfl
    split
    · exact (normalizes_require hs fun r hr => operational_simplifyBinOp
        (operand_of_branches rfl h) (h t1 (by simp)) (h t2 (by simp)) hr).visits _
    · exact Ends.throw trivial
  · next t1 heq =>
    cases heq
    exact (hdelay pending s t1 _ hs (hoper rfl t1 (by simp)) (operational_num rfl)).visits _
  · next t1 t2 heq =>
    cases heq
    exact (hdelay pending s t1 t2 hs (hoper rfl t1 (by simp))
      (hoper rfl t2 (by simp))).visits _
  · next t1 heq =>
    cases heq
    exact (normalizes_return hs (operational_simplifyIntCast (hself rfl (by simp))
      (hoper rfl t1 (by simp)))).visits _
  · next t1 heq =>
    cases heq
    exact (normalizes_return hs (operational_simplifyFloatCast (hself rfl (by simp))
      (hoper rfl t1 (by simp)))).visits _
  · next t1 t2 t3 heq =>
    cases heq
    exact (normalizes_return hs (operational_simplifySelect2 (hself rfl (by simp))
      (hoper rfl t2 (by simp)) (hoper rfl t3 (by simp)))).visits _
  · next t1 t2 t3 t4 heq =>
    cases heq
    have h := hoper rfl
    exact (normalizes_return hs (operational_simplifySelect3 (hself rfl (by simp))
      (h t1 (by simp)) (h t2 (by simp)) (h t3 (by simp)) (h t4 (by simp)))).visits _
  · next hxt _ _ _ _ _ _ _ =>
    refine Ends.pure ⟨hs, Extends.refl s, .node n br hn ?_ hop hbr, fun h => h⟩
    apply powerOk_of_ne
    intro h
    exact hxt .pow br (by rw [h])

/-- The visit of a signal, given the visits and the simplifications of a lower depth. -/
theorem visits_sigMap {fuel : ℕ}
    (hmap : ∀ pending s t, Inv pending s → WellBuilt t →
      Visits (sigMap libm before fuel t) pending s t)
    (hsimp : ∀ pending s n br, Inv pending s → n ≠ .sym .symRec →
      (∀ t ∈ br, Powers (Visited s) t) → (isOperation n = true → Tree.nil ∉ br) →
      Visits (simplification libm before fuel (.node n br)) pending s (.node n br))
    (hs : Inv pending s) {t : Tree} (ht : WellBuilt t) :
    Visits (sigMap libm before (fuel + 1) t) pending s t := by
  unfold sigMap
  apply Ends.get_eq.bind
  intro _ _ h
  obtain ⟨rfl, rfl⟩ := h
  split
  · next p hp =>
    refine Ends.pure ⟨hs, Extends.refl _, hs.result t p hp, fun hnil => ?_⟩
    split
    · exact hnil
    · next hp => exact hp
  · cases ht with
    | symbol var _ =>
      rw [if_pos (by rfl)]
      -- the symbol is visited before its definition
      apply (@Inv.setPending _ _ hs var).bind
      intro _ s₁ h₁
      obtain ⟨hs₁, hext₁, hvis₁, hdef⟩ := h₁
      apply Ends.get_eq.bind
      intro _ _ h
      obtain ⟨rfl, rfl⟩ := h
      apply Ends.bind (Q := fun body s' => s' = _ ∧ _) (ends_require fun body hbody => ⟨rfl, hbody⟩)
      intro body s₂ h
      obtain ⟨rfl, hbody⟩ := h
      apply (hmap _ _ body hs₁ (hs₁.built _ _ hbody)).bind
      intro body' s₃ h
      obtain ⟨hs₃, hext₃, hpow, _⟩ := h
      apply (hs₃.setRecDef hpow).bind
      intro _ s₄ h
      obtain ⟨hs₄, hext₄⟩ := h
      have hext := (hext₁.trans hext₃).trans hext₄
      exact Ends.pure ⟨hs₄, hext, .symbol var (hext₄ _ (hext₃ _ hvis₁)), fun h => h⟩
    | node n br hn _ hop hbr =>
      rw [if_neg (by simp [isRec_of_ne hn])]
      -- the branches first
      apply (Ends.mapM_forall (I := Inv pending) (G := Extends)
        (R := fun b s => Powers (Visited s) b ∧ (Tree.nil ∉ br → b ≠ Tree.nil))
        Extends.refl Extends.trans (fun hb hext => ⟨hb.1.mono hext, hb.2⟩)
        (fun b hb s hs => (hmap pending s b hs (hbr b hb)).mono fun r s' h =>
          ⟨h.1, h.2.1, h.2.2.1, fun hnil => h.2.2.2 fun h0 => hnil (h0 ▸ hb)⟩) hs).bind
      intro br' s₁ h
      obtain ⟨hs₁, hext₁, hlen, hbr'⟩ := h
      apply (hsimp pending s₁ n br' hs₁ hn (fun b hb => (hbr' b hb).1)
        fun h hmem => (hbr' _ hmem).2 (hop h) rfl).bind
      intro r s₂ h
      obtain ⟨hs₂, hext₂, hr, hnil⟩ := h
      have hr0 : Tree.node n br ≠ Tree.nil → r ≠ Tree.nil := by
        intro hne
        apply hnil
        intro h0
        obtain ⟨h₁, h₂⟩ := Tree.node.inj h0
        rw [h₂] at hlen
        have hbr0 : br = [] := List.length_eq_zero_iff.mp hlen.symm
        exact hne (by rw [h₁, hbr0]; rfl)
      apply (hs₂.setSimplified (isRec_of_ne hn) hr hr0).bind
      intro _ s₃ h
      obtain ⟨hs₃, hext₃⟩ := h
      exact Ends.pure ⟨hs₃, (hext₁.trans hext₂).trans hext₃, hr.mono hext₃, hr0⟩

/-- The visits of all depths. -/
theorem visits (fuel : ℕ) :
    (∀ pending s t, Inv pending s → WellBuilt t →
      Visits (sigMap libm before fuel t) pending s t) ∧
    (∀ pending s n br, Inv pending s → n ≠ .sym .symRec →
      (∀ t ∈ br, Powers (Visited s) t) → (isOperation n = true → Tree.nil ∉ br) →
      Visits (simplification libm before fuel (.node n br)) pending s (.node n br)) ∧
    ∀ pending s x d, Inv pending s → Operational (Visited s) x → Operational (Visited s) d →
      Normalizes (normalizeFixedDelayTerm libm before fuel x d) pending s := by
  induction fuel with
  | zero =>
    refine ⟨fun _ _ _ _ _ => ?_, fun _ _ _ _ _ _ _ _ => ?_, fun _ _ _ _ _ _ _ => ?_⟩
    all_goals exact Ends.throw trivial
  | succ fuel ih =>
    obtain ⟨hmap, hsimp, hdelay⟩ := ih
    exact ⟨fun _ _ _ hs ht => visits_sigMap hmap hsimp hs ht,
      fun _ _ _ _ hs hn hbr hop => visits_simplification hdelay hs hn hbr hop,
      fun _ _ _ _ hs hx hd => normalizes_delay hmap hdelay hs hx hd⟩

end

end Simplify

end Faust
