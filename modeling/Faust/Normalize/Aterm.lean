import Faust.Normalize.Mterm
import Mathlib.Logic.Relation

/-!
# Additive terms (`aterm.cpp`, `normalizeAddTerm`)

A set of mterms added together, each one under its signature. `normalizeAddTerm` factorizes an
additive term by its greatest divisor until no divisor is left.
-/

namespace Faust

open Faust.Tree Faust.OrderedMap

/-- `class aterm`: the mapping between signatures and corresponding mterms. -/
abbrev Aterm := List (Tree × Mterm)

namespace Aterm

section
variable (before : Tree → Tree → Bool)

/-! ## Sums -/

/-- `operator += (const mterm&)`. -/
def addMterm (A : Aterm) (m : Mterm) : Option Aterm := do
  let sig ← m.signatureTree
  match find sig A with
  | none => return put before sig m A
  | some p => return put before sig (← p.add m) A

/-- `operator -= (const mterm&)`. -/
def subMterm (A : Aterm) (m : Mterm) : Option Aterm := do
  let sig ← m.signatureTree
  match find sig A with
  | none => return put before sig (m.mul before (.ofInt (-1))) A
  | some p => return put before sig (← p.sub m) A

/-- What `+=` and `-=` make of a tree that is not a sum nor a difference. -/
def accumulateTerm (neg : Bool) (t : Tree) (A : Aterm) : Option Aterm :=
  if neg then A.subMterm before (.ofTree before t) else A.addMterm before (.ofTree before t)

/-- Add or subtract an expression tree, going down for additions and subtractions. -/
def accumulate (neg : Bool) : Tree → Aterm → Option Aterm
  | .node (.sym .sigBinOp) [.node (.int op) br, x, y], A =>
    if op = BinOp.kAdd.opcode then do accumulate neg y (← accumulate neg x A)
    else if op = BinOp.kSub.opcode then do accumulate (!neg) y (← accumulate neg x A)
    else accumulateTerm before neg (.node (.sym .sigBinOp) [.node (.int op) br, x, y]) A
  | t, A => accumulateTerm before neg t A
termination_by structural t => t

/-- `operator += (Tree)`. -/
def addTree (A : Aterm) (t : Tree) : Option Aterm := accumulate before false t A

/-- `operator -= (Tree)`. -/
def subTree (A : Aterm) (t : Tree) : Option Aterm := accumulate before true t A

/-- `aterm(Tree)`. -/
def ofTree (t : Tree) : Option Aterm := addTree before [] t

end

/-! ## Normal form -/

section
variable (before : Tree → Tree → Bool)

/-- `simplifyingAdd`: add two terms trying to simplify the result. -/
def simplifyingAdd (t1 t2 : Tree) : Tree :=
  if t1.label.isNum && t2.label.isNum then leaf (Node.addNode wrap32 t1.label t2.label)
  else if t1.label.isZero then t2
  else if t2.label.isZero then t1
  else if t1 = t2 ∨ before t1 t2 then sigAdd t1 t2
  else sigAdd t2 t1

/-- The positive terms `P` and the inverted negative terms `N`, by order. -/
abbrev Sums := (ℕ → Tree) × (ℕ → Tree)

/-- The step of the sum by order and sign. -/
def sumTerm (PN : Sums) (p : Tree × Mterm) : Option Sums := do
  if p.2.isNegative then
    let t ← p.2.normalizedTree false true
    let order ← getSigOrder t
    return (PN.1, Function.update PN.2 order (simplifyingAdd before (PN.2 order) t))
  else
    let t ← p.2.normalizedTree false false
    let order ← getSigOrder t
    return (Function.update PN.1 order (simplifyingAdd before (PN.1 order) t), PN.2)

/-- The step of the combination of the sums, for an order. The state is `N` and `SUM`. -/
def combineSum (P : ℕ → Tree) (S : (ℕ → Tree) × Tree) (order : ℕ) : (ℕ → Tree) × Tree :=
  let SUM := if (P order).label.isZero then S.2 else simplifyingAdd before S.2 (P order)
  if (S.1 order).label.isZero then (S.1, SUM)
  else if SUM.label.isZero ∧ order < 3 then
    -- we postpone the subtraction
    (Function.update S.1 (order + 1) (simplifyingAdd before (S.1 order) (S.1 (order + 1))), SUM)
  else (S.1, sigSub SUM (S.1 order))

/-- `normalizedTree`. -/
def normalizedTree (A : Aterm) : Option Tree := do
  let PN ← A.foldlM (sumTerm before) (fun _ => sigInt 0, fun _ => sigInt 0)
  return ([0, 1, 2, 3].foldl (combineSum before PN.1) (PN.2, sigInt 0)).2

/-! ## Factorization -/

/-- The pairs of entries `p1`, `p2` with `p1` before `p2`. -/
def pairs : Aterm → List (Mterm × Mterm)
  | [] => []
  | p1 :: A => A.map (fun p2 => (p1.2, p2.2)) ++ pairs A

/-- The step of the loops of `greatestDivisor`. The state is `maxComplexity` and `maxGCD`. -/
def maxGCD (S : ℤ × Mterm) (p : Mterm × Mterm) : Option (ℤ × Mterm) := do
  let g := Mterm.gcd before p.1 p.2
  let c ← g.complexity
  return if S.1 < c then (c, g) else S

/-- `greatestDivisor`: the greatest divisor of any two mterms. -/
def greatestDivisor (A : Aterm) : Option Mterm := do
  return (← A.pairs.foldlM (maxGCD before) (0, .ofInt 1)).2

/-- The step of the separation of the multiples of `d` from the others. The state is `A`, `Q`. -/
def separate (d : Mterm) (AQ : Aterm × Aterm) (p1 : Tree × Mterm) : Option (Aterm × Aterm) := do
  if p1.2.hasDivisor d then return (AQ.1, ← AQ.2.addMterm before (p1.2.div before d))
  else return (← AQ.1.addMterm before p1.2, AQ.2)

/-- `factorize`: reorganize the aterm by factorizing `d`. -/
def factorize (A : Aterm) (d : Mterm) : Option Aterm := do
  let (A', Q) ← A.foldlM (separate before d) ([], [])
  addTree before A' (sigMul (← d.normalizedTree false false) (← Q.normalizedTree before))

/-! ## `normalizeAddTerm` -/

/-- The condition of the loop of `normalizeAddTerm` holds of `A`, whose greatest divisor is `D`. -/
def Continues (A : Aterm) (D : Mterm) : Prop :=
  A.greatestDivisor before = some D ∧ D.isNotZero = true ∧ ∃ c, D.complexity = some c ∧ 0 < c

/-- The condition of the loop of `normalizeAddTerm` does not hold of `A`. -/
def Ends (A : Aterm) : Prop :=
  ∃ D, A.greatestDivisor before = some D ∧
    (D.isNotZero = false ∨ ∃ c, D.complexity = some c ∧ c ≤ 0)

/-- An iteration of the loop of `normalizeAddTerm`. -/
def LoopStep (A A' : Aterm) : Prop := ∃ D, A.Continues before D ∧ A.factorize before D = some A'

/-- The values of `A` in the loop of `normalizeAddTerm(t)`. -/
def Reached (t : Tree) (A : Aterm) : Prop :=
  ∃ A₀, ofTree before t = some A₀ ∧ Relation.ReflTransGen (LoopStep before) A₀ A

/-- The loop of `normalizeAddTerm`, for a number of iterations at most. -/
def factorizeLoop : ℕ → Aterm → Option Aterm
  | 0, A => some A
  | fuel + 1, A => do
    let D ← A.greatestDivisor before
    if D.isNotZero then
      if 0 < (← D.complexity) then factorizeLoop fuel (← A.factorize before D) else return A
    else return A

end

end Aterm

/-- `normalizeAddTerm`: the Add-Normal form of a term. An iteration leaves fewer mterms, so their
number bounds the iterations. -/
def normalizeAddTerm (before : Tree → Tree → Bool) (t : Tree) : Option Tree := do
  let A ← Aterm.ofTree before t
  (← Aterm.factorizeLoop before A.length A).normalizedTree before

end Faust
