import Faust.Lib.OrderedMap
import Faust.Signals.SigOrder

/-!
# Multiplicative terms (`mterm.cpp`)

A term `k * x^n * y^m * …`: a number and the powers of the factors, in the order of the addresses of
the factors, which `before` compares. Coefficients and exponents are computed on `int` with two's
complement. A failed assertion and an exception leave no result.
-/

namespace Faust

open Faust.Tree Faust.OrderedMap

/-! ## Signals that normal forms are made of -/

/-- `sigSub`. -/
def sigSub (x y : Tree) : Tree := sigBinOp .kSub x y

/-- `sigMul`. -/
def sigMul (x y : Tree) : Tree := sigBinOp .kMul x y

/-- `sigDiv`. -/
def sigDiv (x y : Tree) : Tree := sigBinOp .kDiv x y

/-- `isSigBinOp`, when the opcode is the one of `op`. -/
def isSigBinOp (op : BinOp) : Tree → Option (Tree × Tree)
  | .node (.sym .sigBinOp) [.node (.int i) _, x, y] => if i = op.opcode then some (x, y) else none
  | _ => none

/-- `isSigPow`: match `x^p` with `p:int`. -/
def isSigPow : Tree → Option (Tree × ℤ)
  | .node (.sym (.xtended .pow)) [x, .node (.int n) _] => some (x, n)
  | _ => none

/-- `sigPow`: produce `x^p` with `p:int`. -/
def sigPow (x : Tree) (p : ℤ) : Tree := .node (.sym (.xtended .pow)) [x, sigInt p]

/-- `class mterm`. -/
structure Mterm where
  /-- constant part of the term (usually 1 or -1) -/
  fCoef : Node
  /-- non constant terms and their power -/
  fFactors : List (Tree × ℤ)
deriving DecidableEq

namespace Mterm

/-- `mterm(int)`. -/
def ofInt (k : ℤ) : Mterm := ⟨.int k, []⟩

/-- `isNotZero`. -/
def isNotZero (m : Mterm) : Bool := !m.fCoef.isZero

/-- `isNegative`. -/
def isNegative (m : Mterm) : Bool := !m.fCoef.isGEZero

/-- `complexity`: the number of factors, weighted by the importance of these factors. -/
def complexity (m : Mterm) : Option ℤ :=
  m.fFactors.foldlM (fun c p => do return wrap32 (c + (1 + (← getSigOrder p.1)) * |p.2|))
    (if m.fCoef.isOne then 0 else 1)

/-- `cleanup`: remove `x**0` factors. -/
def cleanup (m : Mterm) : Mterm :=
  if m.fCoef.isZero then { m with fFactors := [] }
  else { m with fFactors := m.fFactors.filter fun p => p.2 ≠ 0 }

section
variable (before : Tree → Tree → Bool)

/-! ## Products and quotients -/

/-- `fFactors[f] += n`. -/
def addPower (f : Tree) (n : ℤ) (m : Mterm) : Mterm :=
  { m with fFactors := put before f (wrap32 ((find f m.fFactors).getD 0 + n)) m.fFactors }

/-- What `*=` and `/=` make of a tree that is not a product nor a quotient. -/
def scaleFactor (inv : Bool) (t : Tree) (m : Mterm) : Mterm :=
  if t.label.isNum then
    { m with fCoef :=
        if inv then Node.divExtendedNode wrap32 m.fCoef t.label
        else Node.mulNode wrap32 m.fCoef t.label }
  else match isSigPow t with
    | some (x, n) => addPower before x (if inv then -n else n) m
    | none => addPower before t (if inv then -1 else 1) m

/-- Multiply or divide by an expression tree, going down for multiplications and divisions. -/
def scale (inv : Bool) : Tree → Mterm → Mterm
  | .node (.sym .sigBinOp) [.node (.int op) br, x, y], m =>
    if op = BinOp.kMul.opcode then scale inv y (scale inv x m)
    else if op = BinOp.kDiv.opcode then scale (!inv) y (scale inv x m)
    else scaleFactor before inv (.node (.sym .sigBinOp) [.node (.int op) br, x, y]) m
  | t, m => scaleFactor before inv t m
termination_by structural t => t

/-- `operator *= (Tree)`. -/
def mulTree (m : Mterm) (t : Tree) : Mterm := scale before false t m

/-- `operator /= (Tree)`. -/
def divTree (m : Mterm) (t : Tree) : Mterm := scale before true t m

/-- `mterm(Tree)`. -/
def ofTree (t : Tree) : Mterm := (ofInt 1).mulTree before t

/-- `operator *= (const mterm&)`, and `operator *`. -/
def mul (m n : Mterm) : Mterm :=
  (n.fFactors.foldl (fun r p => addPower before p.1 p.2 r)
    { m with fCoef := Node.mulNode wrap32 m.fCoef n.fCoef }).cleanup

/-- `operator /= (const mterm&)`, and `operator /`. -/
def div (m n : Mterm) : Mterm :=
  (n.fFactors.foldl (fun r p => addPower before p.1 (-p.2) r)
    { m with fCoef := Node.divExtendedNode wrap32 m.fCoef n.fCoef }).cleanup

/-! ## Divisors -/

/-- `common`: the common quantity of two numbers. -/
def common (a b : ℤ) : ℤ :=
  if 0 < a ∧ 0 < b then min a b
  else if a < 0 ∧ b < 0 then max a b
  else 0

/-- The step of the loop of `gcd`, for a factor of the first term. -/
def gcdFactor (m2 : Mterm) (R : Mterm) (p1 : Tree × ℤ) : Mterm :=
  match find p1.1 m2.fFactors with
  | some v2 =>
    if common p1.2 v2 ≠ 0 then
      { R with fFactors := put before p1.1 (common p1.2 v2) R.fFactors }
    else R
  | none => R

/-- `gcd`: the greatest common divisor of two mterms (real gcd of the coefficients not needed). -/
def gcd (m1 m2 : Mterm) : Mterm :=
  m1.fFactors.foldl (gcdFactor before m2)
    (ofTree before (leaf (if m1.fCoef = m2.fCoef then m1.fCoef else .int 1)))

end

/-- `contains`: a/b > 0. -/
def contains (a b : ℤ) : Bool := b == 0 || decide (0 < a.tdiv b)

/-- `hasDivisor`. -/
def hasDivisor (m n : Mterm) : Bool :=
  n.fFactors.all fun p =>
    match find p.1 m.fFactors with
    | some u => contains u p.2
    | none => false

/-! ## Normal form -/

/-- `buildPowTerm`: `f**q` with `q>0`. -/
def buildPowTerm (f : Tree) (q : ℤ) : Option Tree :=
  if 0 < q then some (if 1 < q then sigPow f q else f) else none

/-- `combineMulLeft`: `R = R*A` or `R = A`. -/
def combineMulLeft (R : Option Tree) (A : Tree) : Tree :=
  match R with
  | some R => sigMul R A
  | none => A

/-- `combineDivLeft`: `R = R/A` or `R = 1/A`. -/
def combineDivLeft (R : Option Tree) (A : Tree) : Tree :=
  match R with
  | some R => sigDiv R A
  | none => sigDiv (sigReal 1) A

/-- `combineMulDiv`: `M = M * f**q` or `D = D * f**-q`. -/
def combineMulDiv (M D : Option Tree) (f : Tree) (q : ℤ) : Option (Option Tree × Option Tree) :=
  if 0 < q then do return (some (combineMulLeft M (← buildPowTerm f q)), D)
  else if q < 0 then do return (M, some (combineMulLeft D (← buildPowTerm f (wrap32 (-q)))))
  else none

/-- `A[order]` and `B[order]`: the product and the divisor of the factors of an order. -/
def groupOrder (order : ℕ) :
    List (Tree × ℤ) → Option Tree × Option Tree → Option (Option Tree × Option Tree)
  | [], AB => some AB
  | (f, q) :: l, AB =>
    if q = 0 then groupOrder order l AB
    else do
      if (← getSigOrder f) = order then
        groupOrder order l (← combineMulDiv AB.1 AB.2 f q)
      else groupOrder order l AB

/-- Combine an order with the orders below: `R[i] = A[i]/B[i]`. -/
def combineOrder (RR : Option Tree) : Option Tree × Option Tree → Option Tree
  | (some A, some B) => some (combineMulLeft RR (sigDiv A B))
  | (some A, none) => some (combineMulLeft RR A)
  | (none, some B) => some (combineDivLeft RR B)
  | (none, none) => RR

/-- The coefficient of a normal form that has factors. -/
def normalCoef (signatureMode negativeMode : Bool) (c : Node) : Option Tree :=
  if signatureMode then none
  else if negativeMode then
    if c.isMinusOne then none else some (leaf (Node.minusNode wrap32 c))
  else if c.isOne then none
  else some (leaf c)

/-- `normalizedTree`: a canonical expression of structure `((k*(v1/v2))*(c1/c2))*(s1/s2)`. In
signature mode the coefficient is omitted, in negative mode its sign is inverted. -/
def normalizedTree (signatureMode negativeMode : Bool) (m : Mterm) : Option Tree :=
  if m.fFactors.isEmpty || m.fCoef.isZero then
    some (if signatureMode then sigInt 1
      else if negativeMode then leaf (Node.minusNode wrap32 m.fCoef)
      else leaf m.fCoef)
  else do
    let AB0 ← groupOrder 0 m.fFactors (none, none)
    let AB1 ← groupOrder 1 m.fFactors (none, none)
    let AB2 ← groupOrder 2 m.fFactors (none, none)
    let AB3 ← groupOrder 3 m.fFactors (none, none)
    -- order 0 is empty, as it is the one of the numerical coefficient
    if AB0 = (none, none) then
      let RR :=
        [(normalCoef signatureMode negativeMode m.fCoef, none), AB1, AB2, AB3].foldl combineOrder none
      return RR.getD (sigInt 1)
    else none

/-- `signatureTree`. -/
def signatureTree (m : Mterm) : Option Tree := m.normalizedTree true false

/-! ## Sums of terms of the same signature -/

/-- `operator += (const mterm&)`. -/
def add (m n : Mterm) : Option Mterm :=
  if n.fCoef.isZero then some m.cleanup
  else if m.fCoef.isZero then some n.cleanup
  else do
    if (← m.signatureTree) = (← n.signatureTree) then
      return { m with fCoef := Node.addNode wrap32 m.fCoef n.fCoef : Mterm }.cleanup
    else none

/-- `operator -= (const mterm&)`. -/
def sub (m n : Mterm) : Option Mterm :=
  if n.fCoef.isZero then some m.cleanup
  else if m.fCoef.isZero then
    some { n with fCoef := Node.minusNode wrap32 n.fCoef : Mterm }.cleanup
  else do
    if (← m.signatureTree) = (← n.signatureTree) then
      return { m with fCoef := Node.subNode wrap32 m.fCoef n.fCoef : Mterm }.cleanup
    else none

end Mterm

end Faust
