import Faust.Tlib.Tree
import Mathlib.Data.Rat.Floor

/-!
# Arithmetic on nodes (`node.hh`)

The operations the compiler evaluates literals with. An operation on two `int` nodes is an
`int` operation, an operation on a `double` node is a `double` one. What an `int`
computation yields when its exact result does not fit is a parameter `wrap`: `wrap32` is
two's complement, the identity is exact arithmetic.
-/

namespace Faust

/-- Two's complement on 32 bits. -/
def wrap32 (i : ℤ) : ℤ := Int.bmod i (2 ^ 32)

/-- The values of the type `int`. -/
def IsInt32 (i : ℤ) : Prop := -2 ^ 31 ≤ i ∧ i < 2 ^ 31

instance (i : ℤ) : Decidable (IsInt32 i) := by unfold IsInt32; infer_instance

theorem wrap32_of_isInt32 {i : ℤ} (h : IsInt32 i) : wrap32 i = i := by
  obtain ⟨h₁, h₂⟩ := h
  exact Int.bmod_eq_of_le (by omega) (by omega)

/-- The conversion of a `double` to `int`: truncation towards zero. -/
def truncInt (x : ℚ) : ℤ := if 0 ≤ x then ⌊x⌋ else ⌈x⌉

/-- The operators of `gBinOpTable`, in the order of their opcodes. -/
inductive BinOp
  | kAdd | kSub | kMul | kDiv | kRem
  | kLsh | kRsh
  | kGT | kLT | kGE | kLE | kEQ | kNE
  | kAND | kOR | kXOR
deriving DecidableEq, Repr

/-- The opcode of an operator. -/
def BinOp.opcode : BinOp → ℕ
  | kAdd => 0 | kSub => 1 | kMul => 2 | kDiv => 3 | kRem => 4
  | kLsh => 5 | kRsh => 6
  | kGT => 7 | kLT => 8 | kGE => 9 | kLE => 10 | kEQ => 11 | kNE => 12
  | kAND => 13 | kOR => 14 | kXOR => 15

/-- `gBinOpTable`. -/
def gBinOpTable : List BinOp :=
  [.kAdd, .kSub, .kMul, .kDiv, .kRem, .kLsh, .kRsh, .kGT, .kLT, .kGE, .kLE, .kEQ, .kNE,
    .kAND, .kOR, .kXOR]

/-- An operator is at the index of its opcode. -/
theorem gBinOpTable_opcode (op : BinOp) : gBinOpTable[op.opcode]? = some op := by
  cases op <;> rfl

namespace Node

/-! ## Conversions and predicates -/

/-- `isInt(n)`. -/
def isInt : Node → Bool
  | .int _ => true
  | _ => false

/-- `isDouble(n)`. -/
def isDouble : Node → Bool
  | .double _ => true
  | _ => false

/-- `isNum(n)`. -/
def isNum (n : Node) : Bool := n.isInt || n.isDouble

/-- `operator int()`. -/
def toInt (wrap : ℤ → ℤ) : Node → ℤ
  | .int i => i
  | .double x => wrap (truncInt x)
  | _ => 0

/-- `operator double()`. -/
def toDouble : Node → ℚ
  | .int i => i
  | .double x => x
  | _ => 0

/-- `isZero(n)`. -/
def isZero (n : Node) : Bool := n.isNum && n.toDouble == 0

/-- `isGEZero(n)`. -/
def isGEZero (n : Node) : Bool := n.isNum && decide (0 ≤ n.toDouble)

/-- `isGTZero(n)`. -/
def isGTZero (n : Node) : Bool := n.isNum && decide (0 < n.toDouble)

/-- `isOne(n)`. -/
def isOne (n : Node) : Bool := n.isNum && n.toDouble == 1

/-- `isMinusOne(n)`. -/
def isMinusOne (n : Node) : Bool := n.isNum && n.toDouble == -1

@[simp] theorem toDouble_int (i : ℤ) : (Node.int i).toDouble = i := rfl

@[simp] theorem toDouble_double (x : ℚ) : (Node.double x).toDouble = x := rfl

@[simp] theorem toInt_int (wrap : ℤ → ℤ) (i : ℤ) : (Node.int i).toInt wrap = i := rfl

/-! ## Operations -/

section
variable (wrap : ℤ → ℤ)

/-- An operation done on `double` as soon as one of its operands is. -/
def arith (f : ℤ → ℤ → ℤ) (g : ℚ → ℚ → ℚ) (x y : Node) : Node :=
  if x.isDouble || y.isDouble then .double (g x.toDouble y.toDouble)
  else .int (wrap (f (x.toInt wrap) (y.toInt wrap)))

/-- `addNode`. -/
def addNode (x y : Node) : Node := arith wrap (· + ·) (· + ·) x y

/-- `subNode`. -/
def subNode (x y : Node) : Node := arith wrap (· - ·) (· - ·) x y

/-- `mulNode`. -/
def mulNode (x y : Node) : Node := arith wrap (· * ·) (· * ·) x y

/-- `divExtendedNode`: the quotient of two `int` is an `int` when it is exact. -/
def divExtendedNode (x y : Node) : Node :=
  if x.isDouble || y.isDouble then .double (x.toDouble / y.toDouble)
  else
    let q := wrap ((x.toInt wrap).tdiv (y.toInt wrap))
    if (q : ℚ) = x.toDouble / y.toDouble then .int q
    else .double (x.toDouble / y.toDouble)

/-- `remNode`. -/
def remNode (x y : Node) : Node := .int (wrap ((x.toInt wrap).tmod (y.toInt wrap)))

/-- `minusNode`. -/
def minusNode (x : Node) : Node := subNode wrap (.int 0) x

/-- `inverseNode`. -/
def inverseNode (x : Node) : Node := divExtendedNode wrap (.double 1) x

/-- An operation on the bits of two `int`. -/
def bitwise (f : BitVec 32 → BitVec 32 → BitVec 32) (x y : Node) : Node :=
  .int (f (.ofInt 32 (x.toInt wrap)) (.ofInt 32 (y.toInt wrap))).toInt

/-- `lshNode`. -/
def lshNode (x y : Node) : Node := bitwise wrap (fun a b => a <<< b.toNat) x y

/-- `rshNode`. -/
def rshNode (x y : Node) : Node := bitwise wrap (fun a b => a.sshiftRight b.toNat) x y

/-- `andNode`. -/
def andNode (x y : Node) : Node := bitwise wrap (· &&& ·) x y

/-- `orNode`. -/
def orNode (x y : Node) : Node := bitwise wrap (· ||| ·) x y

/-- `xorNode`. -/
def xorNode (x y : Node) : Node := bitwise wrap (· ^^^ ·) x y

/-- A comparison, done on `double` as soon as one of its operands is. -/
def compare (f : ℤ → ℤ → Bool) (g : ℚ → ℚ → Bool) (x y : Node) : Node :=
  .int (if x.isDouble || y.isDouble then (g x.toDouble y.toDouble).toNat
    else (f (x.toInt wrap) (y.toInt wrap)).toNat)

/-- `gtNode`. -/
def gtNode (x y : Node) : Node := compare wrap (· > ·) (· > ·) x y

/-- `ltNode`. -/
def ltNode (x y : Node) : Node := compare wrap (· < ·) (· < ·) x y

/-- `geNode`. -/
def geNode (x y : Node) : Node := compare wrap (· ≥ ·) (· ≥ ·) x y

/-- `leNode`. -/
def leNode (x y : Node) : Node := compare wrap (· ≤ ·) (· ≤ ·) x y

/-- `eqNode`. -/
def eqNode (x y : Node) : Node := compare wrap (· == ·) (· == ·) x y

/-- `neNode`. -/
def neNode (x y : Node) : Node := compare wrap (· != ·) (· != ·) x y

/-! What the primitives `min`, `max` and `abs` make of literals (`computeSigOutput`). -/

/-- `min` of two literals. -/
def minNode (x y : Node) : Node := arith wrap min min x y

/-- `max` of two literals. -/
def maxNode (x y : Node) : Node := arith wrap max max x y

/-- `abs` of a literal. -/
def absNode (x : Node) : Node :=
  if x.isDouble then .double |x.toDouble| else .int (wrap |x.toInt wrap|)

end

end Node

/-- `BinOp::compute`. -/
def BinOp.compute (wrap : ℤ → ℤ) : BinOp → Node → Node → Node
  | kAdd => Node.addNode wrap
  | kSub => Node.subNode wrap
  | kMul => Node.mulNode wrap
  | kDiv => Node.divExtendedNode wrap
  | kRem => Node.remNode wrap
  | kLsh => Node.lshNode wrap
  | kRsh => Node.rshNode wrap
  | kGT => Node.gtNode wrap
  | kLT => Node.ltNode wrap
  | kGE => Node.geNode wrap
  | kLE => Node.leNode wrap
  | kEQ => Node.eqNode wrap
  | kNE => Node.neNode wrap
  | kAND => Node.andNode wrap
  | kOR => Node.orNode wrap
  | kXOR => Node.xorNode wrap

end Faust
