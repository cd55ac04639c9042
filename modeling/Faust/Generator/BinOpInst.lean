import Faust.Generator.InstSemantics
import Faust.Generator.TextInstructions
import Faust.Signals.AudioType

/-!
# Binary operations on literals

What `InstructionsCompiler::generateBinOp` makes of a binary operation, and the two readings
that `gBinOpTable` gives of the operator: the operator of C, and the LLVM instruction.
-/

namespace Faust

namespace Fir

/-- `isLogicalOpcode`. -/
def isLogicalOpcode : BinOp → Bool
  | .kAND | .kOR | .kXOR => true
  | _ => false

/-! ## The code of a binary operation -/

/-- `InstBuilder::genCastNumInst`. A cast of a literal is done at once. -/
def genCastNumInst (inst : ValueInst) (typed : VarType) : ValueInst :=
  match typed, inst with
  | .kFloat, .intNum i => .realNum .kFloat i
  | .kFloat, .realNum _ x => .realNum .kFloat x
  | .kDouble, .intNum i | .kQuad, .intNum i => .realNum .kDouble i
  | .kDouble, .realNum _ x | .kQuad, .realNum _ x => .realNum .kDouble x
  | .kInt, .intNum i => .intNum i
  | .kInt, .realNum _ x => .intNum (wrap32 (truncInt x))
  | _, _ => .castNum inst typed

section
variable (itfloat : VarType)

/-- `genBasicFIRTyped`. -/
def genBasicFIRTyped : Nature → VarType
  | .kInt => .kInt
  | .kReal => itfloat

/-- `promote2real`. -/
def promote2real (type : Nature) (val : ValueInst) : ValueInst :=
  if type = .kReal then val else genCastNumInst val itfloat

/-- `promote2int`. -/
def promote2int (type : Nature) (val : ValueInst) : ValueInst :=
  if type = .kInt then val else genCastNumInst val .kInt

/-- `generateBinOp`, given the natures and the code of the operands. -/
def generateBinOp (opcode : BinOp) (t1 t2 t3 : Nature) (v1 v2 : ValueInst) : ValueInst :=
  let res :=
    if isLogicalOpcode opcode then .binop opcode (promote2int t1 v1) (promote2int t2 v2)
    else if t1 = .kReal ∨ t2 = .kReal then
      .binop opcode (promote2real itfloat t1 v1) (promote2real itfloat t2 v2)
    else .binop opcode v1 v2
  genCastNumInst res (genBasicFIRTyped itfloat t3)

/-- `generateIntNumber` and `generateRealNumber`, of a literal that is not delayed. -/
def generateNumber : Node → ValueInst
  | .int i => .intNum i
  | .double x => InstBuilder.genRealNumInst itfloat x
  | _ => .null

end

/-! ## The instructions of LLVM -/

/-- The instructions and the predicates of the table. -/
inductive LlvmInst
  | add | fadd | sub | fsub | mul | fmul | sdiv | fdiv | srem | frem
  | shl | lshr
  | icmpSgt | fcmpOgt | icmpSlt | fcmpOlt | icmpSge | fcmpOge | icmpSle | fcmpOle
  | icmpEq | fcmpOeq | icmpNe | fcmpOne
  | and | or | xor
deriving DecidableEq, Repr

/-- The `fLlvmIntInst` of an entry of `gBinOpTable`. -/
def BinOp.fLlvmIntInst : BinOp → LlvmInst
  | .kAdd => .add
  | .kSub => .sub
  | .kMul => .mul
  | .kDiv => .sdiv
  | .kRem => .srem
  | .kLsh => .shl
  | .kRsh => .lshr
  | .kGT => .icmpSgt
  | .kLT => .icmpSlt
  | .kGE => .icmpSge
  | .kLE => .icmpSle
  | .kEQ => .icmpEq
  | .kNE => .icmpNe
  | .kAND => .and
  | .kOR => .or
  | .kXOR => .xor

/-- The `fLlvmFloatInst` of an entry of `gBinOpTable`. -/
def BinOp.fLlvmFloatInst : BinOp → LlvmInst
  | .kAdd => .fadd
  | .kSub => .fsub
  | .kMul => .fmul
  | .kDiv => .fdiv
  | .kRem => .frem
  | .kLsh => .shl
  | .kRsh => .lshr
  | .kGT => .fcmpOgt
  | .kLT => .fcmpOlt
  | .kGE => .fcmpOge
  | .kLE => .fcmpOle
  | .kEQ => .fcmpOeq
  | .kNE => .fcmpOne
  | .kAND => .and
  | .kOR => .or
  | .kXOR => .xor

namespace LlvmInst

/-- An instruction on words. Where LLVM has a poison value or no defined behaviour, there is no
value. -/
def createInt (inst : LlvmInst) (a b : BitVec 32) : Option (BitVec 32) :=
  match inst with
  | add => some (a + b)
  | sub => some (a - b)
  | mul => some (a * b)
  | sdiv => if b = 0 ∨ a = .intMin 32 ∧ b = -1 then none else some (a.sdiv b)
  | srem => if b = 0 ∨ a = .intMin 32 ∧ b = -1 then none else some (a.srem b)
  | shl => if b.toNat < 32 then some (a <<< b.toNat) else none
  | lshr => if b.toNat < 32 then some (a >>> b.toNat) else none
  | and => some (a &&& b)
  | or => some (a ||| b)
  | xor => some (a ^^^ b)
  | _ => none

/-- An instruction on reals. The instructions on bits do not take them. -/
def createFloat (inst : LlvmInst) (x y : ℚ) : Option ℚ :=
  match inst with
  | fadd => some (x + y)
  | fsub => some (x - y)
  | fmul => some (x * y)
  | fdiv => if y = 0 then none else some (x / y)
  | frem => if y = 0 then none else some (x - y * truncInt (x / y))
  | _ => none

/-- A comparison of words. -/
def createICmp (inst : LlvmInst) (a b : BitVec 32) : Option Bool :=
  match inst with
  | icmpSgt => some (b.slt a)
  | icmpSlt => some (a.slt b)
  | icmpSge => some (b.sle a)
  | icmpSle => some (a.sle b)
  | icmpEq => some (a == b)
  | icmpNe => some (a != b)
  | _ => none

/-- A comparison of reals. -/
def createFCmp (inst : LlvmInst) (x y : ℚ) : Option Bool :=
  match inst with
  | fcmpOgt => some (decide (y < x))
  | fcmpOlt => some (decide (x < y))
  | fcmpOge => some (decide (y ≤ x))
  | fcmpOle => some (decide (x ≤ y))
  | fcmpOeq => some (decide (x = y))
  | fcmpOne => some (decide (x ≠ y))
  | _ => none

end LlvmInst

/-- `generateBinopAux`: the two arguments have one type, and so has the result. -/
def generateBinopAux (opcode : BinOp) : Val → Val → Option Val
  | .int a, .int b =>
    if isBoolOpcode opcode then
      ((BinOp.fLlvmIntInst opcode).createICmp a b).map fun c => .int (if c then 1 else 0)
    else ((BinOp.fLlvmIntInst opcode).createInt a b).map .int
  | .real x, .real y =>
    if isBoolOpcode opcode then
      ((BinOp.fLlvmFloatInst opcode).createFCmp x y).map fun c => .real (if c then 1 else 0)
    else ((BinOp.fLlvmFloatInst opcode).createFloat x y).map .real
  | _, _ => none

/-- The value that LLVM computes for an expression on literals. -/
def ValueInst.evalLlvm : ValueInst → Option Val
  | .intNum n => some (.int (.ofInt 32 n))
  | .realNum _ x => some (.real x)
  | .binop op a b => do generateBinopAux op (← a.evalLlvm) (← b.evalLlvm)
  | .castNum a t => do Val.cast t (← a.evalLlvm)
  | _ => none

/-- How an entry of `gBinOpTable` is read. -/
inductive Reading
  | c | llvm
deriving DecidableEq, Repr

/-- The value of an expression on literals. -/
def Reading.eval : Reading → ValueInst → Option Val
  | .c, v => v.eval (fun _ _ => none) (fun _ => .undeclared)
  | .llvm, v => v.evalLlvm

end Fir

/-! ## Literals -/

namespace Node

/-- The literals that the compiler can hold. -/
def IsLiteral : Node → Prop
  | .int i => IsInt32 i
  | .double _ => True
  | _ => False

instance (n : Node) : Decidable n.IsLiteral := by
  cases n <;> (unfold IsLiteral; infer_instance)

/-- `infereSigType` of a literal. -/
def inferLiteralType (n : Node) : SimpleType :=
  ⟨if n.isDouble then .kReal else .kInt, kKonst, kComp, kVect, kNum, .point n.toDouble⟩

/-- The literal has this value and its nature. -/
def IsVal : Node → Fir.Val → Prop
  | .int i, .int b => b.toInt = i
  | .double x, .real y => y = x
  | _, _ => False

end Node

namespace Fir

/-- The value of the code that `generateBinOp` emits for an operation on two literals, with the
type that `infereSigType` gives to the operation. -/
def generatedVal (reading : Reading) (itfloat : VarType) (op : BinOp) (n1 n2 : Node) : Option Val :=
  match infereBinOpType op n1.inferLiteralType n2.inferLiteralType with
  | .error _ => none
  | .ok t => reading.eval (generateBinOp itfloat op n1.inferLiteralType.nature
      n2.inferLiteralType.nature t.nature (generateNumber itfloat n1) (generateNumber itfloat n2))

example : generatedVal .c .kFloat .kDiv (.int 7) (.int 2) = some (.real 3) := by decide

end Fir
end Faust
