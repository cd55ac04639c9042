import Faust.Generator.BinOpInst
import Faust.Normalize.Mterm

/-!
# The code of powers (`powprim.hh`, `CodeContainer::pushFunction`)

A power whose exponent is compiled to an integer literal is the call of an inline function, which
multiplies its argument. The other powers are calls of the function `pow` of the math library. The
conversions of the result that asm.js needs are left out.
-/

namespace Faust

namespace Fir

/-- `InstBuilder::genMul`. -/
def InstBuilder.genMul (a1 a2 : ValueInst) : ValueInst := .binop .kMul a1 a2

/-- `DeclareFunInst`: a prototype has no body, the body of the others is a `return`. -/
structure DeclareFunInst where
  fName : String
  fArgsTypes : List (String × VarType)
  fResult : VarType
  fCode : Option ValueInst

end Fir

namespace Power

open Faust.Fir Faust.Fir.InstBuilder

/-- `itfloat`, where `gFloatSize` is 1, 2 or 3. -/
def itfloat : ℕ → Option VarType
  | 1 => some .kFloat
  | 2 => some .kDouble
  | 3 => some .kQuad
  | _ => none

/-- `isuffix`. -/
def isuffix : ℕ → String
  | 1 => "f"
  | 3 => "l"
  | _ => ""

/-! ## `pushFunction` -/

/-- The loop of `pushFunction`, of `turns` turns. -/
def powerLoop (res : ValueInst) : ℕ → ValueInst
  | 0 => res
  | turns + 1 => powerLoop (genMul res (genLoadFunArgsVar "value")) turns

/-- The value that the function `faustpower` of an exponent returns. -/
def powerBody (fNum : ℤ) : ValueInst :=
  if fNum = 0 then .intNum 1 else powerLoop (genLoadFunArgsVar "value") (fNum - 1).toNat

/-- The name of the function `faustpower` of an exponent. -/
def faustPowerName (fNum : ℤ) (result : VarType) : String :=
  "faustpower" ++ toString fNum ++ if result = .kInt then "_i" else "_f"

/-- `pushFunction` of `faustpower`, for an exponent `fNum`. -/
def pushFaustPower (fNum : ℤ) (result type : VarType) (arg : ValueInst) :
    DeclareFunInst × ValueInst :=
  (⟨faustPowerName fNum result, [("value", type)], result, some (powerBody fNum)⟩,
    .funCall (faustPowerName fNum result) [arg])

/-- `pushFunction` of the other functions: a prototype and a call. -/
def pushFunction (name : String) (result : VarType) (types : List VarType)
    (args : List ValueInst) : DeclareFunInst × ValueInst :=
  (⟨name, types.zipIdx.map fun t => ("dummy" ++ toString t.2, t.1), result, none⟩,
    .funCall name args)

/-! ## `PowPrim` -/

/-- The nature of `PowPrim::infereSigType`. -/
def infereNature (t1 t2 : SimpleType) : Nature := t1.nature.join t2.nature

/-- The exponent of an inlined power: its signal is a constant integer that is known when the
program is compiled, and its code is a literal. -/
def inlinedExponent (type : SimpleType) (arg : ValueInst) : Option ℤ :=
  match arg with
  | .intNum fNum =>
    if type.nature = .kInt ∧ type.variability = kKonst ∧ type.computability = kComp then some fNum
    else none
  | _ => none

/-- `PowPrim::generateCode`, of two arguments. -/
def generateCode (gFloatSize : ℕ) (ctype : VarType) (arg1 arg2 : ValueInst) (result : Nature)
    (t1 t2 : SimpleType) : DeclareFunInst × ValueInst :=
  let resultType := genBasicFIRTyped ctype result
  match inlinedExponent t2 arg2 with
  | some fNum => pushFaustPower fNum resultType (genBasicFIRTyped ctype t1.nature) arg1
  | none =>
    pushFunction ("pow" ++ isuffix gFloatSize) resultType [ctype, ctype]
      [promote2real ctype t1.nature arg1, promote2real ctype t2.nature arg2]

/-- A power of any exponent. -/
def powOf (x y : Tree) : Tree := .node (.sym (.xtended .pow)) [x, y]

/-- `generateXtended`, of a power of operands of these types. -/
def generatePower (gFloatSize : ℕ) (ctype : VarType) (t1 t2 : SimpleType)
    (arg1 arg2 : ValueInst) : DeclareFunInst × ValueInst :=
  generateCode gFloatSize ctype arg1 arg2 (infereNature t1 t2) t1 t2

/-! ## The meaning of an inline function -/

/-- The value of a call of a function with a body: the argument and the result are converted to
the types of the function. -/
def callFunction (ext : ExternFun) (f : DeclareFunInst) (arg : Val) : Option Val :=
  match f.fArgsTypes, f.fCode with
  | [(param, type)], some body => do
    let value ← Val.cast type arg
    let memory : Memory := fun name => if name = param then .scalar (some value) else .undeclared
    Val.cast f.fResult (← body.eval ext memory)
  | _, _ => none

/-- The second value is the first one raised to an exponent, where integers wrap. -/
def IsPower (n : ℤ) : Val → Val → Prop
  | .int a, .int b =>
    if 0 ≤ n then b = .ofInt 32 (a.toInt ^ n.toNat) else (b.toInt : ℚ) = (a.toInt : ℚ) ^ n
  | .real x, .real y => y = x ^ n
  | _, _ => False

/-- The values of a type. -/
def HasType : VarType → Val → Prop
  | .kInt, .int _ => True
  | .kInt, .real _ => False
  | _, .int _ => False
  | _, .real _ => True

/-- A function raises the values of its argument to an exponent, where this power is defined. -/
def Raises (ext : ExternFun) (f : DeclareFunInst) (n : ℤ) : Prop :=
  ∀ param type, f.fArgsTypes = [(param, type)] → ∀ v, HasType type v → (0 ≤ n ∨ v.truth = true) →
    ∃ w, callFunction ext f v = some w ∧ IsPower n v w

end Power

end Faust
