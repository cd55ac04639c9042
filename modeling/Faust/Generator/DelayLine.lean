import Faust.Generator.InstSemantics

/-!
# Delay lines of the scalar compiler (`instructions_compiler.cpp`)

`generateDelayLine` stores a signal in an array, and `generateFixDelay` reads the array. Up to
`gMaxCopyDelay` samples the array is a register, shifted at the end of each sample; beyond, it
is a ring indexed by `IOTA`, which all rings share.

The compiler pushes statements on the sections of the code it generates. An operation on `int`
of the compiler itself is undefined when it overflows.
-/

namespace Faust.Fir

open InstBuilder

/-- The scalar compiler, with the sections of its container. -/
structure InstructionsCompiler where
  fLoadedIota : Bool
  gIDCounters : String → ℕ
  fDeclarationInstructions : List StatementInst
  fInitInstructions : List StatementInst
  fComputeBlockInstructions : List StatementInst
  fPreInst : List StatementInst
  fComputeInst : List StatementInst
  fPostInst : List StatementInst

namespace InstructionsCompiler

/-- The compiler before it compiles anything. -/
def start : InstructionsCompiler := ⟨false, fun _ => 0, [], [], [], [], [], []⟩

/-- `pushDeclare`. -/
def pushDeclare (s : StatementInst) (c : InstructionsCompiler) : InstructionsCompiler :=
  { c with fDeclarationInstructions := c.fDeclarationInstructions ++ [s] }

/-- `pushInitMethod`. -/
def pushInitMethod (s : StatementInst) (c : InstructionsCompiler) : InstructionsCompiler :=
  { c with fInitInstructions := c.fInitInstructions ++ [s] }

/-- `pushComputeBlockMethod`. -/
def pushComputeBlockMethod (s : StatementInst) (c : InstructionsCompiler) :
    InstructionsCompiler :=
  { c with fComputeBlockInstructions := c.fComputeBlockInstructions ++ [s] }

/-- `pushComputePreDSPMethod`. -/
def pushComputePreDSPMethod (s : StatementInst) (c : InstructionsCompiler) :
    InstructionsCompiler :=
  { c with fPreInst := c.fPreInst ++ [s] }

/-- `pushComputeDSPMethod`. -/
def pushComputeDSPMethod (s : StatementInst) (c : InstructionsCompiler) : InstructionsCompiler :=
  { c with fComputeInst := c.fComputeInst ++ [s] }

/-- `pushComputePostDSPMethod`. -/
def pushComputePostDSPMethod (s : StatementInst) (c : InstructionsCompiler) :
    InstructionsCompiler :=
  { c with fPostInst := c.fPostInst ++ [s] }

/-- The name `getFreshID(prefix)` returns. -/
def freshID (pre : String) (c : InstructionsCompiler) : String :=
  pre ++ toString (c.gIDCounters pre)

/-- The state `getFreshID(prefix)` leaves. -/
def countID (pre : String) (c : InstructionsCompiler) : InstructionsCompiler :=
  { c with gIDCounters := Function.update c.gIDCounters pre (c.gIDCounters pre + 1) }

end InstructionsCompiler

/-- The turns of `pow2limit`, from `n`. `int` overflows at `2 ^ 31`, which 31 turns reach. -/
def pow2limitFrom : ℕ → ℕ → ℕ → Option ℕ
  | 0, _, _ => none
  | turns + 1, n, x =>
    if n < x then
      if 2 * n < 2 ^ 31 then pow2limitFrom turns (2 * n) x else none
    else some n

/-- `pow2limit(x)`: the least power of two from 2 on that is not below `x`. -/
def pow2limit (x : ℕ) : Option ℕ := pow2limitFrom 31 2 x

/-! ## Arrays -/

/-- The loop that `generateInitArray` returns: it sets all elements to zero. -/
def initLoop (index vname : String) (ctype : VarType) (delay : ℕ) : StatementInst :=
  genCountLoop index (.intNum delay)
    [genStoreArrayStructVar vname (genLoadLoopVar index) (genTypedZero ctype)]

/-- `generateInitArray`. -/
def generateInitArray (vname : String) (ctype : VarType) (delay : ℕ) (c : InstructionsCompiler) :
    StatementInst × InstructionsCompiler :=
  (initLoop (c.freshID "i") vname ctype delay,
    (c.countID "i").pushDeclare (genDecStructVar vname (.array ctype delay) none))

/-- The loop of `generateShiftArray`: each element from `delay` down to 1 gets the value of the
one before it. -/
def shiftLoop (index vname : String) (delay : ℕ) : StatementInst :=
  .forLoop (genDecLoopVar index (.basic .kInt) (some (.intNum delay)))
    (genGreaterThan (genLoadLoopVar index) (.intNum 0))
    (genStoreLoopVar index (genSub (genLoadLoopVar index) (.intNum 1)))
    [genStoreArrayStructVar vname (genLoadLoopVar index)
      (genLoadArrayStructVar vname (genSub (genLoadLoopVar index) (.intNum 1)))]

/-- `generateShiftArray`. -/
def generateShiftArray (vname : String) (delay : ℕ) (c : InstructionsCompiler) :
    StatementInst × InstructionsCompiler :=
  (shiftLoop (c.freshID "j") vname delay, c.countID "j")

/-- `generateCopyArray` of one element. -/
def generateCopyArray (vname : String) (indexFrom indexTo : ℕ) : StatementInst :=
  genStoreArrayStructVar vname (.intNum indexTo) (genLoadArrayStructVar vname (.intNum indexFrom))

/-! ## Delay lines -/

/-- The declaration of `IOTA`. -/
def iotaDeclare : StatementInst := genDecStructVar "IOTA" (.basic .kInt) none

/-- The initialisation of `IOTA`. -/
def iotaInit : StatementInst := genStoreStructVar "IOTA" (.intNum 0)

/-- The increment of `IOTA` at the end of a sample. -/
def iotaPost : StatementInst :=
  genStoreStructVar "IOTA" (genAdd (genLoadStructVar "IOTA") (.intNum 1))

/-- `ensureIotaCode`. -/
def ensureIotaCode (c : InstructionsCompiler) : InstructionsCompiler :=
  if c.fLoadedIota then c
  else
    { c with fLoadedIota := true } |>.pushDeclare iotaDeclare |>.pushInitMethod iotaInit
      |>.pushComputePostDSPMethod iotaPost

/-- `generateDelayLine`: the value is the expression that is delayed. -/
def generateDelayLine (gMaxCopyDelay : ℤ) (exp : ValueInst) (ctype : VarType) (vname : String)
    (mxd : ℕ) (c : InstructionsCompiler) : Option (ValueInst × InstructionsCompiler) :=
  if mxd = 0 then
    some (exp, c.pushComputeDSPMethod (genDecStackVar vname (.basic ctype) (some exp)))
  else if mxd < gMaxCopyDelay then
    let (init, c) := generateInitArray vname ctype (mxd + 1) c
    let c := c.pushInitMethod init
    let c := c.pushComputeDSPMethod (genStoreArrayStructVar vname (.intNum 0) exp)
    if mxd = 1 then
      some (exp, c.pushComputePostDSPMethod (generateCopyArray vname 0 1))
    else if mxd = 2 then
      some (exp, (c.pushComputePostDSPMethod (generateCopyArray vname 1 2)).pushComputePostDSPMethod
        (generateCopyArray vname 0 1))
    else
      let (shift, c) := generateShiftArray vname mxd c
      some (exp, c.pushComputePostDSPMethod shift)
  else do
    let n ← pow2limit (mxd + 1)
    let c := ensureIotaCode c
    let (init, c) := generateInitArray vname ctype n c
    let c := c.pushInitMethod init
    let value2 := genAnd (genLoadStructVar "IOTA") (.intNum (n - 1))
    return (exp, c.pushComputeDSPMethod (genStoreArrayStructVar vname value2 exp))

/-- The value `generateFixDelay` returns for a signal stored in `vname`. -/
def generateFixDelay (gMaxCopyDelay : ℤ) (vname : String) (mxd : ℕ) (delay : ValueInst) :
    Option ValueInst :=
  if mxd = 0 then some (genLoadStackVar vname)
  else if mxd < gMaxCopyDelay then some (genLoadArrayStructVar vname delay)
  else do
    let n ← pow2limit (mxd + 1)
    let value2 := genSub (genLoadStructVar "IOTA") delay
    let value3 := genAnd value2 (.intNum (n - 1))
    return genLoadArrayStructVar vname value3

/-! ## Programs -/

/-- A statement that another part of the compiler pushes, on one of the sections. -/
inductive Push
  | declare (s : StatementInst)
  | init (s : StatementInst)
  | block (s : StatementInst)
  | pre (s : StatementInst)
  | compute (s : StatementInst)
  | post (s : StatementInst)

/-- The statement pushed. -/
def Push.statement : Push → StatementInst
  | .declare s | .init s | .block s | .pre s | .compute s | .post s => s

/-- The push. -/
def Push.run : Push → InstructionsCompiler → InstructionsCompiler
  | .declare s => (·.pushDeclare s)
  | .init s => (·.pushInitMethod s)
  | .block s => (·.pushComputeBlockMethod s)
  | .pre s => (·.pushComputePreDSPMethod s)
  | .compute s => (·.pushComputeDSPMethod s)
  | .post s => (·.pushComputePostDSPMethod s)

/-- The arguments of `generateDelayLine`. -/
structure DelayLine where
  exp : ValueInst
  ctype : VarType
  vname : String
  mxd : ℕ

/-- A step of the compilation: a delay line, or anything else. -/
inductive Action
  | line (l : DelayLine)
  | other (p : Push)

/-- The steps of a compilation. -/
def compileActions (gMaxCopyDelay : ℤ) : List Action → InstructionsCompiler →
    Option InstructionsCompiler
  | [], c => some c
  | .line l :: as, c => do
    let (_, c) ← generateDelayLine gMaxCopyDelay l.exp l.ctype l.vname l.mxd c
    compileActions gMaxCopyDelay as c
  | .other p :: as, c => compileActions gMaxCopyDelay as (p.run c)

/-- The code of `compute` for one sample: the body of `generateScalarLoop`. -/
def InstructionsCompiler.sample (c : InstructionsCompiler) : List StatementInst :=
  c.fPreInst ++ c.fComputeInst ++ c.fPostInst

/-- `generateScalarLoop(counter)`. -/
def generateScalarLoop (c : InstructionsCompiler) : StatementInst :=
  genCountLoop "i" (genLoadFunArgsVar "count") c.sample

/-- The code of `compute`. -/
def InstructionsCompiler.compute (c : InstructionsCompiler) : List StatementInst :=
  c.fComputeBlockInstructions ++ [generateScalarLoop c]

end Faust.Fir
