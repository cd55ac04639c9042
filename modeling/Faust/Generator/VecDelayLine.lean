import Faust.Generator.DelayLine

/-!
# Delay lines of the vector compiler (`dag_instructions_compiler.cpp`)

In vector mode the samples of a call are computed in blocks of `gVecSize`, each by the loops of
the dag, one after the other. A line is filled by one of them and read by this loop or by later
ones, so that it holds a block of samples and the `mxd` samples before. A short line is an array
on the stack, whose last samples are kept in a permanent array between blocks; a long line is a
ring, whose index is where the block starts.

The sections of the loop that fills a line are the ones of `InstructionsCompiler`.
-/

namespace Faust.Fir

namespace InstBuilder

/-- `genStoreStackVar`. -/
def genStoreStackVar (vname : String) (exp : ValueInst) : StatementInst :=
  .storeVar ⟨vname, .kStack⟩ exp

end InstBuilder

open InstBuilder

namespace DAGInstructionsCompiler

/-! ## Arrays -/

/-- The loop that `generateCopyArray(vname_to, vname_from, size)` returns. -/
def copyLoop (index vname_to vname_from : String) (size : ℕ) : StatementInst :=
  genCountLoop index (.intNum size)
    [genStoreArrayStackVar vname_to (genLoadLoopVar index)
      (genLoadArrayStructVar vname_from (genLoadLoopVar index))]

/-- `generateCopyArray(vname_to, vname_from, size)`. -/
def generateCopyArray (vname_to vname_from : String) (size : ℕ) (c : InstructionsCompiler) :
    StatementInst × InstructionsCompiler :=
  (copyLoop (c.freshID "j") vname_to vname_from size, c.countID "j")

/-- `generateCopyBackArray`. -/
def generateCopyBackArray (vname_to vname_from : String) (size : ℕ) : StatementInst :=
  genCountLoop "j" (.intNum size)
    [genStoreArrayStructVar vname_to (genLoadLoopVar "j")
      (genLoadArrayStackVar vname_from (genAdd (genLoadStackVar "count") (genLoadLoopVar "j")))]

/-! ## Delay lines -/

/-- `getCurrentLoopIndex`. -/
def getCurrentLoopIndex : ValueInst := genLoadLoopVar "i"

/-- `(delay + 3) & -4`, on `int`. -/
def roundDelay (delay : ℕ) : Option ℕ :=
  if delay + 3 < 2 ^ 31 then some (BitVec.ofNat 32 (delay + 3) &&& -4).toNat else none

/-- The sum of two sizes, on `int`. -/
def addSizes (a b : ℕ) : Option ℕ := if a + b < 2 ^ 31 then some (a + b) else none

/-- `generateVectorLoop`. -/
def generateVectorLoop (gVecSize : ℕ) (ctype : VarType) (vname : String) (exp : ValueInst)
    (c : InstructionsCompiler) : InstructionsCompiler :=
  (c.pushComputeBlockMethod (genDecStackVar vname (.array ctype gVecSize) none))
    |>.pushComputeDSPMethod (genStoreArrayStackVar vname getCurrentLoopIndex exp)

/-- `generateDlineLoop`. -/
def generateDlineLoop (gMaxCopyDelay : ℤ) (gVecSize : ℕ) (ctype : VarType) (vname : String)
    (delay : ℕ) (exp : ValueInst) (c : InstructionsCompiler) : Option InstructionsCompiler :=
  if delay < gMaxCopyDelay then do
    let buf := vname ++ "_tmp"
    let pmem := vname ++ "_perm"
    let delay ← roundDelay delay
    let (init, c) := generateInitArray pmem ctype delay c
    let c := c.pushInitMethod init
    let size ← addSizes gVecSize delay
    let c := c.pushComputeBlockMethod (genDecStackVar buf (.array ctype size) none)
    let address := genLoadArrayStackVarAddress buf (.intNum delay)
    let c := c.pushComputeBlockMethod (genDecStackVar vname (.array ctype 0) (some address))
    let (copy, c) := generateCopyArray buf pmem delay c
    let c := c.pushComputePreDSPMethod copy
    let c := c.pushComputeDSPMethod (genStoreArrayStackVar vname getCurrentLoopIndex exp)
    return c.pushComputePostDSPMethod (generateCopyBackArray pmem buf delay)
  else do
    let delay ← pow2limit (← addSizes delay gVecSize)
    let idx := vname ++ "_idx"
    let idx_save := vname ++ "_idx_save"
    let (init, c) := generateInitArray vname ctype delay c
    let c := c.pushInitMethod init
    let c := c.pushDeclare (genDecStructVar idx (.basic .kInt) none)
    let c := c.pushDeclare (genDecStructVar idx_save (.basic .kInt) none)
    let c := c.pushInitMethod (genStoreStructVar idx (.intNum 0))
    let c := c.pushInitMethod (genStoreStructVar idx_save (.intNum 0))
    let index1 := genAdd (genLoadStructVar idx) (genLoadStructVar idx_save)
    let index2 := genAnd index1 (.intNum (delay - 1))
    let c := c.pushComputePreDSPMethod (genStoreStructVar idx index2)
    let index3 := genAdd getCurrentLoopIndex (genLoadStructVar idx)
    let index4 := genAnd index3 (.intNum (delay - 1))
    let c := c.pushComputeDSPMethod (genStoreArrayStructVar vname index4 exp)
    return c.pushComputePostDSPMethod (genStoreStructVar idx_save (genLoadStackVar "count"))

/-- `generateDelayLine`. -/
def generateDelayLine (gMaxCopyDelay : ℤ) (gVecSize : ℕ) (exp : ValueInst) (ctype : VarType)
    (vname : String) (mxd : ℕ) (c : InstructionsCompiler) : Option InstructionsCompiler :=
  if mxd = 0 then some (generateVectorLoop gVecSize ctype vname exp c)
  else generateDlineLoop gMaxCopyDelay gVecSize ctype vname mxd exp c

/-- The amount of a delay: a literal, or the code of any other signal. -/
inductive Delay
  | sigInt (d : ℤ)
  | code (v : ValueInst)

/-- The code of the amount. -/
def Delay.value : Delay → ValueInst
  | .sigInt d => .intNum d
  | .code v => v

/-- `generateFixDelay`, for a signal that is stored in `vname`. -/
def generateFixDelay (gMaxCopyDelay : ℤ) (gVecSize : ℕ) (vname : String) (mxd : ℕ)
    (delay : Delay) : Option ValueInst :=
  if mxd = 0 then some (genLoadArrayStackVar vname getCurrentLoopIndex)
  else if mxd < gMaxCopyDelay then
    match delay with
    | .sigInt d =>
      if d = 0 then some (genLoadArrayStackVar vname getCurrentLoopIndex)
      else some (genLoadArrayStackVar vname (genSub getCurrentLoopIndex (.intNum d)))
    | .code v => some (genLoadArrayStackVar vname (genSub getCurrentLoopIndex v))
  else do
    let n ← pow2limit (← addSizes mxd gVecSize)
    let index1 := genAdd getCurrentLoopIndex (genLoadStructVar (vname ++ "_idx"))
    match delay with
    | .sigInt d =>
      if d = 0 then return genLoadArrayStructVar vname (genAnd index1 (.intNum (n - 1)))
      else
        let index2 := genSub index1 (.intNum d)
        return genLoadArrayStructVar vname (genAnd index2 (.intNum (n - 1)))
    | .code v =>
      let index2 := genSub index1 v
      return genLoadArrayStructVar vname (genAnd index2 (.intNum (n - 1)))

/-! ## Waveforms -/

/-- The index of a waveform, as `declareWaveform` declares and initialises it. -/
def declareWaveform (vname : String) (c : InstructionsCompiler) : InstructionsCompiler :=
  let idx := vname ++ "_idx"
  (c.pushDeclare (genDecStructVar idx (.basic .kInt) none)).pushInitMethod
    (genStoreStructVar idx (.intNum 0))

/-- `generateWaveform`, with the index of the value that it loads. -/
def generateWaveform (vname : String) (size : ℕ) (c : InstructionsCompiler) :
    ValueInst × InstructionsCompiler :=
  let c := declareWaveform vname c
  let idx := vname ++ "_idx"
  let index1 := genRem (genAdd (genLoadStructVar idx) (genLoadStackVar "count")) (.intNum size)
  let c := c.pushComputePostDSPMethod (genStoreStructVar idx index1)
  (genRem (genAdd (genLoadStructVar idx) getCurrentLoopIndex) (.intNum size), c)

end DAGInstructionsCompiler

/-! ## The loops of a block (`code_loop.cpp`, `code_container.cpp`) -/

/-- The sections of a loop of the dag. -/
structure DAGLoop where
  fPreInst : List StatementInst
  fComputeInst : List StatementInst
  fPostInst : List StatementInst

/-- `CodeLoop::generateDAGScalarLoop`, without the extra loops. -/
def DAGLoop.generateDAGScalarLoop (l : DAGLoop) : List StatementInst :=
  l.fPreInst ++
    (if l.fComputeInst.isEmpty then []
      else [genCountLoop "i" (genLoadStackVar "count") l.fComputeInst]) ++ l.fPostInst

/-- `CodeContainer::generateDAGLoop`, for the loops in the order of execution. -/
def generateDAGLoop (loops : List DAGLoop) : List StatementInst :=
  loops.flatMap DAGLoop.generateDAGScalarLoop

/-! ## The loop on blocks (`vec_code_container.cpp`) -/

/-- The values of `gVectorLoopVariant`. -/
inductive VectorLoopVariant
  | variant0 | variant1
deriving DecidableEq, Repr

/-- The code of a block: the access to the inputs and outputs, the number of samples, the
loops. -/
def blockCode (locals : List StatementInst) (count : ValueInst) (dag : List StatementInst) :
    List StatementInst :=
  locals ++ genDecStackVar "count" (.basic .kInt) (some count) :: dag

/-- `fullcount - index`, with the access of the index. -/
def remaining (index : ValueInst) : ValueInst := genSub (genLoadFunArgsVar "fullcount") index

/-- `generateDAGLoopVariant0`. -/
def generateDAGLoopVariant0 (gVecSize : ℕ) (locals dag : List StatementInst) : StatementInst :=
  .block
    [genDecStackVar "index" (.basic .kInt) none,
      .forLoop (genStoreStackVar "index" (.intNum 0))
        (genLessEqual (genLoadStackVar "index")
          (genSub (genLoadFunArgsVar "fullcount") (.intNum gVecSize)))
        (genStoreStackVar "index" (genAdd (genLoadStackVar "index") (.intNum gVecSize)))
        (blockCode locals (.intNum gVecSize) dag),
      .ifInst (genLessThan (genLoadStackVar "index") (genLoadFunArgsVar "fullcount"))
        (blockCode locals (remaining (genLoadStackVar "index")) dag) []]

/-- `min(gVecSize, fullcount - index)`. -/
def minCount (gVecSize : ℕ) : ValueInst :=
  .funCall "min" [.intNum gVecSize, remaining (genLoadLoopVar "index")]

/-- `generateDAGLoopVariant1`. -/
def generateDAGLoopVariant1 (gVecSize : ℕ) (locals dag : List StatementInst) : StatementInst :=
  .forLoop (genDecLoopVar "index" (.basic .kInt) (some (.intNum 0)))
    (genLessThan (genLoadLoopVar "index") (genLoadFunArgsVar "fullcount"))
    (genStoreLoopVar "index" (genAdd (genLoadLoopVar "index") (.intNum gVecSize)))
    (blockCode locals (minCount gVecSize) dag)

/-- The loop on blocks. -/
def generateDAGLoopVariant (variant : VectorLoopVariant) (gVecSize : ℕ)
    (locals dag : List StatementInst) : StatementInst :=
  match variant with
  | .variant0 => generateDAGLoopVariant0 gVecSize locals dag
  | .variant1 => generateDAGLoopVariant1 gVecSize locals dag

end Faust.Fir
