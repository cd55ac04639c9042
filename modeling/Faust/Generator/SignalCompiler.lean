import Faust.Generator.Occurences
import Faust.Generator.VecDelayLine

/-!
# The compilation of signals (`instructions_compiler.cpp`, `dag_instructions_compiler.cpp`)

`CS` compiles a signal once and keeps its code. A signal that is used delayed is put in a vector,
whose name is a property of the signal, and `generateFixDelay` reads the vector. It is the function
that compiles a signal of some kind that has to give it a vector, with `generateCacheCode`.

What a kind of signal computes out of the code of its operands, and which statements it pushes for
that, is a parameter. The loops of the vector compiler, in which the code is put, are left out.
-/

namespace Faust.Codegen

open Faust.Tree Faust.Fir Faust.Fir.InstBuilder
open Faust.Occ hiding isSigGen

/-! ## The compiler -/

/-- Why a compilation fails. -/
inductive Failure
  /-- `No vector name for`. -/
  | noVectorName (exp : Tree)
  /-- `Error in sharing count`. -/
  | sharingCount (sig : Tree)
  /-- `unrecognized signal`. -/
  | unrecognizedSignal
  /-- `is not an integer expression`. -/
  | notAnInteger (tsize : Tree)
  /-- `assert` and `ensure`. -/
  | assertion
  /-- A signal without occurrences. -/
  | noOccurences
  /-- `int` overflows in the compiler. -/
  | overflow
  | analysis (f : Occ.Failure)
  | outOfFuel
deriving DecidableEq

/-- The options of the compiler, and what the compilation of one kind of signal does beside the
compilation of the operands. -/
structure Options where
  gMaxCopyDelay : ℤ
  gVecSize : ℕ
  gInPlace : Bool
  itfloat : VarType
  /-- The expression for a signal, out of the code of its operands. -/
  build : Tree → List ValueInst → InstructionsCompiler → ValueInst × InstructionsCompiler

/-- What a compiler works with: the options, whether it is the vector compiler, the annotated
graph, and how the content of a table is compiled. -/
structure Context extends Options where
  vectorMode : Bool
  graph : Graph
  marks : Marks
  sharing : Sharing
  signal2Container : Tree → Except Failure Unit

/-- The state of a compiler: the code and the properties of the signals. -/
structure Compiler where
  code : InstructionsCompiler
  fCompileProperty : Tree → Option ValueInst
  fVectorProperty : Tree → Option String

/-- The compiler before it compiles anything. -/
def Compiler.start : Compiler := ⟨.start, fun _ => none, fun _ => none⟩

/-- Computations of the compiler. -/
abbrev M := StateT Compiler (Except Failure)

/-- `getCompiledExpression`. -/
def getCompiledExpression (sig : Tree) : M (Option ValueInst) :=
  return (← get).fCompileProperty sig

/-- `setCompiledExpression`. -/
def setCompiledExpression (sig : Tree) (cexp : ValueInst) : M Unit :=
  modify fun σ => { σ with fCompileProperty := Function.update σ.fCompileProperty sig (some cexp) }

/-- `getVectorNameProperty`. -/
def getVectorNameProperty (sig : Tree) : M (Option String) := return (← get).fVectorProperty sig

/-- `setVectorNameProperty`. -/
def setVectorNameProperty (sig : Tree) (vname : String) : M Unit :=
  modify fun σ => { σ with fVectorProperty := Function.update σ.fVectorProperty sig (some vname) }

/-- A statement is pushed. -/
def push (p : Push) : M Unit := modify fun σ => { σ with code := p.run σ.code }

/-- `getFreshID`. -/
def getFreshID (pre : String) : M String :=
  modifyGet fun σ => (σ.code.freshID pre, { σ with code := σ.code.countID pre })

/-- A step that may overflow. -/
def orOverflow {α : Type} (x : Option α) : M α :=
  match x with
  | some a => return a
  | none => throw .overflow

/-- The code of a signal, which is generated when it has none. -/
def compileOnce (sig : Tree) (generate : M ValueInst) : M ValueInst := do
  match ← getCompiledExpression sig with
  | some code => return code
  | none =>
    let code ← generate
    setCompiledExpression sig code
    return code

/-! ## Shapes of signals -/

namespace Shape

/-- `isSigInt`. -/
def isSigInt : Tree → Option ℤ
  | .node (.int i) _ => some i
  | _ => none

/-- `isSigTable`: the size and the content. -/
def isSigTable : Tree → Option (Tree × Tree)
  | .node (.sym .sigTable) [_, size, content] => some (size, content)
  | _ => none

/-- `isSigGen`: the content. -/
def isSigGen : Tree → Option Tree
  | .node (.sym .sigGen) [x] => some x
  | _ => none

/-- `verySimple`. -/
def verySimple : Tree → Bool
  | .node (.int _) _ | .node (.double _) _ => true
  | .node (.sym .sigInput) [.node (.int _) _] => true
  | .node (.sym .sigFConst) [_, _, _] => true
  | _ => false

/-- `ffarity`, from the length of `ffsignature`. -/
def ffarity : Tree → ℕ
  | .node _ (signature :: _) => (listElements signature).length - 2
  | _ => 0

end Shape

open Shape

/-- The function that `generateCode` calls for a signal, with the signals below. -/
inductive Call
  /-- The operands are compiled, and `generateCacheCode` is called on the expression: extended
  primitives, operators, casts, foreign functions and variables, selectors, waveforms and the
  elements of the interface. -/
  | generateCached (operands : List Tree)
  /-- `generateIntNumber`, `generateRealNumber` and `generateFConst`. -/
  | generateNumber
  | generateInput
  | generateFixDelay (x y : Tree)
  | generatePrefix (x y : Tree)
  | generateIota
  | generateTable (tsize content : Tree)
  | generateWRTbl (tbl idx data : Tree)
  | generateRDTbl (tbl idx : Tree)
  | generateSigGen (content : Tree)
  | generateRecProj (i : ℕ) (r : Tree)
  /-- `CS(y)`, then `generateCacheCode` on `CS(x)`. -/
  | generateAttach (x y : Tree)
deriving DecidableEq

/-- The dispatch of `generateCode`. No call is for a signal that is not recognized. -/
def dispatch : Tree → Option Call
  | .node (.sym (.xtended _)) br => some (.generateCached br)
  | .node (.int _) _ | .node (.double _) _ => some .generateNumber
  | .node (.sym .sigWaveform) _ => some (.generateCached [])
  | .node (.sym .sigInput) [.node (.int _) _] => some .generateInput
  | .node (.sym .sigFixDelay) [x, y] => some (.generateFixDelay x y)
  | .node (.sym .sigPrefix) [x, y] => some (.generatePrefix x y)
  | .node (.sym .sigIota) [_] => some .generateIota
  | .node (.sym .sigBinOp) [.node (.int _) _, x, y] => some (.generateCached [x, y])
  | .node (.sym .sigFFun) [ff, largs] =>
    some (.generateCached ((listElements largs).take (ffarity ff)))
  | .node (.sym .sigFConst) [_, _, _] => some .generateNumber
  | .node (.sym .sigFVar) [_, _, _] => some (.generateCached [])
  | .node (.sym .sigTable) [_, x, y] => some (.generateTable x y)
  | .node (.sym .sigWRTbl) [_, x, y, z] => some (.generateWRTbl x y z)
  | .node (.sym .sigRDTbl) [x, y] => some (.generateRDTbl x y)
  | .node (.sym .sigSelect2) [sel, x, y] => some (.generateCached [sel, x, y])
  | .node (.sym .sigGen) [x] => some (.generateSigGen x)
  | .node (.sym .sigProj) [.node (.int i) _, x] => some (.generateRecProj i.toNat x)
  | .node (.sym .sigIntCast) [x] | .node (.sym .sigFloatCast) [x] => some (.generateCached [x])
  | .node (.sym .sigButton) [_] | .node (.sym .sigCheckbox) [_] => some (.generateCached [])
  | .node (.sym .sigVSlider) [_, _] | .node (.sym .sigHSlider) [_, _]
  | .node (.sym .sigNumEntry) [_, _] => some (.generateCached [])
  | .node (.sym .sigVBargraph) [_, _, _, z] | .node (.sym .sigHBargraph) [_, _, _, z] =>
    some (.generateCached [z])
  | .node (.sym .sigAttach) [x, y] => some (.generateAttach x y)
  | _ => none

/-- `isRec`: the definitions of a recursive group. -/
def isRec (g : Graph) : Tree → Option (List Tree)
  | .node (.sym .symRec) [v] =>
    (g.recDefs.find? fun d => d.1 = .node (.sym .symRec) [v]).map fun d => listElements d.2
  | _ => none

/-! ## Vectors -/

section
variable (ctx : Context)

/-- `getMaxDelay` of the occurrences of a signal. -/
def getMaxDelay (sig : Tree) : M ℕ :=
  match ctx.marks sig with
  | some o => return o.getMaxDelay.toNat
  | none => throw .noOccurences

/-- `getTypedNames`. -/
def getTypedNames (sig : Tree) (pre : String) : M (VarType × String) := do
  let id ← getFreshID pre
  if (ctx.graph.getCertifiedSigType sig).fields.nature = .kInt then return (.kInt, "i" ++ id)
  else return (ctx.itfloat, "f" ++ id)

/-- `generateDelayLine`, of the scalar or of the vector compiler. -/
def generateDelayLine (exp : ValueInst) (ctype : VarType) (vname : String) (mxd : ℕ) :
    M ValueInst := do
  let c := (← get).code
  let c ← orOverflow <|
    if ctx.vectorMode then
      DAGInstructionsCompiler.generateDelayLine ctx.gMaxCopyDelay ctx.gVecSize exp ctype vname mxd c
    else (Fir.generateDelayLine ctx.gMaxCopyDelay exp ctype vname mxd c).map Prod.snd
  modify fun σ => { σ with code := c }
  return exp

/-- The current sample of a line that `generateDlineLoop` makes. -/
def currentSample (vname : String) (mxd : ℕ) : M ValueInst :=
  orOverflow <| DAGInstructionsCompiler.generateFixDelay ctx.gMaxCopyDelay ctx.gVecSize vname mxd
    (.sigInt 0)

/-- The access to a vector, `var_access`. -/
def varAccess (mxd : ℕ) : AccessType :=
  if mxd = 0 ∨ mxd < ctx.gMaxCopyDelay then .kStack else .kStruct

/-- `generateDelayVec`. -/
def generateDelayVec (sig : Tree) (exp : ValueInst) (ctype : VarType) (vname : String)
    (mxd : ℕ) : M ValueInst := do
  setVectorNameProperty sig vname
  let exp ← generateDelayLine ctx exp ctype vname mxd
  if ctx.vectorMode ∧ ¬ verySimple sig then
    return .loadArrayVar ⟨vname, varAccess ctx mxd⟩ DAGInstructionsCompiler.getCurrentLoopIndex
  else return exp

/-- `generateVariableStore`. -/
def generateVariableStore (sig : Tree) (exp : ValueInst) : M ValueInst := do
  let v := ctx.graph.variability sig
  if v = kKonst then
    let (ctype, vname) ← getTypedNames ctx sig "Const"
    push (.declare (genDecStructVar vname (.basic ctype) none))
    push (.init (genStoreStructVar vname exp))
    return genLoadStructVar vname
  else if v = kBlock then
    let (ctype, vname) ← getTypedNames ctx sig "Slow"
    push (.block (genDecStackVar vname (.basic ctype) (some exp)))
    return genLoadStackVar vname
  else if v = kSamp then
    if ctx.vectorMode then
      let (ctype, vname) ← getTypedNames ctx sig "Vector"
      let _ ← generateDelayLine ctx exp ctype vname 0
      return genLoadArrayStackVar vname DAGInstructionsCompiler.getCurrentLoopIndex
    else
      let (ctype, vname) ← getTypedNames ctx sig "Temp"
      push (.compute (genDecStackVar vname (.basic ctype) (some exp)))
      return genLoadStackVar vname
  else return .null

/-- `InstructionsCompiler::generateCacheCode`. -/
def generateScalarCacheCode (sig : Tree) (exp : ValueInst) : M ValueInst := do
  if let some code := ← getCompiledExpression sig then return code
  let sharing := getSharingCount ctx.sharing sig
  let mxd ← getMaxDelay ctx sig
  if mxd > 0 then
    let (ctype, vname) ← getTypedNames ctx sig "Vec"
    if sharing > 1 then
      generateDelayVec ctx sig (← generateVariableStore ctx sig exp) ctype vname mxd
    else generateDelayVec ctx sig exp ctype vname mxd
  else if sharing = 1 then return exp
  else if sharing > 1 then generateVariableStore ctx sig exp
  else throw (.sharingCount sig)

/-- `forceCacheCode`. -/
def forceCacheCode (sig : Tree) (exp : ValueInst) : M ValueInst := do
  if let some code := ← getCompiledExpression sig then return code
  let mxd ← getMaxDelay ctx sig
  if mxd > 0 then
    let (ctype, vname) ← getTypedNames ctx sig "Vec"
    generateDelayVec ctx sig (← generateVariableStore ctx sig exp) ctype vname mxd
  else generateVariableStore ctx sig exp

/-- `DAGInstructionsCompiler::generateCacheCode`. -/
def generateDAGCacheCode (sig : Tree) (exp : ValueInst) : M ValueInst := do
  let sharing := getSharingCount ctx.sharing sig
  let d ← getMaxDelay ctx sig
  if ctx.graph.variability sig < kSamp then
    if d = 0 then generateScalarCacheCode ctx sig exp
    else
      let (ctype, vname) ← getTypedNames ctx sig "Vec"
      let exp ← if sharing > 1 ∧ ¬ verySimple sig then generateVariableStore ctx sig exp
        else pure exp
      let _ ← generateDelayLine ctx exp ctype vname d
      setVectorNameProperty sig vname
      return exp
  else if d > 0 then
    let (ctype, vname) ← getTypedNames ctx sig "Yec"
    let _ ← generateDelayLine ctx exp ctype vname d
    setVectorNameProperty sig vname
    if verySimple sig then return exp else currentSample ctx vname d
  else if sharing > 1 ∧ ¬ verySimple sig then
    let (ctype, vname) ← getTypedNames ctx sig "Zec"
    let _ ← generateDelayLine ctx exp ctype vname d
    setVectorNameProperty sig vname
    return genLoadArrayStackVar vname DAGInstructionsCompiler.getCurrentLoopIndex
  else return exp

/-- `generateCacheCode`, a virtual method. -/
def generateCacheCode (sig : Tree) (exp : ValueInst) : M ValueInst :=
  if ctx.vectorMode then generateDAGCacheCode ctx sig exp else generateScalarCacheCode ctx sig exp

/-! ## Signals -/

/-- The expression for a signal, out of the code of its operands. -/
def buildCode (sig : Tree) (args : List ValueInst) : M ValueInst :=
  modifyGet fun σ =>
    ((ctx.build sig args σ.code).1, { σ with code := (ctx.build sig args σ.code).2 })

/-- What `generateFixDelay` reads in the vector of a signal. -/
def delayedRead (vname : String) (mxd : ℕ) (delay : Tree) (code : ValueInst) : Option ValueInst :=
  if ctx.vectorMode then
    DAGInstructionsCompiler.generateFixDelay ctx.gMaxCopyDelay ctx.gVecSize vname mxd <|
      match isSigInt delay with
      | some d => .sigInt d
      | none => .code code
  else Fir.generateFixDelay ctx.gMaxCopyDelay vname mxd code

/-- The vector compiler has a case for literals. -/
def isLiteralDelay (delay : Tree) : Bool := ctx.vectorMode && (isSigInt delay).isSome

section
variable (CS : Tree → M ValueInst)

/-- `generateFixDelay`. -/
def generateFixDelay (exp delay : Tree) : M ValueInst := do
  let code ← CS exp
  let mxd ← getMaxDelay ctx exp
  match ← getVectorNameProperty exp with
  | none => if mxd = 0 then return code else throw (.noVectorName exp)
  | some vname =>
    if mxd = 0 ∨ isLiteralDelay ctx delay then
      orOverflow (delayedRead ctx vname mxd delay .null)
    else
      let d ← CS delay
      orOverflow (delayedRead ctx vname mxd delay d)

/-- `generatePrefix`. -/
def generatePrefix (sig x e : Tree) : M ValueInst := do
  let vperm ← getFreshID "M"
  let vtemp ← getFreshID "T"
  let type := if (ctx.graph.getCertifiedSigType sig).fields.nature = .kInt then .kInt
    else ctx.itfloat
  push (.declare (genDecStructVar vperm (.basic type) none))
  let x ← CS x
  push (.init (genStoreStructVar vperm x))
  push (.compute (genDecStructVar vtemp (.basic type) (some (genLoadStructVar vperm))))
  let e ← CS e
  push (.compute (genStoreStructVar vperm e))
  return genLoadStackVar vtemp

/-- `generateInput`. -/
def generateInput (sig : Tree) : M ValueInst := do
  let res ← buildCode ctx sig []
  if ctx.gInPlace ∧ ¬ ctx.vectorMode then forceCacheCode ctx sig res
  else generateCacheCode ctx sig res

/-- `generateIntNumber`, `generateRealNumber` and `generateFConst`. -/
def generateNumber (sig : Tree) : M ValueInst := do
  let num ← buildCode ctx sig []
  let mxd ← getMaxDelay ctx sig
  if mxd > 0 then
    let (ctype, vname) ← getTypedNames ctx sig "Vec"
    let _ ← generateDelayVec ctx sig num ctype vname mxd
  return num

/-- `generateTable`. -/
def generateTable (sig tsize content : Tree) : M ValueInst := do
  let generator ← CS content
  if (isSigGen content).isNone then throw .assertion
  if (isSigInt tsize).isNone then throw (.notAnInteger tsize)
  buildCode ctx sig [generator]

/-- `generateWRTbl`. -/
def generateWRTbl (sig tbl idx data : Tree) : M ValueInst := do
  buildCode ctx sig (← [tbl, idx, data].mapM CS)

/-- `generateSigGen` and `generateStaticSigGen`. -/
def generateSigGen (sig content : Tree) : M ValueInst := do
  StateT.lift (ctx.signal2Container content)
  buildCode ctx sig []

/-- `generateStaticTable`. -/
def generateStaticTable (sig tsize content : Tree) : M ValueInst := do
  match isSigGen content with
  | none => throw .assertion
  | some g =>
    let cexp ← compileOnce content (generateSigGen ctx content g)
    if (isSigInt tsize).isNone then throw (.notAnInteger tsize)
    buildCode ctx sig [cexp]

/-- The table that is read. A table that is only read is compiled apart. -/
def compileTable (tbl : Tree) : M ValueInst :=
  match isSigTable tbl with
  | some (size, content) => compileOnce tbl (generateStaticTable ctx tbl size content)
  | none => CS tbl

/-- `generateRDTbl`. -/
def generateRDTbl (sig tbl idx : Tree) : M ValueInst := do
  let tblname ← compileTable ctx CS tbl
  let idx ← CS idx
  generateCacheCode ctx sig (← buildCode ctx sig [tblname, idx])

/-- The definitions of a recursive group whose projections are used, with their indexes. -/
def usedDefinitions (r : Tree) (le : List Tree) : List (Tree × ℕ) :=
  le.zipIdx.filter fun d => (ctx.marks (sigProj d.2 r)).isSome

/-- The names of the used projections. -/
def nameProjections (r : Tree) (le : List Tree) : M (List ((Tree × ℕ) × VarType × String)) :=
  (usedDefinitions ctx r le).mapM fun d => do
    let names ← getTypedNames ctx (sigProj d.2 r) "Rec"
    setVectorNameProperty (sigProj d.2 r) names.2
    return (d, names)

/-- `generateRec`. The value is the code of the definition `index`. -/
def generateRec (r : Tree) (le : List Tree) (index : Option ℕ) : M ValueInst := do
  let names ← nameProjections ctx r le
  let codes ← names.mapM fun d => do
    let delay ← getMaxDelay ctx (sigProj d.1.2 r)
    let code ← CS d.1.1
    generateDelayLine ctx code d.2.1 d.2.2 delay
  let named := names.zip codes
  return (named.find? fun c => some c.1.1.2 = index).elim .null Prod.snd

/-- `generateRecProj`. -/
def generateRecProj (sig r : Tree) (i : ℕ) : M ValueInst := do
  match ← getVectorNameProperty sig with
  | some _ => return .null
  | none =>
    match isRec ctx.graph r with
    | none => throw .assertion
    | some le =>
      let res ← generateRec ctx CS r le (some i)
      if (← getVectorNameProperty sig).isNone then throw .assertion
      return res

/-- `InstructionsCompiler::generateCode`. -/
def generateCode (sig : Tree) : M ValueInst := do
  if let some code := ← getCompiledExpression sig then return code
  match dispatch sig with
  | none => throw .unrecognizedSignal
  | some (.generateCached operands) =>
    let args ← operands.mapM CS
    generateCacheCode ctx sig (← buildCode ctx sig args)
  | some .generateNumber => generateNumber ctx sig
  | some .generateInput => generateInput ctx sig
  | some (.generateFixDelay x y) => generateFixDelay ctx CS x y
  | some (.generatePrefix x y) => generatePrefix ctx CS sig x y
  | some .generateIota => return .null
  | some (.generateTable tsize content) => generateTable ctx CS sig tsize content
  | some (.generateWRTbl tbl idx data) => generateWRTbl ctx CS sig tbl idx data
  | some (.generateRDTbl tbl idx) => generateRDTbl ctx CS sig tbl idx
  | some (.generateSigGen content) => generateSigGen ctx sig content
  | some (.generateRecProj i r) => generateRecProj ctx CS sig r i
  | some (.generateAttach x y) =>
    let _ ← CS y
    generateCacheCode ctx sig (← CS x)

/-- `generateCodeRecursions`, for a signal of size below `size`. -/
def generateCodeRecursions : ℕ → Tree → M Unit
  | 0, _ => throw .outOfFuel
  | size + 1, sig => do
    if (← getCompiledExpression sig).isSome then return
    match isRec ctx.graph sig with
    | some le =>
      setCompiledExpression sig .null
      let _ ← generateRec ctx CS sig le none
    | none =>
      match Faust.getSubSignals false sig with
      | none => throw .unrecognizedSignal
      | some subsigs => subsigs.forM (generateCodeRecursions size)

end

/-- `CS`, for a compilation of depth below `fuel`. -/
def CS : ℕ → Tree → M ValueInst
  | 0, _ => throw .outOfFuel
  | fuel + 1, sig => do
    if let some code := ← getCompiledExpression sig then return code
    if ctx.vectorMode then generateCodeRecursions ctx (CS fuel) (sig.size + 1) sig
    let code ← generateCode ctx (CS fuel) sig
    setCompiledExpression sig code
    return code

end

/-! ## Programs -/

/-- What is compiled: a list of outputs by the scalar or by the vector compiler, or the content of
a table. -/
structure Container where
  vectorMode : Bool
  /-- The inputs, which are compiled first when the code works in place. -/
  inputs : ℕ
  root : Tree
deriving DecidableEq

/-- The container of the content of a table, `createScalarContainer`. -/
def createScalarContainer (content : Tree) : Container := ⟨false, 0, content⟩

/-- The signals that a container compiles. -/
def Container.signals (gInPlace : Bool) (c : Container) : List Tree :=
  (if gInPlace ∧ ¬ c.vectorMode then (List.range c.inputs).map fun i : ℕ => sigInput i else []) ++
    outputs c.root

/-- The compiler of a container, after the analyses. -/
def Container.context (o : Options) (g : Graph) (c : Container) (marks : Marks)
    (sharing : Sharing) (signal2Container : Tree → Except Failure Unit) : Context :=
  { o with
    vectorMode := c.vectorMode
    graph := g
    marks := marks
    sharing := sharing
    signal2Container := signal2Container }

/-- The result of an analysis. -/
def ofAnalysis {α : Type} (x : Except Occ.Failure α) : Except Failure α :=
  x.mapError .analysis

/-- `compileMultiSignal` and `compileSingleSignal`: the state of the compiler once the signals are
compiled. Tables are in tables up to `depth`, and traversals are of depth below `fuel`. -/
def compileSignals (o : Options) (g : Graph) (fuel : ℕ) : ℕ → Container → Except Failure Compiler
  | 0, _ => throw .outOfFuel
  | depth + 1, c => do
    let sharing ← ofAnalysis (sharingAnalysis g fuel c.root)
    let marks ← ofAnalysis (mark g fuel c.root)
    let ctx := c.context o g marks sharing fun content => do
      let _ ← compileSignals o g fuel depth (createScalarContainer content)
      return
    let (_, σ) ← ((c.signals o.gInPlace).mapM (CS ctx fuel)) .start
    return σ

/-! ## What is compiled -/

/-- The signals below that a call may compile. -/
def Call.subsignals : Call → List Tree
  | .generateCached operands => operands
  | .generateFixDelay x y | .generatePrefix x y => [x, y]
  | .generateTable _ content => [content]
  | .generateWRTbl tbl idx data => [tbl, idx, data]
  | .generateRDTbl tbl idx => [tbl, idx]
  | .generateAttach x y => [y, x]
  | .generateNumber | .generateInput | .generateIota | .generateSigGen _ | .generateRecProj _ _ =>
    []

/-- What a call requires of the signals below. -/
def Call.checks (g : Graph) (sig : Tree) : Call → Bool
  | .generateTable tsize content => (isSigInt tsize).isSome && (isSigGen content).isSome
  | .generateRDTbl tbl _ =>
    match isSigTable tbl with
    | some (tsize, content) => (isSigInt tsize).isSome && (isSigGen content).isSome
    | none => true
  | .generateRecProj i r =>
    match isRec g r with
    | some le => decide (i < le.length) && decide (sig = sigProj i r)
    | none => false
  | _ => true

/-- The call gives the signal a vector when it is used delayed. -/
def Call.recordsName : Call → Bool
  | .generateFixDelay _ _ | .generatePrefix _ _ | .generateIota | .generateTable _ _
  | .generateWRTbl _ _ _ | .generateSigGen _ => false
  | _ => true

/-- The signal is recognized, with what is below. -/
def wellFormed (g : Graph) (t : Tree) : Bool :=
  (match dispatch t with
    | some c => c.checks g t && c.subsignals.all fun u => (dispatch u).isSome
    | none => true) &&
  (match isRec g t with
    | some le => le.all fun u => (dispatch u).isSome
    | none => true)

/-- The graph of a container is ready for the analyses, and made of signals. -/
structure Accepted (g : Graph) (c : Container) : Prop where
  prepared : Prepared g c.root
  signals : ∀ t ∈ outputs c.root, (dispatch t).isSome
  formed : ∀ t, Reached g c.root t → wellFormed g t

/-- The inputs that are compiled first are in the graph. -/
def InputsUsed (gInPlace : Bool) (g : Graph) (c : Container) : Prop :=
  gInPlace = true → c.vectorMode = false → ∀ i < c.inputs, Reached g c.root (sigInput i)

section
variable (ctx : Context)

/-- The maximum delay of a signal. -/
def maxDelay (t : Tree) : ℕ := ((ctx.marks t).map fun o => o.getMaxDelay.toNat).getD 0

/-- The signals below that a call compiles. -/
def Call.operands : Call → List Tree
  | .generateFixDelay x y =>
    if maxDelay ctx x = 0 ∨ isLiteralDelay ctx y then [x] else [x, y]
  | c => c.subsignals

/-- The recursive groups that `generateCodeRecursions` finds below a signal. -/
inductive Below (g : Graph) : Tree → Tree → Prop
  | self {r : Tree} (h : (isRec g r).isSome) : Below g r r
  | child {t s r : Tree} {ss : List Tree} (ht : isRec g t = none)
      (hss : Faust.getSubSignals false t = some ss) (hs : s ∈ ss) (hr : Below g s r) : Below g t r

/-- To compile the signal is to compile the group. -/
def Enters (t r : Tree) : Prop :=
  if ctx.vectorMode then Below ctx.graph t r else ∃ i, dispatch t = some (.generateRecProj i r)

/-- The definitions of a group that are compiled, with their indexes. -/
def definitionsOf (r : Tree) : List (Tree × ℕ) :=
  ((isRec ctx.graph r).map (usedDefinitions ctx r)).getD []

/-- The signals that are compiled. -/
inductive Compiled (signals : List Tree) : Tree → Prop
  | signal {t : Tree} (h : t ∈ signals) : Compiled signals t
  | operand {u t : Tree} {c : Call} (hu : Compiled signals u) (hc : dispatch u = some c)
      (ht : t ∈ c.operands ctx) : Compiled signals t
  | definition {u r : Tree} {d : Tree × ℕ} (hu : Compiled signals u) (hr : Enters ctx u r)
      (hd : d ∈ definitionsOf ctx r) : Compiled signals d.1
  | projection {u r : Tree} {d : Tree × ℕ} (hu : Compiled signals u) (hr : Enters ctx u r)
      (hd : d ∈ definitionsOf ctx r) : Compiled signals (sigProj d.2 r)

/-- The size of the vector for a delay of `mxd` samples is an `int`. -/
def lineFits (mxd : ℕ) : Bool :=
  if mxd < ctx.gMaxCopyDelay then
    !ctx.vectorMode || ((DAGInstructionsCompiler.roundDelay mxd).bind
      (DAGInstructionsCompiler.addSizes ctx.gVecSize)).isSome
  else if ctx.vectorMode then
    ((DAGInstructionsCompiler.addSizes mxd ctx.gVecSize).bind pow2limit).isSome
  else (pow2limit (mxd + 1)).isSome

/-- The signal is not used delayed, or the function that compiles it gives it a vector. -/
def CanBeDelayed (t : Tree) : Prop :=
  0 < maxDelay ctx t → (∃ c, dispatch t = some c ∧ c.recordsName) ∧ lineFits ctx (maxDelay ctx t)

/-- The signals that are used delayed have vectors, and delays read vectors. -/
structure VectorsNamed (σ : Compiler) : Prop where
  named : ∀ t, (σ.fCompileProperty t).isSome → isRec ctx.graph t = none → 0 < maxDelay ctx t →
    (σ.fVectorProperty t).isSome
  delayed : ∀ t x y v, dispatch t = some (.generateFixDelay x y) →
    σ.fCompileProperty t = some v → 0 < maxDelay ctx x →
      ∃ vname code, delayedRead ctx vname (maxDelay ctx x) y code = some v

end

/-! ## Containers in containers -/

section
variable (o : Options) (g : Graph)

/-- The annotations of a container are the results of the analyses. -/
structure Annotates (c : Container) (marks : Marks) (sharing : Sharing) : Prop where
  marks : ∃ n, ∀ fuel ≥ n, mark g fuel c.root = .ok marks
  sharing : ∃ n, ∀ fuel ≥ n, sharingAnalysis g fuel c.root = .ok sharing

/-- The compiler of a container, as far as what it compiles is concerned. -/
def Container.annotated (c : Container) (marks : Marks) (sharing : Sharing) : Context :=
  c.context o g marks sharing fun _ => .ok ()

/-- The signal is compiled in the container. -/
def CompiledIn (c : Container) (t : Tree) : Prop :=
  ∃ marks sharing, Annotates g c marks sharing ∧
    Compiled (c.annotated o g marks sharing) (c.signals o.gInPlace) t

/-- What the container compiles can be delayed as it is. -/
def DelaysAllowed (c : Container) : Prop :=
  ∀ marks sharing, Annotates g c marks sharing → ∀ t,
    Compiled (c.annotated o g marks sharing) (c.signals o.gInPlace) t →
      CanBeDelayed (c.annotated o g marks sharing) t

/-- The container, and those of the contents of the tables that are compiled. -/
inductive Contains : Container → Container → Prop
  | self (c : Container) : Contains c c
  | content {c c' : Container} {t s : Tree} (h : Contains c c') (ht : CompiledIn o g c' t)
      (hs : dispatch t = some (.generateSigGen s)) : Contains c (createScalarContainer s)

/-- The containers of a program are accepted, and no table is in its own content: a `rank` decreases
from a container to those of the contents. -/
structure AcceptedProgram (c : Container) (rank : Container → ℕ) : Prop where
  accepted : ∀ c', Contains o g c c' → Accepted g c'
  nested : ∀ c' t s, Contains o g c c' → CompiledIn o g c' t →
    dispatch t = some (.generateSigGen s) → rank (createScalarContainer s) < rank c'

/-- The compilation of a container comes to its end, with a vector for each signal that is used
delayed. -/
def NamesVectors (c : Container) : Prop :=
  ∃ n, ∀ depth ≥ n, ∀ fuel ≥ n, ∃ σ, compileSignals o g fuel depth c = .ok σ ∧
    ∀ marks sharing, Annotates g c marks sharing → VectorsNamed (c.annotated o g marks sharing) σ

end

end Faust.Codegen
