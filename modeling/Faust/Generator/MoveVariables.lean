import Faust.Generator.InstSemantics
import Faust.Lib.Traces

/-!
# Variables moved in front (`asmjs_instructions.hh`)

In asm.js all variables of a function are declared before its other instructions. Two visitors
copy the block of a function without the declarations it contains and put them in front:
`MoveVariablesInFront1` the block that initialises an instance, `MoveVariablesInFront2` that of
`compute`.

A block is executed as FIR is, and what is observed are the stores to the variables that the block
does not declare (fields, tables, outputs) and the functions it calls. These functions do not see
the variables that the block declares.
-/

namespace Faust.Fir.AsmJs

/-- The types of declared variables: those of scalars and arrays, and `kObj_ptr`. -/
inductive VarTyped
  | typed (type : Typed)
  | kObj_ptr
deriving DecidableEq, Repr

/-- `DeclareVarInst`. -/
structure DeclareVarInst where
  fAddress : NamedAddress
  fType : VarTyped
  fValue : Option ValueInst

/-- `getName()`. -/
def DeclareVarInst.getName (inst : DeclareVarInst) : String := inst.fAddress.fName

/-- The instructions of a block. -/
inductive StatementInst
  | declareVar (inst : DeclareVarInst)
  | storeVar (address : NamedAddress) (value : ValueInst)
  | storeArrayVar (address : NamedAddress) (index value : ValueInst)
  | drop (result : Option ValueInst)
  | block (code : List StatementInst)
  | ifInst (cond : ValueInst) (then_ else_ : List StatementInst)
  | forLoop (init : StatementInst) (end_ : ValueInst) (increment : StatementInst)
      (code : List StatementInst)
  | whileLoop (cond : ValueInst) (code : List StatementInst)
  | switch (cond : ValueInst) (code : List (ℤ × List StatementInst))

/-! ## The visitors -/

/-- `NumValueInst`, the base class of the literals. -/
def isNumValueInst : ValueInst → Bool
  | .intNum _ | .realNum _ _ | .boolNum _ => true
  | _ => false

/-- `genTypedZero(type->getType())`. There is none for a boolean, for an object and for an array
of one of the other types. -/
def genTypedZero : VarTyped → Option ValueInst
  | .typed (.basic .kBool) => none
  | .typed (.basic t) => some (InstBuilder.genTypedZero t)
  | .typed (.array .kInt _) | .typed (.array .kFloat _) | .typed (.array .kFloatMacro _) =>
    some (.intNum 0)
  | .typed (.array _ _) | .kObj_ptr => none

/-- What a visitor makes of a declaration: the one that it adds to `fVarTable`, and the instruction
that it leaves. -/
abbrev Visitor := DeclareVarInst → Option (DeclareVarInst × StatementInst)

/-- `MoveVariablesInFront1::visit(DeclareVarInst*)`. -/
def MoveVariablesInFront1.visit : Visitor := fun inst => some (inst, .drop none)

/-- `MoveVariablesInFront2::visit(DeclareVarInst*)`: the declaration of a variable that is not
declared with a number is separated from the store. -/
def MoveVariablesInFront2.visit : Visitor := fun inst =>
  match inst.fValue with
  | some value =>
    if isNumValueInst value then some (inst, .drop none)
    else
      match genTypedZero inst.fType with
      | some zero =>
        some ({ inst with fValue := some zero }, .storeVar inst.fAddress value)
      | none => none
  | none => some (inst, .drop none)

section
variable (visit : Visitor)

mutual
/-- The copy of a statement, after the declarations that the visitor adds to `fVarTable` (the
arguments of a constructor from left to right, an order that C++ leaves open). -/
def StatementInst.clone : StatementInst → Option (List DeclareVarInst × StatementInst)
  | .declareVar inst => do
    let (front, left) ← visit inst
    return ([front], left)
  | .storeVar a v => some ([], .storeVar a v)
  | .storeArrayVar a i v => some ([], .storeArrayVar a i v)
  | .drop v => some ([], .drop v)
  | .block code => do
    let (table, code) ← cloneBlock code
    return (table, .block code)
  | .ifInst c x y => do
    let (t₁, x) ← cloneBlock x
    let (t₂, y) ← cloneBlock y
    return (t₁ ++ t₂, .ifInst c x y)
  | .forLoop init e inc code => do
    let (t₁, init) ← init.clone
    let (t₂, inc) ← inc.clone
    let (t₃, code) ← cloneBlock code
    return (t₁ ++ t₂ ++ t₃, .forLoop init e inc code)
  | .whileLoop c code => do
    let (table, code) ← cloneBlock code
    return (table, .whileLoop c code)
  | .switch c cases => do
    let (table, cases) ← cloneCases cases
    return (table, .switch c cases)

/-- The copy of the instructions of a block. -/
def cloneBlock : List StatementInst → Option (List DeclareVarInst × List StatementInst)
  | [] => some ([], [])
  | s :: ss => do
    let (t₁, s) ← s.clone
    let (t₂, ss) ← cloneBlock ss
    return (t₁ ++ t₂, s :: ss)

/-- The copy of the blocks of a `switch`. -/
def cloneCases : List (ℤ × List StatementInst) →
    Option (List DeclareVarInst × List (ℤ × List StatementInst))
  | [] => some ([], [])
  | (i, code) :: cases => do
    let (t₁, code) ← cloneBlock code
    let (t₂, cases) ← cloneCases cases
    return (t₁ ++ t₂, (i, code) :: cases)
end

/-- `getCode`: the copy of a block, with the declarations of `fVarTable` moved in front. -/
def getCode (src : List StatementInst) : Option (List StatementInst) := do
  let (fVarTable, dst) ← cloneBlock visit src
  return fVarTable.map .declareVar ++ dst

end

mutual
/-- The declarations in a statement. -/
def StatementInst.declarations : StatementInst → List DeclareVarInst
  | .declareVar inst => [inst]
  | .storeVar _ _ | .storeArrayVar _ _ _ | .drop _ => []
  | .block code => declarationsOfBlock code
  | .ifInst _ x y => declarationsOfBlock x ++ declarationsOfBlock y
  | .forLoop init _ inc code => init.declarations ++ inc.declarations ++ declarationsOfBlock code
  | .whileLoop _ code => declarationsOfBlock code
  | .switch _ cases => declarationsOfCases cases

/-- The declarations in a block. -/
def declarationsOfBlock : List StatementInst → List DeclareVarInst
  | [] => []
  | s :: ss => s.declarations ++ declarationsOfBlock ss

/-- The declarations in the blocks of a `switch`. -/
def declarationsOfCases : List (ℤ × List StatementInst) → List DeclareVarInst
  | [] => []
  | (_, code) :: cases => declarationsOfBlock code ++ declarationsOfCases cases
end

/-- The variables that a block declares. -/
def locals (src : List StatementInst) : List String :=
  (declarationsOfBlock src).map DeclareVarInst.getName

/-! ## Executions -/

/-- An argument of a function. -/
inductive Arg
  | val (v : Val)
  | pointer (base : String) (offset : ℤ)
deriving DecidableEq

/-- What a block does to what it does not declare. -/
inductive Event
  | store (name : String) (contents : Cell)
  | storeArray (name : String) (index : ℤ) (v : Val)
  | call (name : String) (args : List Arg)
deriving DecidableEq

/-- The functions with effects, those of the tables and of the objects that fill them: what they
make of the memory. -/
abbrev Procedures := String → List Arg → Memory → Option Memory

/-- The memory without some variables. -/
def hide (xs : List String) (m : Memory) : Memory := fun n => if n ∈ xs then .undeclared else m n

/-- The memory `m'` with some variables of the memory `m`. -/
def keep (xs : List String) (m m' : Memory) : Memory := fun n => if n ∈ xs then m n else m' n

section
variable (ext : ExternFun)

/-- The pointer that a value denotes: that of an array is to its first element, and only a pointer
with a value has elements. -/
def pointerOf (m : Memory) : ValueInst → Option (String × ℤ)
  | .loadVar a =>
    match m a.fName with
    | .array _ => some (a.fName, 0)
    | .pointer p => p
    | _ => none
  | .loadArrayVar a i =>
    match m a.fName, i.eval ext m with
    | .pointers ps, some (.int b) => Memory.getAt ps b.toInt
    | _, _ => none
  | .loadArrayVarAddress a i =>
    match m a.fName, i.eval ext m with
    | .array _, some (.int b) => some (a.fName, b.toInt)
    | .pointer (some p), some (.int b) => some (p.1, p.2 + b.toInt)
    | _, _ => none
  | _ => none

/-- The argument that is passed to a function. -/
def evalArg (m : Memory) (v : ValueInst) : Option Arg :=
  match v.eval ext m with
  | some w => some (.val w)
  | none => (pointerOf ext m v).map fun p => .pointer p.1 p.2

/-- The arguments that are passed to a function. -/
def evalArgList (m : Memory) : List ValueInst → Option (List Arg)
  | [] => some []
  | v :: vs => do return (← evalArg ext m v) :: (← evalArgList m vs)

/-- The contents of a declared variable. The number 0 is the null pointer, and an object is
denoted by a number. -/
def content (m : Memory) (inst : DeclareVarInst) : Option Cell :=
  match inst.fType, inst.fValue with
  | .typed (.array _ 0), some (.intNum 0) => some (.pointer none)
  | .typed (.array _ 0), some v => (pointerOf ext m v).map fun p => .pointer (some p)
  | .typed (.array t n), v => declareCell ext m (.array t n) v
  | .typed (.basic _), none | .kObj_ptr, none => some (.scalar none)
  | .typed (.basic _), some v | .kObj_ptr, some v => (v.eval ext m).map fun w => .scalar (some w)

/-- The contents of an assigned variable. -/
def assigned (m : Memory) (v : ValueInst) : Cell → Option Cell
  | .scalar _ => (v.eval ext m).map fun w => .scalar (some w)
  | .pointer _ => (pointerOf ext m v).map fun p => .pointer (some p)
  | _ => none

/-- The code still to execute and the memory. -/
abbrev Config := List StatementInst × Memory

/-- The event of a store, when the variable is none of the block. -/
def observe (xs : List String) (n : String) (e : Event) : List Event := if n ∈ xs then [] else [e]

section
variable (proc : Procedures) (xs : List String)
  (contents : Memory → DeclareVarInst → Option Cell)

/-- One step of the execution of a block that declares the variables `xs`. -/
def step : Config → Option (List Event × Config)
  | ([], _) => none
  | (.declareVar inst :: k, m) => do
    return ([], k, Function.update m inst.getName (← contents m inst))
  | (.storeVar a v :: k, m) => do
    let c ← assigned ext m v (m a.fName)
    return (observe xs a.fName (.store a.fName c), k, Function.update m a.fName c)
  | (.storeArrayVar a i v :: k, m) =>
    match i.eval ext m, v.eval ext m with
    | some (.int b), some w => do
      let (n, j) := m.resolve a.fName b.toInt
      return (observe xs n (.storeArray n j w), k, ← m.storeArray a.fName b.toInt w)
    | _, _ => none
  | (.drop none :: k, m) => some ([], k, m)
  | (.drop (some (.funCall f args)) :: k, m) => do
    let args ← evalArgList ext m args
    return ([.call f args], k, keep xs m (← proc f args (hide xs m)))
  | (.drop (some v) :: k, m) => do
    let _ ← v.eval ext m
    return ([], k, m)
  | (.block code :: k, m) => some ([], code ++ k, m)
  | (.ifInst c t e :: k, m) => do
    return ([], (if (← c.eval ext m).truth then t else e) ++ k, m)
  | (.forLoop init end_ incr code :: k, m) =>
    some ([], init :: .whileLoop end_ (code ++ [incr]) :: k, m)
  | (.whileLoop c code :: k, m) => do
    return ([], if (← c.eval ext m).truth then code ++ .whileLoop c code :: k else k, m)
  | (.switch c cases :: k, m) =>
    match c.eval ext m with
    | some (.int b) => some ([], selectCase b.toInt cases ++ k, m)
    | _ => none

end

/-- The block performs the events and ends. -/
def Runs (proc : Procedures) (xs : List String) (ss : List StatementInst) (m : Memory)
    (es : List Event) : Prop :=
  ∃ m', Traces.Performs (step ext proc xs (content ext)) (ss, m) es ([], m')

end

end Faust.Fir.AsmJs
