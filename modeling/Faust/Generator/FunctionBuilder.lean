import Faust.Generator.Instructions

/-!
# Functions made of loops (`function_builder.hh`)

`Loop2FunctionBuider` puts a block of loop code in a function of its own. The variables of the
enclosing context that it finds in the block become the parameters of the function, and the call
that takes the place of the block passes them.

The instruction trees are those of `instructions.hh`, with all their forms of addresses.
-/

namespace Faust.Fir.Extract

mutual
/-- `Address`: `NamedAddress` and `IndexedAddress`. -/
inductive Address
  | named (address : NamedAddress)
  | indexed (address : Address) (index : ValueInst)

/-- `ValueInst`. -/
inductive ValueInst
  | null
  | loadVar (address : Address)
  | loadVarAddress (address : Address)
  | intNum (num : ℤ)
  | realNum (ctype : VarType) (num : ℚ)
  | boolNum (num : Bool)
  | intArrayNum (nums : List ℤ)
  | realArrayNum (ctype : VarType) (nums : List ℚ)
  | binop (opcode : BinOp) (inst1 inst2 : ValueInst)
  | castNum (inst : ValueInst) (type : VarType)
  | funCall (name : String) (args : List ValueInst)
  | select2 (cond then_ else_ : ValueInst)
end

/-- The types of arguments: those of variables, and `kObj_ptr`. -/
inductive ArgType
  | typed (type : Typed)
  | kObj_ptr
deriving DecidableEq, Repr

/-- The statements that hold no instruction and no address. -/
inductive Inert
  | declareType | addMetaDeclare | openbox | closebox | addButton | addSlider | addBargraph | label
deriving DecidableEq, Repr

/-- `StatementInst`. -/
inductive StatementInst
  | declareVar (address : Address) (type : Typed) (value : Option ValueInst)
  | declareFun (name : String) (args : List (String × ArgType)) (code : Option (List StatementInst))
  | storeVar (address : Address) (value : ValueInst)
  | ret (result : Option ValueInst)
  | drop (result : Option ValueInst)
  | ifInst (cond : ValueInst) (then_ else_ : List StatementInst)
  | forLoop (init : StatementInst) (end_ : ValueInst) (increment : StatementInst)
      (code : List StatementInst)
  | whileLoop (cond : ValueInst) (code : List StatementInst)
  | switch (cond : ValueInst) (code : List (ℤ × List StatementInst))
  | block (code : List StatementInst)
  | inert (kind : Inert)

/-- `getName()` and `getAccess()`. -/
def Address.base : Address → NamedAddress
  | .named a => a
  | .indexed a _ => a.base

/-! ## The instructions that name variables -/

/-- An instruction that names a variable, or an argument of a function declared in the block. -/
inductive Event
  | declare (a : NamedAddress)
  | access (a : NamedAddress)
  | argument (name : String)
deriving DecidableEq, Repr

/- `DispatchVisitor`: the instructions that name variables, in the order in which they are visited,
each after the instructions inside it. `deep` says whether the visitor goes into a
`LoadVarAddressInst`. -/
section
variable (deep : Bool)

mutual
/-- `visit(NamedAddress*)`, `visit(IndexedAddress*)`. -/
def Address.events : Address → List Event
  | .named _ => []
  | .indexed a index => a.events ++ index.events

/-- The instructions of a value. -/
def ValueInst.events : ValueInst → List Event
  | .loadVar a => a.events ++ [.access a.base]
  | .loadVarAddress a => if deep then a.events ++ [.access a.base] else []
  | .binop _ x y => x.events ++ y.events
  | .castNum x _ => x.events
  | .funCall _ args => eventsOfValues args
  | .select2 c x y => c.events ++ x.events ++ y.events
  | _ => []

/-- The instructions of the arguments of a call. -/
def eventsOfValues : List ValueInst → List Event
  | [] => []
  | v :: vs => v.events ++ eventsOfValues vs
end

/-- The instructions of a value that may be missing. -/
def eventsOfOption : Option ValueInst → List Event
  | none => []
  | some v => v.events deep

mutual
/-- The instructions of a statement. -/
def StatementInst.events : StatementInst → List Event
  | .declareVar a _ v => a.events deep ++ eventsOfOption deep v ++ [.declare a.base]
  | .declareFun _ args (some code) => args.map (.argument ·.1) ++ eventsOfBlock code
  | .declareFun _ args none => args.map (.argument ·.1)
  | .storeVar a v => a.events deep ++ v.events deep ++ [.access a.base]
  | .ret v => eventsOfOption deep v
  | .drop v => eventsOfOption deep v
  | .ifInst c x y => c.events deep ++ eventsOfBlock x ++ eventsOfBlock y
  | .forLoop init e inc code =>
    init.events ++ e.events deep ++ inc.events ++ eventsOfBlock code
  | .whileLoop c code => c.events deep ++ eventsOfBlock code
  | .switch c cases => c.events deep ++ eventsOfCases cases
  | .block code => eventsOfBlock code
  | .inert _ => []

/-- The instructions of a block. -/
def eventsOfBlock : List StatementInst → List Event
  | [] => []
  | s :: ss => s.events ++ eventsOfBlock ss

/-- The instructions of the cases of a `switch`. -/
def eventsOfCases : List (ℤ × List StatementInst) → List Event
  | [] => []
  | (_, code) :: cs => eventsOfBlock code ++ eventsOfCases cs
end

end

/-! ## The parameters -/

/-- The fields of `Loop2FunctionBuider` that the visitor fills. -/
structure Loop2FunctionBuider where
  fLocalVarTable : List (String × AccessType)
  fAddedVarTable : List String
  fArgsTypeList : List (String × ArgType)
  fArgsValueList : List ValueInst

/-- `genLoadStackVar`. -/
def genLoadStackVar (name : String) : ValueInst := .loadVar (.named ⟨name, .kStack⟩)

/-- `genLoadFunArgsVar`. -/
def genLoadFunArgsVar (name : String) : ValueInst := .loadVar (.named ⟨name, .kFunArgs⟩)

namespace Loop2FunctionBuider

variable (gVarTypeTable : String → Option Typed) (b : Loop2FunctionBuider)

/-- A first encounter of a variable. There is no result when its type is not known. -/
def addParameter (name : String) (value : ValueInst) : Option Loop2FunctionBuider :=
  match gVarTypeTable name with
  | none => none
  | some type => some
    { b with
      fArgsTypeList := b.fArgsTypeList ++ [(name, .typed type)]
      fArgsValueList := b.fArgsValueList ++ [value]
      fAddedVarTable := b.fAddedVarTable ++ [name] }

/-- `createParameter`. -/
def createParameter (a : NamedAddress) : Option Loop2FunctionBuider :=
  match a.fAccess with
  | .kStack | .kLoop =>
    if a.fName ∈ b.fLocalVarTable.map Prod.fst then some b
    else if a.fName ∈ b.fAddedVarTable then some b
    else b.addParameter gVarTypeTable a.fName (genLoadStackVar a.fName)
  | .kFunArgs =>
    if a.fName ∈ b.fAddedVarTable then some b
    else b.addParameter gVarTypeTable a.fName (genLoadFunArgsVar a.fName)
  | _ => some b

/-- The end of `visit(DeclareVarInst*)`. -/
def keepLocal (a : NamedAddress) : Loop2FunctionBuider :=
  if a.fAccess = .kStack ∨ a.fAccess = .kLoop then
    { b with fLocalVarTable := (a.fName, a.fAccess) :: b.fLocalVarTable }
  else b

/-- What the visitor does after it has dispatched an instruction. The arguments of a function are
not recorded. -/
def visit : Event → Option Loop2FunctionBuider
  | .declare a => some (b.keepLocal a)
  | .access a => b.createParameter gVarTypeTable a
  | .argument _ => some b

end Loop2FunctionBuider

/-! ## The code of the function -/

/- `LoopCloneVisitor`: the variables that have become parameters are accessed as such. -/
section
variable (fAddedVarTable : List String)

/-- `visit(NamedAddress*)`. -/
def visitNamed (a : NamedAddress) : NamedAddress :=
  if a.fName ∈ fAddedVarTable then ⟨a.fName, .kFunArgs⟩ else a

mutual
/-- `clone` of an address. -/
def Address.clone : Address → Address
  | .named a => .named (visitNamed fAddedVarTable a)
  | .indexed a index => .indexed a.clone index.clone

/-- `clone` of a value. -/
def ValueInst.clone : ValueInst → ValueInst
  | .loadVar a => .loadVar a.clone
  | .loadVarAddress a => .loadVarAddress a.clone
  | .binop op x y => .binop op x.clone y.clone
  | .castNum x type => .castNum x.clone type
  | .funCall name args => .funCall name (cloneValues args)
  | .select2 c x y => .select2 c.clone x.clone y.clone
  | .null => .null
  | .intNum n => .intNum n
  | .realNum ctype x => .realNum ctype x
  | .boolNum x => .boolNum x
  | .intArrayNum ns => .intArrayNum ns
  | .realArrayNum ctype xs => .realArrayNum ctype xs

/-- `clone` of the arguments of a call. -/
def cloneValues : List ValueInst → List ValueInst
  | [] => []
  | v :: vs => v.clone :: cloneValues vs
end

mutual
/-- `clone` of a statement. -/
def StatementInst.clone : StatementInst → StatementInst
  | .declareVar a type v =>
    .declareVar (a.clone fAddedVarTable) type (v.map (·.clone fAddedVarTable))
  | .declareFun name args (some code) => .declareFun name args (some (cloneBlock code))
  | .declareFun name args none => .declareFun name args none
  | .storeVar a v => .storeVar (a.clone fAddedVarTable) (v.clone fAddedVarTable)
  | .ret v => .ret (v.map (·.clone fAddedVarTable))
  | .drop v => .drop (v.map (·.clone fAddedVarTable))
  | .ifInst c x y => .ifInst (c.clone fAddedVarTable) (cloneBlock x) (cloneBlock y)
  | .forLoop init e inc code =>
    .forLoop init.clone (e.clone fAddedVarTable) inc.clone (cloneBlock code)
  | .whileLoop c code => .whileLoop (c.clone fAddedVarTable) (cloneBlock code)
  | .switch c cases => .switch (c.clone fAddedVarTable) (cloneCases cases)
  | .block code => .block (cloneBlock code)
  | .inert kind => .inert kind

/-- `clone` of a block. -/
def cloneBlock : List StatementInst → List StatementInst
  | [] => []
  | s :: ss => s.clone :: cloneBlock ss

/-- `clone` of the cases of a `switch`. -/
def cloneCases : List (ℤ × List StatementInst) → List (ℤ × List StatementInst)
  | [] => []
  | (n, code) :: cs => (n, cloneBlock code) :: cloneCases cs
end

end

/-- `fFunctionDef`: the function declared, of type `void`. -/
structure DeclareFunInst where
  fName : String
  fArgsTypes : List (String × ArgType)
  fCode : List StatementInst

/-- The call that `fFunctionCall` drops the result of. -/
structure FunCallInst where
  fName : String
  fArgs : List ValueInst

/-- `Loop2FunctionBuider(fun_name, block, add_object)`: the function and its call. -/
def loop2Function (gVarTypeTable : String → Option Typed) (funName : String)
    (block : List StatementInst) (addObject : Bool) : Option (DeclareFunInst × FunCallInst) :=
  match (eventsOfBlock false block).foldlM (Loop2FunctionBuider.visit gVarTypeTable)
      ⟨[], [], [], []⟩ with
  | none => none
  | some b =>
    let types := if addObject then ("dsp", .kObj_ptr) :: b.fArgsTypeList else b.fArgsTypeList
    let values := if addObject then genLoadFunArgsVar "dsp" :: b.fArgsValueList
      else b.fArgsValueList
    let code := cloneBlock b.fAddedVarTable block ++ [.ret none]
    some (⟨funName, types, code⟩, ⟨funName, values⟩)

end Faust.Fir.Extract
