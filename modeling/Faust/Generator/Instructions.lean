import Faust.Tlib.Node

/-!
# The intermediate representation (`instructions.hh`)

Values and statements of FIR, the language all back-ends print. An address is the name of a
variable with its access type; every builder of an indexed address puts the index on a named
one.
-/

namespace Faust.Fir

/-- `Address::AccessType`. -/
inductive AccessType
  | kStruct | kStaticStruct | kFunArgs | kStack | kGlobal | kLink | kLoop | kVolatile
deriving DecidableEq, Repr

/-- `Typed::VarType`, the types of scalar variables. -/
inductive VarType
  | kFloatMacro | kFloat | kInt | kDouble | kQuad | kBool
deriving DecidableEq, Repr

/-- The types of declared variables: `BasicTyped`, and `ArrayTyped` with its size. An array
of size 0 is a pointer. -/
inductive Typed
  | basic (type : VarType)
  | array (type : VarType) (size : ℕ)
deriving DecidableEq, Repr

/-- `NamedAddress`. -/
structure NamedAddress where
  fName : String
  fAccess : AccessType
deriving DecidableEq, Repr

/-- `ValueInst`. -/
inductive ValueInst
  | null
  | loadVar (address : NamedAddress)
  | loadArrayVar (address : NamedAddress) (index : ValueInst)
  | loadArrayVarAddress (address : NamedAddress) (index : ValueInst)
  | intNum (num : ℤ)
  | realNum (ctype : VarType) (num : ℚ)
  | boolNum (num : Bool)
  | intArrayNum (nums : List ℤ)
  | realArrayNum (ctype : VarType) (nums : List ℚ)
  | binop (opcode : BinOp) (inst1 inst2 : ValueInst)
  | castNum (inst : ValueInst) (type : VarType)
  | select2 (cond then_ else_ : ValueInst)
  | funCall (name : String) (args : List ValueInst)

/-- `StatementInst`. -/
inductive StatementInst
  | declareVar (address : NamedAddress) (type : Typed) (value : Option ValueInst)
  | storeVar (address : NamedAddress) (value : ValueInst)
  | storeArrayVar (address : NamedAddress) (index value : ValueInst)
  | block (code : List StatementInst)
  | ifInst (cond : ValueInst) (then_ else_ : List StatementInst)
  | forLoop (init : StatementInst) (end_ : ValueInst) (increment : StatementInst)
      (code : List StatementInst)
  | whileLoop (cond : ValueInst) (code : List StatementInst)
  | switch (cond : ValueInst) (code : List (ℤ × List StatementInst))

/-! ## `InstBuilder` -/

namespace InstBuilder

/-- `genRealNumInst`. -/
def genRealNumInst (ctype : VarType) (num : ℚ) : ValueInst :=
  match ctype with
  | .kFloatMacro => .castNum (.realNum .kDouble num) .kFloatMacro
  | .kQuad => .realNum .kDouble num
  | ctype => .realNum ctype num

/-- `genTypedZero`. -/
def genTypedZero (type : VarType) : ValueInst :=
  if type = .kInt then .intNum 0 else genRealNumInst type 0

/-- `genDecStructVar`. -/
def genDecStructVar (vname : String) (type : Typed) (exp : Option ValueInst) : StatementInst :=
  .declareVar ⟨vname, .kStruct⟩ type exp

/-- `genLoadStructVar`. -/
def genLoadStructVar (vname : String) : ValueInst := .loadVar ⟨vname, .kStruct⟩

/-- `genLoadArrayStructVar`. -/
def genLoadArrayStructVar (vname : String) (index : ValueInst) : ValueInst :=
  .loadArrayVar ⟨vname, .kStruct⟩ index

/-- `genStoreStructVar`. -/
def genStoreStructVar (vname : String) (exp : ValueInst) : StatementInst :=
  .storeVar ⟨vname, .kStruct⟩ exp

/-- `genStoreArrayStructVar`. -/
def genStoreArrayStructVar (vname : String) (index exp : ValueInst) : StatementInst :=
  .storeArrayVar ⟨vname, .kStruct⟩ index exp

/-- `genDecStackVar`. -/
def genDecStackVar (vname : String) (type : Typed) (exp : Option ValueInst) : StatementInst :=
  .declareVar ⟨vname, .kStack⟩ type exp

/-- `genLoadStackVar`. -/
def genLoadStackVar (vname : String) : ValueInst := .loadVar ⟨vname, .kStack⟩

/-- `genLoadArrayStackVar`. -/
def genLoadArrayStackVar (vname : String) (index : ValueInst) : ValueInst :=
  .loadArrayVar ⟨vname, .kStack⟩ index

/-- `genLoadArrayStackVarAddress`. -/
def genLoadArrayStackVarAddress (vname : String) (index : ValueInst) : ValueInst :=
  .loadArrayVarAddress ⟨vname, .kStack⟩ index

/-- `genStoreArrayStackVar`. -/
def genStoreArrayStackVar (vname : String) (index exp : ValueInst) : StatementInst :=
  .storeArrayVar ⟨vname, .kStack⟩ index exp

/-- `genDecLoopVar`. -/
def genDecLoopVar (vname : String) (type : Typed) (exp : Option ValueInst) : StatementInst :=
  .declareVar ⟨vname, .kLoop⟩ type exp

/-- `genLoadLoopVar`. -/
def genLoadLoopVar (vname : String) : ValueInst := .loadVar ⟨vname, .kLoop⟩

/-- `genStoreLoopVar`. -/
def genStoreLoopVar (vname : String) (exp : ValueInst) : StatementInst :=
  .storeVar ⟨vname, .kLoop⟩ exp

/-- `genLoadFunArgsVar`. -/
def genLoadFunArgsVar (vname : String) : ValueInst := .loadVar ⟨vname, .kFunArgs⟩

/-- `genAdd`. -/
def genAdd (a1 a2 : ValueInst) : ValueInst := .binop .kAdd a1 a2

/-- `genSub`. -/
def genSub (a1 a2 : ValueInst) : ValueInst := .binop .kSub a1 a2

/-- `genRem`. -/
def genRem (a1 a2 : ValueInst) : ValueInst := .binop .kRem a1 a2

/-- `genGreaterThan`. -/
def genGreaterThan (a1 a2 : ValueInst) : ValueInst := .binop .kGT a1 a2

/-- `genLessThan`. -/
def genLessThan (a1 a2 : ValueInst) : ValueInst := .binop .kLT a1 a2

/-- `genLessEqual`. -/
def genLessEqual (a1 a2 : ValueInst) : ValueInst := .binop .kLE a1 a2

/-- `genAnd`. -/
def genAnd (a1 a2 : ValueInst) : ValueInst := .binop .kAND a1 a2

/-- `for (int index = 0; index < end_; index = index + 1)`, the loop that every generator of
loops but one builds out of `loop_decl`, `loop_end` and `loop_inc`. -/
def genCountLoop (index : String) (end_ : ValueInst) (code : List StatementInst) : StatementInst :=
  .forLoop (genDecLoopVar index (.basic .kInt) (some (.intNum 0)))
    (genLessThan (genLoadLoopVar index) end_)
    (genStoreLoopVar index (genAdd (genLoadLoopVar index) (.intNum 1)))
    code

end InstBuilder

end Faust.Fir
