import Faust.Generator.Instructions
import Faust.Lib.ExprGrammar

/-!
# The text of values (`text_instructions.hh` and the visitors of the text back-ends)

What `TextInstVisitor` and the visitors of C++, Java, JavaScript and asm.js print for a value, as
a list of tokens. A numeral is printed with its exact value. Calls of functions are left out, and
a value on which a visitor stops with `assert(false)`, or which it does not print, has no text.
-/

namespace Faust.Fir

open ExprGrammar

/-- `gVarTypeTable`: the types of the declared variables, with how they are accessed. -/
abbrev VarTypeTable := String → Option (AccessType × Typed)

/-- `isBoolOpcode`. -/
def isBoolOpcode : BinOp → Bool
  | .kGT | .kLT | .kGE | .kLE | .kEQ | .kNE => true
  | _ => false

/-- The `fName` of an entry of `gBinOpTable`. -/
def BinOp.fName : BinOp → Oper
  | .kAdd => .add
  | .kSub => .sub
  | .kMul => .mul
  | .kDiv => .div
  | .kRem => .rem
  | .kLsh => .shl
  | .kRsh => .shr
  | .kGT => .gt
  | .kLT => .lt
  | .kGE => .ge
  | .kLE => .le
  | .kEQ => .eq
  | .kNE => .ne
  | .kAND => .and
  | .kOR => .or
  | .kXOR => .xor

/-- `getAccess() & kStruct || getAccess() & kStaticStruct`. -/
def AccessType.inStruct : AccessType → Bool
  | .kStruct | .kStaticStruct => true
  | _ => false

/-- `startWith`. -/
def startWith (str start : String) : Bool := start.toList.isPrefixOf str.toList

/-! ## Types -/

/-- `fCurType`: the type of a number or of a pointer to numbers, or `kNoType`. -/
inductive CurType
  | basic (type : VarType)
  | ptr (type : VarType)
  | kNoType
deriving DecidableEq, Repr

namespace TypingVisitor

/-- The type of a binary operation that is not a comparison. -/
def binopType : CurType → CurType → CurType
  | .basic .kQuad, _ | _, .basic .kQuad => .kNoType
  | .basic .kInt, .basic .kInt | .basic .kInt, .basic .kBool
  | .basic .kBool, .basic .kInt | .basic .kBool, .basic .kBool => .basic .kInt
  | .basic _, .basic _ => .basic .kFloat
  | _, _ => .kNoType

variable (gVarTypeTable : VarTypeTable)

/-- The type the visitor ends with. -/
def visit : ValueInst → CurType
  | .loadVar a =>
    match gVarTypeTable a.fName with
    | some (_, .basic t) => .basic t
    | some (_, .array t _) => .ptr t
    | none => .kNoType
  | .loadArrayVar a _ =>
    match gVarTypeTable a.fName with
    | some (_, .array t _) => .basic t
    | _ => .kNoType
  | .realNum t _ => .basic t
  | .intNum _ => .basic .kInt
  | .boolNum _ => .basic .kBool
  | .binop op a b => if isBoolOpcode op then .basic .kBool else binopType (visit a) (visit b)
  | .castNum _ t => .basic t
  | .select2 _ t _ => visit t
  | _ => .kNoType

end TypingVisitor

/-! ## The common visitor -/

namespace TextInstVisitor

/-- `visit(IntNumInst*)`. -/
def intNum (num : ℤ) : List Tok :=
  if num < 0 then [.op .sub, .int num.natAbs] else [.int num.natAbs]

/-- `visit(FloatNumInst*)` and `visit(DoubleNumInst*)`. -/
def realNum (num : ℚ) : List Tok := if num < 0 then [.op .sub, .real (-num)] else [.real num]

/-- `visit(BoolNumInst*)`. -/
def boolNum (num : Bool) : List Tok := [.int (if num then 1 else 0)]

/-- `visit(IndexedAddress*)`. -/
def indexed (address index : List Tok) : List Tok := address ++ .lbrack :: (index ++ [.rbrack])

/-- `visit(BinopInst*)`. -/
def binop (op : BinOp) (inst1 inst2 : List Tok) : List Tok :=
  .lpar :: (inst1 ++ .op (BinOp.fName op) :: (inst2 ++ [.rpar]))

/-- `visit(Select2Inst*)`. -/
def select2 (cond then_ else_ : List Tok) : List Tok :=
  .lpar :: (cond ++ .question :: (then_ ++ .colon :: (else_ ++ [.rpar])))

end TextInstVisitor

open TextInstVisitor

/-! ## C++ -/

namespace CPPInstVisitor

/-- `generateType` of a `BasicTyped`. -/
def generateType : VarType → String
  | .kFloatMacro => "FAUSTFLOAT"
  | .kFloat => "float"
  | .kInt => "int"
  | .kDouble => "double"
  | .kQuad => "quad"
  | .kBool => "bool"

/-- The text of a value. -/
def visit : ValueInst → Option (List Tok)
  | .loadVar a => some [.name a.fName]
  | .loadArrayVar a i => do return indexed [.name a.fName] (← visit i)
  | .intNum n => some (intNum n)
  | .realNum _ x => some (realNum x)
  | .boolNum b => some (boolNum b)
  | .binop op a b => do return binop op (← visit a) (← visit b)
  | .castNum a t => do return .name (generateType t) :: .lpar :: ((← visit a) ++ [.rpar])
  | .select2 c t e => do return select2 (← visit c) (← visit t) (← visit e)
  | _ => none

end CPPInstVisitor

/-! ## JavaScript -/

namespace JAVAScriptInstVisitor

/-- `visit(NamedAddress*)`. -/
def named (a : NamedAddress) : List Tok :=
  if a.fAccess = .kStruct then [.name "this", .dot, .name a.fName] else [.name a.fName]

/-- The text of a value. A numeral has no mark of its type. -/
def visit : ValueInst → Option (List Tok)
  | .loadVar a => some (named a)
  | .loadArrayVar a i => do return indexed (named a) (← visit i)
  | .intNum n => some (intNum n)
  | .realNum _ x => some (realNum x)
  | .boolNum b => some (boolNum b)
  | .binop op a b => do return binop op (← visit a) (← visit b)
  | .castNum a _ => visit a
  | .select2 c t e => do return select2 (← visit c) (← visit t) (← visit e)
  | _ => none

end JAVAScriptInstVisitor

/-! ## Java -/

namespace JAVAInstVisitor

/-- `(type)inst`. -/
def cast (type : String) (inst : List Tok) : List Tok := .lpar :: .name type :: .rpar :: inst

/-- `((inst)?one:zero)`. -/
def choose (inst : List Tok) (one zero : Tok) : List Tok :=
  .lpar :: .lpar :: (inst ++ [.rpar, .question, one, .colon, zero, .rpar])

/-- The operands of a binary operation that is not a comparison, by their types. -/
def operands (type1 type2 : CurType) (inst1 inst2 : List Tok) : List Tok × List Tok :=
  match type1, type2 with
  | .basic .kInt, .basic .kInt => (inst1, inst2)
  | .basic .kInt, .basic .kFloat => (cast "float" inst1, inst2)
  | .basic .kFloat, .basic .kInt => (inst1, cast "float" inst2)
  | .basic .kFloat, .basic .kFloat => (inst1, inst2)
  | .basic .kInt, .basic .kBool => (inst1, choose inst2 (.int 1) (.int 0))
  | .basic .kBool, .basic .kInt => (choose inst1 (.int 1) (.int 0), inst2)
  | .basic .kBool, .basic .kBool =>
    (choose inst1 (.int 1) (.int 0), choose inst2 (.int 1) (.int 0))
  | .basic .kFloat, .basic .kBool => (inst1, choose inst2 (.real 1) (.real 0))
  | .basic .kBool, .basic .kFloat => (choose inst1 (.real 1) (.real 0), inst2)
  | _, _ => (inst1, inst2)

/-- `visit(CastNumInst*)` of a value of type `fCurType`. -/
def castNum (type : VarType) (fCurType : CurType) (inst : List Tok) : Option (List Tok) :=
  if type = .kInt then
    match fCurType with
    | .basic .kDouble | .basic .kFloat | .basic .kFloatMacro => some (cast "int" inst)
    | .basic .kInt => some inst
    | .basic .kBool => some (choose inst (.int 1) (.int 0))
    | _ => none
  else
    match fCurType with
    | .basic .kDouble | .basic .kInt => some (cast "float" inst)
    | .basic .kFloat | .basic .kFloatMacro => some inst
    | .basic .kBool => some (choose inst (.real 1) (.real 0))
    | _ => none

/-- `(inst==zero)?true:false` between parentheses. -/
def isZero (inst : List Tok) (zero : Tok) : List Tok :=
  .lpar :: .lpar :: (inst ++
    [.op .eq, zero, .rpar, .question, .name "true", .colon, .name "false", .rpar])

/-- The condition that `visit(Select2Inst*)` prints. -/
def condition (fCurType : CurType) (cond : List Tok) : Option (List Tok) :=
  match fCurType with
  | .basic .kDouble | .basic .kInt => some (isZero cond (.int 0))
  | .basic .kFloat | .basic .kFloatMacro => some (isZero cond (.real 0))
  | .basic .kBool => some (.lpar :: (cond ++ [.rpar]))
  | _ => none

variable (gVarTypeTable : VarTypeTable)

/-- The text of a value. -/
def visit : ValueInst → Option (List Tok)
  | .loadVar a => some [.name a.fName]
  | .loadArrayVar a i => do return indexed [.name a.fName] (← visit i)
  | .intNum n => some (intNum n)
  | .realNum _ x => some (realNum x)
  | .boolNum b => some (boolNum b)
  | .binop op a b => do
    let inst1 ← visit a
    let inst2 ← visit b
    if isBoolOpcode op then
      return binop op inst1 inst2
    else
      let type1 := TypingVisitor.visit gVarTypeTable a
      let type2 := TypingVisitor.visit gVarTypeTable b
      let (operand1, operand2) := operands type1 type2 inst1 inst2
      return binop op operand1 operand2
  | .castNum a t => do castNum t (TypingVisitor.visit gVarTypeTable a) (← visit a)
  | .select2 c t e => do
    let cond ← condition (TypingVisitor.visit gVarTypeTable c) (← visit c)
    return select2 cond (← visit t) (← visit e)
  | _ => none

end JAVAInstVisitor

/-! ## asm.js -/

namespace ASMJAVAScriptInstVisitor

/-- `fFieldTable`: the offset in bytes of a field of the structure, and its type. -/
abbrev FieldTable := String → ℕ × CurType

/-- `(inst | 0)`. -/
def toInt (inst : List Tok) : List Tok := .lpar :: (inst ++ [.op .or, .int 0, .rpar])

/-- `+(inst)`. -/
def toReal (inst : List Tok) : List Tok := .op .add :: .lpar :: (inst ++ [.rpar])

variable (fFieldTable : FieldTable)

/-- `visit(NamedAddress*)`. -/
def named (a : NamedAddress) : Option (List Tok) :=
  let tmp := fFieldTable a.fName
  if a.fAccess.inStruct then
    match tmp.2 with
    | .basic .kFloatMacro | .basic .kFloat | .basic .kDouble =>
      some [.name "HEAPF32", .lbrack, .name "dsp", .op .add, .int tmp.1, .op .shr, .int 2, .rbrack]
    | .basic .kInt =>
      some [.name "HEAP32", .lbrack, .name "dsp", .op .add, .int tmp.1, .op .shr, .int 2, .rbrack]
    | .ptr .kFloatMacro | .ptr .kFloat | .ptr .kDouble | .ptr .kInt =>
      some [.name "dsp", .op .add, .int tmp.1]
    | _ => none
  else some [.name a.fName]

/-- `heap[base + (index << 2) >> 2]`. -/
def heapElement (heap : String) (base index : List Tok) : List Tok :=
  .name heap :: .lbrack :: (base ++ .op .add :: .lpar :: (index ++
    [.op .shl, .int 2, .rpar, .op .shr, .int 2, .rbrack]))

/-- `visit(IndexedAddress*)`. -/
def indexedAddress (a : NamedAddress) (index : List Tok) : List Tok :=
  let tmp := fFieldTable a.fName
  if startWith a.fName "inputs" || startWith a.fName "outputs" then
    heapElement "HEAP32" [.name a.fName] index
  else if startWith a.fName "input" || startWith a.fName "output" then
    heapElement "HEAPF32" [.name a.fName] index
  else if a.fAccess.inStruct then
    match tmp.2 with
    | .ptr .kFloatMacro | .ptr .kFloat | .ptr .kDouble =>
      heapElement "HEAPF32" [.name "dsp", .op .add, .int tmp.1] index
    | _ => heapElement "HEAP32" [.name "dsp", .op .add, .int tmp.1] index
  else indexed [.name a.fName] index

/-- `visit(LoadVarInst*)` of a variable of type `fCurType`, from the text of its address. -/
def load (name : String) (fCurType : CurType) (address : List Tok) : List Tok :=
  match fCurType with
  | .basic .kInt | .ptr .kInt | .ptr .kFloat | .ptr .kFloatMacro => toInt address
  | .basic .kFloatMacro | .basic .kFloat | .basic .kDouble => toReal address
  | _ =>
    if startWith name "inputs" || startWith name "outputs" || startWith name "count"
        || startWith name "samplingFreq" then toInt address
    else address

/-- `visit(BinopInst*)` of operands of these types. -/
def binop (op : BinOp) (type1 type2 : CurType) (inst1 inst2 : List Tok) : List Tok :=
  let inst := inst1 ++ .op (BinOp.fName op) :: inst2
  if isBoolOpcode op then toInt inst
  else
    match TypingVisitor.binopType type1 type2 with
    | .basic .kInt =>
      if op = .kMul then
        toInt (.name "imul" :: .lpar :: (inst1 ++ .comma :: (inst2 ++ [.rpar])))
      else toInt inst
    | .basic _ => toReal inst
    | _ => .lpar :: (inst ++ [.rpar])

/-- `visit(CastNumInst*)`. -/
def castNum (type : VarType) (inst : List Tok) : Option (List Tok) :=
  match type with
  | .kInt => some (.tilde :: .tilde :: .lpar :: (inst ++ [.rpar]))
  | .kFloatMacro | .kFloat | .kDouble => some (toReal inst)
  | _ => none

variable (gVarTypeTable : VarTypeTable)

/-- The text of a value. -/
def visit : ValueInst → Option (List Tok)
  | .loadVar a => do
    return load a.fName (TypingVisitor.visit gVarTypeTable (.loadVar a)) (← named fFieldTable a)
  | .loadArrayVar a i => do
    return load a.fName (TypingVisitor.visit gVarTypeTable (.loadArrayVar a i))
      (indexedAddress fFieldTable a (← visit i))
  | .intNum n => some (intNum n)
  | .realNum _ x => some (realNum x)
  | .boolNum b => some (boolNum b)
  | .binop op a b => do
    return binop op (TypingVisitor.visit gVarTypeTable a) (TypingVisitor.visit gVarTypeTable b)
      (← visit a) (← visit b)
  | .castNum a t => do castNum t (← visit a)
  | .select2 c t e => do return select2 (← visit c) (← visit t) (← visit e)
  | _ => none

end ASMJAVAScriptInstVisitor

end Faust.Fir
