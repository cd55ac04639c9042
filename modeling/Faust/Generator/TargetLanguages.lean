import Faust.Generator.InstSemantics
import Faust.Generator.TextInstructions

/-!
# The languages of the text back-ends

What an expression of C, of Java and of JavaScript means. Integers of C and Java are 32-bit
words, reals are exact; a number of JavaScript is an exact real, turned into a word by the
operators on bits. asm.js is JavaScript, with the structure of the program in a heap.
-/

namespace Faust.Fir

open ExprGrammar

/-- The operation of a binary operator. -/
def operation : Oper → BinOp
  | .add => .kAdd
  | .sub => .kSub
  | .mul => .kMul
  | .div => .kDiv
  | .rem => .kRem
  | .shl => .kLsh
  | .shr => .kRsh
  | .gt => .kGT
  | .lt => .kLT
  | .ge => .kGE
  | .le => .kLE
  | .eq => .kEQ
  | .ne => .kNE
  | .and => .kAND
  | .or => .kOR
  | .xor => .kXOR

@[simp] theorem operation_fName (op : BinOp) : operation (BinOp.fName op) = op := by
  cases op <;> rfl

/-- Whether a type is one of reals. -/
def VarType.isReal : VarType → Bool
  | .kInt | .kBool => false
  | _ => true

/-- The opposite of a number. -/
def Val.neg : Val → Val
  | .int b => .int (-b)
  | .real x => .real (-x)

/-- A number, converted when it has to be real. -/
def Val.promote (real : Bool) (v : Val) : Val := if real then .real v.toReal else v

/-! ## C -/

namespace C

/-- No name of a type stands in a cast: C++ writes a conversion as a call. -/
def types : String → Bool := fun _ => false

/-- The type that a call converts to. -/
def conversion : String → Option VarType
  | "int" => some .kInt
  | "float" => some .kFloat
  | "double" => some .kDouble
  | "FAUSTFLOAT" => some .kFloatMacro
  | _ => none

variable (gVarTypeTable : VarTypeTable)

/-- Whether the type of an expression is a real one. -/
def isReal : Expr → Bool
  | .real _ => true
  | .name x =>
    match gVarTypeTable x with
    | some (_, .basic t) => t.isReal
    | _ => false
  | .index (.name x) _ =>
    match gVarTypeTable x with
    | some (_, .array t _) => t.isReal
    | _ => false
  | .call1 f _ => ((conversion f).map VarType.isReal).getD false
  | .paren a | .unary _ a => isReal a
  | .binary o a b => !isBoolOpcode (operation o) && (isReal a || isReal b)
  | .cond _ t e => isReal t || isReal e
  | _ => false

variable (m : Memory)

/-- The value of an expression, if it has one. -/
def eval : Expr → Option Val
  | .int n => some (.int (.ofNat 32 n))
  | .real x => some (.real x)
  | .name x =>
    match m x with
    | .scalar v => v
    | _ => none
  | .index (.name x) i =>
    match eval i with
    | some (.int b) => m.loadArray x b.toInt
    | _ => none
  | .call1 f a => do Val.cast (← conversion f) (← eval a)
  | .paren a | .unary .plus a => eval a
  | .unary .neg a => (eval a).map Val.neg
  | .binary o a b => do Val.binop (operation o) (← eval a) (← eval b)
  | .cond c t e => do
    let v ← if (← eval c).truth then eval t else eval e
    return v.promote (isReal gVarTypeTable t || isReal gVarTypeTable e)
  | _ => none

/-- The text has the value `v`. -/
def Means (ts : List Tok) (v : Val) : Prop := ∃ x, Reads types ts x ∧ eval gVarTypeTable m x = some v

end C

/-! ## Java -/

namespace Java

/-- The types that stand in a cast. -/
def types (t : String) : Bool := t == "int" || t == "float"

/-- The types of numbers, `float` and `double` being one, and the one of truth values. -/
inductive JavaType
  | boolean | int | real
deriving DecidableEq, Repr

/-- The type of a variable or of an element. -/
def ofVarType (t : VarType) : JavaType := if t = .kBool then .boolean else
  if t.isReal then .real else .int

/-- The type that numbers of two types are promoted to. -/
def promote : JavaType → JavaType → Option JavaType
  | .int, .int => some .int
  | .int, .real | .real, .int | .real, .real => some .real
  | _, _ => none

/-- The type of a binary operation. -/
def binaryType (op : BinOp) (s t : JavaType) : Option JavaType :=
  match op with
  | .kAdd | .kSub | .kMul | .kDiv | .kRem => promote s t
  | .kLsh | .kRsh => if s = .int ∧ t = .int then some .int else none
  | .kGT | .kLT | .kGE | .kLE => (promote s t).map fun _ => .boolean
  | .kEQ | .kNE =>
    if s = .boolean ∧ t = .boolean then some .boolean else (promote s t).map fun _ => .boolean
  | .kAND | .kOR | .kXOR =>
    if s = .int ∧ t = .int then some .int
    else if s = .boolean ∧ t = .boolean then some .boolean
    else none

variable (gVarTypeTable : VarTypeTable)

/-- The type of an expression, if it is well formed. The least integer is the negation of a
literal that does not fit. -/
def type : Expr → Option JavaType
  | .int n => if n < 2 ^ 31 then some .int else none
  | .real _ => some .real
  | .name x =>
    if x = "true" ∨ x = "false" then some .boolean
    else
      match gVarTypeTable x with
      | some (_, .basic t) => some (ofVarType t)
      | _ => none
  | .index (.name x) i =>
    match gVarTypeTable x, type i with
    | some (_, .array t _), some .int => some (ofVarType t)
    | _, _ => none
  | .cast "int" a => if type a = some .int ∨ type a = some .real then some .int else none
  | .cast "float" a => if type a = some .int ∨ type a = some .real then some .real else none
  | .paren a => type a
  | .unary .neg (.int n) => if n ≤ 2 ^ 31 then some .int else none
  | .unary .neg a =>
    match type a with
    | some .boolean => none
    | t => t
  | .binary o a b => do binaryType (operation o) (← type a) (← type b)
  | .cond c t e =>
    match type c, type t, type e with
    | some .boolean, some .boolean, some .boolean => some .boolean
    | some .boolean, some s, some t => promote s t
    | _, _, _ => none
  | _ => none

/-- A value at run time. -/
inductive JavaVal
  | boolean (b : Bool)
  | num (v : Val)
deriving DecidableEq, Repr

/-- Arithmetic on `int`: division by zero throws, the amount of a shift is taken modulo 32. -/
def intOp (op : BinOp) (a b : BitVec 32) : Option JavaVal :=
  match op with
  | .kAdd => some (.num (.int (a + b)))
  | .kSub => some (.num (.int (a - b)))
  | .kMul => some (.num (.int (a * b)))
  | .kDiv => if b = 0 then none else some (.num (.int (a.sdiv b)))
  | .kRem => if b = 0 then none else some (.num (.int (a.srem b)))
  | .kLsh => some (.num (.int (a <<< (b.toNat % 32))))
  | .kRsh => some (.num (.int (a.sshiftRight (b.toNat % 32))))
  | .kGT => some (.boolean (b.slt a))
  | .kLT => some (.boolean (a.slt b))
  | .kGE => some (.boolean (b.sle a))
  | .kLE => some (.boolean (a.sle b))
  | .kEQ => some (.boolean (a == b))
  | .kNE => some (.boolean (a != b))
  | .kAND => some (.num (.int (a &&& b)))
  | .kOR => some (.num (.int (a ||| b)))
  | .kXOR => some (.num (.int (a ^^^ b)))

/-- Arithmetic on reals; a division by zero is no number. -/
def realOp (op : BinOp) (x y : ℚ) : Option JavaVal :=
  match op with
  | .kAdd => some (.num (.real (x + y)))
  | .kSub => some (.num (.real (x - y)))
  | .kMul => some (.num (.real (x * y)))
  | .kDiv => if y = 0 then none else some (.num (.real (x / y)))
  | .kRem => if y = 0 then none else some (.num (.real (x - y * truncInt (x / y))))
  | .kGT => some (.boolean (decide (y < x)))
  | .kLT => some (.boolean (decide (x < y)))
  | .kGE => some (.boolean (decide (y ≤ x)))
  | .kLE => some (.boolean (decide (x ≤ y)))
  | .kEQ => some (.boolean (decide (x = y)))
  | .kNE => some (.boolean (decide (x ≠ y)))
  | _ => none

/-- Operators on `boolean`. -/
def boolOp (op : BinOp) (a b : Bool) : Option JavaVal :=
  match op with
  | .kEQ => some (.boolean (a == b))
  | .kNE => some (.boolean (a != b))
  | .kAND => some (.boolean (a && b))
  | .kOR => some (.boolean (a || b))
  | .kXOR => some (.boolean (a ^^ b))
  | _ => none

/-- A binary operation: the operands are promoted to reals as soon as one is real. -/
def binary (op : BinOp) : JavaVal → JavaVal → Option JavaVal
  | .boolean a, .boolean b => boolOp op a b
  | .num (.int a), .num (.int b) => intOp op a b
  | .num v, .num w => realOp op v.toReal w.toReal
  | _, _ => none

/-- `(int)`: a real out of range becomes the nearest `int`. -/
def toInt : Val → BitVec 32
  | .int b => b
  | .real x => .ofInt 32 (max (-2 ^ 31) (min (2 ^ 31 - 1) (truncInt x)))

variable (m : Memory)

/-- The value of an expression. -/
def eval : Expr → Option JavaVal
  | .int n => some (.num (.int (.ofNat 32 n)))
  | .real x => some (.num (.real x))
  | .name x =>
    if x = "true" then some (.boolean true)
    else if x = "false" then some (.boolean false)
    else
      match m x with
      | .scalar v => v.map .num
      | _ => none
  | .index (.name x) i =>
    match eval i with
    | some (.num (.int b)) => (m.loadArray x b.toInt).map .num
    | _ => none
  | .cast "int" a =>
    match eval a with
    | some (.num v) => some (.num (.int (toInt v)))
    | _ => none
  | .cast "float" a =>
    match eval a with
    | some (.num v) => some (.num (.real v.toReal))
    | _ => none
  | .paren a => eval a
  | .unary .neg a =>
    match eval a with
    | some (.num v) => some (.num v.neg)
    | _ => none
  | .binary o a b => do binary (operation o) (← eval a) (← eval b)
  | .cond c t e =>
    match eval c with
    | some (.boolean b) => do
      match ← if b then eval t else eval e with
      | .num v => return .num (v.promote (type gVarTypeTable (.cond c t e) = some .real))
      | v => return v
    | _ => none
  | _ => none

/-- A number, or a truth value as 0 or 1. -/
def JavaVal.toVal : JavaVal → Val
  | .boolean b => .ofBool b
  | .num v => v

/-- The text is a well-formed expression. -/
def WellFormed (ts : List Tok) : Prop :=
  ∃ x t, Reads types ts x ∧ type gVarTypeTable x = some t

/-- The text has the value `v`. -/
def Means (ts : List Tok) (v : Val) : Prop :=
  ∃ x w, Reads types ts x ∧ eval gVarTypeTable m x = some w ∧ w.toVal = v

end Java

/-! ## JavaScript -/

namespace JavaScript

/-- There are no casts. -/
def types : String → Bool := fun _ => false

/-- A value at run time. -/
inductive JsVal
  | boolean (b : Bool)
  | num (x : ℚ)
deriving DecidableEq, Repr

namespace JsVal

/-- `ToNumber`. -/
def toNumber : JsVal → ℚ
  | boolean b => if b then 1 else 0
  | num x => x

/-- `ToBoolean`. -/
def truth : JsVal → Bool
  | boolean b => b
  | num x => decide (x ≠ 0)

/-- `ToInt32`. -/
def toInt32 (v : JsVal) : BitVec 32 := .ofInt 32 (truncInt v.toNumber)

/-- The number that a word stands for. -/
def ofInt32 (b : BitVec 32) : JsVal := .num b.toInt

end JsVal

/-- A binary operation. A division by zero gives no exact real. -/
def binary (op : BinOp) (v w : JsVal) : Option JsVal :=
  let x := v.toNumber
  let y := w.toNumber
  match op with
  | .kAdd => some (.num (x + y))
  | .kSub => some (.num (x - y))
  | .kMul => some (.num (x * y))
  | .kDiv => if y = 0 then none else some (.num (x / y))
  | .kRem => if y = 0 then none else some (.num (x - y * truncInt (x / y)))
  | .kLsh => some (.ofInt32 (v.toInt32 <<< (w.toInt32.toNat % 32)))
  | .kRsh => some (.ofInt32 (v.toInt32.sshiftRight (w.toInt32.toNat % 32)))
  | .kGT => some (.boolean (decide (y < x)))
  | .kLT => some (.boolean (decide (x < y)))
  | .kGE => some (.boolean (decide (y ≤ x)))
  | .kLE => some (.boolean (decide (x ≤ y)))
  | .kEQ => some (.boolean (decide (x = y)))
  | .kNE => some (.boolean (decide (x ≠ y)))
  | .kAND => some (.ofInt32 (v.toInt32 &&& w.toInt32))
  | .kOR => some (.ofInt32 (v.toInt32 ||| w.toInt32))
  | .kXOR => some (.ofInt32 (v.toInt32 ^^^ w.toInt32))

/-- The numbers that the names and the fields of `this` stand for, and their elements. -/
structure Env where
  var : String → Option ℚ
  elem : String → ℤ → Option ℚ
  field : String → Option ℚ
  fieldElem : String → ℤ → Option ℚ

/-- Element `v` of an array: an index is an integral number. -/
def getElem (elem : ℤ → Option ℚ) (v : JsVal) : Option JsVal :=
  match v with
  | .num x => if x.den = 1 then (elem x.num).map .num else none
  | .boolean _ => none

variable (env : Env)

/-- The value of an expression. `imul` is the product of two words. -/
def eval : Expr → Option JsVal
  | .int n => some (.num n)
  | .real x => some (.num x)
  | .name x => (env.var x).map .num
  | .member (.name "this") x => (env.field x).map .num
  | .index (.name x) i => do getElem (env.elem x) (← eval i)
  | .index (.member (.name "this") x) i => do getElem (env.fieldElem x) (← eval i)
  | .call2 "imul" a b => do return .ofInt32 ((← eval a).toInt32 * (← eval b).toInt32)
  | .paren a => eval a
  | .unary .neg a => do return .num (-(← eval a).toNumber)
  | .unary .plus a => do return .num (← eval a).toNumber
  | .unary .compl a => do return .ofInt32 (~~~ (← eval a).toInt32)
  | .binary o a b => do binary (operation o) (← eval a) (← eval b)
  | .cond c t e => do if (← eval c).truth then eval t else eval e
  | _ => none

/-- The text is a well-formed expression. -/
def WellFormed (ts : List Tok) : Prop := ∃ x, Reads types ts x

/-- The text has the value `v`. -/
def Means (ts : List Tok) (v : Val) : Prop :=
  ∃ x w, Reads types ts x ∧ eval env x = some w ∧ w.toNumber = v.toReal

end JavaScript

/-- The number a variable holds. -/
def Memory.number (m : Memory) (x : String) : Option ℚ :=
  match m x with
  | .scalar v => v.map Val.toReal
  | _ => none

/-- The number an element holds. -/
def Memory.numberAt (m : Memory) (x : String) (i : ℤ) : Option ℚ := (m.loadArray x i).map Val.toReal

/-- How a JavaScript program sees a memory: the structure is `this`. -/
def jsEnv (gVarTypeTable : VarTypeTable) (m : Memory) : JavaScript.Env where
  var x := if ((gVarTypeTable x).map Prod.fst) = some .kStruct then none else m.number x
  elem x i := if ((gVarTypeTable x).map Prod.fst) = some .kStruct then none else m.numberAt x i
  field x := if ((gVarTypeTable x).map Prod.fst) = some .kStruct then m.number x else none
  fieldElem x i :=
    if ((gVarTypeTable x).map Prod.fst) = some .kStruct then m.numberAt x i else none

/-! ## asm.js -/

/-- The heap of an asm.js program, with the addresses of the structure and of the buffers. -/
structure Heap where
  dsp : ℤ
  address : String → ℤ
  heap32 : ℤ → BitVec 32
  heapF32 : ℤ → ℚ

namespace Heap

/-- The number of a type at an address. -/
def read (h : Heap) (t : VarType) (a : ℤ) : ℚ :=
  if t.isReal then h.heapF32 (a / 4) else (h.heap32 (a / 4)).toInt

/-- A buffer of the caller, known by its name. -/
def isBuffer (x : String) : Bool := startWith x "input" || startWith x "output"

/-- How an asm.js program sees a memory: the structure and the buffers are in the heap. -/
def env (h : Heap) (gVarTypeTable : VarTypeTable) (m : Memory) : JavaScript.Env where
  var x :=
    if x = "dsp" then some h.dsp
    else
      match gVarTypeTable x with
      | some (a, .basic _) => if a.inStruct then none else m.number x
      | some (a, .array _ _) => if a.inStruct then none else some (h.address x)
      | none => none
  elem x i :=
    if x = "HEAP32" then some (h.heap32 i).toInt
    else if x = "HEAPF32" then some (h.heapF32 i)
    else
      match gVarTypeTable x with
      | some (a, .array _ _) => if a.inStruct || isBuffer x then none else m.numberAt x i
      | _ => none
  field _ := none
  fieldElem _ _ := none

/-- An address of the heap that the program can compute. -/
def Valid (a : ℤ) : Prop := 0 ≤ a ∧ a < 2 ^ 31

/-- The element `i` of an array at an address is the element of the memory. -/
def Holds (h : Heap) (t : VarType) (a : ℤ) (m : Memory) (x : String) : Prop :=
  ∀ i v, m.loadArray x i = some v →
    IsInt32 (4 * i) ∧ Valid (a + 4 * i) ∧ h.read t (a + 4 * i) = v.toReal

/-- The names of asm.js itself. -/
def reserved (x : String) : Bool := x == "dsp" || x == "HEAP32" || x == "HEAPF32"

/-- The heap holds the memory: the fields are at their offsets in the structure, the buffers
at their addresses. -/
structure Lays (h : Heap) (gVarTypeTable : VarTypeTable)
    (fFieldTable : ASMJAVAScriptInstVisitor.FieldTable) (m : Memory) : Prop where
  names : ∀ x t, gVarTypeTable x = some t → reserved x = false ∧ startWith x "inputs" = false ∧
    startWith x "outputs" = false
  scalar : ∀ x a t, gVarTypeTable x = some (a, .basic t) → a.inStruct = true →
    (fFieldTable x).2 = .basic t ∧ Valid (h.dsp + (fFieldTable x).1) ∧
      ∀ v, m x = .scalar (some v) → h.read t (h.dsp + (fFieldTable x).1) = v.toReal
  array : ∀ x a t n, gVarTypeTable x = some (a, .array t n) → isBuffer x = false →
    a.inStruct = true → (fFieldTable x).2 = .ptr t ∧ h.Holds t (h.dsp + (fFieldTable x).1) m x
  buffer : ∀ x a t n, gVarTypeTable x = some (a, .array t n) → isBuffer x = true →
    a.inStruct = false ∧ t.isReal = true ∧ h.Holds t (h.address x) m x

end Heap

end Faust.Fir
