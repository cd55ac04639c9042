import Faust.Generator.Instructions
import Mathlib.Logic.Relation

/-!
# The meaning of FIR

FIR statements are read as the C the text back-ends print for them: integers are 32-bit
words, reals are exact, and what C leaves undefined (an access outside of an array, the use of
an uninitialised variable, a division by zero, an oversized shift) has no value.

A configuration is the code still to execute and the memory. `step` executes the first
statement, or unfolds it when it is a block, a conditional or a loop.
-/

namespace Faust.Fir

/-! ## Values -/

/-- A number at run time. -/
inductive Val
  | int (i : BitVec 32)
  | real (x : ℚ)
deriving DecidableEq, Repr

namespace Val

/-- The result of a comparison. -/
def ofBool (b : Bool) : Val := .int (if b then 1 else 0)

/-- The truth of a condition: a number is true when it is not zero. -/
def truth : Val → Bool
  | int i => decide (i ≠ 0)
  | real x => decide (x ≠ 0)

/-- A value converted to `double`. -/
def toReal : Val → ℚ
  | int i => i.toInt
  | real x => x

/-- A value converted to `int`, undefined when the truncated number does not fit. -/
def toInt : Val → Option (BitVec 32)
  | int i => some i
  | real x => if IsInt32 (truncInt x) then some (.ofInt 32 (truncInt x)) else none

/-- Operators on `int`. -/
def intOp (op : BinOp) (a b : BitVec 32) : Option Val :=
  match op with
  | .kAdd => some (.int (a + b))
  | .kSub => some (.int (a - b))
  | .kMul => some (.int (a * b))
  | .kDiv => if b = 0 ∨ a = .intMin 32 ∧ b = -1 then none else some (.int (a.sdiv b))
  | .kRem => if b = 0 ∨ a = .intMin 32 ∧ b = -1 then none else some (.int (a.srem b))
  | .kLsh => if b.toNat < 32 then some (.int (a <<< b.toNat)) else none
  | .kRsh => if b.toNat < 32 then some (.int (a.sshiftRight b.toNat)) else none
  | .kGT => some (ofBool (b.slt a))
  | .kLT => some (ofBool (a.slt b))
  | .kGE => some (ofBool (b.sle a))
  | .kLE => some (ofBool (a.sle b))
  | .kEQ => some (ofBool (a == b))
  | .kNE => some (ofBool (a != b))
  | .kAND => some (.int (a &&& b))
  | .kOR => some (.int (a ||| b))
  | .kXOR => some (.int (a ^^^ b))

/-- Operators on reals. -/
def realOp (op : BinOp) (x y : ℚ) : Option Val :=
  match op with
  | .kAdd => some (.real (x + y))
  | .kSub => some (.real (x - y))
  | .kMul => some (.real (x * y))
  | .kDiv => if y = 0 then none else some (.real (x / y))
  | .kGT => some (ofBool (decide (y < x)))
  | .kLT => some (ofBool (decide (x < y)))
  | .kGE => some (ofBool (decide (y ≤ x)))
  | .kLE => some (ofBool (decide (x ≤ y)))
  | .kEQ => some (ofBool (decide (x = y)))
  | .kNE => some (ofBool (decide (x ≠ y)))
  | _ => none

/-- A binary operator: the operation is done on reals as soon as one operand is real. -/
def binop (op : BinOp) : Val → Val → Option Val
  | int a, int b => intOp op a b
  | v, w => realOp op v.toReal w.toReal

/-- A conversion. -/
def cast : VarType → Val → Option Val
  | .kInt, v => v.toInt.map int
  | .kBool, v => some (ofBool v.truth)
  | _, v => some (.real v.toReal)

end Val

/-! ## Memory -/

/-- What a name stands for. A pointer is an array with an offset in it. -/
inductive Cell
  | undeclared
  | scalar (v : Option Val)
  | array (vs : List (Option Val))
  | pointer (p : Option (String × ℤ))
  | pointers (ps : List (String × ℤ))
deriving DecidableEq

/-- A memory. -/
abbrev Memory := String → Cell

namespace Memory

/-- Element `i` of a list, if there is one. -/
def getAt {α : Type} (vs : List α) (i : ℤ) : Option α := if 0 ≤ i then vs[i.toNat]? else none

/-- The array and the position that element `i` of the variable `n` stands for. -/
def resolve (m : Memory) (n : String) (i : ℤ) : String × ℤ :=
  match m n with
  | .pointer (some (base, offset)) => (base, offset + i)
  | _ => (n, i)

/-- The value of `n[i]`. -/
def loadArray (m : Memory) (n : String) (i : ℤ) : Option Val :=
  match m (m.resolve n i).1 with
  | .array vs => (getAt vs (m.resolve n i).2).join
  | _ => none

/-- `n[i] = v`. -/
def storeArray (m : Memory) (n : String) (i : ℤ) (v : Val) : Option Memory :=
  match m (m.resolve n i).1 with
  | .array vs =>
    if 0 ≤ (m.resolve n i).2 ∧ (m.resolve n i).2 < vs.length then
      some (Function.update m (m.resolve n i).1 (.array (vs.set (m.resolve n i).2.toNat (some v))))
    else none
  | _ => none

end Memory

/-! ## Expressions -/

/-- The functions that the program does not define, such as those of the math library. -/
abbrev ExternFun := String → List Val → Option Val

section
variable (ext : ExternFun)

mutual

/-- The value of an expression. -/
def ValueInst.eval (m : Memory) : ValueInst → Option Val
  | .loadVar a =>
    match m a.fName with
    | .scalar v => v
    | _ => none
  | .loadArrayVar a i =>
    match i.eval m with
    | some (.int b) => m.loadArray a.fName b.toInt
    | _ => none
  | .intNum n => some (.int (.ofInt 32 n))
  | .realNum _ x => some (.real x)
  | .boolNum b => some (.ofBool b)
  | .binop op a b => do Val.binop op (← a.eval m) (← b.eval m)
  | .castNum a t => do Val.cast t (← a.eval m)
  | .select2 c t e => do if (← c.eval m).truth then t.eval m else e.eval m
  | .funCall f args => do ext f (← evalArgs m args)
  | .null | .loadArrayVarAddress _ _ | .intArrayNum _ | .realArrayNum _ _ => none

/-- The values of the arguments of a function. -/
def evalArgs (m : Memory) : List ValueInst → Option (List Val)
  | [] => some []
  | a :: as => do return (← a.eval m) :: (← evalArgs m as)

end

/-- The value of an expression that denotes a pointer. -/
def ValueInst.evalPointer (m : Memory) : ValueInst → Option (String × ℤ)
  | .loadVar a =>
    match m a.fName with
    | .pointer p => p
    | _ => none
  | .loadArrayVar a i =>
    match m a.fName, i.eval ext m with
    | .pointers ps, some (.int b) => Memory.getAt ps b.toInt
    | _, _ => none
  | .loadArrayVarAddress a i =>
    match i.eval ext m with
    | some (.int b) => some (m.resolve a.fName b.toInt)
    | _ => none
  | _ => none

/-! ## Statements -/

/-- The contents of a declared variable. -/
def declareCell (m : Memory) : Typed → Option ValueInst → Option Cell
  | .basic _, none => some (.scalar none)
  | .basic _, some v => (v.eval ext m).map fun w => .scalar (some w)
  | .array _ 0, none => some (.pointer none)
  | .array _ 0, some v => (v.evalPointer ext m).map fun p => .pointer (some p)
  | .array _ n, none => some (.array (List.replicate n none))
  | .array _ n, some (.intArrayNum is) =>
    if is.length = n then some (.array (is.map fun i => some (.int (.ofInt 32 i)))) else none
  | .array _ n, some (.realArrayNum _ xs) =>
    if xs.length = n then some (.array (xs.map fun x => some (.real x))) else none
  | .array _ _, some _ => none

/-- The contents of an assigned variable. -/
def storeCell (m : Memory) (v : ValueInst) : Cell → Option Cell
  | .scalar _ => (v.eval ext m).map fun w => .scalar (some w)
  | .pointer _ => (v.evalPointer ext m).map fun p => .pointer (some p)
  | _ => none

/-- The block a `switch` executes: the one of the value, else the default one, which is coded
by -1. -/
def selectCase {α : Type} (i : ℤ) (cases : List (ℤ × List α)) : List α :=
  match cases.find? (fun c => c.1 == i && c.1 != -1) with
  | some c => c.2
  | none =>
    match cases.find? (fun c => c.1 == -1) with
    | some c => c.2
    | none => []

/-- The block is one of the cases, or empty. -/
theorem selectCase_cases {α : Type} (i : ℤ) (cases : List (ℤ × List α)) :
    (∃ c ∈ cases, selectCase i cases = c.2) ∨ selectCase i cases = [] := by
  unfold selectCase
  split
  · next c hc => exact Or.inl ⟨c, List.mem_of_find?_eq_some hc, rfl⟩
  · split
    · next c hc => exact Or.inl ⟨c, List.mem_of_find?_eq_some hc, rfl⟩
    · exact Or.inr rfl

/-- The block of a translated `switch`. -/
theorem selectCase_map {α β : Type} {f : List α → List β} (hf : f [] = []) (i : ℤ)
    (cases : List (ℤ × List α)) :
    selectCase i (cases.map fun c => (c.1, f c.2)) = f (selectCase i cases) := by
  have hfind : ∀ p : ℤ → Bool, (cases.map fun c => (c.1, f c.2)).find? (fun c => p c.1) =
      (cases.find? fun c => p c.1).map fun c => (c.1, f c.2) := fun p => List.find?_map
  unfold selectCase
  rw [hfind fun j => j == i && j != -1, hfind fun j => j == -1]
  cases cases.find? fun c => c.1 == i && c.1 != -1 with
  | some c => rfl
  | none =>
    cases cases.find? fun c => c.1 == -1 with
    | some c => rfl
    | none => exact hf.symm

/-- The code still to execute and the memory. -/
abbrev Config := List StatementInst × Memory

/-- One step of execution. -/
def step : Config → Option Config
  | ([], _) => none
  | (.declareVar a t v :: k, m) => do
    return (k, Function.update m a.fName (← declareCell ext m t v))
  | (.storeVar a v :: k, m) => do
    return (k, Function.update m a.fName (← storeCell ext m v (m a.fName)))
  | (.storeArrayVar a i v :: k, m) =>
    match i.eval ext m, v.eval ext m with
    | some (.int b), some w => (m.storeArray a.fName b.toInt w).map (k, ·)
    | _, _ => none
  | (.block code :: k, m) => some (code ++ k, m)
  | (.ifInst c t e :: k, m) => do
    return ((if (← c.eval ext m).truth then t else e) ++ k, m)
  | (.forLoop init end_ incr code :: k, m) =>
    some (init :: .whileLoop end_ (code ++ [incr]) :: k, m)
  | (.whileLoop c code :: k, m) => do
    return (if (← c.eval ext m).truth then code ++ .whileLoop c code :: k else k, m)
  | (.switch c cases :: k, m) =>
    match c.eval ext m with
    | some (.int b) => some (selectCase b.toInt cases ++ k, m)
    | _ => none

/-- Any number of steps. -/
abbrev Steps (c c' : Config) : Prop := Relation.ReflTransGen (fun c c' => step ext c = some c') c c'

/-- The code executes from the first memory to the second one. -/
def Runs (ss : List StatementInst) (m m' : Memory) : Prop := Steps ext (ss, m) ([], m')

end

end Faust.Fir
