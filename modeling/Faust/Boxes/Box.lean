import Faust.Signals.Signals

/-!
# Boxes (`boxes.cpp`)

Block diagram expressions, with the data each of them carries. The primitives are function
pointers to signal constructors in the source: here they are named, and `apply` is the
function they point to.
-/

namespace Faust

/-- The functions given to `boxPrim0`: there are none. -/
inductive Prim0
deriving DecidableEq, Repr

/-- The functions given to `boxPrim1`. -/
inductive Prim1
  | sigDelay1 | sigIntCast | sigFloatCast
deriving DecidableEq, Repr

/-- The functions given to `boxPrim2`: the operators, from `sigAdd` to `sigXOR`, and
others. -/
inductive Prim2
  | sigBinOp (op : BinOp)
  | sigPrefix | sigFixDelay | sigAttach
deriving DecidableEq, Repr

/-- The functions given to `boxPrim3`. -/
inductive Prim3
  | sigReadOnlyTable | sigSelect2
deriving DecidableEq, Repr

/-- The functions given to `boxPrim4`. -/
inductive Prim4
  | sigSelect3
deriving DecidableEq, Repr

/-- The functions given to `boxPrim5`. -/
inductive Prim5
  | sigWriteReadTable
deriving DecidableEq, Repr

/-- `p0()`. -/
def Prim0.apply (p : Prim0) : Tree := nomatch p

/-- `p1(x)`. -/
def Prim1.apply : Prim1 → Tree → Tree
  | sigDelay1 => Faust.sigDelay1
  | sigIntCast => Faust.sigIntCast
  | sigFloatCast => Faust.sigFloatCast

/-- `p2(x, y)`. -/
def Prim2.apply : Prim2 → Tree → Tree → Tree
  | sigBinOp op => Faust.sigBinOp op
  | sigPrefix => Faust.sigPrefix
  | sigFixDelay => Faust.sigFixDelay
  | sigAttach => Faust.sigAttach

/-- `p3(x, y, z)`. -/
def Prim3.apply : Prim3 → Tree → Tree → Tree → Tree
  | sigReadOnlyTable => Faust.sigReadOnlyTable
  | sigSelect2 => Faust.sigSelect2

/-- `p4(x, y, z, u)`. -/
def Prim4.apply : Prim4 → Tree → Tree → Tree → Tree → Tree
  | sigSelect3 => Faust.sigSelect3

/-- `p5(x, y, z, u, v)`. -/
def Prim5.apply : Prim5 → Tree → Tree → Tree → Tree → Tree → Tree
  | sigWriteReadTable => Faust.sigWriteReadTable

/-- A foreign function: the type of its result, its names, the types of its arguments, the
files to include and to link. -/
structure ForeignFun where
  restype : ℤ
  names : String
  argtypes : List ℤ
  incfile : String
  libfile : String
deriving DecidableEq, Repr

namespace ForeignFun

/-- `ffsignature`: the list `(type name arg1 ... argn)`. -/
def signature (ff : ForeignFun) : Tree :=
  Tree.ofList (.leaf (.int ff.restype) :: .leaf (.sym (.user ff.names)) ::
    ff.argtypes.map fun t => .leaf (.int t))

/-- The tree that stands for the function. -/
def tree (ff : ForeignFun) : Tree :=
  .node (.sym (.user "ForeignFunction"))
    [ff.signature, .leaf (.sym (.user ff.incfile)), .leaf (.sym (.user ff.libfile))]

/-- `ffarity`. -/
def arity (ff : ForeignFun) : ℕ := ff.argtypes.length

end ForeignFun

/-- A foreign constant or variable: its type, name and file. -/
structure ForeignValue where
  type : ℤ
  name : String
  file : String
deriving DecidableEq, Repr

/-- The parameters of a slider or a numeric entry. -/
structure SliderParams where
  cur : Node
  min : Node
  max : Node
  step : Node
deriving DecidableEq, Repr

/-- The kinds of user interface groups, with the code they have in a path. -/
inductive GroupKind
  | vgroup | hgroup | tgroup
deriving DecidableEq, Repr

/-- `tree(0)`, `tree(1)` or `tree(2)`. -/
def GroupKind.code : GroupKind → ℤ
  | vgroup => 0
  | hgroup => 1
  | tgroup => 2

/-- Block diagram expressions. -/
inductive Box
  | xtended (p : XtPrim)
  | int (i : ℤ)
  | real (r : ℚ)
  | waveform (values : List Node)
  | fconst (v : ForeignValue)
  | fvar (v : ForeignValue)
  | cut
  | wire
  | slot (id : ℤ)
  | symbolic (slot : ℤ) (body : Box)
  | patternVar (id : String)
  | prim0 (p : Prim0)
  | prim1 (p : Prim1)
  | prim2 (p : Prim2)
  | prim3 (p : Prim3)
  | prim4 (p : Prim4)
  | prim5 (p : Prim5)
  | ffun (ff : ForeignFun)
  | button (label : String)
  | checkbox (label : String)
  | vslider (label : String) (params : SliderParams)
  | hslider (label : String) (params : SliderParams)
  | numEntry (label : String) (params : SliderParams)
  | vbargraph (label : String) (min max : Node)
  | hbargraph (label : String) (min max : Node)
  | group (kind : GroupKind) (label : String) (body : Box)
  | seq (t₁ t₂ : Box)
  | par (t₁ t₂ : Box)
  | split (t₁ t₂ : Box)
  | merge (t₁ t₂ : Box)
  | recur (t₁ t₂ : Box)
  | environment
  /-- Any other tree, for instance an abstraction or a closure. -/
  | other (t : Tree)
deriving DecidableEq

/-- Why a box has no type: a connection error or an expression that is not a block
diagram. -/
inductive BoxTypeError
  | seqMismatch (outs ins : ℕ)
  | noOutputs
  | noInputs
  | splitMismatch (outs ins : ℕ)
  | mergeMismatch (outs ins : ℕ)
  | recMismatch (ins₁ outs₁ ins₂ outs₂ : ℕ)
  | environment
  | unrecognized
deriving DecidableEq, Repr

/-- The outcome of `getBoxType`: the numbers of inputs and outputs, or `none` when the type
is undefined. -/
abbrev BoxType := Except BoxTypeError (Option (ℕ × ℕ))

/-- `if (!getBoxType(a, &u, &v)) return false;` and what follows it. -/
def ifTyped (r : BoxType) (f : ℕ → ℕ → BoxType) : BoxType :=
  match r with
  | .error e => .error e
  | .ok none => .ok none
  | .ok (some (u, v)) => f u v

/-- `getBoxType`, `infereBoxType` (boxtype.cpp). -/
def getBoxType : Box → BoxType
  | .xtended p => .ok (some (p.arity, 1))
  | .int _ | .real _ => .ok (some (0, 1))
  | .waveform _ => .ok (some (0, 2))
  | .wire => .ok (some (1, 1))
  | .cut => .ok (some (1, 0))
  | .slot _ => .ok (some (0, 1))
  | .symbolic _ b => ifTyped (getBoxType b) fun u v => .ok (some (u + 1, v))
  | .patternVar _ => .ok none
  | .prim0 _ => .ok (some (0, 1))
  | .prim1 _ => .ok (some (1, 1))
  | .prim2 _ => .ok (some (2, 1))
  | .prim3 _ => .ok (some (3, 1))
  | .prim4 _ => .ok (some (4, 1))
  | .prim5 _ => .ok (some (5, 1))
  | .ffun ff => .ok (some (ff.arity, 1))
  | .fconst _ | .fvar _ => .ok (some (0, 1))
  | .button _ | .checkbox _ | .vslider _ _ | .hslider _ _ | .numEntry _ _ => .ok (some (0, 1))
  | .group _ _ b => getBoxType b
  | .vbargraph _ _ _ | .hbargraph _ _ _ => .ok (some (1, 1))
  | .seq a b =>
    ifTyped (getBoxType a) fun u v => ifTyped (getBoxType b) fun x y =>
      if v ≠ x then .error (.seqMismatch v x) else .ok (some (u, y))
  | .par a b =>
    ifTyped (getBoxType a) fun u v => ifTyped (getBoxType b) fun x y =>
      .ok (some (u + x, v + y))
  | .split a b =>
    ifTyped (getBoxType a) fun u v => ifTyped (getBoxType b) fun x y =>
      if v = 0 then .error .noOutputs
      else if x = 0 then .error .noInputs
      else if x % v ≠ 0 then .error (.splitMismatch v x)
      else .ok (some (u, y))
  | .merge a b =>
    ifTyped (getBoxType a) fun u v => ifTyped (getBoxType b) fun x y =>
      if v = 0 then .error .noOutputs
      else if x = 0 then .error .noInputs
      else if v % x ≠ 0 then .error (.mergeMismatch v x)
      else .ok (some (u, y))
  | .recur a b =>
    ifTyped (getBoxType a) fun u v => ifTyped (getBoxType b) fun x y =>
      if x > v ∨ y > u then .error (.recMismatch u v x y) else .ok (some (u - y, v))
  | .environment => .error .environment
  | .other _ => .error .unrecognized

end Faust
