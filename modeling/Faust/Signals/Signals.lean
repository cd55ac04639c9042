import Faust.Tlib.Node
import Faust.Tlib.RecursiveTree

/-!
# Signals (`signals.cpp`, `extended/*prim.hh`)

The constructors of signal expressions. Casts of literals and extended primitives applied
to literals are evaluated on the spot; the functions of the C mathematical library are a
parameter `libm`.
-/

namespace Faust

open Faust.Tree

/-- The C functions behind the extended primitives that compute on `double`. -/
structure Libm where
  unary : XtPrim → ℚ → ℚ
  binary : XtPrim → ℚ → ℚ → ℚ

/-! ## Literals, inputs and delays -/

/-- `sigInt`. -/
def sigInt (i : ℤ) : Tree := leaf (.int i)

/-- `sigReal`. -/
def sigReal (r : ℚ) : Tree := leaf (.double r)

/-- `sigInput`. -/
def sigInput (i : ℤ) : Tree := .node (.sym .sigInput) [leaf (.int i)]

/-- `sigIntCast`: literals are converted, a cast is not cast again. -/
def sigIntCast (t : Tree) : Tree :=
  match t with
  | .node (.int _) _ => t
  | .node (.double x) _ => leaf (.int (wrap32 (truncInt x)))
  | .node (.sym .sigIntCast) [_] => t
  | _ => .node (.sym .sigIntCast) [t]

/-- `sigFloatCast`: literals are converted, casts and inputs are not cast again. -/
def sigFloatCast (t : Tree) : Tree :=
  match t with
  | .node (.int i) _ => leaf (.double i)
  | .node (.double _) _ => t
  | .node (.sym .sigFloatCast) [_] => t
  | .node (.sym .sigInput) [.node (.int _) _] => t
  | _ => .node (.sym .sigFloatCast) [t]

/-- `sigDelay1`. -/
def sigDelay1 (t : Tree) : Tree := .node (.sym .sigDelay1) [t]

/-- `sigFixDelay`. -/
def sigFixDelay (t₀ t₁ : Tree) : Tree := .node (.sym .sigFixDelay) [t₀, sigIntCast t₁]

/-- `sigDelay0`. -/
def sigDelay0 (t : Tree) : Tree := sigFixDelay t (sigInt 0)

/-- `sigPrefix`. -/
def sigPrefix (t₀ t₁ : Tree) : Tree := .node (.sym .sigPrefix) [t₀, t₁]

/-- `sigProj`. -/
def sigProj (i : ℤ) (rgroup : Tree) : Tree := .node (.sym .sigProj) [leaf (.int i), rgroup]

/-! ## Operators and selectors -/

/-- `sigBinOp`. -/
def sigBinOp (op : BinOp) (x y : Tree) : Tree :=
  .node (.sym .sigBinOp) [leaf (.int op.opcode), x, y]

/-- `sigAdd`. -/
def sigAdd (x y : Tree) : Tree := sigBinOp .kAdd x y

/-- `sigAttach`. -/
def sigAttach (t₀ t₁ : Tree) : Tree := .node (.sym .sigAttach) [t₀, t₁]

/-- `sigSelect2`. -/
def sigSelect2 (selector s₁ s₂ : Tree) : Tree :=
  .node (.sym .sigSelect2) [sigIntCast selector, s₁, s₂]

/-- `sigSelect3`, expressed with `sigSelect2`. -/
def sigSelect3 (selector s₁ s₂ s₃ : Tree) : Tree :=
  sigSelect2 (sigBinOp .kEQ (sigIntCast selector) (sigInt 0))
    (sigSelect2 (sigBinOp .kEQ (sigIntCast selector) (sigInt 1)) s₃ s₂) s₁

/-! ## Tables -/

/-- `sigGen`. -/
def sigGen (s : Tree) : Tree := .node (.sym .sigGen) [s]

/-- `sigTable`. -/
def sigTable (id n sig : Tree) : Tree := .node (.sym .sigTable) [id, n, sig]

/-- `sigWRTbl`. -/
def sigWRTbl (id t i s : Tree) : Tree := .node (.sym .sigWRTbl) [id, t, i, s]

/-- `sigRDTbl`. -/
def sigRDTbl (t i : Tree) : Tree := .node (.sym .sigRDTbl) [t, i]

/-- `sigReadOnlyTable`. -/
def sigReadOnlyTable (n init ridx : Tree) : Tree :=
  sigRDTbl (sigTable .nil n (sigGen init)) ridx

/-- `sigWriteReadTable`. -/
def sigWriteReadTable (n init widx wsig ridx : Tree) : Tree :=
  sigRDTbl (sigWRTbl .nil (sigTable .nil n (sigGen init)) widx wsig) ridx

/-- `sigWaveform`. -/
def sigWaveform (wf : List Node) : Tree := .node (.sym .sigWaveform) (wf.map leaf)

/-! ## Foreign signals -/

/-- `sigFFun`. -/
def sigFFun (ff largs : Tree) : Tree := .node (.sym .sigFFun) [ff, largs]

/-- `sigFConst`. -/
def sigFConst (type name file : Tree) : Tree := .node (.sym .sigFConst) [type, name, file]

/-- `sigFVar`. -/
def sigFVar (type name file : Tree) : Tree := .node (.sym .sigFVar) [type, name, file]

/-! ## User interface elements -/

/-- `sigButton`. -/
def sigButton (lbl : Tree) : Tree := .node (.sym .sigButton) [lbl]

/-- `sigCheckbox`. -/
def sigCheckbox (lbl : Tree) : Tree := .node (.sym .sigCheckbox) [lbl]

/-- `sigHSlider`, `sigVSlider` and `sigNumEntry`, which differ by their symbol. -/
def sigSlider (s : Sym) (lbl cur min max step : Tree) : Tree :=
  .node (.sym s) [lbl, ofList [cur, min, max, step]]

/-- `sigHSlider`. -/
def sigHSlider (lbl cur min max step : Tree) : Tree := sigSlider .sigHSlider lbl cur min max step

/-- `sigVSlider`. -/
def sigVSlider (lbl cur min max step : Tree) : Tree := sigSlider .sigVSlider lbl cur min max step

/-- `sigNumEntry`. -/
def sigNumEntry (lbl cur min max step : Tree) : Tree :=
  sigSlider .sigNumEntry lbl cur min max step

/-- `sigHBargraph`. -/
def sigHBargraph (lbl min max x : Tree) : Tree := .node (.sym .sigHBargraph) [lbl, min, max, x]

/-- `sigVBargraph`. -/
def sigVBargraph (lbl min max x : Tree) : Tree := .node (.sym .sigVBargraph) [lbl, min, max, x]

/-! ## Extended primitives -/

/-- What a primitive makes of literals. -/
def XtPrim.evalNodes (libm : Libm) (p : XtPrim) (args : List Node) : Node :=
  match p, args with
  | .abs, [x] => Node.absNode wrap32 x
  | .min, [x, y] => Node.minNode wrap32 x y
  | .max, [x, y] => Node.maxNode wrap32 x y
  | p, [x, y] => .double (libm.binary p x.toDouble y.toDouble)
  | p, args => .double (libm.unary p (args.headD (.int 0)).toDouble)

/-- `xtended::computeSigOutput`, whose arguments are as many as the arity: literals are
evaluated, other arguments make a node. -/
def XtPrim.computeSigOutput (libm : Libm) (p : XtPrim) (args : List Tree) : Tree :=
  if args.all (·.label.isNum) then leaf (p.evalNodes libm (args.map label))
  else .node (.sym (.xtended p)) args

end Faust
