import Faust.Normalize.Aterm

/-!
# Simplification of signals (`simplify.cpp`, `normalizeFixedDelayTerm`)

`simplify` rewrites a signal from its leaves: the branches first, then the signal made of the
results. The result is kept as the property `SIMPLIFIED` of the signal, `nil` when the signal is its
own result; the definition of a recursive symbol is its property `RECDEF`, which is replaced.
-/

namespace Faust

open Faust.Tree

/-! ## Binary operators -/

/-- `fLeftNeutral` of an entry of `gBinOpTable`. -/
def BinOp.isLeftNeutral : BinOp → Node → Bool
  | .kAdd, n | .kOR, n => n.isZero
  | .kMul, n => n.isOne
  | .kAND, n => n.isMinusOne
  | _, _ => false

/-- `fRightNeutral` of an entry of `gBinOpTable`. -/
def BinOp.isRightNeutral : BinOp → Node → Bool
  | .kAdd, n | .kSub, n | .kLsh, n | .kRsh, n | .kOR, n => n.isZero
  | .kMul, n | .kDiv, n => n.isOne
  | .kAND, n => n.isMinusOne
  | _, _ => false

namespace Simplify

/-- Why a simplification has no result: an exception or a failed assertion, or the depth of the
model. -/
inductive Failure
  | failed
  | outOfFuel
deriving DecidableEq, Repr

/-- The properties of the signals. -/
structure Properties where
  /-- the property `RECDEF` -/
  recDef : Tree → Option Tree
  /-- the property `SIMPLIFIED` -/
  simplified : Tree → Option Tree

/-- A computation that reads and writes properties. -/
abbrev M := StateT Properties (Except Failure)

/-- The result of a function that has none after an exception or a failed assertion. -/
def require {α : Type} : Option α → M α
  | some a => return a
  | none => throw .failed

/-- `setProperty(t, SIMPLIFIED, r)`, with `nil` when the result is the signal itself. -/
def setSimplified (t r : Tree) : M Unit :=
  modify fun s => { s with
    simplified := Function.update s.simplified t (some (if r = t then Tree.nil else r)) }

/-- `rec(id, body)`, for the symbol `t`. -/
def setRecDef (t body : Tree) : M Unit :=
  modify fun s => { s with recDef := Function.update s.recDef t (some body) }

/-- `isRec`: a recursive symbol. -/
def isRec : Tree → Bool
  | .node (.sym .symRec) [_] => true
  | _ => false

/-- `isProj`. -/
def isProj : Tree → Bool
  | .node (.sym .sigProj) [.node (.int _) _, _] => true
  | _ => false

section
variable (libm : Libm) (before : Tree → Tree → Bool)

/-- The simplification of an extended primitive. -/
def simplifyXtended (p : XtPrim) (args : List Tree) : Option Tree :=
  -- to avoid negative power to further normalization
  if p = .pow then normalizeAddTerm before (p.computeSigOutput libm args)
  else some (p.computeSigOutput libm args)

/-- The simplification of a binary operation. -/
def simplifyBinOp (sig : Tree) (op : BinOp) (t1 t2 : Tree) : Option Tree :=
  if t1.label.isNum && t2.label.isNum then some (leaf (op.compute wrap32 t1.label t2.label))
  else if op.isLeftNeutral t1.label then some t2
  else if op.isRightNeutral t2.label then some t1
  else normalizeAddTerm before sig

/-- The simplification of an integer cast. -/
def simplifyIntCast (sig t1 : Tree) : Tree :=
  match t1 with
  | .node (.int _) _ => t1
  | .node (.double x) _ => leaf (.int (wrap32 (truncInt x)))
  | .node (.sym .sigIntCast) [_] => t1
  | _ => sig

/-- The simplification of a float cast. -/
def simplifyFloatCast (sig t1 : Tree) : Tree :=
  match t1 with
  | .node (.int i) _ => leaf (.double i)
  | .node (.double _) _ => t1
  | .node (.sym .sigFloatCast) [_] => t1
  | _ => sig

/-- The simplification of a selection between two signals. -/
def simplifySelect2 (sig t1 t2 t3 : Tree) : Tree :=
  if t1.label.isZero then t2
  else if t1.label.isNum then t3
  else if t2 = t3 then t2
  else sig

/-- The simplification of a selection among three signals. -/
def simplifySelect3 (sig t1 t2 t3 t4 : Tree) : Tree :=
  if t1.label.isZero then t2
  else if t1.label.isOne then t3
  else if t1.label.isNum then t4
  else if t3 = t4 then
    let sel := sigIntCast t1
    simplifySelect2 (sigSelect2 t1 t2 t3) sel t2 t3
  else sig

mutual

/-- `sigMap(SIMPLIFIED, simplification, t)`, that is `simplify(t)`, for a depth below `fuel`. -/
def sigMap : ℕ → Tree → M Tree
  | 0, _ => throw .outOfFuel
  | fuel + 1, t => do
    match (← get).simplified t with
    | some p => return if p = Tree.nil then t else p
    | none =>
      if isRec t then
        setSimplified t t -- avoid infinite loop
        let body ← require ((← get).recDef t)
        setRecDef t (← sigMap fuel body)
        return t
      else
        let br ← t.branches.mapM (sigMap fuel)
        let r ← simplification fuel (.node t.label br)
        setSimplified t r
        return r

/-- `simplification`. -/
def simplification : ℕ → Tree → M Tree
  | 0, _ => throw .outOfFuel
  | fuel + 1, sig =>
    match sig with
    | .node (.sym (.xtended p)) args => require (simplifyXtended libm before p args)
    | .node (.sym .sigBinOp) [.node (.int opnum) _, t1, t2] =>
      match gBinOpTable.find? fun op => (op.opcode : ℤ) == opnum with
      | some op => require (simplifyBinOp before sig op t1 t2)
      | none => throw .failed
    | .node (.sym .sigDelay1) [t1] => normalizeFixedDelayTerm fuel t1 (sigInt 1)
    | .node (.sym .sigFixDelay) [t1, t2] => normalizeFixedDelayTerm fuel t1 t2
    | .node (.sym .sigIntCast) [t1] => return simplifyIntCast sig t1
    | .node (.sym .sigFloatCast) [t1] => return simplifyFloatCast sig t1
    | .node (.sym .sigSelect2) [t1, t2, t3] => return simplifySelect2 sig t1 t2 t3
    | .node (.sym .sigSelect3) [t1, t2, t3, t4] => return simplifySelect3 sig t1 t2 t3 t4
    | _ => return sig

/-- `normalizeFixedDelayTerm`: the normal form of a fixed delay term `s@d`. -/
def normalizeFixedDelayTerm : ℕ → Tree → Tree → M Tree
  | 0, _, _ => throw .outOfFuel
  | fuel + 1, s, d =>
    if d.label.isZero && !isProj s then return s
    else if s.label.isZero then return s
    else match isSigBinOp .kMul s, isSigBinOp .kDiv s, s with
    | some (x, y), _, _ => do
      if (← require (getSigOrder x)) < 2 then
        return sigMul x (← normalizeFixedDelayTerm fuel y d)
      else if (← require (getSigOrder y)) < 2 then
        return sigMul y (← normalizeFixedDelayTerm fuel x d)
      else return sigFixDelay s d
    | _, some (x, y), _ => do
      if (← require (getSigOrder y)) < 2 then
        return sigDiv (← normalizeFixedDelayTerm fuel x d) y
      else return sigFixDelay s d
    | _, _, .node (.sym .sigFixDelay) [x, y] => do
      -- (x@n)@m = x@(n+m)
      normalizeFixedDelayTerm fuel x (← sigMap fuel (sigAdd d y))
    | _, _, _ => return sigFixDelay s d

end

end

end Simplify

end Faust
