import Faust.Boxes.Box
import Faust.Propagate.Labels

/-!
# Propagation of signals into a block diagram (`propagate.cpp`)

`propagate` sends a list of signals into a box and returns the list of its output signals.
Results are memoised under the tuple (slot environment, path, box, input signals), and a
slot without a signal takes a new dummy input; the table of results and the number of the
last dummy input are the state of the computation.

A failed assertion, a list indexed out of range and a box without a type are errors here.
-/

namespace Faust

open Faust.Tree

/-- The signals associated with symbolic slots (`pushEnv`, `searchEnv`). -/
abbrev SlotEnv := List (ℤ × Tree)

/-- `searchEnv(slot, sig, slotenv)`. -/
def searchEnv (slot : ℤ) (slotenv : SlotEnv) : Option Tree := slotenv.lookup slot

/-- `lift(slotenv)`. -/
def liftEnv (slotenv : SlotEnv) : SlotEnv := slotenv.map fun p => (p.1, lift p.2)

/-! ## Lists of signals -/

/-- How the propagation can go wrong. -/
inductive PropError
  | wrongNumberOfInputs
  | noBoxType
  | outOfRange
  | unrecognized
deriving DecidableEq, Repr

/-- `listRange(l, i, j)`. -/
def listRange (l : List Tree) (i j : ℕ) : Except PropError (List Tree) :=
  if i ≤ j ∧ j ≤ l.length then .ok ((l.drop i).take (j - i)) else .error .outOfRange

/-- `listLift`. -/
def listLift (l : List Tree) : List Tree := l.map lift

/-- The inner loop of `mix`, from line `i` on. -/
def mixLoop (lsig : List Tree) (nbus i : ℕ) (t : Tree) : Tree :=
  if h : i < lsig.length ∧ 0 < nbus then
    mixLoop lsig nbus (i + nbus) (sigAdd t lsig[i])
  else t
termination_by lsig.length - i

/-- `mix`: the lines of `lsig` are added up on `nbus` buses. -/
def mix (lsig : List Tree) (nbus : ℕ) : List Tree :=
  (List.range nbus).map fun b => mixLoop lsig nbus (b + nbus) (lsig.getD b (sigInt 0))

/-- `split`: the lines of `inputs` are distributed on `nbus` buses. -/
def split (inputs : List Tree) (nbus : ℕ) : Except PropError (List Tree) :=
  (List.range nbus).mapM fun b =>
    if h : inputs.length = 0 then .error .outOfRange
    else .ok (inputs.get ⟨b % inputs.length, Nat.mod_lt b (by omega)⟩)

/-- `makeSigProjList`. -/
def makeSigProjList (t : Tree) (n : ℕ) : List Tree :=
  (List.range n).map fun i : ℕ => sigDelay0 (sigProj i t)

/-- `makeMemSigProjList`. -/
def makeMemSigProjList (t : Tree) (n : ℕ) : List Tree :=
  (List.range n).map fun i : ℕ => sigDelay1 (sigProj i t)

/-- `makeSigInputList`. -/
def makeSigInputList (n : ℕ) : List Tree := (List.range n).map fun i : ℕ => sigInput i

/-! ## The propagation -/

/-- The arguments a result is memoised under. -/
abbrev PropKey := SlotEnv × List PathElement × Box × List Tree

/-- The state of the propagation: the property `PROPAGATEPROPERTY` and `gDummyInput`. -/
structure PropState where
  table : PropKey → Option (List Tree)
  dummyInput : ℤ

/-- `setPropagateProperty`. -/
def PropState.setTable (s : PropState) (args : PropKey) (lsig : List Tree) : PropState :=
  { s with table := Function.update s.table args (some lsig) }

@[simp] theorem PropState.setTable_self (s : PropState) (args : PropKey) (lsig : List Tree) :
    (s.setTable args lsig).table args = some lsig := Function.update_self ..

theorem PropState.setTable_of_ne (s : PropState) {args args' : PropKey} (h : args' ≠ args)
    (lsig : List Tree) : (s.setTable args lsig).table args' = s.table args' :=
  Function.update_of_ne h ..

/-- A computation of the propagation. -/
abbrev PropM := StateT PropState (Except PropError)

/-- `assert(lsig.size() == n)`. -/
def assertInputs (lsig : List Tree) (n : ℕ) : PropM Unit :=
  if lsig.length = n then return () else throw .wrongNumberOfInputs

/-- `getBoxType`, whose result the propagation uses without looking at its success. -/
def knownBoxType (box : Box) : PropM (ℕ × ℕ) :=
  match getBoxType box with
  | .ok (some type) => return type
  | _ => throw .noBoxType

/-- `++gGlobal->gDummyInput`. -/
def nextDummyInput : PropM ℤ := fun s =>
  .ok (s.dummyInput + 1, { s with dummyInput := s.dummyInput + 1 })

/-- `propagate`, for the function that `realPropagate` computes on the box. -/
def propagateWith (real : SlotEnv → List PathElement → List Tree → PropM (List Tree))
    (box : Box) (slotenv : SlotEnv) (path : List PathElement) (lsig : List Tree) :
    PropM (List Tree) := do
  match (← get).table (slotenv, path, box, lsig) with
  | some result => return result
  | none =>
    let result ← real slotenv path lsig
    modify (·.setTable (slotenv, path, box, lsig) result)
    return result

/-- The signal of a slider or of a numeric entry. -/
def sliderSignal (make : Tree → Tree → Tree → Tree → Tree → Tree) (label : String)
    (p : SliderParams) (path : List PathElement) : Tree :=
  make (normalizePath (.label label :: path)) (leaf p.cur) (leaf p.min) (leaf p.max)
    (leaf p.step)

section
variable (libm : Libm)

/-- `realPropagate`. -/
def realPropagate (box : Box) (slotenv : SlotEnv) (path : List PathElement)
    (lsig : List Tree) : PropM (List Tree) :=
  match box with
  -- Extended primitives
  | .xtended p => do
    assertInputs lsig p.arity
    return [p.computeSigOutput libm lsig]
  -- Numbers and constants
  | .int i => do
    assertInputs lsig 0
    return [sigInt i]
  | .real r => do
    assertInputs lsig 0
    return [sigReal r]
  | .waveform values => do
    assertInputs lsig 0
    return [sigInt values.length, sigWaveform values]
  | .fconst v => do
    assertInputs lsig 0
    return [sigFConst (leaf (.int v.type)) (leaf (.sym (.user v.name)))
      (leaf (.sym (.user v.file)))]
  | .fvar v => do
    assertInputs lsig 0
    return [sigFVar (leaf (.int v.type)) (leaf (.sym (.user v.name)))
      (leaf (.sym (.user v.file)))]
  -- Wire and cut
  | .cut => do
    assertInputs lsig 1
    return []
  | .wire => do
    assertInputs lsig 1
    return lsig
  -- Slots and symbolic boxes
  | .slot id => do
    assertInputs lsig 0
    match searchEnv id slotenv with
    | some sig => return [sig]
    | none => return [sigInput (← nextDummyInput)]
  | .symbolic slot body =>
    match lsig with
    | [] => throw .wrongNumberOfInputs
    | sig :: lsig =>
      propagateWith (realPropagate body) body ((slot, sig) :: slotenv) path lsig
  | .patternVar _ => throw .unrecognized
  -- Primitives
  | .prim0 p => do
    assertInputs lsig 0
    return [p.apply]
  | .prim1 p =>
    match lsig with
    | [x] => return [p.apply x]
    | _ => throw .wrongNumberOfInputs
  | .prim2 p =>
    match lsig with
    | [x, y] => return [p.apply x y]
    | _ => throw .wrongNumberOfInputs
  | .prim3 p =>
    match lsig with
    | [x, y, z] => return [p.apply x y z]
    | _ => throw .wrongNumberOfInputs
  | .prim4 p =>
    match lsig with
    | [x, y, z, u] => return [p.apply x y z u]
    | _ => throw .wrongNumberOfInputs
  | .prim5 p =>
    match lsig with
    | [x, y, z, u, v] => return [p.apply x y z u v]
    | _ => throw .wrongNumberOfInputs
  | .ffun ff => do
    assertInputs lsig ff.arity
    return [sigFFun ff.tree (ofList lsig)]
  -- User interface widgets
  | .button label => do
    assertInputs lsig 0
    return [sigButton (normalizePath (.label label :: path))]
  | .checkbox label => do
    assertInputs lsig 0
    return [sigCheckbox (normalizePath (.label label :: path))]
  | .vslider label p => do
    assertInputs lsig 0
    return [sliderSignal sigVSlider label p path]
  | .hslider label p => do
    assertInputs lsig 0
    return [sliderSignal sigHSlider label p path]
  | .numEntry label p => do
    assertInputs lsig 0
    return [sliderSignal sigNumEntry label p path]
  | .vbargraph label min max =>
    match lsig with
    | [x] => return [sigVBargraph (normalizePath (.label label :: path)) (leaf min) (leaf max) x]
    | _ => throw .wrongNumberOfInputs
  | .hbargraph label min max =>
    match lsig with
    | [x] => return [sigHBargraph (normalizePath (.label label :: path)) (leaf min) (leaf max) x]
    | _ => throw .wrongNumberOfInputs
  -- User interface groups
  | .group kind label t₁ =>
    propagateWith (realPropagate t₁) t₁ slotenv (.group kind.code label :: path) lsig
  -- Block diagram composition algebra
  | .seq t₁ t₂ => do
    let (_, out₁) ← knownBoxType t₁
    let (in₂, _) ← knownBoxType t₂
    if out₁ ≠ in₂ then throw .noBoxType
    let l₁ ← propagateWith (realPropagate t₁) t₁ slotenv path lsig
    propagateWith (realPropagate t₂) t₂ slotenv path l₁
  | .par t₁ t₂ => do
    let (in₁, _) ← knownBoxType t₁
    let (in₂, _) ← knownBoxType t₂
    let l₁ ← propagateWith (realPropagate t₁) t₁ slotenv path (← listRange lsig 0 in₁)
    let l₂ ← propagateWith (realPropagate t₂) t₂ slotenv path (← listRange lsig in₁ (in₁ + in₂))
    return l₁ ++ l₂
  | .split t₁ t₂ => do
    let _ ← knownBoxType t₁
    let (in₂, _) ← knownBoxType t₂
    let l₁ ← propagateWith (realPropagate t₁) t₁ slotenv path lsig
    let l₂ ← split l₁ in₂
    propagateWith (realPropagate t₂) t₂ slotenv path l₂
  | .merge t₁ t₂ => do
    let _ ← knownBoxType t₁
    let (in₂, _) ← knownBoxType t₂
    let l₁ ← propagateWith (realPropagate t₁) t₁ slotenv path lsig
    propagateWith (realPropagate t₂) t₂ slotenv path (mix l₁ in₂)
  | .recur t₁ t₂ => do
    let (_, out₁) ← knownBoxType t₁
    let (in₂, _) ← knownBoxType t₂
    -- the environment must also be lifted
    let slotenv₂ := liftEnv slotenv
    let l₀ := makeMemSigProjList (debruijnRef 1) in₂
    let l₁ ← propagateWith (realPropagate t₂) t₂ slotenv₂ path l₀
    let l₂ ← propagateWith (realPropagate t₁) t₁ slotenv₂ path (l₁ ++ listLift lsig)
    let g := debruijn (ofList l₂)
    return makeSigProjList g out₁
  | .environment => throw .unrecognized
  | .other _ => throw .unrecognized

/-- `propagate`. -/
def propagate (slotenv : SlotEnv) (path : List PathElement) (box : Box) (lsig : List Tree) :
    PropM (List Tree) :=
  propagateWith (realPropagate libm box) box slotenv path lsig

/-- `boxPropagateSig`. -/
def boxPropagateSig (path : List PathElement) (box : Box) (lsig : List Tree) : PropM Tree := do
  return ofList (← propagate libm [] path box lsig)

end

end Faust
