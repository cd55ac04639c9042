import Faust.Normalize.Simplify
import Faust.Propagate.Propagate

/-!
# Simplification of block diagrams (`boxSimplification`, `eval.cpp`)

A part of a block diagram without inputs and with one output is replaced by a number when the
signal that it gives simplifies to this number. The results are kept as the property
`gSimplifiedBoxProperty` of the boxes, so a state is made of this property and of the states of the
propagation and of the simplification of signals.
-/

namespace Faust

open Faust.Tree

namespace BoxSimplification

/-- Why a simplification has no result. -/
inductive Failure
  | noBoxType
  | unrecognized
  | propagation (e : PropError)
  | simplification (e : Simplify.Failure)
deriving DecidableEq, Repr

/-- What the simplification of a box reads and writes. -/
structure State where
  propagation : PropState
  signals : Simplify.Properties
  /-- the property `gSimplifiedBoxProperty` -/
  simplified : Box → Option Box

/-- A computation on this state. -/
abbrev M := StateT State (Except Failure)

/-- A computation of the propagation. -/
def runPropagation {α : Type} (x : PropM α) : M α := fun s =>
  match x s.propagation with
  | .ok (a, p) => .ok (a, { s with propagation := p })
  | .error e => .error (.propagation e)

/-- A computation of the simplification of signals. -/
def runSimplification {α : Type} (x : Simplify.M α) : M α := fun s =>
  match x s.signals with
  | .ok (a, p) => .ok (a, { s with signals := p })
  | .error e => .error (.simplification e)

/-- `gSimplifiedBoxProperty->set(box, simplified)`. -/
def State.setSimplified (s : State) (box r : Box) : State :=
  { s with simplified := Function.update s.simplified box (some r) }

/-- `isBoxInt(box) || isBoxReal(box)`. -/
def isNumber : Box → Bool
  | .int _ | .real _ => true
  | _ => false

section
variable (libm : Libm) (before : Tree → Tree → Bool) (fuel : ℕ)

/-- `simplify(hd(boxPropagateSig(nil, box, makeSigInputList(0))))`, where `simplify` goes below
the depth `fuel`. -/
def simplifiedSignal (box : Box) : M Tree := do
  match ← runPropagation (propagate libm [] [] box (makeSigInputList 0)) with
  | sig :: _ => runSimplification (Simplify.sigMap libm before fuel sig)
  | [] => throw (.propagation .outOfRange)

/-- The number that a signal with the node `n` is, or what is done if it is none. -/
def numberOr (inside : M Box) (n : Node) : M Box :=
  match n with
  | .double x => return .real x
  | .int i => return .int i
  | _ => inside

/-- `numericBoxSimplification`, where `inside` is `insideBoxSimplification(box)`. -/
def numericBoxSimplification (inside : M Box) (box : Box) : M Box :=
  match getBoxType box with
  | .ok (some (0, 1)) =>
    -- this box can potentially denote a number
    if isNumber box then return box
    else do
      let s ← simplifiedSignal libm before fuel box
      numberOr inside s.label
  | .ok (some _) => inside
  | _ => throw .noBoxType

/-- `boxSimplification`, where `inside` is `insideBoxSimplification(box)`. -/
def boxSimplificationWith (inside : M Box) (box : Box) : M Box := do
  match (← get).simplified box with
  | some r => return r
  | none =>
    let r ← numericBoxSimplification libm before fuel inside box
    modify (·.setSimplified box r)
    return r

/-- `insideBoxSimplification`. -/
def insideBoxSimplification : Box → M Box
  -- extended primitives, numbers and constants
  | .xtended p => return .xtended p
  | .int i => return .int i
  | .real r => return .real r
  | .fconst v => return .fconst v
  | .fvar v => return .fvar v
  -- wire and cut
  | .cut => return .cut
  | .wire => return .wire
  -- primitives
  | .prim0 p => return .prim0 p
  | .prim1 p => return .prim1 p
  | .prim2 p => return .prim2 p
  | .prim3 p => return .prim3 p
  | .prim4 p => return .prim4 p
  | .prim5 p => return .prim5 p
  | .ffun ff => return .ffun ff
  -- user interface widgets
  | .button label => return .button label
  | .checkbox label => return .checkbox label
  | .vslider label p => return .vslider label p
  | .hslider label p => return .hslider label p
  | .numEntry label p => return .numEntry label p
  | .vbargraph label min max => return .vbargraph label min max
  | .hbargraph label min max => return .hbargraph label min max
  -- user interface groups
  | .group kind label t₁ =>
    return .group kind label
      (← boxSimplificationWith libm before fuel (insideBoxSimplification t₁) t₁)
  -- slots and symbolic boxes
  | .slot id => return .slot id
  | .symbolic slot body => do
    let b ← boxSimplificationWith libm before fuel (insideBoxSimplification body) body
    return .symbolic slot b
  -- block diagram composition algebra
  | .seq t₁ t₂ => do
    let s₁ ← boxSimplificationWith libm before fuel (insideBoxSimplification t₁) t₁
    let s₂ ← boxSimplificationWith libm before fuel (insideBoxSimplification t₂) t₂
    return .seq s₁ s₂
  | .par t₁ t₂ => do
    let s₁ ← boxSimplificationWith libm before fuel (insideBoxSimplification t₁) t₁
    let s₂ ← boxSimplificationWith libm before fuel (insideBoxSimplification t₂) t₂
    return .par s₁ s₂
  | .split t₁ t₂ => do
    let s₁ ← boxSimplificationWith libm before fuel (insideBoxSimplification t₁) t₁
    let s₂ ← boxSimplificationWith libm before fuel (insideBoxSimplification t₂) t₂
    return .split s₁ s₂
  | .merge t₁ t₂ => do
    let s₁ ← boxSimplificationWith libm before fuel (insideBoxSimplification t₁) t₁
    let s₂ ← boxSimplificationWith libm before fuel (insideBoxSimplification t₂) t₂
    return .merge s₁ s₂
  | .recur t₁ t₂ => do
    let s₁ ← boxSimplificationWith libm before fuel (insideBoxSimplification t₁) t₁
    let s₂ ← boxSimplificationWith libm before fuel (insideBoxSimplification t₂) t₂
    return .recur s₁ s₂
  -- waveforms, and what has no box type
  | .waveform _ | .patternVar _ | .environment | .other _ => throw .unrecognized

/-- `boxSimplification`. -/
def boxSimplification (box : Box) : M Box :=
  boxSimplificationWith libm before fuel (insideBoxSimplification libm before fuel box) box

end

end BoxSimplification

end Faust
