import Faust.Boxes.BoxTree
import Faust.Evaluate.Environment
import Faust.Evaluate.EvalLabel
import Faust.Normalize.Simplify
import Faust.Propagate.Propagate

/-!
# The state of the evaluator (`eval.cpp`, `loopDetector.cpp`, `patternmatcher.cpp`)

An evaluation reads and writes the environments, the results that are kept as properties of the
expressions, the automata of the `case` expressions and the states of the propagation and of the
simplification, which compute the numbers that an expression needs.
-/

namespace Faust

open Faust.Tree

namespace Eval

/-! ## Endless evaluations -/

/-- `fBuffersize` of `gLoopDetector`. -/
def bufferSize : ℕ := 1024

/-- `fCheckperiod` of `gLoopDetector`. -/
def checkPeriod : ℕ := 400

/-- `loopDetector`: the last expressions that were evaluated, with their environments. -/
structure LoopDetector where
  phase : ℕ
  buffer : ℕ → Option (Tree × Tree)

/-- `loopDetector::detect`: from time to time, an expression that is already in the buffer is an
endless evaluation. -/
def LoopDetector.detect (d : LoopDetector) (t : Tree × Tree) : Option LoopDetector :=
  let phase := d.phase + 1
  let w := phase % bufferSize
  let buffer := Function.update d.buffer w (some t)
  if phase % checkPeriod = 0 ∧ ((List.range bufferSize).any fun r => r ≠ w ∧ buffer r = some t)
  then none
  else some ⟨phase, buffer⟩

/-! ## Automata -/

/-- `struct Rule`: a rule that can still match, with the variable that is matched here and the path
of its value in the argument. -/
structure Rule where
  r : ℕ
  id : Option Tree
  p : List ℕ

/-- What a transition is for: any argument, a constant, or an operator. -/
inductive TransKind
  | var
  | cst (x : Tree)
  | op (n : Node)

/-- `struct Trans`. -/
structure Trans where
  kind : TransKind
  state : ℕ

/-- `struct State`. -/
structure AutomatonState where
  matchNum : Bool
  rules : List Rule
  trans : List Trans

/-- `struct Automaton`: the table of the states, and the right-hand sides of the rules. -/
structure Automaton where
  state : List AutomatonState
  rhs : List Tree

/-! ## States and failures -/

/-- What an evaluation reads and writes. -/
structure EvalState where
  env : EnvState
  /-- the property `EVALPROPERTY` of an expression, for an environment -/
  values : Tree × Tree → Option Tree
  /-- the property `PMPROPERTY` of the rules of a `case`, for an environment -/
  matchers : Tree × Tree → Option Tree
  /-- `gSymbolicBoxProperty` -/
  symbolicBox : Tree → Option Tree
  /-- the property `NUMERICPROPERTY` -/
  numeric : Tree → Option Tree
  boxSlotNumber : ℤ
  detector : LoopDetector
  automata : List Automaton
  propagation : PropState
  signals : Simplify.Properties

/-- Why an evaluation has no result. -/
inductive Failure
  | environment (e : EnvError)
  | propagation (e : PropError)
  | simplification (e : Simplify.Failure)
  | boxType (e : BoxTypeError)
  | endless
  | undefinedSymbol (id : Tree)
  | noEnvironment (exp : Tree)
  | notConstant (exp : Tree)
  | tooManyArguments (outs ins : ℕ)
  | noRuleMatches (origRules : Tree)
  | environmentApplied (fun_ : Tree)
  | notAbstraction (exp : Tree)
  | notIntercepted (exp : Tree)
  | notAFile (fname : String)
  /-- a failed assertion, or a branch or a node that is not there -/
  | assertion
  | outOfFuel

/-- A computation of the evaluator. -/
abbrev EvalM := StateT EvalState (Except Failure)

/-- A computation on environments. -/
def runEnv {α : Type} (x : EnvM α) : EvalM α := fun s =>
  match x s.env with
  | .ok (a, env) => .ok (a, { s with env := env })
  | .error e => .error (.environment e)

/-- A computation of the propagation. -/
def runPropagation {α : Type} (x : PropM α) : EvalM α := fun s =>
  match x s.propagation with
  | .ok (a, p) => .ok (a, { s with propagation := p })
  | .error e => .error (.propagation e)

/-- A computation of the simplification of signals. -/
def runSimplification {α : Type} (x : Simplify.M α) : EvalM α := fun s =>
  match x s.signals with
  | .ok (a, p) => .ok (a, { s with signals := p })
  | .error e => .error (.simplification e)

/-- What is there, or else a failure. -/
def require {α : Type} (e : Failure) : Option α → EvalM α
  | some a => return a
  | none => throw e

/-- `gLoopDetector.detect(cons(exp, env))`. -/
def detect (exp env : Tree) : EvalM Unit := do
  let d ← require .endless ((← get).detector.detect (exp, env))
  modify fun s => { s with detector := d }

/-- `setEvalProperty`. -/
def setEvalProperty (exp env value : Tree) : EvalM Unit :=
  modify fun s => { s with values := Function.update s.values (exp, env) (some value) }

/-- `setPMProperty`. -/
def setPMProperty (rules env pm : Tree) : EvalM Unit :=
  modify fun s => { s with matchers := Function.update s.matchers (rules, env) (some pm) }

/-- `gSymbolicBoxProperty->set(exp, result)`. -/
def setSymbolicBox (exp result : Tree) : EvalM Unit :=
  modify fun s => { s with symbolicBox := Function.update s.symbolicBox exp (some result) }

/-- `setNumericProperty`. -/
def setNumericProperty (t num : Tree) : EvalM Unit :=
  modify fun s => { s with numeric := Function.update s.numeric t (some num) }

/-- `boxSlot(++gBoxSlotNumber)`. -/
def nextSlot : EvalM Tree := do
  modify fun s => { s with boxSlotNumber := s.boxSlotNumber + 1 }
  return boxSlot (← get).boxSlotNumber

/-- `tree2str`. -/
def tree2str : Tree → EvalM String
  | .node (.sym (.user name)) _ => return name
  | _ => throw .assertion

/-- `tree2int`. -/
def tree2int : Tree → EvalM ℤ
  | .node (.int i) _ => return i
  | .node (.double x) _ => return wrap32 (truncInt x)
  | _ => throw .assertion

/-- `tree2float`. -/
def tree2float : Tree → EvalM ℚ
  | .node (.int i) _ => return i
  | .node (.double x) _ => return x
  | _ => throw .assertion

/-! ## Sets of visited definitions (`list.cpp`)

A set is a list that is ordered by the addresses of its elements; `before` compares them. -/

/-- `addElement`. -/
def addElement (before : Tree → Tree → Bool) (e : Tree) : Tree → Tree
  | .node (.sym .cons) [hd, tl] =>
    if before e hd then cons e (cons hd tl)
    else if e = hd then cons hd tl
    else cons hd (addElement before e tl)
  | _ => cons e nil
termination_by t => t.size
decreasing_by exact size_lt_of_mem (by simp)

/-- `setUnion`. -/
def setUnion (before : Tree → Tree → Bool) (A B : Tree) : Tree :=
  ofList (merge (elements A) (elements B))
where
  /-- The elements of a union. -/
  merge : List Tree → List Tree → List Tree
    | [], B => B
    | A, [] => A
    | a :: A, b :: B =>
      if a = b then a :: merge A B
      else if before a b then a :: merge A (b :: B)
      else b :: merge (a :: A) B

/-! ## What the evaluator depends on -/

/-- What is given to the evaluator: the C library, the order of the addresses of trees, the
definitions in a file (`expandlist(getlist(fname))`), what the name of a definition is shortened to
and the automaton that is built for the patterns of some rules. -/
structure Setting where
  libm : Libm
  before : Tree → Tree → Bool
  files : String → Option (List (Tree × Tree))
  defName : Tree → Tree
  automaton : List (List Tree × Tree) → Automaton

end Eval

end Faust
