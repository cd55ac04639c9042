import Faust.Parallelize.SortGraph
import Faust.Signals.Recursivness

/-!
# The construction of loops (`code_container.cpp`, `code_loop.cpp`)

The loops of a container are opened and closed around the instructions that are pushed. A loop that
is closed is kept, and the loop around it depends on it, or it is absorbed by the loop around it.
Loops are named by their addresses, and instructions are of any type.
-/

namespace Faust

open Recursivness (setUnion)

/-- `setIntersection`. The trees are compared by address. -/
def setIntersection (address : Tree → ℕ) : List Tree → List Tree → List Tree
  | [], _ => []
  | _, [] => []
  | a :: A, b :: B =>
    if a = b then a :: setIntersection address A B
    else if address a < address b then setIntersection address A (b :: B)
    else setIntersection address (a :: A) B

/-- `class CodeLoop`. -/
structure CodeLoop (ι : Type) where
  fRecSymbolSet : List Tree
  fEnclosingLoop : Option ℕ
  fSize : ℤ
  fPreInst : List ι
  fComputeInst : List ι
  fPostInst : List ι
  fLoopIndex : String
  fExtraLoops : List ℕ
  fBackwardLoopDependencies : List ℕ

namespace CodeLoop

variable {ι : Type}

/-- A new loop. -/
def new (recsymbol : Option Tree) (encl : Option ℕ) (index_name : String) (size : ℤ) :
    CodeLoop ι :=
  ⟨recsymbol.toList, encl, size, [], [], [], index_name, [], []⟩

/-- `isEmpty`. -/
def isEmpty (l : CodeLoop ι) : Bool :=
  l.fPreInst.isEmpty && l.fComputeInst.isEmpty && l.fPostInst.isEmpty && l.fExtraLoops.isEmpty

/-- The fields after `absorb`. -/
def absorb (address : Tree → ℕ) (e l : CodeLoop ι) : CodeLoop ι :=
  { e with
    fRecSymbolSet := setUnion address e.fRecSymbolSet l.fRecSymbolSet
    fBackwardLoopDependencies :=
      CodeLoops.insertLoops e.fBackwardLoopDependencies l.fBackwardLoopDependencies
    fPreInst := e.fPreInst ++ l.fPreInst
    fComputeInst := e.fComputeInst ++ l.fComputeInst
    fPostInst := l.fPostInst ++ e.fPostInst
    fLoopIndex := l.fLoopIndex }

/-- `addBackwardDependency`. -/
def addBackwardDependency (ls : ℕ) (l : CodeLoop ι) : CodeLoop ι :=
  { l with fBackwardLoopDependencies := LoopGraph.insertLoop ls l.fBackwardLoopDependencies }

/-- The instructions in the three sections. -/
def code (l : CodeLoop ι) : List ι := l.fPreInst ++ l.fComputeInst ++ l.fPostInst

end CodeLoop

/-- The sections of a loop. -/
inductive LoopSection
  | pre | compute | post
deriving DecidableEq

/-- `pushComputePreDSPMethod`, `pushComputeDSPMethod` and `pushComputePostDSPMethod`. -/
def CodeLoop.push {ι : Type} (inst : ι) : LoopSection → CodeLoop ι → CodeLoop ι
  | .pre, l => { l with fPreInst := l.fPreInst ++ [inst] }
  | .compute, l => { l with fComputeInst := l.fComputeInst ++ [inst] }
  | .post, l => { l with fPostInst := l.fPostInst ++ [inst] }

/-- The loops of `class CodeContainer`. The addresses from `fresh` on are free. -/
structure CodeContainer (ι : Type) where
  loop : ℕ → CodeLoop ι
  fresh : ℕ
  fCurLoop : ℕ
  fLoopProperty : Tree → Option ℕ

/-- What is called while signals are compiled. -/
inductive LoopCall (ι : Type)
  | openLoop (recsymbol : Option Tree) (index_name : String) (size : ℤ)
  | push (sec : LoopSection) (inst : ι)
  /-- The current loop needs the loop that computes `sig`. -/
  | addBackwardDependency (sig : Tree)
  | closeLoop (sig : Tree)

namespace CodeContainer

variable {ι : Type}

/-- The address of the first loop. -/
def root : ℕ := 0

/-- A new container. -/
def start : CodeContainer ι := ⟨fun _ => .new none none "i" 0, 1, root, fun _ => none⟩

/-- The loop at this address changes. -/
def updateLoop (l : ℕ) (f : CodeLoop ι → CodeLoop ι) (σ : CodeContainer ι) : CodeContainer ι :=
  { σ with loop := Function.update σ.loop l (f (σ.loop l)) }

/-- `openLoop`. -/
def openLoop (recsymbol : Option Tree) (index_name : String) (size : ℤ) (σ : CodeContainer ι) :
    CodeContainer ι :=
  { σ with
    loop := Function.update σ.loop σ.fresh (.new recsymbol (some σ.fCurLoop) index_name size)
    fresh := σ.fresh + 1
    fCurLoop := σ.fresh }

section
variable (address : Tree → ℕ)

/-- The loop of `hasRecDependencyIn`, from `l` outwards, on at most `n` loops. -/
def hasRecDependencyFrom (σ : CodeContainer ι) (S : List Tree) : ℕ → Option ℕ → Bool
  | n + 1, some l =>
    if (setIntersection address (σ.loop l).fRecSymbolSet S).isEmpty then
      hasRecDependencyFrom σ S n (σ.loop l).fEnclosingLoop
    else true
  | _, _ => false

/-- `hasRecDependencyIn`. A loop is made after the loops around it. -/
def hasRecDependencyIn (σ : CodeContainer ι) (l : ℕ) (S : List Tree) : Bool :=
  hasRecDependencyFrom address σ S (l + 1) (some l)

variable (symlist : Tree → List Tree)

/-- `closeLoop` absorbs the loop `l` in the loop `encl`. -/
def absorbs (σ : CodeContainer ι) (l encl : ℕ) (sig : Tree) : Bool :=
  (σ.loop l).isEmpty || hasRecDependencyIn address σ encl (symlist sig)

/-- `closeLoop`. There is no result when an assertion fails. -/
def closeLoop (sig : Tree) (σ : CodeContainer ι) : Option (CodeContainer ι) := do
  let l := σ.fCurLoop
  let encl ← (σ.loop l).fEnclosingLoop
  let σ := { σ with fCurLoop := encl }
  if absorbs address symlist σ l encl sig then
    if (σ.loop encl).fSize = (σ.loop l).fSize then
      return σ.updateLoop encl fun e => e.absorb address (σ.loop l)
    else none
  else
    let σ := σ.updateLoop encl (.addBackwardDependency l)
    return { σ with
      fLoopProperty := (sig :: (σ.loop l).fRecSymbolSet).foldl
        (fun prop s => Function.update prop s (some l)) σ.fLoopProperty }

/-- What a call does. -/
def step (σ : CodeContainer ι) : LoopCall ι → Option (CodeContainer ι)
  | .openLoop recsymbol index_name size => some (σ.openLoop recsymbol index_name size)
  | .push sec inst => some (σ.updateLoop σ.fCurLoop (.push inst sec))
  | .addBackwardDependency sig =>
    match σ.fLoopProperty sig with
    | some ls => some (σ.updateLoop σ.fCurLoop (.addBackwardDependency ls))
    | none => some σ
  | .closeLoop sig => σ.closeLoop address symlist sig

/-- A run, with the states in which the calls are made. -/
inductive Runs : List (CodeContainer ι × LoopCall ι) → CodeContainer ι → Prop
  | start : Runs [] start
  | call {tr : List (CodeContainer ι × LoopCall ι)} {σ σ' : CodeContainer ι} {c : LoopCall ι}
      (h : Runs tr σ) (hs : step address symlist σ c = some σ') : Runs (tr ++ [(σ, c)]) σ'

end

/-! ## What is built -/

/-- The number of loops that are open inside the first one. There is none when a loop is closed
that has not been opened. -/
def depth : List (LoopCall ι) → ℕ → Option ℕ
  | [], n => some n
  | .openLoop _ _ _ :: cs, n => depth cs (n + 1)
  | .closeLoop _ :: cs, n => if n = 0 then none else depth cs (n - 1)
  | _ :: cs, n => depth cs n

/-- Each loop that is opened is closed. -/
def WellBracketed (cs : List (LoopCall ι)) : Prop := depth cs 0 = some 0

/-- The loops have the size of the first one, as by default. -/
def DefaultSizes (cs : List (LoopCall ι)) : Prop :=
  ∀ recsymbol index_name size, .openLoop recsymbol index_name size ∈ cs → size = 0

section
variable (tr : List (CodeContainer ι × LoopCall ι))

/-- The instructions that are pushed. -/
def pushed : List ι :=
  tr.filterMap fun x =>
    match x.2 with
    | .push _ inst => some inst
    | _ => none

/-- The instructions that are pushed to the compute section of a loop. -/
def computePushed (l : ℕ) : List ι :=
  tr.filterMap fun x =>
    match x.2 with
    | .push .compute inst => if x.1.fCurLoop = l then some inst else none
    | _ => none

/-- The loops in the order in which they are closed. -/
def closings : List ℕ :=
  tr.filterMap fun x =>
    match x.2 with
    | .closeLoop _ => some x.1.fCurLoop
    | _ => none

/-- The loop has been absorbed. -/
def Absorbed (address : Tree → ℕ) (symlist : Tree → List Tree) (l : ℕ) : Prop :=
  ∃ σ sig encl, (σ, .closeLoop sig) ∈ tr ∧ σ.fCurLoop = l ∧ (σ.loop l).fEnclosingLoop = some encl ∧
    absorbs address symlist { σ with fCurLoop := encl } l encl sig = true

end

/-- What a loop depends on. -/
def backward (σ : CodeContainer ι) (l : ℕ) : List ℕ := (σ.loop l).fBackwardLoopDependencies

/-- What is asked of the loops at the end of a run. -/
structure Built (address : Tree → ℕ) (symlist : Tree → List Tree)
    (tr : List (CodeContainer ι × LoopCall ι)) (σ : CodeContainer ι) : Prop where
  /-- What is pushed is in one section of one loop. -/
  code : ∃ loops : List ℕ, loops.Nodup ∧ (∀ l, l ∈ loops ↔ DepGraph.Reach σ.backward root l) ∧
    (loops.flatMap fun l => (σ.loop l).code).Perm (pushed tr)
  /-- What is pushed to the compute section of a loop stays in order. -/
  order : ∀ l, ∃ l', DepGraph.Reach σ.backward root l' ∧
    (computePushed tr l).Sublist (σ.loop l').fComputeInst
  kept : ∀ l, DepGraph.Reach σ.backward root l → ¬ Absorbed tr address symlist l
  acyclic : DepGraph.Acyclic σ.backward root
  /-- A loop depends on loops that were closed before it. -/
  closed : ∀ l d, DepGraph.Reach σ.backward root l → d ∈ σ.backward l →
    [d, l].Sublist (closings tr ++ [root])

end CodeContainer

end Faust
