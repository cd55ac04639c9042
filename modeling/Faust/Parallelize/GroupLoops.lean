import Faust.Parallelize.SortGraph

/-!
# Grouping loops in sequence (`code_loop.cpp`)

A loop that has one dependency, which no other loop uses, absorbs it: the code of the absorbed loop
is generated just before its own, and it takes over the dependencies. So a chain of loops becomes
one task. The loops are followed by pointers; a call under way when the fuel is spent gives `none`.
-/

namespace Faust

namespace CodeLoops

/-- The fields of the loops that grouping changes, by address. -/
structure Groups where
  fUseCount : ℕ → ℕ
  fExtraLoops : ℕ → List ℕ
  fBackwardLoopDependencies : ℕ → List ℕ

/-- `CodeLoop::computeUseCount`. -/
def computeUseCount : ℕ → ℕ → Groups → Option Groups
  | 0, _, _ => none
  | fuel + 1, l, s =>
    let s := { s with fUseCount := Function.update s.fUseCount l (s.fUseCount l + 1) }
    if s.fUseCount l = 1 then
      (s.fBackwardLoopDependencies l).foldlM (fun s p => computeUseCount fuel p s) s
    else some s

/-- `CodeLoop::concat`. -/
def concat (l f : ℕ) (s : Groups) : Groups :=
  { s with
    fExtraLoops := Function.update s.fExtraLoops l (f :: s.fExtraLoops l)
    fBackwardLoopDependencies := Function.update s.fBackwardLoopDependencies l
      (s.fBackwardLoopDependencies f) }

/-- `CodeLoop::groupSeqLoops`. -/
def groupSeqLoops : ℕ → ℕ → Groups → Option Groups
  | 0, _, _ => none
  | fuel + 1, l, s =>
    match s.fBackwardLoopDependencies l with
    | [] => some s
    | [f] =>
      if s.fUseCount f = 1 then groupSeqLoops fuel l (concat l f s)
      else groupSeqLoops fuel f s
    | deps => deps.foldlM (fun s p => groupSeqLoops fuel p s) s

/-- `CodeContainer::processFIR`, with `gGroupTaskSwitch`. -/
def processFIR (L : CodeLoops) (fuel root : ℕ) : Option Groups := do
  let s ← computeUseCount fuel root ⟨fun _ => 0, fun _ => [], L.backward⟩
  groupSeqLoops fuel root s

/-- The loops whose code `CodeLoop::generateDAGScalarLoop` generates, in order: the extra loops,
then the loop. -/
def generateLoops (s : Groups) : ℕ → ℕ → Option (List ℕ)
  | 0, _ => none
  | fuel + 1, l => do
    let extra ← (s.fExtraLoops l).mapM (generateLoops s fuel)
    return extra.flatten ++ [l]

/-- What is asked of groups of the loops of a graph. -/
structure IsGrouping (L : CodeLoops) (root : ℕ) (s : Groups) (chain : ℕ → List ℕ) : Prop where
  /-- The code of a loop that is left is that of its chain. -/
  generates : ∀ h, DepGraph.Reach s.fBackwardLoopDependencies root h →
    ∃ n, ∀ fuel ≥ n, generateLoops s fuel h = some (chain h)
  /-- Each loop is in one chain. -/
  unique : ∀ l, DepGraph.Reach L.backward root l →
    ∃! h, DepGraph.Reach s.fBackwardLoopDependencies root h ∧ l ∈ chain h
  /-- In any order that respects the dependencies that are left, the chains run each loop once, after
  the loops it depends on. -/
  schedule : ∀ order : List ℕ, order.Nodup →
    (∀ h, h ∈ order ↔ DepGraph.Reach s.fBackwardLoopDependencies root h) →
      DepGraph.Respects s.fBackwardLoopDependencies order →
        (order.flatMap chain).Nodup ∧
        (∀ l, l ∈ order.flatMap chain ↔ DepGraph.Reach L.backward root l) ∧
        DepGraph.Respects L.backward (order.flatMap chain)

end CodeLoops

end Faust
