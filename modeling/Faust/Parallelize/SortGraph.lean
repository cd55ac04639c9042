import Faust.Lib.DepGraph
import Faust.Parallelize.CodeLoop

/-!
# Sorting the loops (`code_loop.cpp`, `code_container.cpp`)

`sortGraph` places the loops by level, each as deep as the longest path that leads to it from
the root. `sortDeepFirstDAG` lists them in the order in which a depth first visit leaves them.
Both follow pointers, and neither returns on a graph with a cycle: a call that is still under
way when the fuel is spent gives `none`.
-/

namespace Faust

/-- The fields of the loops, by address: what a loop depends on, a set kept in the order of
addresses, and whether it has no code. -/
structure CodeLoops where
  backward : ℕ → List ℕ
  isEmpty : ℕ → Bool
  nodup_backward : ∀ l, (backward l).Nodup

namespace CodeLoops

open LoopGraph

variable (L : CodeLoops)

/-- `lclset::insert`, of a range. -/
def insertLoops (s qs : List ℕ) : List ℕ := qs.foldl (fun s q => insertLoop q s) s

/-- The field `fOrder` of each loop, and the levels. -/
structure Levels where
  fOrder : ℕ → ℤ
  V : List (List ℕ)

/-- `vector::resize`. -/
def resize (V : List (List ℕ)) (n : ℕ) : List (List ℕ) :=
  V.take n ++ List.replicate (n - V.length) []

/-- `CodeLoop::setOrder`. -/
def setOrder (l order : ℕ) (s : Levels) : Levels :=
  let V := resize s.V (order + 1)
  let V := if 0 ≤ s.fOrder l then V.modify (s.fOrder l).toNat (·.erase l) else V
  ⟨Function.update s.fOrder l order, V.modify order (insertLoop l)⟩

/-- `CodeLoop::setLevel`: the loops of `T1` are placed, and what they depend on is added to
`T2`. -/
def setLevel (order : ℕ) (T1 T2 : List ℕ) (s : Levels) : List ℕ × Levels :=
  T1.foldl (fun r p => (insertLoops r.1 (L.backward p), setOrder p order r.2)) (T2, s)

/-- `CodeLoop::resetOrder`. -/
def resetOrder : ℕ → ℕ → (ℕ → ℤ) → Option (ℕ → ℤ)
  | 0, _, _ => none
  | fuel + 1, l, fOrder =>
    (L.backward l).foldlM (fun o p => resetOrder fuel p o) (Function.update fOrder l (-1))

/-- The `do` loop of `sortGraph`. -/
def sortLevels : ℕ → ℕ → List ℕ → Levels → Option Levels
  | 0, _, _, _ => none
  | fuel + 1, level, T1, s =>
    let r := L.setLevel level T1 [] s
    if 0 < r.1.length then sortLevels fuel (level + 1) r.1 r.2 else some r.2

/-- A level that holds nothing but an empty loop. -/
def isEmptyLevel : List ℕ → Bool
  | [l] => L.isEmpty l
  | _ => false

/-- `CodeLoop::sortGraph`. -/
def sortGraph (fuel root : ℕ) (fOrder : ℕ → ℤ) : Option (List (List ℕ)) := do
  let fOrder ← L.resetOrder fuel root fOrder
  let s ← L.sortLevels fuel 0 [root] ⟨fOrder, []⟩
  return s.V.filter fun level => !L.isEmptyLevel level

/-- `CodeContainer::sortDeepFirstDAG`, on the sets of loops visited and the list of results. -/
def sortDeepFirstDAG : ℕ → ℕ → List ℕ × List ℕ → Option (List ℕ × List ℕ)
  | 0, _, _ => none
  | fuel + 1, l, (visited, result) =>
    if l ∈ visited then some (visited, result)
    else do
      let (visited, result) ←
        (L.backward l).foldlM (fun r p => sortDeepFirstDAG fuel p r) (insertLoop l visited, result)
      return (visited, if L.isEmpty l then result else result ++ [l])

/-- The order in which `generateDAGLoop` generates the loops, from their levels. -/
def emission (V : List (List ℕ)) : List ℕ := V.reverse.flatten

end CodeLoops

end Faust
