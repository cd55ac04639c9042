import Faust.Tlib.Symbol
import Mathlib.Data.List.AList

/-!
# Environments (`environment.cpp`)

An environment is a stack of layers. A layer is a tree with a symbol of its own over the rest of
the stack; its definitions are properties of the tree. A definition is a closure: an expression and
the environment its names are looked up in.
-/

namespace Faust

open Tree

/-- The symbol table and the properties of the trees (`CTree::fProperties`). -/
structure EnvState where
  symbols : SymbolTable
  props : Tree → AList fun _ : Tree => Tree

/-- What can go wrong: no symbol is left for a layer, a symbol is defined twice in a layer, or an
environment without a first branch is taken apart. -/
inductive EnvError
  | unique
  | redefinition (id : Tree)
  | branch
deriving DecidableEq, Repr

/-- A computation on environments. -/
abbrev EnvM := StateT EnvState (Except EnvError)

namespace EnvState

/-- `getProperty(t, key, …)`. -/
def getProperty (s : EnvState) (t key : Tree) : Option Tree := (s.props t).lookup key

/-- `setProperty(t, key, value)`. -/
def setProperty (s : EnvState) (t key value : Tree) : EnvState :=
  { s with props := Function.update s.props t ((s.props t).insert key value) }

end EnvState

namespace Environment

/-- `closure(abstr, genv, vis, lenv)`. -/
def closure (abstr genv vis lenv : Tree) : Tree :=
  .node (.sym (.user "Closure")) [abstr, genv, vis, lenv]

/-- `isClosure`. -/
def isClosure : Tree → Option (Tree × Tree × Tree × Tree)
  | .node (.sym (.user "Closure")) [abstr, genv, vis, lenv] => some (abstr, genv, vis, lenv)
  | _ => none

/-- `isBoxCase`. -/
def isBoxCase : Tree → Bool
  | .node (.sym (.user "BoxCase")) [_] => true
  | _ => false

/-- `gGlobal->DEFNAMEPROPERTY`. -/
def defNameProperty : Tree := leaf (.sym (.user "DEFNAMEPROPERTY"))

/-- `pushNewLayer`. -/
def pushNewLayer (lenv : Tree) : EnvM Tree := do
  let s ← get
  match s.symbols.unique "ENV_LAYER" with
  | some (sym, symbols) =>
    set { s with symbols := symbols }
    return .node (.sym sym) [lenv]
  | none => throw .unique

/-- `pushEnvBarrier`. -/
def pushEnvBarrier (lenv : Tree) : Tree := .node (.sym (.user "BARRIER")) [lenv]

/-- `isEnvBarrier`. -/
def isEnvBarrier (lenv : Tree) : Bool := lenv = nil ∨ lenv.label = .sym (.user "BARRIER")

/-- `addLayerDef`. -/
def addLayerDef (id df lenv : Tree) : EnvM Unit := do
  let s ← get
  match s.getProperty lenv id with
  -- the same definition again is a warning
  | some olddef => if df ≠ olddef then throw (.redefinition id) else pure ()
  | none => pure ()
  set (s.setProperty lenv id df)

/-- `pushValueDef`. -/
def pushValueDef (id df lenv : Tree) : EnvM Tree := do
  let lenv2 ← pushNewLayer lenv
  addLayerDef id df lenv2
  return lenv2

/-- `setDefNameProperty(cl, s)` unless the expression is a `case`; `defName` is what the name of a
symbol is shortened to. -/
def nameClosure (defName : Tree → Tree) (id rhs cl : Tree) (s : EnvState) : EnvState :=
  if isBoxCase rhs then s else s.setProperty cl defNameProperty (defName id)

/-- The loop of `pushMultiClosureDefs` over the pairs `cons(id, rhs)`. -/
def addClosureDefs (defName : Tree → Tree) (visited lenv2 : Tree) :
    List (Tree × Tree) → EnvM Unit
  | [] => pure ()
  | (id, rhs) :: ldefs => do
    let cl := closure rhs nil visited lenv2
    modify (nameClosure defName id rhs cl)
    addLayerDef id cl lenv2
    addClosureDefs defName visited lenv2 ldefs

/-- `pushMultiClosureDefs`. -/
def pushMultiClosureDefs (defName : Tree → Tree) (ldefs : List (Tree × Tree))
    (visited lenv : Tree) : EnvM Tree := do
  let lenv2 ← pushNewLayer lenv
  addClosureDefs defName visited lenv2 ldefs
  return lenv2

/-- One turn of the loop of `updateClosures`. -/
def updateClosure (oldEnv newEnv clos : Tree) : Tree :=
  match isClosure clos with
  | some (exp, genv, visited, lenv) =>
    if lenv = oldEnv then closure exp genv visited newEnv else clos
  | none => clos

/-- The first loop of `copyEnvReplaceDefs`: the definitions go to the new environment. -/
def transferDefs (anEnv copyEnv : Tree) (entries : List (Sigma fun _ : Tree => Tree))
    (s : EnvState) : EnvState :=
  entries.foldl (fun s e => s.setProperty copyEnv e.1 (updateClosure anEnv copyEnv e.2)) s

/-- The second loop of `copyEnvReplaceDefs`: the new definitions. -/
def replaceDefs (defName : Tree → Tree) (copyEnv visited curEnv : Tree)
    (ldefs : List (Tree × Tree)) (s : EnvState) : EnvState :=
  ldefs.foldl (fun s d =>
    let cl := closure d.2 nil visited curEnv
    (nameClosure defName d.1 d.2 cl s).setProperty copyEnv d.1 cl) s

/-- `copyEnvReplaceDefs`. -/
def copyEnvReplaceDefs (defName : Tree → Tree) (anEnv : Tree) (ldefs : List (Tree × Tree))
    (visited curEnv : Tree) : EnvM Tree := do
  match anEnv.branches with
  | [] => throw .branch
  | lenv :: _ =>
    let s ← get
    let entries := (s.props anEnv).entries
    let copyEnv ← pushNewLayer lenv
    modify (transferDefs anEnv copyEnv entries)
    modify (replaceDefs defName copyEnv visited curEnv ldefs)
    return copyEnv

/-- The search of `evalIdDef`: the definition of a symbol, and the layer it is found in. -/
def findIdDef (s : EnvState) (id : Tree) : Tree → Option (Tree × Tree)
  | .node n br =>
    if Tree.node n br = nil then none
    else
      match s.getProperty (.node n br) id with
      | some df => some (df, .node n br)
      | none =>
        match br with
        | [] => none
        | lenv :: _ => findIdDef s id lenv
termination_by t => t.size
decreasing_by exact size_lt_of_mem List.mem_cons_self

/-- `searchIdDef`: the search of the pattern matcher, which stops at a barrier. -/
def searchIdDef (s : EnvState) (id : Tree) : Tree → Option Tree
  | .node n br =>
    if isEnvBarrier (.node n br) then none
    else
      match s.getProperty (.node n br) id with
      | some df => some df
      | none =>
        match br with
        | [] => none
        | lenv :: _ => searchIdDef s id lenv
termination_by t => t.size
decreasing_by exact size_lt_of_mem List.mem_cons_self

end Environment

end Faust
