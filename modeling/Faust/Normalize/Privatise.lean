import Faust.Signals.Signals
import Faust.Tlib.Symbol

/-!
# Privatisation of tables (`privatise.cpp`)

Two write-tables on the same table would write in the same memory. `privatise` gives the table of
every write-table it meets a label of its own. It visits neither the sizes nor the contents of the
tables. Its results are kept as properties of the signals, under a key made for each call; the
definition of a recursive symbol is its property `RECDEF`, which is replaced.
-/

namespace Faust

open Faust.Tree

namespace Privatise

/-- Why a privatisation has no result: an exception or a failed assertion, or the depth of the
model. -/
inductive Failure
  | failed
  | outOfFuel
deriving DecidableEq, Repr

/-- What a privatisation reads and writes: the property `RECDEF`, the properties of a signal by
their key, and the symbol table. -/
structure Properties where
  recDef : Tree → Option Tree
  property : Tree → Tree → Option Tree
  symbols : SymbolTable

/-- A computation that reads and writes properties. -/
abbrev M := StateT Properties (Except Failure)

/-- The result of a function that has none after an exception or a failed assertion. -/
def require {α : Type} : Option α → M α
  | some a => return a
  | none => throw .failed

/-- `setProperty(t, k, v)`. -/
def Properties.setProperty (s : Properties) (t k v : Tree) : Properties :=
  { s with property := Function.update s.property t (Function.update (s.property t) k (some v)) }

/-- `rec(var, body)`, for the symbol `t`. -/
def Properties.setRecDef (s : Properties) (t body : Tree) : Properties :=
  { s with recDef := Function.update s.recDef t (some body) }

/-- `tree(unique(name))`. -/
def uniqueTree (name : String) : M Tree := do
  let s ← get
  match s.symbols.unique name with
  | some (sym, T) =>
    set { s with symbols := T }
    return leaf (.sym sym)
  | none => throw .failed

section
variable (address : Tree → String)

/-- `name` in `makePrivatisationKey`, where `address` prints a pointer. -/
def keyName (t : Tree) : String := "PRIVATISE " ++ address t ++ " : "

/-- `name` in `makePrivatisationLabel`. -/
def labelName (t : Tree) : String := "OWNER IS " ++ address t ++ " : "

/-- `makePrivatisationKey`. -/
def makePrivatisationKey (t : Tree) : M Tree := uniqueTree (keyName address t)

/-- `makePrivatisationLabel`. -/
def makePrivatisationLabel (t : Tree) : M Tree := uniqueTree (labelName address t)

/-- `labelize`. -/
def labelize (newid exp : Tree) : Option Tree :=
  match exp with
  | .node (.sym .sigWRTbl) [_, tbl, idx, wrt] => some (sigWRTbl newid tbl idx wrt)
  | .node (.sym .sigTable) [_, size, content] => some (sigTable newid size content)
  | _ => none

/-- `computePrivatisation`, where `privatisation` is the privatisation of the branches. -/
def computePrivatisation (privatisation : Tree → M Tree) (k exp : Tree) : M Tree :=
  match exp with
  | .node (.sym .sigWRTbl) [id, tbl, idx, wrt] => do
    let label ← makePrivatisationLabel address exp
    let tbl ← require (labelize label (← privatisation tbl))
    return sigWRTbl id tbl (← privatisation idx) (← privatisation wrt)
  | .node (.sym .sigTable) [_, _, _] => return exp
  | .node (.sym .sigGen) [_] => throw .failed -- the contents of tables are not visited
  | .node (.sym .symRec) [_] => do
    let body ← require ((← get).recDef exp)
    modify (·.setProperty exp k nil)
    let body' ← privatisation body
    modify (·.setRecDef exp body')
    return exp
  | .node n br => return .node n (← br.mapM privatisation)

/-- `privatisation`, for a depth below `fuel`. -/
def privatisation (k : Tree) : ℕ → Tree → M Tree
  | 0, _ => throw .outOfFuel
  | fuel + 1, t => do
    if t.branches = [] then return t
    match (← get).property t k with
    | some p => return if p = nil then t else p
    | none =>
      let v ← computePrivatisation address (privatisation k fuel) k t
      modify (·.setProperty t k (if v = t then nil else v))
      return v

/-- `privatise`, for a depth below `fuel`. -/
def privatise (fuel : ℕ) (t : Tree) : M Tree := do
  privatisation address (← makePrivatisationKey address t) fuel t

end

end Privatise

/-! ## The graph of a list of signals -/

section
variable (recDef : Tree → Option Tree)

/-- The nodes that a tree leads to, through the definitions of its recursive symbols. -/
inductive InGraph (r : Tree) : Tree → Prop
  | root : InGraph r r
  | branch {n : Node} {br : List Tree} {t : Tree} (h : InGraph r (.node n br))
      (hn : n ≠ .sym .symRec) (ht : t ∈ br) : InGraph r t
  | definition {var d : Tree} (h : InGraph r (.node (.sym .symRec) [var]))
      (hd : recDef (.node (.sym .symRec) [var]) = some d) : InGraph r d

end

end Faust
