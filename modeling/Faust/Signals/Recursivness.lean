import Faust.Signals.TableTypes
import Mathlib.Data.Finset.Basic
import Mathlib.Logic.Relation
import Mathlib.Order.Bounds.Basic

/-!
# Recursive symbols of signals (`recursivness.cpp`)

A signal in symbolic form refers to recursive symbols, and each symbol has a definition, its
property `RECDEF`. `symlist` collects the symbols that a signal leads to, and `annotate` gives the
number of open recursions that a signal depends on. Both keep results as properties of signals.
-/

namespace Faust.Recursivness

open Faust.Tree

/-- Why a traversal fails. -/
inductive Failure
  | unrecognizedSignal
  | outOfFuel
deriving DecidableEq, Repr

section
variable (recDefs : List (Tree × Tree))

/-- `isRec`: the definition of a recursive symbol. -/
def isRec : Tree → Option Tree
  | .node (.sym .symRec) [var] =>
    (recDefs.find? fun d => d.1 = .node (.sym .symRec) [var]).map Prod.snd
  | _ => none

/-- `getSubSignals`, with the definitions of the recursive symbols. -/
def getSubSignals : Tree → Option (List Tree)
  | .node (.sym .symRec) [var] =>
    (isRec recDefs (.node (.sym .symRec) [var])).map fun body => [body]
  | sig => Faust.getSubSignals true sig

/-! ## Sets of symbols -/

section
variable (address : Tree → ℕ)

/-- `setUnion`. The trees are compared by address. -/
def setUnion : List Tree → List Tree → List Tree
  | [], B => B
  | A, [] => A
  | a :: A, b :: B =>
    if a = b then a :: setUnion A B
    else if address a < address b then a :: setUnion A (b :: B)
    else b :: setUnion (a :: A) B

/-- The property `gSymListProp`. -/
abbrev SymListProp := Tree → Option (List Tree)

/-- The loops of `symlistVisit`. -/
def unions (visit : Tree → StateT (Finset Tree) (Except Failure) (List Tree)) (U : List Tree)
    (sigs : List Tree) : StateT (Finset Tree) (Except Failure) (List Tree) :=
  sigs.foldlM (fun U s => setUnion address U <$> visit s) U

/-- `symlistVisit`, for a traversal of depth below `fuel`. The state is the set `visited`. -/
def symlistVisit (gSymListProp : SymListProp) :
    ℕ → Tree → StateT (Finset Tree) (Except Failure) (List Tree)
  | 0, _ => throw .outOfFuel
  | fuel + 1, sig => do
    match gSymListProp sig with
    | some S => return S
    | none =>
      if sig ∈ (← get) then return []
      else
        modify (insert sig)
        match isRec recDefs sig with
        | some body =>
          unions address (symlistVisit gSymListProp fuel) [sig] (listElements body)
        | none =>
          match getSubSignals recDefs sig with
          | none => throw .unrecognizedSignal
          | some subsigs => unions address (symlistVisit gSymListProp fuel) [] subsigs

/-- `symlist`. The state is the property `gSymListProp`. -/
def symlist (fuel : ℕ) (sig : Tree) : StateT SymListProp (Except Failure) (List Tree) := do
  let gSymListProp ← get
  match gSymListProp sig with
  | some S => return S
  | none =>
    let (S, _) ← symlistVisit recDefs address gSymListProp fuel sig ∅
    modify fun prop => Function.update prop sig (some S)
    return S

end

/-! ## What a signal leads to -/

/-- What is visited below a signal: its subsignals, or the definitions of a recursive symbol. -/
def below (sig : Tree) : List Tree :=
  match isRec recDefs sig with
  | some body => listElements body
  | none => (getSubSignals recDefs sig).getD []

/-- The signal `t` is reached from `sig`. -/
def Reaches (sig t : Tree) : Prop := Relation.ReflTransGen (fun u v => v ∈ below recDefs u) sig t

/-- What is reached is made of signals. -/
def Recognized (sig : Tree) : Prop :=
  ∀ t, Reaches recDefs sig t → isRec recDefs t = none → (getSubSignals recDefs t).isSome

/-- Recursive symbols have addresses of their own, as trees are made once. -/
def DistinctSymbols (address : Tree → ℕ) : Prop :=
  ∀ a b, (isRec recDefs a).isSome → (isRec recDefs b).isSome → address a = address b → a = b

/-- The strictly increasing list of the recursive symbols reached from a signal. -/
structure IsSymlist (address : Tree → ℕ) (sig : Tree) (S : List Tree) : Prop where
  increasing : S.Pairwise fun a b => address a < address b
  mem : ∀ r, r ∈ S ↔ Reaches recDefs sig r ∧ (isRec recDefs r).isSome

/-- The values that the property `gSymListProp` can have: those left by calls of `symlist`. -/
inductive SymlistRun (address : Tree → ℕ) : SymListProp → Prop
  | start : SymlistRun address fun _ => none
  | call {prop prop' : SymListProp} {fuel : ℕ} {sig : Tree} {S : List Tree}
      (h : SymlistRun address prop) (hs : symlist recDefs address fuel sig prop = .ok (S, prop')) :
      SymlistRun address prop'

/-! ## Recursiveness -/

/-- `position`. -/
def position : List Tree → Tree → (p : ℕ) → ℕ
  | [], _, _ => 0
  | r :: env, t, p => if r = t then p else position env t (p + 1)

/-- The property `RECURSIVNESS`. -/
abbrev RecursivnessProp := Tree → Option ℕ

/-- `annotate`, for a traversal of depth below `fuel`. The subsignals of a signal are visited in the
order of `subsignals`. -/
def annotate (subsignals : Tree → Option (List Tree)) :
    ℕ → List Tree → Tree → StateT RecursivnessProp (Except Failure) ℕ
  | 0, _, _ => throw .outOfFuel
  | fuel + 1, env, sig => do
    match (← get) sig with
    | some r => return r
    | none =>
      match isRec recDefs sig with
      | some body =>
        let p := position env sig 1
        if p > 0 then return p
        else
          let r := (← annotate subsignals fuel (sig :: env) body) - 1
          modify fun prop => Function.update prop sig (some r)
          return r
      | none =>
        match subsignals sig with
        | none => throw .unrecognizedSignal
        | some v =>
          let rmax ← v.foldlM (fun rmax s => max rmax <$> annotate subsignals fuel env s) 0
          modify fun prop => Function.update prop sig (some rmax)
          return rmax

/-- `recursivnessAnnotation`. -/
def recursivnessAnnotation (subsignals : Tree → Option (List Tree)) (fuel : ℕ) (sig : Tree) :
    Except Failure RecursivnessProp := do
  let (_, prop) ← annotate recDefs subsignals fuel [] sig fun _ => none
  return prop

/-! ## Levels -/

/-- A way to a signal: the signals that are being visited when the signal is met, the last one
first. A recursion that is open is not opened again. -/
inductive Path (root : Tree) : List Tree → Tree → Prop
  | root : Path root [] root
  | subsignal {ρ : List Tree} {t s : Tree} {ss : List Tree} (h : Path root ρ t)
      (ht : isRec recDefs t = none) (hss : getSubSignals recDefs t = some ss) (hs : s ∈ ss) :
      Path root (t :: ρ) s
  | definition {ρ : List Tree} {r body : Tree} (h : Path root ρ r)
      (hr : isRec recDefs r = some body) (hn : r ∉ ρ) : Path root (r :: ρ) body

/-- What is visited is made of signals. -/
def Accepted (root : Tree) : Prop :=
  ∀ ρ t, Path recDefs root ρ t → isRec recDefs t = none → (getSubSignals recDefs t).isSome

/-- The recursions that are open on a path. -/
def openRecs (ρ : List Tree) : List Tree := ρ.filter fun t => (isRec recDefs t).isSome

/-- The signal refers to the open recursion `r`, not through another open recursion. -/
inductive Refers (env : List Tree) : Tree → Tree → Prop
  | here {r : Tree} (h : r ∈ env) : Refers env r r
  | subsignal {t s r : Tree} {ss : List Tree} (ht : isRec recDefs t = none)
      (hss : getSubSignals recDefs t = some ss) (hs : s ∈ ss) (h : Refers env s r) : Refers env t r
  | definition {t body r : Tree} (ht : isRec recDefs t = some body) (hn : t ∉ env)
      (h : Refers env body r) : Refers env t r

/-- The level of a signal among open recursions: the position of the outermost one it refers to, or
zero. -/
def IsLevel (env : List Tree) (sig : Tree) (n : ℕ) : Prop :=
  IsGreatest (insert 0 {p | ∃ r, Refers recDefs env sig r ∧ position env r 1 = p}) n

/-- An order of visit: the subsignals of each signal, in some order. -/
def IsOrder (subsignals : Tree → Option (List Tree)) : Prop :=
  ∀ t, Option.Rel List.Perm (subsignals t) (getSubSignals recDefs t)

/-- The annotation of a signal comes to its end, and gives to each subsignal its level on all the
paths that lead to it. -/
def AnnotatesLevels (subsignals : Tree → Option (List Tree)) (root : Tree) : Prop :=
  ∃ n, ∀ fuel ≥ n, ∃ prop, recursivnessAnnotation recDefs subsignals fuel root = .ok prop ∧
    ∀ ρ s, Path recDefs root ρ s → s ∉ ρ →
      ∃ r, prop s = some r ∧ IsLevel recDefs (openRecs recDefs ρ) s r

/-- A signal has the same level on all the paths that lead to it. -/
def SameLevels (root : Tree) : Prop :=
  ∀ ρ ρ' s n, Path recDefs root ρ s → Path recDefs root ρ' s → s ∉ ρ → s ∉ ρ' →
    IsLevel recDefs (openRecs recDefs ρ) s n → IsLevel recDefs (openRecs recDefs ρ') s n

/-- A signal that is met again while it is visited has the same level wherever it is met. -/
def SameInnerLevels (root : Tree) : Prop :=
  ∀ ρ ρ₁ ρ₂ s n, Path recDefs root (ρ₁ ++ s :: ρ) s → Path recDefs root (ρ₂ ++ s :: ρ) s →
    s ∉ ρ → isRec recDefs s = none → IsLevel recDefs (openRecs recDefs (ρ₁ ++ s :: ρ)) s n →
      IsLevel recDefs (openRecs recDefs (ρ₂ ++ s :: ρ)) s n

end

end Faust.Recursivness
