import Mathlib.Data.Rat.Defs
import Mathlib.Data.List.Basic
import Mathlib.Tactic.Common

/-!
# `Tree`: nodes, symbols and hash-consed trees

Every expression the compiler manipulates (boxes, signals, lists, environments) is a
`CTree`: a node and a vector of branches. Trees are hash-consed, so the pointer
comparison `t1 == t2` of the source is structural equality here.

A `double` node carries the exact rational it stands for; an `int` node carries the
integer it denotes.
-/

namespace Faust

/-- The extended primitives registered by `global::global` (`gAbsPrim`, …, `gAsinPrim`). -/
inductive XtPrim
  | abs | acos | tan | sqrt | sin | rint | remainder | pow | min | max
  | log | log10 | fmod | floor | exp | cos | ceil | atan | atan2 | asin
deriving DecidableEq, Repr

/-- `xtended::arity`. -/
def XtPrim.arity : XtPrim → ℕ
  | remainder | pow | min | max | fmod | atan2 => 2
  | _ => 1

/-- The symbols that appear as nodes: those `global` predefines, the extended
primitives, and all other names of the symbol table. -/
inductive Sym
  | cons | nil
  | debruijn | debruijnRef | symRec
  | sigInput | sigOutput | sigDelay1 | sigFixDelay | sigPrefix | sigIota
  | sigRDTbl | sigWRTbl | sigTable | sigGen
  | sigDocConstantTbl | sigDocWriteTbl | sigDocAccessTbl
  | sigSelect2 | sigSelect3 | sigBinOp
  | sigFFun | sigFConst | sigFVar | sigProj | sigIntCast | sigFloatCast
  | sigButton | sigCheckbox | sigWaveform | sigHSlider | sigVSlider | sigNumEntry
  | sigHBargraph | sigVBargraph | sigAttach
  | xtended (p : XtPrim)
  | user (name : String)
deriving DecidableEq, Repr

/-- `class Node` (node.hh). -/
inductive Node
  | int (i : ℤ)
  | double (x : ℚ)
  | sym (s : Sym)
  | pointer (p : ℕ)
deriving DecidableEq, Repr

/-- `class CTree` (tree.hh): a node and its branches. -/
inductive Tree
  | node (n : Node) (br : List Tree)
deriving Repr

namespace Tree

mutual
/-- Structural equality of trees is decidable. -/
def decEq : (t u : Tree) → Decidable (t = u)
  | .node n br, .node n' br' =>
    match (inferInstance : Decidable (n = n')), decEqs br br' with
    | isTrue h, isTrue h' => isTrue (by rw [h, h'])
    | isFalse h, _ => isFalse (by intro e; cases e; exact h rfl)
    | _, isFalse h => isFalse (by intro e; cases e; exact h rfl)

/-- Structural equality of branch vectors is decidable. -/
def decEqs : (ts us : List Tree) → Decidable (ts = us)
  | [], [] => isTrue rfl
  | [], _ :: _ => isFalse (by simp)
  | _ :: _, [] => isFalse (by simp)
  | t :: ts, u :: us =>
    match decEq t u, decEqs ts us with
    | isTrue h, isTrue h' => isTrue (by rw [h, h'])
    | isFalse h, _ => isFalse (by intro e; cases e; exact h rfl)
    | _, isFalse h => isFalse (by intro e; cases e; exact h rfl)
end

instance : DecidableEq Tree := decEq

/-- `CTree::node`. -/
def label : Tree → Node
  | .node n _ => n

/-- `CTree::branches`. -/
def branches : Tree → List Tree
  | .node _ br => br

@[simp] theorem label_node (n : Node) (br : List Tree) : (Tree.node n br).label = n := rfl

@[simp] theorem branches_node (n : Node) (br : List Tree) :
    (Tree.node n br).branches = br := rfl

/-- `tree(n)`: a tree without branches. -/
def leaf (n : Node) : Tree := .node n []

/-- The number of nodes of a tree, and of a branch vector. -/
def size : Tree → ℕ
  | .node _ br => 1 + sizes br
where
  /-- The number of nodes of a branch vector. -/
  sizes : List Tree → ℕ
    | [] => 0
    | t :: ts => size t + sizes ts

theorem size_pos (t : Tree) : 0 < t.size := by
  cases t
  simp only [size]
  omega

theorem size_le_sizes {t : Tree} {ts : List Tree} (h : t ∈ ts) : t.size ≤ size.sizes ts := by
  induction ts with
  | nil => cases h
  | cons u us ih =>
    simp only [size.sizes]
    rcases List.mem_cons.mp h with rfl | h
    · omega
    · have := ih h
      omega

/-- A branch is smaller than the tree. -/
theorem size_lt_of_mem {n : Node} {br : List Tree} {t : Tree} (h : t ∈ br) :
    t.size < (Tree.node n br).size := by
  have := size_le_sizes h
  simp only [size]
  omega

/-- Induction on trees in which the hypothesis is available for every branch. -/
theorem induction {P : Tree → Prop}
    (h : ∀ n br, (∀ t ∈ br, P t) → P (.node n br)) : ∀ t, P t := by
  intro t
  induction hk : t.size using Nat.strong_induction_on generalizing t with
  | _ k ih =>
    subst hk
    cases t with
    | node n br => exact h n br fun u hu => ih _ (size_lt_of_mem hu) u rfl

/-! ## Lists of trees (`list.cpp`) -/

/-- `gGlobal->nil`. -/
def nil : Tree := leaf (.sym .nil)

/-- `cons`. -/
def cons (a b : Tree) : Tree := .node (.sym .cons) [a, b]

/-- A C++ list of trees as a tree list (`listConvert`). -/
def ofList : List Tree → Tree
  | [] => nil
  | t :: ts => cons t (ofList ts)

end Tree

end Faust
