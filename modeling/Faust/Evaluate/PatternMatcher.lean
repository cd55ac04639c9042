import Mathlib.Data.List.Sort
import Faust.Evaluate.Evaluator

/-!
# The construction of the pattern matching automaton (`patternmatcher.cpp`)

From the patterns of each rule a trie is made, which is merged with the automaton of the rules
before it. Until the states are numbered the automaton is a tree: every transition has its own
successor, and the assignment of a state copies all that is below it.

The transitions of a state on constants are ordered by the addresses of the constants, those on
operators by the addresses of their symbols; both orders are parameters.
-/

namespace Faust.PatternMatcher

open Eval

deriving instance DecidableEq for TransKind

/-! ## Patterns -/

/-- `isBoxPatternVar`. -/
def isBoxPatternVar : Tree → Option Tree
  | .node n [id] => if BoxSym.ofNode n = some .patVar then some id else none
  | _ => none

/-- What `make_state` sees of a pattern: a variable, a composite pattern or a constant. -/
inductive Pattern
  | var (id : Tree)
  | op (n : Node) (x0 x1 : Pattern)
  | cst (x : Tree)

theorem size_of_isBoxPatternOp {x x0 x1 : Tree} {n : Node}
    (h : isBoxPatternOp x = some (n, x0, x1)) : x0.size < x.size ∧ x1.size < x.size := by
  unfold isBoxPatternOp at h
  split at h
  · split at h <;> cases h <;>
      exact ⟨Tree.size_lt_of_mem (by simp), Tree.size_lt_of_mem (by simp)⟩
  · cases h

/-- The dispatch of `make_state`. -/
def pattern (x : Tree) : Pattern :=
  match isBoxPatternVar x with
  | some id => .var id
  | none =>
    match _h : isBoxPatternOp x with
    | some (n, x0, x1) => .op n (pattern x0) (pattern x1)
    | none => .cst x
termination_by x.size
decreasing_by
  · exact (size_of_isBoxPatternOp _h).1
  · exact (size_of_isBoxPatternOp _h).2

/-! ## States -/

/-- `struct State`, before the states are numbered. -/
inductive State
  | mk (rules : List Rule) (ts : List (TransKind × State))

/-- The transitions of a state. -/
abbrev Transitions := List (TransKind × State)

/-- `state.rules`. -/
def State.rules : State → List Rule
  | .mk rules _ => rules

/-- `state.trans`. -/
def State.trans : State → Transitions
  | .mk _ ts => ts

@[simp] lemma rules_mk (rules : List Rule) (ts : Transitions) :
    (State.mk rules ts).rules = rules := rfl

@[simp] lemma trans_mk (rules : List Rule) (ts : Transitions) :
    (State.mk rules ts).trans = ts := rfl

/-- `make_state`: the trie of a pattern, in front of the state `next` that it ends in. -/
def Pattern.makeState (r : ℕ) : Pattern → List ℕ → State → State
  | .var id, p, next => .mk [⟨r, some id, p⟩] [(.var, next)]
  | .op n x0 x1, p, next =>
    .mk [⟨r, none, []⟩] [(.op n, x0.makeState r (p ++ [0]) (x1.makeState r (p ++ [1]) next))]
  | .cst x, _, next => .mk [⟨r, none, []⟩] [(.cst x, next)]

/-- The trie of the patterns of a rule. -/
def trie (r : ℕ) : List Pattern → State
  | [] => .mk [⟨r, none, []⟩] []
  | p :: ps => p.makeState r [] (trie r ps)

/-- `make_var_state`: a copy of a state behind `n` transitions on variables. -/
def makeVarState (state : State) : ℕ → State
  | 0 => state
  | n + 1 =>
    .mk (state.rules.map fun r => { r with id := none, p := [] })
      [(.var, makeVarState state n)]

/-- The number of arguments that follow the symbol of a transition. -/
def arity : TransKind → ℕ
  | .op _ => 2
  | _ => 0

/-- The completion of a state, which a variable leads to, for a symbol. -/
def completion (k : TransKind) (state : State) : State := makeVarState state (arity k)

/-! ## Merging -/

/-- `merge_rules`. -/
def mergeRules (rules1 rules2 : List Rule) : List Rule :=
  rules1.merge rules2 fun r1 r2 => r1.r ≤ r2.r

/-- What the symbol of a transition counts for in the recursion of the merge. -/
def TransKind.weight : TransKind → ℕ
  | .var => 1
  | .cst _ => 1
  | .op _ => 6

mutual

/-- The weight of a state. -/
def State.weight : State → ℕ
  | .mk _ ts => 1 + weights ts

/-- The weight of transitions, with the states they lead to. -/
def weights : Transitions → ℕ
  | [] => 0
  | (k, state) :: ts => TransKind.weight k + state.weight + weights ts

end

lemma State.weight_eq (state : State) : state.weight = 1 + weights state.trans := by
  obtain ⟨rules, ts⟩ := state
  rw [State.weight, trans_mk]

lemma State.weight_pos (state : State) : 0 < state.weight := by
  rw [State.weight_eq]
  omega

lemma weight_makeVarState (state : State) (n : ℕ) :
    (makeVarState state n).weight = state.weight + 2 * n := by
  induction n with
  | zero => rfl
  | succ n ih =>
    rw [makeVarState, State.weight, weights, weights, ih, TransKind.weight]
    omega

/-- A completion is heavier than the state, but by less than the symbol. -/
lemma weight_completion (k : TransKind) (state : State) :
    (completion k state).weight < state.weight + TransKind.weight k := by
  rw [completion, weight_makeVarState]
  cases k <;> simp [arity, TransKind.weight]

section
variable (before : TransKind → TransKind → Bool)

mutual

/-- `merge_state`: merges the second automaton into the first. -/
def mergeState (state1 state2 : State) : State :=
  .mk (mergeRules state1.rules state2.rules) (mergeTrans state1.trans state2.trans)
termination_by (state1.weight + state2.weight, 0)
decreasing_by
  rw [State.weight_eq state1, State.weight_eq state2]
  exact Prod.Lex.left _ _ (by omega)

/-- `merge_trans`. Of the transitions of the second state only the first one is merged. -/
def mergeTrans (trans1 trans2 : Transitions) : Transitions :=
  match trans2, trans1 with
  | [], trans1 => trans1
  | trans2, [] => trans2
  | (.var, state) :: _, trans1 => mergeTransVar trans1 state
  | (k, state) :: _, trans1 => mergeTransSymbol trans1 k state
termination_by (weights trans1 + weights trans2, 3)
decreasing_by
  · simp only [Prod.lex_def, weights, TransKind.weight]
    omega
  · simp only [Prod.lex_def, weights]
    omega

/-- `merge_trans_var`: there is a transition on variables afterwards. -/
def mergeTransVar (ts : Transitions) (state : State) : Transitions :=
  match ts with
  | (.var, v) :: ts => (.var, mergeState v state) :: mergeCompletions ts state
  | ts => (.var, mergeState (.mk [] []) state) :: mergeCompletions ts state
termination_by (weights ts + state.weight + 1, 1)
decreasing_by
  all_goals
    simp only [Prod.lex_def, weights, State.weight, TransKind.weight]
    omega

/-- The loop of `merge_trans_var`: the completion of the state goes everywhere. -/
def mergeCompletions (ts : Transitions) (state : State) : Transitions :=
  match ts with
  | [] => []
  | (k, state1) :: ts =>
    (k, mergeState state1 (completion k state)) :: mergeCompletions ts state
termination_by (weights ts + state.weight, 1)
decreasing_by
  · have hcompletion := weight_completion k state
    simp only [Prod.lex_def, weights]
    omega
  · have hpos := state1.weight_pos
    simp only [Prod.lex_def, weights]
    omega

/-- `merge_trans_cst` and `merge_trans_op`. -/
def mergeTransSymbol (ts : Transitions) (k : TransKind) (state : State) : Transitions :=
  match ts with
  | (.var, v) :: ts => (.var, v) :: mergeSymbol ts k state (some v)
  | ts => mergeSymbol ts k state none
termination_by (weights ts + TransKind.weight k + state.weight, 2)
decreasing_by
  all_goals
    simp only [Prod.lex_def, weights, TransKind.weight, Option.map_some, Option.map_none,
      Option.getD_some, Option.getD_none]
    omega

/-- The loop of `merge_trans_cst` and `merge_trans_op`; `v` is the state that a variable leads
to. -/
def mergeSymbol (ts : Transitions) (k : TransKind) (state : State) (v : Option State) :
    Transitions :=
  match ts with
  | [] => [(k, newState k state v)]
  | (k1, state1) :: ts =>
    if k = k1 then (k1, mergeState state1 state) :: ts
    else if before k k1 then (k, newState k state v) :: (k1, state1) :: ts
    else (k1, state1) :: mergeSymbol ts k state v
termination_by (weights ts + TransKind.weight k + state.weight + (v.map State.weight).getD 0, 1)
decreasing_by
  · simp only [Prod.lex_def, weights]
    omega
  all_goals
    have hpos := state1.weight_pos
    have hpos' : 0 < TransKind.weight k := by cases k <;> simp [TransKind.weight]
    simp only [Prod.lex_def, weights]
    omega

/-- The state of a new transition: a copy, into which the completion of `v` is merged. -/
def newState (k : TransKind) (state : State) (v : Option State) : State :=
  match v with
  | none => state
  | some v => mergeState state (completion k v)
termination_by (TransKind.weight k + state.weight + (v.map State.weight).getD 0, 0)
decreasing_by
  have hcompletion := weight_completion k v
  simp only [Prod.lex_def, Option.map_some, Option.getD_some]
  omega

end

/-! ## The automaton of some rules -/

/-- The loop of `make_pattern_matcher`: the tries of the rules, from number `r` on, are merged into
a state in turn. -/
def addRules (state : State) : ℕ → List (List Pattern) → State
  | _, [] => state
  | r, ps :: rules => addRules (mergeState before state (trie r ps)) (r + 1) rules

/-- The start state of the automaton of some rules. -/
def automaton (rules : List (List Pattern)) : State := addRules before (.mk [] []) 0 rules

end

/-- The comparisons in the loops of `merge_trans_cst` and `merge_trans_op`: by the address of the
constant, and by the address of the symbol of the operator. -/
def precedes (address : Tree → ℕ) (symbol : Node → ℕ) : TransKind → TransKind → Bool
  | .cst x, .cst x1 => address x < address x1
  | .op n, .op n1 => symbol n < symbol n1
  | _, _ => false

end Faust.PatternMatcher
