import Faust.Evaluate.PatternMatching
import Faust.Lib.Outcome

/-!
# The table of the states

The states of the automaton are numbered in the order in which a walk over the tree of the states
comes to them. A match in the table goes through the states with these numbers, so it finds what a
match in the tree finds.
-/

namespace Faust.PatternMatcher

open Eval Residuals Outcome Faust.Tree

variable {before : TransKind → TransKind → Bool}

/-! ## The numbers of the states -/

/-- The transition is on a number. -/
def isNumberTrans : TransKind × State → Bool
  | (.cst x, _) => x.label.isNum
  | _ => false

mutual

/-- `Automaton::build`, for a state whose number is `s`: the states from this number on. -/
def build (s : ℕ) : State → List AutomatonState
  | .mk rules ts =>
    ⟨ts.any isNumberTrans, rules, (buildTrans (s + 1) ts).1⟩ :: (buildTrans (s + 1) ts).2

/-- The loop of `Automaton::build`: the transitions with the numbers of the states that they lead
to, and these states, from the number `s` on. -/
def buildTrans (s : ℕ) : List (TransKind × State) → List Trans × List AutomatonState
  | [] => ([], [])
  | (k, state) :: ts =>
    let states := build s state
    let next := buildTrans (s + states.length) ts
    (⟨k, s⟩ :: next.1, states ++ next.2)

end

/-- `make_pattern_matcher`, of rules that are delivered in reverse order, as their patterns are. -/
def makePatternMatcher (address : Tree → ℕ) (symbol : Node → ℕ)
    (rules : List (List Tree × Tree)) : Automaton where
  state := build 0 (matcher address symbol (rules.reverse.map (·.1.reverse)))
  rhs := rules.reverse.map (·.2)

mutual

/-- The state with a number in the table, and all that it leads to. -/
inductive Numbered (table : List AutomatonState) : ℕ → State → Prop
  | intro {s : ℕ} {rules : List Rule} {ts : List (TransKind × State)} {trans' : List Trans}
      (h : table[s]? = some ⟨ts.any isNumberTrans, rules, trans'⟩)
      (hts : NumberedTrans table trans' ts) : Numbered table s (.mk rules ts)

/-- The transitions to states with these numbers. -/
inductive NumberedTrans (table : List AutomatonState) :
    List Trans → List (TransKind × State) → Prop
  | nil : NumberedTrans table [] []
  | cons {k : TransKind} {s : ℕ} {state : State} {trans' : List Trans}
      {ts : List (TransKind × State)} (h : Numbered table s state)
      (hts : NumberedTrans table trans' ts) :
      NumberedTrans table (⟨k, s⟩ :: trans') ((k, state) :: ts)

end

mutual

/-- The states that are built are in the table under their numbers. -/
theorem numbered_build (pre post : List AutomatonState) (state : State) :
    Numbered (pre ++ build pre.length state ++ post) pre.length state := by
  obtain ⟨rules, ts⟩ := state
  rw [build]
  apply Numbered.intro
  · rw [List.append_assoc, List.getElem?_append_right (le_refl _), Nat.sub_self]
    rfl
  · have h := numbered_buildTrans
      (pre ++ [⟨ts.any isNumberTrans, rules, (buildTrans (pre.length + 1) ts).1⟩]) post ts
    rw [List.length_append, List.length_singleton] at h
    simpa using h

theorem numbered_buildTrans (pre post : List AutomatonState) (ts : List (TransKind × State)) :
    NumberedTrans (pre ++ (buildTrans pre.length ts).2 ++ post) (buildTrans pre.length ts).1
      ts := by
  cases ts with
  | nil => exact .nil
  | cons t ts =>
    obtain ⟨k, state⟩ := t
    rw [buildTrans]
    apply NumberedTrans.cons
    · have h := numbered_build pre
        ((buildTrans (pre.length + (build pre.length state).length) ts).2 ++ post) state
      simpa using h
    · have h := numbered_buildTrans (pre ++ build pre.length state) post ts
      rw [List.length_append] at h
      simpa using h

end

/-! ## Transitions of the table -/

section
variable {table : List AutomatonState} {X : Tree} {trans' : List Trans} {ts : Transitions}

/-- The constants of the transitions are not composite terms. -/
def ProperTrans (ts : Transitions) : Prop := ∀ x, .cst x ∈ keys ts → isBoxPatternOp x = none

lemma ProperTrans.tail {t : TransKind × State} (h : ProperTrans (t :: ts)) : ProperTrans ts :=
  fun x hx => h x (List.mem_cons_of_mem _ hx)

end

/-! ## Runs in the table -/

section
variable (S : Setting) (depth : ℕ) (c : Calls) (e : EvalState)

/-- The subterms of a term that are matched. -/
inductive Subterm : Tree → Tree → Prop
  | refl (X : Tree) : Subterm X X
  | left {X x0 x1 Y : Tree} {n : Node} (hX : isBoxPatternOp X = some (n, x0, x1))
      (h : Subterm x0 Y) : Subterm X Y
  | right {X x0 x1 Y : Tree} {n : Node} (hX : isBoxPatternOp X = some (n, x0, x1))
      (h : Subterm x1 Y) : Subterm X Y

/-- The simplification of each subterm, as it is known from before, is the subterm. -/
def Plain (X : Tree) : Prop := ∀ Y, Subterm X Y → e.numeric Y = some Y

variable {S depth c e}

end

end Faust.PatternMatcher
