import Faust.Evaluate.EnvironmentTheorems
import Faust.Evaluate.EvalTheorems
import Faust.Evaluate.PatternMatcherTable

/-!
# The variables of the rules

The environment of a rule has the values of the variables matched so far. A rule whose variable is
matched again with another value is not viable any more. The closure that a match ends with is that
of the first rule that is active and viable.
-/

namespace Faust.PatternMatcher

open Eval Environment Outcome Residuals Faust.Tree

variable {before : TransKind → TransKind → Bool}

/-! ## Environments -/

/-- A state where a symbol that is not in use has no property. -/
structure Ready (s : EnvState) : Prop where
  barrier_mem : "BARRIER" ∈ s.symbols.names
  closure_mem : "Closure" ∈ s.symbols.names
  error_mem : BoxSym.error.name ∈ s.symbols.names
  fresh : ∀ name, name ∉ s.symbols.names → ∀ t, Named name t → ∀ key, s.getProperty t key = none

/-- A later state: the environments that there were are as before. -/
structure Extends (s s' : EnvState) : Prop where
  names : s.symbols.names ⊆ s'.symbols.names
  props : ∀ t name, name ∈ s.symbols.names → name ≠ "Closure" → Named name t →
    ∀ key, s'.getProperty t key = s.getProperty t key

lemma Extends.refl (s : EnvState) : Extends s s := ⟨fun _ h => h, fun _ _ _ _ _ _ => rfl⟩

lemma Extends.trans {s₁ s₂ s₃ : EnvState} (h₁ : Extends s₁ s₂) (h₂ : Extends s₂ s₃) :
    Extends s₁ s₃ where
  names _ h := h₂.names (h₁.names h)
  props t name hmem hne ht key := by
    rw [h₂.props t name (h₁.names hmem) hne ht, h₁.props t name hmem hne ht]

/-- A variable that is matched again has the same value. -/
def Consistent (B : List (Tree × Tree)) : Prop :=
  ∀ id Z Z', (id, Z) ∈ B → (id, Z') ∈ B → Z = Z'

/-- The environment has the values of the variables that have been matched. -/
structure Viable (s : EnvState) (B : List (Tree × Tree)) (env : Tree) : Prop where
  isEnv : IsEnv s.symbols.names env
  notError : isBoxError env = false
  binds : ∀ id Z, searchIdDef s id env = some Z ↔ (id, Z) ∈ B

/-- What the environment of a rule is: that of a rule that is still viable, or an error when a
variable had two values. -/
def Binds (s : EnvState) (B : List (Tree × Tree)) (env : Tree) : Prop :=
  Viable s B env ∨ isBoxError env = true ∧ ¬ Consistent B

lemma Viable.extends {s s' : EnvState} {B : List (Tree × Tree)} {env : Tree}
    (h : Viable s B env) (hs : Extends s s') : Viable s' B env where
  isEnv := h.isEnv.mono hs.names
  notError := h.notError
  binds id Z := by
    rw [searchIdDef_congr (fun t name hmem hne ht => hs.props t name hmem hne ht id) h.isEnv]
    exact h.binds id Z

lemma Binds.extends {s s' : EnvState} {B : List (Tree × Tree)} {env : Tree} (h : Binds s B env)
    (hs : Extends s s') : Binds s' B env := h.imp_left fun h => h.extends hs

/-- A later state of an evaluation, in which only environments are new. -/
structure Grows (e e' : EvalState) : Prop where
  ready : Ready e'.env
  env : Extends e.env e'.env
  numeric : e'.numeric = e.numeric

lemma Grows.trans {e₁ e₂ e₃ : EvalState} (h₁ : Grows e₁ e₂) (h₂ : Grows e₂ e₃) : Grows e₁ e₃ :=
  ⟨h₂.ready, h₁.env.trans h₂.env, h₂.numeric.trans h₁.numeric⟩

lemma Grows.refl {e : EvalState} (h : Ready e.env) : Grows e e := ⟨h, .refl _, rfl⟩

lemma Viable.again {s : EnvState} {B : List (Tree × Tree)} {env id Z : Tree}
    (h : Viable s B env) (hZ : (id, Z) ∈ B) : Viable s (B ++ [(id, Z)]) env where
  isEnv := h.isEnv
  notError := h.notError
  binds id' Z' := by
    rw [h.binds, List.mem_append, List.mem_singleton]
    constructor
    · intro h'
      exact .inl h'
    · rintro (h' | h')
      · exact h'
      · cases h'
        exact hZ

/-- The values of variables, of which the paths are known. -/
def values (X : Tree) (b : List (Tree × List ℕ)) : List (Tree × Tree) :=
  b.map fun a => (a.1, subtree X a.2)

/-- The environments of the rules in a list of markers. -/
def BindsAll (s : EnvState) (B : ℕ → List (Tree × Tree)) (rules : List Rule) (E : List Tree) :
    Prop :=
  ∀ m ∈ rules, ∃ env, E[m.r]? = some env ∧ Binds s (B m.r) env

/-- The closure is that of the first rule in a list of markers that is viable. -/
structure Chosen (A : Automaton) (s : EnvState) (B : ℕ → List (Tree × Tree)) (rules : List Rule)
    (m : Rule) (cl : Tree) : Prop where
  mem : m ∈ rules
  closure : ∃ rhs env, A.rhs[m.r]? = some rhs ∧ Viable s (B m.r) env ∧
    cl = closure rhs nil nil env
  first : ∀ m' ∈ rules, m'.r < m.r → ¬ Consistent (B m'.r)

/-- What the loop for the rule that is matched comes to. -/
def Matches (A : Automaton) (s : EnvState) (B : ℕ → List (Tree × Tree)) (rules : List Rule) :
    Option Tree → Prop
  | some cl => ∃ m, Chosen A s B rules m cl
  | none => ∀ m ∈ rules, ¬ Consistent (B m.r)

/-- The variables of the rules after one more argument. -/
def bound (B : ℕ → List (Tree × Tree)) (X : Tree) (subst : Subst) : ℕ → List (Tree × Tree) :=
  fun r => B r ++ values X (entries r subst)

/-- What the application to an argument comes to. -/
def Applied (A : Automaton) (state : State) (B : ℕ → List (Tree × Tree)) (X : Tree)
    (e' : EvalState) : Option ℕ × Option Tree × List Tree → Prop
  | (some s, C, E) => ∃ r0, state.apply X = some r0 ∧ Numbered A.state s r0.1 ∧
      BindsAll e'.env (bound B X r0.2) r0.1.rules E ∧
      ∀ cl, C = some cl → ∃ m, Chosen A e'.env (bound B X r0.2) r0.1.rules m cl
  | (none, _, _) => ∀ r0, state.apply X = some r0 →
      ∀ m ∈ r0.1.rules, ¬ Consistent (bound B X r0.2 m.r)

/-- The arguments that a `case` has been applied to, one after the other, with the number of the
state and the environments of the rules that this comes to. Between two arguments other expressions
are evaluated. -/
inductive Reads (S : Setting) (depth : ℕ) (c : Calls) (A : Automaton) (E₀ : List Tree) :
    List Tree → ℕ → List Tree → EvalState → Prop
  | start {e : EvalState} (hs : Ready e.env)
      (hE₀ : ∀ env ∈ E₀, IsEnv e.env.symbols.names env ∧ isEnvBarrier env) :
      Reads S depth c A E₀ [] 0 E₀ e
  | other {Xs E : List Tree} {s : ℕ} {e e' : EvalState} (h : Reads S depth c A E₀ Xs s E e)
      (hext : Extends e.env e'.env) (hs : Ready e'.env) : Reads S depth c A E₀ Xs s E e'
  | arg {Xs E E' : List Tree} {X : Tree} {s s' : ℕ} {e e' : EvalState}
      (h : Reads S depth c A E₀ Xs s E e) (hdepth : X.size ≤ depth) (hX : Plain e X)
      (hrun : applyPatternMatcher S depth c A s X E e = .ok ((some s', none, E'), e')) :
      Reads S depth c A E₀ (Xs ++ [X]) s' E' e'

section
variable {S : Setting} {depth : ℕ} {c : Calls} (address : Tree → ℕ) (symbol : Node → ℕ)
  {rules : List (List Tree × Tree)} {E₀ Xs E : List Tree} {s : ℕ} {e : EvalState}

variable {X : Tree} {s' : ℕ} {cl : Tree} {E' : List Tree} {e' : EvalState}

end

/-! ### Two rules -/

section
variable {S : Setting} {depth : ℕ} {c : Calls} (address : Tree → ℕ) (symbol : Node → ℕ)
  {rules : List (List Tree × Tree)} {E₀ Xs E E' : List Tree} {s s' : ℕ} {e e' : EvalState}
  {X cl : Tree}

end

end Faust.PatternMatcher
