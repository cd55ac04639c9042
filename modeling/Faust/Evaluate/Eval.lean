import Faust.Evaluate.Evaluator

/-!
# Evaluation of box expressions (`eval.cpp`)

`eval` evaluates an expression in an environment, `a2sb` replaces what remains of the abstractions
by symbolic boxes and `applyList` applies a function to arguments. The three call each other:
`Calls` are the three functions below some depth, and each function of the source is written with
the calls that it makes. `calls n` are the functions for a depth below `n`.
-/

namespace Faust

open Faust.Tree Environment

namespace Eval

/-- The functions that are called recursively. -/
structure Calls where
  eval : Tree → Tree → Tree → EvalM Tree
  a2sb : Tree → EvalM Tree
  applyList : Tree → List Tree → EvalM Tree

/-- The pairs of a list of definitions. -/
def definitions (ldef : Tree) : List (Tree × Tree) :=
  (elements ldef).map fun d => (d.branches.getD 0 nil, d.branches.getD 1 nil)

section
variable (S : Setting) (depth : ℕ) (c : Calls)

/-! ## Numbers -/

/-- `simplify(hd(boxPropagateSig(nil, box, makeSigInputList(0))))`. -/
def simplifiedSignal (box : Box) : EvalM Tree := do
  match ← runPropagation (propagate S.libm [] [] box (makeSigInputList 0)) with
  | sig :: _ => runSimplification (Simplify.sigMap S.libm S.before depth sig)
  | [] => throw .assertion

/-- `isBoxNumeric`. -/
def isBoxNumeric (exp : Tree) : EvalM (Option Tree) := do
  if exp.label.isNum then return some exp
  else
    match isClosure exp with
    | some (abstr, _, _, _) => if (isBoxAbstr abstr).isSome then return none else numeric
    | none => numeric
where
  /-- The number of an expression that is not a closure over an abstraction. -/
  numeric : EvalM (Option Tree) := do
    let v ← c.a2sb exp
    match getBoxType (toBox v) with
    | .ok (some (0, 1)) =>
      -- potential numerical expression
      let res ← simplifiedSignal S depth (toBox v)
      return if res.label.isNum then some (leaf res.label) else none
    | .ok _ => return none
    | .error e => throw (.boxType e)

/-- `simplifyPattern`. -/
def simplifyPattern (value : Tree) : EvalM Tree := do
  match (← get).numeric value with
  | some num => return num
  | none =>
    let num := (← isBoxNumeric S depth c value).getD value
    setNumericProperty value num
    return num

/-- `patternSimplification`, for a pattern of a depth below the argument. -/
def patternSimplification : ℕ → Tree → EvalM Tree
  | 0, _ => throw .outOfFuel
  | n + 1, pattern => do
    match ← isBoxNumeric S depth c pattern with
    | some v => return v
    | none =>
      match pattern with
      | .node op [t1, t2] =>
        match BoxSym.ofNode op with
        | some (.op _) =>
          return .node op [← patternSimplification n t1, ← patternSimplification n t2]
        | _ => return pattern
      | _ => return pattern

/-- The signal of a constant expression, which `eval2double` and `eval2int` convert. -/
def constantSignal (exp visited localValEnv : Tree) : EvalM Tree := do
  let diagram ← c.a2sb (← c.eval exp visited localValEnv)
  match getBoxType (toBox diagram) with
  | .ok (some (0, 1)) => simplifiedSignal S depth (toBox diagram)
  | .ok _ => throw (.notConstant exp)
  | .error e => throw (.boxType e)

/-- `eval2double`. -/
def eval2double (exp visited localValEnv : Tree) : EvalM ℚ := do
  tree2float (← constantSignal S depth c exp visited localValEnv)

/-- `eval2int`. -/
def eval2int (exp visited localValEnv : Tree) : EvalM ℤ := do
  tree2int (← constantSignal S depth c exp visited localValEnv)

/-! ## Labels -/

/-- `evalLabel`, of the label of a widget or of a group. -/
def evalLabelTree (label visited localValEnv : Tree) : EvalM Tree := do
  let src ← tree2str label
  let value := fun ident => eval2int S depth c (boxIdent (String.ofList ident)) visited localValEnv
  return leaf (.sym (.user (String.ofList (← evalLabel value src.toList))))

/-! ## Iterations -/

/-- `eval(body, visited, pushValueDef(id, tree(i), localValEnv))`. -/
def evalAt (id body visited localValEnv : Tree) (i : ℕ) : EvalM Tree := do
  c.eval body visited (← runEnv (pushValueDef id (leaf (.int i)) localValEnv))

/-- The iterations from the last value of the parameter. -/
def iterateDown (op : BoxOp) (id : Tree) (num : ℤ) (body visited localValEnv : Tree) :
    EvalM Tree := do
  if num ≤ 0 then throw .assertion
  let res ← evalAt c id body visited localValEnv (num.toNat - 1)
  (List.range (num.toNat - 1)).reverse.foldlM
    (fun res i => do return boxTree (.op op) [← evalAt c id body visited localValEnv i, res]) res

/-- The iterations from the first value of the parameter. -/
def iterateUp (p : Prim2) (id : Tree) (num : ℤ) (body visited localValEnv : Tree) :
    EvalM Tree := do
  if num ≤ 0 then throw .assertion
  let res ← evalAt c id body visited localValEnv 0
  (List.range' 1 (num.toNat - 1)).foldlM
    (fun res i => do
      let e ← evalAt c id body visited localValEnv i
      return boxTree (.op .seq) [boxTree (.op .par) [res, e], boxPrim2 p]) res

/-- `iteratePar`. -/
def iteratePar := iterateDown c .par

/-- `iterateSeq`. -/
def iterateSeq := iterateDown c .seq

/-- `iterateSum`. -/
def iterateSum := iterateUp c (.sigBinOp .kAdd)

/-- `iterateProd`. -/
def iterateProd := iterateUp c (.sigBinOp .kMul)

/-- The iteration of an expression. -/
def iterate : Iteration → Tree → ℤ → Tree → Tree → Tree → EvalM Tree
  | .par => iteratePar c
  | .seq => iterateSeq c
  | .sum => iterateSum c
  | .prod => iterateProd c

/-! ## Pattern matching -/

/-- `subtree`: the subterm at a path. -/
def subtree : Tree → List ℕ → Tree
  | X, [] => X
  | X, i :: p =>
    match isBoxPatternOp X with
    | some (_, x0, x1) => subtree (if i = 0 then x0 else x1) p
    | none => X

/-- The variables matched so far: a rule, a variable and the path of its value. -/
abbrev Subst := List (ℕ × Tree × List ℕ)

/-- `add_subst`. -/
def addSubst (st : AutomatonState) (subst : Subst) : Subst :=
  subst ++ st.rules.filterMap fun r => r.id.map fun id => (r.r, id, r.p)

/-- The first transition on a constant or on an operator that applies to `X`. -/
def applicable (X : Tree) : List Trans → Option (Trans × Option (Tree × Tree))
  | [] => none
  | t :: ts =>
    match t.kind, isBoxPatternOp X with
    | .cst x, _ => if X = x then some (t, none) else applicable X ts
    | .op n, some (n1, x0, x1) => if n = n1 then some (t, some (x0, x1)) else applicable X ts
    | _, _ => applicable X ts

/-- Simplify possible numeric argument on the fly. -/
def numericArgument (st : AutomatonState) (X : Tree) : EvalM Tree :=
  if st.matchNum then simplifyPattern S depth c X else return X

/-- `apply_pattern_matcher_internal`, for a term of a depth below the argument; no state is a
failed match. -/
def applyInternal (A : Automaton) : ℕ → Option ℕ → Tree → Subst → EvalM (Option ℕ × Subst)
  | 0, _, _, _ => throw .outOfFuel
  | _, none, _, subst => return (none, subst)
  | n + 1, some s, X, subst => do
    let st ← require .assertion (A.state[s]?)
    let X ← numericArgument S depth c st X
    match applicable X st.trans with
    | some (t, none) => return (some t.state, addSubst st subst)
    | some (t, some (x0, x1)) =>
      let (s, subst) ← applyInternal A n (some t.state) x0 (addSubst st subst)
      applyInternal A n s x1 subst
    | none =>
      -- the variable transition is always the first
      match st.trans with
      | ⟨.var, s'⟩ :: _ => return (some s', addSubst st subst)
      | _ :: _ => return (none, subst)
      | [] => throw .assertion

/-- The binding of a variable of a rule, in the environment of the rule. -/
def bindVariable (id Z1 E : Tree) : EvalM Tree := do
  if isBoxError E then throw .assertion
  match searchIdDef (← get).env id E with
  -- failed nonlinearity, the rule is not viable
  | some Z => return if Z ≠ Z1 then boxError else E
  | none => runEnv (pushValueDef id Z1 E)

/-- The bindings of the variables of the rules that are still active. -/
def bindRules (X : Tree) (subst : Subst) : List Rule → List Tree → EvalM (List Tree)
  | [], E => return E
  | r :: rules, E => do
    let env ← require .assertion (E[r.r]?)
    if isBoxError env then bindRules X subst rules E
    else
      let env ← (subst.filter (·.1 = r.r)).foldlM
        (fun env a => bindVariable a.2.1 (subtree X a.2.2) env) env
      bindRules X subst rules (E.set r.r env)

/-- The closure of the first rule that is still viable. -/
def matchedRule (A : Automaton) (E : List Tree) : List Rule → EvalM (Option Tree)
  | [] => return none
  | r :: rules => do
    let env ← require .assertion (E[r.r]?)
    if isBoxError env then matchedRule A E rules
    else return some (closure (← require .assertion (A.rhs[r.r]?)) nil nil env)

/-- `apply_pattern_matcher`: the next state, if the match does not fail, the closure of the rule
that is matched, if there is one, and the environments of the rules. -/
def applyPatternMatcher (A : Automaton) (s : ℕ) (X : Tree) (E : List Tree) :
    EvalM (Option ℕ × Option Tree × List Tree) := do
  match ← applyInternal S depth c A depth (some s) X [] with
  | (none, _) => return (none, none, E)
  | (some s, subst) =>
    let st ← require .assertion (A.state[s]?)
    let E ← bindRules X subst st.rules E
    -- in a final state, the right-hand side of the rule that is matched
    if st.trans.isEmpty then
      match ← matchedRule A E st.rules with
      | some C => return (some s, some C, E)
      | none => return (none, none, E)
    else return (some s, none, E)

/-- The check for shadowed rules: the patterns of a rule are matched in turn. -/
def checkRule (A : Automaton) : Option ℕ → List Tree → List Tree → EvalM Unit
  | none, _, _ | _, [], _ => return ()
  | some s, pat :: pats, E => do
    let (s, _, E) ← applyPatternMatcher S depth c A s pat E
    checkRule A s pats E

/-- `make_pattern_matcher`: the automaton of the rules, whose patterns come in reverse order. -/
def makePatternMatcher (rules : List (List Tree × Tree)) : EvalM ℕ := do
  let A := S.automaton rules
  rules.reverse.forM fun rule =>
    checkRule S depth c A (some 0) rule.1.reverse (List.replicate rules.length nil)
  modifyGet fun s => (s.automata.length, { s with automata := s.automata ++ [A] })

/-- `evalPattern`. -/
def evalPattern (env pattern : Tree) : EvalM Tree := do
  patternSimplification S depth c depth (← c.eval pattern nil env)

/-- `evalRule`. -/
def evalRule (env rule : Tree) : EvalM (List Tree × Tree) := do
  let patterns ← (elements (rule.branches.getD 0 nil)).mapM (evalPattern S depth c env)
  return (patterns, rule.branches.getD 1 nil)

/-- `evalCase`. -/
def evalCase (rules env : Tree) : EvalM Tree := do
  match (← get).matchers (rules, env) with
  | some pm => return pm
  | none =>
    let a ← makePatternMatcher S depth c (← (elements rules).mapM (evalRule S depth c env))
    let envs := List.replicate (elements rules).length (pushEnvBarrier env)
    let pm := boxPatternMatcher a 0 (ofList envs) rules nil
    setPMProperty rules env pm
    return pm

/-! ## Applications -/

/-- `larg2par`. -/
def larg2par : List Tree → Option Tree
  | [] => none
  | [a] => some a
  | a :: larg => (larg2par larg).map fun b => boxTree (.op .par) [a, b]

/-- `nwires`. -/
def nwires (n : ℕ) : List Tree := List.replicate n (boxTree .wire [])

/-- `boxlistOutputs`: a box without a type counts for one output. -/
def boxlistOutputs (larg : List Tree) : EvalM ℕ :=
  larg.foldlM (fun outputs t => do
    let b ← c.a2sb t
    match getBoxType (toBox b) with
    | .ok (some (_, outs)) => return outputs + outs
    | .ok none => return outputs + 1
    | .error e => throw (.boxType e)) 0

/-- The primitives whose only argument is the second: `/(3)` is `_,3 : /`. -/
def isInfix (fun_ : Tree) : Bool :=
  match isBoxPrim2 fun_, fun_.label with
  | some p, _ => p ≠ .sigPrefix
  | none, .sym (.xtended p) => p = .pow
  | none, _ => false

/-- `boxSeq(larg2par(larg), fun)`. -/
def seqPar (larg : List Tree) (fun_ : Tree) : EvalM Tree := do
  return boxTree (.op .seq) [← require .assertion (larg2par larg), fun_]

/-- The application of what is not a closure: `f(a,b,c,...)` is `(a,b,c,...) : f`. -/
def applyBox (fun_ : Tree) (larg : List Tree) : EvalM Tree := do
  -- check arity of function
  let efun ← c.a2sb fun_
  match getBoxType (toBox efun) with
  | .error e => throw (.boxType e)
  | .ok none => seqPar larg fun_
  | .ok (some (ins, _)) => do
    -- check arity of arg list
    let outs ← boxlistOutputs c larg
    if outs > ins then throw (.tooManyArguments outs ins)
    else if outs = 1 ∧ isInfix fun_ then seqPar (nwires (ins - outs) ++ larg) fun_
    else seqPar (larg ++ nwires (ins - outs)) fun_

/-- The application of a pattern matcher. -/
def applyMatcher (a state : ℕ) (envList originalRules revParamList arg : Tree)
    (larg : List Tree) : EvalM Tree := do
  let A ← require .assertion ((← get).automata[a]?)
  match ← applyPatternMatcher S depth c A state arg (elements envList) with
  | (none, _, _) => throw (.noRuleMatches originalRules)
  -- we need to continue the pattern matching
  | (some state2, none, envs) =>
    c.applyList (boxPatternMatcher a state2 (ofList envs) originalRules (cons arg revParamList))
      larg
  -- the result is a closure that we need to evaluate
  | (some _, some result, _) =>
    match isClosure result with
    | some (body, _, _, localValEnv) => do
      c.applyList (← c.eval body nil localValEnv) larg
    | none => return boxError

/-- The application of a closure. -/
def applyClosure (fun_ abstr visited localValEnv arg : Tree) (larg : List Tree) :
    EvalM Tree :=
  if isBoxEnvironment abstr then throw (.environmentApplied fun_)
  else
    match isBoxAbstr abstr with
    | none => throw (.notAbstraction fun_)
    | some (id, body) => do
      let arg ← c.eval arg visited localValEnv
      let arg := (← isBoxNumeric S depth c arg).getD arg
      let f ← c.eval body visited (← runEnv (pushValueDef id arg localValEnv))
      c.applyList f larg

/-- `applyList`. -/
def applyListWith (fun_ : Tree) (larg : List Tree) : EvalM Tree :=
  match larg with
  | [] => return fun_
  | arg :: larg =>
    if isBoxError fun_ then return boxError
    else
      match isBoxPatternMatcher fun_, isClosure fun_ with
      | some (a, state, envList, originalRules, revParamList), _ =>
        applyMatcher S depth c a state envList originalRules revParamList arg larg
      | none, none => applyBox c fun_ (arg :: larg)
      | none, some (abstr, _, visited, localValEnv) =>
        applyClosure S depth c fun_ abstr visited localValEnv arg larg

/-- `revEvalList`. -/
def revEvalList (lexp visited localValEnv : Tree) : EvalM (List Tree) :=
  (elements lexp).foldlM (fun result exp => do
    return (← c.eval exp visited localValEnv) :: result) []

/-! ## Expressions -/

/-- `evalIdDef`. -/
def evalIdDef (id visited lenv : Tree) : EvalM Tree := do
  let (df, lenv) ← require (.undefinedSymbol id) (findIdDef (← get).env id lenv)
  c.eval df (addElement S.before (cons id lenv) visited) nil

/-- The evaluation of the text of a file, for a component or a library. -/
def closureOfFile (exp label : Tree) : EvalM Tree := do
  let fname ← tree2str label
  let eqlst ← require (.notAFile fname) (S.files fname)
  return closure exp nil nil (← runEnv (pushMultiClosureDefs S.defName eqlst nil nil))

/-- `inputs` or `outputs`, from the type of a box. -/
def evalArity (arity : ℕ × ℕ → ℕ) (exp body visited localValEnv : Tree) : EvalM Tree := do
  let b ← c.a2sb (← c.eval body visited localValEnv)
  match getBoxType (toBox b) with
  | .ok (some type) => return leaf (.int (arity type))
  | .ok none => throw (.notConstant exp)
  | .error e => throw (.boxType e)

/-- The symbols and numbers of branches of the expressions that `realeval` returns unchanged:
constants, slots, symbolic boxes, pattern variables and pattern matchers. -/
def isConstantSym : BoxSym → ℕ → Bool
  | .wire, _ | .cut, _ | .waveform, _ => true
  | .prim0, 1 | .prim1, 1 | .prim2, 1 | .prim3, 1 | .prim4, 1 | .prim5, 1 | .ffun, 1 => true
  | .fconst, 3 | .fvar, 3 => true
  | .slot, 1 | .symbolic, 2 | .patVar, 1 | .patMatcher, 5 => true
  | _, _ => false

/-- The expressions that `realeval` returns unchanged. -/
def isConstant : Tree → Bool
  | .node (.int _) _ | .node (.double _) _ | .node (.sym (.xtended _)) _ => true
  | .node n br => (BoxSym.ofNode n).any fun b => isConstantSym b br.length

/-- The part of `realeval` that evaluates the branches of an expression. -/
def evalBranches (exp visited localValEnv : Tree) : EvalM Tree :=
  match BoxSym.ofNode exp.label, exp.branches with
  -- block-diagram constructors
  | some (.op _), [e1, e2] =>
    return .node exp.label
      [← c.eval e1 visited localValEnv, ← c.eval e2 visited localValEnv]
  -- modules
  | some .access, [body, var] => do
    match isClosure (← c.eval body visited localValEnv) with
    | some (_, genv, visited2, lenv2) =>
      c.eval (closure var genv visited2 lenv2) visited localValEnv
    | none => throw (.noEnvironment exp)
  | some .modifLocalDef, [body, ldef] => do
    match isClosure (← c.eval body visited localValEnv) with
    | some (exp2, genv, visited2, lenv2) =>
      let lenv3 ← runEnv
        (copyEnvReplaceDefs S.defName lenv2 (definitions ldef) visited2 localValEnv)
      c.eval (closure exp2 genv visited2 lenv3) visited localValEnv
    | none => throw (.noEnvironment exp)
  | some .component, [label] => closureOfFile S (boxIdent "process") label
  | some .library, [label] => closureOfFile S (boxTree .environment []) label
  -- user interface elements
  | some (.switch _), [label] =>
    return .node exp.label [← evalLabelTree S depth c label visited localValEnv]
  | some (.slider _), [label, params] => do
    let label ← evalLabelTree S depth c label visited localValEnv
    let cur ← eval2double S depth c ((elements params).getD 0 nil) visited localValEnv
    let lo ← eval2double S depth c ((elements params).getD 1 nil) visited localValEnv
    let hi ← eval2double S depth c ((elements params).getD 2 nil) visited localValEnv
    let step ← eval2double S depth c ((elements params).getD 3 nil) visited localValEnv
    return .node exp.label [label, ofList
      [leaf (.double cur), leaf (.double lo), leaf (.double hi), leaf (.double step)]]
  | some (.group _), [label, arg] => do
    let label ← evalLabelTree S depth c label visited localValEnv
    return .node exp.label [label, ← c.eval arg visited localValEnv]
  | some (.bargraph _), [label, lo, hi] => do
    let label ← evalLabelTree S depth c label visited localValEnv
    let lo ← eval2double S depth c lo visited localValEnv
    let hi ← eval2double S depth c hi visited localValEnv
    return .node exp.label [label, leaf (.double lo), leaf (.double hi)]
  -- lambda calculus
  | some .ident, _ => evalIdDef S c exp visited localValEnv
  | some .withLocalDef, [body, ldef] => do
    c.eval body visited
      (← runEnv (pushMultiClosureDefs S.defName (definitions ldef) visited localValEnv))
  | some .appl, [fun_, arg] => do
    let fun_ ← c.eval fun_ visited localValEnv
    c.applyList fun_ (← revEvalList c arg visited localValEnv)
  | some .abstr, _ | some .environment, _ => return closure exp nil visited localValEnv
  | some .closure, [exp2, _, visited2, lenv2] =>
    -- a closure, or a suspended evaluation
    if BoxSym.ofNode exp2.label = some .abstr ∨ isBoxEnvironment exp2 then
      return closure exp2 nil (setUnion S.before visited visited2) lenv2
    else c.eval exp2 (setUnion S.before visited visited2) lenv2
  -- algorithmic constructions
  | some (.iterate k), [var, num, body] => do
    let n ← eval2int S depth c num visited localValEnv
    iterate c k var n body visited localValEnv
  | some .inputs, [body] => evalArity c Prod.fst exp body visited localValEnv
  | some .outputs, [body] => evalArity c Prod.snd exp body visited localValEnv
  -- pattern matching extension
  | some .case, [rules] => evalCase S depth c rules localValEnv
  | _, _ => throw (.notIntercepted exp)

/-- `realeval`. -/
def realeval (exp visited localValEnv : Tree) : EvalM Tree :=
  if isConstant exp then return exp else evalBranches S depth c exp visited localValEnv

/-- `eval`: a value that is already known is not computed again. -/
def evalWith (exp visited localValEnv : Tree) : EvalM Tree := do
  match (← get).values (exp, localValEnv) with
  | some result => return result
  | none =>
    detect exp localValEnv
    let result ← realeval S depth c exp visited localValEnv
    setEvalProperty exp localValEnv result
    return result

/-! ## Symbolic boxes -/

/-- `real_a2sb`. -/
def realA2sb (exp : Tree) : EvalM Tree :=
  match isClosure exp, isBoxPatternMatcher exp with
  | some (abstr, _, visited, localValEnv), _ =>
    -- special case introduced with access and components
    if isBoxIdent abstr then do c.a2sb (← c.eval abstr visited localValEnv)
    else
      match isBoxAbstr abstr with
      | some (var, body) => do
        -- apply the abstraction to the slot
        let slot ← nextSlot
        let env ← runEnv (pushValueDef var slot localValEnv)
        return boxSymbolic slot (← c.a2sb (← c.eval body visited env))
      | none =>
        if isBoxEnvironment abstr then return abstr else throw (.notAbstraction exp)
  | none, some _ => do
    let slot ← nextSlot
    return boxSymbolic slot (← c.a2sb (← c.applyList exp [slot]))
  | none, none =>
    if BoxSym.ofNode exp.label = some .waveform then return exp
    -- it is a constructor : transform each branches
    else return .node exp.label (← exp.branches.mapM c.a2sb)

/-- `a2sb`. -/
def a2sbWith (exp : Tree) : EvalM Tree := do
  match (← get).symbolicBox exp with
  | some result => return result
  | none =>
    let result ← realA2sb c exp
    setSymbolicBox exp result
    return result

end

/-! ## The evaluator -/

variable (S : Setting)

/-- The functions of the evaluator, for a depth below `n`. -/
def calls : ℕ → Calls
  | 0 =>
    { eval := fun _ _ _ => throw .outOfFuel
      a2sb := fun _ => throw .outOfFuel
      applyList := fun _ _ => throw .outOfFuel }
  | n + 1 =>
    { eval := evalWith S n (calls n)
      a2sb := a2sbWith (calls n)
      applyList := applyListWith S n (calls n) }

/-- `eval`. -/
def eval (n : ℕ) : Tree → Tree → Tree → EvalM Tree := (calls S n).eval

/-- `a2sb`. -/
def a2sb (n : ℕ) : Tree → EvalM Tree := (calls S n).a2sb

/-- `applyList`. -/
def applyList (n : ℕ) : Tree → List Tree → EvalM Tree := (calls S n).applyList

end Eval

end Faust
