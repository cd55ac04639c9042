import Faust.Evaluate.Values

/-!
# Evaluated boxes are values

Every evaluation returns a value, whatever the expression, the environment and the automata of the
`case` expressions are. So a result that suspends no evaluation is evaluated to itself later: when
a name bound to it is looked up, or when it is an argument of a function.
-/

namespace Faust.Eval

open Faust.Tree Environment Outcome

variable {S : Setting} {W : List (Tree × Tree)}

/-! ## Parts of the state -/

theorem preserves_require {α : Type} {I : EvalState → Prop} {e : Failure} (o : Option α) :
    Preserves I (require e o) fun a => o = some a := by
  cases o with
  | none => exact .throw
  | some a => exact .pure rfl

/-- A computation on environments changes nothing else. -/
theorem preserves_runEnv {α : Type} (x : EnvM α) :
    Preserves (Inv S W) (runEnv x) fun _ => True := by
  intro s h
  unfold Ends runEnv
  cases x s.env with
  | error e => trivial
  | ok p =>
    exact ⟨⟨h.values, h.matchers, h.symbolicBox, h.propagation, h.signals, h.buffer⟩, trivial⟩

theorem preserves_setNumericProperty {t num : Tree} :
    Preserves (Inv S W) (setNumericProperty t num) fun _ => True := by
  apply Preserves.modify _ trivial
  intro s h
  exact ⟨h.values, h.matchers, h.symbolicBox, h.propagation, h.signals, h.buffer⟩

theorem preserves_setPMProperty {rules env pm : Tree} (hpm : isConstant pm = true) :
    Preserves (Inv S W) (setPMProperty rules env pm) fun _ => True := by
  apply Preserves.modify _ trivial
  intro s h
  refine ⟨h.values, ?_, h.symbolicBox, h.propagation, h.signals, h.buffer⟩
  intro k v hget
  replace hget : Function.update s.matchers (rules, env) (some pm) k = some v := hget
  by_cases hk : k = (rules, env)
  · rw [hk, Function.update_self] at hget
    rw [← Option.some.inj hget]
    exact hpm
  · rw [Function.update_of_ne hk] at hget
    exact h.matchers k v hget

theorem preserves_setSymbolicBox {t r : Tree} (hr : ReturnsNumber t r) :
    Preserves (Inv S W) (setSymbolicBox t r) fun _ => True :=
  .modify (fun _ h => h.setSymbolicBox hr) trivial

theorem preserves_nextSlot :
    Preserves (Inv S W) nextSlot fun slot => isConstant slot = true := by
  apply Preserves.bind (Q := fun _ => True)
  · apply Preserves.modify _ trivial
    intro s h
    exact ⟨h.values, h.matchers, h.symbolicBox, h.propagation, h.signals, h.buffer⟩
  · intro _ _
    apply Preserves.get_bind
    intro s _
    exact .pure (isConstant_boxTree _ _)

theorem preserves_tree2str {I : EvalState → Prop} (t : Tree) :
    Preserves I (tree2str t) fun _ => True := by
  unfold tree2str
  split
  · exact .pure trivial
  · exact .throw

theorem preserves_tree2int {I : EvalState → Prop} (t : Tree) :
    Preserves I (tree2int t) fun _ => True := by
  unfold tree2int
  split
  · exact .pure trivial
  · exact .pure trivial
  · exact .throw

theorem preserves_tree2float {I : EvalState → Prop} (t : Tree) :
    Preserves I (tree2float t) fun _ => True := by
  unfold tree2float
  split
  · exact .pure trivial
  · exact .pure trivial
  · exact .throw

theorem preserves_simplifiedSignal {depth n : ℕ} {box : Box}
    (ht : getBoxType box = .ok (some (0, n))) :
    Preserves (Inv S W) (simplifiedSignal S depth box) fun _ => True := by
  intro s h
  unfold simplifiedSignal
  apply ((h.ends_runPropagation ht).imp nofun fun _ _ hp => hp).bind
  intro lsig s₁ hp
  obtain ⟨h₁, _, _, _⟩ := hp
  cases lsig with
  | nil => exact .throw trivial
  | cons sig lsig =>
    apply (ends_runSimplification ((preserves_simplify _ _ depth).1 sig _ h₁.signals)).imp
    · intro _ _
      trivial
    · intro r s₂ hr
      obtain ⟨p, ⟨hp, _⟩, rfl⟩ := hr
      exact ⟨⟨h₁.values, h₁.matchers, h₁.symbolicBox, h₁.propagation, hp, h₁.buffer⟩, trivial⟩

/-- The evaluation of an expression that is no value begins. -/
theorem preserves_detect {exp env : Tree} (hexp : ¬ Value False exp) :
    Preserves (Inv S W) (detect exp env) fun _ => True := by
  intro s h
  unfold detect
  apply Ends.get_eq.bind
  intro s₁ s₂ heq
  obtain ⟨rfl, rfl⟩ := heq
  apply (preserves_require (I := (· = s₂)) (s₂.detector.detect (exp, env)) s₂ rfl).bind
  intro d _ hd
  obtain ⟨rfl, hd⟩ := hd
  exact ⟨(h.detected hd).of_not_value hexp, trivial⟩

/-! ## The functions that are called -/

/-- What the functions of the evaluator keep and return. -/
structure Good (S : Setting) (c : Calls) : Prop where
  eval : ∀ exp visited env,
    Preserves (Inv S []) (c.eval exp visited env) (Value True)
  a2sb : ∀ t, Preserves (Inv S []) (c.a2sb t) (ReturnsNumber t)
  applyList : ∀ f larg, Value True f → (∀ a ∈ larg, Value True a) →
    Preserves (Inv S []) (c.applyList f larg) (Value True)

namespace Good

variable {c : Calls} (hc : Good S c) {depth : ℕ} {visited env : Tree}
include hc

/-! ## Numbers -/

theorem isBoxNumeric (exp : Tree) :
    Preserves (Inv S []) (isBoxNumeric S depth c exp) fun _ => True := by
  have hnumeric : Preserves (Inv S []) (isBoxNumeric.numeric S depth c exp) fun _ => True := by
    unfold isBoxNumeric.numeric
    apply (hc.a2sb exp).bind
    intro v _
    split
    · next ht => exact (preserves_simplifiedSignal ht).bind fun _ _ => .pure trivial
    · exact .pure trivial
    · exact .throw
  unfold Eval.isBoxNumeric
  apply Preserves.ite (fun _ => .pure trivial)
  intro _
  split
  · exact .ite (fun _ => .pure trivial) fun _ => hnumeric
  · exact hnumeric

theorem simplifyPattern (value : Tree) :
    Preserves (Inv S []) (simplifyPattern S depth c value) fun _ => True := by
  unfold Eval.simplifyPattern
  apply Preserves.get_bind
  intro s _
  split
  · exact .pure trivial
  · apply (hc.isBoxNumeric value).bind
    intro num _
    exact preserves_setNumericProperty.bind fun _ _ => .pure trivial

theorem patternSimplification (n : ℕ) (pattern : Tree) :
    Preserves (Inv S []) (patternSimplification S depth c n pattern) fun _ => True := by
  induction n generalizing pattern with
  | zero => exact .throw
  | succ n ih =>
    unfold Eval.patternSimplification
    apply (hc.isBoxNumeric pattern).bind
    intro v _
    split
    · exact .pure trivial
    · split
      · split
        · apply (ih _).bind
          intro _ _
          apply (ih _).bind
          intro _ _
          exact .pure trivial
        · exact .pure trivial
      · exact .pure trivial

theorem constantSignal (exp : Tree) :
    Preserves (Inv S []) (constantSignal S depth c exp visited env) fun _ => True := by
  unfold Eval.constantSignal
  apply (hc.eval exp visited env).bind
  intro v _
  apply (hc.a2sb v).bind
  intro diagram _
  split
  · next ht => exact preserves_simplifiedSignal ht
  · exact .throw
  · exact .throw

theorem eval2double (exp : Tree) :
    Preserves (Inv S []) (eval2double S depth c exp visited env) fun _ => True :=
  (hc.constantSignal exp).bind fun r _ => preserves_tree2float r

theorem eval2int (exp : Tree) :
    Preserves (Inv S []) (eval2int S depth c exp visited env) fun _ => True :=
  (hc.constantSignal exp).bind fun r _ => preserves_tree2int r

/-- The label that is returned has no pattern. -/
theorem evalLabelTree (label : Tree) :
    Preserves (Inv S []) (evalLabelTree S depth c label visited env) fun t =>
      ∃ name, t = labelTree name ∧ Quiet name.toList := by
  unfold Eval.evalLabelTree
  apply (preserves_tree2str label).bind
  intro src _
  apply (preserves_evalLabelLoop (fun ident => hc.eval2int _) _ _ _ _).bind
  intro out hout
  obtain ⟨added, heq, hquiet, _⟩ := hout
  rw [List.nil_append] at heq
  apply Preserves.pure
  exact ⟨String.ofList added, by rw [heq, labelTree], by simpa using hquiet⟩

/-! ## Iterations -/

theorem evalAt (id body : Tree) (i : ℕ) :
    Preserves (Inv S []) (evalAt c id body visited env i) (Value True) := by
  unfold Eval.evalAt
  apply (preserves_runEnv _).bind
  intro env' _
  exact hc.eval body visited env'

theorem iterateDown (op : BoxOp) (id : Tree) (num : ℤ) (body : Tree) :
    Preserves (Inv S []) (iterateDown c op id num body visited env) (Value True) := by
  unfold Eval.iterateDown
  split
  · exact .throw
  · apply (hc.evalAt id body _).bind
    intro res hres
    apply Preserves.foldlM _ hres
    intro i _ res hres
    apply (hc.evalAt id body i).bind
    intro e he
    exact .pure (.op op he hres)

theorem iterateUp (p : Prim2) (id : Tree) (num : ℤ) (body : Tree) :
    Preserves (Inv S []) (iterateUp c p id num body visited env) (Value True) := by
  have hp : Value True (boxPrim2 p) := .constant (isConstant_boxTree _ _)
  unfold Eval.iterateUp
  split
  · exact .throw
  · apply (hc.evalAt id body _).bind
    intro res hres
    apply Preserves.foldlM _ hres
    intro i _ res hres
    apply (hc.evalAt id body i).bind
    intro e he
    exact .pure (.op .seq (.op .par hres he) hp)

theorem iterate (k : Iteration) (id : Tree) (num : ℤ) (body : Tree) :
    Preserves (Inv S []) (iterate c k id num body visited env) (Value True) := by
  cases k with
  | par => exact hc.iterateDown .par id num body
  | seq => exact hc.iterateDown .seq id num body
  | sum => exact hc.iterateUp _ id num body
  | prod => exact hc.iterateUp _ id num body

/-! ## Pattern matching -/

theorem numericArgument (st : AutomatonState) (X : Tree) :
    Preserves (Inv S []) (numericArgument S depth c st X) fun _ => True :=
  .ite (fun _ => hc.simplifyPattern X) fun _ => .pure trivial

theorem applyInternal (A : Automaton) (n : ℕ) (state : Option ℕ) (X : Tree) (subst : Subst) :
    Preserves (Inv S []) (applyInternal S depth c A n state X subst) fun _ => True := by
  induction n generalizing state X subst with
  | zero => exact .throw
  | succ n ih =>
    cases state with
    | none => exact .pure trivial
    | some state =>
      unfold Eval.applyInternal
      apply (preserves_require _).bind
      intro st _
      apply (hc.numericArgument st X).bind
      intro X _
      split
      · exact .pure trivial
      · apply (ih _ _ _).bind
        intro _ _
        exact ih _ _ _
      · split
        · exact .pure trivial
        · exact .pure trivial
        · exact .throw

omit hc in
theorem bindVariable (id Z1 E : Tree) :
    Preserves (Inv S []) (bindVariable id Z1 E) fun _ => True := by
  unfold Eval.bindVariable
  split
  · exact .throw
  · apply Preserves.get_bind
    intro s _
    split
    · exact .pure trivial
    · exact preserves_runEnv _

omit hc in
theorem bindRules (X : Tree) (subst : Subst) (rules : List Rule) (E : List Tree) :
    Preserves (Inv S []) (bindRules X subst rules E) fun _ => True := by
  induction rules generalizing E with
  | nil => exact .pure trivial
  | cons r rules ih =>
    unfold Eval.bindRules
    apply (preserves_require _).bind
    intro env _
    apply Preserves.ite (fun _ => ih E)
    intro _
    apply (Preserves.foldlM (R := fun _ => True) (fun _ _ _ _ => bindVariable _ _ _)
      trivial).bind
    intro env _
    exact ih _

omit hc in
/-- The result of a match is a closure. -/
theorem matchedRule (A : Automaton) (E : List Tree) (rules : List Rule) :
    Preserves (Inv S []) (matchedRule A E rules) fun r => ∀ t ∈ r, (isClosure t).isSome := by
  induction rules with
  | nil => exact .pure (by simp)
  | cons r rules ih =>
    unfold Eval.matchedRule
    apply (preserves_require _).bind
    intro env _
    apply Preserves.ite (fun _ => ih)
    intro _
    apply (preserves_require _).bind
    intro rhs _
    exact .pure (by simp [Environment.closure, isClosure])

theorem applyPatternMatcher (A : Automaton) (state : ℕ) (X : Tree) (E : List Tree) :
    Preserves (Inv S []) (applyPatternMatcher S depth c A state X E) fun r =>
      ∀ t ∈ r.2.1, (isClosure t).isSome := by
  unfold Eval.applyPatternMatcher
  apply (hc.applyInternal A depth (some state) X []).bind
  intro r _
  split
  · exact .pure (by simp)
  · apply (preserves_require _).bind
    intro st _
    apply (bindRules X _ _ E).bind
    intro E _
    split
    · apply (matchedRule A E _).bind
      intro r hr
      split
      · exact .pure hr
      · exact .pure (by simp)
    · exact .pure (by simp)

theorem checkRule (A : Automaton) (state : Option ℕ) (pats : List Tree) (E : List Tree) :
    Preserves (Inv S []) (checkRule S depth c A state pats E) fun _ => True := by
  induction pats generalizing state E with
  | nil =>
    cases state <;> exact .pure trivial
  | cons pat pats ih =>
    cases state with
    | none => exact .pure trivial
    | some state =>
      unfold Eval.checkRule
      apply (hc.applyPatternMatcher A state pat E).bind
      intro r _
      exact ih _ _

theorem makePatternMatcher (rules : List (List Tree × Tree)) :
    Preserves (Inv S []) (makePatternMatcher S depth c rules) fun _ => True := by
  unfold Eval.makePatternMatcher
  apply (Preserves.forM fun _ _ => hc.checkRule _ _ _ _).bind
  intro _ _
  apply Preserves.modifyGet
  intro s h
  exact ⟨⟨h.values, h.matchers, h.symbolicBox, h.propagation, h.signals, h.buffer⟩, trivial⟩

theorem evalRule (rule : Tree) :
    Preserves (Inv S []) (evalRule S depth c env rule) fun _ => True := by
  unfold Eval.evalRule
  have hpattern : ∀ pattern,
      Preserves (Inv S []) (evalPattern S depth c env pattern) fun _ => True :=
    fun pattern => (hc.eval pattern nil env).bind fun v _ => hc.patternSimplification depth v
  apply (Preserves.mapM fun pattern _ => hpattern pattern).bind
  intro _ _
  exact .pure trivial

theorem evalCase (rules : Tree) :
    Preserves (Inv S []) (evalCase S depth c rules env) (Value True) := by
  unfold Eval.evalCase
  apply Preserves.get_bind
  intro s h
  split
  · next pm hpm => exact .pure (.constant (h.matchers _ _ hpm))
  · apply (Preserves.mapM fun rule _ => hc.evalRule rule).bind
    intro rs _
    apply (hc.makePatternMatcher rs).bind
    intro a _
    have hpm : ∀ envs, isConstant (boxPatternMatcher a 0 envs rules nil) = true :=
      fun _ => isConstant_boxTree _ _
    apply (preserves_setPMProperty (hpm _)).bind
    intro _ _
    exact .pure (.constant (hpm _))

/-! ## Applications -/

omit hc in
/-- The parallel composition of values is a value. -/
theorem larg2par {larg : List Tree} (hlarg : ∀ a ∈ larg, Value True a) :
    ∀ t ∈ larg2par larg, Value True t := by
  induction larg with
  | nil => simp [Eval.larg2par]
  | cons a larg ih =>
    intro t ht
    have ha := hlarg a List.mem_cons_self
    cases larg with
    | nil =>
      cases ht
      exact ha
    | cons b larg =>
      simp only [Eval.larg2par, Option.mem_def, Option.map_eq_some_iff] at ht
      obtain ⟨p, hp, rfl⟩ := ht
      exact .op .par ha (ih (fun c hc => hlarg c (List.mem_cons_of_mem _ hc)) p hp)

omit hc in
theorem mem_nwires {n : ℕ} {t : Tree} (h : t ∈ nwires n) : Value True t := by
  rw [List.eq_of_mem_replicate h]
  exact .constant (isConstant_boxTree _ _)

theorem boxlistOutputs (larg : List Tree) :
    Preserves (Inv S []) (boxlistOutputs c larg) fun _ => True := by
  unfold Eval.boxlistOutputs
  apply Preserves.foldlM _ trivial
  intro t _ outs _
  apply (hc.a2sb t).bind
  intro b _
  split
  · exact .pure trivial
  · exact .pure trivial
  · exact .throw

omit hc in
theorem seqPar {larg : List Tree} (hlarg : ∀ a ∈ larg, Value True a) {f : Tree}
    (hf : Value True f) : Preserves (Inv S []) (seqPar larg f) (Value True) := by
  unfold Eval.seqPar
  apply (preserves_require _).bind
  intro t ht
  exact .pure (.op .seq (larg2par hlarg t ht) hf)

theorem applyBox {f : Tree} (hf : Value True f) {larg : List Tree}
    (hlarg : ∀ a ∈ larg, Value True a) :
    Preserves (Inv S []) (applyBox c f larg) (Value True) := by
  have hwires : ∀ {n : ℕ} {l : List Tree}, (∀ a ∈ l, a ∈ larg ∨ a ∈ nwires n) →
      Preserves (Inv S []) (Eval.seqPar l f) (Value True) := by
    intro n l hl
    apply seqPar _ hf
    intro a ha
    exact (hl a ha).elim (hlarg a) mem_nwires
  unfold Eval.applyBox
  apply (hc.a2sb f).bind
  intro efun _
  split
  · exact .throw
  · exact seqPar hlarg hf
  · apply (hc.boxlistOutputs larg).bind
    intro outs _
    apply Preserves.ite (fun _ => .throw)
    intro _
    apply Preserves.ite
    · intro _
      exact hwires fun a ha => (List.mem_append.1 ha).symm
    · intro _
      exact hwires fun a ha => List.mem_append.1 ha

theorem applyMatcher (a state : ℕ) (envList rules params arg : Tree) {larg : List Tree}
    (hlarg : ∀ a ∈ larg, Value True a) :
    Preserves (Inv S []) (applyMatcher S depth c a state envList rules params arg larg)
      (Value True) := by
  unfold Eval.applyMatcher
  apply Preserves.get_bind
  intro s _
  apply (preserves_require _).bind
  intro A _
  apply (hc.applyPatternMatcher A state arg _).bind
  intro r hr
  split
  · exact .throw
  · exact hc.applyList _ _ (.constant (isConstant_boxTree _ _)) hlarg
  · split
    · apply (hc.eval _ _ _).bind
      intro f hf
      exact hc.applyList f _ hf hlarg
    · -- the result of a match is a closure
      next hnone =>
      have hsome := hr _ rfl
      rw [hnone] at hsome
      cases hsome

theorem applyClosure (f abstr arg : Tree) {larg : List Tree} (hlarg : ∀ a ∈ larg, Value True a) :
    Preserves (Inv S []) (applyClosure S depth c f abstr visited env arg larg) (Value True) := by
  unfold Eval.applyClosure
  apply Preserves.ite (fun _ => .throw)
  intro _
  split
  · exact .throw
  · apply (hc.eval _ _ _).bind
    intro arg _
    apply (hc.isBoxNumeric arg).bind
    intro num _
    apply (preserves_runEnv _).bind
    intro env' _
    apply (hc.eval _ _ _).bind
    intro f hf
    exact hc.applyList f _ hf hlarg

theorem applyListWith {f : Tree} (hf : Value True f) {larg : List Tree}
    (hlarg : ∀ a ∈ larg, Value True a) :
    Preserves (Inv S []) (applyListWith S depth c f larg) (Value True) := by
  cases larg with
  | nil => exact .pure hf
  | cons a larg =>
    have hrest : ∀ a ∈ larg, Value True a := fun b hb => hlarg b (List.mem_cons_of_mem _ hb)
    unfold Eval.applyListWith
    apply Preserves.ite
    · intro herror
      exact absurd herror (by simp [hf.not_isBoxError])
    · intro _
      split
      · exact hc.applyMatcher _ _ _ _ _ _ hrest
      · exact hc.applyBox hf hlarg
      · exact hc.applyClosure _ _ _ hrest

theorem revEvalList (lexp : Tree) :
    Preserves (Inv S []) (revEvalList c lexp visited env) fun l => ∀ a ∈ l, Value True a := by
  unfold Eval.revEvalList
  apply Preserves.foldlM _ (by simp)
  intro exp _ l hl
  apply (hc.eval exp visited env).bind
  intro v hv
  apply Preserves.pure
  intro a ha
  rcases List.mem_cons.1 ha with rfl | ha
  · exact hv
  · exact hl a ha

/-! ## Expressions -/

theorem evalIdDef (id : Tree) :
    Preserves (Inv S []) (evalIdDef S c id visited env) (Value True) := by
  unfold Eval.evalIdDef
  apply Preserves.get_bind
  intro s _
  apply (preserves_require _).bind
  intro p _
  exact hc.eval _ _ _

omit hc in
/-- The closure over the definitions of a file. -/
theorem closureOfFile (exp label : Tree) :
    Preserves (Inv S []) (closureOfFile S exp label) (Value True) := by
  unfold Eval.closureOfFile
  apply (preserves_tree2str label).bind
  intro fname _
  apply (preserves_require _).bind
  intro eqlst _
  apply (preserves_runEnv _).bind
  intro env _
  by_cases hexp : IsBound exp
  · exact .pure (.closure _ _ hexp)
  · exact .pure (.suspended _ _ _ trivial hexp)

theorem evalArity (arity : ℕ × ℕ → ℕ) (exp body : Tree) :
    Preserves (Inv S []) (evalArity c arity exp body visited env) (Value True) := by
  unfold Eval.evalArity
  apply (hc.eval body visited env).bind
  intro v _
  apply (hc.a2sb v).bind
  intro b _
  split
  · exact .pure (.constant rfl)
  · exact .throw
  · exact .throw

theorem evalBranches (exp : Tree) :
    Preserves (Inv S []) (evalBranches S depth c exp visited env) (Value True) := by
  have hop : ∀ {b : BoxSym} (br : List Tree), BoxSym.ofNode exp.label = some b →
      .node exp.label br = boxTree b br := by
    intro b br hb
    rw [BoxSym.eq_node_of_ofNode hb, boxTree]
  unfold Eval.evalBranches
  split
  · next o e1 e2 hb _ =>
    apply (hc.eval e1 visited env).bind
    intro x hx
    apply (hc.eval e2 visited env).bind
    intro y hy
    rw [hop _ hb]
    exact .pure (.op o hx hy)
  · apply (hc.eval _ visited env).bind
    intro v _
    split
    · exact hc.eval _ _ _
    · exact .throw
  · apply (hc.eval _ visited env).bind
    intro v _
    split
    · apply (preserves_runEnv _).bind
      intro lenv3 _
      exact hc.eval _ _ _
    · exact .throw
  · exact closureOfFile _ _
  · exact closureOfFile _ _
  · next k label hb _ =>
    apply (hc.evalLabelTree label).bind
    intro l hl
    obtain ⟨name, rfl, hq⟩ := hl
    rw [hop _ hb]
    exact .pure (.switch k hq)
  · next k label params hb _ =>
    apply (hc.evalLabelTree label).bind
    intro l hl
    obtain ⟨name, rfl, hq⟩ := hl
    apply (hc.eval2double _).bind
    intro cur _
    apply (hc.eval2double _).bind
    intro lo _
    apply (hc.eval2double _).bind
    intro hi _
    apply (hc.eval2double _).bind
    intro step _
    rw [hop _ hb]
    exact .pure (.slider k cur lo hi step hq)
  · next k label arg hb _ =>
    apply (hc.evalLabelTree label).bind
    intro l hl
    obtain ⟨name, rfl, hq⟩ := hl
    apply (hc.eval arg visited env).bind
    intro body hbody
    rw [hop _ hb]
    exact .pure (.group k hq hbody)
  · next k label lo hi hb _ =>
    apply (hc.evalLabelTree label).bind
    intro l hl
    obtain ⟨name, rfl, hq⟩ := hl
    apply (hc.eval2double lo).bind
    intro x _
    apply (hc.eval2double hi).bind
    intro y _
    rw [hop _ hb]
    exact .pure (.bargraph k x y hq)
  · exact hc.evalIdDef exp
  · apply (preserves_runEnv _).bind
    intro env' _
    exact hc.eval _ _ _
  · apply (hc.eval _ visited env).bind
    intro f hf
    apply (hc.revEvalList _).bind
    intro larg hlarg
    exact hc.applyList f larg hf hlarg
  · next hb => exact .pure (.closure _ _ (Or.inl hb))
  · next hb => exact .pure (.closure _ _ (Or.inr (by simp [isBoxEnvironment, hb])))
  · apply Preserves.ite
    · intro hexp
      exact .pure (.closure _ _ hexp)
    · intro _
      exact hc.eval _ _ _
  · apply (hc.eval2int _).bind
    intro n _
    exact hc.iterate _ _ _ _
  · exact hc.evalArity _ _ _
  · exact hc.evalArity _ _ _
  · exact hc.evalCase _
  · exact .throw

theorem realeval (exp : Tree) :
    Preserves (Inv S []) (realeval S depth c exp visited env) (Value True) :=
  .ite (fun h => .pure (.constant h)) fun _ => hc.evalBranches exp

omit hc in
theorem isConstant_of_isBoxPatternMatcher {t : Tree} {p : ℕ × ℕ × Tree × Tree × Tree}
    (h : isBoxPatternMatcher t = some p) : isConstant t = true := by
  unfold isBoxPatternMatcher at h
  split at h
  · split at h
    · next hn =>
      rw [BoxSym.eq_node_of_ofNode hn]
      exact isConstant_boxTree .patMatcher _
    · cases h
  · cases h

/-- The symbolic box of an expression; a number is no closure and has no branches. -/
theorem realA2sb (exp : Tree) :
    Preserves (Inv S []) (realA2sb c exp) (ReturnsNumber exp) := by
  unfold Eval.realA2sb
  split
  · next hclosure =>
    have hnot : ∀ r, ReturnsNumber exp r := by
      intro r x hx
      rw [hx] at hclosure
      cases hclosure
    apply Preserves.ite
    · intro _
      apply (hc.eval _ _ _).bind
      intro v _
      exact (hc.a2sb v).mono fun r _ => hnot r
    · intro _
      split
      · apply preserves_nextSlot.bind
        intro slot _
        apply (preserves_runEnv _).bind
        intro env _
        apply (hc.eval _ _ _).bind
        intro v _
        apply (hc.a2sb v).bind
        intro body _
        exact .pure (hnot _)
      · exact .ite (fun _ => .pure (hnot _)) fun _ => .throw
  · next hmatcher =>
    have hnot : ∀ r, ReturnsNumber exp r := by
      intro r x hx
      rw [hx] at hmatcher
      cases hmatcher
    have hexp : Value True exp := .constant (isConstant_of_isBoxPatternMatcher hmatcher)
    apply preserves_nextSlot.bind
    intro slot hslot
    apply (hc.applyList exp [slot] hexp (by simp [Value.constant hslot])).bind
    intro v _
    apply (hc.a2sb v).bind
    intro body _
    exact .pure (hnot _)
  · apply Preserves.ite (fun _ => .pure fun _ _ => rfl)
    intro _
    apply (Preserves.mapM fun t _ => (hc.a2sb t).mono fun _ _ => trivial).bind
    intro br hbr
    apply Preserves.pure
    intro x hx
    subst hx
    have hnil : br = [] := List.length_eq_zero_iff.1 hbr.1
    rw [hnil]
    rfl

theorem a2sbWith (exp : Tree) :
    Preserves (Inv S []) (a2sbWith c exp) (ReturnsNumber exp) := by
  unfold Eval.a2sbWith
  apply Preserves.get_bind
  intro s h
  split
  · next r hr =>
    apply Preserves.pure
    intro x hx
    subst hx
    exact h.symbolicBox x r hr
  · apply (hc.realA2sb exp).bind
    intro r hr
    exact (preserves_setSymbolicBox hr).bind fun _ _ => .pure hr

/-- The evaluation of an expression that is no value, or that suspends an evaluation. -/
theorem evalWith {exp : Tree} (hexp : ¬ Value False exp) :
    Preserves (Inv S []) (evalWith S depth c exp visited env) (Value True) := by
  unfold Eval.evalWith
  apply Preserves.get_bind
  intro s h
  split
  · next v hv => exact .pure (h.values _ _ _ hv).1
  · apply (preserves_detect hexp).bind
    intro _ _
    apply (hc.realeval exp).bind
    intro v hv
    apply Preserves.bind (Q := fun _ => True)
    · apply Preserves.modify _ trivial
      intro s h
      exact (h.mono (List.subset_cons_self _ _)).evaluated hv fun hval => absurd hval hexp
    · intro _ _
      exact .pure hv

end Good

/-- The functions of the evaluator keep the invariant and return values. -/
theorem good_calls (n : ℕ) : Good S (calls S n) := by
  induction n with
  | zero => exact ⟨fun _ _ _ => .throw, fun _ => .throw, fun _ _ _ _ => .throw⟩
  | succ n ih =>
    refine ⟨fun exp visited env => ?_, ih.a2sbWith, fun _ _ hf hlarg => ih.applyListWith hf hlarg⟩
    by_cases hexp : Value False exp
    · intro s h
      have hends := ends_eval_value hexp (n + 1) visited env (by simp) h
      exact hends.imp (fun _ _ => trivial) fun r s' hr => ⟨hr.1, hr.2.1⟩
    · exact ih.evalWith hexp

/-! ## Runs -/

/-- The states that the evaluator reaches: between two evaluations, or during the evaluation of
expressions that are no values, which only other evaluations are started by. -/
inductive Reached (S : Setting) : EvalState → Prop
  /-- nothing has been evaluated -/
  | start {s : EvalState} : (∀ k, s.values k = none) → (∀ k, s.matchers k = none) →
    (∀ t, s.symbolicBox t = none) → (∀ k, s.propagation.table k = none) →
    (∀ t, s.signals.simplified t = none) → (∀ k, s.detector.buffer k = none) → Reached S s
  | eval {s s' : EvalState} {n : ℕ} {exp visited env v : Tree} : Reached S s →
    eval S n exp visited env s = .ok (v, s') → Reached S s'
  | a2sb {s s' : EvalState} {n : ℕ} {t r : Tree} : Reached S s → a2sb S n t s = .ok (r, s') →
    Reached S s'
  | applyList {s s' : EvalState} {n : ℕ} {f r : Tree} {larg : List Tree} : Reached S s →
    Value True f → (∀ a ∈ larg, Value True a) → applyList S n f larg s = .ok (r, s') →
    Reached S s'
  /-- the evaluation of an expression begins -/
  | begin {s s' : EvalState} {exp env : Tree} {u : Unit} : Reached S s → ¬ Value False exp →
    detect exp env s = .ok (u, s') → Reached S s'
  /-- a signal is computed -/
  | signal {s s' : EvalState} {depth n : ℕ} {box : Box} {r : Tree} : Reached S s →
    getBoxType box = .ok (some (0, n)) → simplifiedSignal S depth box s = .ok (r, s') →
    Reached S s'
  /-- definitions, slots, automata and the numbers of patterns are added -/
  | other {s : EvalState} (env : EnvState) (numeric : Tree → Option Tree) (slot : ℤ)
    (automata : List Automaton) : Reached S s →
    Reached S { s with
      env := env, numeric := numeric, boxSlotNumber := slot, automata := automata }

/-- The invariant holds of every state that is reached. -/
theorem Reached.inv {s : EvalState} (h : Reached S s) : Inv S [] s := by
  induction h with
  | start hvalues hmatchers hsymbolic htable hsimplified hbuffer =>
    constructor
    · intro exp env v hv
      rw [hvalues] at hv
      cases hv
    · intro k v hv
      rw [hmatchers] at hv
      cases hv
    · intro x r hr
      rw [hsymbolic] at hr
      cases hr
    · intro slotenv path box lsig r hr
      rw [htable] at hr
      cases hr
    · intro x r hr
      rw [hsimplified] at hr
      cases hr
    · intro k exp env hk
      rw [hbuffer] at hk
      cases hk
  | eval _ hrun ih => exact (((good_calls _).eval _ _ _).run ih hrun).1
  | a2sb _ hrun ih => exact (((good_calls _).a2sb _).run ih hrun).1
  | applyList _ hf hlarg hrun ih => exact (((good_calls _).applyList _ _ hf hlarg).run ih hrun).1
  | begin _ hexp hrun ih => exact ((preserves_detect hexp).run ih hrun).1
  | signal _ ht hrun ih => exact ((preserves_simplifiedSignal ht).run ih hrun).1
  | other _ _ _ _ _ ih =>
    exact ⟨ih.values, ih.matchers, ih.symbolicBox, ih.propagation, ih.signals, ih.buffer⟩

/-- The result of an evaluation that suspends no evaluation is evaluated to itself, in every state
that is reached and every environment, if there are enough levels to go down; so is a name that is
bound to it. -/
theorem eval_eval {s s' : EvalState} (hs : Reached S s) {n : ℕ} {exp visited env v : Tree}
    (hrun : eval S n exp visited env s = .ok (v, s')) (hv : ¬ Suspends v) {t : EvalState}
    (ht : Reached S t) {m : ℕ} (hm : v.size + 3 ≤ m) (visited' env' : Tree) :
    (∃ v' t', eval S m v visited' env' t = .ok (v', t') ∧ Same v v') ∧
      ∀ id lenv, findIdDef t.env id env' = some (v, lenv) →
        ∃ v' t', evalIdDef S (calls S m) id visited' env' t = .ok (v', t') ∧ Same v v' := by
  have hvalue : Value False v :=
    (((good_calls n).eval exp visited env).run hs.inv hrun).2.settled hv
  have heval : ∀ visited' env', ∃ v' t',
      eval S m v visited' env' t = .ok (v', t') ∧ Same v v' := by
    intro visited' env'
    have hends := ends_eval_value hvalue m visited' env' (by simp) ht.inv
    rcases hends.cases with ⟨v', t', hrun', _, _, hsame⟩ | ⟨_, _, hlt⟩
    · exact ⟨v', t', hrun', hsame⟩
    · omega
  refine ⟨heval visited' env', fun id lenv hfind => ?_⟩
  obtain ⟨v', t', hrun', hsame⟩ := heval (addElement S.before (cons id lenv) visited') nil
  refine ⟨v', t', ?_, hsame⟩
  have hdef : evalIdDef S (calls S m) id visited' env' t =
      (require (.undefinedSymbol id) (findIdDef t.env id env') >>= fun p =>
        eval S m p.1 (addElement S.before (cons id p.2) visited') nil) t := rfl
  rw [hdef, hfind]
  exact hrun'

/-- A setting without files. -/
def emptySetting : Setting where
  libm := ⟨fun _ x => x, fun _ x _ => x⟩
  before _ _ := false
  files _ := none
  defName := id
  automaton _ := ⟨[], []⟩

/-- The state of an evaluator that has evaluated nothing. -/
def emptyState : EvalState where
  env := ⟨⟨[], fun _ => 0⟩, fun _ => ∅⟩
  values _ := none
  matchers _ := none
  symbolicBox _ := none
  numeric _ := none
  boxSlotNumber := 0
  detector := ⟨0, fun _ => none⟩
  automata := []
  propagation := ⟨fun _ => none, 0⟩
  signals := ⟨fun _ => none, fun _ => none⟩

theorem reached_emptyState : Reached emptySetting emptyState :=
  .start (fun _ => rfl) (fun _ => rfl) (fun _ => rfl) (fun _ => rfl) (fun _ => rfl) fun _ => rfl

/-! ## A name in a label -/

variable {W : List (Tree × Tree)} {s : EvalState}

/-- The evaluation of an expression whose value is not known. -/
theorem eval_new {n : ℕ} {exp visited env : Tree} {d : LoopDetector}
    (hnone : s.values (exp, env) = none) (hd : s.detector.detect (exp, env) = some d) :
    eval S (n + 1) exp visited env s =
      (realeval S n (calls S n) exp visited env >>= fun r =>
        setEvalProperty exp env r >>= fun _ => pure r) { s with detector := d } := by
  have hdetect : detect exp env s = .ok ((), { s with detector := d }) := by
    show (require .endless (s.detector.detect (exp, env)) >>= fun d =>
      modify fun s => { s with detector := d }) s = _
    rw [hd]
    rfl
  have hget : ∀ f : EvalState → EvalM Tree, (MonadState.get >>= f) s = f s s := fun _ => rfl
  show evalWith S n (calls S n) exp visited env s = _
  rw [evalWith, hget, hnone]
  show (detect exp env s >>= fun p => (realeval S n (calls S n) exp visited env >>= fun r =>
    setEvalProperty exp env r >>= fun _ => pure r) p.2) = _
  rw [hdetect]
  rfl

/-- A name is no value. -/
theorem not_value_boxIdent (name : String) : ¬ Value False (boxIdent name) := by
  intro h
  generalize ht : boxIdent name = t at h
  have hsym := congrArg (fun t => BoxSym.ofNode t.label) ht
  cases h with
  | constant h =>
    subst ht
    simp [boxIdent, isConstantSym] at h
  | op | switch | slider | bargraph | group => simp [boxIdent] at hsym
  | closure | suspended => simp [boxIdent, closure_eq] at hsym

/-- A name that is bound to a number is evaluated to the number. -/
theorem Inv.ends_eval_name (h : Inv S W s) {name : String} {visited env lenv : Tree} {x : ℚ}
    {n : ℕ} {d : LoopDetector} (hnone : s.values (boxIdent name, env) = none)
    (hd : s.detector.detect (boxIdent name, env) = some d)
    (hfind : findIdDef s.env (boxIdent name) env = some (leaf (.double x), lenv))
    (hW : (leaf (.double x), nil) ∉ W) :
    Ends (eval S (n + 2) (boxIdent name) visited env) s (fun _ => False) fun r s' =>
      r = leaf (.double x) ∧ Inv S W s' := by
  let visited' := fun lenv => addElement S.before (cons (boxIdent name) lenv) visited
  have hdef : realeval S (n + 1) (calls S (n + 1)) (boxIdent name) visited env
      { s with detector := d } =
        eval S (n + 1) (leaf (.double x)) (visited' lenv) nil { s with detector := d } := by
    show (require (.undefinedSymbol (boxIdent name)) (findIdDef s.env (boxIdent name) env) >>=
      fun p => eval S (n + 1) p.1 (visited' p.2) nil) { s with detector := d } = _
    rw [hfind]
    rfl
  have h₁ := (h.detected hd).of_not_value (not_value_boxIdent name)
  have hreal : Ends (eval S (n + 1) (leaf (.double x)) (visited' lenv) nil)
      { s with detector := d } (fun _ => False) fun r s' =>
        Inv S W s' ∧ Value True r ∧ Same (leaf (.double x)) r :=
    (ends_eval_constant h₁ rfl hW).imp (fun _ h => by omega) fun _ _ h => h
  rw [Ends, eval_new hnone hd]
  refine Ends.bind (Q := fun r s' => r = leaf (.double x) ∧ Inv S W s') ?_ ?_
  · rw [Ends, hdef]
    refine hreal.mono fun r s' hr => ?_
    exact ⟨hr.2.2.eq_of_number, hr.1⟩
  · intro r s' hr
    obtain ⟨rfl, h'⟩ := hr
    exact ⟨rfl, (h'.mono (List.subset_cons_self _ W)).evaluated (.constant rfl)
      fun hname => absurd hname (not_value_boxIdent name)⟩

/-- The first layer of environments. -/
def layer : Tree := .node (.sym (.user "ENV_LAYER0")) [nil]

/-- The state after a value has been bound to a name. -/
def binding (name : String) (value : Tree) : EvalState :=
  { emptyState with env :=
      ⟨⟨["ENV_LAYER0"], Function.update (fun _ => 0) "ENV_LAYER" 1⟩,
        Function.update (fun _ => ∅) layer (AList.insert (boxIdent name) value ∅)⟩ }

example (name : String) (value : Tree) :
    pushValueDef (boxIdent name) value nil emptyState.env =
      .ok (layer, (binding name value).env) := rfl

theorem findIdDef_binding (name : String) (value : Tree) (d : LoopDetector) :
    findIdDef ({ binding name value with detector := d } : EvalState).env (boxIdent name) layer =
      some (value, layer) := by
  have hget : (binding name value).env.getProperty layer (boxIdent name) = some value := by
    simp only [binding, EnvState.getProperty, Function.update_self, AList.lookup_insert]
  show findIdDef (binding name value).env (boxIdent name) layer = _
  rw [layer, findIdDef]
  rw [layer] at hget
  rw [hget]
  rfl

theorem reached_binding (name : String) (value : Tree) :
    Reached emptySetting (binding name value) :=
  .other _ _ _ _ reached_emptyState

/-- `button(name)`. -/
def button (name : String) : Tree := boxTree (.switch .button) [labelTree name]

/-- The value of a name that is bound to a number. -/
theorem ends_eval2int_name {d d' : LoopDetector} {x : ℚ} {name : String}
    (hinv : Inv emptySetting [] { binding name (leaf (.double x)) with detector := d })
    (hd : d.detect (boxIdent name, layer) = some d') :
    Ends (eval2int emptySetting 4 (calls emptySetting 4) (boxIdent name) nil layer)
      { binding name (leaf (.double x)) with detector := d } (fun _ => False)
      fun k _ => k = wrap32 (truncInt x) := by
  have hname : Ends (eval emptySetting 4 (boxIdent name) nil layer)
      { binding name (leaf (.double x)) with detector := d } (fun _ => False) fun r s' =>
        r = leaf (.double x) ∧ Inv emptySetting [] s' :=
    hinv.ends_eval_name rfl hd (findIdDef_binding _ _ _) List.not_mem_nil
  have hsignal := ends_constantSignal_number 4 x (hname.imp (fun _ h => h.elim) fun _ _ h => h)
  unfold eval2int
  apply (hsignal.imp (fun _ h => by omega) fun _ _ h => h).bind
  intro r s' hr
  obtain ⟨rfl, _⟩ := hr
  exact .pure rfl

/-- A button whose label has a pattern is no value. -/
theorem not_value_button {name : String} (h : ¬ Quiet name.toList) :
    ¬ Value False (button name) := by
  intro hv
  generalize ht : button name = t at hv
  have hsym := congrArg (fun t => BoxSym.ofNode t.label) ht
  cases hv with
  | constant h =>
    subst ht
    simp [button, isConstantSym] at h
  | switch k hq =>
    have hlabel := congrArg (fun t => t.branches.map Tree.label) ht
    simp [button, labelTree, leaf] at hlabel
    exact h (hlabel ▸ hq)
  | op | slider | bargraph | group => simp [button] at hsym
  | closure | suspended => simp [button, closure_eq] at hsym

theorem evalLabel_b {m : Type → Type} [Monad m] [LawfulMonad m] (value : List Char → m ℤ) :
    evalLabel value "b%i".toList = value ['i'] >>= fun n => pure ('b' :: printInt 0 n) := by
  have hpieces : pieces "b%i".toList = [.char 'b', .pattern [] ['i']] := by
    simp [pieces, isDigitChar, isIdentChar]
  rw [evalLabel_eq_foldlM, hpieces, writes_char]
  simp only [List.foldlM_cons, List.foldlM_nil, Piece.write, writeIdentValue, bind_pure]
  rfl

/-- `button("b%i")` is evaluated to `button("b2")` where `i` is 2. -/
theorem eval_button : ∃ s', eval emptySetting 5 (button "b%i") nil layer
    (binding "i" (leaf (.double 2))) = .ok (button "b2", s') := by
  have hnot : ¬ Value False (button "b%i") :=
    not_value_button (by simp [Quiet, Stops, isDigitChar, isIdentChar])
  obtain ⟨d, hd⟩ : ∃ d, (binding "i" (leaf (.double 2))).detector.detect
    (button "b%i", layer) = some d := ⟨_, rfl⟩
  obtain ⟨d', hd'⟩ : ∃ d', d.detect (boxIdent "i", layer) = some d' := by
    refine LoopDetector.exists_detect fun k hk => ?_
    rcases LoopDetector.buffer_of_detect hd hk with heq | hk
    · exact absurd (congrArg (fun t => t.1.label) heq) (by decide)
    · cases hk
  have hinv := ((reached_binding "i" (leaf (.double 2))).inv.detected hd).of_not_value hnot
  have heval : Ends (eval emptySetting 5 (button "b%i") nil layer) (binding "i" (leaf (.double 2)))
      (fun _ => False) fun r _ => r = button "b2" := by
    rw [Ends, eval_new rfl hd]
    refine Ends.bind (Q := fun r _ => r = button "b2") ?_ fun r _ hr => hr
    rw [button, realeval_switch_label]
    refine Ends.bind (Q := fun l _ => l = labelTree "b2") ?_ ?_
    · show Ends (evalLabel (m := EvalM) _ "b%i".toList >>= fun l =>
        pure (leaf (.sym (.user (String.ofList l))))) _ _ _
      rw [evalLabel_b, bind_assoc]
      apply (ends_eval2int_name hinv hd').bind
      intro k s' hk
      subst hk
      exact .pure (by decide)
    · intro l _ hl
      rw [hl]
      exact .pure rfl
  rcases heval.cases with ⟨r, s', hrun, rfl⟩ | ⟨e, _, he⟩
  · exact ⟨s', hrun⟩
  · exact he.elim

/-- The button with the number in its label is evaluated to itself, and so is `b` where it is bound
to this button. -/
theorem eval_eval_button :
    (∃ v' t', eval emptySetting 30 (button "b2") nil layer (binding "b" (button "b2")) =
        .ok (v', t') ∧ Same (button "b2") v') ∧
      ∃ v' t', evalIdDef emptySetting (calls emptySetting 30) (boxIdent "b") nil layer
        (binding "b" (button "b2")) = .ok (v', t') ∧ Same (button "b2") v' := by
  obtain ⟨s', hrun⟩ := eval_button
  have hsuspends : ¬ Suspends (button "b2") := fun h => by
    generalize ht : button "b2" = t at h
    have hsym := congrArg (fun t => BoxSym.ofNode t.label) ht
    cases h with
    | closure => simp [button, closure_eq] at hsym
    | left | right | group => simp [button] at hsym
  have hsize : (button "b2").size + 3 ≤ 30 := by decide
  have heval := eval_eval (reached_binding _ _) hrun hsuspends
    (reached_binding "b" (button "b2")) (m := 30) hsize nil layer
  exact ⟨heval.1, heval.2 (boxIdent "b") layer (findIdDef_binding _ _ _)⟩

end Faust.Eval
