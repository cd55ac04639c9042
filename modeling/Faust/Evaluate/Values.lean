import Faust.Evaluate.LabelLoop
import Faust.Propagate.PropagateTheorems

/-!
# Values of the evaluator

A value is what an evaluation returns: constants, closures, and operations, groups and widgets made
of values, whose labels name no identifier and whose numbers are literals. A value that suspends no
evaluation evaluates to itself in every environment, up to the visited definitions that its
closures keep.
-/

namespace Faust.Eval

open Faust.Tree Environment Outcome

/-! ## Values -/

/-- An expression that a closure keeps: an abstraction or an environment. -/
def IsBound (exp : Tree) : Prop :=
  BoxSym.ofNode exp.label = some .abstr ∨ isBoxEnvironment exp = true

/-- The tree of a label. -/
def labelTree (name : String) : Tree := leaf (.sym (.user name))

/-- The values, with suspended evaluations if `susp` holds. -/
inductive Value (susp : Prop) : Tree → Prop
  | constant {t : Tree} : isConstant t = true → Value susp t
  | op (o : BoxOp) {a b : Tree} : Value susp a → Value susp b →
    Value susp (boxTree (.op o) [a, b])
  | switch (k : SwitchKind) {name : String} : Quiet name.toList →
    Value susp (boxTree (.switch k) [labelTree name])
  | slider (k : SliderKind) {name : String} (cur lo hi step : ℚ) : Quiet name.toList →
    Value susp (boxTree (.slider k) [labelTree name, ofList
      [leaf (.double cur), leaf (.double lo), leaf (.double hi), leaf (.double step)]])
  | bargraph (k : BargraphKind) {name : String} (lo hi : ℚ) : Quiet name.toList →
    Value susp (boxTree (.bargraph k) [labelTree name, leaf (.double lo), leaf (.double hi)])
  | group (k : GroupKind) {name : String} {body : Tree} : Quiet name.toList → Value susp body →
    Value susp (boxTree (.group k) [labelTree name, body])
  | closure {exp : Tree} (visited lenv : Tree) : IsBound exp →
    Value susp (closure exp nil visited lenv)
  | suspended {exp : Tree} (genv visited lenv : Tree) : susp → ¬ IsBound exp →
    Value susp (closure exp genv visited lenv)

/-- A suspended component or environment access occurs in the value. -/
inductive Suspends : Tree → Prop
  | closure {exp : Tree} (genv visited lenv : Tree) : ¬ IsBound exp →
    Suspends (closure exp genv visited lenv)
  | left (o : BoxOp) {a : Tree} (b : Tree) : Suspends a → Suspends (boxTree (.op o) [a, b])
  | right (o : BoxOp) (a : Tree) {b : Tree} : Suspends b → Suspends (boxTree (.op o) [a, b])
  | group (k : GroupKind) (label : Tree) {body : Tree} : Suspends body →
    Suspends (boxTree (.group k) [label, body])

/-- Two values are the same up to the visited definitions that their closures keep. -/
inductive Same : Tree → Tree → Prop
  | refl (t : Tree) : Same t t
  | closure (exp genv visited visited' lenv : Tree) :
    Same (closure exp genv visited lenv) (closure exp genv visited' lenv)
  | op (o : BoxOp) {a a' b b' : Tree} : Same a a' → Same b b' →
    Same (boxTree (.op o) [a, b]) (boxTree (.op o) [a', b'])
  | group (k : GroupKind) (label : Tree) {body body' : Tree} : Same body body' →
    Same (boxTree (.group k) [label, body]) (boxTree (.group k) [label, body'])

@[simp] theorem isConstant_boxTree (b : BoxSym) (br : List Tree) :
    isConstant (boxTree b br) = isConstantSym b br.length := by
  show (BoxSym.ofNode b.node).any _ = _
  rw [BoxSym.ofNode_node]
  rfl

theorem closure_eq (exp genv visited lenv : Tree) :
    closure exp genv visited lenv = boxTree .closure [exp, genv, visited, lenv] := rfl

/-- A value that suspends no evaluation is one of the values without suspended evaluations. -/
theorem Value.settled {susp : Prop} {v : Tree} (h : Value susp v) (hv : ¬ Suspends v) :
    Value False v := by
  induction h with
  | constant h => exact .constant h
  | op o _ _ iha ihb =>
    exact .op o (iha fun h => hv (.left o _ h)) (ihb fun h => hv (.right o _ h))
  | switch k hq => exact .switch k hq
  | slider k cur lo hi step hq => exact .slider k cur lo hi step hq
  | bargraph k lo hi hq => exact .bargraph k lo hi hq
  | group k hq _ ih => exact .group k hq (ih fun h => hv (.group k _ h))
  | closure visited lenv h => exact .closure visited lenv h
  | suspended genv visited lenv _ hexp => exact absurd (.closure genv visited lenv hexp) hv

/-- A value is no error. -/
theorem Value.not_isBoxError {susp : Prop} {v : Tree} (h : Value susp v) :
    isBoxError v = false := by
  have hsym : ∀ {b : BoxSym} {br : List Tree}, b ≠ .error → isBoxError (boxTree b br) = false := by
    intro b br hb
    simp [isBoxError, hb]
  induction h with
  | @constant t h =>
    unfold isBoxError
    rw [decide_eq_false_iff_not]
    intro herror
    have heq : t = boxTree .error t.branches := by
      cases t
      exact congrArg (node · _) (BoxSym.eq_node_of_ofNode herror)
    rw [heq, isConstant_boxTree] at h
    cases h
  | op | switch | slider | bargraph | group => exact hsym (by simp)
  | closure | suspended => exact hsym (b := .closure) (by simp)

/-! ## Numbers -/

/-- A number is its own simplification. -/
def NumbersKept (p : Simplify.Properties) : Prop :=
  ∀ x r, p.simplified (leaf (.double x)) = some r → r = nil

/-- A computation returns the number that it is given. -/
def ReturnsNumber (t r : Tree) : Prop := ∀ x, t = leaf (.double x) → r = t

theorem preserves_setSimplified {t r : Tree} (hr : ReturnsNumber t r) :
    Preserves NumbersKept (Simplify.setSimplified t r) fun _ => True := by
  apply Preserves.modify _ trivial
  intro p hp x r' hget
  by_cases ht : leaf (.double x) = t
  · subst ht
    simp only [Function.update_self, hr x rfl, if_true, Option.some.injEq] at hget
    exact hget.symm
  · apply hp x r'
    simpa [Function.update_of_ne ht] using hget

theorem preserves_setRecDef {t body : Tree} :
    Preserves NumbersKept (Simplify.setRecDef t body) fun _ => True :=
  .modify (fun _ h => h) trivial

theorem preserves_simplifyRequire {α : Type} {I : Simplify.Properties → Prop} (o : Option α) :
    Preserves I (Simplify.require o) fun _ => True := by
  cases o with
  | none => exact .throw
  | some a => exact .pure trivial

section Simplification

variable {libm : Libm} {before : Tree → Tree → Bool} {fuel : ℕ}

theorem preserves_normalizeFixedDelayTerm
    (hmap : ∀ t, Preserves NumbersKept (Simplify.sigMap libm before fuel t) (ReturnsNumber t))
    (hdelay : ∀ t d, Preserves NumbersKept
      (Simplify.normalizeFixedDelayTerm libm before fuel t d) fun _ => True) (t d : Tree) :
    Preserves NumbersKept (Simplify.normalizeFixedDelayTerm libm before (fuel + 1) t d)
      fun _ => True := by
  unfold Simplify.normalizeFixedDelayTerm
  apply Preserves.ite (fun _ => .pure trivial)
  intro _
  apply Preserves.ite (fun _ => .pure trivial)
  intro _
  split
  · apply (preserves_simplifyRequire _).bind
    intro _ _
    apply Preserves.ite
    · intro _
      exact (hdelay _ _).bind fun _ _ => .pure trivial
    · intro _
      apply (preserves_simplifyRequire _).bind
      intro _ _
      exact .ite (fun _ => (hdelay _ _).bind fun _ _ => .pure trivial) fun _ => .pure trivial
  · apply (preserves_simplifyRequire _).bind
    intro _ _
    exact .ite (fun _ => (hdelay _ _).bind fun _ _ => .pure trivial) fun _ => .pure trivial
  · apply (hmap _).bind
    intro _ _
    exact hdelay _ _
  · exact .pure trivial

theorem preserves_simplification
    (hdelay : ∀ t d, Preserves NumbersKept
      (Simplify.normalizeFixedDelayTerm libm before fuel t d) fun _ => True) (t : Tree) :
    Preserves NumbersKept (Simplify.simplification libm before (fuel + 1) t)
      (ReturnsNumber t) := by
  have hnot : ∀ {s : Sym} {br : List Tree} {r : Tree},
      ReturnsNumber (.node (.sym s) br) r := by
    intro s br r x h
    cases h
  unfold Simplify.simplification
  split
  · exact (preserves_simplifyRequire _).mono fun _ _ => hnot
  · split
    · exact (preserves_simplifyRequire _).mono fun _ _ => hnot
    · exact .throw
  · exact (hdelay _ _).mono fun _ _ => hnot
  · exact (hdelay _ _).mono fun _ _ => hnot
  · exact .pure hnot
  · exact .pure hnot
  · exact .pure hnot
  · exact .pure hnot
  · exact .pure fun _ _ => rfl

theorem preserves_sigMap
    (hmap : ∀ t, Preserves NumbersKept (Simplify.sigMap libm before fuel t) (ReturnsNumber t))
    (hsimp : ∀ t, Preserves NumbersKept (Simplify.simplification libm before fuel t)
      (ReturnsNumber t)) (t : Tree) :
    Preserves NumbersKept (Simplify.sigMap libm before (fuel + 1) t) (ReturnsNumber t) := by
  unfold Simplify.sigMap
  apply Preserves.get_bind
  intro p hp
  split
  · next r hr =>
    apply Preserves.pure
    intro x hx
    subst hx
    rw [if_pos (hp x r hr)]
  · apply Preserves.ite
    · intro hrec
      apply (preserves_setSimplified fun _ _ => rfl).bind
      intro _ _
      apply Preserves.get_bind
      intro _ _
      apply (preserves_simplifyRequire _).bind
      intro body _
      apply (hmap body).bind
      intro body' _
      -- the definition of the symbol is not a result
      apply preserves_setRecDef.bind
      intro _ _
      exact .pure fun _ _ => rfl
    · intro _
      apply (Preserves.mapM fun b _ => (hmap b).mono fun _ _ => trivial).bind
      intro br hbr
      apply (hsimp _).bind
      intro r hr
      -- a number has no branches
      have hnum : ReturnsNumber t r := by
        intro x hx
        subst hx
        have hnil : br = [] := List.length_eq_zero_iff.1 hbr.1
        subst hnil
        exact hr x rfl
      apply (preserves_setSimplified hnum).bind
      intro _ _
      exact .pure hnum

/-- The three functions of the simplification keep the numbers. -/
theorem preserves_simplify (libm : Libm) (before : Tree → Tree → Bool) (fuel : ℕ) :
    (∀ t, Preserves NumbersKept (Simplify.sigMap libm before fuel t) (ReturnsNumber t)) ∧
    (∀ t, Preserves NumbersKept (Simplify.simplification libm before fuel t)
      (ReturnsNumber t)) ∧
    ∀ t d, Preserves NumbersKept (Simplify.normalizeFixedDelayTerm libm before fuel t d)
      fun _ => True := by
  induction fuel with
  | zero => exact ⟨fun _ => .throw, fun _ => .throw, fun _ _ => .throw⟩
  | succ fuel ih =>
    obtain ⟨hmap, hsimp, hdelay⟩ := ih
    exact ⟨preserves_sigMap hmap hsimp, preserves_simplification hdelay,
      preserves_normalizeFixedDelayTerm hmap hdelay⟩

/-- A number is simplified to itself, if there are two levels to go down. -/
theorem ends_sigMap_number {p : Simplify.Properties} (hp : NumbersKept p) (x : ℚ) :
    Ends (Simplify.sigMap libm before fuel (leaf (.double x))) p (fun _ => fuel < 2)
      fun r p' => r = leaf (.double x) ∧ NumbersKept p' := by
  cases fuel with
  | zero => exact .throw (by omega)
  | succ fuel =>
    unfold Simplify.sigMap
    apply Ends.get_eq.bind
    intro _ _ h
    obtain ⟨rfl, rfl⟩ := h
    split
    · next r hr => exact .pure ⟨if_pos (hp x r hr), hp⟩
    · rw [if_neg (by simp [Simplify.isRec, leaf])]
      -- a number has no branches
      have hbr : (leaf (.double x)).branches.mapM (Simplify.sigMap libm before fuel) = pure [] :=
        List.mapM_nil
      rw [hbr, pure_bind]
      cases fuel with
      | zero => exact .throw (by omega)
      | succ fuel =>
        have hsimp : Simplify.simplification libm before (fuel + 1)
            (.node (leaf (.double x)).label []) = pure (leaf (.double x)) := by
          unfold Simplify.simplification
          rfl
        have hset := (preserves_setSimplified (t := leaf (.double x)) fun _ _ => rfl) _ hp
        rw [hsimp, pure_bind]
        exact ⟨rfl, hset.1⟩

end Simplification

/-! ## The loop detector -/

/-- The buffer has what it had, and the expression that is evaluated. -/
theorem LoopDetector.buffer_of_detect {d d' : LoopDetector} {t u : Tree × Tree}
    (h : d.detect t = some d') {k : ℕ} (hk : d'.buffer k = some u) :
    u = t ∨ d.buffer k = some u := by
  unfold LoopDetector.detect at h
  simp only at h
  split at h
  · cases h
  · cases h
    replace hk : Function.update d.buffer ((d.phase + 1) % bufferSize) (some t) k = some u := hk
    by_cases hw : k = (d.phase + 1) % bufferSize
    · rw [hw, Function.update_self] at hk
      exact Or.inl (Option.some.inj hk).symm
    · rw [Function.update_of_ne hw] at hk
      exact Or.inr hk

/-- No endless evaluation is detected for an expression that is not in the buffer. -/
theorem LoopDetector.exists_detect {d : LoopDetector} {t : Tree × Tree}
    (h : ∀ k, d.buffer k ≠ some t) : ∃ d', d.detect t = some d' := by
  unfold LoopDetector.detect
  simp only
  split
  · next hfound =>
    simp only [List.any_eq_true, List.mem_range, decide_eq_true_eq] at hfound
    obtain ⟨_, k, _, hw, hk⟩ := hfound
    rw [Function.update_of_ne hw] at hk
    exact absurd hk (h k)
  · exact ⟨_, rfl⟩

/-! ## Invariants -/

/-- What holds of the state of the evaluator, while the evaluations of `W` are in progress: what is
kept are values, and what a value that suspends nothing is evaluated to is the same value; the
numbers are their own symbolic boxes, signals and simplifications; an expression in the buffer that
is a value has been evaluated. -/
structure Inv (S : Setting) (W : List (Tree × Tree)) (s : EvalState) : Prop where
  values : ∀ exp env v, s.values (exp, env) = some v →
    Value True v ∧ (Value False exp → Same exp v)
  matchers : ∀ k v, s.matchers k = some v → isConstant v = true
  symbolicBox : ∀ x r, s.symbolicBox (leaf (.double x)) = some r → r = leaf (.double x)
  propagation : MemoSound S.libm s.propagation
  signals : NumbersKept s.signals
  buffer : ∀ k exp env, s.detector.buffer k = some (exp, env) → Value False exp →
    (exp, env) ∈ W ∨ ∃ v, s.values (exp, env) = some v

variable {S : Setting} {W : List (Tree × Tree)} {s : EvalState}

/-- An evaluation begins. -/
theorem Inv.detected (h : Inv S W s) {exp env : Tree} {d : LoopDetector}
    (hd : s.detector.detect (exp, env) = some d) :
    Inv S ((exp, env) :: W) { s with detector := d } where
  values := h.values
  matchers := h.matchers
  symbolicBox := h.symbolicBox
  propagation := h.propagation
  signals := h.signals
  buffer := by
    intro k exp' env' hk hv
    rcases LoopDetector.buffer_of_detect hd hk with heq | hk
    · exact Or.inl (heq ▸ List.mem_cons_self)
    · exact (h.buffer k exp' env' hk hv).imp_left (List.mem_cons_of_mem _)

/-- An evaluation ends. -/
theorem Inv.evaluated {exp env v : Tree} (h : Inv S ((exp, env) :: W) s) (hv : Value True v)
    (hsame : Value False exp → Same exp v) :
    Inv S W { s with values := Function.update s.values (exp, env) (some v) } where
  values := by
    intro exp' env' v' hget
    replace hget : Function.update s.values (exp, env) (some v) (exp', env') = some v' := hget
    by_cases heq : (exp', env') = (exp, env)
    · cases heq
      rw [Function.update_self] at hget
      exact Option.some.inj hget ▸ ⟨hv, hsame⟩
    · rw [Function.update_of_ne heq] at hget
      exact h.values exp' env' v' hget
  matchers := h.matchers
  symbolicBox := h.symbolicBox
  propagation := h.propagation
  signals := h.signals
  buffer := by
    intro k exp' env' hk hval
    show _ ∨ ∃ v', Function.update s.values (exp, env) (some v) (exp', env') = some v'
    by_cases heq : (exp', env') = (exp, env)
    · exact Or.inr ⟨v, by rw [heq, Function.update_self]⟩
    · rw [Function.update_of_ne heq]
      refine (h.buffer k exp' env' hk hval).imp_left fun hmem => ?_
      exact (List.mem_cons.1 hmem).resolve_left heq

/-- More evaluations may be in progress. -/
theorem Inv.mono (h : Inv S W s) {W' : List (Tree × Tree)} (hsub : W ⊆ W') : Inv S W' s where
  values := h.values
  matchers := h.matchers
  symbolicBox := h.symbolicBox
  propagation := h.propagation
  signals := h.signals
  buffer k exp env hk hv := (h.buffer k exp env hk hv).imp_left fun hmem => hsub hmem

/-- The evaluations in progress that count are those of values. -/
theorem Inv.of_not_value {exp env : Tree} (h : Inv S ((exp, env) :: W) s)
    (hexp : ¬ Value False exp) : Inv S W s where
  values := h.values
  matchers := h.matchers
  symbolicBox := h.symbolicBox
  propagation := h.propagation
  signals := h.signals
  buffer := by
    intro k exp' env' hk hv
    refine (h.buffer k exp' env' hk hv).imp_left fun hmem => ?_
    rcases List.mem_cons.1 hmem with heq | hmem
    · cases heq
      exact absurd hv hexp
    · exact hmem

/-- No endless evaluation is detected for a value that has not been evaluated. -/
theorem Inv.ends_detect (h : Inv S W s) {exp env : Tree} (hv : Value False exp)
    (hnone : s.values (exp, env) = none) (hnew : (exp, env) ∉ W) :
    Ends (detect exp env) s (fun _ => False) fun _ s' => Inv S ((exp, env) :: W) s' := by
  have hbuffer : ∀ k, s.detector.buffer k ≠ some (exp, env) := by
    intro k hk
    rcases h.buffer k exp env hk hv with hmem | ⟨v, hval⟩
    · exact hnew hmem
    · rw [hnone] at hval
      cases hval
  obtain ⟨d, hd⟩ := LoopDetector.exists_detect hbuffer
  unfold detect
  apply Ends.get_eq.bind
  intro _ _ heq
  obtain ⟨rfl, rfl⟩ := heq
  rw [hd]
  exact h.detected hd

/-! ## Values evaluate to themselves -/

/-- The evaluation of a value, given how `realeval` ends. -/
theorem Inv.ends_eval (h : Inv S W s) {n : ℕ} {v visited env : Tree} (hv : Value False v)
    (hW : (v, env) ∉ W) {E : Failure → Prop}
    (hreal : ∀ s', Inv S ((v, env) :: W) s' → Ends (realeval S n (calls S n) v visited env) s' E
      fun r s'' => Inv S ((v, env) :: W) s'' ∧ Value True r ∧ Same v r) :
    Ends (eval S (n + 1) v visited env) s E fun r s' => Inv S W s' ∧ Value True r ∧ Same v r := by
  show Ends (evalWith S n (calls S n) v visited env) s _ _
  unfold evalWith
  apply Ends.get_eq.bind
  intro _ _ heq
  obtain ⟨rfl, rfl⟩ := heq
  split
  · next r hr =>
    obtain ⟨hval, hsame⟩ := h.values v env r hr
    exact .pure ⟨h, hval, hsame hv⟩
  · next hnone =>
    apply ((h.ends_detect hv hnone hW).imp (fun _ hfalse => hfalse.elim) fun _ _ hd => hd).bind
    intro _ s₁ h₁
    apply (hreal s₁ h₁).bind
    intro r s₂ h₂
    obtain ⟨h₂, hval, hsame⟩ := h₂
    exact ⟨h₂.evaluated hval fun _ => hsame, hval, hsame⟩

theorem realeval_constant {n : ℕ} {c : Calls} {v visited env : Tree} (h : isConstant v = true) :
    realeval S n c v visited env = pure v := if_pos h

theorem ends_eval_constant (h : Inv S W s) {n : ℕ} {v visited env : Tree}
    (hv : isConstant v = true) (hW : (v, env) ∉ W) :
    Ends (eval S n v visited env) s (fun _ => n = 0) fun r s' =>
      Inv S W s' ∧ Value True r ∧ Same v r := by
  cases n with
  | zero => exact .throw rfl
  | succ n =>
    apply h.ends_eval (.constant hv) hW
    intro s' h'
    rw [realeval_constant hv]
    exact .pure ⟨h', .constant hv, .refl v⟩

theorem Same.eq_of_number {x : ℚ} {r : Tree} (h : Same (leaf (.double x)) r) :
    r = leaf (.double x) := by
  generalize ht : leaf (.double x) = t at h
  cases h with
  | refl => rfl
  | closure | op | group => cases ht

theorem Inv.setSymbolicBox (h : Inv S W s) {t r : Tree} (hr : ReturnsNumber t r) :
    Inv S W { s with symbolicBox := Function.update s.symbolicBox t (some r) } where
  values := h.values
  matchers := h.matchers
  symbolicBox := by
    intro x r' hget
    replace hget : Function.update s.symbolicBox t (some r) (leaf (.double x)) = some r' := hget
    by_cases ht : leaf (.double x) = t
    · rw [ht, Function.update_self] at hget
      rw [← Option.some.inj hget, ht]
      exact hr x ht.symm
    · rw [Function.update_of_ne ht] at hget
      exact h.symbolicBox x r' hget
  propagation := h.propagation
  signals := h.signals
  buffer := h.buffer

/-- The symbolic box of a number is the number. -/
theorem Inv.ends_a2sb_number (h : Inv S W s) (n : ℕ) (x : ℚ) :
    Ends (a2sb S n (leaf (.double x))) s (fun _ => n = 0) fun r s' =>
      r = leaf (.double x) ∧ Inv S W s' := by
  cases n with
  | zero => exact .throw rfl
  | succ n =>
    show Ends (a2sbWith (calls S n) (leaf (.double x))) s _ _
    unfold a2sbWith
    apply Ends.get_eq.bind
    intro _ _ heq
    obtain ⟨rfl, rfl⟩ := heq
    split
    · next r hr => exact .pure ⟨h.symbolicBox x r hr, h⟩
    · have hreal : realA2sb (calls S n) (leaf (.double x)) = pure (leaf (.double x)) := by
        have hbr : [].mapM (calls S n).a2sb = pure [] := List.mapM_nil
        show (if BoxSym.ofNode (.double x) = some .waveform then pure (leaf (.double x))
          else [].mapM (calls S n).a2sb >>= fun br => pure (.node (.double x) br)) = _
        rw [if_neg (by simp [BoxSym.ofNode]), hbr, pure_bind]
        rfl
      rw [hreal, pure_bind]
      exact ⟨rfl, h.setSymbolicBox fun _ _ => rfl⟩

/-- A computation of the simplification changes nothing else. -/
theorem ends_runSimplification {α : Type} {x : Simplify.M α} {E : Simplify.Failure → Prop}
    {Q : α → Simplify.Properties → Prop} (hx : Ends x s.signals E Q) :
    Ends (runSimplification x) s (fun _ => ∃ e, E e) fun a s' =>
      ∃ p, Q a p ∧ s' = { s with signals := p } := by
  unfold Ends runSimplification
  rcases hx.cases with ⟨a, p, hrun, hQ⟩ | ⟨e, hrun, hE⟩
  · rw [hrun]
    exact ⟨p, hQ, rfl⟩
  · rw [hrun]
    exact ⟨e, hE⟩

/-- The propagation into a box whose type is known. -/
theorem Inv.ends_runPropagation (h : Inv S W s) {box : Box} {n : ℕ}
    (ht : getBoxType box = .ok (some (0, n))) :
    Ends (runPropagation (propagate S.libm [] [] box (makeSigInputList 0))) s (fun _ => False)
      fun lsig s' => Inv S W s' ∧ s'.signals = s.signals ∧ lsig.length = n ∧
        Propagates S.libm (fun _ => True) [] [] box (makeSigInputList 0) lsig := by
  have hsound : BoxSound S.libm box := realPropagate_sound box
  obtain ⟨lsig, p, hrun, hprop, hp⟩ :=
    hsound.propagateWith [] [] (makeSigInputList 0) ht rfl s.propagation h.propagation
  unfold Ends runPropagation propagate
  rw [hrun]
  exact ⟨⟨h.values, h.matchers, h.symbolicBox, hp, h.signals, h.buffer⟩, rfl, hprop.2, hprop.1⟩

/-- The signal of a number is the number. -/
theorem Inv.ends_simplifiedSignal_number (h : Inv S W s) (n : ℕ) (x : ℚ) :
    Ends (simplifiedSignal S n (.real x)) s (fun _ => n < 2) fun r s' =>
      r = leaf (.double x) ∧ Inv S W s' := by
  unfold simplifiedSignal
  have ht : getBoxType (.real x) = .ok (some (0, 1)) := rfl
  apply ((h.ends_runPropagation ht).imp nofun fun _ _ hp => hp).bind
  intro lsig s₁ hp
  obtain ⟨h₁, _, _, hprop⟩ := hp
  obtain rfl : lsig = [sigReal x] := by
    cases hprop with
    | outputs hout => exact (Option.some.inj hout).symm
  apply (ends_runSimplification (ends_sigMap_number h₁.signals x)).imp
  · intro _ he
    obtain ⟨_, hlt⟩ := he
    exact hlt
  · intro r s₂ hr
    obtain ⟨p, ⟨rfl, hp⟩, rfl⟩ := hr
    exact ⟨rfl, h₁.values, h₁.matchers, h₁.symbolicBox, h₁.propagation, hp, h₁.buffer⟩

/-- The signal of a constant expression that is evaluated to a number is the number. -/
theorem ends_constantSignal_number (n : ℕ) (x : ℚ) {exp visited env : Tree}
    (heval : Ends (eval S n exp visited env) s (fun _ => n = 0) fun r s' =>
      r = leaf (.double x) ∧ Inv S W s') :
    Ends (constantSignal S n (calls S n) exp visited env) s (fun _ => n < 2)
      fun r s' => r = leaf (.double x) ∧ Inv S W s' := by
  unfold constantSignal
  apply (heval.imp (fun _ hn => by omega) fun _ _ hp => hp).bind
  intro r s₁ h₁
  obtain ⟨rfl, h₁⟩ := h₁
  apply ((h₁.ends_a2sb_number n x).imp (fun _ hn => by omega) fun _ _ hp => hp).bind
  intro d s₂ h₂
  obtain ⟨rfl, h₂⟩ := h₂
  have hbox : toBox (leaf (.double x)) = .real x := by rw [leaf, toBox]
  rw [hbox]
  exact h₂.ends_simplifiedSignal_number n x

/-- The evaluation of a number as a `double` gives the number. -/
theorem Inv.ends_eval2double_number (h : Inv S W s) (n : ℕ) (x : ℚ) {visited env : Tree}
    (hW : (leaf (.double x), env) ∉ W) :
    Ends (eval2double S n (calls S n) (leaf (.double x)) visited env) s (fun _ => n < 2)
      fun y s' => y = x ∧ Inv S W s' := by
  have heval : Ends (eval S n (leaf (.double x)) visited env) s (fun _ => n = 0) fun r s' =>
      Inv S W s' ∧ Value True r ∧ Same (leaf (.double x)) r := ends_eval_constant h rfl hW
  apply (ends_constantSignal_number n x (heval.mono fun r s' hr => ?_)).bind
  · intro r s' hr
    obtain ⟨rfl, h'⟩ := hr
    exact .pure ⟨rfl, h'⟩
  · obtain ⟨h', _, hsame⟩ := hr
    exact ⟨hsame.eq_of_number, h'⟩

section Branches

variable {n : ℕ} {c : Calls} {visited env : Tree}

theorem realeval_boxTree {b : BoxSym} {br : List Tree} (h : isConstantSym b br.length = false) :
    realeval S n c (boxTree b br) visited env =
      evalBranches S n c (boxTree b br) visited env :=
  if_neg (by simp [h])

/-- A label without patterns is evaluated to itself. -/
theorem evalLabelTree_quiet {name : String} (h : Quiet name.toList) :
    evalLabelTree S n c (labelTree name) visited env = pure (labelTree name) := by
  show (evalLabel (m := EvalM) _ name.toList >>= fun l =>
    pure (leaf (.sym (.user (String.ofList l))))) = _
  rw [h.evalLabel, pure_bind]
  simp [labelTree]

theorem realeval_op (o : BoxOp) (a b : Tree) :
    realeval S n c (boxTree (.op o) [a, b]) visited env =
      c.eval a visited env >>= fun x => c.eval b visited env >>= fun y =>
        pure (boxTree (.op o) [x, y]) := by
  rw [realeval_boxTree rfl]
  unfold evalBranches
  simp only [label_boxTree, branches_boxTree, BoxSym.ofNode_node]
  rfl

theorem realeval_switch_label (k : SwitchKind) (label : Tree) :
    realeval S n c (boxTree (.switch k) [label]) visited env =
      evalLabelTree S n c label visited env >>= fun l => pure (boxTree (.switch k) [l]) := by
  rw [realeval_boxTree rfl]
  unfold evalBranches
  simp only [label_boxTree, branches_boxTree, BoxSym.ofNode_node]
  rfl

theorem realeval_switch (k : SwitchKind) {name : String} (h : Quiet name.toList) :
    realeval S n c (boxTree (.switch k) [labelTree name]) visited env =
      pure (boxTree (.switch k) [labelTree name]) := by
  rw [realeval_switch_label, evalLabelTree_quiet h, pure_bind]

theorem realeval_group (k : GroupKind) {name : String} (h : Quiet name.toList) (body : Tree) :
    realeval S n c (boxTree (.group k) [labelTree name, body]) visited env =
      c.eval body visited env >>= fun x => pure (boxTree (.group k) [labelTree name, x]) := by
  rw [realeval_boxTree rfl]
  unfold evalBranches
  simp only [label_boxTree, branches_boxTree, BoxSym.ofNode_node]
  rw [evalLabelTree_quiet h, pure_bind]
  rfl

theorem realeval_bargraph (k : BargraphKind) {name : String} (h : Quiet name.toList)
    (lo hi : Tree) :
    realeval S n c (boxTree (.bargraph k) [labelTree name, lo, hi]) visited env =
      eval2double S n c lo visited env >>= fun x => eval2double S n c hi visited env >>= fun y =>
        pure (boxTree (.bargraph k) [labelTree name, leaf (.double x), leaf (.double y)]) := by
  rw [realeval_boxTree rfl]
  unfold evalBranches
  simp only [label_boxTree, branches_boxTree, BoxSym.ofNode_node]
  rw [evalLabelTree_quiet h, pure_bind]
  rfl

theorem elements_ofList (l : List Tree) : elements (ofList l) = l := by
  induction l with
  | nil => simp [ofList, nil, leaf, elements]
  | cons t l ih => rw [ofList, cons, elements, ih]

theorem realeval_slider (k : SliderKind) {name : String} (h : Quiet name.toList)
    (cur lo hi step : Tree) :
    realeval S n c (boxTree (.slider k) [labelTree name, ofList [cur, lo, hi, step]]) visited env =
      eval2double S n c cur visited env >>= fun x => eval2double S n c lo visited env >>= fun y =>
        eval2double S n c hi visited env >>= fun z =>
        eval2double S n c step visited env >>= fun u =>
          pure (boxTree (.slider k) [labelTree name, ofList
            [leaf (.double x), leaf (.double y), leaf (.double z), leaf (.double u)]]) := by
  rw [realeval_boxTree rfl]
  unfold evalBranches
  simp only [label_boxTree, branches_boxTree, BoxSym.ofNode_node, elements_ofList]
  rw [evalLabelTree_quiet h, pure_bind]
  rfl

theorem realeval_closure {exp : Tree} (h : IsBound exp) (genv visited2 lenv : Tree) :
    realeval S n c (closure exp genv visited2 lenv) visited env =
      pure (closure exp nil (setUnion S.before visited visited2) lenv) := by
  rw [closure_eq, realeval_boxTree rfl]
  unfold evalBranches
  simp only [label_boxTree, branches_boxTree, BoxSym.ofNode_node]
  exact if_pos h

end Branches

theorem size_lt_boxTree {b : BoxSym} {br : List Tree} {t : Tree} (h : t ∈ br) :
    t.size < (boxTree b br).size := size_lt_of_mem h

/-- A value that suspends no evaluation evaluates to itself, in every environment, if there are
enough levels to go down. -/
theorem ends_eval_value {v : Tree} (hv : Value False v) :
    ∀ {W : List (Tree × Tree)} {s : EvalState} (n : ℕ) (visited env : Tree),
      (∀ p ∈ W, v.size < p.1.size) → Inv S W s →
      Ends (eval S n v visited env) s (fun _ => n < v.size + 3) fun r s' =>
        Inv S W s' ∧ Value True r ∧ Same v r := by
  have hnot : ∀ {v : Tree} {W : List (Tree × Tree)} (env : Tree),
      (∀ p ∈ W, v.size < p.1.size) → (v, env) ∉ W := fun env hW hmem =>
    absurd (hW _ hmem) (lt_irrefl _)
  -- what is in progress when a branch is evaluated
  have hbranch : ∀ {b : BoxSym} {br : List Tree} {t : Tree} {W : List (Tree × Tree)} (env : Tree),
      (∀ p ∈ W, (boxTree b br).size < p.1.size) → t ∈ br →
      ∀ p ∈ (boxTree b br, env) :: W, t.size < p.1.size := by
    intro b br t W env hW ht p hp
    have hlt : t.size < (boxTree b br).size := size_lt_boxTree ht
    rcases List.mem_cons.1 hp with rfl | hp
    · exact hlt
    · exact hlt.trans (hW p hp)
  -- a number is evaluated while a widget is
  have hnumber : ∀ {b : BoxSym} {br : List Tree} {t : Tree} {W : List (Tree × Tree)} (env : Tree)
      {s : EvalState} (n : ℕ) (visited : Tree) (x : ℚ),
      (∀ p ∈ W, (boxTree b br).size < p.1.size) → t ∈ br → Inv S ((boxTree b br, env) :: W) s →
      Ends (eval2double S n (calls S n) (leaf (.double x)) visited env) s
        (fun _ => n + 1 < (boxTree b br).size + 3)
        fun y s' => y = x ∧ Inv S ((boxTree b br, env) :: W) s' := by
    intro b br t W env s n visited x hW ht h
    have hnew : (leaf (.double x), env) ∉ (boxTree b br, env) :: W := by
      apply hnot
      intro p hp
      have hone : (leaf (.double x)).size = 1 := rfl
      have hpos := size_pos t
      have hlt := hbranch env hW ht p hp
      omega
    have hlt : t.size < (boxTree b br).size := size_lt_boxTree ht
    exact (h.ends_eval2double_number n x hnew).imp (fun _ hn => by omega) fun _ _ hp => hp
  induction hv with
  | constant hconst =>
    intro W s n visited env hW h
    exact (ends_eval_constant h hconst (hnot env hW)).imp (fun _ hn => by omega) fun _ _ hp => hp
  | @op o a b ha hb iha ihb =>
    intro W s n visited env hW h
    cases n with
    | zero => exact .throw (by omega)
    | succ n =>
      apply h.ends_eval (.op o ha hb) (hnot env hW)
      intro s₁ h₁
      have hsa : a.size < (boxTree (.op o) [a, b]).size := size_lt_boxTree (by simp)
      have hsb : b.size < (boxTree (.op o) [a, b]).size := size_lt_boxTree (by simp)
      rw [realeval_op]
      apply ((iha n visited env (hbranch env hW (by simp)) h₁).imp (fun _ hn => by omega)
        fun _ _ hp => hp).bind
      intro x s₂ hx
      obtain ⟨h₂, hvx, hsx⟩ := hx
      apply ((ihb n visited env (hbranch env hW (by simp)) h₂).imp (fun _ hn => by omega)
        fun _ _ hp => hp).bind
      intro y s₃ hy
      obtain ⟨h₃, hvy, hsy⟩ := hy
      exact .pure ⟨h₃, .op o hvx hvy, .op o hsx hsy⟩
  | switch k hq =>
    intro W s n visited env hW h
    cases n with
    | zero => exact .throw (by omega)
    | succ n =>
      apply h.ends_eval (.switch k hq) (hnot env hW)
      intro s₁ h₁
      rw [realeval_switch k hq]
      exact .pure ⟨h₁, .switch k hq, .refl _⟩
  | @slider k name cur lo hi step hq =>
    intro W s n visited env hW h
    cases n with
    | zero => exact .throw (by omega)
    | succ n =>
      apply h.ends_eval (.slider k cur lo hi step hq) (hnot env hW)
      intro s₁ h₁
      have hlabel : labelTree name ∈ [labelTree name, ofList
        [leaf (.double cur), leaf (.double lo), leaf (.double hi), leaf (.double step)]] := by simp
      rw [realeval_slider k hq]
      apply (hnumber env n visited cur hW hlabel h₁).bind
      intro _ s₂ h₂
      obtain ⟨rfl, h₂⟩ := h₂
      apply (hnumber env n visited lo hW hlabel h₂).bind
      intro _ s₃ h₃
      obtain ⟨rfl, h₃⟩ := h₃
      apply (hnumber env n visited hi hW hlabel h₃).bind
      intro _ s₄ h₄
      obtain ⟨rfl, h₄⟩ := h₄
      apply (hnumber env n visited step hW hlabel h₄).bind
      intro _ s₅ h₅
      obtain ⟨rfl, h₅⟩ := h₅
      exact .pure ⟨h₅, .slider k _ _ _ _ hq, .refl _⟩
  | @bargraph k name lo hi hq =>
    intro W s n visited env hW h
    cases n with
    | zero => exact .throw (by omega)
    | succ n =>
      apply h.ends_eval (.bargraph k lo hi hq) (hnot env hW)
      intro s₁ h₁
      have hlabel : labelTree name ∈ [labelTree name, leaf (.double lo), leaf (.double hi)] := by
        simp
      rw [realeval_bargraph k hq]
      apply (hnumber env n visited lo hW hlabel h₁).bind
      intro _ s₂ h₂
      obtain ⟨rfl, h₂⟩ := h₂
      apply (hnumber env n visited hi hW hlabel h₂).bind
      intro _ s₃ h₃
      obtain ⟨rfl, h₃⟩ := h₃
      exact .pure ⟨h₃, .bargraph k _ _ hq, .refl _⟩
  | @group k name body hq hb ih =>
    intro W s n visited env hW h
    cases n with
    | zero => exact .throw (by omega)
    | succ n =>
      apply h.ends_eval (.group k hq hb) (hnot env hW)
      intro s₁ h₁
      have hsb : body.size < (boxTree (.group k) [labelTree name, body]).size :=
        size_lt_boxTree (by simp)
      rw [realeval_group k hq]
      apply ((ih n visited env (hbranch env hW (by simp)) h₁).imp (fun _ hn => by omega)
        fun _ _ hp => hp).bind
      intro x s₂ hx
      obtain ⟨h₂, hvx, hsx⟩ := hx
      exact .pure ⟨h₂, .group k hq hvx, .group k _ hsx⟩
  | closure visited' lenv hexp =>
    intro W s n visited env hW h
    cases n with
    | zero => exact .throw (by omega)
    | succ n =>
      apply h.ends_eval (.closure visited' lenv hexp) (hnot env hW)
      intro s₁ h₁
      rw [realeval_closure hexp]
      exact .pure ⟨h₁, .closure _ _ hexp, .closure _ _ _ _ _⟩
  | suspended _ _ _ hfalse => exact hfalse.elim

end Faust.Eval
