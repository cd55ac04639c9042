import Faust.Generator.PowerFunction
import Faust.Generator.SignalCompilerTheorems

/-!
# The signals whose code is a literal

The code of a number is a literal, and the compiler casts literals at once. So the code of a signal
is a literal when only casts and attachments stand between the signal and a number, none of which
`generateCacheCode` puts in a variable. `literalCode` is this literal, read off the signal and the
annotations of its graph; the theorem of this module is that `CS` gives it, and no literal where
there is none.
-/

namespace Faust.Codegen

open Faust.Tree Faust.Fir Outcome
open Faust.Occ hiding isSigGen
open Shape

/-! ## Expressions -/

/-- `IntNumInst`, `FloatNumInst` and `DoubleNumInst`. -/
def isLiteral : ValueInst → Bool
  | .intNum _ | .realNum _ _ => true
  | _ => false

/-- What the compiler makes of the operands of signals that are neither numbers nor casts nor
powers: expressions that are no literals. -/
structure Expressions where
  gFloatSize : ℕ
  other : Tree → List ValueInst → InstructionsCompiler →
    { v : ValueInst // isLiteral v = false } × InstructionsCompiler

section
variable (e : Expressions) (itfloat : VarType) (g : Graph)

/-- The type of a signal. -/
def signalType (t : Tree) : SimpleType := (g.getCertifiedSigType t).fields

/-- The expression for a signal, out of the code of its operands: `generateIntNumber`,
`generateRealNumber`, `generateIntCast`, `generateFloatCast` and `generateXtended`. -/
def Expressions.build (sig : Tree) (args : List ValueInst) (c : InstructionsCompiler) :
    ValueInst × InstructionsCompiler :=
  match sig, args with
  | .node (.int i) _, _ => (.intNum i, c)
  | .node (.double x) _, _ => (InstBuilder.genRealNumInst itfloat x, c)
  | .node (.sym .sigIntCast) [_], [v] => (genCastNumInst v .kInt, c)
  | .node (.sym .sigFloatCast) [_], [v] => (genCastNumInst v itfloat, c)
  | .node (.sym (.xtended .pow)) [x, y], [v, w] =>
    ((Power.generatePower e.gFloatSize itfloat (signalType g x) (signalType g y) v w).2, c)
  | sig, args => ((e.other sig args c).1, (e.other sig args c).2)

/-- The options of a compiler with these expressions. -/
def Expressions.options (gMaxCopyDelay : ℤ) (gVecSize : ℕ) (gInPlace : Bool) : Options :=
  ⟨gMaxCopyDelay, gVecSize, gInPlace, itfloat, e.build itfloat g⟩

end

/-! ## Literals -/

section
variable (ctx : Context)

/-- `generateCacheCode` leaves the expression of an attachment or of a cast as it is: it is not
shared, and not in the vector of samples of the vector compiler. -/
def keepsExpression (sig : Tree) : Bool :=
  decide (getSharingCount ctx.sharing sig ≤ 1) &&
    !(ctx.vectorMode && decide (kSamp ≤ ctx.graph.variability sig) &&
      decide (0 < maxDelay ctx sig))

/-- The literal that is the code of a signal. -/
def literalCode : Tree → Option ValueInst
  | .node (.int i) _ => some (.intNum i)
  | .node (.double x) _ => some (InstBuilder.genRealNumInst ctx.itfloat x)
  | .node (.sym .sigIntCast) [x] =>
    if keepsExpression ctx (.node (.sym .sigIntCast) [x]) then
      (literalCode x).map (genCastNumInst · .kInt)
    else none
  | .node (.sym .sigFloatCast) [x] =>
    if keepsExpression ctx (.node (.sym .sigFloatCast) [x]) then
      (literalCode x).map (genCastNumInst · ctx.itfloat)
    else none
  | .node (.sym .sigAttach) [x, y] =>
    if keepsExpression ctx (.node (.sym .sigAttach) [x, y]) then literalCode x else none
  | .node (.sym .sigFixDelay) [x, _] => if maxDelay ctx x = 0 then literalCode x else none
  | _ => none

end

/-- `isProj`. -/
def isProj : Tree → Bool
  | .node (.sym .sigProj) [.node (.int _) _, _] => true
  | _ => false

/-- Casts and attachments lead to a projection that is not delayed. -/
def isBareProjection : Tree → Bool
  | .node (.sym .sigProj) [.node (.int _) _, _] => true
  | .node (.sym .sigIntCast) [x] | .node (.sym .sigFloatCast) [x] => isBareProjection x
  | .node (.sym .sigAttach) [x, _] => isBareProjection x
  | .node (.sym .sigFixDelay) [x, _] => !isProj x && isBareProjection x
  | _ => false

/-- The value is the literal, or no literal where there is none. -/
def IsCode (w : Option ValueInst) (v : ValueInst) : Prop :=
  match w with
  | some w => v = w
  | none => isLiteral v = false

section
variable (ctx : Context)

/-- The code of a signal is a literal where the signal says so. -/
def Agrees (t : Tree) (v : ValueInst) : Prop :=
  isBareProjection t = false → IsCode (literalCode ctx t) v

/-- The code of the signals is as the signals say, and the names of vectors stand for no literal. -/
structure Coherent (σ : Compiler) : Prop where
  code : ∀ t v, σ.fCompileProperty t = some v → Agrees ctx t v
  unnamed : ∀ t, σ.Named t → maxDelay ctx t = 0 → literalCode ctx t = none
  projection : ∀ t, σ.Coded t → IsProjection t → σ.Named t

/-- A computation whose value, where it has one, is the code of a signal. -/
def GivesCode (x : M ValueInst) (sig : Tree) (σ : Compiler) : Prop :=
  Ends x σ (fun _ => True) fun v σ' =>
    Coherent ctx σ' ∧ Agrees ctx sig v ∧ (IsProjection sig → σ'.Named sig)

/-- The function gives the code of each signal. -/
def GivesCodes (f : Tree → M ValueInst) : Prop :=
  ∀ t σ, Coherent ctx σ → GivesCode ctx (f t) t σ

end

section
variable {ctx : Context} {σ σ' σ₁ : Compiler} {sig : Tree} {v : ValueInst} {w : Option ValueInst}

theorem IsCode.cast (h : IsCode w v) (typed : VarType) :
    IsCode (w.map (genCastNumInst · typed)) (genCastNumInst v typed) := by
  cases w with
  | some w =>
    have hv : v = w := h
    rw [hv]
    exact rfl
  | none =>
    have hv : isLiteral v = false := h
    show isLiteral (genCastNumInst v typed) = false
    unfold genCastNumInst
    split <;> simp_all [isLiteral]

theorem IsProjection.exists_eq (h : IsProjection sig) :
    ∃ i br r, sig = .node (.sym .sigProj) [.node (.int i) br, r] := by
  obtain ⟨i, r, h⟩ := h
  unfold dispatch at h
  split at h
  all_goals first
    | exact ⟨_, _, _, rfl⟩
    | simp only [Option.some.injEq, reduceCtorEq] at h

theorem literalCode_of_isProjection (h : IsProjection sig) : literalCode ctx sig = none := by
  obtain ⟨i, br, r, rfl⟩ := h.exists_eq
  rfl

theorem isBareProjection_of_isProjection (h : IsProjection sig) :
    isBareProjection sig = true := by
  obtain ⟨i, br, r, rfl⟩ := h.exists_eq
  rfl

theorem Agrees.of_isProjection (h : IsProjection sig) : Agrees ctx sig v := fun hbare => by
  rw [isBareProjection_of_isProjection h] at hbare
  cases hbare

theorem Agrees.of_not_literal (hsig : literalCode ctx sig = none) (hv : isLiteral v = false) :
    Agrees ctx sig v := fun _ => by
  rw [hsig]
  exact hv

/-! ## Names -/

/-- A computation names the vector of the signal, if any, and gives no code. -/
structure Names (ctx : Context) (sig : Tree) (σ σ' : Compiler) : Prop where
  code : σ'.fCompileProperty = σ.fCompileProperty
  other : ∀ t, t ≠ sig → σ'.fVectorProperty t = σ.fVectorProperty t
  kept : σ.Named sig → σ'.Named sig
  named : σ'.Named sig → σ.Named sig ∨ (maxDelay ctx sig = 0 → literalCode ctx sig = none)

theorem Names.of_same (h : SameProperties σ σ') : Names ctx sig σ σ' where
  code := h.1
  other t _ := by rw [h.2]
  kept := h.named_iff.2
  named hn := Or.inl (h.named_iff.1 hn)

theorem Names.trans (h : Names ctx sig σ σ₁) (h' : Names ctx sig σ₁ σ') : Names ctx sig σ σ' where
  code := h'.code.trans h.code
  other t ht := (h'.other t ht).trans (h.other t ht)
  kept hn := h'.kept (h.kept hn)
  named hn := (h'.named hn).elim h.named Or.inr

theorem Names.of_set {vname : String} (h : maxDelay ctx sig = 0 → literalCode ctx sig = none) :
    Names ctx sig σ { σ with
      fVectorProperty := Function.update σ.fVectorProperty sig (some vname) } where
  code := rfl
  other _ ht := Function.update_of_ne ht _ _
  kept _ := by simp [Compiler.Named]
  named _ := Or.inr h

theorem Names.named_of_named (h : Names ctx sig σ σ') {t : Tree} (hn : σ.Named t) : σ'.Named t := by
  by_cases heq : t = sig
  · exact heq ▸ h.kept (heq ▸ hn)
  · rw [Compiler.Named, h.other t heq]
    exact hn

theorem Names.coherent (h : Names ctx sig σ σ') (hσ : Coherent ctx σ) : Coherent ctx σ' where
  code t v hv := hσ.code t v (by rwa [h.code] at hv)
  unnamed t hn hd := by
    by_cases heq : t = sig
    · subst heq
      exact (h.named hn).elim (fun hn => hσ.unnamed t hn hd) fun hlit => hlit hd
    · rw [Compiler.Named, h.other t heq] at hn
      exact hσ.unnamed t hn hd
  projection t hc hp := by
    rw [Compiler.Coded, h.code] at hc
    exact h.named_of_named (hσ.projection t hc hp)

theorem SameProperties.coherent (h : SameProperties σ σ') (hσ : Coherent ctx σ) :
    Coherent ctx σ' := (Names.of_same h : Names ctx Tree.nil σ σ').coherent hσ

/-- The code of a signal is kept. -/
theorem Coherent.setCode (hσ : Coherent ctx σ) (hv : Agrees ctx sig v)
    (hp : IsProjection sig → σ.Named sig) : Coherent ctx { σ with
      fCompileProperty := Function.update σ.fCompileProperty sig (some v) } where
  code t v' ht := by
    by_cases heq : t = sig
    · subst heq
      have hvv' : v = v' := by simpa using ht
      exact hvv' ▸ hv
    · exact hσ.code t v' (by simpa [heq] using ht)
  unnamed := hσ.unnamed
  projection t hc hproj := by
    by_cases heq : t = sig
    · subst heq
      exact hp hproj
    · exact hσ.projection t (by simpa [Compiler.Coded, heq] using hc) hproj

/-! ## Variables and vectors -/

theorem value_getMaxDelay (sig : Tree) : Ends (getMaxDelay ctx sig) σ (fun _ => True)
    fun d σ' => d = maxDelay ctx sig ∧ σ' = σ := by
  unfold getMaxDelay maxDelay
  split
  · next o ho => exact .pure ⟨by rw [ho]; rfl, rfl⟩
  · exact .throw trivial

/-- A line is made, and the expression stays. -/
theorem value_generateDelayLine (exp : ValueInst) (ctype : VarType) (vname : String) (mxd : ℕ) :
    Ends (generateDelayLine ctx exp ctype vname mxd) σ (fun _ => True) fun v σ' =>
      v = exp ∧ SameProperties σ σ' := by
  unfold generateDelayLine
  apply Ends.bind (Ends.get (Q := fun a σ' => a = σ ∧ σ' = σ) ⟨rfl, rfl⟩)
  rintro a σ' ⟨rfl, rfl⟩
  apply Ends.bind (ends_orOverflow (Q := fun _ σ₁ => σ₁ = σ') (fun _ _ => rfl) fun _ => trivial)
  rintro c σ₁ rfl
  apply Ends.bind (Ends.modify (Q := fun _ σ₂ => SameProperties σ₁ σ₂) ⟨rfl, rfl⟩)
  exact fun _ _ h => .pure ⟨rfl, h⟩

/-- A variable is no literal. -/
theorem value_generateVariableStore (sig : Tree) (exp : ValueInst) :
    Ends (generateVariableStore ctx sig exp) σ (fun _ => True) fun v σ' =>
      isLiteral v = false ∧ SameProperties σ σ' := by
  unfold generateVariableStore
  dsimp only
  split
  · apply Ends.bind (quiet_getTypedNames _ _).ends
    intro a σ₁ h₁
    apply Ends.bind (quiet_push _).ends
    intro _ σ₂ h₂
    apply Ends.bind (quiet_push _).ends
    exact fun _ _ h₃ => .pure ⟨rfl, h₁.trans (h₂.trans h₃)⟩
  · split
    · apply Ends.bind (quiet_getTypedNames _ _).ends
      intro a σ₁ h₁
      apply Ends.bind (quiet_push _).ends
      exact fun _ _ h₂ => .pure ⟨rfl, h₁.trans h₂⟩
    · split
      · split
        · apply Ends.bind (quiet_getTypedNames _ _).ends
          intro a σ₁ h₁
          apply Ends.bind (quiet_generateVectorLoop _ _ _).ends
          exact fun _ _ h₂ => .pure ⟨rfl, h₁.trans h₂⟩
        · apply Ends.bind (quiet_getTypedNames _ _).ends
          intro a σ₁ h₁
          apply Ends.bind (quiet_push _).ends
          exact fun _ _ h₂ => .pure ⟨rfl, h₁.trans h₂⟩
      · exact .pure ⟨rfl, .refl _⟩

/-- A signal is put in a vector. In the vector compiler its code is the vector then. -/
theorem value_generateDelayVec (exp : ValueInst) (ctype : VarType) (vname : String)
    (hpos : 0 < maxDelay ctx sig) :
    Ends (generateDelayVec ctx sig exp ctype vname (maxDelay ctx sig)) σ (fun _ => True)
      fun v σ' => (v = exp ∨ ctx.vectorMode = true ∧ isLiteral v = false) ∧ Names ctx sig σ σ' := by
  unfold generateDelayVec
  apply Ends.bind (Ends.modify (Q := fun _ σ₁ => Names ctx sig σ σ₁) (.of_set (by omega)))
  intro _ σ₁ h₁
  apply Ends.bind (value_generateDelayLine exp ctype vname _)
  rintro v σ₂ ⟨rfl, h₂⟩
  have hnames := h₁.trans (.of_same h₂)
  split
  · next hv => exact .pure ⟨Or.inr ⟨hv.1, rfl⟩, hnames⟩
  · exact .pure ⟨Or.inl rfl, hnames⟩

/-! ## `generateCacheCode` -/

/-- A signal that has code already is not compiled again. -/
theorem gives_unlessCompiled (hσ : Coherent ctx σ) {f : M ValueInst} (hf : GivesCode ctx f sig σ) :
    GivesCode ctx (getCompiledExpression sig >>= fun code =>
      match code with
      | some code => pure code
      | _ => f) sig σ := by
  apply Ends.bind (ends_getCompiledExpression (Q := fun a σ₁ => a = σ.fCompileProperty sig ∧
    σ₁ = σ) ⟨rfl, rfl⟩)
  rintro a σ₁ ⟨ha, rfl⟩
  split
  · next code =>
    refine .pure ⟨hσ, hσ.code sig code ha.symm, hσ.projection sig ?_⟩
    rw [Compiler.Coded, ← ha]
    rfl
  · exact hf

/-- The expression of a signal that is not a projection: the literal `w` if there is one, which is
the code of the signal when `generateCacheCode` leaves it as it is. -/
structure Expression (ctx : Context) (sig : Tree) (w : Option ValueInst) (exp : ValueInst) :
    Prop where
  literal : literalCode ctx sig = if keepsExpression ctx sig then w else none
  simple : verySimple sig = true → w = none
  isCode : isBareProjection sig = false → IsCode w exp
  not_projection : ¬ IsProjection sig

/-- What `generateCacheCode` returns: the expression, or a variable. -/
def Cache (ctx : Context) (sig : Tree) (exp v : ValueInst) : Prop :=
  v = exp ∧ (keepsExpression ctx sig = true ∨ verySimple sig = true) ∨
    isLiteral v = false ∧ keepsExpression ctx sig = false

variable {exp : ValueInst}

theorem Expression.agrees (h : Expression ctx sig w exp) (hv : Cache ctx sig exp v) :
    Agrees ctx sig v := by
  intro hbare
  have hcode := h.isCode hbare
  rw [h.literal]
  rcases hv with ⟨rfl, hk | hs⟩ | ⟨hv, hk⟩
  · rwa [if_pos hk]
  · rw [h.simple hs] at hcode ⊢
    rwa [ite_self]
  · rw [if_neg (by rw [hk]; exact Bool.false_ne_true)]
    exact hv

theorem Expression.gives (h : Expression ctx sig w exp) (hσ : Coherent ctx σ) {f : M ValueInst}
    (hf : Ends f σ (fun _ => True) fun v σ' => Cache ctx sig exp v ∧ Names ctx sig σ σ') :
    GivesCode ctx f sig σ := by
  apply Ends.mono hf
  intro v σ' hv
  exact ⟨hv.2.coherent hσ, h.agrees hv.1, fun hp => absurd hp h.not_projection⟩

theorem Expression.unnamed (h : Expression ctx sig w exp) (hk : keepsExpression ctx sig = false) :
    literalCode ctx sig = none := by
  rw [h.literal, hk]
  rfl

theorem keepsExpression_of_shared (h : 1 < getSharingCount ctx.sharing sig) :
    keepsExpression ctx sig = false := by
  have hle : ¬ getSharingCount ctx.sharing sig ≤ 1 := by omega
  simp [keepsExpression, hle]

theorem keepsExpression_of_unshared (h : ¬ 1 < getSharingCount ctx.sharing sig)
    (hv : ctx.vectorMode = false ∨ ctx.graph.variability sig < kSamp ∨ maxDelay ctx sig = 0) :
    keepsExpression ctx sig = true := by
  have hle : getSharingCount ctx.sharing sig ≤ 1 := by omega
  rcases hv with hv | hv | hv
  · simp [keepsExpression, hle, hv]
  · have hlt : ¬ kSamp ≤ ctx.graph.variability sig := by omega
    simp [keepsExpression, hle, hlt]
  · simp [keepsExpression, hle, hv]

/-- `generateCacheCode` of the scalar compiler, which the vector compiler calls for what is not
delayed. -/
theorem gives_generateScalarCacheCode (h : Expression ctx sig w exp) (hσ : Coherent ctx σ)
    (hv : ctx.vectorMode = false ∨ maxDelay ctx sig = 0) :
    GivesCode ctx (generateScalarCacheCode ctx sig exp) sig σ := by
  unfold generateScalarCacheCode
  apply gives_unlessCompiled hσ
  apply h.gives hσ
  apply Ends.bind (value_getMaxDelay sig)
  rintro d σ₁ ⟨rfl, rfl⟩
  split
  · next hpos =>
    have hscalar : ctx.vectorMode = false := hv.resolve_right (by omega)
    apply Ends.bind (quiet_getTypedNames _ _).ends
    intro a σ₂ h₂
    dsimp only
    split
    · next hshared =>
      have hk : keepsExpression ctx sig = false := keepsExpression_of_shared hshared
      apply Ends.bind (value_generateVariableStore sig exp)
      intro b σ₃ h₃
      apply Ends.mono (value_generateDelayVec b a.1 a.2 hpos)
      intro v σ₄ h₄
      refine ⟨Or.inr ⟨?_, hk⟩, (Names.of_same (h₂.trans h₃.2)).trans h₄.2⟩
      rcases h₄.1 with rfl | hv
      · exact h₃.1
      · exact hv.2
    · next hshared =>
      have hk : keepsExpression ctx sig = true :=
        keepsExpression_of_unshared hshared (Or.inl hscalar)
      apply Ends.mono (value_generateDelayVec exp a.1 a.2 hpos)
      intro v σ₃ h₃
      refine ⟨Or.inl ⟨h₃.1.resolve_right ?_, Or.inl hk⟩, (Names.of_same h₂).trans h₃.2⟩
      simp [hscalar]
  · next hpos =>
    have hzero : maxDelay ctx sig = 0 := by omega
    split
    · next hone =>
      have hk : keepsExpression ctx sig = true :=
        keepsExpression_of_unshared (by omega) (Or.inr (Or.inr hzero))
      exact .pure ⟨Or.inl ⟨rfl, Or.inl hk⟩, .of_same (.refl _)⟩
    · split
      · next hshared =>
        apply Ends.mono (value_generateVariableStore sig exp)
        intro v σ₂ h₂
        exact ⟨Or.inr ⟨h₂.1, keepsExpression_of_shared hshared⟩, .of_same h₂.2⟩
      · exact .throw trivial

/-- The vector of a signal is named once its line is made. -/
theorem names_vector {vname : String} (h : maxDelay ctx sig = 0 → literalCode ctx sig = none)
    (ctype : VarType) {α : Type} {f : M α} {Q : α → Prop}
    (hf : ∀ σ, Ends f σ (fun _ => True) fun a σ' => Q a ∧ SameProperties σ σ') :
    Ends (generateDelayLine ctx exp ctype vname (maxDelay ctx sig) >>= fun _ =>
      setVectorNameProperty sig vname >>= fun _ => f) σ (fun _ => True)
      fun a σ' => Q a ∧ Names ctx sig σ σ' := by
  apply Ends.bind (value_generateDelayLine exp ctype vname _)
  intro _ σ₁ h₁
  apply Ends.bind (Ends.modify (Q := fun _ σ₂ => Names ctx sig σ₁ σ₂) (.of_set h))
  intro _ σ₂ h₂
  apply Ends.mono (hf σ₂)
  intro a σ₃ h₃
  exact ⟨h₃.1, (Names.of_same h₁.2).trans (h₂.trans (.of_same h₃.2))⟩

/-- What is read in a vector is no literal. -/
theorem isLiteral_of_delayedRead {vname : String} {mxd : ℕ} {delay : Tree} {code : ValueInst}
    (h : delayedRead ctx vname mxd delay code = some v) : isLiteral v = false := by
  have hsome : ∀ {u : ValueInst}, isLiteral u = false → some u = some v → isLiteral v = false :=
    fun hu huv => Option.some.inj huv ▸ hu
  unfold delayedRead at h
  by_cases h₀ : mxd = 0
  · subst h₀
    split at h
    · exact hsome rfl h
    · exact hsome rfl h
  split at h
  · unfold DAGInstructionsCompiler.generateFixDelay at h
    by_cases hlt : (mxd : ℤ) < ctx.gMaxCopyDelay
    · rw [if_neg h₀, if_pos hlt] at h
      split at h
      · split at h
        · exact hsome rfl h
        · exact hsome rfl h
      · exact hsome rfl h
    · rw [if_neg h₀, if_neg hlt] at h
      obtain ⟨s, _, h⟩ := Option.bind_eq_some_iff.1 h
      obtain ⟨n, _, h⟩ := Option.bind_eq_some_iff.1 h
      split at h
      · split at h
        · exact hsome rfl h
        · exact hsome rfl h
      · exact hsome rfl h
  · unfold Fir.generateFixDelay at h
    by_cases hlt : (mxd : ℤ) < ctx.gMaxCopyDelay
    · rw [if_neg h₀, if_pos hlt] at h
      exact hsome rfl h
    · rw [if_neg h₀, if_neg hlt] at h
      obtain ⟨n, _, h⟩ := Option.bind_eq_some_iff.1 h
      exact hsome rfl h

theorem value_currentSample (hv : ctx.vectorMode = true) (vname : String) (mxd : ℕ) :
    Ends (currentSample ctx vname mxd) σ (fun _ => True) fun v σ' =>
      isLiteral v = false ∧ SameProperties σ σ' := by
  unfold currentSample
  apply ends_orOverflow
  · intro v hread
    have hdelayed : delayedRead ctx vname mxd (sigInt 0) .null = some v := by
      rw [delayedRead, if_pos hv]
      exact hread
    exact ⟨isLiteral_of_delayedRead hdelayed, .refl _⟩
  · exact fun _ => trivial

/-- `generateCacheCode` of the vector compiler. -/
theorem gives_generateDAGCacheCode (h : Expression ctx sig w exp) (hσ : Coherent ctx σ)
    (hv : ctx.vectorMode = true) : GivesCode ctx (generateDAGCacheCode ctx sig exp) sig σ := by
  unfold generateDAGCacheCode
  apply Ends.bind (value_getMaxDelay sig)
  rintro d σ₁ ⟨rfl, rfl⟩
  split
  · next hslow =>
    split
    · next hzero => exact gives_generateScalarCacheCode h hσ (Or.inr hzero)
    · next hpos =>
      apply h.gives hσ
      apply Ends.bind (quiet_getTypedNames _ _).ends
      intro a σ₂ h₂
      dsimp only
      split
      · next hshared =>
        have hk : keepsExpression ctx sig = false := keepsExpression_of_shared hshared.1
        apply Ends.bind (value_generateVariableStore sig exp)
        intro b σ₃ h₃
        apply Ends.mono (names_vector (Q := fun v => v = b) (by omega) a.1 fun _ =>
          .pure ⟨rfl, .refl _⟩)
        rintro v σ₄ ⟨rfl, h₄⟩
        exact ⟨Or.inr ⟨h₃.1, hk⟩, (Names.of_same (h₂.trans h₃.2)).trans h₄⟩
      · next hshared =>
        have hk : keepsExpression ctx sig = true ∨ verySimple sig = true := by
          by_cases hs : verySimple sig = true
          · exact Or.inr hs
          · exact Or.inl (keepsExpression_of_unshared (fun hc => hshared ⟨hc, hs⟩)
              (Or.inr (Or.inl hslow)))
        apply Ends.mono (names_vector (Q := fun v => v = exp) (by omega) a.1 fun _ =>
          .pure ⟨rfl, .refl _⟩)
        rintro v σ₃ ⟨rfl, h₃⟩
        exact ⟨Or.inl ⟨rfl, hk⟩, (Names.of_same h₂).trans h₃⟩
  · next hsamp =>
    apply h.gives hσ
    split
    · next hpos =>
      have hk : keepsExpression ctx sig = false := by
        have hle : kSamp ≤ ctx.graph.variability sig := by omega
        simp [keepsExpression, hv, hle, hpos]
      apply Ends.bind (quiet_getTypedNames _ _).ends
      intro a σ₂ h₂
      apply Ends.mono (names_vector (Q := fun v => Cache ctx sig exp v) (by omega) a.1 _)
      · exact fun v σ₃ h₃ => ⟨h₃.1, (Names.of_same h₂).trans h₃.2⟩
      · intro σ₃
        split
        · next hs => exact .pure ⟨Or.inl ⟨rfl, Or.inr hs⟩, .refl _⟩
        · apply Ends.mono (value_currentSample hv _ _)
          exact fun v σ₄ h₄ => ⟨Or.inr ⟨h₄.1, hk⟩, h₄.2⟩
    · next hpos =>
      have hzero : maxDelay ctx sig = 0 := by omega
      split
      · next hshared =>
        have hk : keepsExpression ctx sig = false := keepsExpression_of_shared hshared.1
        apply Ends.bind (quiet_getTypedNames _ _).ends
        intro a σ₂ h₂
        apply Ends.mono (names_vector (Q := fun v => Cache ctx sig exp v)
          (fun _ => h.unnamed hk) a.1 fun _ => .pure ⟨Or.inr ⟨rfl, hk⟩, .refl _⟩)
        exact fun v σ₃ h₃ => ⟨h₃.1, (Names.of_same h₂).trans h₃.2⟩
      · next hshared =>
        have hk : keepsExpression ctx sig = true ∨ verySimple sig = true := by
          by_cases hs : verySimple sig = true
          · exact Or.inr hs
          · exact Or.inl (keepsExpression_of_unshared (fun hc => hshared ⟨hc, hs⟩)
              (Or.inr (Or.inr hzero)))
        exact .pure ⟨Or.inl ⟨rfl, hk⟩, .of_same (.refl _)⟩

theorem gives_generateCacheCode (h : Expression ctx sig w exp) (hσ : Coherent ctx σ) :
    GivesCode ctx (generateCacheCode ctx sig exp) sig σ := by
  unfold generateCacheCode
  split
  · next hv => exact gives_generateDAGCacheCode h hσ hv
  · next hv => exact gives_generateScalarCacheCode h hσ (Or.inl (by simpa using hv))

/-- `forceCacheCode`, which always makes a variable. -/
theorem gives_forceCacheCode (h : Expression ctx sig none exp) (hσ : Coherent ctx σ) :
    GivesCode ctx (forceCacheCode ctx sig exp) sig σ := by
  have hlit : literalCode ctx sig = none := by
    rw [h.literal, ite_self]
  have hgives : ∀ {f : M ValueInst}, (Ends f σ (fun _ => True) fun v σ' =>
      isLiteral v = false ∧ Names ctx sig σ σ') → GivesCode ctx f sig σ := by
    intro f hf
    apply Ends.mono hf
    exact fun v σ' hv => ⟨hv.2.coherent hσ, .of_not_literal hlit hv.1,
      fun hp => absurd hp h.not_projection⟩
  unfold forceCacheCode
  apply gives_unlessCompiled hσ
  apply hgives
  apply Ends.bind (value_getMaxDelay sig)
  rintro d σ₁ ⟨rfl, rfl⟩
  split
  · next hpos =>
    apply Ends.bind (quiet_getTypedNames _ _).ends
    intro a σ₂ h₂
    apply Ends.bind (value_generateVariableStore sig exp)
    intro b σ₃ h₃
    apply Ends.mono (value_generateDelayVec b a.1 a.2 hpos)
    intro v σ₄ h₄
    refine ⟨?_, (Names.of_same (h₂.trans h₃.2)).trans h₄.2⟩
    rcases h₄.1 with rfl | hv
    · exact h₃.1
    · exact hv.2
  · apply Ends.mono (value_generateVariableStore sig exp)
    exact fun v σ₂ h₂ => ⟨h₂.1, .of_same h₂.2⟩

/-! ## The expressions of signals -/

/-- A signal that is no number, cast, attachment or delay. -/
structure IsOther (sig : Tree) : Prop where
  int : ∀ i br, sig ≠ .node (.int i) br
  double : ∀ x br, sig ≠ .node (.double x) br
  intCast : ∀ x, sig ≠ .node (.sym .sigIntCast) [x]
  floatCast : ∀ x, sig ≠ .node (.sym .sigFloatCast) [x]
  attach : ∀ x y, sig ≠ .node (.sym .sigAttach) [x, y]
  fixDelay : ∀ x y, sig ≠ .node (.sym .sigFixDelay) [x, y]

theorem IsOther.literalCode (h : IsOther sig) : literalCode ctx sig = none := by
  unfold Codegen.literalCode
  split
  · exact absurd rfl (h.int _ _)
  · exact absurd rfl (h.double _ _)
  · exact absurd rfl (h.intCast _)
  · exact absurd rfl (h.floatCast _)
  · exact absurd rfl (h.attach _ _)
  · exact absurd rfl (h.fixDelay _ _)
  · rfl

theorem IsOther.build (h : IsOther sig) (e : Expressions) (itfloat : VarType) (g : Graph)
    (args : List ValueInst) (c : InstructionsCompiler) :
    isLiteral (e.build itfloat g sig args c).1 = false := by
  unfold Expressions.build
  split
  · exact absurd rfl (h.int _ _)
  · exact absurd rfl (h.double _ _)
  · exact absurd rfl (h.intCast _)
  · exact absurd rfl (h.floatCast _)
  · unfold Power.generatePower Power.generateCode
    dsimp only
    split <;> rfl
  · exact (e.other sig args c).1.2

variable {c : Call}

/-- The other functions are called for the other signals. -/
theorem isOther_of_dispatch (h : dispatch sig = some c) (hn : c ≠ .generateNumber)
    (hc : ∀ ops, c ≠ .generateCached ops) (ha : ∀ x y, c ≠ .generateAttach x y)
    (hd : ∀ x y, c ≠ .generateFixDelay x y) : IsOther sig where
  int _ _ heq := hn (Option.some.inj (h.symm.trans (heq ▸ rfl)))
  double _ _ heq := hn (Option.some.inj (h.symm.trans (heq ▸ rfl)))
  intCast x heq := hc [x] (Option.some.inj (h.symm.trans (heq ▸ rfl)))
  floatCast x heq := hc [x] (Option.some.inj (h.symm.trans (heq ▸ rfl)))
  attach x y heq := ha x y (Option.some.inj (h.symm.trans (heq ▸ rfl)))
  fixDelay x y heq := hd x y (Option.some.inj (h.symm.trans (heq ▸ rfl)))

theorem cached_cases {ops : List Tree} (h : dispatch sig = some (.generateCached ops)) :
    (∃ x, ops = [x] ∧ sig = .node (.sym .sigIntCast) [x]) ∨
      (∃ x, ops = [x] ∧ sig = .node (.sym .sigFloatCast) [x]) ∨ IsOther sig := by
  by_cases hi : ∃ x, sig = .node (.sym .sigIntCast) [x]
  · obtain ⟨x, rfl⟩ := hi
    have hops : Call.generateCached [x] = .generateCached ops := Option.some.inj h
    exact Or.inl ⟨x, (Call.generateCached.inj hops).symm, rfl⟩
  by_cases hf : ∃ x, sig = .node (.sym .sigFloatCast) [x]
  · obtain ⟨x, rfl⟩ := hf
    have hops : Call.generateCached [x] = .generateCached ops := Option.some.inj h
    exact Or.inr (Or.inl ⟨x, (Call.generateCached.inj hops).symm, rfl⟩)
  have hne : ∀ {c'}, dispatch sig = some c' → c' = .generateCached ops := fun h' =>
    Option.some.inj (h'.symm.trans h)
  refine Or.inr (Or.inr ⟨?_, ?_, fun x hx => hi ⟨x, hx⟩, fun x hx => hf ⟨x, hx⟩, ?_, ?_⟩)
  · rintro i br rfl
    cases hne rfl
  · rintro x br rfl
    cases hne rfl
  · rintro x y rfl
    cases hne rfl
  · rintro x y rfl
    cases hne rfl

theorem number_cases (h : dispatch sig = some .generateNumber) :
    (∃ i br, sig = .node (.int i) br) ∨ (∃ x br, sig = .node (.double x) br) ∨ IsOther sig := by
  by_cases hi : ∃ i br, sig = .node (.int i) br
  · exact Or.inl hi
  by_cases hd : ∃ x br, sig = .node (.double x) br
  · exact Or.inr (Or.inl hd)
  have hne : ∀ {c'}, dispatch sig = some c' → c' = .generateNumber := fun h' =>
    Option.some.inj (h'.symm.trans h)
  refine Or.inr (Or.inr ⟨fun i br hx => hi ⟨i, br, hx⟩, fun x br hx => hd ⟨x, br, hx⟩,
    ?_, ?_, ?_, ?_⟩)
  · rintro x rfl
    cases hne rfl
  · rintro x rfl
    cases hne rfl
  · rintro x y rfl
    cases hne rfl
  · rintro x y rfl
    cases hne rfl

theorem not_isProjection_of_dispatch (h : dispatch sig = some c)
    (hc : ∀ i r, c ≠ .generateRecProj i r) : ¬ IsProjection sig := by
  rintro ⟨i, r, hp⟩
  exact hc i r (Option.some.inj (h.symm.trans hp))

theorem IsOther.expression (h : IsOther sig) (hp : ¬ IsProjection sig)
    (hexp : isLiteral exp = false) : Expression ctx sig none exp where
  literal := by rw [h.literalCode, ite_self]
  simple _ := rfl
  isCode _ := hexp
  not_projection := hp

section
variable {e : Expressions} (hbuild : ctx.build = e.build ctx.itfloat ctx.graph)
include hbuild

theorem expression_cached {ops : List Tree} {args : List ValueInst} {k : InstructionsCompiler}
    (h : dispatch sig = some (.generateCached ops)) (hargs : List.Forall₂ (Agrees ctx) ops args) :
    ∃ w, Expression ctx sig w (ctx.build sig args k).1 := by
  have hp := not_isProjection_of_dispatch h (by simp)
  rw [hbuild]
  obtain ⟨x, rfl, rfl⟩ | ⟨x, rfl, rfl⟩ | hother := cached_cases h
  · obtain ⟨v, _, hv, hnil, rfl⟩ := List.forall₂_cons_left_iff.1 hargs
    obtain rfl := List.forall₂_nil_left_iff.1 hnil
    exact ⟨(literalCode ctx x).map (genCastNumInst · .kInt), rfl, by simp [verySimple],
      fun hbare => (hv hbare).cast _, hp⟩
  · obtain ⟨v, _, hv, hnil, rfl⟩ := List.forall₂_cons_left_iff.1 hargs
    obtain rfl := List.forall₂_nil_left_iff.1 hnil
    exact ⟨(literalCode ctx x).map (genCastNumInst · ctx.itfloat), rfl, by simp [verySimple],
      fun hbare => (hv hbare).cast _, hp⟩
  · exact ⟨none, hother.expression hp (hother.build _ _ _ _ _)⟩

theorem value_buildCode (h : IsOther sig) (args : List ValueInst) :
    Ends (buildCode ctx sig args) σ (fun _ => True) fun v σ' =>
      isLiteral v = false ∧ SameProperties σ σ' := by
  refine Ends.modifyGet ⟨?_, rfl, rfl⟩
  dsimp only
  rw [hbuild]
  exact h.build _ _ _ _ _

end

theorem isProj_iff : isProj sig = true ↔ IsProjection sig := by
  constructor
  · intro h
    unfold isProj at h
    split at h
    · exact ⟨_, _, rfl⟩
    · cases h
  · intro h
    obtain ⟨i, br, r, rfl⟩ := h.exists_eq
    rfl

theorem eq_of_dispatch_fixDelay {x y : Tree} (h : dispatch sig = some (.generateFixDelay x y)) :
    sig = .node (.sym .sigFixDelay) [x, y] := by
  unfold dispatch at h
  split at h
  all_goals
    simp only [Option.some.injEq, reduceCtorEq, Call.generateFixDelay.injEq] at h
  rw [h.1, h.2]

theorem eq_of_dispatch_attach {x y : Tree} (h : dispatch sig = some (.generateAttach x y)) :
    sig = .node (.sym .sigAttach) [x, y] := by
  unfold dispatch at h
  split at h
  all_goals
    simp only [Option.some.injEq, reduceCtorEq, Call.generateAttach.injEq] at h
  rw [h.1, h.2]

/-! ## The functions that compile a signal -/

variable {f : Tree → M ValueInst}

/-- The operands are compiled. -/
theorem GivesCodes.list (hf : GivesCodes ctx f) {l : List Tree} (hσ : Coherent ctx σ) :
    Ends (l.mapM f) σ (fun _ => True) fun args σ' =>
      Coherent ctx σ' ∧ List.Forall₂ (Agrees ctx) l args := by
  induction l generalizing σ with
  | nil =>
    rw [List.mapM_nil]
    exact .pure ⟨hσ, .nil⟩
  | cons t l ih =>
    rw [List.mapM_cons]
    apply Ends.bind (hf t σ hσ)
    intro v σ₁ h₁
    apply Ends.bind (ih h₁.1)
    intro vs σ₂ h₂
    exact .pure ⟨h₂.1, .cons h₁.2.1 h₂.2⟩

/-- The value of a computation that gives no literal is the code of a signal that has none. -/
theorem gives_of_not_literal (hsig : literalCode ctx sig = none) (hp : ¬ IsProjection sig)
    {x : M ValueInst} (hx : Ends x σ (fun _ => True) fun v σ' =>
      Coherent ctx σ' ∧ isLiteral v = false) : GivesCode ctx x sig σ :=
  Ends.mono hx fun _ _ h => ⟨h.1, .of_not_literal hsig h.2, fun h' => absurd h' hp⟩

theorem gives_generateAttach {x y : Tree} (h : dispatch sig = some (.generateAttach x y))
    (hf : GivesCodes ctx f) (hσ : Coherent ctx σ) :
    GivesCode ctx (do
      let _ ← f y
      generateCacheCode ctx sig (← f x)) sig σ := by
  have hp := not_isProjection_of_dispatch h (by simp)
  obtain rfl := eq_of_dispatch_attach h
  apply Ends.bind (hf y σ hσ)
  intro _ σ₁ h₁
  apply Ends.bind (hf x σ₁ h₁.1)
  intro v σ₂ h₂
  exact gives_generateCacheCode (w := literalCode ctx x) ⟨rfl, by simp [verySimple], h₂.2.1, hp⟩ h₂.1

theorem gives_generateFixDelay {x y : Tree} (h : dispatch sig = some (.generateFixDelay x y))
    (hf : GivesCodes ctx f) (hσ : Coherent ctx σ) :
    GivesCode ctx (generateFixDelay ctx f x y) sig σ := by
  have hp := not_isProjection_of_dispatch h (by simp)
  obtain rfl := eq_of_dispatch_fixDelay h
  unfold generateFixDelay
  apply Ends.bind (hf x σ hσ)
  intro code σ₁ h₁
  apply Ends.bind (value_getMaxDelay x)
  rintro d σ₂ ⟨rfl, rfl⟩
  apply Ends.bind (ends_getVectorNameProperty (Q := fun a σ₃ => a = σ₂.fVectorProperty x ∧
    σ₃ = σ₂) ⟨rfl, rfl⟩)
  rintro a σ₃ ⟨ha, rfl⟩
  split
  · split
    · next hzero =>
      -- a projection has a name, so `x` is none
      have hx : isProj x = false := by
        rw [Bool.eq_false_iff]
        intro hproj
        have hnamed := h₁.2.2 (isProj_iff.1 hproj)
        rw [Compiler.Named, ← ha] at hnamed
        cases hnamed
      refine .pure ⟨h₁.1, fun hbare => ?_, fun h' => absurd h' hp⟩
      have hxbare : isBareProjection x = false := by
        simpa [isBareProjection, hx] using hbare
      have hcode := h₁.2.1 hxbare
      rw [Codegen.literalCode, if_pos hzero]
      exact hcode
    · exact .throw trivial
  · next vname =>
    have hnamed : σ₃.Named x := by
      rw [Compiler.Named, ← ha]
      rfl
    have hlit : literalCode ctx (.node (.sym .sigFixDelay) [x, y]) = none := by
      rw [Codegen.literalCode]
      split
      · next hzero => exact h₁.1.unnamed x hnamed hzero
      · rfl
    have hread : ∀ {code σ'}, Coherent ctx σ' →
        Ends (orOverflow (delayedRead ctx vname (maxDelay ctx x) y code)) σ' (fun _ => True)
          fun v σ' => Coherent ctx σ' ∧ isLiteral v = false := fun hσ' =>
      ends_orOverflow (fun v hv => ⟨hσ', isLiteral_of_delayedRead hv⟩) fun _ => trivial
    apply gives_of_not_literal hlit hp
    split
    · exact hread h₁.1
    · apply Ends.bind (hf y σ₃ h₁.1)
      intro d σ₄ h₄
      exact hread h₄.1

theorem gives_generatePrefix {x y : Tree} (h : dispatch sig = some (.generatePrefix x y))
    (hf : GivesCodes ctx f) (hσ : Coherent ctx σ) :
    GivesCode ctx (generatePrefix ctx f sig x y) sig σ := by
  have hother := isOther_of_dispatch h (by simp) (by simp) (by simp) (by simp)
  apply gives_of_not_literal hother.literalCode (not_isProjection_of_dispatch h (by simp))
  unfold generatePrefix
  apply Ends.bind (quiet_getFreshID _).ends
  intro vperm σ₁ h₁
  apply Ends.bind (quiet_getFreshID _).ends
  intro vtemp σ₂ h₂
  apply Ends.bind (quiet_push _).ends
  intro _ σ₃ h₃
  apply Ends.bind (hf x σ₃ ((h₁.trans (h₂.trans h₃)).coherent hσ))
  intro vx σ₄ h₄
  apply Ends.bind (quiet_push _).ends
  intro _ σ₅ h₅
  apply Ends.bind (quiet_push _).ends
  intro _ σ₆ h₆
  apply Ends.bind (hf y σ₆ ((h₅.trans h₆).coherent h₄.1))
  intro vy σ₇ h₇
  apply Ends.bind (quiet_push _).ends
  intro _ σ₈ h₈
  exact .pure ⟨h₈.coherent h₇.1, rfl⟩

/-- A signal that is compiled once. -/
theorem gives_compileOnce (hσ : Coherent ctx σ) {generate : M ValueInst}
    (hg : GivesCode ctx generate sig σ) : GivesCode ctx (compileOnce sig generate) sig σ := by
  have heq : compileOnce sig generate = (getCompiledExpression sig >>= fun code =>
      match code with
      | some code => pure code
      | _ => do
        let code ← generate
        setCompiledExpression sig code
        return code) := by
    unfold compileOnce
    congr 1
    funext code
    cases code <;> rfl
  rw [heq]
  apply gives_unlessCompiled hσ
  apply Ends.bind hg
  intro v σ₁ h₁
  apply Ends.bind (Ends.modify (Q := fun _ σ₂ => σ₂ = { σ₁ with
    fCompileProperty := Function.update σ₁.fCompileProperty sig (some v) }) rfl)
  rintro _ σ₂ rfl
  exact .pure ⟨h₁.1.setCode h₁.2.1 h₁.2.2, h₁.2.1, h₁.2.2⟩

/-- The computations on the elements of a list. -/
theorem coherent_mapM {α β : Type} {x : α → M β} {l : List α}
    (hx : ∀ a ∈ l, ∀ σ, Coherent ctx σ → Ends (x a) σ (fun _ => True) fun _ σ' => Coherent ctx σ')
    (hσ : Coherent ctx σ) : Ends (l.mapM x) σ (fun _ => True) fun _ σ' => Coherent ctx σ' :=
  Ends.mono (Ends.mapM (I := Coherent ctx) (G := fun _ _ => True) (P := fun _ _ => True)
    (fun _ => trivial) (fun _ _ => trivial) (fun _ _ => trivial)
    (fun a ha s hs => Ends.mono (hx a ha s hs) fun _ _ h => ⟨h, trivial, trivial⟩) hσ)
    fun _ _ h => h.1

/-- The code of a recursive group. Only projections are named. -/
theorem coherent_generateRec {r : Tree} {le : List Tree} {index : Option ℕ}
    (hf : GivesCodes ctx f) (hσ : Coherent ctx σ) :
    Ends (generateRec ctx f r le index) σ (fun _ => True) fun _ σ' => Coherent ctx σ' := by
  unfold generateRec nameProjections
  apply Ends.bind (coherent_mapM (fun d _ σ hσ => ?_) hσ)
  · intro names σ₁ h₁
    apply Ends.bind (coherent_mapM (fun d _ σ hσ => ?_) h₁)
    · exact fun _ _ h₂ => .pure h₂
    · apply Ends.bind (value_getMaxDelay _)
      rintro delay σ₂ ⟨_, rfl⟩
      apply Ends.bind (hf _ _ hσ)
      intro code σ₃ h₃
      apply Ends.mono (value_generateDelayLine _ _ _ _)
      exact fun _ _ h₄ => h₄.2.coherent h₃.1
  · apply Ends.bind (quiet_getTypedNames _ _).ends
    intro names σ₁ h₁
    apply Ends.bind (Ends.modify (Q := fun _ σ₂ => Coherent ctx σ₂) _)
    · exact fun _ _ h₂ => .pure h₂
    · exact (Names.of_set fun _ =>
        literalCode_of_isProjection (isProjection_sigProj d.2 r)).coherent (h₁.coherent hσ)

theorem gives_generateRecProj {i : ℕ} {r : Tree}
    (h : dispatch sig = some (.generateRecProj i r)) (hf : GivesCodes ctx f)
    (hσ : Coherent ctx σ) : GivesCode ctx (generateRecProj ctx f sig r i) sig σ := by
  have hp : IsProjection sig := ⟨i, r, h⟩
  have hgives : ∀ {v σ'}, Coherent ctx σ' → σ'.Named sig →
      Coherent ctx σ' ∧ Agrees ctx sig v ∧ (IsProjection sig → σ'.Named sig) := fun hσ' hn =>
    ⟨hσ', .of_isProjection hp, fun _ => hn⟩
  unfold generateRecProj
  apply Ends.bind (ends_getVectorNameProperty (Q := fun a σ₁ => a = σ.fVectorProperty sig ∧
    σ₁ = σ) ⟨rfl, rfl⟩)
  rintro a σ₁ ⟨ha, rfl⟩
  split
  · refine .pure (hgives hσ ?_)
    rw [Compiler.Named, ← ha]
    rfl
  · split
    · exact .throw trivial
    · apply Ends.bind (coherent_generateRec hf hσ)
      intro res σ₂ h₂
      apply Ends.bind (ends_getVectorNameProperty (Q := fun a σ₃ => a = σ₂.fVectorProperty sig ∧
        σ₃ = σ₂) ⟨rfl, rfl⟩)
      rintro a σ₃ ⟨ha₂, rfl⟩
      split
      · exact Ends.bind (Ends.throw (Q := fun _ _ => False) trivial) fun _ _ h => h.elim
      · next hnone =>
        refine .pure (hgives h₂ ?_)
        rw [Compiler.Named, ← ha₂]
        simpa [Option.isSome_iff_ne_none] using hnone

section
variable {e : Expressions} (hbuild : ctx.build = e.build ctx.itfloat ctx.graph)
include hbuild

theorem gives_generateCached {ops : List Tree} (h : dispatch sig = some (.generateCached ops))
    (hf : GivesCodes ctx f) (hσ : Coherent ctx σ) :
    GivesCode ctx (do
      let args ← ops.mapM f
      generateCacheCode ctx sig (← buildCode ctx sig args)) sig σ := by
  apply Ends.bind (hf.list hσ)
  intro args σ₁ h₁
  apply Ends.bind (Ends.modifyGet (Q := fun exp σ₂ => exp = (ctx.build sig args σ₁.code).1 ∧
    SameProperties σ₁ σ₂) ⟨rfl, rfl, rfl⟩)
  rintro exp σ₂ ⟨rfl, h₂⟩
  obtain ⟨w, hw⟩ := expression_cached (k := σ₁.code) hbuild h h₁.2
  exact gives_generateCacheCode hw (h₂.coherent h₁.1)

theorem gives_generateNumber (h : dispatch sig = some .generateNumber) (hσ : Coherent ctx σ) :
    GivesCode ctx (generateNumber ctx sig) sig σ := by
  have hp := not_isProjection_of_dispatch h (by simp)
  have hnum : ∀ k, Agrees ctx sig (ctx.build sig [] k).1 := by
    intro k _
    rw [hbuild]
    obtain ⟨i, br, rfl⟩ | ⟨x, br, rfl⟩ | hother := number_cases h
    · exact rfl
    · exact rfl
    · rw [hother.literalCode]
      exact hother.build _ _ _ _ _
  unfold generateNumber
  apply Ends.bind (Ends.modifyGet (Q := fun num σ₁ => Agrees ctx sig num ∧
    SameProperties σ σ₁) ⟨hnum _, rfl, rfl⟩)
  rintro num σ₁ ⟨hagrees, h₁⟩
  apply Ends.bind (value_getMaxDelay sig)
  rintro d σ₂ ⟨rfl, rfl⟩
  split
  · next hpos =>
    apply Ends.bind (quiet_getTypedNames _ _).ends
    intro a σ₃ h₃
    apply Ends.bind (value_generateDelayVec num a.1 a.2 hpos)
    intro _ σ₄ h₄
    exact .pure ⟨h₄.2.coherent ((h₁.trans h₃).coherent hσ), hagrees, fun h' => absurd h' hp⟩
  · exact .pure ⟨h₁.coherent hσ, hagrees, fun h' => absurd h' hp⟩

theorem gives_generateInput (h : dispatch sig = some .generateInput) (hσ : Coherent ctx σ) :
    GivesCode ctx (generateInput ctx sig) sig σ := by
  have hother := isOther_of_dispatch h (by simp) (by simp) (by simp) (by simp)
  have hp := not_isProjection_of_dispatch h (by simp)
  unfold generateInput
  apply Ends.bind (value_buildCode hbuild hother [])
  intro exp σ₁ h₁
  have hexp : Expression ctx sig none exp := hother.expression hp h₁.1
  split
  · exact gives_forceCacheCode hexp (h₁.2.coherent hσ)
  · exact gives_generateCacheCode hexp (h₁.2.coherent hσ)

/-- The functions whose value is the expression itself. -/
theorem gives_buildCode (hother : IsOther sig) (hp : ¬ IsProjection sig) (args : List ValueInst)
    (hσ : Coherent ctx σ) : GivesCode ctx (buildCode ctx sig args) sig σ :=
  gives_of_not_literal hother.literalCode hp <|
    Ends.mono (value_buildCode hbuild hother args) fun _ _ h => ⟨h.2.coherent hσ, h.1⟩

theorem gives_generateTable {size content : Tree}
    (h : dispatch sig = some (.generateTable size content)) (hf : GivesCodes ctx f)
    (hσ : Coherent ctx σ) : GivesCode ctx (generateTable ctx f sig size content) sig σ := by
  have hother := isOther_of_dispatch h (by simp) (by simp) (by simp) (by simp)
  have hp := not_isProjection_of_dispatch h (by simp)
  unfold generateTable
  apply Ends.bind (hf content σ hσ)
  intro generator σ₁ h₁
  dsimp only
  split
  · exact Ends.bind (Ends.throw (Q := fun _ _ => False) trivial) fun _ _ h => h.elim
  · split
    · exact Ends.bind (Ends.throw (Q := fun _ _ => False) trivial) fun _ _ h => h.elim
    · exact gives_buildCode hbuild hother hp _ h₁.1

theorem gives_generateWRTbl {tbl idx data : Tree}
    (h : dispatch sig = some (.generateWRTbl tbl idx data)) (hf : GivesCodes ctx f)
    (hσ : Coherent ctx σ) : GivesCode ctx (generateWRTbl ctx f sig tbl idx data) sig σ := by
  have hother := isOther_of_dispatch h (by simp) (by simp) (by simp) (by simp)
  unfold generateWRTbl
  apply Ends.bind (hf.list hσ)
  intro args σ₁ h₁
  exact gives_buildCode hbuild hother (not_isProjection_of_dispatch h (by simp)) _ h₁.1

theorem gives_generateSigGen {content : Tree}
    (h : dispatch sig = some (.generateSigGen content)) (hσ : Coherent ctx σ) :
    GivesCode ctx (generateSigGen ctx sig content) sig σ := by
  have hother := isOther_of_dispatch h (by simp) (by simp) (by simp) (by simp)
  unfold generateSigGen
  apply Ends.bind (Q := fun _ σ₁ => σ₁ = σ)
  · unfold Ends StateT.lift
    cases ctx.signal2Container content with
    | ok _ => exact rfl
    | error _ => exact trivial
  · rintro _ σ₁ rfl
    exact gives_buildCode hbuild hother (not_isProjection_of_dispatch h (by simp)) _ hσ

theorem gives_generateStaticTable {size content : Tree}
    (h : dispatch sig = some (.generateTable size content)) (hσ : Coherent ctx σ) :
    GivesCode ctx (generateStaticTable ctx sig size content) sig σ := by
  have hother := isOther_of_dispatch h (by simp) (by simp) (by simp) (by simp)
  unfold generateStaticTable
  split
  · exact .throw trivial
  · next g hg =>
    apply Ends.bind (gives_compileOnce hσ
      (gives_generateSigGen hbuild (dispatch_of_isSigGen hg) hσ))
    intro cexp σ₁ h₁
    split
    · exact Ends.bind (Ends.throw (Q := fun _ _ => False) trivial) fun _ _ h => h.elim
    · exact gives_buildCode hbuild hother (not_isProjection_of_dispatch h (by simp)) _ h₁.1

theorem gives_generateRDTbl {tbl idx : Tree} (h : dispatch sig = some (.generateRDTbl tbl idx))
    (hf : GivesCodes ctx f) (hσ : Coherent ctx σ) :
    GivesCode ctx (generateRDTbl ctx f sig tbl idx) sig σ := by
  have hother := isOther_of_dispatch h (by simp) (by simp) (by simp) (by simp)
  unfold generateRDTbl
  apply Ends.bind (Q := fun _ σ₁ => Coherent ctx σ₁)
  · unfold compileTable
    split
    · next size content hsize =>
      exact Ends.mono (gives_compileOnce hσ
        (gives_generateStaticTable hbuild (dispatch_of_isSigTable hsize) hσ)) fun _ _ h => h.1
    · exact Ends.mono (hf tbl σ hσ) fun _ _ h => h.1
  · intro tblname σ₁ h₁
    apply Ends.bind (hf idx σ₁ h₁)
    intro i σ₂ h₂
    apply Ends.bind (value_buildCode hbuild hother _)
    intro exp σ₃ h₃
    exact gives_generateCacheCode (hother.expression (not_isProjection_of_dispatch h (by simp)) h₃.1)
      (h₃.2.coherent h₂.1)

/-! ## `CS` -/

theorem gives_generateCode (hf : GivesCodes ctx f) (hσ : Coherent ctx σ) :
    GivesCode ctx (generateCode ctx f sig) sig σ := by
  unfold generateCode
  apply gives_unlessCompiled hσ
  split
  · exact .throw trivial
  · next ops h => exact gives_generateCached hbuild h hf hσ
  · next h => exact gives_generateNumber hbuild h hσ
  · next h => exact gives_generateInput hbuild h hσ
  · next x y h => exact gives_generateFixDelay h hf hσ
  · next x y h => exact gives_generatePrefix h hf hσ
  · next h =>
    have hother := isOther_of_dispatch h (by simp) (by simp) (by simp) (by simp)
    exact gives_of_not_literal hother.literalCode (not_isProjection_of_dispatch h (by simp))
      (.pure ⟨hσ, rfl⟩)
  · next size content h => exact gives_generateTable hbuild h hf hσ
  · next tbl idx data h => exact gives_generateWRTbl hbuild h hf hσ
  · next tbl idx h => exact gives_generateRDTbl hbuild h hf hσ
  · next content h => exact gives_generateSigGen hbuild h hσ
  · next i r h => exact gives_generateRecProj h hf hσ
  · next x y h => exact gives_generateAttach h hf hσ

omit hbuild in
theorem coherent_generateCodeRecursions (hf : GivesCodes ctx f) (size : ℕ) (t : Tree)
    (hσ : Coherent ctx σ) : Ends (generateCodeRecursions ctx f size t) σ (fun _ => True)
      fun _ σ' => Coherent ctx σ' := by
  induction size generalizing t σ with
  | zero => exact .throw trivial
  | succ size ih =>
    rw [generateCodeRecursions]
    apply Ends.bind (ends_getCompiledExpression (Q := fun a σ₁ => a = σ.fCompileProperty t ∧
      σ₁ = σ) ⟨rfl, rfl⟩)
    rintro a σ₁ ⟨_, rfl⟩
    split
    · exact .pure hσ
    · split
      · next le hle =>
        obtain ⟨v, rfl⟩ : ∃ v, t = .node (.sym .symRec) [v] := by
          unfold isRec at hle
          split at hle
          · exact ⟨_, rfl⟩
          · cases hle
        apply Ends.bind (Ends.modify (Q := fun _ σ₂ => Coherent ctx σ₂) _)
        · intro _ σ₂ h₂
          apply Ends.bind (coherent_generateRec hf h₂)
          exact fun _ _ h₃ => .pure h₃
        · refine hσ.setCode (.of_not_literal rfl rfl) ?_
          rintro ⟨i, r, h⟩
          cases h
      · split
        · exact .throw trivial
        · next ss _ =>
          exact Ends.mono (Ends.forM (I := Coherent ctx) (G := fun _ _ => True)
            (P := fun _ _ => True) (fun _ => trivial) (fun _ _ => trivial)
            (fun _ _ => trivial)
            (fun s _ σ₂ h₂ => Ends.mono (ih s h₂) fun _ _ h => ⟨h, trivial, trivial⟩) hσ)
            fun _ _ h => h.1

/-- `CS` gives each signal the code that the signal says. -/
theorem givesCodes_CS (fuel : ℕ) : GivesCodes ctx (CS ctx fuel) := by
  induction fuel with
  | zero => exact fun t σ _ => .throw trivial
  | succ fuel ih =>
    intro t σ hσ
    rw [CS]
    apply gives_unlessCompiled hσ
    have hend : ∀ {σ₁}, Coherent ctx σ₁ → GivesCode ctx (do
        let code ← generateCode ctx (CS ctx fuel) t
        setCompiledExpression t code
        return code) t σ₁ := by
      intro σ₁ h₁
      apply Ends.bind (gives_generateCode hbuild ih h₁)
      intro v σ₂ h₂
      apply Ends.bind (Ends.modify (Q := fun _ σ₃ => σ₃ = { σ₂ with
        fCompileProperty := Function.update σ₂.fCompileProperty t (some v) }) rfl)
      rintro _ σ₃ rfl
      exact .pure ⟨h₂.1.setCode h₂.2.1 h₂.2.2, h₂.2.1, h₂.2.2⟩
    dsimp only
    split
    · apply Ends.bind (coherent_generateCodeRecursions ih _ t hσ)
      exact fun _ _ h₁ => hend h₁
    · exact hend hσ

/-- After the compilation of any signals, the code of each one is as the signal says. -/
theorem coherent_signals (fuel : ℕ) (signals : List Tree) :
    Ends (signals.mapM (CS ctx fuel)) .start (fun _ => True) fun _ σ => Coherent ctx σ := by
  apply coherent_mapM fun t _ σ hσ => Ends.mono (givesCodes_CS hbuild fuel t σ hσ) fun _ _ h => h.1
  constructor
  · intro t v h
    cases h
  · intro t h
    cases h
  · intro t h
    cases h

end

/-- How the contents of tables are compiled does not change which code is a literal. -/
theorem literalCode_of_context {o : Options} {g : Graph} {k : Container} {marks : Marks}
    {sharing : Sharing} (sub sub' : Tree → Except Failure Unit) (t : Tree) :
    literalCode (k.context o g marks sharing sub) t =
      literalCode (k.context o g marks sharing sub') t := by
  have hkeeps : ∀ u, keepsExpression (k.context o g marks sharing sub') u =
      keepsExpression (k.context o g marks sharing sub) u := fun _ => rfl
  have hmax : ∀ u, maxDelay (k.context o g marks sharing sub') u =
      maxDelay (k.context o g marks sharing sub) u := fun _ => rfl
  fun_induction literalCode (k.context o g marks sharing sub) t with
  | case1 | case2 => rfl
  | case3 x hk ih => rw [literalCode, hkeeps, if_pos hk, ih]
  | case5 x hk ih =>
    rw [literalCode, hkeeps, if_pos hk, ih]
    rfl
  | case4 x hk | case6 x hk => rw [literalCode, hkeeps, if_neg hk]
  | case7 x y hk ih => rw [literalCode, hkeeps, if_pos hk, ih]
  | case8 x y hk => rw [literalCode, hkeeps, if_neg hk]
  | case9 x y hzero ih => rw [literalCode, hmax, if_pos hzero, ih]
  | case10 x y hzero => rw [literalCode, hmax, if_neg hzero]
  | case11 t hint hdouble hi hf ha hd =>
    exact (IsOther.literalCode ⟨hint, hdouble, hi, hf, ha, hd⟩).symm

end

end Faust.Codegen
