import Faust.Generator.OccurencesTheorems
import Faust.Generator.SignalCompiler
import Faust.Lib.Outcome
import Faust.Signals.TableTypeTheorems

/-!
# The vectors of delayed signals

A compilation fails when it comes to a signal that is used delayed and has no vector, and only
then. The proof follows the calls of `CS`: what they compile is in `Compiled`, and once a signal is
compiled so is all that it needs.
-/

namespace Faust.Codegen

open Faust.Tree Faust.Fir Outcome
open Faust.Occ hiding isSigGen
open Shape

/-! ## Calls -/

section

attribute [local simp] dispatch isRec Call.operands Call.subsignals Call.checks Call.recordsName

theorem isRec_of_dispatch {g : Graph} {t : Tree} {c : Call} (h : dispatch t = some c) :
    isRec g t = none := by
  unfold isRec
  split
  · simp at h
  · rfl

/-- The signals that a call may compile are below. -/
theorem mem_getSubSignals_of_dispatch {t u : Tree} {c : Call} (h : dispatch t = some c)
    (hu : u ∈ c.subsignals) : ∃ ss, Faust.getSubSignals false t = some ss ∧ u ∈ ss := by
  unfold dispatch at h
  split at h
  all_goals
    simp only [Option.some.injEq, reduceCtorEq] at h
    try subst h
    try simp at hu
  all_goals first
    | exact ⟨_, rfl, hu⟩
    | exact ⟨_, rfl, List.mem_of_mem_take hu⟩
    | (refine ⟨_, rfl, ?_⟩
       simp only [List.mem_cons, List.not_mem_nil, or_false] at hu ⊢
       tauto)

theorem size_lt_of_dispatch {t u : Tree} {c : Call} (h : dispatch t = some c)
    (hu : u ∈ c.subsignals) : u.size < t.size := by
  obtain ⟨ss, hss, hu⟩ := mem_getSubSignals_of_dispatch h hu
  exact size_lt_of_mem_getSubSignals hss hu

end

/-! ## States -/

/-- The signal has code. -/
def Compiler.Coded (σ : Compiler) (t : Tree) : Prop := (σ.fCompileProperty t).isSome

/-- The signal has a vector. -/
def Compiler.Named (σ : Compiler) (t : Tree) : Prop := (σ.fVectorProperty t).isSome

/-- The signal is a projection. -/
def IsProjection (t : Tree) : Prop := ∃ i r, dispatch t = some (.generateRecProj i r)

section
variable (ctx : Context) (signals : List Tree)

/-- The compilation of the group has begun. -/
def Entered (σ : Compiler) (r : Tree) : Prop :=
  if ctx.vectorMode then σ.Coded r else ∀ d ∈ definitionsOf ctx r, σ.Named (sigProj d.2 r)

/-- The definition is compiled, and its line is made. -/
def LineDone (r : Tree) (d : Tree × ℕ) (σ : Compiler) : Prop :=
  σ.Coded d.1 ∧
    (0 < maxDelay ctx (sigProj d.2 r) → lineFits ctx (maxDelay ctx (sigProj d.2 r)))

/-- The group is compiled. -/
def Done (σ : Compiler) (r : Tree) : Prop :=
  ∀ d ∈ definitionsOf ctx r, σ.Named (sigProj d.2 r) ∧ LineDone ctx r d σ

/-- What holds whenever `CS` is called, and when it returns. -/
structure Inv (σ : Compiler) : Prop where
  compiled : ∀ t, σ.Coded t → Compiled ctx signals t ∨ (isRec ctx.graph t).isSome
  recorded : ∀ t, σ.Named t → Compiled ctx signals t ∧ ∃ c, dispatch t = some c ∧ c.recordsName
  coded : ∀ t, σ.Named t → σ.Coded t ∨ IsProjection t
  named : ∀ t c, σ.Coded t → dispatch t = some c → c.recordsName → 0 < maxDelay ctx t → σ.Named t
  fits : ∀ t, σ.Named t → ¬ IsProjection t → 0 < maxDelay ctx t → lineFits ctx (maxDelay ctx t)
  delayed : ∀ t x y v, dispatch t = some (.generateFixDelay x y) →
    σ.fCompileProperty t = some v → 0 < maxDelay ctx x →
      ∃ vname code, delayedRead ctx vname (maxDelay ctx x) y code = some v
  entered : ∀ t r, σ.Coded t → Enters ctx t r → Entered ctx σ r
  names : ∀ r, Entered ctx σ r → ∀ d ∈ definitionsOf ctx r, σ.Named (sigProj d.2 r)
  begun : ∀ r, ∀ d ∈ definitionsOf ctx r, σ.Named (sigProj d.2 r) → Entered ctx σ r

/-- What a compilation adds to a state. What is compiled by it is compiled with all it needs. -/
structure Extends (σ σ' : Compiler) : Prop where
  coded : ∀ t, σ.Coded t → σ'.Coded t
  named : ∀ t, σ.Named t → σ'.Named t
  operands : ∀ t c u, σ'.Coded t → ¬ σ.Coded t → dispatch t = some c → u ∈ c.operands ctx →
    σ'.Coded u
  groups : ∀ r, Entered ctx σ' r → ¬ Entered ctx σ r → Done ctx σ' r

/-- A signal is compiled that cannot be used delayed as it is. -/
def Bad : Prop := ∃ t, Compiled ctx signals t ∧ ¬ CanBeDelayed ctx t

/-- A computation of the compiler that keeps the invariant and gives `Q`, or fails because of a
signal that cannot be used delayed. -/
def Does {α : Type} (x : M α) (σ : Compiler) (Q : α → Compiler → Prop) : Prop :=
  Ends x σ (fun _ => Bad ctx signals) fun a σ' =>
    Inv ctx signals σ' ∧ Extends ctx σ σ' ∧ Q a σ'

/-- The same signals have code and vectors. -/
def SameProperties (σ σ' : Compiler) : Prop :=
  σ'.fCompileProperty = σ.fCompileProperty ∧ σ'.fVectorProperty = σ.fVectorProperty

end

section
variable {ctx : Context} {signals : List Tree} {σ σ' σ₁ σ₂ σ₃ : Compiler}

/-! ## Extension of states -/

theorem Entered.mono {r : Tree} (hc : ∀ t, σ.Coded t → σ'.Coded t)
    (hn : ∀ t, σ.Named t → σ'.Named t) (h : Entered ctx σ r) : Entered ctx σ' r := by
  by_cases hv : ctx.vectorMode = true
  · rw [Entered, if_pos hv] at h ⊢
    exact hc r h
  · rw [Entered, if_neg hv] at h ⊢
    exact fun d hd => hn _ (h d hd)

theorem Done.mono {r : Tree} (hc : ∀ t, σ.Coded t → σ'.Coded t)
    (hn : ∀ t, σ.Named t → σ'.Named t) (h : Done ctx σ r) : Done ctx σ' r := by
  intro d hd
  obtain ⟨hname, hcode, hfits⟩ := h d hd
  exact ⟨hn _ hname, hc _ hcode, hfits⟩

theorem Extends.refl (σ : Compiler) : Extends ctx σ σ where
  coded _ h := h
  named _ h := h
  operands _ _ _ h hn _ _ := absurd h hn
  groups _ h hn := absurd h hn

theorem Extends.trans (h : Extends ctx σ₁ σ₂) (h' : Extends ctx σ₂ σ₃) : Extends ctx σ₁ σ₃ where
  coded t ht := h'.coded t (h.coded t ht)
  named t ht := h'.named t (h.named t ht)
  operands t c u ht hn hc hu := by
    by_cases h₂ : σ₂.Coded t
    · exact h'.coded u (h.operands t c u h₂ hn hc hu)
    · exact h'.operands t c u ht h₂ hc hu
  groups r hr hn := by
    by_cases h₂ : Entered ctx σ₂ r
    · exact (h.groups r h₂ hn).mono h'.coded h'.named
    · exact h'.groups r hr h₂

theorem Extends.entered (h : Extends ctx σ σ') {r : Tree} (hr : Entered ctx σ r) :
    Entered ctx σ' r := hr.mono h.coded h.named

theorem SameProperties.coded_iff (h : SameProperties σ σ') {t : Tree} :
    σ'.Coded t ↔ σ.Coded t := by
  unfold Compiler.Coded
  rw [h.1]

theorem SameProperties.named_iff (h : SameProperties σ σ') {t : Tree} :
    σ'.Named t ↔ σ.Named t := by
  unfold Compiler.Named
  rw [h.2]

theorem SameProperties.refl (σ : Compiler) : SameProperties σ σ := ⟨rfl, rfl⟩

theorem SameProperties.trans (h : SameProperties σ₁ σ₂) (h' : SameProperties σ₂ σ₃) :
    SameProperties σ₁ σ₃ := ⟨h'.1.trans h.1, h'.2.trans h.2⟩

theorem SameProperties.entered_iff (h : SameProperties σ σ') {r : Tree} :
    Entered ctx σ' r ↔ Entered ctx σ r := by
  unfold Entered
  simp only [h.coded_iff, h.named_iff]

theorem SameProperties.extends (h : SameProperties σ σ') : Extends ctx σ σ' where
  coded _ := h.coded_iff.2
  named _ := h.named_iff.2
  operands _ _ _ ht hn _ _ := absurd (h.coded_iff.1 ht) hn
  groups _ hr hn := absurd (h.entered_iff.1 hr) hn

theorem SameProperties.inv (h : SameProperties σ σ') (hσ : Inv ctx signals σ) :
    Inv ctx signals σ' where
  compiled t ht := hσ.compiled t (h.coded_iff.1 ht)
  recorded t ht := hσ.recorded t (h.named_iff.1 ht)
  coded t ht := (hσ.coded t (h.named_iff.1 ht)).imp_left h.coded_iff.2
  named t c ht hc hr hd := h.named_iff.2 (hσ.named t c (h.coded_iff.1 ht) hc hr hd)
  fits t ht := hσ.fits t (h.named_iff.1 ht)
  delayed t x y v hc hv := hσ.delayed t x y v hc (by rwa [h.1] at hv)
  entered t r ht hr := h.entered_iff.2 (hσ.entered t r (h.coded_iff.1 ht) hr)
  names r hr d hd := h.named_iff.2 (hσ.names r (h.entered_iff.1 hr) d hd)
  begun r d hd hn := h.entered_iff.2 (hσ.begun r d hd (h.named_iff.1 hn))

/-! ## Composition -/

theorem Does.bind {α β : Type} {x : M α} {f : α → M β} {Q : α → Compiler → Prop}
    {R : β → Compiler → Prop} (hx : Does ctx signals x σ Q)
    (hf : ∀ a σ', Inv ctx signals σ' → Extends ctx σ σ' → Q a σ' → Does ctx signals (f a) σ' R) :
    Does ctx signals (x >>= f) σ R := by
  apply Ends.bind hx
  intro a σ₁ h₁
  obtain ⟨hI, hE, hQ⟩ := h₁
  apply (hf a σ₁ hI hE hQ).mono
  intro b σ₂ h₂
  exact ⟨h₂.1, hE.trans h₂.2.1, h₂.2.2⟩

theorem Does.mono {α : Type} {x : M α} {Q R : α → Compiler → Prop} (hx : Does ctx signals x σ Q)
    (hQ : ∀ a σ', Inv ctx signals σ' → Extends ctx σ σ' → Q a σ' → R a σ') :
    Does ctx signals x σ R := Ends.mono hx fun a σ' h => ⟨h.1, h.2.1, hQ a σ' h.1 h.2.1 h.2.2⟩

/-- A computation that touches no property and does not fail. -/
def Quiet {α : Type} (x : M α) : Prop :=
  ∀ σ, Ends x σ (fun _ => False) fun _ σ' => SameProperties σ σ'

theorem Quiet.does {α : Type} {x : M α} (hx : Quiet x) (hσ : Inv ctx signals σ) :
    Does ctx signals x σ fun _ σ' => SameProperties σ σ' := by
  have h := (hx σ).cases
  unfold Does Ends
  rcases h with ⟨a, σ', heq, hsame⟩ | ⟨_, _, hfalse⟩
  · rw [heq]
    exact ⟨hsame.inv hσ, hsame.extends, hsame⟩
  · exact hfalse.elim

theorem Quiet.pure {α : Type} (a : α) : Quiet (pure a : M α) := fun σ => .pure (.refl σ)

theorem Quiet.bind {α β : Type} {x : M α} {f : α → M β} (hx : Quiet x) (hf : ∀ a, Quiet (f a)) :
    Quiet (x >>= f) := by
  intro σ
  apply (hx σ).bind
  intro a σ₁ h₁
  exact (hf a σ₁).mono fun _ _ h₂ => h₁.trans h₂

theorem quiet_push (p : Push) : Quiet (push p) := fun _ => .modify ⟨rfl, rfl⟩

theorem quiet_getFreshID (pre : String) : Quiet (getFreshID pre) := fun _ => .modifyGet ⟨rfl, rfl⟩

theorem quiet_buildCode (sig : Tree) (args : List ValueInst) : Quiet (buildCode ctx sig args) :=
  fun _ => .modifyGet ⟨rfl, rfl⟩

theorem quiet_getTypedNames (sig : Tree) (pre : String) : Quiet (getTypedNames ctx sig pre) := by
  unfold getTypedNames
  apply (quiet_getFreshID pre).bind
  intro id
  split <;> exact .pure _

theorem ends_getCompiledExpression {sig : Tree} {E : Failure → Prop}
    {Q : Option ValueInst → Compiler → Prop} (h : Q (σ.fCompileProperty sig) σ) :
    Ends (getCompiledExpression sig) σ E Q := h

theorem ends_getVectorNameProperty {sig : Tree} {E : Failure → Prop}
    {Q : Option String → Compiler → Prop} (h : Q (σ.fVectorProperty sig) σ) :
    Ends (getVectorNameProperty sig) σ E Q := h

theorem ends_getMaxDelay {sig : Tree} {E : Failure → Prop} {Q : ℕ → Compiler → Prop}
    (hm : (ctx.marks sig).isSome) (h : Q (maxDelay ctx sig) σ) :
    Ends (getMaxDelay ctx sig) σ E Q := by
  obtain ⟨o, ho⟩ := Option.isSome_iff_exists.1 hm
  rw [maxDelay, ho] at h
  rw [getMaxDelay, ho]
  exact .pure h

theorem ends_orOverflow {α : Type} {x : Option α} {E : Failure → Prop} {Q : α → Compiler → Prop}
    (hsome : ∀ a, x = some a → Q a σ) (hnone : x = none → E .overflow) :
    Ends (orOverflow x) σ E Q := by
  unfold orOverflow
  split
  · next a => exact .pure (hsome a rfl)
  · exact .throw (hnone rfl)

/-! ## Vectors -/

theorem scalarLine_isSome {mcd : ℤ} (exp : ValueInst) (ctype : VarType) (vname : String)
    (mxd : ℕ) (c : InstructionsCompiler) :
    (Fir.generateDelayLine mcd exp ctype vname mxd c).isSome =
      (decide (mxd = 0) || decide (mxd < mcd) || (pow2limit (mxd + 1)).isSome) := by
  unfold Fir.generateDelayLine
  by_cases h₀ : mxd = 0
  · simp [h₀]
  · by_cases hlt : (mxd : ℤ) < mcd
    · simp only [h₀, hlt, if_false, if_true]
      split
      · simp
      · split <;> simp
    · simp only [h₀, hlt, if_false]
      cases pow2limit (mxd + 1) <;> simp

theorem vectorLine_isSome {mcd : ℤ} {vec : ℕ} (exp : ValueInst) (ctype : VarType)
    (vname : String) (mxd : ℕ) (c : InstructionsCompiler) :
    (DAGInstructionsCompiler.generateDelayLine mcd vec exp ctype vname mxd c).isSome =
      (decide (mxd = 0) || if (mxd : ℤ) < mcd then
        ((DAGInstructionsCompiler.roundDelay mxd).bind
          (DAGInstructionsCompiler.addSizes vec)).isSome
        else ((DAGInstructionsCompiler.addSizes mxd vec).bind pow2limit).isSome) := by
  unfold DAGInstructionsCompiler.generateDelayLine DAGInstructionsCompiler.generateDlineLoop
  by_cases h₀ : mxd = 0
  · simp [h₀]
  · by_cases hlt : (mxd : ℤ) < mcd
    · simp only [h₀, hlt, if_false, if_true]
      cases DAGInstructionsCompiler.roundDelay mxd with
      | none => simp
      | some d => cases h : DAGInstructionsCompiler.addSizes vec d <;> simp [h]
    · simp only [h₀, hlt, if_false]
      cases DAGInstructionsCompiler.addSizes mxd vec with
      | none => simp
      | some n => cases h : pow2limit n <;> simp [h]

/-- A line can be made when its size is an `int`. -/
theorem ends_generateDelayLine (exp : ValueInst) (ctype : VarType) (vname : String) (mxd : ℕ) :
    Ends (generateDelayLine ctx exp ctype vname mxd) σ
      (fun _ => 0 < mxd ∧ ¬ lineFits ctx mxd) fun _ σ' =>
        SameProperties σ σ' ∧ (0 < mxd → lineFits ctx mxd) := by
  have hfits : ∀ c : InstructionsCompiler, 0 < mxd → (lineFits ctx mxd = true ↔
      (if ctx.vectorMode then DAGInstructionsCompiler.generateDelayLine ctx.gMaxCopyDelay
        ctx.gVecSize exp ctype vname mxd c
      else (Fir.generateDelayLine ctx.gMaxCopyDelay exp ctype vname mxd c).map
        Prod.snd).isSome) := by
    intro c hpos
    have h₀ : ¬ mxd = 0 := by omega
    unfold lineFits
    by_cases hv : ctx.vectorMode = true
    · simp [hv, vectorLine_isSome, h₀]
    · by_cases hlt : (mxd : ℤ) < ctx.gMaxCopyDelay <;> simp [hv, scalarLine_isSome, h₀, hlt]
  unfold generateDelayLine
  apply Ends.bind (Ends.get (Q := fun a σ' => a = σ ∧ σ' = σ) ⟨rfl, rfl⟩)
  rintro a σ' ⟨rfl, rfl⟩
  apply Ends.bind (ends_orOverflow (Q := fun _ σ₁ => σ₁ = σ' ∧ (0 < mxd → lineFits ctx mxd))
    (fun c hc => ⟨rfl, fun hpos => (hfits _ hpos).2 (by rw [hc]; rfl)⟩) _)
  · intro c σ₁ h₁
    obtain ⟨rfl, hfit⟩ := h₁
    apply Ends.bind (Ends.modify (Q := fun _ σ₂ => SameProperties σ₁ σ₂) ⟨rfl, rfl⟩)
    intro _ σ₂ h₂
    exact .pure ⟨h₂, hfit⟩
  · intro hnone
    have hpos : 0 < mxd := by
      by_contra h₀
      obtain rfl : mxd = 0 := by omega
      split at hnone
      · simp [DAGInstructionsCompiler.generateDelayLine] at hnone
      · simp [Fir.generateDelayLine] at hnone
    refine ⟨hpos, fun hfit => ?_⟩
    have hsome := (hfits σ'.code hpos).1 hfit
    rw [hnone] at hsome
    simp at hsome

theorem quiet_generateVectorLoop (exp : ValueInst) (ctype : VarType) (vname : String) :
    Quiet (generateDelayLine ctx exp ctype vname 0) := by
  intro σ
  have h : Ends (generateDelayLine ctx exp ctype vname 0) σ _ _ :=
    ends_generateDelayLine exp ctype vname 0
  unfold Ends
  rcases h.cases with ⟨a, σ', heq, hsame, _⟩ | ⟨e, _, hpos, _⟩
  · rw [heq]
    exact hsame
  · omega

theorem quiet_generateVariableStore (sig : Tree) (exp : ValueInst) :
    Quiet (generateVariableStore ctx sig exp) := by
  unfold generateVariableStore
  dsimp only
  split
  · apply (quiet_getTypedNames _ _).bind
    intro a
    apply (quiet_push _).bind
    intro _
    apply (quiet_push _).bind
    exact fun _ => .pure _
  · split
    · apply (quiet_getTypedNames _ _).bind
      intro a
      apply (quiet_push _).bind
      exact fun _ => .pure _
    · split
      · split
        · apply (quiet_getTypedNames _ _).bind
          intro a
          apply (quiet_generateVectorLoop _ _ _).bind
          exact fun _ => .pure _
        · apply (quiet_getTypedNames _ _).bind
          intro a
          apply (quiet_push _).bind
          exact fun _ => .pure _
      · exact .pure _

/-- What the function that compiles a signal does to the properties, at its end: it may give a
vector to the signal. -/
structure Records (ctx : Context) (sig : Tree) (σ σ' : Compiler) : Prop where
  code : σ'.fCompileProperty = σ.fCompileProperty
  other : ∀ t, t ≠ sig → σ'.fVectorProperty t = σ.fVectorProperty t
  kept : σ.Named sig → σ'.Named sig
  named : ∀ c, dispatch sig = some c → c.recordsName → 0 < maxDelay ctx sig → σ'.Named sig
  fits : σ'.Named sig → σ.Named sig ∨ (∃ c, dispatch sig = some c ∧ c.recordsName) ∧
    ¬ IsProjection sig ∧ (0 < maxDelay ctx sig → lineFits ctx (maxDelay ctx sig))

/-- The signal is compiled by a function that can give it a vector. -/
structure Cached (ctx : Context) (signals : List Tree) (sig : Tree) : Prop where
  compiled : Compiled ctx signals sig
  records : ∃ c, dispatch sig = some c ∧ c.recordsName
  not_projection : ¬ IsProjection sig
  marked : (ctx.marks sig).isSome
  shared : 0 < getSharingCount ctx.sharing sig

variable {sig : Tree}

theorem Cached.bad (h : Cached ctx signals sig) (hpos : 0 < maxDelay ctx sig)
    (hfit : ¬ lineFits ctx (maxDelay ctx sig)) : Bad ctx signals :=
  ⟨sig, h.compiled, fun hcan => hfit (hcan hpos).2⟩

/-- A signal that is not used delayed needs no vector. -/
theorem Records.of_same (h : SameProperties σ σ') (hnamed : ∀ c, dispatch sig = some c →
    c.recordsName → 0 < maxDelay ctx sig → σ.Named sig) : Records ctx sig σ σ' where
  code := h.1
  other t _ := by rw [h.2]
  kept := h.named_iff.2
  named c hc hr hd := h.named_iff.2 (hnamed c hc hr hd)
  fits hn := Or.inl (h.named_iff.1 hn)

theorem Records.of_undelayed (h : SameProperties σ σ') (hd : maxDelay ctx sig = 0) :
    Records ctx sig σ σ' := .of_same h fun _ _ _ hpos => by omega

/-- A name is given. -/
theorem Records.of_set (hc : Cached ctx signals sig) {vname : String}
    (h : SameProperties { σ with
      fVectorProperty := Function.update σ.fVectorProperty sig (some vname) } σ')
    (hfit : 0 < maxDelay ctx sig → lineFits ctx (maxDelay ctx sig)) : Records ctx sig σ σ' where
  code := h.1
  other t ht := by rw [h.2]; exact Function.update_of_ne ht _ _
  kept _ := h.named_iff.2 (by simp [Compiler.Named])
  named _ _ _ _ := h.named_iff.2 (by simp [Compiler.Named])
  fits _ := Or.inr ⟨hc.records, hc.not_projection, hfit⟩

theorem Records.of_same_left (h : SameProperties σ σ₁) (h' : Records ctx sig σ₁ σ₂) :
    Records ctx sig σ σ₂ where
  code := h'.code.trans h.1
  other t ht := by rw [h'.other t ht, h.2]
  kept hn := h'.kept (h.named_iff.2 hn)
  named := h'.named
  fits hn := (h'.fits hn).imp_left h.named_iff.1

theorem Quiet.ends {α : Type} {f : M α} (hf : Quiet f) {E : Failure → Prop} :
    Ends f σ E fun _ σ' => SameProperties σ σ' := (hf σ).imp (fun _ h => h.elim) fun _ _ h => h

/-- A line is made and its name is given. -/
theorem ends_vector (hc : Cached ctx signals sig) (exp : ValueInst) (ctype : VarType)
    (vname : String) {α : Type} {f : M α}
    (hf : (0 < maxDelay ctx sig → lineFits ctx (maxDelay ctx sig)) → ∀ σ,
      Ends f σ (fun _ => Bad ctx signals) fun _ σ' => SameProperties σ σ') :
    Ends (generateDelayLine ctx exp ctype vname (maxDelay ctx sig) >>= fun _ =>
      setVectorNameProperty sig vname >>= fun _ => f) σ (fun _ => Bad ctx signals)
      fun _ σ' => Records ctx sig σ σ' := by
  apply Ends.bind ((ends_generateDelayLine exp ctype vname _).imp (fun _ h => hc.bad h.1 h.2)
    fun _ _ h => h)
  intro _ σ₁ h₁
  obtain ⟨hsame, hfit⟩ := h₁
  apply Ends.bind (Ends.modify (Q := fun _ σ₂ => σ₂ = { σ₁ with
    fVectorProperty := Function.update σ₁.fVectorProperty sig (some vname) }) rfl)
  rintro _ σ₂ rfl
  apply (hf hfit _).mono
  intro _ σ₃ h₃
  exact .of_same_left hsame (.of_set hc h₃ hfit)

theorem ends_generateDelayVec (hc : Cached ctx signals sig) (exp : ValueInst) (ctype : VarType)
    (vname : String) :
    Ends (generateDelayVec ctx sig exp ctype vname (maxDelay ctx sig)) σ
      (fun _ => Bad ctx signals) fun _ σ' => Records ctx sig σ σ' := by
  unfold generateDelayVec
  apply Ends.bind (Ends.modify (Q := fun _ σ₁ => σ₁ = { σ with
    fVectorProperty := Function.update σ.fVectorProperty sig (some vname) }) rfl)
  rintro _ σ₁ rfl
  apply Ends.bind ((ends_generateDelayLine exp ctype vname _).imp (fun _ h => hc.bad h.1 h.2)
    fun _ _ h => h)
  intro _ σ₂ h₂
  have hrec : Records ctx sig σ σ₂ := .of_set hc h₂.1 h₂.2
  split <;> exact .pure hrec

/-- A signal that has code already is not compiled again. -/
theorem ends_unlessCompiled (hσ : Inv ctx signals σ) {f : M ValueInst}
    (hf : Ends f σ (fun _ => Bad ctx signals) fun _ σ' => Records ctx sig σ σ') :
    Ends (getCompiledExpression sig >>= fun code =>
      match code with
      | some code => pure code
      | _ => f) σ (fun _ => Bad ctx signals) fun _ σ' => Records ctx sig σ σ' := by
  apply Ends.bind (ends_getCompiledExpression (Q := fun a σ₁ => a = σ.fCompileProperty sig ∧
    σ₁ = σ) ⟨rfl, rfl⟩)
  rintro a σ₁ ⟨ha, rfl⟩
  split
  · next code =>
    apply Ends.pure
    apply Records.of_same (.refl _)
    intro c hd hr hpos
    exact hσ.named sig c (by rw [Compiler.Coded, ← ha]; rfl) hd hr hpos
  · exact hf

/-- The maximum delay of a signal that has occurrences. -/
theorem ends_withMaxDelay (hm : (ctx.marks sig).isSome) {α : Type} {f : ℕ → M α}
    {E : Failure → Prop} {Q : α → Compiler → Prop} (hf : Ends (f (maxDelay ctx sig)) σ E Q) :
    Ends (getMaxDelay ctx sig >>= f) σ E Q := by
  apply Ends.bind (ends_getMaxDelay hm (Q := fun a σ' => a = maxDelay ctx sig ∧ σ' = σ)
    ⟨rfl, rfl⟩)
  rintro d σ' ⟨rfl, rfl⟩
  exact hf

/-- `generateCacheCode` of the scalar compiler. -/
theorem ends_generateScalarCacheCode (hc : Cached ctx signals sig) (hσ : Inv ctx signals σ)
    (exp : ValueInst) : Ends (generateScalarCacheCode ctx sig exp) σ (fun _ => Bad ctx signals)
      fun _ σ' => Records ctx sig σ σ' := by
  unfold generateScalarCacheCode
  apply ends_unlessCompiled hσ
  apply ends_withMaxDelay hc.marked
  split
  · apply Ends.bind (quiet_getTypedNames _ _).ends
    intro a σ₁ h₁
    dsimp only
    split
    · apply Ends.bind (quiet_generateVariableStore _ _).ends
      intro b σ₂ h₂
      exact (ends_generateDelayVec hc b _ _).mono fun _ _ h => h.of_same_left (h₁.trans h₂)
    · exact (ends_generateDelayVec hc exp _ _).mono fun _ _ h => h.of_same_left h₁
  · next hd =>
    have hd : maxDelay ctx sig = 0 := by omega
    split
    · exact .pure (.of_undelayed (.refl _) hd)
    · split
      · exact (quiet_generateVariableStore _ _).ends.mono fun _ _ h => .of_undelayed h hd
      · have := hc.shared
        omega

/-- `forceCacheCode`. -/
theorem ends_forceCacheCode (hc : Cached ctx signals sig) (hσ : Inv ctx signals σ)
    (exp : ValueInst) : Ends (forceCacheCode ctx sig exp) σ (fun _ => Bad ctx signals)
      fun _ σ' => Records ctx sig σ σ' := by
  unfold forceCacheCode
  apply ends_unlessCompiled hσ
  apply ends_withMaxDelay hc.marked
  split
  · apply Ends.bind (quiet_getTypedNames _ _).ends
    intro a σ₁ h₁
    apply Ends.bind (quiet_generateVariableStore _ _).ends
    intro b σ₂ h₂
    exact (ends_generateDelayVec hc b _ _).mono fun _ _ h => h.of_same_left (h₁.trans h₂)
  · exact (quiet_generateVariableStore _ _).ends.mono fun _ _ h => .of_undelayed h (by omega)

/-- The current sample is in a line that could be made. -/
theorem ends_currentSample (hv : ctx.vectorMode = true) (vname : String)
    (hpos : 0 < maxDelay ctx sig) (hfit : lineFits ctx (maxDelay ctx sig)) {E : Failure → Prop} :
    Ends (currentSample ctx vname (maxDelay ctx sig)) σ E fun _ σ' => SameProperties σ σ' := by
  unfold currentSample
  apply ends_orOverflow
  · exact fun _ _ => .refl σ
  · intro hnone
    have h₀ : maxDelay ctx sig ≠ 0 := by omega
    by_cases hlt : (maxDelay ctx sig : ℤ) < ctx.gMaxCopyDelay
    · simp [DAGInstructionsCompiler.generateFixDelay, h₀, hlt] at hnone
    · rw [lineFits, if_neg hlt, if_pos hv] at hfit
      obtain ⟨n, hn⟩ := Option.isSome_iff_exists.1 hfit
      obtain ⟨m, hm, hn⟩ := Option.bind_eq_some_iff.1 hn
      simp [DAGInstructionsCompiler.generateFixDelay, h₀, hlt, hm, hn] at hnone

/-- `generateCacheCode` of the vector compiler. -/
theorem ends_generateDAGCacheCode (hv : ctx.vectorMode = true) (hc : Cached ctx signals sig)
    (hσ : Inv ctx signals σ) (exp : ValueInst) :
    Ends (generateDAGCacheCode ctx sig exp) σ (fun _ => Bad ctx signals)
      fun _ σ' => Records ctx sig σ σ' := by
  unfold generateDAGCacheCode
  apply ends_withMaxDelay hc.marked
  split
  · split
    · exact ends_generateScalarCacheCode hc hσ exp
    · apply Ends.bind (quiet_getTypedNames _ _).ends
      intro a σ₁ h₁
      apply Ends.mono _ fun _ _ h => Records.of_same_left h₁ h
      dsimp only
      split
      · apply Ends.bind (quiet_generateVariableStore _ _).ends
        intro b σ₂ h₂
        apply Ends.mono _ fun _ _ h => Records.of_same_left h₂ h
        exact ends_vector hc b _ _ fun _ _ => (Quiet.pure _).ends
      · exact ends_vector hc exp _ _ fun _ _ => (Quiet.pure _).ends
  · split
    · next hpos =>
      apply Ends.bind (quiet_getTypedNames _ _).ends
      intro a σ₁ h₁
      apply Ends.mono _ fun _ _ h => Records.of_same_left h₁ h
      apply ends_vector hc
      intro hfit σ₂
      split
      · exact (Quiet.pure _).ends
      · exact ends_currentSample hv _ hpos (hfit hpos)
    · next hpos =>
      split
      · apply Ends.bind (quiet_getTypedNames _ _).ends
        intro a σ₁ h₁
        apply Ends.mono _ fun _ _ h => Records.of_same_left h₁ h
        exact ends_vector hc _ _ _ fun _ _ => (Quiet.pure _).ends
      · exact .pure (.of_undelayed (.refl _) (by omega))

theorem ends_generateCacheCode (hc : Cached ctx signals sig) (hσ : Inv ctx signals σ)
    (exp : ValueInst) : Ends (generateCacheCode ctx sig exp) σ (fun _ => Bad ctx signals)
      fun _ σ' => Records ctx sig σ σ' := by
  unfold generateCacheCode
  split
  · next hv => exact ends_generateDAGCacheCode hv hc hσ exp
  · exact ends_generateScalarCacheCode hc hσ exp

/-! ## The end of `CS` -/

/-- What the function that compiles a signal has done, once it returns. -/
structure Generated (ctx : Context) (signals : List Tree) (sig : Tree) (σ : Compiler)
    (v : ValueInst) (σ' : Compiler) : Prop where
  /-- The operands are compiled, then the signal is given a vector. -/
  steps : ∃ σ₁, Inv ctx signals σ₁ ∧ Extends ctx σ σ₁ ∧ Records ctx sig σ₁ σ' ∧
    (σ₁.Coded sig ∨ ∀ c u, dispatch sig = some c → u ∈ c.operands ctx → σ₁.Coded u) ∧
    ∀ r, Enters ctx sig r → Entered ctx σ₁ r
  delayed : ∀ x y, dispatch sig = some (.generateFixDelay x y) → 0 < maxDelay ctx x →
    ∃ vname code, delayedRead ctx vname (maxDelay ctx x) y code = some v

theorem isProjection_sigProj (j : ℕ) (r : Tree) : IsProjection (sigProj j r) :=
  ⟨(j : ℤ).toNat, r, rfl⟩

/-- Projections get their names from their group. -/
theorem Records.named_sigProj (h : Records ctx sig σ σ') {j : ℕ} {r : Tree}
    (hn : σ'.Named (sigProj j r)) : σ.Named (sigProj j r) := by
  by_cases heq : sigProj j r = sig
  · rcases h.fits (heq ▸ hn) with hn | ⟨_, hproj, _⟩
    · rwa [heq]
    · exact absurd (heq ▸ isProjection_sigProj j r) hproj
  · unfold Compiler.Named at hn ⊢
    rwa [h.other _ heq] at hn

theorem definitionsOf_of_isRec {r : Tree} (h : isRec ctx.graph r = none) :
    definitionsOf ctx r = [] := by
  rw [definitionsOf, h]
  rfl

/-- The end of `CS`: the code is kept. -/
theorem Generated.does {c : Call} {v : ValueInst} (hsig : dispatch sig = some c)
    (hc : Compiled ctx signals sig) (h : Generated ctx signals sig σ v σ₂) :
    Ends (setCompiledExpression sig v >>= fun _ => pure v) σ₂ (fun _ => Bad ctx signals)
      fun _ σ' => Inv ctx signals σ' ∧ Extends ctx σ σ' ∧ σ'.Coded sig := by
  obtain ⟨σ₁, hI, hE, hR, hops, hent⟩ := h.steps
  apply Ends.bind (Ends.modify (Q := fun _ σ₃ => σ₃ = { σ₂ with
    fCompileProperty := Function.update σ₂.fCompileProperty sig (some v) }) rfl)
  rintro _ σ₃ rfl
  apply Ends.pure
  set σ₃ : Compiler := { σ₂ with
    fCompileProperty := Function.update σ₂.fCompileProperty sig (some v) } with hσ₃
  have hrec := isRec_of_dispatch (g := ctx.graph) hsig
  have hself : σ₃.Coded sig := by simp [Compiler.Coded, hσ₃]
  have hcode : ∀ t, t ≠ sig → σ₃.fCompileProperty t = σ₁.fCompileProperty t := by
    intro t ht
    rw [← hR.code]
    exact Function.update_of_ne ht _ _
  have hcoded : ∀ t, σ₁.Coded t → σ₃.Coded t := by
    intro t ht
    by_cases heq : t = sig
    · exact heq ▸ hself
    · rw [Compiler.Coded, hcode t heq]
      exact ht
  have hcoded' : ∀ t, t ≠ sig → σ₃.Coded t → σ₁.Coded t := by
    intro t ht h₃
    rwa [Compiler.Coded, hcode t ht] at h₃
  have hname : ∀ t, t ≠ sig → (σ₃.Named t ↔ σ₁.Named t) := by
    intro t ht
    show (σ₂.fVectorProperty t).isSome ↔ (σ₁.fVectorProperty t).isSome
    rw [hR.other t ht]
  have hnamed : ∀ t, σ₁.Named t → σ₃.Named t := by
    intro t ht
    by_cases heq : t = sig
    · exact heq ▸ hR.kept (heq ▸ ht)
    · exact (hname t heq).2 ht
  have hentered : ∀ r, Entered ctx σ₃ r → ¬ Entered ctx σ₁ r → isRec ctx.graph r = none := by
    intro r h₃ h₁
    by_cases hv : ctx.vectorMode = true
    · rw [Entered, if_pos hv] at h₃ h₁
      by_cases heq : r = sig
      · exact heq ▸ hrec
      · exact absurd (hcoded' r heq h₃) h₁
    · rw [Entered, if_neg hv] at h₃ h₁
      exact absurd (fun d hd => hR.named_sigProj (h₃ d hd)) h₁
  have hinv : Inv ctx signals σ₃ := by
    constructor
    · intro t ht
      by_cases heq : t = sig
      · exact Or.inl (heq ▸ hc)
      · exact hI.compiled t (hcoded' t heq ht)
    · intro t ht
      by_cases heq : t = sig
      · subst heq
        rcases hR.fits ht with hn | ⟨hr, _⟩
        · exact hI.recorded t hn
        · exact ⟨hc, hr⟩
      · exact hI.recorded t ((hname t heq).1 ht)
    · intro t ht
      by_cases heq : t = sig
      · exact Or.inl (heq ▸ hself)
      · exact (hI.coded t ((hname t heq).1 ht)).imp_left (hcoded t)
    · intro t c' ht hc' hr hd
      by_cases heq : t = sig
      · subst heq
        exact hR.named c' hc' hr hd
      · exact (hname t heq).2 (hI.named t c' (hcoded' t heq ht) hc' hr hd)
    · intro t ht hp hd
      by_cases heq : t = sig
      · subst heq
        rcases hR.fits ht with hn | ⟨_, _, hfit⟩
        · exact hI.fits t hn hp hd
        · exact hfit hd
      · exact hI.fits t ((hname t heq).1 ht) hp hd
    · intro t x y w hfix hw hd
      by_cases heq : t = sig
      · subst heq
        obtain rfl : v = w := by simpa [hσ₃] using hw
        exact h.delayed x y hfix hd
      · exact hI.delayed t x y w hfix (by rwa [← hcode t heq]) hd
    · intro t r ht hr
      by_cases heq : t = sig
      · exact (hent r (heq ▸ hr)).mono hcoded hnamed
      · exact (hI.entered t r (hcoded' t heq ht) hr).mono hcoded hnamed
    · intro r hr d hd
      by_cases h₁ : Entered ctx σ₁ r
      · exact hnamed _ (hI.names r h₁ d hd)
      · rw [definitionsOf_of_isRec (hentered r hr h₁)] at hd
        simp at hd
    · exact fun r d hd hn => (hI.begun r d hd (hR.named_sigProj hn)).mono hcoded hnamed
  have hext : Extends ctx σ₁ σ₃ := by
    refine ⟨hcoded, hnamed, ?_, ?_⟩
    · intro t c' u ht hn hc' hu
      by_cases heq : t = sig
      · subst heq
        exact hcoded u ((hops.resolve_left hn) c' u hc' hu)
      · exact absurd (hcoded' t heq ht) hn
    · intro r hr hn d hd
      rw [definitionsOf_of_isRec (hentered r hr hn)] at hd
      simp at hd
  exact ⟨hinv, hE.trans hext, hself⟩

/-! ## Recursive groups -/

/-- `nameProjections` gives names to the projections, and to nothing else. -/
theorem ends_nameProjections (r : Tree) (ds : List (Tree × ℕ)) (E : Failure → Prop) :
    Ends (ds.mapM fun d => do
        let names ← getTypedNames ctx (sigProj d.2 r) "Rec"
        setVectorNameProperty (sigProj d.2 r) names.2
        return (d, names)) σ E fun names σ' =>
      names.map Prod.fst = ds ∧ σ'.fCompileProperty = σ.fCompileProperty ∧
        ∀ t, σ'.Named t ↔ σ.Named t ∨ ∃ d ∈ ds, t = sigProj d.2 r := by
  induction ds generalizing σ with
  | nil =>
    rw [List.mapM_nil]
    exact .pure ⟨rfl, rfl, by simp⟩
  | cons d ds ih =>
    rw [List.mapM_cons]
    apply Ends.bind (Q := fun a σ₁ => a.1 = d ∧ σ₁.fCompileProperty = σ.fCompileProperty ∧
      ∀ t, σ₁.Named t ↔ σ.Named t ∨ t = sigProj d.2 r)
    · apply Ends.bind (quiet_getTypedNames _ _).ends
      intro names σ₁ h₁
      apply Ends.bind (Ends.modify (Q := fun _ σ₂ => σ₂ = { σ₁ with
        fVectorProperty := Function.update σ₁.fVectorProperty (sigProj d.2 r) (some names.2) }) rfl)
      rintro _ σ₂ rfl
      refine .pure ⟨rfl, h₁.1, fun t => ?_⟩
      by_cases heq : t = sigProj d.2 r
      · simp [Compiler.Named, heq]
      · rw [← h₁.named_iff]
        simp [Compiler.Named, heq]
    · intro a σ₁ h₁
      obtain ⟨ha, hcode₁, hname₁⟩ := h₁
      apply Ends.bind ih
      intro as σ₂ h₂
      obtain ⟨has, hcode₂, hname₂⟩ := h₂
      refine .pure ⟨by rw [List.map_cons, ha, has], hcode₂.trans hcode₁, fun t => ?_⟩
      rw [hname₂, hname₁]
      simp only [List.mem_cons, exists_eq_or_imp, or_assoc]

/-- The state when the compilation of a group begins: it has code in the vector compiler, and its
projections have names. -/
structure Begins (ctx : Context) (r : Tree) (σ σ₁ : Compiler) : Prop where
  code : ∀ t, σ₁.fCompileProperty t =
    if ctx.vectorMode = true ∧ t = r then some .null else σ.fCompileProperty t
  named : ∀ t, σ₁.Named t ↔ σ.Named t ∨ ∃ d ∈ definitionsOf ctx r, t = sigProj d.2 r

section
variable {r : Tree}

theorem Begins.coded_iff (h : Begins ctx r σ σ₁) {t : Tree} :
    σ₁.Coded t ↔ σ.Coded t ∨ ctx.vectorMode = true ∧ t = r := by
  unfold Compiler.Coded
  rw [h.code]
  split
  · next ht => simp [ht]
  · next ht => simp [ht]

theorem sigProj_injective {i j : ℕ} {r s : Tree} (h : sigProj i r = sigProj j s) :
    i = j ∧ r = s := by
  simp [sigProj, leaf] at h
  exact h

theorem Begins.entered (h : Begins ctx r σ σ₁) {s : Tree} (hs : Entered ctx σ₁ s) :
    Entered ctx σ s ∨ s = r := by
  by_cases heq : s = r
  · exact Or.inr heq
  · left
    by_cases hv : ctx.vectorMode = true
    · rw [Entered, if_pos hv] at hs ⊢
      exact (h.coded_iff.1 hs).resolve_right fun hr => heq hr.2
    · rw [Entered, if_neg hv] at hs ⊢
      intro d hd
      apply ((h.named _).1 (hs d hd)).resolve_right
      rintro ⟨e, _, he⟩
      exact heq (sigProj_injective he).2

theorem Begins.entered_self (h : Begins ctx r σ σ₁) : Entered ctx σ₁ r := by
  by_cases hv : ctx.vectorMode = true
  · rw [Entered, if_pos hv]
    exact h.coded_iff.2 (Or.inr ⟨hv, rfl⟩)
  · rw [Entered, if_neg hv]
    exact fun d hd => (h.named _).2 (Or.inr ⟨d, hd, rfl⟩)

theorem Below.eq_of_isRec {g : Graph} {t s : Tree} (h : Below g t s) (ht : (isRec g t).isSome) :
    s = t := by
  cases h with
  | self _ => rfl
  | child hn _ _ _ => simp [hn] at ht

theorem Begins.inv {u : Tree} (h : Begins ctx r σ σ₁) (hσ : Inv ctx signals σ)
    (hu : Compiled ctx signals u) (hr : Enters ctx u r) (hrec : (isRec ctx.graph r).isSome) :
    Inv ctx signals σ₁ := by
  have hcode : ∀ {t c}, dispatch t = some c → σ₁.fCompileProperty t = σ.fCompileProperty t := by
    intro t c hc
    rw [h.code, if_neg]
    rintro ⟨_, rfl⟩
    simp [isRec_of_dispatch hc] at hrec
  have hmono : ∀ {s}, Entered ctx σ s → Entered ctx σ₁ s := fun hs =>
    hs.mono (fun _ ht => h.coded_iff.2 (Or.inl ht)) fun _ ht => (h.named _).2 (Or.inl ht)
  constructor
  · intro t ht
    rcases h.coded_iff.1 ht with ht | ⟨_, rfl⟩
    · exact hσ.compiled t ht
    · exact Or.inr hrec
  · intro t ht
    rcases (h.named t).1 ht with ht | ⟨d, hd, rfl⟩
    · exact hσ.recorded t ht
    · exact ⟨.projection hu hr hd, _, rfl, rfl⟩
  · intro t ht
    rcases (h.named t).1 ht with ht | ⟨d, _, rfl⟩
    · exact (hσ.coded t ht).imp_left fun ht => h.coded_iff.2 (Or.inl ht)
    · exact Or.inr (isProjection_sigProj _ _)
  · intro t c ht hc hn hd
    rw [Compiler.Coded, hcode hc] at ht
    exact (h.named t).2 (Or.inl (hσ.named t c ht hc hn hd))
  · intro t ht hp hd
    rcases (h.named t).1 ht with ht | ⟨d, _, rfl⟩
    · exact hσ.fits t ht hp hd
    · exact absurd (isProjection_sigProj _ _) hp
  · intro t x y v hfix hv hd
    rw [hcode hfix] at hv
    exact hσ.delayed t x y v hfix hv hd
  · intro t s ht hs
    rcases h.coded_iff.1 ht with ht | ⟨hv, rfl⟩
    · exact hmono (hσ.entered t s ht hs)
    · rw [Enters, if_pos hv] at hs
      rw [hs.eq_of_isRec hrec]
      exact h.entered_self
  · intro s hs d hd
    rcases h.entered hs with hs | rfl
    · exact (h.named _).2 (Or.inl (hσ.names s hs d hd))
    · exact (h.named _).2 (Or.inr ⟨d, hd, rfl⟩)
  · intro s d hd hn
    rcases (h.named _).1 hn with hn | ⟨e, _, he⟩
    · exact hmono (hσ.begun s d hd hn)
    · exact (sigProj_injective he).2 ▸ h.entered_self

/-- A group is compiled from the state in which its compilation begins. -/
theorem Begins.extends (h : Begins ctx r σ σ₁) (hE : Extends ctx σ₁ σ₂) (hd : Done ctx σ₂ r)
    (hrec : (isRec ctx.graph r).isSome) : Extends ctx σ σ₂ := by
  refine ⟨fun t ht => hE.coded t (h.coded_iff.2 (Or.inl ht)),
    fun t ht => hE.named t ((h.named t).2 (Or.inl ht)), ?_, ?_⟩
  · intro t c u ht hn hc hu
    apply hE.operands t c u ht _ hc hu
    intro h₁
    rcases h.coded_iff.1 h₁ with h₁ | ⟨_, rfl⟩
    · exact hn h₁
    · simp [isRec_of_dispatch hc] at hrec
  · intro s hs hn
    by_cases heq : s = r
    · exact heq ▸ hd
    · apply hE.groups s hs
      intro h₁
      exact (h.entered h₁).elim hn heq

end

/-! ## The groups that are left -/

open Classical in
/-- How many groups are not compiled. -/
noncomputable def pending (ctx : Context) (σ : Compiler) : ℕ :=
  ((ctx.graph.recDefs.map Prod.fst).toFinset.filter fun r => ¬ Entered ctx σ r).card

theorem pending_le (h : ∀ r, Entered ctx σ r → Entered ctx σ' r) :
    pending ctx σ' ≤ pending ctx σ := by
  classical
  apply Finset.card_le_card
  intro r hr
  simp only [Finset.mem_filter] at hr ⊢
  exact ⟨hr.1, fun hn => hr.2 (h r hn)⟩

theorem Extends.pending_le (h : Extends ctx σ σ') : pending ctx σ' ≤ pending ctx σ :=
  Codegen.pending_le fun _ => h.entered

/-- The name of a group is that of one of the definitions. -/
theorem mem_recDefs_of_isRec {g : Graph} {r : Tree} (h : (isRec g r).isSome) :
    r ∈ g.recDefs.map Prod.fst := by
  unfold isRec at h
  split at h
  · next v =>
    rw [Option.isSome_map] at h
    obtain ⟨d, hd⟩ := Option.isSome_iff_exists.1 h
    have heq := List.find?_some hd
    exact List.mem_map.2 ⟨d, List.mem_of_find?_eq_some hd, by simpa using heq⟩
  · simp at h

theorem Begins.pending_lt {r : Tree} (h : Begins ctx r σ σ₁) (hrec : (isRec ctx.graph r).isSome)
    (hn : ¬ Entered ctx σ r) : pending ctx σ₁ < pending ctx σ := by
  classical
  apply Finset.card_lt_card
  rw [Finset.ssubset_iff_of_subset]
  · refine ⟨r, ?_, ?_⟩
    · simp only [Finset.mem_filter, List.mem_toFinset]
      exact ⟨mem_recDefs_of_isRec hrec, hn⟩
    · simp only [Finset.mem_filter, not_and, not_not]
      exact fun _ => h.entered_self
  · intro s hs
    simp only [Finset.mem_filter] at hs ⊢
    refine ⟨hs.1, fun hent => hs.2 (hent.mono ?_ ?_)⟩
    · exact fun t ht => h.coded_iff.2 (Or.inl ht)
    · exact fun t ht => (h.named t).2 (Or.inl ht)

/-! ## What can be compiled -/

/-- The graph has been analysed, and its signals are recognized. -/
structure Ready (ctx : Context) (signals : List Tree) (root : Tree) (size : ℕ) : Prop where
  call : ∀ t, Compiled ctx signals t → ∃ c, dispatch t = some c ∧ c.checks ctx.graph t
  reached : ∀ t, Compiled ctx signals t → Reached ctx.graph root t
  recognized : ∀ t, Reached ctx.graph root t → (ctx.graph.getSubSignals t).isSome
  marked : ∀ t, Reached ctx.graph root t → (ctx.marks t).isSome
  shared : ∀ t, Reached ctx.graph root t → 0 < getSharingCount ctx.sharing t
  size : ∀ t, Reached ctx.graph root t → t.size ≤ size
  contents : ∀ t s, Compiled ctx signals t → dispatch t = some (.generateSigGen s) →
    ctx.signal2Container s = .ok ()

/-- The signals of size up to `m` are compiled, when `k` groups are left at most. -/
def Compiles (ctx : Context) (signals : List Tree) (f : Tree → M ValueInst) (k m : ℕ) : Prop :=
  ∀ σ t, Inv ctx signals σ → Compiled ctx signals t → pending ctx σ ≤ k → t.size ≤ m →
    Does ctx signals (f t) σ fun _ σ' => σ'.Coded t

section
variable {root : Tree} {size k m : ℕ} {f : Tree → M ValueInst}

/-- `CS` on a list of signals. -/
theorem Compiles.list (hf : Compiles ctx signals f k m) (hσ : Inv ctx signals σ)
    (hk : pending ctx σ ≤ k) {ts : List Tree}
    (hts : ∀ t ∈ ts, Compiled ctx signals t ∧ t.size ≤ m) :
    Does ctx signals (ts.mapM f) σ fun _ σ' => ∀ t ∈ ts, σ'.Coded t := by
  apply Ends.mono (Ends.mapM (I := fun σ => Inv ctx signals σ ∧ pending ctx σ ≤ k)
    (G := Extends ctx) (P := fun t σ => σ.Coded t) Extends.refl Extends.trans
    (fun h hE => hE.coded _ h) _ ⟨hσ, hk⟩) fun _ σ' h => ⟨h.1.1, h.2⟩
  intro t ht σ₁ h₁
  apply Ends.mono (hf σ₁ t h₁.1 (hts t ht).1 h₁.2 (hts t ht).2)
  intro _ σ₂ h₂
  exact ⟨⟨h₂.1, h₂.2.1.pending_le.trans h₁.2⟩, h₂.2.1, h₂.2.2⟩

/-- The definitions of a group are compiled, once the group has begun. -/
theorem ends_generateRec (hready : Ready ctx signals root size) {r : Tree} {le : List Tree}
    (hle : isRec ctx.graph r = some le) {u : Tree} (hu : Compiled ctx signals u)
    (hr : Enters ctx u r) (hσ : Inv ctx signals σ) (hn : ¬ Entered ctx σ r) {σ₀ : Compiler}
    (hcode : ∀ t, σ₀.fCompileProperty t =
      if ctx.vectorMode = true ∧ t = r then some .null else σ.fCompileProperty t)
    (hname : σ₀.fVectorProperty = σ.fVectorProperty)
    (hf : ∀ k, k < pending ctx σ → Compiles ctx signals f k size) (index : Option ℕ) :
    Ends (generateRec ctx f r le index) σ₀ (fun _ => Bad ctx signals) fun _ σ' =>
      Inv ctx signals σ' ∧ Extends ctx σ σ' ∧ Entered ctx σ' r := by
  have hrec : (isRec ctx.graph r).isSome := by simp [hle]
  have hdefs : definitionsOf ctx r = usedDefinitions ctx r le := by
    rw [definitionsOf, hle]
    rfl
  unfold generateRec nameProjections
  apply Ends.bind (ends_nameProjections r (usedDefinitions ctx r le) _)
  intro names σ₁ h₁
  obtain ⟨hnames, hcode₁, hname₁⟩ := h₁
  have hbegin : Begins ctx r σ σ₁ := by
    constructor
    · intro t
      rw [hcode₁, hcode]
    · intro t
      rw [hname₁, hdefs]
      simp only [Compiler.Named, hname]
  have hI₁ := hbegin.inv hσ hu hr hrec
  have hlt := hbegin.pending_lt hrec hn
  have hmem : ∀ d ∈ names, d.1 ∈ definitionsOf ctx r := by
    intro d hd
    rw [hdefs, ← hnames]
    exact List.mem_map_of_mem hd
  apply Ends.bind (Ends.mapM (I := fun σ => Inv ctx signals σ ∧ pending ctx σ ≤ pending ctx σ₁)
    (G := Extends ctx) (P := fun d => LineDone ctx r d.1)
    Extends.refl Extends.trans (fun h hE => ⟨hE.coded _ h.1, h.2⟩) _ ⟨hI₁, le_rfl⟩)
  · intro codes σ₂ h₂
    obtain ⟨⟨hI₂, _⟩, hE₂, hP₂⟩ := h₂
    apply Ends.pure
    have hdone : Done ctx σ₂ r := by
      intro d hd
      rw [hdefs, ← hnames] at hd
      obtain ⟨e, he, rfl⟩ := List.mem_map.1 hd
      refine ⟨hE₂.named _ ((hbegin.named _).2 (Or.inr ⟨e.1, hmem e he, rfl⟩)), hP₂ e he⟩
    exact ⟨hI₂, hbegin.extends hE₂ hdone hrec, hE₂.entered hbegin.entered_self⟩
  · intro d hd s hs
    have hcomp : Compiled ctx signals d.1.1 := .definition hu hr (hmem d hd)
    have hproj : Compiled ctx signals (sigProj d.1.2 r) := .projection hu hr (hmem d hd)
    apply ends_withMaxDelay (hready.marked _ (hready.reached _ hproj))
    apply Ends.bind (hf _ hlt s d.1.1 hs.1 hcomp hs.2 (hready.size _ (hready.reached _ hcomp)))
    intro code s₁ h₁
    obtain ⟨hI, hE, hcoded⟩ := h₁
    apply (ends_generateDelayLine code _ _ _).imp
    · exact fun _ h => ⟨_, hproj, fun hcan => h.2 (hcan h.1).2⟩
    · intro _ s₂ h₂
      refine ⟨⟨h₂.1.inv hI, ?_⟩, hE.trans h₂.1.extends, h₂.1.coded_iff.2 hcoded, h₂.2⟩
      exact h₂.1.extends.pending_le.trans (hE.pending_le.trans hs.2)

/-! ## Signals below -/

theorem operands_subset (c : Call) {u : Tree} (h : u ∈ c.operands ctx) : u ∈ c.subsignals := by
  unfold Call.operands at h
  split at h
  · split at h
    · rw [List.mem_singleton] at h
      exact h ▸ List.mem_cons_self
    · exact h
  · exact h

/-- The groups below an operand are below the signal. -/
theorem Below.of_operand {t u r : Tree} {c : Call} (h : dispatch t = some c)
    (hu : u ∈ c.operands ctx) (hr : Below ctx.graph u r) : Below ctx.graph t r := by
  obtain ⟨ss, hss, hu⟩ := mem_getSubSignals_of_dispatch h (operands_subset c hu)
  exact .child (isRec_of_dispatch h) hss hu hr

/-! ## The functions that compile a signal -/

/-- A signal is being compiled by the function that `generateCode` calls. -/
structure Called (ctx : Context) (signals : List Tree) (root : Tree) (size : ℕ)
    (f : Tree → M ValueInst) (k m : ℕ) (sig : Tree) (c : Call) (σ : Compiler) : Prop where
  ready : Ready ctx signals root size
  inv : Inv ctx signals σ
  compiled : Compiled ctx signals sig
  call : dispatch sig = some c
  checks : c.checks ctx.graph sig
  below : ctx.vectorMode = true → ∀ r, Below ctx.graph sig r → σ.Coded r
  small : ∀ u ∈ c.subsignals, u.size ≤ m
  pending : pending ctx σ ≤ k
  operand : Compiles ctx signals f k m
  definition : ∀ k', k' < k → Compiles ctx signals f k' size

section
variable {c : Call}

theorem Called.cached (h : Called ctx signals root size f k m sig c σ) (hr : c.recordsName = true)
    (hp : ¬ IsProjection sig) : Cached ctx signals sig where
  compiled := h.compiled
  records := ⟨c, h.call, hr⟩
  not_projection := hp
  marked := h.ready.marked _ (h.ready.reached _ h.compiled)
  shared := h.ready.shared _ (h.ready.reached _ h.compiled)

theorem Called.not_isProjection (h : Called ctx signals root size f k m sig c σ)
    (hc : ∀ i r, c ≠ .generateRecProj i r) : ¬ IsProjection sig := by
  rintro ⟨i, r, hp⟩
  exact hc i r (Option.some.inj (h.call.symm.trans hp))

/-- The groups that are below a signal are compiled before it. -/
theorem Called.entered (h : Called ctx signals root size f k m sig c σ)
    (hp : ¬ IsProjection sig) (hE : Extends ctx σ σ₁) {r : Tree} (hr : Enters ctx sig r) :
    Entered ctx σ₁ r := by
  by_cases hv : ctx.vectorMode = true
  · rw [Enters, if_pos hv] at hr
    rw [Entered, if_pos hv]
    exact hE.coded _ (h.below hv r hr)
  · rw [Enters, if_neg hv] at hr
    obtain ⟨i, hi⟩ := hr
    exact absurd ⟨i, r, hi⟩ hp

/-- An operand is compiled. -/
theorem Called.does (h : Called ctx signals root size f k m sig c σ) {u : Tree}
    (hu : u ∈ c.operands ctx) (hI : Inv ctx signals σ₁) (hE : Extends ctx σ σ₁) :
    Does ctx signals (f u) σ₁ fun _ σ' => σ'.Coded u :=
  h.operand σ₁ u hI (.operand h.compiled h.call hu) (hE.pending_le.trans h.pending)
    (h.small u (operands_subset c hu))

/-- The operands are compiled. -/
theorem Called.does_list (h : Called ctx signals root size f k m sig c σ) {us : List Tree}
    (hus : ∀ u ∈ us, u ∈ c.operands ctx) :
    Does ctx signals (us.mapM f) σ fun _ σ' => ∀ u ∈ us, σ'.Coded u :=
  h.operand.list h.inv h.pending fun u hu =>
    ⟨.operand h.compiled h.call (hus u hu), h.small u (operands_subset c (hus u hu))⟩

/-- The signal is given a vector, after its operands are compiled. -/
theorem Called.generated (h : Called ctx signals root size f k m sig c σ)
    (hp : ¬ IsProjection sig) (hI : Inv ctx signals σ₁) (hE : Extends ctx σ σ₁)
    (hops : ∀ u ∈ c.operands ctx, σ₁.Coded u) {v : ValueInst} (hR : Records ctx sig σ₁ σ₂)
    (hd : ∀ x y, c = .generateFixDelay x y → 0 < maxDelay ctx x →
      ∃ vname code, delayedRead ctx vname (maxDelay ctx x) y code = some v) :
    Generated ctx signals sig σ v σ₂ where
  steps := by
    refine ⟨σ₁, hI, hE, hR, Or.inr ?_, fun r hr => h.entered hp hE hr⟩
    intro c' u hc' hu
    obtain rfl : c = c' := Option.some.inj (h.call.symm.trans hc')
    exact hops u hu
  delayed x y hfix := hd x y (Option.some.inj (h.call.symm.trans hfix))

/-- A signal that is not given a vector. -/
theorem Called.generated_of_same (h : Called ctx signals root size f k m sig c σ)
    (hr : c.recordsName = false) (hI : Inv ctx signals σ₁) (hE : Extends ctx σ σ₁)
    (hops : ∀ u ∈ c.operands ctx, σ₁.Coded u) {v : ValueInst} (hs : SameProperties σ₁ σ₂)
    (hd : ∀ x y, c = .generateFixDelay x y → 0 < maxDelay ctx x →
      ∃ vname code, delayedRead ctx vname (maxDelay ctx x) y code = some v) :
    Generated ctx signals sig σ v σ₂ := by
  apply h.generated (h.not_isProjection _) hI hE hops (.of_same hs _) hd
  · rintro i r rfl
    simp [Call.recordsName] at hr
  · intro c' hc' hr'
    obtain rfl : c = c' := Option.some.inj (h.call.symm.trans hc')
    simp [hr] at hr'

/-- The end of the functions that call `generateCacheCode`. -/
theorem Called.ends_cache (h : Called ctx signals root size f k m sig c σ)
    (hr : c.recordsName = true) (hc : ∀ i r, c ≠ .generateRecProj i r) (hI : Inv ctx signals σ₁)
    (hE : Extends ctx σ σ₁) (hops : ∀ u ∈ c.operands ctx, σ₁.Coded u) (exp : ValueInst) :
    Ends (generateCacheCode ctx sig exp) σ₁ (fun _ => Bad ctx signals) fun v σ₂ =>
      Generated ctx signals sig σ v σ₂ := by
  have hp := h.not_isProjection hc
  apply (ends_generateCacheCode (h.cached hr hp) hI exp).mono
  intro v σ₂ hR
  apply h.generated hp hI hE hops hR
  rintro x y rfl
  simp [Call.recordsName] at hr

theorem Called.ends_generateCached {operands : List Tree}
    (h : Called ctx signals root size f k m sig (.generateCached operands) σ) :
    Ends (do
      let args ← operands.mapM f
      generateCacheCode ctx sig (← buildCode ctx sig args)) σ (fun _ => Bad ctx signals)
      fun v σ₂ => Generated ctx signals sig σ v σ₂ := by
  apply Ends.bind (h.does_list fun u hu => hu)
  intro args σ₁ h₁
  obtain ⟨hI, hE, hops⟩ := h₁
  apply Ends.bind (quiet_buildCode _ _).ends
  intro exp σ₂ h₂
  exact h.ends_cache rfl (by simp) (h₂.inv hI) (hE.trans h₂.extends)
    (fun u hu => h₂.coded_iff.2 (hops u hu)) exp

theorem Called.ends_generateNumber
    (h : Called ctx signals root size f k m sig .generateNumber σ) :
    Ends (generateNumber ctx sig) σ (fun _ => Bad ctx signals)
      fun v σ₂ => Generated ctx signals sig σ v σ₂ := by
  have hp := h.not_isProjection (by simp)
  have hc := h.cached rfl hp
  have hgen : ∀ {v σ₂}, Records ctx sig σ σ₂ → Generated ctx signals sig σ v σ₂ := fun hR =>
    h.generated hp h.inv (.refl _) (by simp [Call.operands, Call.subsignals]) hR (by simp)
  unfold generateNumber
  apply Ends.bind (quiet_buildCode _ _).ends
  intro num σ₁ h₁
  apply ends_withMaxDelay hc.marked
  split
  · apply Ends.bind (quiet_getTypedNames _ _).ends
    intro names σ₂ h₂
    apply Ends.bind (ends_generateDelayVec hc num _ _)
    intro _ σ₃ h₃
    exact .pure (hgen (h₃.of_same_left (h₁.trans h₂)))
  · exact .pure (hgen (.of_undelayed h₁ (by omega)))

theorem Called.ends_generateInput
    (h : Called ctx signals root size f k m sig .generateInput σ) :
    Ends (generateInput ctx sig) σ (fun _ => Bad ctx signals)
      fun v σ₂ => Generated ctx signals sig σ v σ₂ := by
  have hp := h.not_isProjection (by simp)
  have hops : ∀ {σ'}, ∀ u ∈ Call.generateInput.operands ctx, Compiler.Coded σ' u := by
    simp [Call.operands, Call.subsignals]
  unfold generateInput
  apply Ends.bind (quiet_buildCode _ _).ends
  intro res σ₁ h₁
  split
  · apply (ends_forceCacheCode (h.cached rfl hp) (h₁.inv h.inv) res).mono
    intro v σ₂ hR
    exact h.generated hp (h₁.inv h.inv) h₁.extends hops hR (by simp)
  · exact h.ends_cache rfl (by simp) (h₁.inv h.inv) h₁.extends hops res

theorem Called.ends_generateAttach {x y : Tree}
    (h : Called ctx signals root size f k m sig (.generateAttach x y) σ) :
    Ends (do
      let _ ← f y
      generateCacheCode ctx sig (← f x)) σ (fun _ => Bad ctx signals)
      fun v σ₂ => Generated ctx signals sig σ v σ₂ := by
  apply Ends.bind (h.does (u := y) (by simp [Call.operands, Call.subsignals]) h.inv (.refl _))
  intro _ σ₁ h₁
  obtain ⟨hI₁, hE₁, hy⟩ := h₁
  apply Ends.bind (h.does (u := x) (by simp [Call.operands, Call.subsignals]) hI₁ hE₁)
  intro exp σ₂ h₂
  obtain ⟨hI₂, hE₂, hx⟩ := h₂
  apply h.ends_cache rfl (by simp) hI₂ (hE₁.trans hE₂)
  intro u hu
  simp only [Call.operands, Call.subsignals, List.mem_cons, List.not_mem_nil, or_false] at hu
  rcases hu with rfl | rfl
  · exact hE₂.coded _ hy
  · exact hx

/-- A line is read, unless it could not be made. -/
theorem delayedRead_none {vname : String} {mxd : ℕ} {delay : Tree} {code : ValueInst}
    (h : delayedRead ctx vname mxd delay code = none) : 0 < mxd ∧ ¬ lineFits ctx mxd := by
  unfold delayedRead at h
  unfold lineFits
  by_cases hv : ctx.vectorMode = true
  · rw [if_pos hv] at h
    unfold DAGInstructionsCompiler.generateFixDelay at h
    by_cases h₀ : mxd = 0
    · simp [h₀] at h
    · by_cases hlt : (mxd : ℤ) < ctx.gMaxCopyDelay
      · rw [if_neg h₀, if_pos hlt] at h
        split at h
        · split at h <;> simp at h
        · simp at h
      · refine ⟨by omega, fun hfit => ?_⟩
        rw [if_neg hlt, if_pos hv] at hfit
        obtain ⟨n, hn⟩ := Option.isSome_iff_exists.1 hfit
        obtain ⟨s, hs, hn⟩ := Option.bind_eq_some_iff.1 hn
        simp only [h₀, hlt, if_false, hs, hn, Option.bind_eq_bind, Option.bind_some] at h
        split at h
        · split at h <;> simp at h
        · simp at h
  · rw [if_neg hv] at h
    unfold Fir.generateFixDelay at h
    by_cases h₀ : mxd = 0
    · simp [h₀] at h
    · by_cases hlt : (mxd : ℤ) < ctx.gMaxCopyDelay
      · simp [h₀, hlt] at h
      · refine ⟨by omega, fun hfit => ?_⟩
        rw [if_neg hlt, if_neg hv] at hfit
        obtain ⟨n, hn⟩ := Option.isSome_iff_exists.1 hfit
        simp [h₀, hlt, hn] at h

theorem mem_operands_fixDelay (x y : Tree) :
    x ∈ (Call.generateFixDelay x y).operands ctx := by
  rw [Call.operands]
  split <;> exact List.mem_cons_self

/-- The vector of a delayed signal is read. -/
theorem Called.ends_read {x y : Tree}
    (h : Called ctx signals root size f k m sig (.generateFixDelay x y) σ)
    (hI : Inv ctx signals σ₁) (hE : Extends ctx σ σ₁)
    (hops : ∀ u ∈ (Call.generateFixDelay x y).operands ctx, σ₁.Coded u) (vname : String)
    (code : ValueInst) :
    Ends (orOverflow (delayedRead ctx vname (maxDelay ctx x) y code)) σ₁
      (fun _ => Bad ctx signals) fun v σ₂ => Generated ctx signals sig σ v σ₂ := by
  have hx : Compiled ctx signals x := .operand h.compiled h.call (mem_operands_fixDelay x y)
  apply ends_orOverflow
  · intro v hv
    apply h.generated_of_same rfl hI hE hops (.refl _)
    rintro x' y' heq _
    obtain ⟨rfl, rfl⟩ := Call.generateFixDelay.inj heq
    exact ⟨vname, code, hv⟩
  · intro hnone
    obtain ⟨hpos, hfit⟩ := delayedRead_none hnone
    exact ⟨x, hx, fun hcan => hfit (hcan hpos).2⟩

theorem Called.ends_generateFixDelay {x y : Tree}
    (h : Called ctx signals root size f k m sig (.generateFixDelay x y) σ) :
    Ends (generateFixDelay ctx f x y) σ (fun _ => Bad ctx signals)
      fun v σ₂ => Generated ctx signals sig σ v σ₂ := by
  have hxop : x ∈ (Call.generateFixDelay x y).operands ctx := mem_operands_fixDelay x y
  have hx : Compiled ctx signals x := .operand h.compiled h.call hxop
  unfold generateFixDelay
  apply Ends.bind (h.does hxop h.inv (.refl _))
  intro code σ₁ h₁
  obtain ⟨hI₁, hE₁, hcx⟩ := h₁
  apply ends_withMaxDelay (h.ready.marked _ (h.ready.reached _ hx))
  apply Ends.bind (ends_getVectorNameProperty (Q := fun a σ₂ => a = σ₁.fVectorProperty x ∧
    σ₂ = σ₁) ⟨rfl, rfl⟩)
  rintro a σ₂ ⟨ha, rfl⟩
  split
  · split
    · next hd =>
      -- a pure zero delay
      apply Ends.pure
      apply h.generated_of_same rfl hI₁ hE₁ _ (.refl _)
      · rintro x' y' heq hpos
        obtain ⟨rfl, rfl⟩ := Call.generateFixDelay.inj heq
        omega
      · intro u hu
        rw [Call.operands, if_pos (Or.inl hd), List.mem_singleton] at hu
        exact hu ▸ hcx
    · next hd =>
      apply Ends.throw
      refine ⟨x, hx, fun hcan => ?_⟩
      obtain ⟨⟨c, hc, hr⟩, _⟩ := hcan (by omega)
      have hn := hI₁.named x c hcx hc hr (by omega)
      rw [Compiler.Named, ← ha] at hn
      simp at hn
  · next vname =>
    split
    · next hd =>
      apply h.ends_read hI₁ hE₁
      intro u hu
      rw [Call.operands, if_pos hd, List.mem_singleton] at hu
      exact hu ▸ hcx
    · next hd =>
      have hops : (Call.generateFixDelay x y).operands ctx = [x, y] := by
        rw [Call.operands, if_neg hd]
      apply Ends.bind (h.does (u := y) (by rw [hops]; simp) hI₁ hE₁)
      intro d σ₃ h₃
      obtain ⟨hI₃, hE₃, hcy⟩ := h₃
      apply h.ends_read hI₃ (hE₁.trans hE₃)
      intro u hu
      rw [hops, List.mem_cons, List.mem_singleton] at hu
      rcases hu with rfl | rfl
      · exact hE₃.coded _ hcx
      · exact hcy

theorem Called.ends_generatePrefix {x e : Tree}
    (h : Called ctx signals root size f k m sig (.generatePrefix x e) σ) :
    Ends (generatePrefix ctx f sig x e) σ (fun _ => Bad ctx signals)
      fun v σ₂ => Generated ctx signals sig σ v σ₂ := by
  have hops : (Call.generatePrefix x e).operands ctx = [x, e] := rfl
  unfold generatePrefix
  apply Ends.bind (quiet_getFreshID _).ends
  intro vperm σ₁ h₁
  apply Ends.bind (quiet_getFreshID _).ends
  intro vtemp σ₂ h₂
  apply Ends.bind (quiet_push _).ends
  intro _ σ₃ h₃
  have hs₃ := (h₁.trans h₂).trans h₃
  apply Ends.bind (h.does (u := x) (by rw [hops]; simp) (hs₃.inv h.inv) hs₃.extends)
  intro vx σ₄ h₄
  obtain ⟨hI₄, hE₄, hx⟩ := h₄
  apply Ends.bind (quiet_push _).ends
  intro _ σ₅ h₅
  apply Ends.bind (quiet_push _).ends
  intro _ σ₆ h₆
  have hs₆ := h₅.trans h₆
  have hE₆ := (hs₃.extends.trans hE₄).trans hs₆.extends
  apply Ends.bind (h.does (u := e) (by rw [hops]; simp) (hs₆.inv hI₄) hE₆)
  intro ve σ₇ h₇
  obtain ⟨hI₇, hE₇, he⟩ := h₇
  apply Ends.bind (quiet_push _).ends
  intro _ σ₈ h₈
  apply Ends.pure
  apply h.generated_of_same rfl hI₇ (hE₆.trans hE₇) _ h₈ (by simp)
  intro u hu
  rw [hops, List.mem_cons, List.mem_singleton] at hu
  rcases hu with rfl | rfl
  · exact hE₇.coded _ (hs₆.coded_iff.2 hx)
  · exact he

theorem Called.ends_generateWRTbl {tbl idx data : Tree}
    (h : Called ctx signals root size f k m sig (.generateWRTbl tbl idx data) σ) :
    Ends (generateWRTbl ctx f sig tbl idx data) σ (fun _ => Bad ctx signals)
      fun v σ₂ => Generated ctx signals sig σ v σ₂ := by
  unfold generateWRTbl
  apply Ends.bind (h.does_list fun u hu => hu)
  intro args σ₁ h₁
  obtain ⟨hI₁, hE₁, hops⟩ := h₁
  apply (quiet_buildCode _ _).ends.mono
  intro v σ₂ h₂
  exact h.generated_of_same rfl hI₁ hE₁ hops h₂ (by simp)

theorem Called.ends_generateTable {tsize content : Tree}
    (h : Called ctx signals root size f k m sig (.generateTable tsize content) σ) :
    Ends (generateTable ctx f sig tsize content) σ (fun _ => Bad ctx signals)
      fun v σ₂ => Generated ctx signals sig σ v σ₂ := by
  have hchecks := h.checks
  simp only [Call.checks, Bool.and_eq_true] at hchecks
  unfold generateTable
  apply Ends.bind (h.does (u := content) (by simp [Call.operands, Call.subsignals]) h.inv
    (.refl _))
  intro generator σ₁ h₁
  obtain ⟨hI₁, hE₁, hc⟩ := h₁
  rw [if_neg (by simpa [Option.isSome_iff_ne_none] using hchecks.2),
    if_neg (by simpa [Option.isSome_iff_ne_none] using hchecks.1)]
  apply (quiet_buildCode _ _).ends.mono
  intro v σ₂ h₂
  apply h.generated_of_same rfl hI₁ hE₁ _ h₂ (by simp)
  intro u hu
  simp only [Call.operands, Call.subsignals, List.mem_singleton] at hu
  exact hu ▸ hc

theorem Called.ends_generateSigGen {content : Tree}
    (h : Called ctx signals root size f k m sig (.generateSigGen content) σ) :
    Ends (generateSigGen ctx sig content) σ (fun _ => Bad ctx signals)
      fun v σ₂ => Generated ctx signals sig σ v σ₂ := by
  unfold generateSigGen
  have hok := h.ready.contents sig content h.compiled h.call
  apply Ends.bind (Q := fun _ σ₁ => σ₁ = σ)
  · rw [hok]
    exact Ends.pure rfl
  · rintro _ σ₁ rfl
    apply (quiet_buildCode _ _).ends.mono
    intro v σ₂ h₂
    exact h.generated_of_same rfl h.inv (.refl _) (by simp [Call.operands, Call.subsignals]) h₂
      (by simp)

/-- An operand is compiled in turn. -/
theorem Called.operandCalled (h : Called ctx signals root size f k m sig c σ) {u : Tree}
    {c' : Call} (hu : u ∈ c.operands ctx) (hc' : dispatch u = some c') (hI : Inv ctx signals σ₁)
    (hE : Extends ctx σ σ₁) : Called ctx signals root size f k m u c' σ₁ where
  ready := h.ready
  inv := hI
  compiled := .operand h.compiled h.call hu
  call := hc'
  checks := by
    obtain ⟨c₂, hc₂, hchecks⟩ := h.ready.call u (.operand h.compiled h.call hu)
    obtain rfl : c' = c₂ := Option.some.inj (hc'.symm.trans hc₂)
    exact hchecks
  below hv r hr := hE.coded _ (h.below hv r (hr.of_operand h.call hu))
  small v hv := by
    have hlt := size_lt_of_dispatch hc' hv
    have hle := h.small u (operands_subset c hu)
    omega
  pending := hE.pending_le.trans h.pending
  operand := h.operand
  definition := h.definition

/-- A signal is compiled, unless it has code. -/
theorem ends_compileOnce (hsig : dispatch sig = some c) (hc : Compiled ctx signals sig)
    (hI : Inv ctx signals σ) {generate : M ValueInst}
    (hgen : Ends generate σ (fun _ => Bad ctx signals) fun v σ₂ =>
      Generated ctx signals sig σ v σ₂) :
    Does ctx signals (compileOnce sig generate) σ fun _ σ' => σ'.Coded sig := by
  unfold compileOnce
  apply Ends.bind (ends_getCompiledExpression (Q := fun a σ₁ => a = σ.fCompileProperty sig ∧
    σ₁ = σ) ⟨rfl, rfl⟩)
  rintro a σ₁ ⟨ha, rfl⟩
  split
  · refine .pure ⟨hI, .refl _, ?_⟩
    show (σ₁.fCompileProperty sig).isSome
    rw [← ha]
    rfl
  · apply Ends.bind hgen
    intro v σ₂ h₂
    exact h₂.does hsig hc

theorem dispatch_of_isSigGen {t s : Tree} (h : isSigGen t = some s) :
    dispatch t = some (.generateSigGen s) := by
  unfold isSigGen at h
  split at h
  · next x => rw [Option.some.inj h]; rfl
  · simp at h

theorem dispatch_of_isSigTable {t n s : Tree} (h : isSigTable t = some (n, s)) :
    dispatch t = some (.generateTable n s) := by
  unfold isSigTable at h
  split at h
  · obtain ⟨rfl, rfl⟩ := Prod.mk.inj (Option.some.inj h)
    rfl
  · simp at h

theorem Called.ends_generateStaticTable {tsize content : Tree}
    (h : Called ctx signals root size f k m sig (.generateTable tsize content) σ) :
    Ends (generateStaticTable ctx sig tsize content) σ (fun _ => Bad ctx signals)
      fun v σ₂ => Generated ctx signals sig σ v σ₂ := by
  have hchecks := h.checks
  simp only [Call.checks, Bool.and_eq_true] at hchecks
  obtain ⟨g, hg⟩ := Option.isSome_iff_exists.1 hchecks.2
  have hop : content ∈ (Call.generateTable tsize content).operands ctx := List.mem_singleton_self _
  have hcall := h.operandCalled hop (dispatch_of_isSigGen hg) h.inv (.refl _)
  unfold generateStaticTable
  rw [hg]
  apply Ends.bind (ends_compileOnce hcall.call hcall.compiled h.inv hcall.ends_generateSigGen)
  intro cexp σ₁ h₁
  obtain ⟨hI₁, hE₁, hc⟩ := h₁
  rw [if_neg (by simpa [Option.isSome_iff_ne_none] using hchecks.1)]
  apply (quiet_buildCode _ _).ends.mono
  intro v σ₂ h₂
  apply h.generated_of_same rfl hI₁ hE₁ _ h₂ (by simp)
  intro u hu
  exact List.mem_singleton.1 hu ▸ hc

theorem Called.ends_generateRDTbl {tbl idx : Tree}
    (h : Called ctx signals root size f k m sig (.generateRDTbl tbl idx) σ) :
    Ends (generateRDTbl ctx f sig tbl idx) σ (fun _ => Bad ctx signals)
      fun v σ₂ => Generated ctx signals sig σ v σ₂ := by
  have hops : (Call.generateRDTbl tbl idx).operands ctx = [tbl, idx] := rfl
  have htbl : tbl ∈ (Call.generateRDTbl tbl idx).operands ctx := by rw [hops]; simp
  unfold generateRDTbl
  apply Ends.bind (Q := fun _ σ' => Inv ctx signals σ' ∧ Extends ctx σ σ' ∧ σ'.Coded tbl)
  · unfold compileTable
    split
    · next n content heq =>
      have hcall := h.operandCalled htbl (dispatch_of_isSigTable heq) h.inv (.refl _)
      exact ends_compileOnce hcall.call hcall.compiled h.inv hcall.ends_generateStaticTable
    · exact h.does htbl h.inv (.refl _)
  · intro tblname σ₁ h₁
    obtain ⟨hI₁, hE₁, hct⟩ := h₁
    apply Ends.bind (h.does (u := idx) (by rw [hops]; simp) hI₁ hE₁)
    intro i σ₂ h₂
    obtain ⟨hI₂, hE₂, hci⟩ := h₂
    apply Ends.bind (quiet_buildCode _ _).ends
    intro exp σ₃ h₃
    apply h.ends_cache rfl (by simp) (h₃.inv hI₂) ((hE₁.trans hE₂).trans h₃.extends)
    intro u hu
    rw [hops, List.mem_cons, List.mem_singleton] at hu
    rcases hu with rfl | rfl
    · exact h₃.coded_iff.2 (hE₂.coded _ hct)
    · exact h₃.coded_iff.2 hci

/-- A projection that is compiled is one of those of its group that are used. -/
theorem Ready.projection (hready : Ready ctx signals root size) (hc : Compiled ctx signals sig)
    {i : ℕ} {r : Tree} (hcall : dispatch sig = some (.generateRecProj i r)) :
    sig = sigProj i r ∧ (∃ e, (e, i) ∈ definitionsOf ctx r) ∧ Enters ctx sig r := by
  obtain ⟨c, hc', hchecks⟩ := hready.call sig hc
  obtain rfl := Option.some.inj (hcall.symm.trans hc')
  cases hle : isRec ctx.graph r with
  | none => simp [Call.checks, hle] at hchecks
  | some le =>
    simp only [Call.checks, hle, Bool.and_eq_true, decide_eq_true_eq] at hchecks
    obtain ⟨hi, hsig⟩ := hchecks
    refine ⟨hsig, ⟨le[i], ?_⟩, ?_⟩
    · rw [definitionsOf, hle, Option.map_some, Option.getD_some]
      refine List.mem_filter.2 ⟨List.mem_zipIdx_iff_getElem?.2 (List.getElem?_eq_getElem hi), ?_⟩
      exact hsig ▸ hready.marked _ (hready.reached _ hc)
    · by_cases hv : ctx.vectorMode = true
      · rw [Enters, if_pos hv]
        have hss : Faust.getSubSignals false sig = some [r] := by
          rw [hsig]
          rfl
        exact .child (isRec_of_dispatch hcall) hss (List.mem_singleton_self r)
          (.self (by rw [hle]; rfl))
      · rw [Enters, if_neg hv]
        exact ⟨i, hcall⟩

theorem isRec_of_mem_definitionsOf {r : Tree} {d : Tree × ℕ} (h : d ∈ definitionsOf ctx r) :
    (isRec ctx.graph r).isSome := by
  cases hr : isRec ctx.graph r with
  | none => rw [definitionsOf_of_isRec hr] at h; simp at h
  | some le => rfl

/-- A projection enters its group alone. -/
theorem Enters.eq_of_sigProj {j : ℕ} {r s : Tree} (h : Enters ctx (sigProj j r) s)
    (hrec : (isRec ctx.graph r).isSome) : s = r := by
  by_cases hv : ctx.vectorMode = true
  · rw [Enters, if_pos hv] at h
    cases h with
    | self hself => simp [isRec, sigProj] at hself
    | @child _ u _ ss _ hss hu hs =>
      obtain rfl : [r] = ss := Option.some.inj hss
      rw [List.mem_singleton.1 hu] at hs
      exact hs.eq_of_isRec hrec
  · rw [Enters, if_neg hv] at h
    obtain ⟨i, hi⟩ := h
    have heq : dispatch (sigProj j r) = some (.generateRecProj (j : ℤ).toNat r) := rfl
    rw [heq, Option.some.injEq, Call.generateRecProj.injEq] at hi
    exact hi.2.symm

theorem Called.ends_generateRecProj {i : ℕ} {r : Tree}
    (h : Called ctx signals root size f k m sig (.generateRecProj i r) σ) :
    Ends (generateRecProj ctx f sig r i) σ (fun _ => Bad ctx signals)
      fun v σ₂ => Generated ctx signals sig σ v σ₂ := by
  obtain ⟨hsig, ⟨e, hmem⟩, henters⟩ := h.ready.projection h.compiled h.call
  have hrec := isRec_of_mem_definitionsOf hmem
  obtain ⟨le, hle⟩ := Option.isSome_iff_exists.1 hrec
  have hone : ∀ s, Enters ctx sig s → s = r := fun s hs => (hsig ▸ hs).eq_of_sigProj hrec
  have hgen : ∀ {v σ₁}, Inv ctx signals σ₁ → Extends ctx σ σ₁ → Entered ctx σ₁ r →
      Generated ctx signals sig σ v σ₁ := by
    intro v σ₁ hI hE hent
    have hnamed : σ₁.Named sig := by
      rw [hsig]
      exact hI.names r hent _ hmem
    refine ⟨⟨σ₁, hI, hE, .of_same (.refl _) fun _ _ _ _ => hnamed, Or.inr ?_, ?_⟩, ?_⟩
    · intro c' u hc' hu
      obtain rfl := Option.some.inj (h.call.symm.trans hc')
      simp [Call.operands, Call.subsignals] at hu
    · exact fun s hs => hone s hs ▸ hent
    · intro x y hfix
      simp [h.call] at hfix
  unfold generateRecProj
  apply Ends.bind (ends_getVectorNameProperty (Q := fun a σ₁ => a = σ.fVectorProperty sig ∧
    σ₁ = σ) ⟨rfl, rfl⟩)
  rintro a σ₁ ⟨ha, rfl⟩
  split
  · next vname =>
    -- the compilation of the group has begun
    apply Ends.pure
    apply hgen h.inv (.refl _)
    apply h.inv.begun r _ hmem
    rw [Compiler.Named, ← hsig, ← ha]
    rfl
  · have hn : ¬ Entered ctx σ₁ r := by
      intro hent
      have hnamed := h.inv.names r hent _ hmem
      rw [Compiler.Named, ← hsig, ← ha] at hnamed
      simp at hnamed
    have hv : ctx.vectorMode = false := by
      by_contra hv
      rw [Bool.not_eq_false] at hv
      apply hn
      rw [Enters, if_pos hv] at henters
      rw [Entered, if_pos hv]
      exact h.below hv r henters
    rw [hle]
    apply Ends.bind (ends_generateRec h.ready hle h.compiled henters h.inv hn
      (fun t => show σ₁.fCompileProperty t = _ by simp [hv]) rfl
      (fun k' hk' => h.definition k' (lt_of_lt_of_le hk' h.pending)) (some i))
    intro res σ₂ h₂
    obtain ⟨hI₂, hE₂, hent⟩ := h₂
    apply Ends.bind (ends_getVectorNameProperty (Q := fun a σ₃ => a = σ₂.fVectorProperty sig ∧
      σ₃ = σ₂) ⟨rfl, rfl⟩)
    rintro a σ₃ ⟨ha₂, rfl⟩
    have hnamed : a.isSome := by
      rw [ha₂, hsig]
      exact hI₂.names r hent _ hmem
    rw [if_neg (by simpa [Option.isSome_iff_ne_none] using hnamed)]
    exact .pure (hgen hI₂ hE₂ hent)

/-- `generateCode`, for a signal that has no code yet or one that recursions gave code. -/
theorem Called.ends_generateCode (h : Called ctx signals root size f k m sig c σ) :
    Ends (generateCode ctx f sig) σ (fun _ => Bad ctx signals)
      fun v σ₂ => Generated ctx signals sig σ v σ₂ := by
  unfold generateCode
  apply Ends.bind (ends_getCompiledExpression (Q := fun a σ₁ => a = σ.fCompileProperty sig ∧
    σ₁ = σ) ⟨rfl, rfl⟩)
  rintro a σ₁ ⟨ha, rfl⟩
  split
  · next code =>
    apply Ends.pure
    have hcoded : σ₁.Coded sig := by
      rw [Compiler.Coded, ← ha]
      rfl
    constructor
    · refine ⟨σ₁, h.inv, .refl _, .of_same (.refl _) ?_, Or.inl hcoded, ?_⟩
      · exact fun c' hc' hr hd => h.inv.named sig c' hcoded hc' hr hd
      · exact fun r hr => h.inv.entered sig r hcoded hr
    · exact fun x y hfix hd => h.inv.delayed sig x y code hfix ha.symm hd
  · rw [h.call]
    cases c with
    | generateCached operands => exact h.ends_generateCached
    | generateNumber => exact h.ends_generateNumber
    | generateInput => exact h.ends_generateInput
    | generateFixDelay x y => exact h.ends_generateFixDelay
    | generatePrefix x y => exact h.ends_generatePrefix
    | generateIota =>
      exact .pure (h.generated_of_same rfl h.inv (.refl _)
        (by simp [Call.operands, Call.subsignals]) (.refl _) (by simp))
    | generateTable tsize content => exact h.ends_generateTable
    | generateWRTbl tbl idx data => exact h.ends_generateWRTbl
    | generateRDTbl tbl idx => exact h.ends_generateRDTbl
    | generateSigGen content => exact h.ends_generateSigGen
    | generateRecProj i r => exact h.ends_generateRecProj
    | generateAttach x y => exact h.ends_generateAttach

end

/-! ## Runs -/

/-- Tables are not gone through for groups. -/
theorem getSubSignals_false {t : Tree} {ss : List Tree}
    (h : Faust.getSubSignals true t = some ss) :
    Faust.getSubSignals false t = some (if Occ.isSigGen t then [] else ss) := by
  unfold Faust.getSubSignals at h ⊢
  split at h
  all_goals
    simp only [Option.some.injEq, reduceCtorEq] at h
    try subst h
  all_goals simp_all [Occ.isSigGen]

/-- The signals below a signal, for a signal that is not a group. -/
theorem subSignals_of_reached {g : Graph} {t : Tree} (ht : Reached g root t)
    (hrec : (g.getSubSignals t).isSome) (hn : isRec g t = none) :
    ∃ ss, Faust.getSubSignals false t = some ss ∧
      ∀ s ∈ ss, Reached g root s ∧ s.size < t.size := by
  obtain ⟨ss, hss⟩ := Option.isSome_iff_exists.1 hrec
  have hchildren : children g t = if Occ.isSigGen t then [] else ss := by
    rw [children, hss]
    rfl
  have htrue : Faust.getSubSignals true t = some ss := by
    unfold Graph.getSubSignals at hss
    split at hss
    · next v =>
      rw [isRec, Option.map_eq_none_iff] at hn
      rw [hn] at hss
      simp at hss
    · exact hss
  have hfalse := getSubSignals_false htrue
  refine ⟨_, hfalse, fun s hs => ⟨.child ht ?_, size_lt_of_mem_getSubSignals hfalse hs⟩⟩
  rwa [hchildren]

/-- The definitions of the groups below a signal are compiled before it. -/
theorem does_generateCodeRecursions (hready : Ready ctx signals root size)
    (hv : ctx.vectorMode = true) {u : Tree} (hu : Compiled ctx signals u)
    (hf : ∀ k', k' < k → Compiles ctx signals f k' size) (n : ℕ) {t : Tree}
    (ht : Reached ctx.graph root t) (hn : t.size < n)
    (hbelow : ∀ r, Below ctx.graph t r → Below ctx.graph u r) (hI : Inv ctx signals σ)
    (hk : pending ctx σ ≤ k) :
    Does ctx signals (generateCodeRecursions ctx f n t) σ fun _ σ' =>
      ∀ r, Below ctx.graph t r → σ'.Coded r := by
  induction n generalizing t σ with
  | zero => omega
  | succ n ih =>
    rw [generateCodeRecursions]
    apply Ends.bind (ends_getCompiledExpression (Q := fun a σ₁ => a = σ.fCompileProperty t ∧
      σ₁ = σ) ⟨rfl, rfl⟩)
    rintro a σ₁ ⟨rfl, rfl⟩
    split
    · next hcoded =>
      refine .pure ⟨hI, .refl _, fun r hr => ?_⟩
      have hent := hI.entered t r hcoded (by rw [Enters, if_pos hv]; exact hr)
      rwa [Entered, if_pos hv] at hent
    · next hcoded =>
      split
      · next le hle =>
        have hrec : (isRec ctx.graph t).isSome := by rw [hle]; rfl
        apply Ends.bind (Ends.modify (Q := fun _ σ₂ => σ₂ = { σ₁ with
          fCompileProperty := Function.update σ₁.fCompileProperty t (some .null) }) rfl)
        intro _ σ₂ hσ₂
        have henters : Enters ctx u t := by
          rw [Enters, if_pos hv]
          exact hbelow t (.self hrec)
        have hn : ¬ Entered ctx σ₁ t := by
          rw [Entered, if_pos hv]
          exact hcoded
        have hcode : ∀ s, σ₂.fCompileProperty s =
            if ctx.vectorMode = true ∧ s = t then some .null else σ₁.fCompileProperty s := by
          intro s
          by_cases hs : s = t
          · simp [hσ₂, hs, hv]
          · simp [hσ₂, hs]
        apply Ends.bind (ends_generateRec hready hle hu henters hI hn hcode (by rw [hσ₂])
          (fun k' hk' => hf k' (lt_of_lt_of_le hk' hk)) none)
        intro _ σ₃ h₃
        obtain ⟨hI₃, hE₃, hent⟩ := h₃
        refine .pure ⟨hI₃, hE₃, fun r hr => ?_⟩
        rw [Entered, if_pos hv] at hent
        rwa [hr.eq_of_isRec hrec]
      · next hnone =>
        obtain ⟨ss, hss, hsub⟩ := subSignals_of_reached ht (hready.recognized t ht) hnone
        rw [hss]
        apply Ends.mono (Ends.forM (I := fun σ => Inv ctx signals σ ∧ pending ctx σ ≤ k)
          (G := Extends ctx) (P := fun s σ => ∀ r, Below ctx.graph s r → σ.Coded r)
          Extends.refl Extends.trans (fun h hE r hr => hE.coded r (h r hr)) _ ⟨hI, hk⟩)
        · intro _ σ₂ h₂
          obtain ⟨⟨hI₂, _⟩, hE₂, hP₂⟩ := h₂
          refine ⟨hI₂, hE₂, fun r hr => ?_⟩
          cases hr with
          | self hself => simp [hnone] at hself
          | @child _ s _ ss' _ hss' hs hr =>
            obtain rfl := Option.some.inj (hss.symm.trans hss')
            exact hP₂ s hs r hr
        · intro s hs σ₂ h₂
          obtain ⟨hreach, hsize⟩ := hsub s hs
          apply Ends.mono (ih hreach (by omega)
            (fun r hr => hbelow r (.child hnone hss hs hr)) h₂.1 h₂.2)
          intro _ σ₃ h₃
          exact ⟨⟨h₃.1, h₃.2.1.pending_le.trans h₂.2⟩, h₃.2.1, h₃.2.2⟩

/-- `CS`, with enough fuel for the groups that are left and for the signal. -/
theorem compiles_CS (hready : Ready ctx signals root size) (fuel k m : ℕ)
    (h : k * (size + 1) + m ≤ fuel) : Compiles ctx signals (CS ctx fuel) k m := by
  induction fuel generalizing k m with
  | zero =>
    intro σ t _ _ _ hsize
    have := t.size_pos
    omega
  | succ fuel ih =>
    intro σ t hI hc hk hsize
    obtain ⟨c, hcall, hchecks⟩ := hready.call t hc
    have hpos := t.size_pos
    have hdefs : ∀ k', k' < k → Compiles ctx signals (CS ctx fuel) k' size := by
      intro k' hk'
      apply ih
      have hmul : (k' + 1) * (size + 1) ≤ k * (size + 1) := Nat.mul_le_mul_right _ hk'
      have hexp : (k' + 1) * (size + 1) = k' * (size + 1) + (size + 1) := by ring
      omega
    have hcalled : ∀ {σ₁}, Inv ctx signals σ₁ → Extends ctx σ σ₁ →
        (ctx.vectorMode = true → ∀ r, Below ctx.graph t r → σ₁.Coded r) →
        Called ctx signals root size (CS ctx fuel) k (m - 1) t c σ₁ := by
      intro σ₁ hI₁ hE₁ hb
      refine ⟨hready, hI₁, hc, hcall, hchecks, hb, ?_, hE₁.pending_le.trans hk,
        ih k (m - 1) (by omega), hdefs⟩
      intro u hu
      have hlt := size_lt_of_dispatch hcall hu
      omega
    rw [CS]
    apply Ends.bind (ends_getCompiledExpression (Q := fun a σ₁ => a = σ.fCompileProperty t ∧
      σ₁ = σ) ⟨rfl, rfl⟩)
    rintro a σ₁ ⟨ha, rfl⟩
    split
    · refine .pure ⟨hI, .refl _, ?_⟩
      show (σ₁.fCompileProperty t).isSome
      rw [← ha]
      rfl
    · dsimp only
      split
      · next hv =>
        apply Does.bind (does_generateCodeRecursions hready hv hc hdefs (t.size + 1)
          (hready.reached t hc) (by omega) (fun _ h => h) hI hk)
        intro _ σ₂ hI₂ hE₂ hb
        apply Ends.bind (hcalled hI₂ hE₂ fun _ => hb).ends_generateCode
        intro v σ₃ h₃
        exact h₃.does hcall hc
      · next hv =>
        apply Ends.bind (hcalled hI (.refl _) fun h => absurd h hv).ends_generateCode
        intro v σ₃ h₃
        exact h₃.does hcall hc

end

/-! ## What is compiled is compiled with all it needs -/

theorem inv_start : Inv ctx signals .start where
  compiled t h := by simp [Compiler.Coded, Compiler.start] at h
  recorded t h := by simp [Compiler.Named, Compiler.start] at h
  coded t h := by simp [Compiler.Named, Compiler.start] at h
  named t c h := by simp [Compiler.Coded, Compiler.start] at h
  fits t h := by simp [Compiler.Named, Compiler.start] at h
  delayed t x y v _ h := by simp [Compiler.start] at h
  entered t r h := by simp [Compiler.Coded, Compiler.start] at h
  names r h d hd := by
    by_cases hv : ctx.vectorMode = true
    · rw [Entered, if_pos hv] at h
      simp [Compiler.Coded, Compiler.start] at h
    · rw [Entered, if_neg hv] at h
      exact h d hd
  begun r d hd h := by simp [Compiler.Named, Compiler.start] at h

/-- A group that a compilation has entered is compiled at its end. -/
theorem Extends.done (h : Extends ctx .start σ) {r : Tree} (hr : Entered ctx σ r) :
    Done ctx σ r := by
  by_cases hs : Entered ctx .start r
  · intro d hd
    have hI : Inv ctx [] .start := inv_start
    have hn := hI.names r hs d hd
    simp [Compiler.Named, Compiler.start] at hn
  · exact h.groups r hr hs

/-- At the end, all that had to be compiled is compiled, or is a projection of a group that is. -/
theorem coded_of_compiled (hI : Inv ctx signals σ) (hE : Extends ctx .start σ)
    (hs : ∀ t ∈ signals, σ.Coded t) {t : Tree} (ht : Compiled ctx signals t) :
    σ.Coded t ∨ ∃ r, ∃ d ∈ definitionsOf ctx r, t = sigProj d.2 r ∧ Entered ctx σ r := by
  have hnew : ∀ u, ¬ Compiler.start.Coded u := by simp [Compiler.Coded, Compiler.start]
  have henter : ∀ {u s}, (σ.Coded u ∨ ∃ r, ∃ d ∈ definitionsOf ctx r, u = sigProj d.2 r ∧
      Entered ctx σ r) → Enters ctx u s → Entered ctx σ s := by
    rintro u s (hu | ⟨r, d, hd, rfl, hr⟩) hs
    · exact hI.entered u s hu hs
    · rwa [hs.eq_of_sigProj (isRec_of_mem_definitionsOf hd)]
  induction ht with
  | signal h => exact Or.inl (hs _ h)
  | @operand u t c hu hc ht ih =>
    rcases ih with hcoded | ⟨r, d, _, rfl, _⟩
    · exact Or.inl (hE.operands u c t hcoded (hnew u) hc ht)
    · obtain rfl := Option.some.inj hc
      simp [Call.operands, Call.subsignals] at ht
  | definition hu hr hd ih => exact Or.inl ((hE.done (henter ih hr)) _ hd).2.1
  | projection hu hr hd ih => exact Or.inr ⟨_, _, hd, rfl, henter ih hr⟩

variable {root : Tree} {size : ℕ}

/-- At the end of a compilation, the signals that are used delayed have vectors when they can be
used delayed, and only then. -/
theorem vectorsNamed_iff_of_inv (hI : Inv ctx signals σ) (hE : Extends ctx .start σ)
    (hs : ∀ t ∈ signals, σ.Coded t) (hready : Ready ctx signals root size) :
    VectorsNamed ctx σ ↔ ∀ t, Compiled ctx signals t → CanBeDelayed ctx t := by
  constructor
  · intro h t ht hpos
    obtain ⟨c, hc, _⟩ := hready.call t ht
    have hnamed : σ.Named t := by
      rcases coded_of_compiled hI hE hs ht with hcoded | ⟨r, d, hd, rfl, hr⟩
      · exact h.named t hcoded (isRec_of_dispatch hc) hpos
      · exact hI.names r hr d hd
    refine ⟨(hI.recorded t hnamed).2, ?_⟩
    by_cases hp : IsProjection t
    · obtain ⟨i, r, hcall⟩ := hp
      obtain ⟨rfl, ⟨e, he⟩, henters⟩ := hready.projection ht hcall
      exact (hE.done (hI.begun r _ he hnamed) _ he).2.2 hpos
    · exact hI.fits t hnamed hp hpos
  · intro h
    refine ⟨?_, hI.delayed⟩
    intro t hcoded hrec hpos
    have ht : Compiled ctx signals t := by
      rcases hI.compiled t hcoded with ht | hsome
      · exact ht
      · simp [hrec] at hsome
    obtain ⟨⟨c, hc, hr⟩, _⟩ := h t ht hpos
    exact hI.named t c hcoded hc hr hpos

/-- The compilation of the signals of a container. -/
theorem ends_signals (hready : Ready ctx signals root size) {fuel : ℕ}
    (hfuel : ctx.graph.recDefs.length * (size + 1) + size ≤ fuel) :
    Ends (signals.mapM (CS ctx fuel)) .start (fun _ => Bad ctx signals) fun _ σ =>
      Inv ctx signals σ ∧ Extends ctx .start σ ∧ ∀ t ∈ signals, σ.Coded t := by
  classical
  have hpending : pending ctx .start ≤ ctx.graph.recDefs.length := by
    apply (Finset.card_filter_le _ _).trans
    apply (List.toFinset_card_le _).trans
    rw [List.length_map]
  exact (compiles_CS hready fuel _ size hfuel).list inv_start hpending fun t ht =>
    ⟨.signal ht, hready.size t (hready.reached t (.signal ht))⟩

end

end Faust.Codegen
