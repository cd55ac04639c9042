import Faust.Generator.VecDelayLine
import Faust.Generator.DelayLineTheorems

/-!
# The code of a vector delay line

What `generateDelayLine` pushes on each section, and what each piece of it does to the
variables of the line.
-/

namespace Faust.Fir

open InstBuilder DelayBuffer

/-! ## Sections -/

/-- The code of the sections. -/
structure Sections where
  declare : List StatementInst
  init : List StatementInst
  block : List StatementInst
  pre : List StatementInst
  compute : List StatementInst
  post : List StatementInst

/-- The sections of a compiler. -/
def InstructionsCompiler.sections (c : InstructionsCompiler) : Sections :=
  ⟨c.fDeclarationInstructions, c.fInitInstructions, c.fComputeBlockInstructions, c.fPreInst,
    c.fComputeInst, c.fPostInst⟩

/-- Sections followed by others. -/
def Sections.append (a b : Sections) : Sections :=
  ⟨a.declare ++ b.declare, a.init ++ b.init, a.block ++ b.block, a.pre ++ b.pre,
    a.compute ++ b.compute, a.post ++ b.post⟩

namespace DAGInstructionsCompiler

/-! ## Sizes -/

theorem roundDelay_of_lt {d : ℕ} (h : d + 3 < 2 ^ 31) : roundDelay d = some ((d + 3) / 4 * 4) := by
  rw [roundDelay, if_pos h, Bits.ofNat_and_neg_four (by omega)]

theorem roundDelay_of_ge {d : ℕ} (h : ¬ d + 3 < 2 ^ 31) : roundDelay d = none := if_neg h

/-! ## What is pushed -/

/-- The code of a line without delay. -/
def vectorCode (gVecSize : ℕ) (ctype : VarType) (vname : String) (exp : ValueInst) : Sections :=
  ⟨[], [], [genDecStackVar vname (.array ctype gVecSize) none], [],
    [genStoreArrayStackVar vname getCurrentLoopIndex exp], []⟩

/-- The code of a short line, with its rounded delay and the indices of its loops. -/
def copyCode (gVecSize : ℕ) (ctype : VarType) (vname : String) (exp : ValueInst) (delay : ℕ)
    (i j : String) : Sections :=
  ⟨[genDecStructVar (vname ++ "_perm") (.array ctype delay) none],
    [initLoop i (vname ++ "_perm") ctype delay],
    [genDecStackVar (vname ++ "_tmp") (.array ctype (gVecSize + delay)) none,
      genDecStackVar vname (.array ctype 0)
        (some (genLoadArrayStackVarAddress (vname ++ "_tmp") (.intNum delay)))],
    [copyLoop j (vname ++ "_tmp") (vname ++ "_perm") delay],
    [genStoreArrayStackVar vname getCurrentLoopIndex exp],
    [generateCopyBackArray (vname ++ "_perm") (vname ++ "_tmp") delay]⟩

/-- The code of a long line, with the size of its ring and the index of its loop. -/
def ringCode (ctype : VarType) (vname : String) (exp : ValueInst) (size : ℕ) (i : String) :
    Sections :=
  ⟨[genDecStructVar vname (.array ctype size) none,
      genDecStructVar (vname ++ "_idx") (.basic .kInt) none,
      genDecStructVar (vname ++ "_idx_save") (.basic .kInt) none],
    [initLoop i vname ctype size, genStoreStructVar (vname ++ "_idx") (.intNum 0),
      genStoreStructVar (vname ++ "_idx_save") (.intNum 0)],
    [],
    [genStoreStructVar (vname ++ "_idx") (genAnd (genAdd (genLoadStructVar (vname ++ "_idx"))
      (genLoadStructVar (vname ++ "_idx_save"))) (.intNum (size - 1)))],
    [genStoreArrayStructVar vname (genAnd (genAdd getCurrentLoopIndex
      (genLoadStructVar (vname ++ "_idx"))) (.intNum (size - 1))) exp],
    [genStoreStructVar (vname ++ "_idx_save") (genLoadStackVar "count")]⟩

/-- The code of the index of a waveform. -/
def waveformCode (vname : String) (size : ℕ) : Sections :=
  ⟨[genDecStructVar (vname ++ "_idx") (.basic .kInt) none],
    [genStoreStructVar (vname ++ "_idx") (.intNum 0)], [], [], [],
    [genStoreStructVar (vname ++ "_idx") (genRem (genAdd (genLoadStructVar (vname ++ "_idx"))
      (genLoadStackVar "count")) (.intNum size))]⟩

section
variable {mcd : ℤ} {vs mxd : ℕ} {exp : ValueInst} {ctype : VarType} {vname : String}

theorem generateDelayLine_zero (c : InstructionsCompiler) :
    ∃ c', generateDelayLine mcd vs exp ctype vname 0 c = some c' ∧
      c'.sections = c.sections.append (vectorCode vs ctype vname exp) := by
  refine ⟨_, rfl, ?_⟩
  simp [generateVectorLoop, InstructionsCompiler.sections, Sections.append, vectorCode,
    InstructionsCompiler.pushComputeBlockMethod, InstructionsCompiler.pushComputeDSPMethod]

theorem generateDelayLine_copy (h₀ : mxd ≠ 0) (hlt : (mxd : ℤ) < mcd) {r : ℕ}
    (hr : roundDelay mxd = some r) (hsize : vs + r < 2 ^ 31) (c : InstructionsCompiler) :
    ∃ c', generateDelayLine mcd vs exp ctype vname mxd c = some c' ∧
      c'.sections = c.sections.append
        (copyCode vs ctype vname exp r (c.freshID "i") (c.freshID "j")) := by
  have hsum : addSizes vs r = some (vs + r) := if_pos hsize
  refine ⟨_, by simp only [generateDelayLine, if_neg h₀, generateDlineLoop, if_pos hlt, hr,
    Option.bind_eq_bind, Option.bind_some, hsum]; rfl, ?_⟩
  simp [generateInitArray, generateCopyArray, InstructionsCompiler.sections, Sections.append,
    copyCode, InstructionsCompiler.pushDeclare, InstructionsCompiler.pushInitMethod,
    InstructionsCompiler.pushComputeBlockMethod, InstructionsCompiler.pushComputePreDSPMethod,
    InstructionsCompiler.pushComputeDSPMethod, InstructionsCompiler.pushComputePostDSPMethod,
    InstructionsCompiler.countID, InstructionsCompiler.freshID]

theorem generateDelayLine_ring (h₀ : mxd ≠ 0) (hge : ¬ (mxd : ℤ) < mcd) {n : ℕ}
    (hsize : mxd + vs < 2 ^ 31) (hn : pow2limit (mxd + vs) = some n) (c : InstructionsCompiler) :
    ∃ c', generateDelayLine mcd vs exp ctype vname mxd c = some c' ∧
      c'.sections = c.sections.append (ringCode ctype vname exp n (c.freshID "i")) := by
  have hsum : addSizes mxd vs = some (mxd + vs) := if_pos hsize
  refine ⟨_, by simp only [generateDelayLine, if_neg h₀, generateDlineLoop, if_neg hge, hsum,
    Option.bind_eq_bind, Option.bind_some, hn]; rfl, ?_⟩
  simp [generateInitArray, InstructionsCompiler.sections, Sections.append, ringCode,
    InstructionsCompiler.pushDeclare, InstructionsCompiler.pushInitMethod,
    InstructionsCompiler.pushComputePreDSPMethod, InstructionsCompiler.pushComputeDSPMethod,
    InstructionsCompiler.pushComputePostDSPMethod, InstructionsCompiler.countID]

theorem generateWaveform_sections (vname : String) (size : ℕ) (c : InstructionsCompiler) :
    (generateWaveform vname size c).2.sections =
      c.sections.append (waveformCode vname size) := by
  simp [generateWaveform, declareWaveform, InstructionsCompiler.sections, Sections.append,
    waveformCode, InstructionsCompiler.pushDeclare, InstructionsCompiler.pushInitMethod,
    InstructionsCompiler.pushComputePostDSPMethod]

/-- The condition under which a line is compiled: no size overflows an `int`. -/
def Fits (gMaxCopyDelay : ℤ) (gVecSize mxd : ℕ) : Prop :=
  mxd = 0 ∨ mxd < gMaxCopyDelay ∧ gVecSize + (mxd + 3) / 4 * 4 < 2 ^ 31 ∧ mxd + 3 < 2 ^ 31 ∨
    ¬ mxd < gMaxCopyDelay ∧ mxd + gVecSize ≤ 2 ^ 30

variable (mcd vs mxd exp ctype vname) in
/-- A line is compiled when its sizes fit. -/
theorem generateDelayLine_isSome_iff (c : InstructionsCompiler) :
    (generateDelayLine mcd vs exp ctype vname mxd c).isSome ↔ Fits mcd vs mxd := by
  unfold Fits
  by_cases h₀ : mxd = 0
  · subst h₀
    obtain ⟨c', hc', _⟩ := @generateDelayLine_zero mcd vs exp ctype vname c
    simp [hc']
  by_cases hlt : (mxd : ℤ) < mcd
  · by_cases hround : mxd + 3 < 2 ^ 31
    · have hr := roundDelay_of_lt hround
      by_cases hsize : vs + (mxd + 3) / 4 * 4 < 2 ^ 31
      · obtain ⟨c', hc', _⟩ :=
          @generateDelayLine_copy mcd vs mxd exp ctype vname h₀ hlt _ hr hsize c
        simp only [hc', Option.isSome_some, true_iff]
        exact .inr (.inl ⟨hlt, hsize, hround⟩)
      · have hsum : addSizes vs ((mxd + 3) / 4 * 4) = none := if_neg hsize
        have hnone : generateDelayLine mcd vs exp ctype vname mxd c = none := by
          simp only [generateDelayLine, if_neg h₀, generateDlineLoop, if_pos hlt, hr,
            Option.bind_eq_bind, Option.bind_some, hsum]
          rfl
        simp only [hnone, Option.isSome_none, Bool.false_eq_true, false_iff]
        rintro (h | ⟨_, h, _⟩ | ⟨h, _⟩)
        · exact h₀ h
        · exact hsize h
        · exact h hlt
    · have hnone : generateDelayLine mcd vs exp ctype vname mxd c = none := by
        rw [generateDelayLine, if_neg h₀, generateDlineLoop, if_pos hlt, roundDelay_of_ge hround]
        rfl
      simp only [hnone, Option.isSome_none, Bool.false_eq_true, false_iff]
      rintro (h | ⟨_, _, h⟩ | ⟨h, _⟩)
      · exact h₀ h
      · exact hround h
      · exact h hlt
  · by_cases hsize : mxd + vs ≤ 2 ^ 30
    · obtain ⟨k, _, _, hk, _⟩ := pow2limit_of_le hsize
      obtain ⟨c', hc', _⟩ :=
        @generateDelayLine_ring mcd vs mxd exp ctype vname h₀ hlt _ (by omega) hk c
      simp only [hc', Option.isSome_some, true_iff]
      exact .inr (.inr ⟨hlt, hsize⟩)
    · have hnone : generateDelayLine mcd vs exp ctype vname mxd c = none := by
        rw [generateDelayLine, if_neg h₀, generateDlineLoop, if_neg hlt]
        unfold addSizes
        split
        · simp only [Option.bind_eq_bind, Option.bind_some,
            pow2limit_of_gt (show 2 ^ 30 < mxd + vs by omega)]
          rfl
        · rfl
      simp only [hnone, Option.isSome_none, Bool.false_eq_true, false_iff]
      rintro (h | ⟨h, _⟩ | ⟨_, h⟩)
      · exact h₀ h
      · exact hlt h
      · exact hsize h

end

end DAGInstructionsCompiler

end Faust.Fir
