import Faust.Generator.OpenMPText

/-!
# What the directives cover

The graphs whose loops are all covered. A `single` is given only once to consecutive levels of one
loop, and it governs only the first statement of the code before or after a loop. The code before
a vector loop is lost in the comment `/* Pre code $/`, which stays open.
-/

namespace Faust.Omp

open Fir

/-! ## The text of a loop -/

@[simp] theorem codesTokens_append (a b : List Code) :
    codesTokens (a ++ b) = codesTokens a ++ codesTokens b := by
  induction a with
  | nil => rfl
  | cons c a ih => simp [codesTokens, ih]

theorem statementTokens_of_printsOne {s : StatementInst} (h : printsOne s = true) :
    statementTokens s = [.stmt s] := by
  unfold printsOne at h
  split at h
  · simp at h
  · next code => cases code with
    | nil => simp at h
    | cons c cs => rfl
  · next hblock hloop =>
    cases s with
    | block code => exact absurd rfl (hblock code)
    | forLoop i e inc code => exact absurd rfl (hloop i e inc code)
    | _ => rfl

theorem codesTokens_insts (insts : List Statement) :
    codesTokens (insts.map fun s => .inst s.val) = (insts.map Subtype.val).map Tok.stmt := by
  induction insts with
  | nil => rfl
  | cons s insts ih =>
    rw [List.map_cons, List.map_cons, List.map_cons, codesTokens, Code.tokens, ih,
      statementTokens_of_printsOne s.property]
    rfl

/-! ## Sections of a loop -/

/-- The label is a whole comment. -/
def Label.IsComment (label : Label) : Prop := label.tokens = [.openComment, .closeComment]

section
variable {label : Label} (hl : label.IsComment)
include hl

theorem sectionCode_tokens (insts : List Statement) :
    codesTokens (sectionCode label false insts) =
      (if insts.isEmpty then [] else [.openComment, .closeComment]) ++
        (insts.map Subtype.val).map Tok.stmt := by
  unfold sectionCode
  cases insts with
  | nil => rfl
  | cons s insts =>
    simp only [List.isEmpty_cons, Bool.false_eq_true, if_false, List.cons_append, codesTokens,
      Code.tokens]
    rw [hl, List.nil_append, codesTokens_insts]
    rfl

theorem sectionCode_omp_tokens (s : Statement) (insts : List Statement) :
    codesTokens (sectionCode label true (s :: insts)) =
      [.openComment, .closeComment] ++ ([.directive .single, .stmt s.val] ++
        (insts.map Subtype.val).map Tok.stmt) := by
  unfold sectionCode
  simp only [List.isEmpty_cons, Bool.false_eq_true, if_false, if_true, List.cons_append,
    List.nil_append, codesTokens, Code.tokens, List.map_cons]
  rw [hl, codesTokens_insts, statementTokens_of_printsOne s.property]
  rfl

theorem closed_sectionCode (omp : Bool) (insts : List Statement) :
    Closed (codesTokens (sectionCode label omp insts)) := by
  cases omp with
  | false =>
    rw [sectionCode_tokens hl]
    split
    · exact closed_stmts _
    · exact Closed.comment.append (closed_stmts _)
  | true =>
    cases insts with
    | nil => exact Closed.nil
    | cons s insts =>
      rw [sectionCode_omp_tokens hl]
      exact Closed.comment.append ((Closed.directive_stmt _ _).append (closed_stmts _))

theorem plain_sectionCode (insts : List Statement) :
    Plain (codesTokens (sectionCode label false insts)) := by
  rw [sectionCode_tokens hl]
  split
  · exact plain_stmts _
  · exact plain_comment.append Closed.comment (plain_stmts _)

/-- The `single` governs only the first statement. -/
theorem shared_sectionCode (pos : ℕ) (insts : List Statement) :
    Shared pos (codesTokens (sectionCode label true insts)) ↔ insts.length ≤ 1 := by
  cases insts with
  | nil =>
    apply iff_of_true _ (Nat.zero_le 1)
    intro e he
    simp [sectionCode, codesTokens, read, scan] at he
  | cons s insts =>
    have hfirst : ∀ p, Shared p [.directive .single, .stmt s.val] := by
      intro p e he
      simp only [read, scan, Bool.false_eq_true, if_false, List.mem_singleton] at he
      rw [he]
      exact sharedOnce_single p
    have hcomment : ∀ p, Shared p [.openComment, .closeComment] := by
      intro p e he
      simp [read, scan] at he
    rw [sectionCode_omp_tokens hl, shared_append Closed.comment,
      shared_append (Closed.directive_stmt _ _), (plain_stmts _).shared_iff (closed_stmts _),
      stmts_map_stmt, List.map_eq_nil_iff]
    constructor
    · intro h
      simp [h.2.2]
    · intro h
      have hlen : insts.length + 1 ≤ 1 := h
      exact ⟨hcomment _, hfirst _, List.length_eq_zero_iff.1 (by omega)⟩

end

theorem stmts_label (label : Label) : stmts label.tokens = [] := by
  cases label with
  | loop r n => cases r <;> rfl
  | _ => rfl

theorem stmts_sectionCode (label : Label) (omp : Bool) (insts : List Statement) :
    stmts (codesTokens (sectionCode label omp insts)) = insts.map Subtype.val := by
  unfold sectionCode
  cases insts with
  | nil => rfl
  | cons s insts =>
    cases omp <;>
      simp only [List.isEmpty_cons, Bool.false_eq_true, if_false, if_true, List.cons_append,
        List.nil_append, codesTokens, Code.tokens, codesTokens_insts, stmts_append, stmts_label,
        stmts_map_stmt]

/-! ## The loop of the compute section -/

section
variable (fLoopIndex : String) (step : ℕ) (fComputeInst : List Statement)

/-- The loop of the compute section, when there is one. -/
def computeLoops : List StatementInst :=
  if fComputeInst.isEmpty then [] else [computeLoop fLoopIndex step fComputeInst]

theorem computeCode_tokens (omp : Bool) (s : Statement) :
    codesTokens (computeCode omp fLoopIndex step (s :: fComputeInst)) =
      [.openComment, .closeComment] ++ ((if omp then [.directive .for_] else []) ++
        [.stmt (computeLoop fLoopIndex step (s :: fComputeInst))]) := by
  cases omp <;> rfl

theorem closed_computeCode (omp : Bool) :
    Closed (codesTokens (computeCode omp fLoopIndex step fComputeInst)) := by
  cases fComputeInst with
  | nil => exact Closed.nil
  | cons s insts =>
    rw [computeCode_tokens]
    cases omp with
    | false => exact Closed.comment.append (Closed.stmt _)
    | true => exact Closed.comment.append (Closed.directive_stmt _ _)

theorem plain_computeCode :
    Plain (codesTokens (computeCode false fLoopIndex step fComputeInst)) := by
  intro pos e he
  cases fComputeInst with
  | nil => simp [computeCode, codesTokens, read, scan] at he
  | cons s insts =>
    rw [computeCode_tokens] at he
    simp only [read, scan, Bool.false_eq_true, if_false, List.nil_append, List.cons_append,
      List.mem_singleton] at he
    rw [he]
    rfl

theorem shared_computeCode (pos : ℕ) :
    Shared pos (codesTokens (computeCode true fLoopIndex step fComputeInst)) := by
  intro e he
  cases fComputeInst with
  | nil => simp [computeCode, codesTokens, read, scan] at he
  | cons s insts =>
    rw [computeCode_tokens] at he
    simp only [read, scan, Bool.false_eq_true, if_false, if_true, List.nil_append,
      List.cons_append, List.mem_singleton] at he
    rw [he]
    exact sharedOnce_for _

theorem stmts_computeCode (omp : Bool) :
    stmts (codesTokens (computeCode omp fLoopIndex step fComputeInst)) =
      computeLoops fLoopIndex step fComputeInst := by
  cases fComputeInst with
  | nil => rfl
  | cons s insts => cases omp <;> rfl

end

/-! ## Loops -/

mutual
theorem CodeLoop.stmts_generate (preLabel : Label) (step : ℕ) (omp : Bool) : ∀ l : CodeLoop,
    stmts (codesTokens (l.generate preLabel step omp)) = l.pieces step
  | .mk _ fLoopIndex fPreInst fComputeInst fPostInst fExtraLoops => by
    simp only [CodeLoop.generate, codesTokens_append, stmts_append, stmts_sectionCode,
      stmts_computeCode, stmts_generates preLabel step omp fExtraLoops]
    rfl

theorem stmts_generates (preLabel : Label) (step : ℕ) (omp : Bool) : ∀ ls : List CodeLoop,
    stmts (codesTokens (generates preLabel step omp ls)) = allPieces step ls
  | [] => rfl
  | l :: ls => by
    rw [generates, codesTokens_append, stmts_append, l.stmts_generate,
      stmts_generates preLabel step omp ls]
    rfl
end

mutual
/-- The label of the code before the loop does not matter if there is no such code. -/
theorem CodeLoop.generate_of_not_hasPreCode (preLabel : Label) (step : ℕ) (omp : Bool) :
    ∀ l : CodeLoop, l.hasPreCode = false →
      l.generate preLabel step omp = l.generate .preCode step omp
  | .mk _ fLoopIndex fPreInst fComputeInst fPostInst fExtraLoops, h => by
    rw [CodeLoop.hasPreCode, Bool.or_eq_false_iff, Bool.not_eq_false'] at h
    rw [CodeLoop.generate, CodeLoop.generate,
      generates_of_not_haveCodeBefore preLabel step omp fExtraLoops h.2, List.isEmpty_iff.1 h.1]
    rfl

theorem generates_of_not_haveCodeBefore (preLabel : Label) (step : ℕ) (omp : Bool) :
    ∀ ls : List CodeLoop, haveCodeBefore ls = false →
      generates preLabel step omp ls = generates .preCode step omp ls
  | [], _ => rfl
  | l :: ls, h => by
    rw [haveCodeBefore, Bool.or_eq_false_iff] at h
    rw [generates, generates, l.generate_of_not_hasPreCode preLabel step omp h.1,
      generates_of_not_haveCodeBefore preLabel step omp ls h.2]
end

/-- The comment before the code of a vector loop hides the first statement. -/
theorem loses_sectionCode (omp : Bool) (s : Statement) (insts : List Statement) :
    Loses (codesTokens (sectionCode .vectorPreCode omp (s :: insts))) := by
  have htokens : codesTokens (sectionCode .vectorPreCode omp (s :: insts)) =
      .openComment :: ((if omp then [.directive .single] else []) ++
        .stmt s.val :: (insts.map Subtype.val).map Tok.stmt) := by
    unfold sectionCode
    cases omp <;>
      simp only [List.isEmpty_cons, Bool.false_eq_true, if_false, if_true, codesTokens, Code.tokens,
        List.cons_append, List.nil_append, codesTokens_insts, Label.tokens] <;>
      rfl
  rw [htokens]
  cases omp with
  | false => exact loses_openComment_stmt _ _
  | true => exact loses_openComment_directive _ _ _

mutual
theorem CodeLoop.loses_generate (step : ℕ) (omp : Bool) : ∀ l : CodeLoop, l.hasPreCode = true →
    Loses (codesTokens (l.generate .vectorPreCode step omp))
  | .mk _ fLoopIndex fPreInst fComputeInst fPostInst fExtraLoops, h => by
    rw [CodeLoop.hasPreCode, Bool.or_eq_true] at h
    rw [CodeLoop.generate, codesTokens_append, codesTokens_append, codesTokens_append]
    apply Loses.append_right
    apply Loses.append_right
    rcases h with h | h
    · apply Loses.append_left
      cases fPreInst with
      | nil => simp at h
      | cons s insts => exact loses_sectionCode omp s insts
    · exact (loses_generates step omp fExtraLoops h).append_right _

theorem loses_generates (step : ℕ) (omp : Bool) : ∀ ls : List CodeLoop, haveCodeBefore ls = true →
    Loses (codesTokens (generates .vectorPreCode step omp ls))
  | [], h => by simp [haveCodeBefore] at h
  | l :: ls, h => by
    rw [haveCodeBefore, Bool.or_eq_true] at h
    rw [generates, codesTokens_append]
    rcases h with h | h
    · exact (l.loses_generate step omp h).append_right _
    · exact (loses_generates step omp ls h).append_left _
end

theorem isComment_preCode : Label.IsComment .preCode := rfl

theorem isComment_postCode : Label.IsComment .postCode := rfl

mutual
theorem CodeLoop.closed_generate (step : ℕ) (omp : Bool) : ∀ l : CodeLoop,
    Closed (codesTokens (l.generate .preCode step omp))
  | .mk _ fLoopIndex fPreInst fComputeInst fPostInst fExtraLoops => by
    rw [CodeLoop.generate, codesTokens_append, codesTokens_append, codesTokens_append]
    exact (((closed_generates step omp fExtraLoops).append
      (closed_sectionCode isComment_preCode omp fPreInst)).append
      (closed_computeCode fLoopIndex step fComputeInst omp)).append
      (closed_sectionCode isComment_postCode omp fPostInst)

theorem closed_generates (step : ℕ) (omp : Bool) : ∀ ls : List CodeLoop,
    Closed (codesTokens (generates .preCode step omp ls))
  | [] => Closed.nil
  | l :: ls => by
    rw [generates, codesTokens_append]
    exact (l.closed_generate step omp).append (closed_generates step omp ls)
end

mutual
theorem CodeLoop.plain_generate (step : ℕ) : ∀ l : CodeLoop,
    Plain (codesTokens (l.generate .preCode step false))
  | .mk _ fLoopIndex fPreInst fComputeInst fPostInst fExtraLoops => by
    have hpre := closed_sectionCode isComment_preCode false fPreInst
    have hcompute := closed_computeCode fLoopIndex step fComputeInst false
    rw [CodeLoop.generate, codesTokens_append, codesTokens_append, codesTokens_append]
    exact (((plain_generates step fExtraLoops).append (closed_generates step false fExtraLoops)
      (plain_sectionCode isComment_preCode fPreInst)).append
        ((closed_generates step false fExtraLoops).append hpre)
        (plain_computeCode fLoopIndex step fComputeInst)).append
      (((closed_generates step false fExtraLoops).append hpre).append hcompute)
      (plain_sectionCode isComment_postCode fPostInst)

theorem plain_generates (step : ℕ) : ∀ ls : List CodeLoop,
    Plain (codesTokens (generates .preCode step false ls))
  | [] => by
    intro pos e he
    simp [generates, codesTokens, read, scan] at he
  | l :: ls => by
    rw [generates, codesTokens_append]
    exact (l.plain_generate step).append (l.closed_generate step false) (plain_generates step ls)
end

mutual
/-- With directives, the code before and after the loops must be of one statement. -/
theorem CodeLoop.shared_generate (step : ℕ) : ∀ (l : CodeLoop) (pos : ℕ),
    Shared pos (codesTokens (l.generate .preCode step true)) ↔ l.oneStatement
  | .mk _ fLoopIndex fPreInst fComputeInst fPostInst fExtraLoops, pos => by
    have hpre := closed_sectionCode isComment_preCode true fPreInst
    have hextra := closed_generates step true fExtraLoops
    rw [CodeLoop.generate, codesTokens_append, codesTokens_append, codesTokens_append,
      shared_append ((hextra.append hpre).append (closed_computeCode _ _ _ _)),
      shared_append (hextra.append hpre), shared_append hextra,
      shared_generates step fExtraLoops pos, shared_sectionCode isComment_preCode,
      shared_sectionCode isComment_postCode, CodeLoop.oneStatement]
    constructor
    · intro h
      exact ⟨h.1.1.1, h.1.1.2, h.2⟩
    · intro h
      exact ⟨⟨⟨h.1, h.2.1⟩, shared_computeCode _ _ _ _⟩, h.2.2⟩

theorem shared_generates (step : ℕ) : ∀ (ls : List CodeLoop) (pos : ℕ),
    Shared pos (codesTokens (generates .preCode step true ls)) ↔ oneStatements ls
  | [], pos => by
    apply iff_of_true _ trivial
    intro e he
    simp [generates, codesTokens, read, scan] at he
  | l :: ls, pos => by
    rw [generates, codesTokens_append, shared_append (l.closed_generate step true),
      l.shared_generate step pos, shared_generates step ls, oneStatements]
end

/-! ## The loops of the graph -/

section
variable (o : Options)

/-- No vector loop has code before it. -/
def NoVectorPreCode (l : CodeLoop) : Prop := l.isVector o = true → l.hasPreCode = false

/-- The increment of the loop. -/
def CodeLoop.step (l : CodeLoop) : ℕ := if l.isVector o then o.gVecLoopSize else 1

theorem isComment_loop (fIsRecursive : Bool) (num : ℕ) : Label.IsComment (.loop fIsRecursive num) := by
  cases fIsRecursive <;> rfl

variable {o} {l : CodeLoop}

theorem stmts_generateDAGLoopAux (o : Options) (l : CodeLoop) (num : ℕ) (omp : Bool) :
    stmts (codesTokens (generateDAGLoopAux o l num omp)) = l.statements o := by
  rw [generateDAGLoopAux, codesTokens, stmts_append, Code.tokens, stmts_label, List.nil_append,
    generateDAGLoopInternal, CodeLoop.statements]
  by_cases hv : l.isVector o = true
  · rw [if_pos hv, if_pos hv]
    exact l.stmts_generate _ _ _
  · rw [if_neg hv, if_neg hv]
    exact l.stmts_generate _ _ _

theorem generateDAGLoopAux_tokens (h : NoVectorPreCode o l) (num : ℕ) (omp : Bool) :
    codesTokens (generateDAGLoopAux o l num omp) =
      [.openComment, .closeComment] ++ codesTokens (l.generate .preCode (l.step o) omp) := by
  rw [generateDAGLoopAux, codesTokens, Code.tokens, isComment_loop l.fIsRecursive num,
    generateDAGLoopInternal, CodeLoop.step]
  by_cases hv : l.isVector o = true
  · rw [if_pos hv, if_pos hv, CodeLoop.generateDAGVectorLoop,
      l.generate_of_not_hasPreCode _ _ _ (h hv)]
  · rw [if_neg hv, if_neg hv]
    rfl

theorem loses_generateDAGLoopAux (hv : l.isVector o = true) (hp : l.hasPreCode = true) (num : ℕ)
    (omp : Bool) : Loses (codesTokens (generateDAGLoopAux o l num omp)) := by
  rw [generateDAGLoopAux, codesTokens, generateDAGLoopInternal, if_pos hv]
  exact (l.loses_generate _ _ hp).append_left _

section
variable (h : NoVectorPreCode o l) (num : ℕ)
include h

theorem closed_generateDAGLoopAux (omp : Bool) :
    Closed (codesTokens (generateDAGLoopAux o l num omp)) := by
  rw [generateDAGLoopAux_tokens h]
  exact Closed.comment.append (l.closed_generate _ _)

theorem plain_generateDAGLoopAux : Plain (codesTokens (generateDAGLoopAux o l num false)) := by
  rw [generateDAGLoopAux_tokens h]
  exact plain_comment.append Closed.comment (l.plain_generate _)

theorem shared_generateDAGLoopAux (pos : ℕ) :
    Shared pos (codesTokens (generateDAGLoopAux o l num true)) ↔ l.oneStatement := by
  rw [generateDAGLoopAux_tokens h, shared_append Closed.comment, l.shared_generate]
  apply and_iff_right
  intro e he
  simp [read, scan] at he

end

/-! ## Levels -/

/-- The text of a loop alone in its level. -/
theorem loopCode_alone_tokens (is_single : Bool) (num : ℕ) (p : CodeLoop) :
    codesTokens (loopCode o true is_single num p).1 =
      if !p.fIsRecursive && o.gOpenMPLoop then codesTokens (generateDAGLoopAux o p num true)
      else if is_single then [.openComment, .closeComment] ++ .lbrace ::
        (codesTokens (generateDAGLoopAux o p num false) ++ [.rbrace])
      else .directive .single :: .lbrace ::
        (codesTokens (generateDAGLoopAux o p num false) ++ [.rbrace]) := by
  unfold loopCode
  rw [if_pos rfl]
  split
  · simp [codesTokens, Code.tokens]
  · cases is_single <;> simp [codesTokens, Code.tokens, Label.tokens]

/-- The text of a loop of a level of several loops. -/
theorem loopCode_section_tokens (is_single : Bool) (num : ℕ) (p : CodeLoop) :
    codesTokens (loopCode o false is_single num p).1 =
      .directive .section_ :: .lbrace ::
        (codesTokens (generateDAGLoopAux o p num false) ++ [.rbrace]) := by
  simp [loopCode, codesTokens, Code.tokens, Label.tokens]

theorem stmts_loopCode (o : Options) (alone is_single : Bool) (num : ℕ) (p : CodeLoop) :
    stmts (codesTokens (loopCode o alone is_single num p).1) = p.statements o := by
  cases alone with
  | false => simp [loopCode_section_tokens, stmts_generateDAGLoopAux]
  | true =>
    rw [loopCode_alone_tokens]
    split
    · exact stmts_generateDAGLoopAux o p num true
    · cases is_single <;> simp [stmts_generateDAGLoopAux]

theorem levelLoops_cons (alone is_single : Bool) (num : ℕ) (p : CodeLoop) (ps : List CodeLoop) :
    (levelLoops o alone is_single num (p :: ps)).1 =
      (loopCode o alone is_single num p).1 ++
        (levelLoops o alone (loopCode o alone is_single num p).2 (num + 1) ps).1 := rfl

theorem stmts_levelLoops (o : Options) (alone is_single : Bool) (num : ℕ) (ps : List CodeLoop) :
    stmts (codesTokens (levelLoops o alone is_single num ps).1) =
      ps.flatMap fun l => l.statements o := by
  induction ps generalizing is_single num with
  | nil => rfl
  | cons p ps ih =>
    rw [levelLoops_cons, codesTokens_append, stmts_append, stmts_loopCode, ih]
    rfl

/-- What is pushed for a level. -/
def levelCode (o : Options) (is_single : Bool) (num : ℕ) (level : List CodeLoop) : List Code :=
  (if 1 < level.length then [.label (.pragma .sections)] else []) ++
    [.block (decide (1 < level.length)) (levelLoops o (level.length == 1) is_single num level).1]

/-- The variable `is_single` after a level. -/
def nextSingle (o : Options) (is_single : Bool) (num : ℕ) (level : List CodeLoop) : Bool :=
  (levelLoops o (level.length == 1) is_single num level).2

theorem levelsCode_cons (is_single : Bool) (num : ℕ) (level : List CodeLoop)
    (levels : List (List CodeLoop)) :
    levelsCode o is_single num (level :: levels) = levelCode o is_single num level ++
      levelsCode o (nextSingle o is_single num level) (num + level.length) levels := by
  rw [levelsCode, levelCode, List.append_assoc]
  rfl

theorem levelsCode_append (is_single : Bool) (num : ℕ) (done rest : List (List CodeLoop)) :
    ∃ is_single' num', levelsCode o is_single num (done ++ rest) =
      levelsCode o is_single num done ++ levelsCode o is_single' num' rest := by
  induction done generalizing is_single num with
  | nil => exact ⟨is_single, num, rfl⟩
  | cons level done ih =>
    obtain ⟨s, n, h⟩ := ih (nextSingle o is_single num level) (num + level.length)
    refine ⟨s, n, ?_⟩
    rw [List.cons_append, levelsCode_cons, levelsCode_cons, h, List.append_assoc]

theorem codesTokens_block (indent : Bool) (code : List Code) :
    codesTokens [.block indent code] =
      if indent then .lbrace :: (codesTokens code ++ [.rbrace]) else codesTokens code := by
  cases indent <;> simp [codesTokens, Code.tokens]

theorem stmts_levelCode (o : Options) (is_single : Bool) (num : ℕ) (level : List CodeLoop) :
    stmts (codesTokens (levelCode o is_single num level)) =
      level.flatMap fun l => l.statements o := by
  rw [levelCode, codesTokens_append, stmts_append, codesTokens_block]
  by_cases hlen : 1 < level.length
  · simp [hlen, codesTokens, Code.tokens, Label.tokens, stmts_levelLoops]
  · simp [hlen, codesTokens, stmts_levelLoops]

theorem stmts_levelsCode (o : Options) (is_single : Bool) (num : ℕ)
    (levels : List (List CodeLoop)) :
    stmts (codesTokens (levelsCode o is_single num levels)) = statements o levels := by
  induction levels generalizing is_single num with
  | nil => rfl
  | cons level levels ih =>
    rw [levelsCode_cons, codesTokens_append, stmts_append, stmts_levelCode, ih]
    rfl

/-- A vector loop with code before it loses a statement. -/
theorem loses_levelsCode {levels : List (List CodeLoop)} {level : List CodeLoop}
    (hlevel : level ∈ levels) (hl : l ∈ level) (hv : l.isVector o = true)
    (hp : l.hasPreCode = true) (is_single : Bool) (num : ℕ) :
    Loses (codesTokens (levelsCode o is_single num levels)) := by
  have hloop : ∀ alone is_single num, Loses (codesTokens (loopCode o alone is_single num l).1) := by
    intro alone is_single num
    cases alone with
    | false =>
      rw [loopCode_section_tokens]
      exact ((loses_generateDAGLoopAux hv hp num false).append_right _).cons _ |>.cons _
    | true =>
      have haux := (loses_generateDAGLoopAux hv hp num false).append_right [.rbrace]
      rw [loopCode_alone_tokens]
      split
      · exact loses_generateDAGLoopAux hv hp num true
      · cases is_single with
        | false => exact (haux.cons _).cons _
        | true => exact (haux.cons _).append_left _
  have hloops : ∀ alone (ps : List CodeLoop), l ∈ ps → ∀ is_single num,
      Loses (codesTokens (levelLoops o alone is_single num ps).1) := by
    intro alone ps
    induction ps with
    | nil => simp
    | cons p ps ih =>
      intro hmem is_single num
      rw [levelLoops_cons, codesTokens_append]
      rcases List.mem_cons.1 hmem with h | h
      · subst h
        exact (hloop _ _ _).append_right _
      · exact (ih h _ _).append_left _
  induction levels generalizing is_single num with
  | nil => simp at hlevel
  | cons level' levels ih =>
    rw [levelsCode_cons, codesTokens_append]
    rcases List.mem_cons.1 hlevel with h | h
    · subst h
      apply Loses.append_right
      rw [levelCode, codesTokens_append, codesTokens_block]
      apply Loses.append_left
      split
      · exact ((hloops _ _ hl _ _).append_right _).cons _
      · exact hloops _ _ hl _ _
    · exact (ih h _ _).append_left _

/-! ## What governs the loops of a level -/

theorem closed_loopCode (h : NoVectorPreCode o l) (alone is_single : Bool) (num : ℕ) :
    Closed (codesTokens (loopCode o alone is_single num l).1) := by
  have haux := closed_generateDAGLoopAux h num
  cases alone with
  | false =>
    rw [loopCode_section_tokens]
    exact (haux false).directive_block _
  | true =>
    rw [loopCode_alone_tokens]
    split
    · exact haux true
    · cases is_single with
      | false => exact (haux false).directive_block _
      | true => exact Closed.comment.append (haux false).block

theorem closed_levelLoops {ps : List CodeLoop} (h : ∀ l ∈ ps, NoVectorPreCode o l)
    (alone is_single : Bool) (num : ℕ) :
    Closed (codesTokens (levelLoops o alone is_single num ps).1) := by
  induction ps generalizing is_single num with
  | nil => exact Closed.nil
  | cons p ps ih =>
    rw [levelLoops_cons, codesTokens_append]
    have hp := closed_loopCode (h p List.mem_cons_self) alone is_single num
    exact hp.append (ih (fun l hl => h l (List.mem_cons_of_mem p hl)) _ _)

theorem levelCode_sections_tokens (is_single : Bool) (num : ℕ) {level : List CodeLoop}
    (hlen : 1 < level.length) :
    codesTokens (levelCode o is_single num level) = .directive .sections :: .lbrace ::
      (codesTokens (levelLoops o false is_single num level).1 ++ [.rbrace]) := by
  have hne : (level.length == 1) = false := by
    rw [beq_eq_false_iff_ne]
    omega
  rw [levelCode, codesTokens_append, codesTokens_block, hne]
  simp [hlen, codesTokens, Code.tokens, Label.tokens]

theorem levelCode_one_tokens (is_single : Bool) (num : ℕ) (p : CodeLoop) :
    codesTokens (levelCode o is_single num [p]) =
      codesTokens (loopCode o true is_single num p).1 := by
  rw [levelCode, codesTokens_append, codesTokens_block]
  simp [codesTokens, levelLoops]

theorem levelCode_nil_tokens (o : Options) (is_single : Bool) (num : ℕ) :
    codesTokens (levelCode o is_single num []) = [] := by
  rw [levelCode, codesTokens_append, codesTokens_block]
  simp [codesTokens, levelLoops]

theorem closed_levelCode {level : List CodeLoop} (h : ∀ l ∈ level, NoVectorPreCode o l)
    (is_single : Bool) (num : ℕ) : Closed (codesTokens (levelCode o is_single num level)) := by
  match level, h with
  | [], _ =>
    rw [levelCode_nil_tokens]
    exact Closed.nil
  | [p], h =>
    rw [levelCode_one_tokens]
    exact closed_loopCode (h p List.mem_cons_self) _ _ _
  | p :: q :: ps, h =>
    rw [levelCode_sections_tokens _ _ (by simp)]
    exact (closed_levelLoops h _ _ _).directive_block _

theorem closed_levelsCode {levels : List (List CodeLoop)}
    (h : ∀ level ∈ levels, ∀ l ∈ level, NoVectorPreCode o l) (is_single : Bool) (num : ℕ) :
    Closed (codesTokens (levelsCode o is_single num levels)) := by
  induction levels generalizing is_single num with
  | nil => exact Closed.nil
  | cons level levels ih =>
    rw [levelsCode_cons, codesTokens_append]
    have hlevel := closed_levelCode (h level List.mem_cons_self) is_single num
    exact hlevel.append (ih (fun lv hlv => h lv (List.mem_cons_of_mem level hlv)) _ _)

/-- A piece without directives, in a block with a directive. -/
theorem read_plain_block {ts : List Tok} (hc : Closed ts) (hp : Plain ts) (d : Directive)
    {pos : ℕ} {e : StatementInst × List Governor}
    (he : e ∈ read pos (.directive d :: .lbrace :: (ts ++ [.rbrace]))) : e.2 = [⟨pos, d⟩] := by
  rw [hc.read_directive_block] at he
  obtain ⟨e', he', rfl⟩ := List.mem_map.1 he
  show [_] ++ e'.2 = _
  rw [hp _ e' he', List.append_nil]

/-- The loops of a level of several loops are each in a `section`. -/
theorem read_levelLoops_section {ps : List CodeLoop} (h : ∀ l ∈ ps, NoVectorPreCode o l)
    (is_single : Bool) (num pos : ℕ) {e : StatementInst × List Governor}
    (he : e ∈ read pos (codesTokens (levelLoops o false is_single num ps).1)) :
    ∃ p, e.2 = [⟨p, .section_⟩] := by
  induction ps generalizing is_single num pos with
  | nil => simp [levelLoops, codesTokens, read, scan] at he
  | cons p ps ih =>
    have hp := h p List.mem_cons_self
    rw [levelLoops_cons, codesTokens_append, (closed_loopCode hp _ _ _).read_append] at he
    rcases List.mem_append.1 he with he | he
    · rw [loopCode_section_tokens] at he
      exact ⟨pos, read_plain_block (closed_generateDAGLoopAux hp num false)
        (plain_generateDAGLoopAux hp num) _ he⟩
    · exact ih (fun l hl => h l (List.mem_cons_of_mem p hl)) _ _ _ he

theorem shared_levelCode_sections {level : List CodeLoop}
    (h : ∀ l ∈ level, NoVectorPreCode o l) (hlen : 1 < level.length) (is_single : Bool)
    (num pos : ℕ) : Shared pos (codesTokens (levelCode o is_single num level)) := by
  intro e he
  rw [levelCode_sections_tokens _ _ hlen, (closed_levelLoops h _ _ _).read_directive_block] at he
  obtain ⟨e', he', rfl⟩ := List.mem_map.1 he
  obtain ⟨p, hp⟩ := read_levelLoops_section h _ _ _ he'
  show SharedOnce ([_] ++ e'.2)
  rw [hp]
  exact sharedOnce_section pos p

/-- A loop alone in its level is shared by its own directives, or by a `single` if there was none
since the last level of several loops. -/
theorem shared_levelCode_one (h : NoVectorPreCode o l) (is_single : Bool) (num pos : ℕ) :
    Shared pos (codesTokens (levelCode o is_single num [l])) ↔
      if !l.fIsRecursive && o.gOpenMPLoop then l.oneStatement
      else is_single = true → l.statements o = [] := by
  have hc := closed_generateDAGLoopAux h num false
  have hp := plain_generateDAGLoopAux h num
  rw [levelCode_one_tokens, loopCode_alone_tokens]
  split
  · exact shared_generateDAGLoopAux h num pos
  · cases is_single with
    | false =>
      apply iff_of_true _ (by simp)
      intro e he
      rw [read_plain_block hc hp _ he]
      exact sharedOnce_single pos
    | true =>
      have hplain : Plain ([.openComment, .closeComment] ++ .lbrace ::
          (codesTokens (generateDAGLoopAux o l num false) ++ [.rbrace])) := by
        apply plain_comment.append Closed.comment
        intro pos e he
        rw [hc.read_block] at he
        exact hp _ e he
      rw [if_pos rfl, hplain.shared_iff (Closed.comment.append hc.block)]
      simp [stmts_generateDAGLoopAux]

theorem shared_levelsCode {levels : List (List CodeLoop)}
    (h : ∀ level ∈ levels, ∀ l ∈ level, NoVectorPreCode o l) (is_single : Bool) (num pos : ℕ) :
    Shared pos (codesTokens (levelsCode o is_single num levels)) ↔
      coveredLevels o is_single levels := by
  induction levels generalizing is_single num pos with
  | nil =>
    apply iff_of_true _ (by rw [coveredLevels]; trivial)
    intro e he
    simp [levelsCode, codesTokens, read, scan] at he
  | cons level levels ih =>
    have hlevel := h level List.mem_cons_self
    have hlevels := ih fun lv hlv => h lv (List.mem_cons_of_mem level hlv)
    rw [levelsCode_cons, codesTokens_append,
      shared_append (closed_levelCode hlevel is_single num), hlevels]
    match level, hlevel with
    | [], _ =>
      have hempty : Shared pos (codesTokens (levelCode o is_single num [])) := by
        intro e he
        simp [levelCode_nil_tokens, read, scan] at he
      rw [coveredLevels]
      exact and_iff_right hempty
    | [p], hlevel =>
      rw [shared_levelCode_one (hlevel p List.mem_cons_self), coveredLevels]
      have hnext : nextSingle o is_single num [p] =
          if !p.fIsRecursive && o.gOpenMPLoop then is_single else true := by
        show (loopCode o true is_single num p).2 = _
        unfold loopCode
        rw [if_pos rfl]
        split <;> rfl
      rw [hnext]
      split <;> rfl
    | p :: q :: ps, hlevel =>
      have hlen : 1 < (p :: q :: ps).length := by simp
      have hfalse : ∀ (ps : List CodeLoop) is_single num, ps ≠ [] →
          (levelLoops o false is_single num ps).2 = false := by
        intro ps
        induction ps with
        | nil => simp
        | cons p ps ih =>
          intro is_single num _
          show (levelLoops o false (loopCode o false is_single num p).2 (num + 1) ps).2 = false
          cases ps with
          | nil => rfl
          | cons q ps => exact ih _ _ (by simp)
      have hnext : nextSingle o is_single num (p :: q :: ps) = false := by
        have hne : ((p :: q :: ps).length == 1) = false := by simp
        rw [nextSingle, hne]
        exact hfalse _ _ _ (by simp)
      rw [hnext, coveredLevels]
      exact and_iff_right (shared_levelCode_sections hlevel hlen is_single num pos)

end

/-! ## The region -/

section
variable (o : Options) (fFirstPrivateTable : List String) (locals : List Statement)
  (dag : List (List CodeLoop))

/-- The text of the region. -/
theorem generateDAGLoopOMP_tokens :
    codesTokens (generateDAGLoopOMP o fFirstPrivateTable locals dag) =
      .directive .parallel :: .lbrace :: (.lbrace :: (((prologue o locals).map Tok.stmt ++
        codesTokens (levelsCode o false 0 dag.reverse)) ++ [.rbrace]) ++ [.rbrace]) := by
  have hheader : codesTokens (if fFirstPrivateTable.isEmpty then [.label (.pragma .parallel)]
      else [.label .pragmaParallel, .label (.firstprivate fFirstPrivateTable)]) =
      [.directive .parallel] := by
    split <;> rfl
  have hloop : ∀ i e n (c : List Code), c ≠ [] → Code.tokens (.forLoop i e n c) =
      .lbrace :: (codesTokens c ++ [.rbrace]) := by
    intro i e n c hc
    cases c with
    | nil => exact absurd rfl hc
    | cons c cs => simp [Code.tokens, codesTokens]
  have hcount : ∀ name v (cs : List Code),
      codesTokens (.inst (InstBuilder.genDecStackVar name (.basic .kInt) v) :: cs) =
        .stmt (InstBuilder.genDecStackVar name (.basic .kInt) v) :: codesTokens cs := by
    intro name v cs
    rfl
  rw [generateDAGLoopOMP, codesTokens_append, hheader, codesTokens_block, if_pos rfl, codesTokens,
    hloop _ _ _ _ (by simp), codesTokens_append, codesTokens_insts, hcount, prologue,
    List.map_append, List.map_map]
  simp only [codesTokens, List.append_assoc, List.cons_append, List.nil_append, List.map_cons,
    List.map_nil, Function.comp_def]

variable {o dag}

theorem governed_eq (h : ∀ level ∈ dag, ∀ l ∈ level, NoVectorPreCode o l) :
    governed (generateDAGLoopOMP o fFirstPrivateTable locals dag) =
      (read 3 ((prologue o locals).map Tok.stmt) ++
        read (3 + (prologue o locals).length) (codesTokens (levelsCode o false 0 dag.reverse))).map
          (under [⟨0, .parallel⟩]) := by
  have hreverse : ∀ level ∈ dag.reverse, ∀ l ∈ level, NoVectorPreCode o l :=
    fun level hl => h level (List.mem_reverse.1 hl)
  have hlevels := closed_levelsCode hreverse false 0
  have hp := closed_stmts (prologue o locals)
  have hbody := hp.append hlevels
  show read 0 _ = _
  rw [generateDAGLoopOMP_tokens, hbody.block.read_directive_block, hbody.read_block,
    hp.read_append, List.length_map]

/-- The directive `parallel` shares nothing. -/
theorem sharedOnce_parallel (gs : List Governor) :
    SharedOnce ([⟨0, .parallel⟩] ++ gs) ↔ SharedOnce gs := by
  have hunits : units ([⟨0, .parallel⟩] ++ gs) = units gs := rfl
  unfold SharedOnce
  rw [hunits]
  simp

/-- All is in the code when no vector loop has code before it. -/
theorem complete_iff :
    (governed (generateDAGLoopOMP o fFirstPrivateTable locals dag)).map Prod.fst =
        prologue o locals ++ statements o dag.reverse ↔
      ∀ level ∈ dag, ∀ l ∈ level, NoVectorPreCode o l := by
  have hstmts : stmts (codesTokens (generateDAGLoopOMP o fFirstPrivateTable locals dag)) =
      prologue o locals ++ statements o dag.reverse := by
    rw [generateDAGLoopOMP_tokens]
    simp [stmts_map_stmt, stmts_levelsCode]
  constructor
  · intro hcomplete level hlevel l hl hv
    by_contra hp
    rw [Bool.not_eq_false] at hp
    have hlost : Loses (codesTokens (generateDAGLoopOMP o fFirstPrivateTable locals dag)) := by
      have hl := loses_levelsCode (List.mem_reverse.2 hlevel) hl hv hp false 0
      rw [generateDAGLoopOMP_tokens]
      exact ((((hl.append_left _).append_right _).cons _).append_right _ |>.cons _).cons _
    have hlen := hlost [] [] false 0
    rw [hstmts, ← hcomplete, List.length_map] at hlen
    exact Nat.lt_irrefl _ hlen
  · intro h
    rw [governed_eq fFirstPrivateTable locals h, map_fst_under, List.map_append,
      (closed_stmts _).fst, (closed_levelsCode _ false 0).fst, stmts_map_stmt,
      stmts_levelsCode]
    intro level hlevel
    exact h level (List.mem_reverse.1 hlevel)

theorem length_read_prologue (o : Options) (locals : List Statement) (pos : ℕ) :
    (read pos ((prologue o locals).map Tok.stmt)).length = (prologue o locals).length := by
  rw [← List.length_map (f := Prod.fst), (closed_stmts _).fst, stmts_map_stmt]

/-- The statements of the loops are governed by what governs them in the text of the levels. -/
theorem drop_governed (h : ∀ level ∈ dag, ∀ l ∈ level, NoVectorPreCode o l) :
    (governed (generateDAGLoopOMP o fFirstPrivateTable locals dag)).drop
        (prologue o locals).length =
      (read (3 + (prologue o locals).length)
        (codesTokens (levelsCode o false 0 dag.reverse))).map (under [⟨0, .parallel⟩]) := by
  have hlen : ((read 3 ((prologue o locals).map Tok.stmt)).map (under [⟨0, .parallel⟩])).length =
      (prologue o locals).length := by
    rw [List.length_map, length_read_prologue]
  rw [governed_eq fFirstPrivateTable locals h, List.map_append, List.drop_append_of_le_length,
    List.drop_of_length_le, List.nil_append]
  · rw [hlen]
  · rw [hlen]

theorem shared_iff (h : ∀ level ∈ dag, ∀ l ∈ level, NoVectorPreCode o l) :
    (∀ e ∈ (governed (generateDAGLoopOMP o fFirstPrivateTable locals dag)).drop
        (prologue o locals).length, SharedOnce e.2) ↔ coveredLevels o false dag.reverse := by
  have hlevels : ∀ level ∈ dag.reverse, ∀ l ∈ level, NoVectorPreCode o l :=
    fun level hl => h level (List.mem_reverse.1 hl)
  rw [drop_governed fFirstPrivateTable locals h, List.forall_mem_map,
    ← shared_levelsCode hlevels false 0 (3 + (prologue o locals).length)]
  exact forall₂_congr fun e _ => sharedOnce_parallel e.2

/-! ## Runs of the team -/

/-- A statement that one directive shares is in a construct, which begins in the text of the
levels. -/
theorem SharedOnce.construct {gs : List Governor} (h : SharedOnce gs) :
    ∃ g ∈ gs, (slot ([⟨0, .parallel⟩] ++ gs)).construct = some g.pos := by
  obtain ⟨g, hunits, hsection⟩ := h
  have hg : g ∈ gs ∧ g.directive.isUnit = true := by
    have hmem : g ∈ units gs := by simp [hunits]
    exact List.mem_filter.1 hmem
  have hconstruct : ∃ g' ∈ gs, g'.directive.isConstruct = true := by
    by_cases hd : g.directive = .section_
    · obtain ⟨g', hg', hd'⟩ := hsection hd
      exact ⟨g', hg', by rw [hd']; rfl⟩
    · refine ⟨g, hg.1, ?_⟩
      cases hdir : g.directive <;> simp_all [Directive.isUnit, Directive.isConstruct]
  obtain ⟨g', hg', hd'⟩ := hconstruct
  have hne : gs.filter (fun g => g.directive.isConstruct) ≠ [] :=
    List.ne_nil_of_mem (List.mem_filter.2 ⟨hg', hd'⟩)
  obtain ⟨c, cs, hc⟩ := List.exists_cons_of_ne_nil hne
  have hcmem : c ∈ gs := (List.mem_filter.1 (by rw [hc]; exact List.mem_cons_self)).1
  refine ⟨c, hcmem, ?_⟩
  have hslot : (slot ([⟨0, .parallel⟩] ++ gs)).construct =
      (gs.filter fun g => g.directive.isConstruct).head?.map Governor.pos := rfl
  rw [hslot, hc]
  rfl

theorem construct_mem {gs : List Governor} {c : ℕ}
    (h : (slot ([⟨0, .parallel⟩] ++ gs)).construct = some c) : ∃ g ∈ gs, g.pos = c := by
  have h' : (gs.filter fun g => g.directive.isConstruct).head?.map Governor.pos = some c := h
  obtain ⟨g, hg, hpos⟩ := Option.map_eq_some_iff.1 h'
  exact ⟨g, (List.mem_filter.1 (List.mem_of_mem_head? hg)).1, hpos⟩

theorem length_read_levels (h : ∀ level ∈ dag, ∀ l ∈ level, NoVectorPreCode o l) (pos : ℕ) :
    (read pos (codesTokens (levelsCode o false 0 dag.reverse))).length =
      (statements o dag.reverse).length := by
  rw [← List.length_map (f := Prod.fst), (closed_levelsCode _ false 0).fst, stmts_levelsCode]
  intro level hlevel
  exact h level (List.mem_reverse.1 hlevel)

/-- How the statements of the loops are shared. -/
theorem slots_eq (h : ∀ level ∈ dag, ∀ l ∈ level, NoVectorPreCode o l) {i : ℕ}
    {e : StatementInst × List Governor}
    (he : (read (3 + (prologue o locals).length)
      (codesTokens (levelsCode o false 0 dag.reverse)))[i]? = some e) :
    slots (generateDAGLoopOMP o fFirstPrivateTable locals dag) ((prologue o locals).length + i) =
      slot ([⟨0, .parallel⟩] ++ e.2) := by
  rw [slots, ← List.getElem?_drop, drop_governed fFirstPrivateTable locals h, List.getElem?_map, he]
  rfl

theorem exists_read (h : ∀ level ∈ dag, ∀ l ∈ level, NoVectorPreCode o l)
    (hcovered : coveredLevels o false dag.reverse) {i : ℕ}
    (hi : i < (statements o dag.reverse).length) (pos : ℕ) :
    ∃ e, (read pos (codesTokens (levelsCode o false 0 dag.reverse)))[i]? = some e ∧
      SharedOnce e.2 := by
  rw [← length_read_levels h pos] at hi
  refine ⟨_, List.getElem?_eq_getElem hi, ?_⟩
  have hlevels : ∀ level ∈ dag.reverse, ∀ l ∈ level, NoVectorPreCode o l :=
    fun level hl => h level (List.mem_reverse.1 hl)
  exact (shared_levelsCode hlevels false 0 pos).2 hcovered _ (List.getElem_mem hi)

/-- There is a barrier between the levels. -/
theorem barrier_levels (h : ∀ level ∈ dag, ∀ l ∈ level, NoVectorPreCode o l)
    (hcovered : coveredLevels o false dag.reverse) {done rest : List (List CodeLoop)}
    (hdag : dag.reverse = done ++ rest) {m : ℕ} (hm : (statements o done).length = m + 1) :
    Team.Barrier (prologue o locals ++ statements o dag.reverse).length
      (slots (generateDAGLoopOMP o fFirstPrivateTable locals dag))
      ((prologue o locals).length + m) := by
  have hstatements : statements o dag.reverse = statements o done ++ statements o rest := by
    rw [hdag, statements, List.flatMap_append]
    rfl
  have hlevels : ∀ level ∈ done, ∀ l ∈ level, NoVectorPreCode o l := by
    intro level hl
    have hmem : level ∈ dag.reverse := hdag ▸ List.mem_append_left rest hl
    exact h level (List.mem_reverse.1 hmem)
  have hdone := closed_levelsCode hlevels false 0
  have hlen : ∀ pos, (read pos (codesTokens (levelsCode o false 0 done))).length = m + 1 := by
    intro pos
    rw [← List.length_map (f := Prod.fst), hdone.fst, stmts_levelsCode, hm]
  obtain ⟨is_single, num, htext⟩ := levelsCode_append (o := o) false 0 done rest
  -- the last statement of the first levels
  obtain ⟨e, he, hshared⟩ := exists_read h hcovered (i := m)
    (by rw [hstatements, List.length_append]; omega) (3 + (prologue o locals).length)
  obtain ⟨g, hg, hconstruct⟩ := hshared.construct
  refine ⟨g.pos, ?_, ?_⟩
  · rw [slots_eq fFirstPrivateTable locals h he]
    exact hconstruct
  -- the first statement of the other levels
  · intro hnext hsame
    rw [List.length_append] at hnext
    obtain ⟨e', he', -⟩ := exists_read h hcovered (i := m + 1) (by omega)
      (3 + (prologue o locals).length)
    rw [Nat.add_assoc, slots_eq fFirstPrivateTable locals h he'] at hsame
    obtain ⟨g', hg', hpos⟩ := construct_mem hsame
    rw [hdag, htext, codesTokens_append, hdone.read_append] at he he'
    rw [List.getElem?_append_left (by rw [hlen]; omega)] at he
    rw [List.getElem?_append_right (by rw [hlen])] at he'
    have hlt := read_pos (List.mem_of_getElem? he) hg
    have hle := read_pos (List.mem_of_getElem? he') hg'
    omega

/-- The directives cover the loops of exactly these graphs. -/
theorem coversLoops_iff (o : Options) (fFirstPrivateTable : List String)
    (locals : List Statement) (dag : List (List CodeLoop)) :
    CoversLoops o fFirstPrivateTable locals dag ↔ CoveredGraph o dag := by
  constructor
  · intro hc
    have h := (complete_iff fFirstPrivateTable locals).1 hc.complete
    exact ⟨h, (shared_iff fFirstPrivateTable locals h).1 hc.shared⟩
  · intro hc
    obtain ⟨h, hcovered⟩ := hc
    refine ⟨(complete_iff fFirstPrivateTable locals).2 h,
      (shared_iff fFirstPrivateTable locals h).2 hcovered, ?_, ?_⟩
    · intro ι _ _ count assign run hrun k hk hlt j hj
      obtain ⟨i, rfl⟩ := Nat.exists_eq_add_of_le hk
      rw [List.length_append] at hlt
      obtain ⟨e, he, hshared⟩ := exists_read h hcovered (i := i) (by omega)
        (3 + (prologue o locals).length)
      obtain ⟨g, hg, -⟩ := (sharedOnce_parallel e.2).2 hshared
      apply hrun.once (u := g.pos) (by rw [List.length_append]; omega) hj
      rw [slots_eq fFirstPrivateTable locals h he]
      show (units _).map Governor.pos = _
      rw [hg]
      rfl
    · intro ι _ _ count assign run hrun done rest hdag
      rw [List.length_append]
      cases hm : (statements o done).length with
      | zero =>
        have hnone : (run.filter fun e => (prologue o locals).length ≤ e.2.1 ∧
            e.2.1 < (prologue o locals).length + 0) = [] := by
          apply List.filter_eq_nil_iff.2
          intro e _
          simp
        rw [hnone, List.nil_append]
        apply List.filter_congr
        intro e _
        simp
      | succ m =>
        exact hrun.ordered (barrier_levels fFirstPrivateTable locals h hcovered hdag hm) _

/-- Two recursive loops in two levels: no directive governs the second one. -/
theorem not_coversLoops_single : ¬ ∀ (o : Options) (fFirstPrivateTable : List String)
    (locals : List Statement) (dag : List (List CodeLoop)),
    CoversLoops o fFirstPrivateTable locals dag := by
  intro hall
  let write (vname : String) : Statement :=
    ⟨InstBuilder.genStoreArrayStackVar vname (InstBuilder.genLoadLoopVar "i") (.intNum 1), rfl⟩
  have hc := hall ⟨false, 32, 0⟩ [] []
    [[.mk true "i" [] [write "yec1"] [] []], [.mk true "i" [] [write "yec0"] [] []]]
  have h := (complete_iff [] []).1 hc.complete
  have hcovered := (shared_iff [] [] h).1 hc.shared
  simp [coveredLevels, CodeLoop.statements, CodeLoop.pieces, CodeLoop.fIsRecursive] at hcovered

end

end Faust.Omp
