import Faust.Generator.Instructions
import Faust.Lib.Team

/-!
# The OpenMP container (`omp_code_container.cpp`)

The code of a block of samples in the OpenMP mode. The directives are labels, put next to blocks
which may or may not be printed with braces. What a directive governs is read on the text: the
statement, or the block in braces, that comes after it.
-/

namespace Faust.Omp

open Fir

/-! ## Labels -/

/-- The directives of OpenMP in the code. -/
inductive Directive
  | parallel | sections | section_ | single | for_
deriving DecidableEq, Repr

/-- The labels in the code (`LabelInst`). -/
inductive Label
  | pragma (directive : Directive)
  /-- The directive `parallel`, when its clause is on the next line. -/
  | pragmaParallel
  | firstprivate (table : List String)
  | stillSingle
  | preCode
  /-- The label of the code before a vector loop. -/
  | vectorPreCode
  | computeCode
  | postCode
  | loop (fIsRecursive : Bool) (num : ℕ)
deriving DecidableEq, Repr

/-- `fLabel`. -/
def Label.text : Label → String
  | .pragma .parallel => "#pragma omp parallel"
  | .pragma .sections => "#pragma omp sections"
  | .pragma .section_ => "#pragma omp section"
  | .pragma .single => "#pragma omp single"
  | .pragma .for_ => "#pragma omp for"
  | .pragmaParallel => "#pragma omp parallel\\"
  | .firstprivate table => "\tfirstprivate(" ++ ", ".intercalate table ++ ")"
  | .stillSingle => "/* Still in a single section */"
  | .preCode => "/* Pre code */"
  | .vectorPreCode => "/* Pre code $/"
  | .computeCode => "/* Compute code */"
  | .postCode => "/* Post code */"
  | .loop true num => "/* Recursive loop " ++ toString num ++ " */"
  | .loop false num => "/* Vectorizable loop " ++ toString num ++ " */"

/-! ## The loops -/

/-- The statement is printed as one statement of C. A block prints those it is made of, and a
loop without code is not printed. -/
def printsOne : StatementInst → Bool
  | .block _ => false
  | .forLoop _ _ _ code => !code.isEmpty
  | _ => true

/-- What the compiler pushes on the sections of a loop. -/
abbrev Statement := {s : StatementInst // printsOne s = true}

/-- `CodeLoop`. -/
inductive CodeLoop
  | mk (fIsRecursive : Bool) (fLoopIndex : String)
      (fPreInst fComputeInst fPostInst : List Statement) (fExtraLoops : List CodeLoop)

namespace CodeLoop

def fIsRecursive : CodeLoop → Bool
  | mk fIsRecursive _ _ _ _ _ => fIsRecursive

def fPreInst : CodeLoop → List Statement
  | mk _ _ fPreInst _ _ _ => fPreInst

def fPostInst : CodeLoop → List Statement
  | mk _ _ _ _ fPostInst _ => fPostInst

def fExtraLoops : CodeLoop → List CodeLoop
  | mk _ _ _ _ _ fExtraLoops => fExtraLoops

end CodeLoop

/-- The loop that runs the compute section `step` samples at a time. -/
def computeLoop (fLoopIndex : String) (step : ℕ) (fComputeInst : List Statement) : StatementInst :=
  .forLoop (InstBuilder.genDecLoopVar fLoopIndex (.basic .kInt) (some (.intNum 0)))
    (InstBuilder.genLessThan (InstBuilder.genLoadLoopVar fLoopIndex)
      (InstBuilder.genLoadStackVar "count"))
    (InstBuilder.genStoreLoopVar fLoopIndex
      (InstBuilder.genAdd (InstBuilder.genLoadLoopVar fLoopIndex) (.intNum step)))
    (fComputeInst.map Subtype.val)

/-! ## The code -/

/-- Statements with labels, and with blocks that may be indented. -/
inductive Code
  | label (label : Label)
  | inst (s : StatementInst)
  | block (indent : Bool) (code : List Code)
  | forLoop (init : StatementInst) (end_ : ValueInst) (increment : StatementInst)
      (code : List Code)

/-- The code before or after a loop. -/
def sectionCode (label : Label) (omp : Bool) (insts : List Statement) : List Code :=
  if insts.isEmpty then []
  else .label label :: (if omp then [.label (.pragma .single)] else []) ++
    insts.map fun s => .inst s.val

/-- The loop of the compute section. -/
def computeCode (omp : Bool) (fLoopIndex : String) (step : ℕ) (fComputeInst : List Statement) :
    List Code :=
  if fComputeInst.isEmpty then []
  else .label .computeCode :: (if omp then [.label (.pragma .for_)] else []) ++
    [.inst (computeLoop fLoopIndex step fComputeInst)]

mutual
/-- What `generateDAGScalarLoop` and `generateDAGVectorLoop` push. They differ by the label of
the code before the loop and by the increment, and by the sizes of vectors, left out here. -/
def CodeLoop.generate (preLabel : Label) (step : ℕ) (omp : Bool) : CodeLoop → List Code
  | .mk _ fLoopIndex fPreInst fComputeInst fPostInst fExtraLoops =>
    generates preLabel step omp fExtraLoops ++ sectionCode preLabel omp fPreInst ++
      computeCode omp fLoopIndex step fComputeInst ++ sectionCode .postCode omp fPostInst

def generates (preLabel : Label) (step : ℕ) (omp : Bool) : List CodeLoop → List Code
  | [] => []
  | l :: ls => l.generate preLabel step omp ++ generates preLabel step omp ls
end

/-- `generateDAGScalarLoop`. -/
def CodeLoop.generateDAGScalarLoop (omp : Bool) (l : CodeLoop) : List Code :=
  l.generate .preCode 1 omp

/-- `generateDAGVectorLoop`. -/
def CodeLoop.generateDAGVectorLoop (omp : Bool) (size : ℕ) (l : CodeLoop) : List Code :=
  l.generate .vectorPreCode size omp

/-- The options that decide on the code. -/
structure Options where
  gOpenMPLoop : Bool
  gVecSize : ℕ
  gVecLoopSize : ℕ
deriving DecidableEq, Repr

section
variable (o : Options)

/-- `generateDAGLoopInternal` makes a vector loop of this one. -/
def CodeLoop.isVector (l : CodeLoop) : Bool := decide (0 < o.gVecLoopSize) && !l.fIsRecursive

/-- `generateDAGLoopInternal`. -/
def generateDAGLoopInternal (l : CodeLoop) (omp : Bool) : List Code :=
  if l.isVector o then l.generateDAGVectorLoop omp o.gVecLoopSize else l.generateDAGScalarLoop omp

/-- `generateDAGLoopAux`. -/
def generateDAGLoopAux (l : CodeLoop) (loop_num : ℕ) (omp : Bool) : List Code :=
  .label (.loop l.fIsRecursive loop_num) :: generateDAGLoopInternal o l omp

/-- What is pushed on `omp_sections_block` for a loop, alone in its level or not, and the
variable `is_single` after that. -/
def loopCode (alone is_single : Bool) (loop_num : ℕ) (p : CodeLoop) : List Code × Bool :=
  if alone then
    if !p.fIsRecursive && o.gOpenMPLoop then
      ([.block false (generateDAGLoopAux o p loop_num true)], is_single)
    else
      ([.label (if is_single then .stillSingle else .pragma .single),
        .block true (generateDAGLoopAux o p loop_num false)], true)
  else
    ([.label (.pragma .section_), .block true (generateDAGLoopAux o p loop_num false)], false)

/-- The loop on the loops of a level. -/
def levelLoops (alone : Bool) : Bool → ℕ → List CodeLoop → List Code × Bool
  | is_single, _, [] => ([], is_single)
  | is_single, loop_num, p :: ps =>
    let (code, is_single) := loopCode o alone is_single loop_num p
    let (codes, is_single) := levelLoops alone is_single (loop_num + 1) ps
    (code ++ codes, is_single)

/-- The loop on the levels, from the last to the first. -/
def levelsCode : Bool → ℕ → List (List CodeLoop) → List Code
  | _, _, [] => []
  | is_single, loop_num, level :: levels =>
    let (code, is_single) := levelLoops o (level.length == 1) is_single loop_num level
    (if 1 < level.length then [.label (.pragma .sections)] else []) ++
      .block (decide (1 < level.length)) code ::
        levelsCode is_single (loop_num + level.length) levels

/-- `generateDAGLoopOMP`, given what `StackVarAnalyser` found, the access to the inputs and
outputs, and the sorted graph of loops. -/
def generateDAGLoopOMP (fFirstPrivateTable : List String) (locals : List Statement)
    (dag : List (List CodeLoop)) : List Code :=
  (if fFirstPrivateTable.isEmpty then [.label (.pragma .parallel)]
    else [.label .pragmaParallel, .label (.firstprivate fFirstPrivateTable)]) ++
  [.block true
    [.forLoop (InstBuilder.genDecLoopVar "index" (.basic .kInt) (some (.intNum 0)))
      (InstBuilder.genLessThan (InstBuilder.genLoadLoopVar "index")
        (InstBuilder.genLoadFunArgsVar "fullcount"))
      (InstBuilder.genStoreLoopVar "index"
        (InstBuilder.genAdd (InstBuilder.genLoadLoopVar "index") (.intNum o.gVecSize)))
      (locals.map (fun s => .inst s.val) ++
        .inst (InstBuilder.genDecStackVar "count" (.basic .kInt)
          (some (.funCall "min" [.intNum o.gVecSize,
            InstBuilder.genSub (InstBuilder.genLoadFunArgsVar "fullcount")
              (InstBuilder.genLoadLoopVar "index")]))) ::
        levelsCode o false 0 dag.reverse)]]

end

/-! ## The text -/

/-- What matters of the text: comments, directives, braces of blocks, statements. -/
inductive Tok
  | openComment
  | closeComment
  | directive (d : Directive)
  | lbrace
  | rbrace
  | stmt (s : StatementInst)

/-- The comments and directives in the text of a label. -/
def Label.tokens : Label → List Tok
  | .pragma d => [.directive d]
  | .pragmaParallel => [.directive .parallel]
  | .firstprivate _ => []
  | .vectorPreCode => [.openComment]
  | _ => [.openComment, .closeComment]

mutual
/-- What is printed of a statement. The blocks among statements are not indented. -/
def statementTokens : StatementInst → List Tok
  | .block code => statementsTokens code
  | .forLoop _ _ _ [] => []
  | s => [.stmt s]

def statementsTokens : List StatementInst → List Tok
  | [] => []
  | s :: ss => statementTokens s ++ statementsTokens ss
end

mutual
/-- What `TextInstVisitor` prints. -/
def Code.tokens : Code → List Tok
  | .label l => l.tokens
  | .inst s => statementTokens s
  | .block true code => .lbrace :: (codesTokens code ++ [.rbrace])
  | .block false code => codesTokens code
  | .forLoop _ _ _ [] => []
  | .forLoop _ _ _ (c :: cs) => .lbrace :: (c.tokens ++ codesTokens cs ++ [.rbrace])

def codesTokens : List Code → List Tok
  | [] => []
  | c :: cs => c.tokens ++ codesTokens cs
end

/-- A directive, with its place in the text. -/
structure Governor where
  pos : ℕ
  directive : Directive
deriving DecidableEq, Repr

/-- The statements that are in the text and out of comments, each with the directives that
govern it: those before it, and those before the blocks that it is in. `scopes` has the
directives before the open blocks, from the innermost, and `pending` those that were just
read. -/
def scan (scopes : List (List Governor)) (pending : List Governor) (inComment : Bool) (pos : ℕ) :
    List Tok → List (StatementInst × List Governor)
  | [] => []
  | .openComment :: ts => scan scopes pending true (pos + 1) ts
  | .closeComment :: ts => scan scopes pending false (pos + 1) ts
  | .directive d :: ts =>
    if inComment then scan scopes pending true (pos + 1) ts
    else scan scopes (pending ++ [⟨pos, d⟩]) false (pos + 1) ts
  | .lbrace :: ts =>
    if inComment then scan scopes pending true (pos + 1) ts
    else scan (pending :: scopes) [] false (pos + 1) ts
  | .rbrace :: ts =>
    if inComment then scan scopes pending true (pos + 1) ts
    else scan scopes.tail [] false (pos + 1) ts
  | .stmt s :: ts =>
    if inComment then scan scopes pending true (pos + 1) ts
    else (s, scopes.reverse.flatten ++ pending) :: scan scopes [] false (pos + 1) ts

/-- The statements of the region, with what governs them. -/
def governed (code : List Code) : List (StatementInst × List Governor) :=
  scan [] [] false 0 (codesTokens code)

/-! ## What is expected of the code -/

/-- The directives that give a unit of work to one thread, or its iterations to the team. -/
def Directive.isUnit : Directive → Bool
  | .single | .section_ | .for_ => true
  | _ => false

/-- The directives that begin a construct, which ends with a barrier. -/
def Directive.isConstruct : Directive → Bool
  | .single | .sections | .for_ => true
  | _ => false

/-- The units of work that a statement is part of. -/
def units (gs : List Governor) : List Governor := gs.filter fun g => g.directive.isUnit

/-- Exactly one directive shares the work: a `single`, a `section` of a `sections`, or a `for`. -/
def SharedOnce (gs : List Governor) : Prop :=
  ∃ g, units gs = [g] ∧ (g.directive = .section_ → ∃ h ∈ gs, h.directive = .sections)

/-- How the team shares a statement. -/
def slot (gs : List Governor) : Team.Slot where
  construct := (gs.filter fun g => g.directive.isConstruct).head?.map Governor.pos
  units := (units gs).map Governor.pos
  split := (units gs).any fun g => g.directive = .for_

/-- How the team shares the statements of the region. -/
def slots (code : List Code) (k : ℕ) : Team.Slot :=
  ((governed code)[k]?.map fun e => slot e.2).getD ⟨none, [], false⟩

mutual
/-- The statements of a loop, with those of its extra loops. -/
def CodeLoop.pieces (step : ℕ) : CodeLoop → List StatementInst
  | .mk _ fLoopIndex fPreInst fComputeInst fPostInst fExtraLoops =>
    allPieces step fExtraLoops ++ fPreInst.map Subtype.val ++
      (if fComputeInst.isEmpty then [] else [computeLoop fLoopIndex step fComputeInst]) ++
      fPostInst.map Subtype.val

def allPieces (step : ℕ) : List CodeLoop → List StatementInst
  | [] => []
  | l :: ls => l.pieces step ++ allPieces step ls
end

/-- The statements of a loop of the graph. -/
def CodeLoop.statements (o : Options) (l : CodeLoop) : List StatementInst :=
  l.pieces (if l.isVector o then o.gVecLoopSize else 1)

/-- The statements of the loops of some levels, in the order of execution. -/
def statements (o : Options) (levels : List (List CodeLoop)) : List StatementInst :=
  levels.flatMap fun level => level.flatMap fun l => l.statements o

/-- The statements that every thread runs for itself: the access to the inputs and outputs, and
the number of samples. -/
def prologue (o : Options) (locals : List Statement) : List StatementInst :=
  locals.map Subtype.val ++
    [InstBuilder.genDecStackVar "count" (.basic .kInt)
      (some (.funCall "min" [.intNum o.gVecSize,
        InstBuilder.genSub (InstBuilder.genLoadFunArgsVar "fullcount")
          (InstBuilder.genLoadLoopVar "index")]))]

/-- The directives cover the loops: every statement of a loop is in the code and is governed by
one directive that shares the work. For each block of samples, a team of any size then runs each
of them once, the iterations of a shared loop too, and runs nothing of a level before all that
is in the previous ones. -/
structure CoversLoops (o : Options) (fFirstPrivateTable : List String) (locals : List Statement)
    (dag : List (List CodeLoop)) : Prop where
  complete : (governed (generateDAGLoopOMP o fFirstPrivateTable locals dag)).map Prod.fst =
    prologue o locals ++ statements o dag.reverse
  shared : ∀ e ∈ (governed (generateDAGLoopOMP o fFirstPrivateTable locals dag)).drop
    (prologue o locals).length, SharedOnce e.2
  once : ∀ {ι : Type} [Fintype ι] [DecidableEq ι] (count : ℕ) (assign : ℕ × ℕ → ι)
    (run : List (ι × ℕ × ℕ)),
    Team.Run (prologue o locals ++ statements o dag.reverse).length
      (slots (generateDAGLoopOMP o fFirstPrivateTable locals dag)) count assign run →
    ∀ k, (prologue o locals).length ≤ k →
      k < (prologue o locals ++ statements o dag.reverse).length →
      ∀ j < (slots (generateDAGLoopOMP o fFirstPrivateTable locals dag) k).runs count,
        (run.map Prod.snd).count (k, j) = 1
  ordered : ∀ {ι : Type} [Fintype ι] [DecidableEq ι] (count : ℕ) (assign : ℕ × ℕ → ι)
    (run : List (ι × ℕ × ℕ)),
    Team.Run (prologue o locals ++ statements o dag.reverse).length
      (slots (generateDAGLoopOMP o fFirstPrivateTable locals dag)) count assign run →
    ∀ done rest, dag.reverse = done ++ rest →
      (run.filter fun e => (prologue o locals).length ≤ e.2.1 ∧
          e.2.1 < (prologue o locals ++ statements o done).length) ++
        (run.filter fun e => (prologue o locals).length ≤ e.2.1 ∧
          ¬ e.2.1 < (prologue o locals ++ statements o done).length) =
        run.filter fun e => (prologue o locals).length ≤ e.2.1

/-! ## The graphs that are covered -/

mutual
/-- The loop, or an extra loop of it, has code before it. -/
def CodeLoop.hasPreCode : CodeLoop → Bool
  | .mk _ _ fPreInst _ _ fExtraLoops => !fPreInst.isEmpty || haveCodeBefore fExtraLoops

def haveCodeBefore : List CodeLoop → Bool
  | [] => false
  | l :: ls => l.hasPreCode || haveCodeBefore ls
end

mutual
/-- There is at most one statement before, and one after, the loop and each of its extra
loops. -/
def CodeLoop.oneStatement : CodeLoop → Prop
  | .mk _ _ fPreInst _ fPostInst fExtraLoops =>
    oneStatements fExtraLoops ∧ fPreInst.length ≤ 1 ∧ fPostInst.length ≤ 1

def oneStatements : List CodeLoop → Prop
  | [] => True
  | l :: ls => l.oneStatement ∧ oneStatements ls
end

/-- The levels from one on are covered. `is_single` says that a loop was alone in its level and
put in a `single` since the last level of several loops. -/
def coveredLevels (o : Options) : Bool → List (List CodeLoop) → Prop
  | _, [] => True
  | is_single, [] :: levels => coveredLevels o is_single levels
  | is_single, [p] :: levels =>
    if !p.fIsRecursive && o.gOpenMPLoop then p.oneStatement ∧ coveredLevels o is_single levels
    else (is_single = true → p.statements o = []) ∧ coveredLevels o true levels
  | _, (_ :: _ :: _) :: levels => coveredLevels o false levels

/-- The graphs that are covered. -/
def CoveredGraph (o : Options) (dag : List (List CodeLoop)) : Prop :=
  (∀ level ∈ dag, ∀ l ∈ level, l.isVector o = true → l.hasPreCode = false) ∧
    coveredLevels o false dag.reverse

end Faust.Omp
