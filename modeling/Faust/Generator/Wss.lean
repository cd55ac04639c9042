import Faust.Parallelize.CodeLoop

/-!
# Code for the work stealing scheduler (`wss_code_container.cpp`)

Every thread runs the same `while` loop around a `switch` on its variable `tasknum`. There is
one `case` for each loop, which runs the loop and then activates the loops that depend on it;
task 0 looks for work and task 1 ends a block of samples and starts the next one.
-/

namespace Faust

/-- `WORK_STEALING_INDEX`. -/
def workStealingIndex : ℕ := 0

/-- `LAST_TASK_INDEX`. -/
def lastTaskIndex : ℕ := 1

/-- The argument of `initTaskList`: `-1`, or the variable `num_thread`. -/
inductive CurThread
  | minusOne
  | numThread
deriving DecidableEq, Repr

/-- The statements of the generated code. -/
inductive Instr
  /-- The code of a loop. -/
  | loop (p : ℕ)
  /-- `tasknum = n`. -/
  | storeTasknum (n : ℕ)
  /-- `tasknum = getNextTask(fScheduler, num_thread)`. -/
  | getNextTask
  /-- `getReadyTask(fScheduler, num_thread, &tasknum)`. -/
  | getReadyTask
  /-- `pushHead(fScheduler, num_thread, task)`. -/
  | pushHead (task : ℕ)
  /-- `activateOneOutputTask(fScheduler, num_thread, task, &tasknum)`. -/
  | activateOneOutputTask (task : ℕ)
  /-- `activateOutputTask1(fScheduler, num_thread, task, &tasknum)`. -/
  | activateOutputTask1 (task : ℕ)
  /-- `activateOutputTask2(fScheduler, num_thread, task)`. -/
  | activateOutputTask2 (task : ℕ)
  /-- `fIndex = fIndex + VecSize`. -/
  | addIndex
  /-- `if (fIndex < fFullcount)` around the code of `generateDAGLoopWSSAux1`. -/
  | ifMore
  /-- `initTask(fScheduler, task, count)`. -/
  | initTask (task count : ℕ)
  /-- `initTaskList(fScheduler, cur_thread)`. -/
  | initTaskList (cur : CurThread)
deriving DecidableEq, Repr

namespace LoopGraph

variable (G : LoopGraph)

/-- `generateDAGLoopWSSAux1`: the activation counts of the tasks with more than one input,
and the ready tasks. -/
def generateDAGLoopWSSAux1 (cur : CurThread) : List Instr :=
  (if 1 < G.lastLevel.length then [.initTask lastTaskIndex G.lastLevel.length] else []) ++
    (G.order.filter fun p => 1 < (G.backward p).length).map
      (fun p => .initTask (G.index p) (G.backward p).length) ++
    [.initTaskList cur]

/-- The activation of one output `s`, when the output `keep` is run next by the thread. -/
def activateOutput (keep : Option ℕ) (s : ℕ) : List Instr :=
  if (G.backward s).length = 1 then
    if some s ≠ keep then [.pushHead (G.index s)] else []
  else
    match keep with
    | none => [.activateOutputTask1 (G.index s)]
    | some _ => [.activateOutputTask2 (G.index s)]

/-- The activation of the outputs of a loop that is not on the last level. -/
def activateOutputs (p : ℕ) : List Instr :=
  match G.forward p with
  | [s] =>
    -- one output only
    if (G.backward s).length = 1 then [.storeTasknum (G.index s)]
    else [.activateOneOutputTask (G.index s)]
  | ss =>
    -- keep one output with only one backward dependency
    match ss.find? fun s => (G.backward s).length = 1 with
    | none =>
      .storeTasknum workStealingIndex :: ss.flatMap (G.activateOutput none) ++ [.getReadyTask]
    | some keep => ss.flatMap (G.activateOutput (some keep)) ++ [.storeTasknum (G.index keep)]

/-- The activation of the last task after a loop of the last level. -/
def activateLast : List Instr :=
  if G.lastLevel.length = 1 then [.storeTasknum lastTaskIndex]
  else [.activateOneOutputTask lastTaskIndex]

/-- The `case` blocks of the loops, in the order in which they are generated. -/
def caseBlocks : List (List Instr) :=
  G.levels.tail.reverse.flatten.map (fun p => .loop p :: G.activateOutputs p) ++
    G.lastLevel.map fun p => .loop p :: G.activateLast

/-- `generateDAGLoopWSS`: the `switch`, with the label of each `case`. -/
def generateDAGLoopWSS : List (ℕ × List Instr) :=
  (workStealingIndex, [.getNextTask]) ::
  (lastTaskIndex, [.addIndex, .ifMore, .storeTasknum workStealingIndex]) ::
    G.caseBlocks.zipIdx.map fun c => (startTaskMax + c.2, c.1)

/-- The block of the `switch` for a value of `tasknum`. -/
def caseBlock (tasknum : ℕ) : Option (List Instr) := G.generateDAGLoopWSS.lookup tasknum

/-- What follows the code of a loop in its `case` block. -/
def activation (p : ℕ) : List Instr :=
  if p ∈ G.lastLevel then G.activateLast else G.activateOutputs p

variable {G}

/-! ## The labels are the numbers of the loops -/

lemma order_eq : G.order = G.levels.tail.reverse.flatten ++ G.lastLevel := by
  unfold order lastLevel
  cases hlevels : G.levels with
  | nil => rfl
  | cons l ls => simp

lemma caseBlocks_eq : G.caseBlocks = G.order.map fun p => .loop p :: G.activation p := by
  have hnd := nodup_order (G := G)
  rw [order_eq, List.nodup_append] at hnd
  rw [caseBlocks, order_eq, List.map_append]
  congr 1
  · refine List.map_congr_left fun p hp => ?_
    rw [activation, if_neg fun h => hnd.2.2 p hp p h rfl]
  · exact List.map_congr_left fun p hp => by rw [activation, if_pos hp]

@[simp] lemma caseBlock_workStealing : G.caseBlock workStealingIndex = some [.getNextTask] := rfl

@[simp] lemma caseBlock_lastTask : G.caseBlock lastTaskIndex =
    some [.addIndex, .ifMore, .storeTasknum workStealingIndex] := rfl

/-- Looking a number up among consecutive labels. -/
lemma lookup_zipIdx {α : Type} (k : ℕ) (l : List α) : ∀ n i : ℕ,
    ((l.zipIdx n).map fun c => (k + c.2, c.1)).lookup (k + (n + i)) = l[i]? := by
  induction l with
  | nil => simp
  | cons a l ih =>
    intro n i
    rw [List.zipIdx_cons, List.map_cons, List.lookup_cons]
    cases i with
    | zero => simp
    | succ i =>
      have hne : (k + (n + (i + 1)) == k + n) = false := by
        rw [beq_eq_false_iff_ne]
        omega
      rw [hne, List.getElem?_cons_succ, ← ih (n + 1) i, Nat.add_right_comm n 1 i, Nat.add_assoc n i 1]

/-- The `case` of a loop carries the number that `computeForwardDAG` gave to the loop. -/
theorem caseBlock_index {p : ℕ} (hp : p ∈ G.order) :
    G.caseBlock (G.index p) = some (.loop p :: G.activation p) := by
  have h₀ : (G.index p == workStealingIndex) = false := by
    have := two_le_index hp
    rw [beq_eq_false_iff_ne, workStealingIndex]
    omega
  have h₁ : (G.index p == lastTaskIndex) = false := by
    have := two_le_index hp
    rw [beq_eq_false_iff_ne, lastTaskIndex]
    omega
  have hlook := lookup_zipIdx startTaskMax G.caseBlocks 0 (G.order.idxOf p)
  rw [Nat.zero_add, ← index_eq hp] at hlook
  rw [caseBlock, generateDAGLoopWSS, List.lookup_cons, List.lookup_cons, h₀, h₁]
  simp only [hlook]
  rw [caseBlocks_eq, List.getElem?_map,
    List.getElem?_eq_getElem (List.idxOf_lt_length_of_mem hp), List.getElem_idxOf]
  rfl

end LoopGraph

end Faust
