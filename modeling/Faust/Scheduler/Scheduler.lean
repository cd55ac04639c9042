import Faust.Generator.Wss
import Faust.Tlib.Node

/-!
# The work stealing scheduler (`scheduler.cpp`)

The threads run `computeThread` and call the scheduler. Here the calls are expanded into the
atomic steps of the run-time: a thread is at some point of the `while` loop, or has a list of
such steps before it. `InitTask`, the decrement of an activation count, and `InitOne`,
`PushHead`, `PopHead` and `PopTail` on a queue are one step each.

Thread 0 is the one that calls `compute`. The others wait on their semaphores. The indices are
`int`s: `fIndex + VecSize` wraps around.
-/

namespace Faust

open LoopGraph

/-- The steps of a thread. -/
inductive Op
  /-- `fFullcount = n`. -/
  | storeFullcount (n : ℤ)
  /-- `fIndex = 0`. -/
  | storeIndex
  /-- `fTaskGraph->InitTask(task, count)`. -/
  | initTask (task count : ℕ)
  /-- `fTaskQueueList[queue].InitOne()`. -/
  | initOne (queue : ℕ)
  /-- `fTaskQueueList[queue].PushHead(task)`. -/
  | pushHead (queue task : ℕ)
  /-- `*tasknum = queue.PopHead()`. -/
  | popHead
  /-- `GetNextTask`, from queue `i` on, among `num_threads` queues. -/
  | getNextTask (i num_threads : ℕ)
  /-- `GetReadyTask`. -/
  | getReadyTask
  /-- `ActivateOneOutputTask`. -/
  | activateOneOutputTask (task : ℕ)
  /-- `ActivateOutputTask`, with the argument `tasknum`. -/
  | activateOutputTask1 (task : ℕ)
  /-- `ActivateOutputTask`, without it. -/
  | activateOutputTask2 (task : ℕ)
  /-- `fThreadPool[i]->Signal()`, for the thread number `i`. -/
  | signal (i : ℕ)
  /-- The code of a loop. -/
  | loop (p : ℕ)
  /-- `tasknum = n`. -/
  | storeTasknum (n : ℕ)
  /-- `fIndex = fIndex + VecSize`. -/
  | addIndex
  /-- `if (fIndex < fFullcount)`. -/
  | ifMore
deriving DecidableEq, Repr

/-! ## The number of threads -/

/-- What `StopMeasure` finds: the mean of the last timings is near the one before (or it is not
time to look at it), it is worse, or it is better. The clock is not modelled. -/
inductive Timing
  | same
  | worse
  | better
deriving DecidableEq, Repr

namespace DynThreadAdapter

/-- `Range`. -/
def range (lo hi val : ℕ) : ℕ := if val < lo then lo else if val > hi then hi else val

/-- `StopMeasure`: `fOldfDynamicNumThreads` and `dynthreadnum`. -/
def stopMeasure (timing : Timing) (staticthreadnum old dynthreadnum : ℕ) : ℕ × ℕ :=
  match timing with
  | .same => (old, dynthreadnum)
  | .worse => (dynthreadnum, range 1 staticthreadnum
      (if old > dynthreadnum then dynthreadnum + 1 else dynthreadnum - 1))
  | .better => (dynthreadnum, range 1 staticthreadnum
      (if old > dynthreadnum then dynthreadnum - 1 else dynthreadnum + 1))

lemma stopMeasure_range {static dyn : ℕ} (hpos : 0 < dyn) (hle : dyn ≤ static) (timing : Timing)
    (old : ℕ) : 0 < (stopMeasure timing static old dyn).2 ∧
      (stopMeasure timing static old dyn).2 ≤ static := by
  have hrange : ∀ val, 0 < range 1 static val ∧ range 1 static val ≤ static := by
    intro val
    unfold range
    split
    · omega
    · split <;> omega
  cases timing with
  | same => exact ⟨hpos, hle⟩
  | worse => exact hrange _
  | better => exact hrange _

end DynThreadAdapter

/-- A graph of loops and the scheduler that runs its code. The numbers of threads change between
two calls only. -/
structure Wss where
  G : LoopGraph
  fStaticNumThreads : ℕ
  /-- `fDynamicNumThreads`. -/
  numThreads : ℕ
  fOldfDynamicNumThreads : ℕ
  /-- `gVecSize`. -/
  vecSize : ℤ
  numThreads_pos : 0 < numThreads
  numThreads_le : numThreads ≤ fStaticNumThreads
  vecSize_pos : 0 < vecSize
  vecSize_lt : vecSize < 2 ^ 31

namespace Wss

variable (W : Wss)

/-- `SyncAll`, at the end of `compute`. -/
def syncAll (timing : Timing) : Wss where
  G := W.G
  fStaticNumThreads := W.fStaticNumThreads
  numThreads := (DynThreadAdapter.stopMeasure timing W.fStaticNumThreads
    W.fOldfDynamicNumThreads W.numThreads).2
  fOldfDynamicNumThreads := (DynThreadAdapter.stopMeasure timing W.fStaticNumThreads
    W.fOldfDynamicNumThreads W.numThreads).1
  vecSize := W.vecSize
  numThreads_pos := (DynThreadAdapter.stopMeasure_range W.numThreads_pos W.numThreads_le _ _).1
  numThreads_le := (DynThreadAdapter.stopMeasure_range W.numThreads_pos W.numThreads_le _ _).2
  vecSize_pos := W.vecSize_pos
  vecSize_lt := W.vecSize_lt

/-! ## Calls to the scheduler -/

/-- `TaskQueue::InitTaskList`: what thread `i` takes of the ready tasks. -/
def taskSlice (i : ℕ) : List ℕ :=
  let slice := W.G.readyLoop.length / W.numThreads
  (W.G.readyLoop.drop (i * slice)).take slice ++
    if i = 0 then W.G.readyLoop.drop (W.numThreads * slice) else []

/-- `WorkStealingScheduler::InitTaskList`, by the thread `self`. -/
def initTaskList (self : ℕ) (cur : CurThread) : List Op :=
  (List.range W.numThreads).map .initOne ++
    match cur with
    | .minusOne => (List.range W.numThreads).flatMap fun i => (W.taskSlice i).map (.pushHead i)
    | .numThread => W.G.readyLoop.map (.pushHead self)

/-- The steps of a statement, in the thread `self`. -/
def expand (self : ℕ) : Instr → List Op
  | .loop p => [.loop p]
  | .storeTasknum n => [.storeTasknum n]
  | .getNextTask => [.getNextTask 0 W.numThreads]
  | .getReadyTask => [.getReadyTask]
  | .pushHead task => [.pushHead self task]
  | .activateOneOutputTask task => [.activateOneOutputTask task]
  | .activateOutputTask1 task => [.activateOutputTask1 task]
  | .activateOutputTask2 task => [.activateOutputTask2 task]
  | .addIndex => [.addIndex]
  | .ifMore => [.ifMore]
  | .initTask task count => [.initTask task count]
  | .initTaskList cur => W.initTaskList self cur

/-- The steps of a block of statements. -/
def expands (self : ℕ) (code : List Instr) : List Op := code.flatMap (W.expand self)

/-- The initialisation of a block of samples. -/
def initBlock (self : ℕ) (cur : CurThread) : List Op :=
  W.expands self (W.G.generateDAGLoopWSSAux1 cur)

/-- `generateDAGLoopWSSAux2`: what `compute` does before it calls `computeThread`. -/
def compute (n : ℤ) : List Op :=
  .storeFullcount n :: .storeIndex :: W.initBlock 0 .minusOne ++
    (List.range (W.numThreads - 1)).map fun i => .signal (i + 1)

end Wss

/-! ## States -/

/-- Where a thread is. -/
inductive Pc
  /-- Out of `computeThread`: a worker waits for a signal. -/
  | idle
  /-- At the condition of the `while` loop. -/
  | test
  /-- About to set the pointers to the inputs and outputs. -/
  | loadIndex
  /-- About to compute `count`. -/
  | loadCount
  /-- At the `switch`. -/
  | switch
  /-- In a block of code. -/
  | code (ops : List Op)
deriving DecidableEq, Repr

/-- A thread, with its local variables. The pointers to the inputs and outputs are given by
the index they were computed from. -/
structure Thread where
  pc : Pc
  tasknum : ℕ
  index : ℤ
  count : ℤ
deriving DecidableEq, Repr

/-- What has been run: a loop on a block of samples, or the last task at the end of a block. -/
inductive Event
  | loop (p : ℕ) (index count : ℤ)
  | last (index : ℤ)
deriving DecidableEq, Repr

/-- Where the block of an event begins. -/
def Event.index : Event → ℤ
  | .loop _ index _ => index
  | .last index => index

/-- The shared memory, the threads and what has been run so far. -/
structure SchedulerState where
  fIndex : ℤ
  fFullcount : ℤ
  /-- The activation count of each task. -/
  taskGraph : ℕ → ℤ
  /-- The tasks in the queue of each thread, from head to tail. -/
  taskQueue : ℕ → List ℕ
  semaphore : ℕ → ℕ
  thread : ℕ → Thread
  log : List Event

namespace SchedulerState

/-- Replace a thread. -/
def setThread (s : SchedulerState) (i : ℕ) (th : Thread) : SchedulerState :=
  { s with thread := Function.update s.thread i th }

/-- Move a thread. -/
def goto (s : SchedulerState) (i : ℕ) (pc : Pc) : SchedulerState :=
  s.setThread i { s.thread i with pc := pc }

/-- Move a thread and set its `tasknum`. -/
def gotoWith (s : SchedulerState) (i : ℕ) (tasknum : ℕ) (pc : Pc) : SchedulerState :=
  s.setThread i { s.thread i with pc := pc, tasknum := tasknum }

/-- Replace a queue. -/
def setQueue (s : SchedulerState) (i : ℕ) (q : List ℕ) : SchedulerState :=
  { s with taskQueue := Function.update s.taskQueue i q }

/-- Set an activation count. -/
def setTask (s : SchedulerState) (task : ℕ) (n : ℤ) : SchedulerState :=
  { s with taskGraph := Function.update s.taskGraph task n }

/-- Set the number of signals a thread has received. -/
def setSemaphore (s : SchedulerState) (i n : ℕ) : SchedulerState :=
  { s with semaphore := Function.update s.semaphore i n }

/-- Record an event. -/
def record (s : SchedulerState) (e : Event) : SchedulerState := { s with log := s.log ++ [e] }

end SchedulerState

namespace Wss

variable (W : Wss)

/-! ## Steps -/

/-- The step `op` of thread `i`, which has the steps `rest` to do afterwards. -/
def execOp (s : SchedulerState) (i : ℕ) (op : Op) (rest : List Op) : SchedulerState :=
  let th := s.thread i
  match op with
  | .storeFullcount n => { s.goto i (.code rest) with fFullcount := n }
  | .storeIndex => { s.goto i (.code rest) with fIndex := 0 }
  | .initTask task count => (s.setTask task count).goto i (.code rest)
  | .initOne q => (s.setQueue q []).goto i (.code rest)
  | .pushHead q task => (s.setQueue q (task :: s.taskQueue q)).goto i (.code rest)
  | .popHead =>
    match s.taskQueue i with
    | [] => s.gotoWith i workStealingIndex (.code rest)
    | task :: q => (s.setQueue i q).gotoWith i task (.code rest)
  | .getNextTask j num_threads =>
    match (s.taskQueue j).getLast? with
    | some task => (s.setQueue j (s.taskQueue j).dropLast).gotoWith i task (.code rest)
    | none =>
      if j + 1 < num_threads then s.goto i (.code (.getNextTask (j + 1) num_threads :: rest))
      else s.gotoWith i workStealingIndex (.code rest)
  | .getReadyTask =>
    if th.tasknum = workStealingIndex then s.goto i (.code (.popHead :: rest))
    else s.goto i (.code rest)
  | .activateOneOutputTask task =>
    let n := s.taskGraph task - 1
    if n = 0 then (s.setTask task n).gotoWith i task (.code rest)
    else (s.setTask task n).goto i (.code (.popHead :: rest))
  | .activateOutputTask1 task =>
    let n := s.taskGraph task - 1
    if n = 0 then
      if th.tasknum = workStealingIndex then (s.setTask task n).gotoWith i task (.code rest)
      else (s.setTask task n).goto i (.code (.pushHead i task :: rest))
    else (s.setTask task n).goto i (.code rest)
  | .activateOutputTask2 task =>
    let n := s.taskGraph task - 1
    if n = 0 then (s.setTask task n).goto i (.code (.pushHead i task :: rest))
    else (s.setTask task n).goto i (.code rest)
  | .signal j => (s.setSemaphore j (s.semaphore j + 1)).goto i (.code rest)
  | .loop p => (s.record (.loop p th.index th.count)).goto i (.code rest)
  | .storeTasknum n => s.gotoWith i n (.code rest)
  | .addIndex =>
    { (s.record (.last s.fIndex)).goto i (.code rest) with
      fIndex := wrap32 (s.fIndex + W.vecSize) }
  | .ifMore =>
    if s.fIndex < s.fFullcount then s.goto i (.code (W.initBlock i .numThread ++ rest))
    else s.goto i (.code rest)

/-- The next step of thread `i`, or `none` when the thread waits. -/
def step (s : SchedulerState) (i : ℕ) : Option SchedulerState :=
  let th := s.thread i
  match th.pc with
  | .idle =>
    -- `fSemaphore.wait()`, then `computeThread` with fresh local variables
    if 0 < s.semaphore i then
      some ((s.setSemaphore i (s.semaphore i - 1)).gotoWith i workStealingIndex .test)
    else none
  | .test => if s.fIndex < s.fFullcount then some (s.goto i .loadIndex) else some (s.goto i .idle)
  | .loadIndex => some (s.setThread i { th with pc := .loadCount, index := s.fIndex })
  | .loadCount => some (s.setThread i
      { th with pc := .switch, count := min W.vecSize (wrap32 (s.fFullcount - s.fIndex)) })
  | .switch =>
    match W.G.caseBlock th.tasknum with
    | some block => some (s.goto i (.code (W.expands i block)))
    | none => some (s.goto i .test)
  | .code [] => some (s.goto i .test)
  | .code (op :: rest) => some (W.execOp s i op rest)

/-- The master thread calls `compute` on `n` samples. -/
def call (s : SchedulerState) (n : ℤ) : SchedulerState :=
  s.gotoWith 0 workStealingIndex (.code (W.compute n))

/-- The states reached from `s` by the steps of the threads. -/
inductive Run (s : SchedulerState) : SchedulerState → Prop
  | refl : Run s s
  | step {s' s'' : SchedulerState} (i : ℕ) (hi : i < W.numThreads) (h : Run s s')
      (hstep : W.step s' i = some s'') : Run s s''

end Wss

end Faust
