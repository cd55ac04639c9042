import Faust.Scheduler.Compute

/-!
# Several calls of `compute`

`syncAll` does not wait, and it may change the number of threads: the master thread calls `compute`
again as soon as it has returned, and the other threads may still be in their loop then. Some of
them do no harm: those that look for work and do nothing else.
-/

namespace Faust

/-- The step may change the head of the queue of its thread, or reset a queue. -/
def Op.usesQueue : Op → Bool
  | .pushHead _ _ | .popHead | .getReadyTask | .initOne _ | .activateOneOutputTask _
  | .activateOutputTask1 _ | .activateOutputTask2 _ => true
  | _ => false

/-- The block of code in which a thread is. -/
def Pc.ops : Pc → List Op
  | .code ops => ops
  | _ => []

namespace Wss

open LoopGraph Finset

variable (W : Wss)

/-! ## Sequences of calls -/

/-- What happens next: a step of a thread, or a call on `n` samples. -/
inductive Move
  | step (i : ℕ)
  | call (n : ℤ)

/-- The states of a sequence of calls in which each move is allowed, with the scheduler and the
number of samples of the last call. Before it calls again the master thread has left the last call
by `syncAll`. The log is the one of the last call. -/
inductive Session (allowed : Wss → SchedulerState → Move → Prop) : Wss → ℤ → SchedulerState → Prop
  | start {W : Wss} {s : SchedulerState} (n : ℤ) (h : W.Quiescent s) (hn : IsInt32 n)
      (hallowed : allowed W s (.call n)) : Session allowed W n (W.call s n)
  | step {W : Wss} {n : ℤ} {s s' : SchedulerState} (i : ℕ) (h : Session allowed W n s)
      (hi : i < W.fStaticNumThreads) (hstep : W.step s i = some s')
      (hallowed : allowed W s (.step i)) : Session allowed W n s'
  | call {W : Wss} {n : ℤ} {s : SchedulerState} (timing : Timing) (m : ℤ)
      (h : Session allowed W n s) (hreturned : (s.thread 0).pc = .idle) (hm : IsInt32 m)
      (hallowed : allowed (W.syncAll timing) s (.call m)) :
      Session allowed (W.syncAll timing) m ((W.syncAll timing).call { s with log := [] } m)

/-! ## Threads that look for work -/

/-- Code that activates no task and uses no queue but to look for work. -/
structure CalmCode (ops : List Op) : Prop where
  tail : W.Tail ops
  notifies : W.notifies ops = []
  usesQueue : ∀ op ∈ ops, op.usesQueue = false

/-- A thread that holds no task, and whose code is calm. -/
structure Calm (th : Thread) : Prop where
  tokens : W.threadTokens th = []
  code : ∀ ops, th.pc = .code ops → W.CalmCode ops

/-- The invariant of the first two steps of a call, when the queues are empty and the other
threads look for work. -/
structure Opening (n : ℤ) (s : SchedulerState) : Prop where
  code : (s.thread 0).pc = .code (W.compute n) ∨
    s.fFullcount = n ∧ (s.thread 0).pc = .code (W.compute n).tail
  tasknum : (s.thread 0).tasknum = workStealingIndex
  queue : ∀ q < W.fStaticNumThreads, s.taskQueue q = []
  other : ∀ j < W.numThreads, j ≠ 0 → W.Calm (s.thread j)
  log : s.log = []

/-- The step initialises a block or signals a thread. -/
def StartOp (op : Op) : Prop :=
  W.InitOp op ∨ (∃ q t, op = .pushHead q t ∧ q < W.numThreads ∧ W.G.dag.IsTask t) ∨
    ∃ j, op = .signal j

/-- A thread that leaves the loop at its next test. It may have found a task. -/
structure Leaving (th : Thread) : Prop where
  tasknum : th.pc = .loadIndex ∨ th.pc = .loadCount ∨ th.pc = .switch →
    th.tasknum = workStealingIndex
  code : ∀ ops, th.pc = .code ops → W.CalmCode ops

/-- The invariant of a call on no samples, when the other threads look for work. -/
structure Idling (s : SchedulerState) : Prop where
  le : s.fFullcount ≤ s.fIndex
  master : (s.thread 0).pc = .idle ∨ (s.thread 0).pc = .test ∨
    ∃ ops, (s.thread 0).pc = .code ops ∧ ∀ op ∈ ops, W.StartOp op
  other : ∀ j < W.numThreads, j ≠ 0 → W.Leaving (s.thread j)
  log : s.log = []

/-- The phases of a call. -/
inductive Phase (n : ℤ) (s : SchedulerState) : Prop
  | starting (h : W.Starting n s)
  | opening (h : W.Opening n s)
  | block (h : W.Computing n s) (hphase : W.Running s ∨ W.Finished s)
  | idling (h : W.Idling s) (hn : n ≤ 0)

/-- The invariant of a call. -/
structure InCall (n : ℤ) (s : SchedulerState) : Prop where
  int : IsInt32 n
  endIndex_lt : W.endIndex n < 2 ^ 31
  confined : W.Confined s
  phase : W.Phase n s

/-- A thread that is still in its loop does no harm to the next call: it holds no task and finds
none in a queue, and is not about to pop the head of its queue or to test whether there is a
further block. -/
structure Harmless (s : SchedulerState) (j : ℕ) : Prop where
  tokens : W.threadTokens (s.thread j) = []
  queue : ∀ q < W.fStaticNumThreads, s.taskQueue q = []
  code : .popHead ∉ (s.thread j).pc.ops ∧ .getReadyTask ∉ (s.thread j).pc.ops ∧
    .ifMore ∉ (s.thread j).pc.ops

variable {W} {s s' : SchedulerState} {i : ℕ} {n : ℤ}

/-! ## Calm code -/

/-- Code that activates no task uses the queue of its thread to pop its head only. -/
lemma Tail.usesQueue {ops : List Op} (h : W.Tail ops) (hnot : W.notifies ops = [])
    (htok : W.tokens ops = []) (hpop : .popHead ∉ ops) (hready : .getReadyTask ∉ ops) :
    ∀ op ∈ ops, op.usesQueue = false := by
  intro op hop
  have hop₁ := List.flatMap_eq_nil_iff.mp hnot op hop
  have hop₂ := List.flatMap_eq_nil_iff.mp htok op hop
  have hop₃ := h.op op hop
  cases op with
  | popHead => exact absurd hop hpop
  | getReadyTask => exact absurd hop hready
  | pushHead q t =>
    -- a task that is pushed is held or announced
    simp only [Op.notifies, Op.tokens] at hop₁ hop₂
    split at hop₁
    · rename_i hlen
      rw [if_pos hlen] at hop₂
      cases hop₂
    · cases hop₁
  | initOne q => exact hop₃.elim
  | activateOneOutputTask t => cases hop₁
  | activateOutputTask1 t => cases hop₁
  | activateOutputTask2 t => cases hop₁
  | _ => rfl

/-- What a step of calm code is. -/
lemma CalmCode.cons_inv {op : Op} {rest : List Op} (h : W.CalmCode (op :: rest)) :
    W.CalmCode rest ∧ ((∃ q m, q < m ∧ op = .getNextTask q m) ∨ (∃ j, op = .signal j) ∨
      op = .storeTasknum workStealingIndex) := by
  have hnot := h.notifies
  rw [notifies_cons, List.append_eq_nil_iff] at hnot
  have huse := h.usesQueue op List.mem_cons_self
  refine ⟨⟨h.tail.cons_inv, hnot.2, fun op' hop' => h.usesQueue op' (by simp [hop'])⟩, ?_⟩
  have hop := h.tail.op op List.mem_cons_self
  cases op with
  | getNextTask q m => exact .inl ⟨q, m, hop, rfl⟩
  | signal j => exact .inr (.inl ⟨j, rfl⟩)
  | storeTasknum t =>
    by_cases ht : t = workStealingIndex
    · exact .inr (.inr (by rw [ht]))
    · have hnot₁ := hnot.1
      rw [Op.notifies, if_neg ht] at hnot₁
      cases hnot₁
  | _ => first | exact hop.elim | cases huse

lemma CalmCode.tokens {ops : List Op} (h : W.CalmCode ops) : W.tokens ops = [] := by
  induction ops with
  | nil => rfl
  | cons op ops ih =>
    obtain ⟨hrest, ⟨q, m, -, rfl⟩ | ⟨j, rfl⟩ | rfl⟩ := h.cons_inv
    · exact ih hrest
    · exact ih hrest
    · exact ih hrest

lemma CalmCode.getNextTask {q m : ℕ} {rest : List Op} (h : W.CalmCode (.getNextTask q m :: rest))
    (hq : q + 1 < m) : W.CalmCode (.getNextTask (q + 1) m :: rest) where
  tail := h.tail.cons_inv.cons hq h.tail.live.1
  notifies := h.notifies
  usesQueue := List.forall_mem_cons.mpr
    ⟨rfl, fun op hop => h.usesQueue op (List.mem_cons_of_mem _ hop)⟩

/-- What a thread with calm code holds. -/
lemma CalmCode.threadTokens {th : Thread} {ops : List Op} (h : W.CalmCode ops)
    (hpc : th.pc = .code ops) :
    W.threadTokens th = if ops.any Op.overwrites then [] else held th.tasknum := by
  rw [threadTokens_code hpc, h.tokens, List.nil_append]

/-- After a step of calm code the code is calm, and nothing is found in empty queues. -/
lemma CalmCode.exec {op : Op} {rest : List Op} (h : W.CalmCode (op :: rest))
    (hpc : (s.thread i).pc = .code (op :: rest)) (hconf : W.ConfinedOp s i op) :
    Frame s (W.execOp s i op rest) i ∧
      (∃ ops, ((W.execOp s i op rest).thread i).pc = .code ops ∧ W.CalmCode ops) ∧
      ((∀ q < W.fStaticNumThreads, s.taskQueue q = []) → W.threadTokens (s.thread i) = [] →
        (W.execOp s i op rest).taskQueue = s.taskQueue ∧
          W.threadTokens ((W.execOp s i op rest).thread i) = []) := by
  have hother : ∀ {th : Thread}, ∀ j ≠ i, Function.update s.thread i th j = s.thread j :=
    fun j hj => Function.update_of_ne hj _ _
  -- the thread goes on with `ops` and the task `t`
  have hnext : ∀ {s₁ : SchedulerState} {ops : List Op} {t : ℕ}, Frame s s₁ i →
      s₁.thread i = { s.thread i with pc := .code ops, tasknum := t } → W.CalmCode ops →
      ((∀ q < W.fStaticNumThreads, s.taskQueue q = []) → W.threadTokens (s.thread i) = [] →
        s₁.taskQueue = s.taskQueue ∧ (if ops.any Op.overwrites then [] else held t) = []) →
      Frame s s₁ i ∧ (∃ ops, (s₁.thread i).pc = .code ops ∧ W.CalmCode ops) ∧
        ((∀ q < W.fStaticNumThreads, s.taskQueue q = []) → W.threadTokens (s.thread i) = [] →
          s₁.taskQueue = s.taskQueue ∧ W.threadTokens (s₁.thread i) = []) := by
    intro s₁ ops t hframe hself hops hempty
    refine ⟨hframe, ⟨ops, by rw [hself], hops⟩, fun hqueue htok => ?_⟩
    obtain ⟨hsame, hheld⟩ := hempty hqueue htok
    refine ⟨hsame, ?_⟩
    rw [hops.threadTokens (by rw [hself]), hself]
    exact hheld
  obtain ⟨hrest, ⟨q, m, hq, rfl⟩ | ⟨j, rfl⟩ | rfl⟩ := h.cons_inv
  · simp only [execOp]
    split
    · rename_i t hlast
      refine hnext ⟨hother, rfl, rfl, rfl⟩ (by simp; rfl) hrest fun hqueue _ => ?_
      rw [hqueue q (hq.trans_le hconf.1)] at hlast
      cases hlast
    · split
      · rename_i hlt
        exact hnext ⟨hother, rfl, rfl, rfl⟩ (by simp; rfl) (h.getNextTask hlt) fun _ _ =>
          ⟨rfl, rfl⟩
      · refine hnext ⟨hother, rfl, rfl, rfl⟩ (by simp; rfl) hrest fun _ _ => ⟨rfl, ?_⟩
        rw [held_workStealing, ite_self]
  · refine hnext ⟨hother, rfl, rfl, rfl⟩ (by simp [execOp]; rfl) hrest fun _ htok => ⟨rfl, ?_⟩
    rw [h.threadTokens hpc] at htok
    exact htok
  · refine hnext ⟨hother, rfl, rfl, rfl⟩ (by simp [execOp]; rfl) hrest fun _ _ => ⟨rfl, ?_⟩
    rw [held_workStealing, ite_self]

lemma calmCode_getNextTask : W.CalmCode [.getNextTask 0 W.numThreads] where
  tail := tail_getNextTask
  notifies := rfl
  usesQueue := by simp [Op.usesQueue]

/-- A step of a thread that looks for work, when the queues are empty. -/
theorem Calm.step (h : W.Calm (s.thread i)) (hconf : W.Confined s) (hi : i < W.numThreads)
    (hqueue : ∀ q < W.fStaticNumThreads, s.taskQueue q = []) (hstep : W.step s i = some s') :
    W.Calm (s'.thread i) ∧ Frame s s' i ∧ s'.taskQueue = s.taskQueue := by
  have htok := h.tokens
  have hframe : ∀ th, Frame s (s.setThread i th) i := fun th =>
    ⟨fun j hj => Function.update_of_ne hj _ _, rfl, rfl, rfl⟩
  -- a step between two blocks of code
  have hmove : ∀ th : Thread, s' = s.setThread i th → W.threadTokens th = [] →
      (∀ ops, th.pc = .code ops → W.CalmCode ops) →
      W.Calm (s'.thread i) ∧ Frame s s' i ∧ s'.taskQueue = s.taskQueue := by
    intro th heq hth hcode
    subst heq
    rw [setThread_self]
    exact ⟨⟨hth, hcode⟩, hframe th, rfl⟩
  unfold Wss.step at hstep
  cases hpc : (s.thread i).pc with
  | idle =>
    simp only [hpc] at hstep
    split at hstep
    · cases hstep
      refine ⟨⟨?_, ?_⟩, ⟨fun j hj => Function.update_of_ne hj _ _, rfl, rfl, rfl⟩, rfl⟩
      · simp [threadTokens]
      · simp
    · cases hstep
  | test =>
    simp only [hpc] at hstep
    rw [threadTokens, hpc] at htok
    split at hstep
    · cases hstep
      exact hmove _ rfl htok (by simp)
    · cases hstep
      exact hmove _ rfl rfl (by simp)
  | loadIndex =>
    simp only [hpc, Option.some.injEq] at hstep
    rw [threadTokens, hpc] at htok
    exact hmove _ hstep.symm htok (by simp)
  | loadCount =>
    simp only [hpc, Option.some.injEq] at hstep
    rw [threadTokens, hpc] at htok
    exact hmove _ hstep.symm htok (by simp)
  | switch =>
    have hw : (s.thread i).tasknum = workStealingIndex := by
      rw [threadTokens, hpc] at htok
      by_contra hne
      rw [held_of_ne hne] at htok
      cases htok
    simp only [hpc, hw, caseBlock_workStealing, Option.some.injEq] at hstep
    refine hmove _ hstep.symm rfl fun ops hops => ?_
    cases hops
    exact calmCode_getNextTask
  | code ops =>
    cases ops with
    | nil =>
      simp only [hpc, Option.some.injEq] at hstep
      rw [threadTokens_code hpc] at htok
      exact hmove _ hstep.symm htok (by simp)
    | cons op rest =>
      simp only [hpc, Option.some.injEq] at hstep
      subst hstep
      obtain ⟨hframe', ⟨ops, hpc', hops⟩, hempty⟩ :=
        (h.code _ hpc).exec hpc (hconf.code i hi _ hpc _ List.mem_cons_self)
      obtain ⟨hqueue', htok'⟩ := hempty hqueue htok
      refine ⟨⟨htok', fun ops' hops' => ?_⟩, hframe', hqueue'⟩
      rw [hpc'] at hops'
      cases hops'
      exact hops

/-- A step of a thread that leaves the loop. -/
theorem Leaving.step (h : W.Leaving (s.thread i)) (hconf : W.Confined s) (hi : i < W.numThreads)
    (hle : s.fFullcount ≤ s.fIndex) (hstep : W.step s i = some s') :
    W.Leaving (s'.thread i) ∧ Frame s s' i := by
  have hframe : ∀ th, Frame s (s.setThread i th) i := fun th =>
    ⟨fun j hj => Function.update_of_ne hj _ _, rfl, rfl, rfl⟩
  have hmove : ∀ th : Thread, s' = s.setThread i th →
      (th.pc = .loadIndex ∨ th.pc = .loadCount ∨ th.pc = .switch →
        th.tasknum = workStealingIndex) →
      (∀ ops, th.pc = .code ops → W.CalmCode ops) → W.Leaving (s'.thread i) ∧ Frame s s' i := by
    intro th heq hth hcode
    subst heq
    rw [setThread_self]
    exact ⟨⟨hth, hcode⟩, hframe th⟩
  unfold Wss.step at hstep
  cases hpc : (s.thread i).pc with
  | idle =>
    simp only [hpc] at hstep
    split at hstep
    · cases hstep
      refine ⟨⟨?_, ?_⟩, ⟨fun j hj => Function.update_of_ne hj _ _, rfl, rfl, rfl⟩⟩
      · simp
      · simp
    · cases hstep
  | test =>
    simp only [hpc, not_lt.mpr hle, if_false, Option.some.injEq] at hstep
    exact hmove _ hstep.symm (by simp) (by simp)
  | loadIndex =>
    simp only [hpc, Option.some.injEq] at hstep
    exact hmove _ hstep.symm (fun _ => h.tasknum (.inl hpc)) (by simp)
  | loadCount =>
    simp only [hpc, Option.some.injEq] at hstep
    exact hmove _ hstep.symm (fun _ => h.tasknum (.inr (.inl hpc))) (by simp)
  | switch =>
    simp only [hpc, h.tasknum (.inr (.inr hpc)), caseBlock_workStealing,
      Option.some.injEq] at hstep
    refine hmove _ hstep.symm (by simp) fun ops hops => ?_
    cases hops
    exact calmCode_getNextTask
  | code ops =>
    cases ops with
    | nil =>
      simp only [hpc, Option.some.injEq] at hstep
      exact hmove _ hstep.symm (by simp) (by simp)
    | cons op rest =>
      simp only [hpc, Option.some.injEq] at hstep
      subst hstep
      obtain ⟨hframe', ⟨ops, hpc', hops⟩, -⟩ :=
        (h.code _ hpc).exec hpc (hconf.code i hi _ hpc _ List.mem_cons_self)
      refine ⟨⟨by simp [hpc'], fun ops' hops' => ?_⟩, hframe'⟩
      rw [hpc'] at hops'
      cases hops'
      exact hops

/-! ## The first steps of a call -/

lemma Calm.notifies {th : Thread} (h : W.Calm th) : W.threadNotifies th = [] := by
  cases hpc : th.pc with
  | code ops =>
    have hops := h.code ops hpc
    rw [threadNotifies_tail hpc hops.tail, hops.notifies]
  | _ => rw [threadNotifies, hpc]

lemma Calm.leaving {th : Thread} (h : W.Calm th) : W.Leaving th where
  tasknum hpc := by
    have htok := h.tokens
    by_contra hne
    have hheld : W.threadTokens th = held th.tasknum := by
      rcases hpc with hpc | hpc | hpc
      · rw [threadTokens, hpc]
      · rw [threadTokens, hpc]
      · rw [threadTokens, hpc]
    rw [hheld, held_of_ne hne] at htok
    cases htok
  code := h.code

lemma calm_idle {th : Thread} (h : th.pc = .idle) : W.Calm th where
  tokens := by rw [threadTokens, h]
  code ops hops := by
    rw [h] at hops
    cases hops

variable (W) in
/-- The signals at the end of the start. -/
def signals : List Op := (List.range (W.numThreads - 1)).map fun i => .signal (i + 1)

lemma mem_signals {op : Op} (h : op ∈ W.signals) : ∃ j, op = .signal j := by
  obtain ⟨j, -, rfl⟩ := List.mem_map.mp h
  exact ⟨j + 1, rfl⟩

lemma calmCode_signals : W.CalmCode W.signals := by
  have hquiet : W.signals.any Op.overwrites = false := by
    refine List.any_eq_false.mpr fun op hop => ?_
    obtain ⟨j, rfl⟩ := mem_signals hop
    exact Bool.false_ne_true
  refine ⟨⟨fun op hop => ?_, live_of_not_overwrites hquiet⟩, ?_, fun op hop => ?_⟩
  · obtain ⟨j, rfl⟩ := mem_signals hop
    trivial
  · refine List.flatMap_eq_nil_iff.mpr fun op hop => ?_
    obtain ⟨j, rfl⟩ := mem_signals hop
    rfl
  · obtain ⟨j, rfl⟩ := mem_signals hop
    rfl

/-- The steps at the end of the start. -/
lemma startOp_dispatch : ∀ op ∈ W.dispatch, W.StartOp op := by
  intro op hop
  rcases List.mem_append.mp hop with hop | hop
  · obtain ⟨qs, heq, hperm, hqueue⟩ := W.pushes_eq 0 .minusOne
    rw [heq] at hop
    obtain ⟨q, hq, rfl⟩ := List.mem_map.mp hop
    have hready := mem_readyLoop.mp (hperm.mem_iff.mp (List.mem_map_of_mem hq))
    exact .inr (.inl ⟨q.1, q.2, rfl, hqueue W.numThreads_pos q hq, hready.1⟩)
  · exact .inr (.inr (mem_signals hop))

/-- A state in which the indices of a call have been stored. -/
structure Opened (n : ℤ) (s : SchedulerState) : Prop where
  fFullcount : s.fFullcount = n
  fIndex : s.fIndex = 0
  code : (s.thread 0).pc = .code (W.initBlock 0 .minusOne ++ W.signals)
  tasknum : (s.thread 0).tasknum = workStealingIndex
  queue : ∀ q < W.fStaticNumThreads, s.taskQueue q = []
  other : ∀ j < W.numThreads, j ≠ 0 → W.Calm (s.thread j)
  log : s.log = []

namespace Opened

lemma opens : W.Opens (W.initBlock 0 .minusOne ++ W.signals) W.signals :=
  opens_initBlock W.numThreads_pos .minusOne calmCode_signals.tail

/-- The work begins. -/
lemma start (h : W.Opened n s) : (W.ledger s).Start W.G.dag := by
  have hopens := opens (W := W)
  have h0 : 0 ∈ range W.numThreads := mem_range.mpr W.numThreads_pos
  have hother := fun j (hj : j ∈ range W.numThreads) => h.other j (mem_range.mp hj)
  refine ⟨fun t ht => ?_, fun u => ?_, ?_⟩
  · show ∑ j ∈ range W.numThreads, (W.threadNotifies (s.thread j)).count t = _
    rw [sum_eq_single_of_mem 0 h0 fun j hj hj0 => by
        rw [(hother j hj hj0).notifies, List.count_nil],
      threadNotifies_init h.code hopens.init, hopens.count, nodup_readyLoop.count,
      calmCode_signals.notifies, List.count_nil]
    simp only [source_iff ht]
    rfl
  · show ∑ q ∈ range W.numThreads, (s.taskQueue q).count u +
      ∑ j ∈ range W.numThreads, (W.threadTokens (s.thread j)).count u = 0
    have hqueue : ∀ q ∈ range W.numThreads, (s.taskQueue q).count u = 0 := fun q hq => by
      rw [h.queue q ((mem_range.mp hq).trans_le W.numThreads_le), List.count_nil]
    rw [sum_eq_zero hqueue, sum_eq_single_of_mem 0 h0 fun j hj hj0 => by
        rw [(hother j hj hj0).tokens, List.count_nil],
      threadTokens_code h.code, h.tasknum, hopens.tokens, calmCode_signals.tokens]
    simp
  · refine Finset.eq_empty_of_forall_notMem fun u hu => ?_
    obtain ⟨p, -, -, hlog⟩ := mem_done_iff.mp hu
    rw [h.log] at hlog
    cases hlog

lemma running (h : W.Opened n s) (hn : 0 < n) : W.Running s where
  lt := by rwa [h.fIndex, h.fFullcount]
  code j hj ops hops := by
    by_cases h0 : j = 0
    · rw [h0, h.code] at hops
      cases hops
      exact .init opens.init
    · exact .tail ((h.other j hj h0).code ops hops).tail
  balanced := Ledger.Balanced.start h.start
  count t ht hlen := .inl ⟨0, W.numThreads_pos, _, h.code, opens.resets t ht hlen⟩
  locals j hj hne := absurd (threadTokens_eq_nil h.start.tokens hj) hne
  master := by simp [h.code]

lemma idling (h : W.Opened n s) (hn : n ≤ 0) : W.Idling s where
  le := by rwa [h.fIndex, h.fFullcount]
  master := by
    refine .inr (.inr ⟨_, h.code, fun op hop => ?_⟩)
    rw [initBlock_eq, List.append_assoc] at hop
    rcases List.mem_append.mp hop with hop | hop
    · exact .inl (initOp_of_mem hop)
    · exact startOp_dispatch op hop
  other j hj h0 := (h.other j hj h0).leaving
  log := h.log

lemma phase (h : W.Opened n s) (hint : IsInt32 n) : W.Phase n s := by
  by_cases hn : 0 < n
  · exact .block ⟨h.fFullcount, .start h.fIndex (h.fFullcount ▸ hint.2) h.log, .inl (h.running hn)⟩
      (.inl (h.running hn))
  · exact .idling (h.idling (not_lt.mp hn)) (not_lt.mp hn)

end Opened

/-- A step of the first two. -/
theorem Opening.step (h : W.Opening n s) (hint : IsInt32 n) (hconf : W.Confined s)
    (hi : i < W.numThreads) (hstep : W.step s i = some s') : W.Phase n s' := by
  by_cases h0 : i = 0
  · subst h0
    have hother : ∀ {th : Thread}, ∀ j < W.numThreads, j ≠ 0 →
        W.Calm (Function.update s.thread 0 th j) := by
      intro th j hj hj0
      rw [Function.update_of_ne hj0]
      exact h.other j hj hj0
    have htasknum : ∀ pc, ((s.goto 0 pc).thread 0).tasknum = workStealingIndex := by
      intro pc
      rw [goto_thread, Function.update_self]
      exact h.tasknum
    rcases h.code with hpc | ⟨hfull, hpc⟩
    · -- `fFullcount` is stored
      have hexec : W.step s 0 =
          some { s.goto 0 (.code (W.compute n).tail) with fFullcount := n } := by
        simp only [Wss.step, hpc]
        rfl
      rw [hexec, Option.some.injEq] at hstep
      subst hstep
      exact .opening ⟨.inr ⟨rfl, by simp⟩, htasknum _, h.queue, hother, h.log⟩
    · -- `fIndex` is stored
      have hexec : W.step s 0 =
          some { s.goto 0 (.code (W.initBlock 0 .minusOne ++ W.signals)) with fIndex := 0 } := by
        simp only [Wss.step, hpc]
        rfl
      rw [hexec, Option.some.injEq] at hstep
      subst hstep
      exact Opened.phase ⟨hfull, rfl, by simp, htasknum _, h.queue, hother, h.log⟩ hint
  · obtain ⟨hcalm, hframe, hqueue⟩ := (h.other i hi h0).step hconf hi h.queue hstep
    have hzero := hframe.thread 0 (Ne.symm h0)
    refine .opening ⟨?_, ?_, ?_, fun j hj hj0 => ?_, hframe.log.trans h.log⟩
    · rw [hzero, hframe.fFullcount]
      exact h.code
    · rw [hzero]
      exact h.tasknum
    · rw [hqueue]
      exact h.queue
    · by_cases hji : j = i
      · exact hji ▸ hcalm
      · rw [hframe.thread j hji]
        exact h.other j hj hj0

/-- A step of the initialisation of a block. -/
lemma StartOp.exec {op : Op} (h : W.StartOp op) (s : SchedulerState) (i : ℕ) (rest : List Op) :
    Frame s (W.execOp s i op rest) i ∧ ((W.execOp s i op rest).thread i).pc = .code rest := by
  have hother : ∀ {th : Thread}, ∀ j ≠ i, Function.update s.thread i th j = s.thread j :=
    fun j hj => Function.update_of_ne hj _ _
  rcases h with hinit | ⟨q, t, rfl, -⟩ | ⟨j, rfl⟩
  · cases op with
    | initTask t m => exact ⟨⟨hother, rfl, rfl, rfl⟩, by simp [execOp]⟩
    | initOne q => exact ⟨⟨hother, rfl, rfl, rfl⟩, by simp [execOp]⟩
    | _ => exact hinit.elim
  · exact ⟨⟨hother, rfl, rfl, rfl⟩, by simp [execOp]⟩
  · exact ⟨⟨hother, rfl, rfl, rfl⟩, by simp [execOp]⟩

/-- A step of a call on no samples. -/
theorem Idling.step (h : W.Idling s) (hconf : W.Confined s) (hi : i < W.numThreads)
    (hstep : W.step s i = some s') : W.Idling s' := by
  by_cases h0 : i = 0
  · subst h0
    have hnext : Frame s s' 0 → ((s'.thread 0).pc = .idle ∨ (s'.thread 0).pc = .test ∨
        ∃ ops, (s'.thread 0).pc = .code ops ∧ ∀ op ∈ ops, W.StartOp op) → W.Idling s' := by
      intro hframe hpc
      refine ⟨?_, hpc, fun j hj hj0 => ?_, hframe.log.trans h.log⟩
      · rw [hframe.fIndex, hframe.fFullcount]
        exact h.le
      · rw [hframe.thread j hj0]
        exact h.other j hj hj0
    have hother : ∀ {th : Thread}, ∀ j ≠ 0, Function.update s.thread 0 th j = s.thread j :=
      fun j hj => Function.update_of_ne hj _ _
    unfold Wss.step at hstep
    rcases h.master with hpc | hpc | ⟨ops, hpc, hops⟩
    · simp only [hpc] at hstep
      split at hstep
      · cases hstep
        exact hnext ⟨hother, rfl, rfl, rfl⟩ (.inr (.inl (by simp)))
      · cases hstep
    · simp only [hpc, not_lt.mpr h.le, if_false, Option.some.injEq] at hstep
      subst hstep
      exact hnext ⟨hother, rfl, rfl, rfl⟩ (.inl (by simp))
    · cases ops with
      | nil =>
        simp only [hpc, Option.some.injEq] at hstep
        subst hstep
        exact hnext ⟨hother, rfl, rfl, rfl⟩ (.inr (.inl (by simp)))
      | cons op rest =>
        simp only [hpc, Option.some.injEq] at hstep
        subst hstep
        obtain ⟨hframe, hpc'⟩ := (hops op List.mem_cons_self).exec s 0 rest
        exact hnext hframe (.inr (.inr ⟨rest, hpc', fun op' hop' =>
          hops op' (List.mem_cons_of_mem _ hop')⟩))
  · obtain ⟨hleaving, hframe⟩ := (h.other i hi h0).step hconf hi h.le hstep
    refine ⟨?_, ?_, fun j hj hj0 => ?_, hframe.log.trans h.log⟩
    · rw [hframe.fIndex, hframe.fFullcount]
      exact h.le
    · rw [hframe.thread 0 (Ne.symm h0)]
      exact h.master
    · by_cases hji : j = i
      · exact hji ▸ hleaving
      · rw [hframe.thread j hji]
        exact h.other j hj hj0

lemma Idling.run (h : W.Idling s) (hconf : W.Confined s) (hrun : W.Run s s') : W.Idling s' := by
  induction hrun with
  | refl => exact h
  | step i hi hrun hstep ih => exact ih.step (hconf.run hrun) hi hstep

/-! ## The invariant of a sequence of calls -/

lemma Started.phase (h : W.Started n s) (hint : IsInt32 n) : W.Phase n s := by
  by_cases hn : 0 < n
  · exact .block (h.computing hint) (.inl (h.running hn))
  · have hno := h.noBlock (not_lt.mp hn)
    refine .idling ⟨hno.le, .inr (.inr ⟨_, h.pc, startOp_dispatch⟩), fun j hj hj0 => ?_, h.log⟩
      (not_lt.mp hn)
    exact (calm_idle (h.idle j hj hj0).1).leaving

theorem InCall.step (h : W.InCall n s) (hi : i < W.numThreads) (hstep : W.step s i = some s') :
    W.InCall n s' := by
  refine ⟨h.int, h.endIndex_lt, h.confined.step hi hstep, ?_⟩
  have hconf := h.confined
  have hend := h.endIndex_lt
  cases h.phase with
  | starting hstart =>
    rcases hstart.step hi hstep with hstart | hstarted
    · exact .starting hstart
    · exact hstarted.phase h.int
  | opening hopen => exact hopen.step h.int hconf hi hstep
  | block hcomp hphase =>
    obtain ⟨hcomp', hphase'⟩ := (hcomp.step_block hconf hphase hi hstep).resolve_right
      fun hover => by omega
    exact .block hcomp' hphase'
  | idling hidle hn => exact .idling (hidle.step hconf hi hstep) hn

theorem InCall.run (h : W.InCall n s) (hrun : W.Run s s') : W.InCall n s' := by
  induction hrun with
  | refl => exact h
  | step i hi _ hstep ih => exact ih.step hi hstep

/-- A thread that does no harm looks for work. -/
lemma InCall.calm (h : W.InCall n s) (hreturned : (s.thread 0).pc = .idle) {j : ℕ}
    (hj : j < W.numThreads) (hj0 : j ≠ 0) (hharmless : W.Harmless s j) : W.Calm (s.thread j) := by
  refine ⟨hharmless.tokens, fun ops hops => ?_⟩
  have hcode := hharmless.code
  rw [hops] at hcode
  obtain ⟨hpop, hready, hmore⟩ := hcode
  cases h.phase with
  | starting hstart =>
    rw [(hstart.idle j hj hj0).1] at hops
    cases hops
  | opening hopen => exact (hopen.other j hj hj0).code ops hops
  | block hcomp hphase =>
    have hfin := hphase.resolve_left fun hrun => hrun.master hreturned
    rcases hfin.code j hj ops hops with ⟨htail, hnot⟩ | rfl
    · have htok := hharmless.tokens
      rw [threadTokens_code hops, List.append_eq_nil_iff] at htok
      exact ⟨htail, hnot, htail.usesQueue hnot htok.1 hpop hready⟩
    · exact absurd List.mem_cons_self hmore
  | idling hidle hn => exact (hidle.other j hj hj0).code ops hops

/-- A thread that takes part in a call, or waits. -/
lemma Confined.lt_or_waits (h : W.Confined s) {j : ℕ} (hj : j < W.fStaticNumThreads) :
    j < W.numThreads ∨ Waits s j := by
  by_cases hlt : j < W.numThreads
  · exact .inl hlt
  · exact .inr (h.waits j (not_lt.mp hlt) hj)

/-- Calm code uses no queue, so it is calm whatever their number. -/
lemma CalmCode.syncAll {ops : List Op} (h : W.CalmCode ops) (timing : Timing) :
    (W.syncAll timing).CalmCode ops where
  tail := by
    refine ⟨fun op hop => ?_, h.tail.live⟩
    have hop' := h.tail.op op hop
    cases op with
    | pushHead q t => cases h.usesQueue _ hop
    | _ => exact hop'
  notifies := h.notifies
  usesQueue := h.usesQueue

lemma Calm.syncAll {th : Thread} (h : W.Calm th) (timing : Timing) : (W.syncAll timing).Calm th where
  tokens := h.tokens
  code ops hops := (h.code ops hops).syncAll timing

section Call

variable {timing : Timing} {m : ℤ}
  (h : W.InCall n s) (hreturned : (s.thread 0).pc = .idle)
  (hother : ∀ j < W.fStaticNumThreads, j ≠ 0 → Waits s j ∨
    (W.syncAll timing).Harmless s j ∧ j < (W.syncAll timing).numThreads)

include h hreturned hother

/-- The other threads look for work when the next call begins. -/
lemma InCall.calm_of_other {j : ℕ} (hj : j < W.fStaticNumThreads) (hj0 : j ≠ 0) :
    W.Calm (s.thread j) := by
  rcases hother j hj hj0 with hwaits | ⟨hharmless, -⟩
  · exact calm_idle hwaits.1
  · rcases h.confined.lt_or_waits hj with hlt | hwaits
    · exact h.calm hreturned hlt hj0 ⟨hharmless.tokens, hharmless.queue, hharmless.code⟩
    · exact calm_idle hwaits.1

/-- The threads keep to the next call. -/
lemma InCall.confined_call :
    (W.syncAll timing).Confined ((W.syncAll timing).call { s with log := [] } m) := by
  set W' := W.syncAll timing with hW
  set s' := W'.call { s with log := [] } m with hs'
  have hthread : ∀ j ≠ 0, s'.thread j = s.thread j := fun j hj => Function.update_of_ne hj _ _
  refine ⟨fun j hj hlt => ?_, fun j hj ops hops op hop => ?_⟩
  · have hj0 : j ≠ 0 := fun h0 => by
      have := W'.numThreads_pos
      omega
    unfold Waits
    rw [hthread j hj0]
    exact (hother j hlt hj0).resolve_right fun hharmless => by omega
  · by_cases hj0 : j = 0
    · subst hj0
      rw [hs', call_self] at hops
      cases hops
      exact confinedOp_compute hop
    · -- a late thread looks for work in queues that are empty
      rw [hthread j hj0] at hops
      have hstatic : j < W.fStaticNumThreads := hj.trans_le W'.numThreads_le
      have hnot : ¬ Waits s j := fun hwaits => by
        rw [hwaits.1] at hops
        cases hops
      have hlt := (h.confined.lt_or_waits hstatic).resolve_right hnot
      have hqueue := ((hother j hstatic hj0).resolve_left hnot).1.queue
      have hcalm := h.calm_of_other hreturned hother hstatic hj0
      have hconf := h.confined.code j hlt ops hops op hop
      cases op with
      | pushHead q t => cases (hcalm.code ops hops).usesQueue _ hop
      | signal k => exact absurd hconf.1 hj0
      | getNextTask q k => exact ⟨hconf.1, fun r _ hr => hqueue r (hr.trans_le hconf.1)⟩
      | _ => trivial

/-- The master thread calls `compute` again. -/
theorem InCall.call (hm : IsInt32 m) (hend : (W.syncAll timing).endIndex m < 2 ^ 31) :
    (W.syncAll timing).InCall m ((W.syncAll timing).call { s with log := [] } m) := by
  refine ⟨hm, hend, h.confined_call hreturned hother, ?_⟩
  set W' := W.syncAll timing with hW
  set s' := W'.call { s with log := [] } m with hs'
  have hself : s'.thread 0 =
      { s.thread 0 with pc := .code (W'.compute m), tasknum := workStealingIndex } :=
    call_self { s with log := [] } m
  have hthread : ∀ j ≠ 0, s'.thread j = s.thread j := fun j hj => Function.update_of_ne hj _ _
  have hstatic : ∀ j < W'.numThreads, j < W.fStaticNumThreads := fun j hj =>
    hj.trans_le W'.numThreads_le
  by_cases hwait : ∀ j < W'.numThreads, j ≠ 0 → Waits s j
  · refine .starting ⟨⟨fun j hj hj0 => ?_, by rw [hself], rfl⟩, [], .storeFullcount m,
      .storeIndex :: W'.initOps, rfl, ?_, by simp⟩
    · rw [hthread j hj0]
      exact hwait j hj hj0
    · rw [hself, compute_eq]
      rfl
  · push Not at hwait
    obtain ⟨k, hk, hk0, hnot⟩ := hwait
    have hqueue := ((hother k (hstatic k hk) hk0).resolve_left hnot).1.queue
    refine .opening ⟨.inl (by rw [hself]), by rw [hself], hqueue, fun j hj hj0 => ?_, rfl⟩
    rw [hthread j hj0]
    exact (h.calm_of_other hreturned hother (hstatic j hj) hj0).syncAll timing

end Call

/-- Nothing is run twice in a call. -/
lemma InCall.nodup (h : W.InCall n s) : s.log.Nodup := by
  cases h.phase with
  | starting h =>
    rw [h.log]
    exact List.nodup_nil
  | opening h =>
    rw [h.log]
    exact List.nodup_nil
  | block h _ => exact nodup_of_justified h.log.justified
  | idling h _ =>
    rw [h.log]
    exact List.nodup_nil

/-- When the master thread returns, all blocks have been computed. -/
lemma InCall.complete (h : W.InCall n s) (hidle : (s.thread 0).pc = .idle) {k : ℕ}
    (hk : W.blockIndex k < n) : ∀ e ∈ W.blockEvents n k, e ∈ s.log := by
  cases h.phase with
  | starting h =>
    obtain ⟨pre, op, rest, -, hpc, -⟩ := h.code
    rw [hidle] at hpc
    cases hpc
  | opening h =>
    rcases h.code with hpc | ⟨-, hpc⟩
    · rw [hidle] at hpc
      cases hpc
    · rw [hidle] at hpc
      cases hpc
  | block h _ =>
    intro e he
    have := h.complete hidle hk e he
    exact List.count_pos_iff.mp (by omega)
  | idling h hn =>
    have hpos : 0 ≤ W.blockIndex k := mul_nonneg (Nat.cast_nonneg k) W.vecSize_pos.le
    omega

/-- The master thread can return from a call on no samples. -/
lemma Idling.return (h : W.Idling s) (hconf : W.Confined s) : ∃ s', W.Run s s' ∧ (s'.thread 0).pc = .idle := by
  have h0 := W.numThreads_pos
  rcases h.master with hpc | hpc | ⟨ops, hpc, -⟩
  · exact ⟨s, .refl, hpc⟩
  · exact return_of_test hpc h.le
  · obtain ⟨s₁, hrun, htest, -⟩ := run_code h0 hpc
    obtain ⟨s₂, hrun', hidle⟩ := return_of_test (W := W) htest (h.run hconf hrun).le
    exact ⟨s₂, hrun.trans hrun', hidle⟩

/-- From every state of a call the master thread can return. -/
lemma InCall.return (h : W.InCall n s) : ∃ s', W.Run s s' ∧ (s'.thread 0).pc = .idle := by
  have hcode : ∀ {ops : List Op}, (s.thread 0).pc = .code ops →
      ∃ s', W.Run s s' ∧ (s'.thread 0).pc = .idle := by
    intro ops hpc
    obtain ⟨s₁, hrun, htest, -⟩ := run_code W.numThreads_pos hpc
    have hreturn : ∃ s', W.Run s₁ s' ∧ (s'.thread 0).pc = .idle := by
      have hcall := h.run hrun
      cases hcall.phase with
      | starting h =>
        obtain ⟨pre, op, rest, -, hpc', -⟩ := h.code
        rw [htest] at hpc'
        cases hpc'
      | opening h =>
        rcases h.code with hpc' | ⟨-, hpc'⟩
        · rw [htest] at hpc'
          cases hpc'
        · rw [htest] at hpc'
          cases hpc'
      | block h _ => exact h.return hcall.confined hcall.endIndex_lt
      | idling h _ => exact h.return hcall.confined
    obtain ⟨s₂, hrun', hidle⟩ := hreturn
    exact ⟨s₂, hrun.trans hrun', hidle⟩
  cases h.phase with
  | starting h =>
    obtain ⟨pre, op, rest, -, hpc, -⟩ := h.code
    exact hcode hpc
  | opening h =>
    rcases h.code with hpc | ⟨-, hpc⟩
    · exact hcode hpc
    · exact hcode hpc
  | block hcomp _ => exact hcomp.return h.confined h.endIndex_lt
  | idling hidle _ => exact hidle.return h.confined

end Wss

end Faust
