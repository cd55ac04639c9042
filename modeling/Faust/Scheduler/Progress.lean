import Faust.Scheduler.Execution

/-!
# The end of a call

No state of a call is stuck: the threads can be run, one after the other, until `compute`
returns. When no thread is in a block of code a ready task is in a queue or in the variable of
a thread, and running that thread adds an event to the log; there are finitely many events.
-/

namespace Faust.Wss

open LoopGraph

variable {W : Wss} {s s' : SchedulerState} {i : ℕ}

/-! ## Runs -/

/-- How many steps an operation can take. -/
def weight (W : Wss) : Op → ℕ
  | .getNextTask j m => m - j + 1
  | .getReadyTask | .activateOneOutputTask _ | .activateOutputTask1 _
  | .activateOutputTask2 _ => 2
  | .ifMore => W.initOps.length + W.G.readyLoop.length + 1
  | _ => 1

/-- How many steps the code can take. -/
def weights (W : Wss) (ops : List Op) : ℕ := (ops.map W.weight).sum

@[simp] lemma weights_cons (op : Op) (ops : List Op) :
    W.weights (op :: ops) = W.weight op + W.weights ops := rfl

lemma weights_initBlock (i : ℕ) (rest : List Op) :
    W.weights (W.initBlock i .numThread ++ rest) =
      W.initOps.length + W.G.readyLoop.length + W.weights rest := by
  have hinit : ∀ ops : List Op, (∀ op ∈ ops, W.InitOp op) → W.weights ops = ops.length := by
    intro ops hops
    induction ops with
    | nil => rfl
    | cons op ops ih =>
      have hop : W.weight op = 1 := by
        have := hops op List.mem_cons_self
        cases op with
        | initTask t m => rfl
        | initOne q => rfl
        | _ => exact this.elim
      rw [weights_cons, hop, ih fun op' hop' => hops op' (List.mem_cons_of_mem _ hop'),
        List.length_cons]
      omega
  have hpush : ∀ ts : List ℕ, W.weights (ts.map (.pushHead i)) = ts.length := by
    intro ts
    induction ts with
    | nil => rfl
    | cons t ts ih =>
      have hop : W.weight (.pushHead i t) = 1 := rfl
      rw [List.map_cons, weights_cons, ih, List.length_cons, hop]
      omega
  have happend : ∀ ops ops' : List Op, W.weights (ops ++ ops') = W.weights ops + W.weights ops' :=
    fun ops ops' => by rw [weights, List.map_append, List.sum_append]; rfl
  rw [initBlock_eq, happend, happend, hinit _ fun op => initOp_of_mem, pushes, hpush]

/-- A step of code leaves less code. -/
lemma weights_execOp (s : SchedulerState) (i : ℕ) (op : Op) (rest : List Op) :
    ∃ ops, ((W.execOp s i op rest).thread i).pc = .code ops ∧
      W.weights ops < W.weights (op :: rest) := by
  cases op with
  | getNextTask j m =>
    simp only [execOp, weights_cons, weight]
    split
    · exact ⟨rest, by simp, by omega⟩
    · split
      · exact ⟨.getNextTask (j + 1) m :: rest, by simp, by rw [weights_cons, weight]; omega⟩
      · exact ⟨rest, by simp, by omega⟩
  | ifMore =>
    simp only [execOp, weights_cons, weight]
    split
    · exact ⟨_, by simp; rfl, by rw [weights_initBlock]; omega⟩
    · exact ⟨rest, by simp, by omega⟩
  | activateOutputTask1 t =>
    simp only [execOp, weights_cons, weight]
    split
    · split
      · exact ⟨rest, by simp, by omega⟩
      · exact ⟨.pushHead i t :: rest, by simp, by simp [weight]⟩
    · exact ⟨rest, by simp, by omega⟩
  | activateOutputTask2 t =>
    simp only [execOp, weights_cons, weight]
    split
    · exact ⟨.pushHead i t :: rest, by simp, by simp [weight]⟩
    · exact ⟨rest, by simp, by omega⟩
  | activateOneOutputTask t =>
    simp only [execOp, weights_cons, weight]
    split
    · exact ⟨rest, by simp, by omega⟩
    · exact ⟨.popHead :: rest, by simp, by simp [weight]⟩
  | getReadyTask =>
    simp only [execOp, weights_cons, weight]
    split
    · exact ⟨.popHead :: rest, by simp, by simp [weight]⟩
    · exact ⟨rest, by simp, by omega⟩
  | popHead =>
    simp only [execOp, weights_cons, weight]
    split <;> exact ⟨rest, by simp, by omega⟩
  | _ => exact ⟨rest, by simp [execOp], by simp [weight]⟩

/-- A thread alone gets through its code. -/
lemma run_code (hi : i < W.numThreads) {ops : List Op} (hpc : (s.thread i).pc = .code ops) :
    ∃ s', W.Run s s' ∧ (s'.thread i).pc = .test ∧ ∀ j ≠ i, s'.thread j = s.thread j := by
  induction hw : W.weights ops using Nat.strong_induction_on generalizing s ops with
  | _ w ih =>
    cases ops with
    | nil =>
      have hstep : W.step s i = some (s.goto i .test) := by simp only [step, hpc]
      exact ⟨_, .single hi hstep, by simp, (step_frame hstep).1⟩
    | cons op rest =>
      have hstep : W.step s i = some (W.execOp s i op rest) := by simp only [step, hpc]
      obtain ⟨ops', hpc', hlt⟩ := W.weights_execOp s i op rest
      obtain ⟨s', hrun, htest, hother⟩ := ih _ (hw ▸ hlt) hpc' rfl
      refine ⟨s', (Run.single hi hstep).trans hrun, htest, fun j hj => ?_⟩
      rw [hother j hj, (step_frame hstep).1 j hj]

/-- The threads, one after the other, get through their code. -/
lemma run_codes (s : SchedulerState) : ∀ k ≤ W.numThreads, ∃ s', W.Run s s' ∧
    ∀ j < k, ∀ ops, (s'.thread j).pc ≠ .code ops := by
  intro k
  induction k with
  | zero => exact fun _ => ⟨s, .refl, by simp⟩
  | succ k ih =>
    intro hk
    obtain ⟨s₁, hrun, hpcs⟩ := ih (by omega)
    by_cases hcode : ∃ ops, (s₁.thread k).pc = .code ops
    · obtain ⟨ops, hpc⟩ := hcode
      obtain ⟨s₂, hrun', htest, hother⟩ := run_code hk hpc
      refine ⟨s₂, hrun.trans hrun', fun j hj => ?_⟩
      by_cases hjk : j = k
      · rw [hjk, htest]
        simp
      · rw [hother j hjk]
        exact hpcs j (by omega)
    · refine ⟨s₁, hrun, fun j hj => ?_⟩
      by_cases hjk : j = k
      · exact fun ops hpc => hcode ⟨ops, hjk ▸ hpc⟩
      · exact hpcs j (by omega)

/-! ## From one event to the next -/

/-- What happens in a block: either nothing has been run yet, or something at its index. -/
theorem Running.run (h : W.Running s) (hconf : W.Confined s) (hrun : W.Run s s') :
    W.Running s' ∧ s'.fIndex = s.fIndex ∧ s'.log = s.log ∨
      s.log.length < s'.log.length ∧ ∃ e ∈ s'.log, e.index = s.fIndex := by
  induction hrun with
  | refl => exact .inl ⟨h, rfl, rfl⟩
  | @step s₁ s₂ i hi hrun hstep ih =>
    rcases ih with ⟨hrunning, hindex, hlog⟩ | ⟨hlt, e, he, heq⟩
    · -- the first event
      have hevent : ∀ e, s₂.log = s₁.log ++ [e] → e.index = s₁.fIndex →
          s.log.length < s₂.log.length ∧ ∃ e ∈ s₂.log, e.index = s.fIndex := by
        intro e hlog' he
        rw [hlog', ← hlog, ← hindex]
        exact ⟨by simp, e, by simp, he⟩
      cases hrunning.step (hconf.run hrun) hi hstep with
      | silent hrunning' hframe =>
        exact .inl ⟨hrunning', hframe.fIndex.trans hindex, hframe.log.trans hlog⟩
      | loop p rest hpc hp hann heq =>
        refine .inr (hevent _ (by rw [heq]; rfl) ?_)
        exact (hrunning.holds_loop hi hpc).2.1
      | last hpc heq => exact .inr (hevent (.last s₁.fIndex) (by rw [heq]; rfl) rfl)
    · have hle := (step_frame hstep).2
      exact .inr ⟨hlt.trans_le hle.length_le, e, hle.subset he, heq⟩

/-- As long as nothing is run, the block goes on. -/
lemma Running.of_run (h : W.Running s) (hconf : W.Confined s) (hrun : W.Run s s')
    (hlog : s'.log = s.log) : W.Running s' := by
  rcases h.run hconf hrun with ⟨hrunning, -⟩ | ⟨hlt, -⟩
  · exact hrunning
  · rw [hlog] at hlt
    exact absurd hlt (lt_irrefl _)

/-- What a thread does between two blocks of code. -/
structure Between (s s' : SchedulerState) (i : ℕ) : Prop extends Frame s s' i where
  taskQueue : s'.taskQueue = s.taskQueue
  tasknum : (s'.thread i).tasknum = (s.thread i).tasknum

lemma Between.trans {s'' : SchedulerState} (h : Between s s' i) (h' : Between s' s'' i) :
    Between s s'' i where
  thread j hj := (h'.thread j hj).trans (h.thread j hj)
  fIndex := h'.fIndex.trans h.fIndex
  fFullcount := h'.fFullcount.trans h.fFullcount
  log := h'.log.trans h.log
  taskQueue := h'.taskQueue.trans h.taskQueue
  tasknum := h'.tasknum.trans h.tasknum

lemma between_setThread (th : Thread) (hth : th.tasknum = (s.thread i).tasknum) :
    Between s (s.setThread i th) i :=
  ⟨⟨fun j hj => Function.update_of_ne hj _ _, rfl, rfl, rfl⟩, rfl, by rw [setThread_self, hth]⟩

/-- A thread in the loop gets to the `switch`. -/
lemma run_switch (hi : i < W.numThreads)
    (hpc : (s.thread i).pc = .test ∧ s.fIndex < s.fFullcount ∨ (s.thread i).pc = .loadIndex ∨
      (s.thread i).pc = .loadCount ∨ (s.thread i).pc = .switch) :
    ∃ s', W.Run s s' ∧ (s'.thread i).pc = .switch ∧ Between s s' i := by
  have hcount : ∀ {s : SchedulerState}, (s.thread i).pc = .loadCount →
      ∃ s', W.Run s s' ∧ (s'.thread i).pc = .switch ∧ Between s s' i := by
    intro s hpc
    have hstep : W.step s i = some (s.setThread i { s.thread i with
        pc := .switch, count := min W.vecSize (wrap32 (s.fFullcount - s.fIndex)) }) := by
      simp only [step, hpc]
    exact ⟨_, .single hi hstep, by simp [SchedulerState.setThread], between_setThread _ rfl⟩
  have hindex : ∀ {s : SchedulerState}, (s.thread i).pc = .loadIndex →
      ∃ s', W.Run s s' ∧ (s'.thread i).pc = .switch ∧ Between s s' i := by
    intro s hpc
    have hstep : W.step s i = some (s.setThread i { s.thread i with
        pc := .loadCount, index := s.fIndex }) := by
      simp only [step, hpc]
    obtain ⟨s', hrun, hpc', hbetween⟩ := hcount (s := s.setThread i { s.thread i with
      pc := .loadCount, index := s.fIndex }) (by simp [SchedulerState.setThread])
    have hfirst : Between s (s.setThread i { s.thread i with
      pc := .loadCount, index := s.fIndex }) i := between_setThread _ rfl
    exact ⟨s', (Run.single hi hstep).trans hrun, hpc', hfirst.trans hbetween⟩
  rcases hpc with ⟨hpc, hlt⟩ | hpc | hpc | hpc
  · have hstep : W.step s i = some (s.goto i .loadIndex) := by simp only [step, hpc, hlt, if_true]
    obtain ⟨s', hrun, hpc', hbetween⟩ := hindex (s := s.goto i .loadIndex) (by simp)
    have hfirst : Between s (s.goto i .loadIndex) i := between_setThread _ rfl
    exact ⟨s', (Run.single hi hstep).trans hrun, hpc', hfirst.trans hbetween⟩
  · exact hindex hpc
  · exact hcount hpc
  · exact ⟨s, .refl, hpc, ⟨⟨fun _ _ => rfl, rfl, rfl, rfl⟩, rfl, rfl⟩⟩

/-- A thread with a task runs it. -/
lemma run_task (hi : i < W.numThreads) (hpc : (s.thread i).pc = .switch)
    (ht : W.G.dag.IsTask (s.thread i).tasknum) :
    ∃ s', W.Run s s' ∧ s.log.length < s'.log.length := by
  have hrun : ∀ op rest, W.G.caseBlock (s.thread i).tasknum = some (op :: rest) →
      ∀ op' rest', W.expands i (op :: rest) = op' :: rest' →
      W.Run s (W.execOp (s.goto i (.code (op' :: rest'))) i op' rest') := by
    intro op rest hblock op' rest' heq
    have hstep : W.step s i = some (s.goto i (.code (op' :: rest'))) := by
      simp only [step, hpc, hblock, heq]
    have hstep' : W.step (s.goto i (.code (op' :: rest'))) i =
        some (W.execOp (s.goto i (.code (op' :: rest'))) i op' rest') := by
      simp [step]
    exact (Run.single hi hstep).trans (.single hi hstep')
  rcases isTask_iff.mp ht with ⟨p, hp, htask⟩ | hlast
  · refine ⟨_, hrun _ _ (htask ▸ caseBlock_index hp) (.loop p) _ rfl, ?_⟩
    show s.log.length < (s.log ++ [_]).length
    simp
  · refine ⟨_, hrun .addIndex _ (hlast ▸ caseBlock_lastTask) .addIndex _ rfl, ?_⟩
    show s.log.length < (s.log ++ [_]).length
    simp

/-- A thread that looks for work finds it. -/
lemma run_getNextTask (hi : i < W.numThreads) {q : ℕ} (hq : q < W.numThreads)
    (hne : s.taskQueue q ≠ []) {j : ℕ} (hj : j ≤ q)
    (hpc : (s.thread i).pc = .code [.getNextTask j W.numThreads]) :
    ∃ s', W.Run s s' ∧ (s'.thread i).pc = .test ∧ Frame s s' i ∧
      ∃ r < W.numThreads, (s'.thread i).tasknum ∈ s.taskQueue r := by
  induction hk : q - j using Nat.strong_induction_on generalizing s j with
  | _ k ih =>
    have hj' : j < W.numThreads := by omega
    cases hlast : (s.taskQueue j).getLast? with
    | some t =>
      set s₁ := (s.setQueue j (s.taskQueue j).dropLast).gotoWith i t (.code []) with hs₁
      have hstep : W.step s i = some s₁ := by simp only [step, hpc, execOp, hlast, hs₁]
      have hpc₁ : (s₁.thread i).pc = .code [] := by simp [hs₁]
      have hstep' : W.step s₁ i = some (s₁.goto i .test) := by simp only [step, hpc₁]
      refine ⟨_, (Run.single hi hstep).trans (.single hi hstep'), by simp,
        ⟨fun r hr => ?_, rfl, rfl, rfl⟩, j, hj', ?_⟩
      · rw [(step_frame hstep').1 r hr, (step_frame hstep).1 r hr]
      · simpa [hs₁] using List.mem_of_getLast? hlast
    | none =>
      -- nothing in this queue
      have hempty : s.taskQueue j = [] := List.getLast?_eq_none_iff.mp hlast
      have hjq : j ≠ q := fun heq => hne (heq ▸ hempty)
      have hnext : j + 1 < W.numThreads := by omega
      set s₁ := s.goto i (.code [.getNextTask (j + 1) W.numThreads]) with hs₁
      have hstep : W.step s i = some s₁ := by
        simp only [step, hpc, execOp, hlast, hnext, if_true, hs₁]
      have hpc₁ : (s₁.thread i).pc = .code [.getNextTask (j + 1) W.numThreads] := by simp [hs₁]
      obtain ⟨s', hrun, htest, hframe, hfound⟩ :=
        ih (q - (j + 1)) (by omega) (s := s₁) hne (by omega) hpc₁ rfl
      refine ⟨s', (Run.single hi hstep).trans hrun, htest, ⟨fun r hr => ?_, hframe.fIndex,
        hframe.fFullcount, hframe.log⟩, hfound⟩
      rw [hframe.thread r hr, (step_frame hstep).1 r hr]

/-- As long as there is a block to compute, something can be run. -/
theorem Running.next_event (h : W.Running s) (hconf : W.Confined s)
    (hpcs : ∀ j < W.numThreads, ∀ ops, (s.thread j).pc ≠ .code ops) :
    ∃ s', W.Run s s' ∧ s.log.length < s'.log.length := by
  have hidle : ∀ j, (s.thread j).pc ≠ .idle → j < W.numThreads →
      ∃ s', W.Run s s' ∧ (s'.thread j).pc = .switch ∧ Between s s' j := by
    intro j hj hjn
    refine run_switch hjn ?_
    cases hpc : (s.thread j).pc with
    | idle => exact absurd hpc hj
    | test => exact .inl ⟨rfl, h.lt⟩
    | loadIndex => exact .inr (.inl rfl)
    | loadCount => exact .inr (.inr (.inl rfl))
    | switch => exact .inr (.inr (.inr rfl))
    | code ops => exact absurd hpc (hpcs j hjn ops)
  -- a thread that holds a task runs it
  have htask : ∀ {s : SchedulerState} {j : ℕ}, W.Running s → j < W.numThreads →
      (s.thread j).tasknum ≠ workStealingIndex → (s.thread j).pc = .switch →
      ∃ s', W.Run s s' ∧ s.log.length < s'.log.length := by
    intro s j hrunning hj hne hpc
    refine run_task hj hpc (hrunning.isTask_of_mem_tokens hj ?_)
    rw [threadTokens, hpc, held_of_ne hne]
    exact List.mem_singleton_self _
  by_cases hholds : ∃ j < W.numThreads, (s.thread j).pc ≠ .idle ∧
      (s.thread j).tasknum ≠ workStealingIndex
  · obtain ⟨j, hj, hpc, hne⟩ := hholds
    obtain ⟨s₁, hrun, hswitch, hbetween⟩ := hidle j hpc hj
    have hrunning := h.of_run hconf hrun hbetween.log
    obtain ⟨s₂, hrun', hlog⟩ := htask hrunning hj (hbetween.tasknum ▸ hne) hswitch
    exact ⟨s₂, hrun.trans hrun', hbetween.log ▸ hlog⟩
  · -- the task is in a queue
    push Not at hholds
    have hempty : ∀ j < W.numThreads, W.threadTokens (s.thread j) = [] := by
      intro j hj
      cases hpc : (s.thread j).pc with
      | code ops => exact absurd hpc (hpcs j hj ops)
      | idle => rw [threadTokens, hpc]
      | _ =>
        have := hholds j hj (by simp [hpc])
        rw [threadTokens, hpc]
        simp only [this, held_workStealing]
    have hquiet : ∀ j < W.numThreads, W.threadNotifies (s.thread j) = [] := by
      intro j hj
      cases hpc : (s.thread j).pc with
      | code ops => exact absurd hpc (hpcs j hj ops)
      | _ => rw [threadNotifies, hpc]
    obtain ⟨t, ht⟩ := h.balanced.exists_token fun t _ => by
      show ∑ j ∈ Finset.range W.numThreads, (W.threadNotifies (s.thread j)).count t = 0
      exact Finset.sum_eq_zero fun j hj => by
        rw [hquiet j (Finset.mem_range.mp hj), List.count_nil]
    have hthreads : ∑ j ∈ Finset.range W.numThreads, (W.threadTokens (s.thread j)).count t = 0 :=
      Finset.sum_eq_zero fun j hj => by rw [hempty j (Finset.mem_range.mp hj), List.count_nil]
    obtain ⟨q, hq, hmem⟩ : ∃ q < W.numThreads, t ∈ s.taskQueue q := by
      by_contra hno
      push Not at hno
      have hqueues : ∑ q ∈ Finset.range W.numThreads, (s.taskQueue q).count t = 0 :=
        Finset.sum_eq_zero fun q hq =>
          List.count_eq_zero.mpr (hno q (Finset.mem_range.mp hq))
      have htokens : (W.ledger s).tokens t =
        ∑ q ∈ Finset.range W.numThreads, (s.taskQueue q).count t +
        ∑ j ∈ Finset.range W.numThreads, (W.threadTokens (s.thread j)).count t := rfl
      omega
    -- the master thread looks for it
    have h0 := W.numThreads_pos
    obtain ⟨s₁, hrun, hswitch, hbetween⟩ := hidle 0 h.master h0
    have hw : (s₁.thread 0).tasknum = workStealingIndex := by
      rw [hbetween.tasknum]
      exact hholds 0 h0 h.master
    have hstep : W.step s₁ 0 = some (s₁.goto 0 (.code [.getNextTask 0 W.numThreads])) := by
      simp only [Wss.step, hswitch, hw, caseBlock_workStealing]
      rfl
    obtain ⟨s₂, hrun', htest, hframe, r, hr, hfound⟩ :=
      run_getNextTask (s := s₁.goto 0 (.code [.getNextTask 0 W.numThreads])) h0 hq
        (by
          show s₁.taskQueue q ≠ []
          rw [hbetween.taskQueue]
          exact List.ne_nil_of_mem hmem)
        (Nat.zero_le q) (by simp)
    have hall := (hrun.trans (.single h0 hstep)).trans hrun'
    have hlt : s₂.fIndex < s₂.fFullcount := by
      rw [hframe.fIndex, hframe.fFullcount]
      show s₁.fIndex < s₁.fFullcount
      rw [hbetween.fIndex, hbetween.fFullcount]
      exact h.lt
    have hne : (s₂.thread 0).tasknum ≠ workStealingIndex := by
      intro heq
      have hfound' : (s₂.thread 0).tasknum ∈ s₁.taskQueue r := hfound
      rw [hbetween.taskQueue, heq] at hfound'
      exact not_isTask_workStealing (h.isTask_of_mem_queue hr hfound')
    obtain ⟨s₃, hrun₃, hswitch₃, hbetween₃⟩ := run_switch h0 (.inl ⟨htest, hlt⟩)
    have hsame : s₃.log = s.log := by
      rw [hbetween₃.log, hframe.log]
      exact hbetween.log
    have hrunning := h.of_run hconf (hall.trans hrun₃) hsame
    obtain ⟨s₄, hrun₄, hlog⟩ := htask hrunning h0 (hbetween₃.tasknum ▸ hne) hswitch₃
    refine ⟨s₄, (hall.trans hrun₃).trans hrun₄, ?_⟩
    rwa [hsame] at hlog

/-- As long as there is a block to compute, something at its index can be run. -/
theorem Running.event (h : W.Running s) (hconf : W.Confined s) :
    ∃ s', W.Run s s' ∧ s.log.length < s'.log.length ∧ ∃ e ∈ s'.log, e.index = s.fIndex := by
  obtain ⟨s₁, hrun, hpcs⟩ := run_codes (W := W) s W.numThreads le_rfl
  have hall : ∃ s', W.Run s s' ∧ s.log.length < s'.log.length := by
    rcases h.run hconf hrun with ⟨hrunning, -, hlog⟩ | ⟨hlt, -⟩
    · obtain ⟨s₂, hrun', hlt⟩ := hrunning.next_event (hconf.run hrun) hpcs
      exact ⟨s₂, hrun.trans hrun', by rwa [hlog] at hlt⟩
    · exact ⟨s₁, hrun, hlt⟩
  obtain ⟨s', hrun', hlt⟩ := hall
  rcases h.run hconf hrun' with ⟨-, -, hlog⟩ | hevent
  · rw [hlog] at hlt
    exact absurd hlt (lt_irrefl _)
  · exact ⟨s', hrun', hevent⟩

end Faust.Wss
