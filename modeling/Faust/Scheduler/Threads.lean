import Faust.Scheduler.Scheduler

/-!
# Steps and threads

A step changes one thread, and only adds to the log. In a call the threads and queues from
`fDynamicNumThreads` on take no part: they are not signaled, and nothing is pushed on them.
-/

namespace Faust.Wss

variable {W : Wss} {s s' : SchedulerState} {i : ℕ}

/-! ## Runs -/

lemma Run.trans {s'' : SchedulerState} (h : W.Run s s') (h' : W.Run s' s'') : W.Run s s'' := by
  induction h' with
  | refl => exact h
  | step i hi _ hstep ih => exact .step i hi ih hstep

lemma Run.single (hi : i < W.numThreads) (hstep : W.step s i = some s') : W.Run s s' :=
  .step i hi .refl hstep

@[simp] lemma goto_thread (s : SchedulerState) (i : ℕ) (pc : Pc) :
    (s.goto i pc).thread = Function.update s.thread i { s.thread i with pc := pc } := rfl

@[simp] lemma gotoWith_thread (s : SchedulerState) (i t : ℕ) (pc : Pc) :
    (s.gotoWith i t pc).thread =
      Function.update s.thread i { s.thread i with pc := pc, tasknum := t } := rfl

lemma setThread_self (s : SchedulerState) (i : ℕ) (th : Thread) :
    (s.setThread i th).thread i = th := by
  simp [SchedulerState.setThread]

@[simp] lemma setTask_thread (s : SchedulerState) (t : ℕ) (m : ℤ) :
    (s.setTask t m).thread = s.thread := rfl

@[simp] lemma setQueue_thread (s : SchedulerState) (q : ℕ) (l : List ℕ) :
    (s.setQueue q l).thread = s.thread := rfl

@[simp] lemma setSemaphore_thread (s : SchedulerState) (j m : ℕ) :
    (s.setSemaphore j m).thread = s.thread := rfl

@[simp] lemma record_thread (s : SchedulerState) (e : Event) : (s.record e).thread = s.thread :=
  rfl

lemma execOp_frame (s : SchedulerState) (i : ℕ) (op : Op) (rest : List Op) :
    (∀ j ≠ i, (W.execOp s i op rest).thread j = s.thread j) ∧
      s.log <+: (W.execOp s i op rest).log := by
  have hother : ∀ {th : Thread}, ∀ j ≠ i, Function.update s.thread i th j = s.thread j :=
    fun j hj => Function.update_of_ne hj _ _
  cases op with
  | loop p => exact ⟨hother, List.prefix_append _ _⟩
  | addIndex => exact ⟨hother, List.prefix_append _ _⟩
  | _ =>
    simp only [execOp]
    repeat' split
    all_goals exact ⟨hother, List.prefix_refl _⟩

/-- A step changes one thread, and only adds to the log. -/
lemma step_frame (hstep : W.step s i = some s') :
    (∀ j ≠ i, s'.thread j = s.thread j) ∧ s.log <+: s'.log := by
  have hother : ∀ {th : Thread}, ∀ j ≠ i, Function.update s.thread i th j = s.thread j :=
    fun j hj => Function.update_of_ne hj _ _
  unfold step at hstep
  cases hpc : (s.thread i).pc with
  | code ops =>
    simp only [hpc] at hstep
    cases ops with
    | nil =>
      cases hstep
      exact ⟨hother, List.prefix_refl _⟩
    | cons op rest =>
      cases hstep
      exact execOp_frame s i op rest
  | _ =>
    simp only [hpc] at hstep
    repeat' split at hstep
    all_goals
      cases hstep
      try exact ⟨hother, List.prefix_refl _⟩

lemma Run.log_le (h : W.Run s s') : s.log <+: s'.log := by
  induction h with
  | refl => exact List.prefix_refl _
  | step i hi _ hstep ih => exact ih.trans (step_frame hstep).2

/-! ## The threads that take part in a call -/

/-- A thread waits, and nobody has signaled it. -/
def Waits (s : SchedulerState) (j : ℕ) : Prop := (s.thread j).pc = .idle ∧ s.semaphore j = 0

variable (W) in
/-- A step that keeps to the threads and queues of the call. A thread that began to look for work
before the call may look in more queues: they are empty. -/
def ConfinedOp (s : SchedulerState) (i : ℕ) : Op → Prop
  | .pushHead q _ => q < W.numThreads
  | .signal j => i = 0 ∧ j < W.numThreads
  | .getNextTask _ num_threads => num_threads ≤ W.fStaticNumThreads ∧
    ∀ q, W.numThreads ≤ q → q < num_threads → s.taskQueue q = []
  | _ => True

variable (W) in
/-- The other threads of the pool wait, and the threads of the call keep to its queues. -/
structure Confined (s : SchedulerState) : Prop where
  waits : ∀ j, W.numThreads ≤ j → j < W.fStaticNumThreads → Waits s j
  code : ∀ j < W.numThreads, ∀ ops, (s.thread j).pc = .code ops → ∀ op ∈ ops, W.ConfinedOp s j op

/-- The other queues stay empty. -/
lemma ConfinedOp.mono {op : Op} (h : W.ConfinedOp s i op)
    (hqueue : ∀ q, W.numThreads ≤ q → s.taskQueue q = [] → s'.taskQueue q = []) :
    W.ConfinedOp s' i op := by
  cases op with
  | getNextTask j m => exact ⟨h.1, fun q hq hlt => hqueue q hq (h.2 q hq hlt)⟩
  | _ => exact h

lemma confinedOp_initTaskList (hi : i < W.numThreads) {cur : CurThread} {op : Op}
    (hop : op ∈ W.initTaskList i cur) (j : ℕ) : W.ConfinedOp s j op := by
  unfold initTaskList at hop
  rcases List.mem_append.mp hop with hop | hop
  · obtain ⟨q, -, rfl⟩ := List.mem_map.mp hop
    trivial
  · cases cur with
    | minusOne =>
      obtain ⟨q, hq, hop⟩ := List.mem_flatMap.mp hop
      obtain ⟨t, -, rfl⟩ := List.mem_map.mp hop
      exact List.mem_range.mp hq
    | numThread =>
      obtain ⟨t, -, rfl⟩ := List.mem_map.mp hop
      exact hi

/-- The generated code keeps to the queues of the call. -/
lemma confinedOp_expands (hi : i < W.numThreads) {code : List Instr} {op : Op}
    (hop : op ∈ W.expands i code) : W.ConfinedOp s i op := by
  obtain ⟨instr, -, hop⟩ := List.mem_flatMap.mp hop
  cases instr with
  | initTaskList cur => exact confinedOp_initTaskList hi hop i
  | pushHead task =>
    cases List.mem_singleton.mp hop
    exact hi
  | getNextTask =>
    cases List.mem_singleton.mp hop
    exact ⟨W.numThreads_le, fun q hq hlt => absurd hlt (not_lt.mpr hq)⟩
  | _ =>
    cases List.mem_singleton.mp hop
    trivial

/-- So does the code of `compute`, which signals the threads of the call. -/
lemma confinedOp_compute {n : ℤ} {op : Op} (hop : op ∈ W.compute n) : W.ConfinedOp s 0 op := by
  unfold compute at hop
  rcases List.mem_append.mp hop with hop | hop
  · simp only [List.mem_cons] at hop
    rcases hop with rfl | rfl | hop
    · trivial
    · trivial
    · exact confinedOp_expands W.numThreads_pos hop
  · obtain ⟨j, hj, rfl⟩ := List.mem_map.mp hop
    have := List.mem_range.mp hj
    exact ⟨rfl, by omega⟩

/-- A step of confined code leaves the other queues empty. -/
lemma execOp_queue {op : Op} (rest : List Op) (hi : i < W.numThreads) (h : W.ConfinedOp s i op)
    {q : ℕ} (hq : W.numThreads ≤ q) (hempty : s.taskQueue q = []) :
    (W.execOp s i op rest).taskQueue q = [] := by
  have hset : ∀ {r : ℕ} {l : List ℕ}, q ≠ r → Function.update s.taskQueue r l q = [] :=
    fun hr => (Function.update_of_ne hr _ _).trans hempty
  cases op with
  | initOne r =>
    show Function.update s.taskQueue r [] q = []
    by_cases hr : q = r
    · rw [hr, Function.update_self]
    · exact hset hr
  | pushHead r t =>
    have hr : r < W.numThreads := h
    exact hset (by omega)
  | popHead =>
    simp only [execOp]
    split
    · exact hempty
    · exact hset (by omega)
  | getNextTask r m =>
    simp only [execOp]
    split
    · rename_i t hlast
      refine hset fun hr => ?_
      rw [← hr, hempty] at hlast
      cases hlast
    · split <;> exact hempty
  | _ =>
    simp only [execOp]
    repeat' split
    all_goals exact hempty

/-- It signals no other thread. -/
lemma execOp_semaphore {op : Op} (rest : List Op) (h : W.ConfinedOp s i op) {j : ℕ}
    (hj : W.numThreads ≤ j) : (W.execOp s i op rest).semaphore j = s.semaphore j := by
  cases op with
  | signal k =>
    have hk : k < W.numThreads := h.2
    exact Function.update_of_ne (by omega) _ _
  | _ =>
    simp only [execOp]
    repeat' split
    all_goals rfl

/-- The thread goes on with confined code. -/
lemma execOp_confined {op : Op} {rest : List Op} (hi : i < W.numThreads)
    (h : ∀ op' ∈ op :: rest, W.ConfinedOp s i op') :
    ∃ ops, ((W.execOp s i op rest).thread i).pc = .code ops ∧ ∀ op' ∈ ops, W.ConfinedOp s i op' := by
  have hop := h op List.mem_cons_self
  have hrest : ∀ op' ∈ rest, W.ConfinedOp s i op' := fun op' hop' =>
    h op' (List.mem_cons_of_mem _ hop')
  have hcons : ∀ {op₁ : Op}, W.ConfinedOp s i op₁ → ∀ op' ∈ op₁ :: rest, W.ConfinedOp s i op' :=
    fun hop₁ => List.forall_mem_cons.mpr ⟨hop₁, hrest⟩
  cases op with
  | getNextTask j m =>
    simp only [execOp]
    split
    · exact ⟨rest, by simp, hrest⟩
    · split
      · exact ⟨.getNextTask (j + 1) m :: rest, by simp, hcons hop⟩
      · exact ⟨rest, by simp, hrest⟩
  | ifMore =>
    simp only [execOp]
    split
    · refine ⟨W.initBlock i .numThread ++ rest, by simp, fun op' hop' => ?_⟩
      exact (List.mem_append.mp hop').elim (confinedOp_expands hi) (hrest op')
    · exact ⟨rest, by simp, hrest⟩
  | activateOutputTask1 t =>
    simp only [execOp]
    split
    · split
      · exact ⟨rest, by simp, hrest⟩
      · exact ⟨.pushHead i t :: rest, by simp, hcons hi⟩
    · exact ⟨rest, by simp, hrest⟩
  | activateOutputTask2 t =>
    simp only [execOp]
    split
    · exact ⟨.pushHead i t :: rest, by simp, hcons hi⟩
    · exact ⟨rest, by simp, hrest⟩
  | activateOneOutputTask t =>
    simp only [execOp]
    split
    · exact ⟨rest, by simp, hrest⟩
    · exact ⟨.popHead :: rest, by simp, hcons trivial⟩
  | getReadyTask =>
    simp only [execOp]
    split
    · exact ⟨.popHead :: rest, by simp, hcons trivial⟩
    · exact ⟨rest, by simp, hrest⟩
  | popHead =>
    simp only [execOp]
    split <;> exact ⟨rest, by simp, hrest⟩
  | _ => exact ⟨rest, by simp [execOp], hrest⟩

theorem Confined.step (h : W.Confined s) (hi : i < W.numThreads) (hstep : W.step s i = some s') :
    W.Confined s' := by
  have hthread := (step_frame hstep).1
  -- what is known of the step is enough
  have hnext : (∀ q, W.numThreads ≤ q → s.taskQueue q = [] → s'.taskQueue q = []) →
      (∀ j, W.numThreads ≤ j → s'.semaphore j = s.semaphore j) →
      (∀ ops, (s'.thread i).pc = .code ops → ∀ op ∈ ops, W.ConfinedOp s i op) →
      W.Confined s' := by
    intro hqueue hsemaphore hcode
    refine ⟨fun j hj hlt => ?_, fun j hj ops hops op hop => ?_⟩
    · unfold Waits
      rw [hthread j (by omega), hsemaphore j hj]
      exact h.waits j hj hlt
    · by_cases hji : j = i
      · subst hji
        exact (hcode ops hops op hop).mono hqueue
      · exact (h.code j hj ops (hthread j hji ▸ hops) op hop).mono hqueue
  -- a step between two blocks of code
  have hmove : ∀ {th : Thread}, s' = s.setThread i th → (∀ ops, th.pc ≠ .code ops) →
      W.Confined s' := by
    rintro th rfl hth
    refine hnext (fun _ _ => id) (fun _ _ => rfl) fun ops hops => ?_
    rw [setThread_self] at hops
    exact absurd hops (hth ops)
  unfold Wss.step at hstep
  cases hpc : (s.thread i).pc with
  | idle =>
    simp only [hpc] at hstep
    split at hstep
    · cases hstep
      exact hnext (fun _ _ => id) (fun j hj => Function.update_of_ne (by omega) _ _) (by simp)
    · cases hstep
  | test =>
    simp only [hpc] at hstep
    split at hstep
    · cases hstep
      exact hmove rfl (by simp)
    · cases hstep
      exact hmove rfl (by simp)
  | loadIndex =>
    simp only [hpc, Option.some.injEq] at hstep
    exact hmove hstep.symm (by simp)
  | loadCount =>
    simp only [hpc, Option.some.injEq] at hstep
    exact hmove hstep.symm (by simp)
  | switch =>
    simp only [hpc] at hstep
    split at hstep
    · cases hstep
      refine hnext (fun _ _ => id) (fun _ _ => rfl) fun ops hops op hop => ?_
      rw [goto_thread, Function.update_self] at hops
      cases hops
      exact confinedOp_expands hi hop
    · cases hstep
      exact hmove rfl (by simp)
  | code ops =>
    cases ops with
    | nil =>
      simp only [hpc, Option.some.injEq] at hstep
      exact hmove hstep.symm (by simp)
    | cons op rest =>
      simp only [hpc, Option.some.injEq] at hstep
      subst hstep
      have hops := h.code i hi _ hpc
      have hop := hops op List.mem_cons_self
      refine hnext (fun q hq hempty => execOp_queue rest hi hop hq hempty)
        (fun j hj => execOp_semaphore rest hop hj) fun ops' hops' => ?_
      obtain ⟨ops₁, hpc₁, hconf⟩ := execOp_confined hi hops
      rw [hpc₁] at hops'
      cases hops'
      exact hconf

lemma Confined.run (h : W.Confined s) (hrun : W.Run s s') : W.Confined s' := by
  induction hrun with
  | refl => exact h
  | step i hi _ hstep ih => exact ih.step hi hstep

/-- The threads that take a step take part in the call. -/
lemma Confined.lt (h : W.Confined s) (hi : i < W.fStaticNumThreads)
    (hstep : W.step s i = some s') : i < W.numThreads := by
  by_contra hle
  obtain ⟨hpc, hsemaphore⟩ := h.waits i (not_lt.mp hle) hi
  simp [Wss.step, hpc, hsemaphore] at hstep

end Faust.Wss
