import Faust.Scheduler.Blocks

/-!
# The start of a call

Nobody but the master thread runs until it has stored the indices, reset the activation counts
and the queues, pushed the ready tasks and signaled the other threads. If there are no samples,
nothing more happens.
-/

namespace Faust.Wss

open LoopGraph Finset

variable (W : Wss)

/-- What the master thread does before it pushes the ready tasks. -/
def startup (n : ℤ) : List Op := .storeFullcount n :: .storeIndex :: W.initOps

/-- What it does afterwards. -/
def dispatch : List Op :=
  W.pushes 0 .minusOne ++ (List.range (W.numThreads - 1)).map fun i => .signal (i + 1)

/-- The effect of a step of the start. -/
def Effective (s : SchedulerState) : Op → Prop
  | .storeFullcount n => s.fFullcount = n
  | .storeIndex => s.fIndex = 0
  | .initTask t n => s.taskGraph t = n
  | .initOne q => s.taskQueue q = []
  | _ => True

/-- Nobody has been signaled yet, and nothing has been run. -/
structure Alone (s : SchedulerState) : Prop where
  idle : ∀ j < W.numThreads, j ≠ 0 → (s.thread j).pc = .idle ∧ s.semaphore j = 0
  tasknum : (s.thread 0).tasknum = workStealingIndex
  log : s.log = []

/-- The invariant of the start: some steps have been done. -/
structure Starting (n : ℤ) (s : SchedulerState) : Prop extends W.Alone s where
  code : ∃ pre op rest, W.startup n = pre ++ op :: rest ∧
    (s.thread 0).pc = .code (op :: rest ++ W.dispatch) ∧ ∀ op' ∈ pre, Effective s op'

/-- The state at the end of the start. -/
structure Started (n : ℤ) (s : SchedulerState) : Prop extends W.Alone s where
  pc : (s.thread 0).pc = .code W.dispatch
  effective : ∀ op ∈ W.startup n, Effective s op

/-- The invariant of a call on no samples. -/
structure NoBlock (s : SchedulerState) : Prop where
  le : s.fFullcount ≤ s.fIndex
  pc : ∀ i < W.numThreads, (s.thread i).pc = .idle ∨ (s.thread i).pc = .test ∨
    ∃ ops, (s.thread i).pc = .code ops ∧
      ∀ op ∈ ops, (∃ q t, op = .pushHead q t ∧ W.G.dag.IsTask t) ∨ ∃ j, op = .signal j

variable {W} {s s' : SchedulerState} {i : ℕ} {n : ℤ}

lemma compute_eq (n : ℤ) : W.compute n = W.startup n ++ W.dispatch := by
  rw [compute, initBlock_eq, startup, dispatch]
  simp

lemma mem_startup {op : Op} (h : op ∈ W.startup n) :
    op = .storeFullcount n ∨ op = .storeIndex ∨ W.InitOp op := by
  simp only [startup, List.mem_cons] at h
  exact h.imp_right (Or.imp_right initOp_of_mem)

/-- A step of the start has its effect, and undoes no other. -/
lemma exec_startup {op : Op} (hop : op ∈ W.startup n) (rest : List Op) :
    (W.execOp s 0 op rest).thread =
      Function.update s.thread 0 { s.thread 0 with pc := .code rest } ∧
    (W.execOp s 0 op rest).semaphore = s.semaphore ∧ (W.execOp s 0 op rest).log = s.log ∧
    Effective (W.execOp s 0 op rest) op ∧
    ∀ op' ∈ W.startup n, Effective s op' → Effective (W.execOp s 0 op rest) op' := by
  rcases mem_startup hop with rfl | rfl | hinit
  · refine ⟨rfl, rfl, rfl, rfl, fun op' hop' h => ?_⟩
    rcases mem_startup hop' with rfl | rfl | hinit'
    · rfl
    · exact h
    · cases op' with
      | initTask t m => exact h
      | initOne q => exact h
      | _ => exact hinit'.elim
  · refine ⟨rfl, rfl, rfl, rfl, fun op' hop' h => ?_⟩
    rcases mem_startup hop' with rfl | rfl | hinit'
    · exact h
    · rfl
    · cases op' with
      | initTask t m => exact h
      | initOne q => exact h
      | _ => exact hinit'.elim
  · cases op with
    | initTask t m =>
      refine ⟨rfl, rfl, rfl, Function.update_self _ _ _, fun op' hop' h => ?_⟩
      rcases mem_startup hop' with rfl | rfl | hinit'
      · exact h
      · exact h
      · cases op' with
        | initTask u m' =>
          show Function.update s.taskGraph t (m : ℤ) u = m'
          by_cases hut : u = t
          · -- the same count
            rw [hut, Function.update_self, hinit.2, hinit'.2, hut]
          · rw [Function.update_of_ne hut]
            exact h
        | initOne q => exact h
        | _ => exact hinit'.elim
    | initOne q =>
      refine ⟨rfl, rfl, rfl, Function.update_self _ _ _, fun op' hop' h => ?_⟩
      rcases mem_startup hop' with rfl | rfl | hinit'
      · exact h
      · exact h
      · cases op' with
        | initTask u m' => exact h
        | initOne r =>
          show Function.update s.taskQueue q [] r = []
          by_cases hrq : r = q
          · rw [hrq, Function.update_self]
          · rw [Function.update_of_ne hrq]
            exact h
        | _ => exact hinit'.elim
    | _ => exact hinit.elim

/-- The steps of the start. -/
theorem Starting.step (h : W.Starting n s) (hi : i < W.numThreads)
    (hstep : W.step s i = some s') : W.Starting n s' ∨ W.Started n s' := by
  by_cases h0 : i = 0
  · subst h0
    obtain ⟨pre, op, rest, hstart, hpc, heff⟩ := h.code
    have hop : op ∈ W.startup n := by
      rw [hstart]
      exact List.mem_append_right _ List.mem_cons_self
    rw [List.cons_append] at hpc
    simp only [Wss.step, hpc, Option.some.injEq] at hstep
    obtain ⟨hthread, hsem, hlog, hself, hother⟩ := exec_startup (s := s) hop (rest ++ W.dispatch)
    rw [hstep] at hthread hsem hlog hself hother
    have hdone : ∀ op' ∈ pre ++ [op], Effective s' op' := fun op' hop' => by
      rcases List.mem_append.mp hop' with hop' | hop'
      · exact hother op' (by rw [hstart]; exact List.mem_append_left _ hop') (heff op' hop')
      · exact List.mem_singleton.mp hop' ▸ hself
    have halone : W.Alone s' := by
      refine ⟨fun j hj hj0 => ?_, ?_, hlog.trans h.log⟩
      · rw [hthread, Function.update_of_ne hj0, hsem]
        exact h.idle j hj hj0
      · rw [hthread, Function.update_self]
        exact h.tasknum
    cases rest with
    | nil =>
      refine .inr ⟨halone, by rw [hthread, Function.update_self]; rfl, fun op' hop' => ?_⟩
      exact hdone op' (by rwa [hstart] at hop')
    | cons op' rest =>
      refine .inl ⟨halone, pre ++ [op], op', rest, by simp [hstart], ?_, hdone⟩
      rw [hthread, Function.update_self]
  · -- the other threads wait
    obtain ⟨hpc, hsem⟩ := h.idle i hi h0
    simp [Wss.step, hpc, hsem] at hstep

/-! ## The end of the start -/

lemma Started.fFullcount (h : W.Started n s) : s.fFullcount = n :=
  h.effective (.storeFullcount n) (by simp [startup])

lemma Started.fIndex (h : W.Started n s) : s.fIndex = 0 :=
  h.effective .storeIndex (by simp [startup])

lemma tail_dispatch : W.Tail W.dispatch := by
  refine tail_pushes W.numThreads_pos .minusOne ⟨fun op hop => ?_, ?_⟩
  · obtain ⟨j, -, rfl⟩ := List.mem_map.mp hop
    trivial
  · refine live_of_not_overwrites (List.any_eq_false.mpr fun op hop => ?_)
    obtain ⟨j, -, rfl⟩ := List.mem_map.mp hop
    exact Bool.false_ne_true

/-- At the end of the start the work begins. -/
lemma Started.start (h : W.Started n s) : (W.ledger s).Start W.G.dag := by
  obtain ⟨-, hcount, htokens, -⟩ := pushes_spec (W := W) W.numThreads_pos .minusOne
  have hsignals : ∀ js : List ℕ, W.notifies (js.map fun j => .signal (j + 1)) = [] ∧
      W.tokens (js.map fun j => .signal (j + 1)) = [] := by
    intro js
    rw [notifies, tokens, List.flatMap_map, List.flatMap_map]
    exact ⟨List.flatMap_eq_nil_iff.mpr fun _ _ => rfl, List.flatMap_eq_nil_iff.mpr fun _ _ => rfl⟩
  have hidle : ∀ j ∈ range W.numThreads, j ≠ 0 →
      W.threadNotifies (s.thread j) = [] ∧ W.threadTokens (s.thread j) = [] := by
    intro j hj hj0
    rw [threadNotifies, threadTokens, (h.idle j (mem_range.mp hj) hj0).1]
    exact ⟨rfl, rfl⟩
  have h0 : 0 ∈ range W.numThreads := mem_range.mpr W.numThreads_pos
  refine ⟨fun t ht => ?_, fun u => ?_, ?_⟩
  · show ∑ j ∈ range W.numThreads, (W.threadNotifies (s.thread j)).count t = _
    rw [sum_eq_single_of_mem 0 h0 fun j hj hj0 => by rw [(hidle j hj hj0).1, List.count_nil],
      threadNotifies_tail h.pc tail_dispatch, dispatch, notifies_append, List.count_append,
      hcount, (hsignals _).1, List.count_nil, nodup_readyLoop.count]
    simp only [source_iff ht]
    rfl
  · show ∑ q ∈ range W.numThreads, (s.taskQueue q).count u +
      ∑ j ∈ range W.numThreads, (W.threadTokens (s.thread j)).count u = 0
    have hqueue : ∀ q ∈ range W.numThreads, (s.taskQueue q).count u = 0 := fun q hq => by
      have hempty : s.taskQueue q = [] := h.effective (.initOne q) (by
        rw [startup]
        exact List.mem_cons_of_mem _ (List.mem_cons_of_mem _
          (initOne_mem_initOps (mem_range.mp hq))))
      rw [hempty, List.count_nil]
    rw [sum_eq_zero hqueue, sum_eq_single_of_mem 0 h0 fun j hj hj0 => by
        rw [(hidle j hj hj0).2, List.count_nil],
      threadTokens_code h.pc, h.tasknum, dispatch, tokens_append, htokens, (hsignals _).2]
    simp
  · refine Finset.eq_empty_of_forall_notMem fun u hu => ?_
    obtain ⟨p, -, -, hlog⟩ := mem_done_iff.mp hu
    rw [h.log] at hlog
    cases hlog

/-- The first block. -/
theorem Started.running (h : W.Started n s) (hn : 0 < n) : W.Running s where
  lt := by rwa [h.fIndex, h.fFullcount]
  code j hj ops hops := by
    by_cases h0 : j = 0
    · rw [h0, h.pc] at hops
      cases hops
      exact .tail tail_dispatch
    · rw [(h.idle j hj h0).1] at hops
      cases hops
  balanced := Ledger.Balanced.start h.start
  count t ht hlen := by
    refine .inr ?_
    have heff : s.taskGraph t = (W.G.preds t).length :=
      h.effective (.initTask t (W.G.preds t).length) (by
        rw [startup]
        exact List.mem_cons_of_mem _ (List.mem_cons_of_mem _ (initTask_mem_initOps ht hlen)))
    have hne : ¬ W.G.dag.preds t = ∅ := by
      rw [← Finset.card_eq_zero, card_preds]
      omega
    rw [heff, Ledger.pending, h.start.announced t ht, if_neg hne, h.start.done,
      Finset.sdiff_empty, card_preds, Nat.zero_add]
  locals j hj hne := absurd (threadTokens_eq_nil h.start.tokens hj) hne
  master := by simp [h.pc]

/-- No block. -/
theorem Started.noBlock (h : W.Started n s) (hn : n ≤ 0) : W.NoBlock s where
  le := by rwa [h.fIndex, h.fFullcount]
  pc j hj := by
    by_cases h0 : j = 0
    · refine .inr (.inr ⟨_, h0 ▸ h.pc, fun op hop => ?_⟩)
      rcases List.mem_append.mp hop with hop | hop
      · obtain ⟨qs, heq, hperm, -⟩ := W.pushes_eq 0 .minusOne
        rw [heq] at hop
        obtain ⟨q, hq, rfl⟩ := List.mem_map.mp hop
        exact .inl ⟨q.1, q.2, rfl,
          (mem_readyLoop.mp (hperm.mem_iff.mp (List.mem_map_of_mem hq))).1⟩
      · obtain ⟨j, -, rfl⟩ := List.mem_map.mp hop
        exact .inr ⟨j + 1, rfl⟩
    · exact .inl (h.idle j hj h0).1

/-- No thread gets to the `switch`. -/
theorem NoBlock.step (h : W.NoBlock s) (hi : i < W.numThreads) (hstep : W.step s i = some s') :
    W.NoBlock s' ∧ Frame s s' i := by
  have hnext : ∀ {s' : SchedulerState}, Frame s s' i →
      ((s'.thread i).pc = .idle ∨ (s'.thread i).pc = .test ∨ ∃ ops, (s'.thread i).pc = .code ops ∧
        ∀ op ∈ ops, (∃ q t, op = .pushHead q t ∧ W.G.dag.IsTask t) ∨ ∃ j, op = .signal j) →
      W.NoBlock s' ∧ Frame s s' i := by
    intro s' hframe hpc
    refine ⟨⟨by rw [hframe.fIndex, hframe.fFullcount]; exact h.le, fun j hj => ?_⟩, hframe⟩
    by_cases hji : j = i
    · exact hji ▸ hpc
    · rw [hframe.thread j hji]
      exact h.pc j hj
  have hgoto : ∀ (t : SchedulerState) (th : Thread), t.thread = s.thread → t.fIndex = s.fIndex →
      t.fFullcount = s.fFullcount → t.log = s.log →
      Frame s (t.setThread i th) i ∧ ((t.setThread i th).thread i).pc = th.pc := by
    intro t th hthread hindex hfull hlog
    refine ⟨⟨fun j hj => ?_, hindex, hfull, hlog⟩, ?_⟩
    · show Function.update t.thread i th j = _
      rw [Function.update_of_ne hj, hthread]
    · show (Function.update t.thread i th i).pc = _
      rw [Function.update_self]
  unfold Wss.step at hstep
  rcases h.pc i hi with hpc | hpc | ⟨ops, hpc, hops⟩
  · simp only [hpc] at hstep
    split at hstep
    · cases hstep
      obtain ⟨hframe, hself⟩ := hgoto (s.setSemaphore i (s.semaphore i - 1)) _ rfl rfl rfl rfl
      exact hnext hframe (.inr (.inl hself))
    · cases hstep
  · simp only [hpc, not_lt.mpr h.le, if_false, Option.some.injEq] at hstep
    subst hstep
    obtain ⟨hframe, hself⟩ := hgoto s _ rfl rfl rfl rfl
    exact hnext hframe (.inl hself)
  · cases ops with
    | nil =>
      simp only [hpc, Option.some.injEq] at hstep
      subst hstep
      obtain ⟨hframe, hself⟩ := hgoto s _ rfl rfl rfl rfl
      exact hnext hframe (.inr (.inl hself))
    | cons op rest =>
      simp only [hpc, Option.some.injEq] at hstep
      subst hstep
      have hrest := fun op' hop' => hops op' (List.mem_cons_of_mem op hop')
      rcases hops op List.mem_cons_self with ⟨q, t, rfl, -⟩ | ⟨j, rfl⟩
      · obtain ⟨hframe, hself⟩ := hgoto (s.setQueue q (t :: s.taskQueue q)) _ rfl rfl rfl rfl
        exact hnext hframe (.inr (.inr ⟨rest, hself, hrest⟩))
      · obtain ⟨hframe, hself⟩ :=
          hgoto (s.setSemaphore j (s.semaphore j + 1)) _ rfl rfl rfl rfl
        exact hnext hframe (.inr (.inr ⟨rest, hself, hrest⟩))

end Faust.Wss
