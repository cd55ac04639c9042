import Faust.Scheduler.Accounting

/-!
# The ledger of a state

The announcements under way and the ready tasks are spread over the threads and the queues.
`ledger` collects them. A step of a thread moves a task between a queue and the thread, or
makes one announcement.
-/

namespace Faust.Wss

open LoopGraph Finset

variable (W : Wss)

/-- The task in a variable `tasknum`. -/
def held (tasknum : ℕ) : List ℕ := if tasknum = workStealingIndex then [] else [tasknum]

/-- The ready tasks that a thread holds. -/
def threadTokens (th : Thread) : List ℕ :=
  match th.pc with
  | .idle => []
  | .code ops => W.tokens ops ++ if ops.any Op.overwrites then [] else held th.tasknum
  | _ => held th.tasknum

/-- The announcements that a thread is about to make. A task that is about to be run has not
been announced. -/
def threadNotifies (th : Thread) : List ℕ :=
  match th.pc with
  | .code (.loop _ :: _) | .code (.addIndex :: _) => []
  | .code ops => W.notifies ops
  | _ => []

/-- The number of samples of the current block. -/
def blockCount (s : SchedulerState) : ℤ := min W.vecSize (wrap32 (s.fFullcount - s.fIndex))

/-- The ledger of the current block. -/
def ledger (s : SchedulerState) : Ledger ℕ where
  announced t := ∑ i ∈ range W.numThreads, (W.threadNotifies (s.thread i)).count t
  tokens t := ∑ q ∈ range W.numThreads, (s.taskQueue q).count t +
    ∑ i ∈ range W.numThreads, (W.threadTokens (s.thread i)).count t
  done := ((W.G.order.filter fun p => .loop p s.fIndex (W.blockCount s) ∈ s.log).map
    W.G.index).toFinset

variable {W}

@[simp] lemma held_workStealing : held workStealingIndex = [] := rfl

lemma held_of_ne {t : ℕ} (ht : t ≠ workStealingIndex) : held t = [t] := if_neg ht

lemma not_isTask_workStealing : ¬ W.G.dag.IsTask workStealingIndex := by
  rw [isTask_iff]
  rintro (⟨p, hp, h⟩ | h)
  · have := two_le_index hp
    rw [workStealingIndex] at h
    omega
  · cases h

lemma threadTokens_code {th : Thread} {ops : List Op} (h : th.pc = .code ops) :
    W.threadTokens th = W.tokens ops ++ if ops.any Op.overwrites then [] else held th.tasknum := by
  rw [threadTokens, h]

lemma threadNotifies_tail {th : Thread} {ops : List Op} (h : th.pc = .code ops)
    (htail : W.Tail ops) : W.threadNotifies th = W.notifies ops := by
  rw [threadNotifies, h]
  split
  · rename_i heq
    cases heq
    exact (htail.op _ List.mem_cons_self).elim
  · rename_i heq
    cases heq
    exact (htail.op _ List.mem_cons_self).elim
  · rename_i heq
    cases heq
    rfl
  · rename_i hne
    exact absurd rfl (hne ops)

/-! ## Changes -/

lemma announced_update {s s' : SchedulerState} {i : ℕ} {th : Thread} (hi : i < W.numThreads)
    (hthread : s'.thread = Function.update s.thread i th) (u : ℕ) :
    (W.ledger s').announced u + (W.threadNotifies (s.thread i)).count u =
      (W.ledger s).announced u + (W.threadNotifies th).count u := by
  show ∑ j ∈ range W.numThreads, (W.threadNotifies (s'.thread j)).count u + _ = _
  rw [hthread]
  exact Family.sum_update (fun th => (W.threadNotifies th).count u) s.thread hi th

lemma tokens_update {s s' : SchedulerState} {i q : ℕ} {th : Thread} {l : List ℕ}
    (hi : i < W.numThreads) (hq : q < W.numThreads)
    (hthread : s'.thread = Function.update s.thread i th)
    (hqueue : s'.taskQueue = Function.update s.taskQueue q l) (u : ℕ) :
    (W.ledger s').tokens u + (s.taskQueue q).count u + (W.threadTokens (s.thread i)).count u =
      (W.ledger s).tokens u + l.count u + (W.threadTokens th).count u := by
  have hthreads := Family.sum_update (fun th => (W.threadTokens th).count u) s.thread hi th
  have hqueues := Family.sum_update (fun l => l.count u) s.taskQueue hq l
  show ∑ j ∈ range W.numThreads, (s'.taskQueue j).count u +
    ∑ j ∈ range W.numThreads, (W.threadTokens (s'.thread j)).count u + _ + _ =
    ∑ j ∈ range W.numThreads, (s.taskQueue j).count u +
    ∑ j ∈ range W.numThreads, (W.threadTokens (s.thread j)).count u + _ + _
  rw [hthread, hqueue]
  omega

lemma done_congr {s s' : SchedulerState} (hlog : s'.log = s.log) (hindex : s'.fIndex = s.fIndex)
    (hfull : s'.fFullcount = s.fFullcount) : (W.ledger s').done = (W.ledger s).done := by
  unfold ledger blockCount
  rw [hlog, hindex, hfull]

lemma mem_done_iff {s : SchedulerState} {u : ℕ} : u ∈ (W.ledger s).done ↔
    ∃ p ∈ W.G.order, W.G.index p = u ∧ .loop p s.fIndex (W.blockCount s) ∈ s.log := by
  simp only [ledger, List.mem_toFinset, List.mem_map, List.mem_filter, decide_eq_true_eq]
  constructor
  · rintro ⟨p, ⟨hp, hlog⟩, rfl⟩
    exact ⟨p, hp, rfl, hlog⟩
  · rintro ⟨p, hp, rfl, hlog⟩
    exact ⟨p, ⟨hp, hlog⟩, rfl⟩

lemma mem_done {s : SchedulerState} {p : ℕ} (hp : p ∈ W.G.order) :
    W.G.index p ∈ (W.ledger s).done ↔ .loop p s.fIndex (W.blockCount s) ∈ s.log := by
  rw [mem_done_iff]
  constructor
  · rintro ⟨q, hq, heq, hlog⟩
    rwa [index_inj hq hp heq] at hlog
  · exact fun h => ⟨p, hp, rfl, h⟩

lemma queue_count_le {s : SchedulerState} {q : ℕ} (hq : q < W.numThreads) (u : ℕ) :
    (s.taskQueue q).count u ≤ (W.ledger s).tokens u :=
  (Family.le_sum (fun l => l.count u) s.taskQueue hq).trans (Nat.le_add_right _ _)

lemma thread_count_le {s : SchedulerState} {i : ℕ} (hi : i < W.numThreads) (u : ℕ) :
    (W.threadTokens (s.thread i)).count u ≤ (W.ledger s).tokens u :=
  (Family.le_sum (fun th => (W.threadTokens th).count u) s.thread hi).trans (Nat.le_add_left _ _)

lemma notifies_count_le {s : SchedulerState} {i : ℕ} (hi : i < W.numThreads) (u : ℕ) :
    (W.threadNotifies (s.thread i)).count u ≤ (W.ledger s).announced u :=
  Family.le_sum (fun th => (W.threadNotifies th).count u) s.thread hi

/-! ## Steps of the code that activates tasks -/

/-- What a step of the code `ops` changes in the ledger. -/
inductive Effect (W : Wss) (ops : List Op) (s s' : SchedulerState) : Prop
  | silent (hgraph : s'.taskGraph = s.taskGraph) (hledger : W.ledger s' = W.ledger s)
  | announce (t : ℕ) (ht : t ∈ W.notifies ops)
    (hgraph : s'.taskGraph = if 1 < (W.G.preds t).length
      then Function.update s.taskGraph t (s.taskGraph t - 1) else s.taskGraph)
    (hledger : (W.ledger s).Announce W.G.dag (W.ledger s') t)

/-- The parts of the state that only the last task and the loops change are the same, and so
are the other threads. -/
structure Frame (s s' : SchedulerState) (i : ℕ) : Prop where
  thread : ∀ j ≠ i, s'.thread j = s.thread j
  fIndex : s'.fIndex = s.fIndex
  fFullcount : s'.fFullcount = s.fFullcount
  log : s'.log = s.log

/-- What the thread `i` does when its code activates tasks: it goes on with `ops`, and the
queue `q` becomes `l`. -/
structure TailStep (W : Wss) (s s' : SchedulerState) (i q tasknum : ℕ) (l : List ℕ)
    (ops : List Op) : Prop extends Frame s s' i where
  lt : q < W.numThreads
  tail : W.Tail ops
  self : s'.thread i = { s.thread i with pc := .code ops, tasknum := tasknum }
  taskQueue : s'.taskQueue = Function.update s.taskQueue q l

lemma TailStep.ledger {s s' : SchedulerState} {i q tasknum : ℕ} {l : List ℕ}
    {ops ops' : List Op} (h : W.TailStep s s' i q tasknum l ops') (hi : i < W.numThreads)
    (hpc : (s.thread i).pc = .code ops) (htail : W.Tail ops) (u : ℕ) :
    (W.ledger s').announced u + (W.notifies ops).count u =
        (W.ledger s).announced u + (W.notifies ops').count u ∧
    (W.ledger s').tokens u + (s.taskQueue q).count u +
        ((W.tokens ops).count u +
          (if ops.any Op.overwrites then [] else held (s.thread i).tasknum).count u) =
      (W.ledger s).tokens u + l.count u +
        ((W.tokens ops').count u +
          (if ops'.any Op.overwrites then [] else held tasknum).count u) := by
  have hthread : s'.thread =
      Function.update s.thread i { s.thread i with pc := .code ops', tasknum := tasknum } := by
    funext j
    by_cases hj : j = i
    · rw [hj, Function.update_self, h.self]
    · rw [Function.update_of_ne hj, h.thread j hj]
  have hann := announced_update hi hthread u
  have htok := tokens_update hi h.lt hthread h.taskQueue u
  rw [threadNotifies_tail hpc htail, threadNotifies_tail rfl h.tail] at hann
  rw [threadTokens_code hpc, threadTokens_code rfl, List.count_append, List.count_append] at htok
  exact ⟨hann, htok⟩

/-- What a step of code that activates tasks does. -/
structure Executed (W : Wss) (ops : List Op) (s s' : SchedulerState) (i : ℕ) : Prop
    extends Frame s s' i where
  effect : W.Effect ops s s'
  code : ∃ ops', (s'.thread i).pc = .code ops' ∧ W.Tail ops' ∧ W.notifies ops' ⊆ W.notifies ops

lemma TailStep.silent {s s' : SchedulerState} {i q tasknum : ℕ} {l : List ℕ}
    {ops ops' : List Op} (h : W.TailStep s s' i q tasknum l ops') (hi : i < W.numThreads)
    (hpc : (s.thread i).pc = .code ops) (htail : W.Tail ops)
    (hgraph : s'.taskGraph = s.taskGraph) (hnotifies : W.notifies ops = W.notifies ops')
    (htokens : ∀ u, (s.taskQueue q).count u + ((W.tokens ops).count u +
        (if ops.any Op.overwrites then [] else held (s.thread i).tasknum).count u) =
      l.count u + ((W.tokens ops').count u +
        (if ops'.any Op.overwrites then [] else held tasknum).count u)) : W.Executed ops s s' i := by
  refine ⟨h.toFrame, .silent hgraph (Ledger.ext (funext fun u => ?_) (funext fun u => ?_)
    (done_congr h.log h.fIndex h.fFullcount)), ops', by rw [h.self], h.tail, hnotifies ▸ List.Subset.refl _⟩
  · have := (h.ledger hi hpc htail u).1
    rw [hnotifies] at this
    omega
  · have := (h.ledger hi hpc htail u).2
    have := htokens u
    omega

lemma TailStep.announce {s s' : SchedulerState} {i q tasknum : ℕ} {l : List ℕ}
    {ops ops' : List Op} (h : W.TailStep s s' i q tasknum l ops') (hi : i < W.numThreads)
    (hpc : (s.thread i).pc = .code ops) (htail : W.Tail ops) {t : ℕ}
    (hgraph : s'.taskGraph = if 1 < (W.G.preds t).length
      then Function.update s.taskGraph t (s.taskGraph t - 1) else s.taskGraph)
    (hnotifies : W.notifies ops = t :: W.notifies ops')
    (htokens : ∀ u, l.count u + ((W.tokens ops').count u +
        (if ops'.any Op.overwrites then [] else held tasknum).count u) =
      (s.taskQueue q).count u + ((W.tokens ops).count u +
        (if ops.any Op.overwrites then [] else held (s.thread i).tasknum).count u) +
        if u = t ∧ (W.ledger s).pending W.G.dag t = 1 then 1 else 0) : W.Executed ops s s' i := by
  refine ⟨h.toFrame, .announce t (hnotifies ▸ List.mem_cons_self) hgraph ⟨fun u => ?_, fun u => ?_,
    done_congr h.log h.fIndex h.fFullcount⟩, ops', by rw [h.self], h.tail,
    hnotifies ▸ List.subset_cons_self _ _⟩
  · have := (h.ledger hi hpc htail u).1
    rw [hnotifies, List.count_cons] at this
    simp only [beq_iff_eq, @eq_comm _ t u] at this
    omega
  · have := (h.ledger hi hpc htail u).2
    have := htokens u
    omega

lemma Tail.any_cons {op : Op} {rest : List Op} (h : W.Tail (op :: rest))
    (hop : op.setsTasknum = true) : rest.any Op.overwrites = false := h.live.1 hop

/-- The tasks announced by code that activates tasks. -/
lemma Tail.isTask {ops : List Op} (h : W.Tail ops) {t : ℕ} (ht : t ∈ W.notifies ops) :
    W.G.dag.IsTask t := by
  obtain ⟨op, hop, ht⟩ := List.mem_flatMap.mp ht
  have hT := h.op op hop
  cases op with
  | activateOneOutputTask u => exact List.mem_singleton.mp ht ▸ hT.1
  | activateOutputTask1 u => exact List.mem_singleton.mp ht ▸ hT.1
  | activateOutputTask2 u => exact List.mem_singleton.mp ht ▸ hT.1
  | storeTasknum n =>
    simp only [Op.notifies] at ht
    split at ht
    · cases ht
    · rename_i hn
      exact List.mem_singleton.mp ht ▸ (hT.resolve_left hn).1
  | pushHead q u =>
    simp only [Op.notifies] at ht
    split at ht
    · cases ht
    · exact List.mem_singleton.mp ht ▸ hT.2
  | _ => first | cases ht | exact hT.elim

/-- What the code of a thread relies on when it activates tasks. -/
structure Counted (W : Wss) (s : SchedulerState) (i : ℕ) (ops : List Op) : Prop where
  queue : ∀ q < W.numThreads, workStealingIndex ∉ s.taskQueue q
  bound : ∀ t ∈ W.notifies ops, (W.ledger s).pending W.G.dag t ≤ max 1 (W.G.preds t).length
  count : ∀ t ∈ W.notifies ops, 1 < (W.G.preds t).length →
    s.taskGraph t = (W.ledger s).pending W.G.dag t
  confined : ∀ op ∈ ops, W.ConfinedOp s i op

section Exec

variable {s : SchedulerState} {i : ℕ} {rest : List Op}

/-- A task with at most one input that is about to be announced waits for nothing else. -/
lemma pending_eq_one {t : ℕ} (hi : i < W.numThreads) {ops : List Op}
    (hpc : (s.thread i).pc = .code ops) (htail : W.Tail ops) (hc : W.Counted s i ops)
    (ht : t ∈ W.notifies ops) (hlen : ¬ 1 < (W.G.preds t).length) :
    (W.ledger s).pending W.G.dag t = 1 := by
  have hle := hc.bound t ht
  have hcount := notifies_count_le (s := s) hi t
  rw [threadNotifies_tail hpc htail] at hcount
  have := List.count_pos_iff.mpr ht
  rw [Ledger.pending] at hle ⊢
  omega

lemma tailStep_thread {s' : SchedulerState} {tasknum : ℕ} {ops : List Op} (htail : W.Tail ops)
    (hthread : s'.thread =
      Function.update s.thread i { s.thread i with pc := .code ops, tasknum := tasknum })
    (hqueue : s'.taskQueue = s.taskQueue) (hindex : s'.fIndex = s.fIndex)
    (hfull : s'.fFullcount = s.fFullcount) (hlog : s'.log = s.log) :
    W.TailStep s s' i 0 tasknum (s.taskQueue 0) ops where
  thread j hj := by rw [hthread, Function.update_of_ne hj]
  fIndex := hindex
  fFullcount := hfull
  log := hlog
  lt := W.numThreads_pos
  tail := htail
  self := by rw [hthread, Function.update_self]
  taskQueue := by rw [hqueue, Function.update_eq_self]

lemma tailStep_queue {s' : SchedulerState} {q tasknum : ℕ} {l : List ℕ} {ops : List Op}
    (hq : q < W.numThreads) (htail : W.Tail ops)
    (hthread : s'.thread =
      Function.update s.thread i { s.thread i with pc := .code ops, tasknum := tasknum })
    (hqueue : s'.taskQueue = Function.update s.taskQueue q l) (hindex : s'.fIndex = s.fIndex)
    (hfull : s'.fFullcount = s.fFullcount) (hlog : s'.log = s.log) :
    W.TailStep s s' i q tasknum l ops where
  thread j hj := by rw [hthread, Function.update_of_ne hj]
  fIndex := hindex
  fFullcount := hfull
  log := hlog
  lt := hq
  tail := htail
  self := by rw [hthread, Function.update_self]
  taskQueue := hqueue

lemma exec_storeTasknum {n : ℕ} (hi : i < W.numThreads)
    (hpc : (s.thread i).pc = .code (.storeTasknum n :: rest))
    (htail : W.Tail (.storeTasknum n :: rest))
    (hc : W.Counted s i (.storeTasknum n :: rest)) :
    W.Executed (.storeTasknum n :: rest) s (W.execOp s i (.storeTasknum n) rest) i := by
  have hstep : W.TailStep s (W.execOp s i (.storeTasknum n) rest) i 0 n (s.taskQueue 0) rest :=
    tailStep_thread htail.cons_inv rfl rfl rfl rfl rfl
  by_cases hn : n = workStealingIndex
  · subst hn
    refine hstep.silent hi hpc htail rfl (by simp [Op.notifies]) fun u => ?_
    simp [Op.tokens, Op.overwrites]
  · have hnot : W.notifies (.storeTasknum n :: rest) = n :: W.notifies rest := by
      rw [notifies_cons, Op.notifies, if_neg hn]
      rfl
    obtain ⟨ht, hlen⟩ := (htail.op _ List.mem_cons_self).resolve_left hn
    have hpend := pending_eq_one hi hpc htail hc (t := n) (by rw [hnot]; simp) (by omega)
    refine hstep.announce hi hpc htail ?_ hnot fun u => ?_
    · rw [if_neg (by omega)]
      rfl
    · rw [htail.any_cons (by simpa [Op.setsTasknum] using hn), held_of_ne hn, hpend]
      simp [Op.tokens, Op.overwrites, List.count_singleton, @eq_comm _ u n]
      omega

lemma exec_popHead (hi : i < W.numThreads)
    (hpc : (s.thread i).pc = .code (.popHead :: rest)) (htail : W.Tail (.popHead :: rest))
    (hc : W.Counted s i (.popHead :: rest)) : W.Executed (.popHead :: rest) s (W.execOp s i .popHead rest) i := by
  have hlive := htail.any_cons rfl
  cases hqueue : s.taskQueue i with
  | nil =>
    have hexec : W.execOp s i .popHead rest = s.gotoWith i workStealingIndex (.code rest) := by
      simp only [execOp, hqueue]
    have hstep : W.TailStep s (s.gotoWith i workStealingIndex (.code rest)) i 0
        workStealingIndex (s.taskQueue 0) rest :=
      tailStep_thread htail.cons_inv rfl rfl rfl rfl rfl
    rw [hexec]
    refine hstep.silent hi hpc htail rfl rfl fun u => ?_
    simp [Op.tokens, Op.overwrites]
  | cons t q =>
    have hexec : W.execOp s i .popHead rest = (s.setQueue i q).gotoWith i t (.code rest) := by
      simp only [execOp, hqueue]
    have hne : t ≠ workStealingIndex := by
      rintro rfl
      exact hc.queue i hi (by simp [hqueue])
    have hstep : W.TailStep s ((s.setQueue i q).gotoWith i t (.code rest)) i i t q rest :=
      tailStep_queue hi htail.cons_inv rfl rfl rfl rfl rfl
    rw [hexec]
    refine hstep.silent hi hpc htail rfl rfl fun u => ?_
    rw [hlive, held_of_ne hne, hqueue, List.count_cons]
    simp [Op.tokens, Op.overwrites, List.count_singleton]
    omega

lemma exec_getNextTask {j m : ℕ} (hi : i < W.numThreads)
    (hpc : (s.thread i).pc = .code (.getNextTask j m :: rest))
    (htail : W.Tail (.getNextTask j m :: rest)) (hc : W.Counted s i (.getNextTask j m :: rest)) :
    W.Executed (.getNextTask j m :: rest) s (W.execOp s i (.getNextTask j m) rest) i := by
  have hlive := htail.any_cons rfl
  have hjm : j < m := htail.op _ List.mem_cons_self
  cases hlast : (s.taskQueue j).getLast? with
  | some t =>
    have hexec : W.execOp s i (.getNextTask j m) rest =
        (s.setQueue j (s.taskQueue j).dropLast).gotoWith i t (.code rest) := by
      simp only [execOp, hlast]
    have hqueue := List.dropLast_append_getLast? t hlast
    have hj : j < W.numThreads := by
      -- the other queues are empty
      by_contra hle
      rw [(hc.confined _ List.mem_cons_self).2 j (not_lt.mp hle) hjm] at hlast
      cases hlast
    have hne : t ≠ workStealingIndex := by
      rintro rfl
      exact hc.queue j hj (List.mem_of_getLast? hlast)
    have hstep : W.TailStep s ((s.setQueue j (s.taskQueue j).dropLast).gotoWith i t (.code rest))
        i j t (s.taskQueue j).dropLast rest :=
      tailStep_queue hj htail.cons_inv rfl rfl rfl rfl rfl
    rw [hexec]
    refine hstep.silent hi hpc htail rfl rfl fun u => ?_
    rw [hlive, held_of_ne hne, ← congrArg (List.count u) hqueue, List.count_append]
    simp [Op.tokens, Op.overwrites, List.count_singleton]
    omega
  | none =>
    by_cases hnext : j + 1 < m
    · have hexec : W.execOp s i (.getNextTask j m) rest =
          s.goto i (.code (.getNextTask (j + 1) m :: rest)) := by
        simp only [execOp, hlast, hnext, if_true]
      have hstep : W.TailStep s (s.goto i (.code (.getNextTask (j + 1) m :: rest))) i 0
          (s.thread i).tasknum (s.taskQueue 0) (.getNextTask (j + 1) m :: rest) :=
        tailStep_thread (htail.cons_inv.cons hnext fun _ => hlive) rfl rfl rfl rfl rfl
      rw [hexec]
      refine hstep.silent hi hpc htail rfl rfl fun u => ?_
      simp [Op.tokens, Op.overwrites]
    · have hexec : W.execOp s i (.getNextTask j m) rest =
          s.gotoWith i workStealingIndex (.code rest) := by
        simp only [execOp, hlast, hnext, if_false]
      have hstep : W.TailStep s (s.gotoWith i workStealingIndex (.code rest)) i 0
          workStealingIndex (s.taskQueue 0) rest :=
        tailStep_thread htail.cons_inv rfl rfl rfl rfl rfl
      rw [hexec]
      refine hstep.silent hi hpc htail rfl rfl fun u => ?_
      simp [Op.tokens, Op.overwrites]

lemma exec_getReadyTask (hi : i < W.numThreads)
    (hpc : (s.thread i).pc = .code (.getReadyTask :: rest))
    (htail : W.Tail (.getReadyTask :: rest)) :
    W.Executed (.getReadyTask :: rest) s (W.execOp s i .getReadyTask rest) i := by
  have hlive := htail.any_cons rfl
  by_cases hn : (s.thread i).tasknum = workStealingIndex
  · have hexec : W.execOp s i .getReadyTask rest = s.goto i (.code (.popHead :: rest)) := by
      simp only [execOp, hn, if_true]
    have hstep : W.TailStep s (s.goto i (.code (.popHead :: rest))) i 0 (s.thread i).tasknum
        (s.taskQueue 0) (.popHead :: rest) :=
      tailStep_thread (htail.cons_inv.cons trivial fun _ => hlive) rfl rfl rfl rfl rfl
    rw [hexec]
    refine hstep.silent hi hpc htail rfl rfl fun u => ?_
    simp [Op.tokens, Op.overwrites, hn, hlive]
  · have hexec : W.execOp s i .getReadyTask rest = s.goto i (.code rest) := by
      simp only [execOp, hn, if_false]
    have hstep : W.TailStep s (s.goto i (.code rest)) i 0 (s.thread i).tasknum (s.taskQueue 0)
        rest := tailStep_thread htail.cons_inv rfl rfl rfl rfl rfl
    rw [hexec]
    refine hstep.silent hi hpc htail rfl rfl fun u => ?_
    simp [Op.tokens, Op.overwrites]

lemma exec_signal {j : ℕ} (hi : i < W.numThreads)
    (hpc : (s.thread i).pc = .code (.signal j :: rest)) (htail : W.Tail (.signal j :: rest)) :
    W.Executed (.signal j :: rest) s (W.execOp s i (.signal j) rest) i := by
  have hstep : W.TailStep s (W.execOp s i (.signal j) rest) i 0 (s.thread i).tasknum
      (s.taskQueue 0) rest := tailStep_thread htail.cons_inv rfl rfl rfl rfl rfl
  refine hstep.silent hi hpc htail rfl rfl fun u => ?_
  simp [Op.tokens, Op.overwrites]

lemma exec_pushHead {q t : ℕ} (hi : i < W.numThreads)
    (hpc : (s.thread i).pc = .code (.pushHead q t :: rest))
    (htail : W.Tail (.pushHead q t :: rest)) (hc : W.Counted s i (.pushHead q t :: rest)) :
    W.Executed (.pushHead q t :: rest) s (W.execOp s i (.pushHead q t) rest) i := by
  obtain ⟨hq, ht⟩ := htail.op _ List.mem_cons_self
  have hstep : W.TailStep s (W.execOp s i (.pushHead q t) rest) i q (s.thread i).tasknum
      (t :: s.taskQueue q) rest := tailStep_queue hq htail.cons_inv rfl rfl rfl rfl rfl
  by_cases hlen : 1 < (W.G.preds t).length
  · refine hstep.silent hi hpc htail rfl (by simp [Op.notifies, hlen]) fun u => ?_
    simp [Op.tokens, Op.overwrites, hlen, List.count_cons]
    omega
  · have hnot : W.notifies (.pushHead q t :: rest) = t :: W.notifies rest := by
      rw [notifies_cons, Op.notifies, if_neg hlen]
      rfl
    have hpend := pending_eq_one hi hpc htail hc (t := t) (by rw [hnot]; simp) hlen
    refine hstep.announce hi hpc htail ?_ hnot fun u => ?_
    · rw [if_neg hlen]
      rfl
    · rw [hpend]
      simp [Op.tokens, Op.overwrites, hlen, List.count_cons, @eq_comm _ u t]
      omega

lemma exec_activateOneOutputTask {t : ℕ} (hi : i < W.numThreads)
    (hpc : (s.thread i).pc = .code (.activateOneOutputTask t :: rest))
    (htail : W.Tail (.activateOneOutputTask t :: rest))
    (hc : W.Counted s i (.activateOneOutputTask t :: rest)) :
    W.Executed (.activateOneOutputTask t :: rest) s (W.execOp s i (.activateOneOutputTask t) rest) i := by
  obtain ⟨ht, hlen⟩ := htail.op _ List.mem_cons_self
  have hlive := htail.any_cons rfl
  have hcount := hc.count t (by simp [Op.notifies]) hlen
  have hne : t ≠ workStealingIndex := fun h => not_isTask_workStealing (h ▸ ht)
  by_cases hn : s.taskGraph t - 1 = 0
  · have hexec : W.execOp s i (.activateOneOutputTask t) rest =
        (s.setTask t (s.taskGraph t - 1)).gotoWith i t (.code rest) := by
      simp only [execOp, hn, if_true]
    have hstep : W.TailStep s ((s.setTask t (s.taskGraph t - 1)).gotoWith i t (.code rest)) i 0 t
        (s.taskQueue 0) rest := tailStep_thread htail.cons_inv rfl rfl rfl rfl rfl
    have hpend : (W.ledger s).pending W.G.dag t = 1 := by omega
    rw [hexec]
    refine hstep.announce hi hpc htail ?_ rfl fun u => ?_
    · rw [if_pos hlen]
      rfl
    · rw [hlive, held_of_ne hne, hpend]
      simp [Op.tokens, Op.overwrites, List.count_singleton, @eq_comm _ u t]
      omega
  · have hexec : W.execOp s i (.activateOneOutputTask t) rest =
        (s.setTask t (s.taskGraph t - 1)).goto i (.code (.popHead :: rest)) := by
      simp only [execOp, hn, if_false]
    have hstep : W.TailStep s ((s.setTask t (s.taskGraph t - 1)).goto i (.code (.popHead :: rest)))
        i 0 (s.thread i).tasknum (s.taskQueue 0) (.popHead :: rest) :=
      tailStep_thread (htail.cons_inv.cons trivial fun _ => hlive) rfl rfl rfl rfl rfl
    have hpend : (W.ledger s).pending W.G.dag t ≠ 1 := by omega
    rw [hexec]
    refine hstep.announce hi hpc htail ?_ rfl fun u => ?_
    · rw [if_pos hlen]
      rfl
    · simp [Op.tokens, Op.overwrites, hpend]

lemma exec_activateOutputTask1 {t : ℕ} (hi : i < W.numThreads)
    (hpc : (s.thread i).pc = .code (.activateOutputTask1 t :: rest))
    (htail : W.Tail (.activateOutputTask1 t :: rest))
    (hc : W.Counted s i (.activateOutputTask1 t :: rest)) :
    W.Executed (.activateOutputTask1 t :: rest) s (W.execOp s i (.activateOutputTask1 t) rest) i := by
  obtain ⟨ht, hlen⟩ := htail.op _ List.mem_cons_self
  have hlive := htail.any_cons rfl
  have hcount := hc.count t (by simp [Op.notifies]) hlen
  have hne : t ≠ workStealingIndex := fun h => not_isTask_workStealing (h ▸ ht)
  by_cases hn : s.taskGraph t - 1 = 0
  · have hpend : (W.ledger s).pending W.G.dag t = 1 := by omega
    by_cases hw : (s.thread i).tasknum = workStealingIndex
    · have hexec : W.execOp s i (.activateOutputTask1 t) rest =
          (s.setTask t (s.taskGraph t - 1)).gotoWith i t (.code rest) := by
        simp only [execOp, hn, hw, if_true]
      have hstep : W.TailStep s ((s.setTask t (s.taskGraph t - 1)).gotoWith i t (.code rest)) i 0
          t (s.taskQueue 0) rest := tailStep_thread htail.cons_inv rfl rfl rfl rfl rfl
      rw [hexec]
      refine hstep.announce hi hpc htail ?_ rfl fun u => ?_
      · rw [if_pos hlen]
        rfl
      · rw [hlive, held_of_ne hne, hpend]
        simp [Op.tokens, Op.overwrites, hw, hlive, List.count_singleton, @eq_comm _ u t]
        omega
    · -- the thread has a task already
      have hexec : W.execOp s i (.activateOutputTask1 t) rest =
          (s.setTask t (s.taskGraph t - 1)).goto i (.code (.pushHead i t :: rest)) := by
        simp only [execOp, hn, hw, if_true, if_false]
      have hstep : W.TailStep s
          ((s.setTask t (s.taskGraph t - 1)).goto i (.code (.pushHead i t :: rest))) i 0
          (s.thread i).tasknum (s.taskQueue 0) (.pushHead i t :: rest) :=
        tailStep_thread (htail.cons_inv.cons ⟨hi, ht⟩ Bool.false_ne_true.elim) rfl rfl rfl rfl rfl
      rw [hexec]
      refine hstep.announce (t := t) hi hpc htail ?_ ?_ fun u => ?_
      · rw [if_pos hlen]
        rfl
      · simp [Op.notifies, hlen]
      · rw [hpend]
        simp [Op.tokens, Op.overwrites, hlen, List.count_cons, @eq_comm _ u t]
        omega
  · have hexec : W.execOp s i (.activateOutputTask1 t) rest =
        (s.setTask t (s.taskGraph t - 1)).goto i (.code rest) := by
      simp only [execOp, hn, if_false]
    have hstep : W.TailStep s ((s.setTask t (s.taskGraph t - 1)).goto i (.code rest)) i 0
        (s.thread i).tasknum (s.taskQueue 0) rest :=
      tailStep_thread htail.cons_inv rfl rfl rfl rfl rfl
    have hpend : (W.ledger s).pending W.G.dag t ≠ 1 := by omega
    rw [hexec]
    refine hstep.announce hi hpc htail ?_ rfl fun u => ?_
    · rw [if_pos hlen]
      rfl
    · simp [Op.tokens, Op.overwrites, hpend]

lemma exec_activateOutputTask2 {t : ℕ} (hi : i < W.numThreads)
    (hpc : (s.thread i).pc = .code (.activateOutputTask2 t :: rest))
    (htail : W.Tail (.activateOutputTask2 t :: rest))
    (hc : W.Counted s i (.activateOutputTask2 t :: rest)) :
    W.Executed (.activateOutputTask2 t :: rest) s (W.execOp s i (.activateOutputTask2 t) rest) i := by
  obtain ⟨ht, hlen⟩ := htail.op _ List.mem_cons_self
  have hcount := hc.count t (by simp [Op.notifies]) hlen
  by_cases hn : s.taskGraph t - 1 = 0
  · have hexec : W.execOp s i (.activateOutputTask2 t) rest =
        (s.setTask t (s.taskGraph t - 1)).goto i (.code (.pushHead i t :: rest)) := by
      simp only [execOp, hn, if_true]
    have hstep : W.TailStep s
        ((s.setTask t (s.taskGraph t - 1)).goto i (.code (.pushHead i t :: rest))) i 0
        (s.thread i).tasknum (s.taskQueue 0) (.pushHead i t :: rest) :=
      tailStep_thread (htail.cons_inv.cons ⟨hi, ht⟩ Bool.false_ne_true.elim) rfl rfl rfl rfl rfl
    have hpend : (W.ledger s).pending W.G.dag t = 1 := by omega
    rw [hexec]
    refine hstep.announce (t := t) hi hpc htail ?_ ?_ fun u => ?_
    · rw [if_pos hlen]
      rfl
    · simp [Op.notifies, hlen]
    · rw [hpend]
      simp [Op.tokens, Op.overwrites, hlen, List.count_cons, @eq_comm _ u t]
      omega
  · have hexec : W.execOp s i (.activateOutputTask2 t) rest =
        (s.setTask t (s.taskGraph t - 1)).goto i (.code rest) := by
      simp only [execOp, hn, if_false]
    have hstep : W.TailStep s ((s.setTask t (s.taskGraph t - 1)).goto i (.code rest)) i 0
        (s.thread i).tasknum (s.taskQueue 0) rest :=
      tailStep_thread htail.cons_inv rfl rfl rfl rfl rfl
    have hpend : (W.ledger s).pending W.G.dag t ≠ 1 := by omega
    rw [hexec]
    refine hstep.announce hi hpc htail ?_ rfl fun u => ?_
    · rw [if_pos hlen]
      rfl
    · simp [Op.tokens, Op.overwrites, hpend]

/-- A step of code that activates tasks moves a task or makes an announcement. -/
theorem exec_tail {op : Op} (hi : i < W.numThreads)
    (hpc : (s.thread i).pc = .code (op :: rest)) (htail : W.Tail (op :: rest))
    (hc : W.Counted s i (op :: rest)) : W.Executed (op :: rest) s (W.execOp s i op rest) i := by
  have hT := htail.op op List.mem_cons_self
  cases op with
  | storeTasknum n => exact exec_storeTasknum hi hpc htail hc
  | activateOneOutputTask t => exact exec_activateOneOutputTask hi hpc htail hc
  | activateOutputTask1 t => exact exec_activateOutputTask1 hi hpc htail hc
  | activateOutputTask2 t => exact exec_activateOutputTask2 hi hpc htail hc
  | pushHead q t => exact exec_pushHead hi hpc htail hc
  | getNextTask j m => exact exec_getNextTask hi hpc htail hc
  | popHead => exact exec_popHead hi hpc htail hc
  | getReadyTask => exact exec_getReadyTask hi hpc htail
  | signal j => exact exec_signal hi hpc htail
  | _ => exact hT.elim

end Exec

end Faust.Wss
