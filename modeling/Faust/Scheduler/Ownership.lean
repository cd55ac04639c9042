import Faust.Scheduler.Calls

/-!
# The owner of a queue

`PushHead` and `PopHead` are for the owner of a queue and `InitOne` for one thread, but the master
thread resets and fills the queues of all threads at the beginning of a call, and so does the
thread that runs the last task with its own queue. The other threads must not use their queues
then. Nothing in the scheduler sees to it.
-/

namespace Faust.Wss

open LoopGraph Finset

variable (W : Wss)

/-- The queue whose head or whose whole content a step of thread `i` changes. -/
def ownedQueue (i : ℕ) : Op → Option ℕ
  | .pushHead q _ => some q
  | .popHead => some i
  | .initOne q => some q
  | _ => none

/-- Thread `i` is executing `PushHead`, `PopHead` or `InitOne` on the queue `q`. -/
def Owns (s : SchedulerState) (i q : ℕ) : Prop :=
  ∃ op rest, (s.thread i).pc = .code (op :: rest) ∧ ownedQueue i op = some q

/-- Thread `i` is executing a task of the block. -/
def RunsTask (s : SchedulerState) (i : ℕ) : Prop :=
  ∃ op rest, (s.thread i).pc = .code (op :: rest) ∧ ((∃ p, op = .loop p) ∨ op = .addIndex)

/-- Thread `i` has not yet initialised the counters of the block. -/
def BeforeCounters (s : SchedulerState) (i : ℕ) : Prop :=
  ∃ ops, (s.thread i).pc = .code ops ∧
    ((∃ t count, .initTask t count ∈ ops) ∨ ops.head? = some .ifMore ∧ s.fIndex < s.fFullcount)

/-- What is expected of the states of a call on `n` samples. -/
structure Consistent (n : ℤ) (s : SchedulerState) : Prop where
  owner : ∀ i < W.fStaticNumThreads, ∀ j < W.fStaticNumThreads, ∀ q,
    Owns s i q → Owns s j q → i = j
  /-- No task is run twice. -/
  once : s.log.Nodup
  /-- No task is lost. -/
  complete : (s.thread 0).pc = .idle → ∀ k, W.blockIndex k < n →
    ∀ e ∈ W.blockEvents n k, e ∈ s.log
  returns : ∃ s', W.Run s s' ∧ (s'.thread 0).pc = .idle
  counters : ∀ i < W.fStaticNumThreads, ∀ j < W.fStaticNumThreads,
    RunsTask s i → ¬ BeforeCounters s j

/-- Thread `j` may pop the head of its queue, in the code where it is. -/
def PopsHead (s : SchedulerState) (j : ℕ) : Prop :=
  .popHead ∈ (s.thread j).pc.ops ∨ .getReadyTask ∈ (s.thread j).pc.ops

/-- The step pushes a task on the queue `q`. -/
def pushesOn (q : ℕ) : Op → Bool
  | .pushHead r _ => r = q
  | _ => false

/-- Thread `j` has still to push a task on the queue `q`. -/
def Pushes (s : SchedulerState) (j q : ℕ) : Prop :=
  ∃ op ∈ (s.thread j).pc.ops, pushesOn q op = true

/-- A call ends below 2^31, and begins when the other threads wait, or do no harm and take part in
it; a further block begins when no other thread is about to pop the head of its queue, and a task
that uses the queue of its thread when no other thread has still to push a task on it. -/
def Undisturbed (s : SchedulerState) : Move → Prop
  | .call n => W.endIndex n < 2 ^ 31 ∧ ∀ j < W.fStaticNumThreads, j ≠ 0 →
    Waits s j ∨ W.Harmless s j ∧ j < W.numThreads
  | .step i =>
    ((s.thread i).pc.ops.head? = some .ifMore → s.fIndex < s.fFullcount →
      ∀ j < W.numThreads, j ≠ i → ¬ PopsHead s j) ∧
    ((s.thread i).pc = .switch → ∀ block ∈ W.G.caseBlock (s.thread i).tasknum,
      (W.expands i block).any Op.usesQueue = true → ∀ j < W.numThreads, j ≠ i → ¬ Pushes s j i)

/-! ## The queues that a code uses -/

/-- Thread `i` may initialise the queues. Every other thread uses its own queue, and does not use
it as long as thread `i` has still to initialise it. -/
structure Initialises (i : ℕ) (s : SchedulerState) : Prop where
  own : ∀ j < W.numThreads, j ≠ i → ∀ ops, (s.thread j).pc = .code ops → ∀ op ∈ ops,
    ∀ q, ownedQueue j op = some q → q = j
  other : ∀ j < W.numThreads, j ≠ i → ∀ ops ops', (s.thread i).pc = .code ops →
    (s.thread j).pc = .code ops' → (∃ op ∈ ops, ownedQueue i op = some j) →
    ∀ op ∈ ops', op.usesQueue = false

variable {W} {s s' : SchedulerState} {i j : ℕ} {n : ℤ}

lemma usesQueue_of_ownedQueue {op : Op} {q : ℕ} (h : ownedQueue i op = some q) :
    op.usesQueue = true := by
  cases op with
  | pushHead q t => rfl
  | popHead => rfl
  | initOne q => rfl
  | _ => cases h

/-- No queue has two owners. -/
theorem Initialises.owner {i : ℕ} (h : W.Initialises i s) {a b q : ℕ} (ha : a < W.numThreads)
    (hb : b < W.numThreads) (howns : Owns s a q) (howns' : Owns s b q) : a = b := by
  -- an owner that is not `i` has its own queue, and then `i` is not an owner
  have hnot : ∀ {a : ℕ}, a < W.numThreads → a ≠ i → Owns s a q → q = a ∧ ¬ Owns s i q := by
    rintro a ha hai ⟨op, rest, hpc, hop⟩
    have hq : q = a := h.own a ha hai _ hpc op List.mem_cons_self q hop
    refine ⟨hq, ?_⟩
    rintro ⟨op', rest', hpc', hop'⟩
    have huse := h.other a ha hai _ _ hpc' hpc ⟨op', List.mem_cons_self, hq ▸ hop'⟩ op
      List.mem_cons_self
    rw [usesQueue_of_ownedQueue hop] at huse
    cases huse
  by_cases hai : a = i
  · by_contra hne
    have hbi : b ≠ i := fun hbi => hne (hai.trans hbi.symm)
    exact (hnot hb hbi howns').2 (hai ▸ howns)
  · by_cases hbi : b = i
    · exact absurd (hbi ▸ howns') (hnot ha hai howns).2
    · rw [← (hnot ha hai howns).1, ← (hnot hb hbi howns').1]

/-- A `case` does not initialise the queues. -/
lemma initTaskList_notMem {t : ℕ} {block : List Instr} (h : W.G.caseBlock t = some block)
    (cur : CurThread) : .initTaskList cur ∉ block := by
  have hmem : block ∈ W.G.generateDAGLoopWSS.map Prod.snd := by
    obtain ⟨l₁, l₂, heq, -⟩ := List.lookup_eq_some_iff.mp h
    rw [heq]
    simp
  have hactivate : ∀ p, .initTaskList cur ∉ W.G.activation p := by
    intro p
    have hout : ∀ keep s, .initTaskList cur ∉ W.G.activateOutput keep s := by
      intro keep s
      unfold activateOutput
      split
      · split <;> simp
      · split <;> simp
    unfold activation
    split
    · unfold activateLast
      split <;> simp
    · unfold activateOutputs
      split
      · split <;> simp
      · split <;> simp [hout]
  simp only [generateDAGLoopWSS, List.map_cons, List.map_map, List.mem_cons] at hmem
  rcases hmem with rfl | rfl | hmem
  · simp
  · simp
  · obtain ⟨c, hc, rfl⟩ := List.mem_map.mp hmem
    have hc' : c.1 ∈ W.G.caseBlocks := List.mem_of_getElem? (List.mem_zipIdx_iff_getElem?.mp hc)
    rw [caseBlocks_eq] at hc'
    obtain ⟨p, -, hp⟩ := List.mem_map.mp hc'
    show _ ∉ c.1
    rw [← hp]
    simp [hactivate]

/-- A thread that begins a `case` uses its own queue. -/
lemma ownedQueue_caseBlock {t : ℕ} {block : List Instr} (h : W.G.caseBlock t = some block)
    {op : Op} (hop : op ∈ W.expands i block) {q : ℕ} (hq : ownedQueue i op = some q) : q = i := by
  obtain ⟨instr, hinstr, hop⟩ := List.mem_flatMap.mp hop
  cases instr with
  | initTaskList cur => exact absurd hinstr (initTaskList_notMem h cur)
  | pushHead task =>
    cases List.mem_singleton.mp hop
    cases hq
    rfl
  | _ =>
    cases List.mem_singleton.mp hop
    cases hq

/-- After a step of code, the code uses no more queues than before, but to initialise them. -/
lemma execOp_code (s : SchedulerState) (i : ℕ) (op : Op) (rest : List Op)
    (hmore : op = .ifMore → ¬ s.fIndex < s.fFullcount) :
    ∃ ops, ((W.execOp s i op rest).thread i).pc = .code ops ∧
      ∀ op' ∈ ops, op' ∈ rest ∨ op'.usesQueue = false ∧ ownedQueue i op' = none ∨
        op.usesQueue = true ∧ ownedQueue i op' = some i := by
  have hrest : ∀ op' ∈ rest, op' ∈ rest ∨ op'.usesQueue = false ∧ ownedQueue i op' = none ∨
      op.usesQueue = true ∧ ownedQueue i op' = some i := fun op' hop' => .inl hop'
  -- one more step is done first
  have hcons : ∀ op₁ : Op, op₁.usesQueue = false ∧ ownedQueue i op₁ = none ∨
      op.usesQueue = true ∧ ownedQueue i op₁ = some i → ∀ op' ∈ op₁ :: rest,
      op' ∈ rest ∨ op'.usesQueue = false ∧ ownedQueue i op' = none ∨
        op.usesQueue = true ∧ ownedQueue i op' = some i := by
    intro op₁ hop₁ op' hop'
    rcases List.mem_cons.mp hop' with rfl | hop'
    · exact .inr hop₁
    · exact .inl hop'
  cases op with
  | getNextTask j m =>
    simp only [execOp]
    split
    · exact ⟨rest, by simp, hrest⟩
    · split
      · exact ⟨_, by simp, hcons (.getNextTask (j + 1) m) (.inl ⟨rfl, rfl⟩)⟩
      · exact ⟨rest, by simp, hrest⟩
  | ifMore =>
    simp only [execOp, hmore rfl, if_false]
    exact ⟨rest, by simp, hrest⟩
  | activateOutputTask1 t =>
    simp only [execOp]
    split
    · split
      · exact ⟨rest, by simp, hrest⟩
      · exact ⟨_, by simp, hcons (.pushHead i t) (.inr ⟨rfl, rfl⟩)⟩
    · exact ⟨rest, by simp, hrest⟩
  | activateOutputTask2 t =>
    simp only [execOp]
    split
    · exact ⟨_, by simp, hcons (.pushHead i t) (.inr ⟨rfl, rfl⟩)⟩
    · exact ⟨rest, by simp, hrest⟩
  | activateOneOutputTask t =>
    simp only [execOp]
    split
    · exact ⟨rest, by simp, hrest⟩
    · exact ⟨_, by simp, hcons .popHead (.inr ⟨rfl, rfl⟩)⟩
  | getReadyTask =>
    simp only [execOp]
    split
    · exact ⟨_, by simp, hcons .popHead (.inr ⟨rfl, rfl⟩)⟩
    · exact ⟨rest, by simp, hrest⟩
  | popHead =>
    simp only [execOp]
    split <;> exact ⟨rest, by simp, hrest⟩
  | _ => exact ⟨rest, by simp [execOp], hrest⟩

/-! ## What a thread can do while another one initialises a block -/

/-- The step runs a task or begins a further block. -/
def InTask (op : Op) : Prop := (∃ p, op = .loop p) ∨ op = .addIndex ∨ op = .ifMore

lemma TailOp.not_inTask {op : Op} (h : W.TailOp op) : ¬ InTask op := by
  rintro (⟨p, rfl⟩ | rfl | rfl)
  · exact h
  · exact h
  · exact h

/-- Code that does something else than to activate or to run tasks initialises a block. -/
lemma Code.initCode {ops : List Op} (h : W.Code ops) {op : Op} (hop : op ∈ ops)
    (htail : ¬ W.TailOp op) (htask : ¬ InTask op) : W.InitCode ops := by
  cases h with
  | tail h => exact absurd (h.op op hop) htail
  | init h => exact h
  | loop hp h =>
    rcases List.mem_cons.mp hop with rfl | hop
    · exact absurd (.inl ⟨_, rfl⟩) htask
    · exact absurd (h.tail.op op hop) htail
  | last =>
    simp only [List.mem_cons, List.not_mem_nil, or_false] at hop
    rcases hop with rfl | rfl | rfl
    · exact absurd (.inr (.inl rfl)) htask
    · exact absurd (.inr (.inr rfl)) htask
    · exact absurd (.inl rfl) htail
  | more =>
    simp only [List.mem_cons, List.not_mem_nil, or_false] at hop
    rcases hop with rfl | rfl
    · exact absurd (.inr (.inr rfl)) htask
    · exact absurd (.inl rfl) htail

/-- While a thread resets the queues no task is held. -/
lemma InCall.tokens_eq_zero (h : W.InCall n s) (hi : i < W.numThreads) {ops : List Op}
    (hpc : (s.thread i).pc = .code ops) {q : ℕ} (hop : .initOne q ∈ ops) (hj : j < W.numThreads)
    (hswitch : (s.thread j).pc = .switch) : (s.thread j).tasknum = workStealingIndex := by
  have hheld : W.threadTokens (s.thread j) = [] →
      (s.thread j).tasknum = workStealingIndex := by
    intro htok
    rw [threadTokens, hswitch] at htok
    by_contra hne
    rw [held_of_ne hne] at htok
    cases htok
  cases h.phase with
  | starting h => exact absurd hswitch (h.not_switch hj)
  | opening h =>
    by_cases hj0 : j = 0
    · rcases h.code with hpc' | ⟨-, hpc'⟩
      · rw [hj0, hpc'] at hswitch
        cases hswitch
      · rw [hj0, hpc'] at hswitch
        cases hswitch
    · exact hheld (h.other j hj hj0).tokens
  | block h hphase =>
    rcases hphase with hrun | hfin
    · have hinit := (hrun.code i hi ops hpc).initCode hop id (by simp [InTask])
      have hsources := sources_of_mem hi fun u hu => by
        rw [threadNotifies_init hpc hinit]
        exact hinit.mem_notifies hu
      exact hheld (threadTokens_eq_nil (hrun.balanced.tokens_eq_zero_of_sources hsources) hj)
    · exact hheld (threadTokens_eq_nil hfin.tokens hj)
  | idling h _ =>
    by_cases hj0 : j = 0
    · rw [hj0] at hswitch
      rcases h.master with hpc' | hpc' | ⟨ops', hpc', -⟩
      · rw [hpc'] at hswitch
        cases hswitch
      · rw [hpc'] at hswitch
        cases hswitch
      · rw [hpc'] at hswitch
        cases hswitch
    · exact (h.other j hj hj0).tasknum (.inr (.inr hswitch))

lemma StartOp.not_inTask {op : Op} (h : W.StartOp op) : ¬ InTask op := by
  rintro (⟨p, rfl⟩ | rfl | rfl)
  · rcases h with h | ⟨q, t, heq, -⟩ | ⟨j, heq⟩
    · exact h
    · cases heq
    · cases heq
  · rcases h with h | ⟨q, t, heq, -⟩ | ⟨j, heq⟩
    · exact h
    · cases heq
    · cases heq
  · rcases h with h | ⟨q, t, heq, -⟩ | ⟨j, heq⟩
    · exact h
    · cases heq
    · cases heq

lemma not_inTask_compute {op : Op} (h : op ∈ W.compute n) : ¬ InTask op := by
  rw [compute_eq] at h
  rcases List.mem_append.mp h with hop | hop
  · rcases mem_startup hop with rfl | rfl | hinit
    · rintro (⟨p, heq⟩ | heq | heq) <;> cases heq
    · rintro (⟨p, heq⟩ | heq | heq) <;> cases heq
    · exact StartOp.not_inTask (W := W) (.inl hinit)
  · exact (startOp_dispatch op hop).not_inTask

/-- At the beginning of a call, and in a call on no samples, no task is run. -/
lemma InCall.not_inTask (h : W.InCall n s) (hi : i < W.numThreads) {ops : List Op}
    (hpc : (s.thread i).pc = .code ops) {op : Op} (hop : op ∈ ops) (htask : InTask op) :
    W.Computing n s ∧ (W.Running s ∨ W.Finished s) := by
  have hcode : ∀ ops', (s.thread i).pc = .code ops' → ∀ {P : Prop},
      (∀ op ∈ ops', ¬ InTask op) → P := by
    intro ops' hpc' P hnot
    rw [hpc] at hpc'
    cases hpc'
    exact absurd htask (hnot op hop)
  cases h.phase with
  | starting h =>
    by_cases hi0 : i = 0
    · obtain ⟨pre, op', rest, heq, hpc', -⟩ := h.code
      refine hcode _ (hi0 ▸ hpc') fun op hop => not_inTask_compute (W := W) (n := n) ?_
      rw [compute_eq, heq, List.append_assoc]
      exact List.mem_append_right _ hop
    · rw [(h.idle i hi hi0).1] at hpc
      cases hpc
  | opening h =>
    by_cases hi0 : i = 0
    · rcases h.code with hpc' | ⟨-, hpc'⟩
      · exact hcode _ (hi0 ▸ hpc') fun op hop => not_inTask_compute hop
      · exact hcode _ (hi0 ▸ hpc') fun op hop => not_inTask_compute (List.mem_of_mem_tail hop)
    · exact hcode _ hpc fun op hop => (((h.other i hi hi0).code ops hpc).tail.op op hop).not_inTask
  | block h hphase => exact ⟨h, hphase⟩
  | idling h _ =>
    by_cases hi0 : i = 0
    · rw [hi0] at hpc
      rcases h.master with hpc' | hpc' | ⟨ops', hpc', hops⟩
      · rw [hpc] at hpc'
        cases hpc'
      · rw [hpc] at hpc'
        cases hpc'
      · exact hcode _ (hi0 ▸ hpc') fun op hop => (hops op hop).not_inTask
    · exact hcode _ hpc fun op hop => (((h.other i hi hi0).code ops hpc).tail.op op hop).not_inTask

/-- A thread that begins a further block is in a state with a block to compute. -/
lemma InCall.running (h : W.InCall n s) (hi : i < W.numThreads) {rest : List Op}
    (hpc : (s.thread i).pc = .code (.ifMore :: rest)) (hlt : s.fIndex < s.fFullcount) :
    W.Running s := by
  obtain ⟨-, hphase⟩ := h.not_inTask hi hpc List.mem_cons_self (.inr (.inr rfl))
  exact hphase.resolve_right fun hfin => absurd hlt (not_lt.mpr hfin.le)

/-- No task runs before the counters of the block have been initialised. -/
theorem InCall.counters (h : W.InCall n s) (hi : i < W.numThreads) (hj : j < W.numThreads)
    (hruns : RunsTask s i) : ¬ BeforeCounters s j := by
  rintro ⟨ops, hpc', hbefore⟩
  obtain ⟨op, rest, hpc, hop⟩ := hruns
  obtain ⟨-, hphase⟩ := h.not_inTask hi hpc List.mem_cons_self (hop.imp_right .inl)
  -- the thread `i` holds a task
  have hmem : ∃ u, u ∈ W.threadTokens (s.thread i) := by
    rw [threadTokens_code hpc, tokens_cons]
    rcases hop with ⟨p, rfl⟩ | rfl
    · exact ⟨_, List.mem_append_left _ (List.mem_append_left _ (List.mem_singleton_self _))⟩
    · exact ⟨_, List.mem_append_left _ (List.mem_append_left _ (List.mem_singleton_self _))⟩
  obtain ⟨u, hu⟩ := hmem
  have hzero : (∀ u, (W.ledger s).tokens u = 0) → False := fun htok => by
    rw [threadTokens_eq_nil htok hi] at hu
    cases hu
  rcases hphase with hrun | hfin
  · refine hzero (hrun.balanced.tokens_eq_zero_of_sources (sources_of_mem hj fun u hu => ?_))
    rcases hbefore with ⟨t, count, hmem⟩ | ⟨hhead, -⟩
    · have hinit := (hrun.code j hj ops hpc').initCode hmem id (by simp [InTask])
      rw [threadNotifies_init hpc' hinit]
      exact hinit.mem_notifies hu
    · exact (hrun.code j hj ops hpc').mem_notifies (t := 0) hpc' (.inr hhead) hu
  · exact hzero hfin.tokens

/-! ## The next block -/

/-- When a thread announces the ready tasks, no other thread announces a task. -/
lemma Running.not_announced (h : W.Running s) (hi : i < W.numThreads)
    (hready : ∀ u ∈ W.G.readyLoop, u ∈ W.threadNotifies (s.thread i)) (hj : j < W.numThreads)
    (hij : i ≠ j) {t : ℕ} (ht : W.G.dag.IsTask t) : t ∉ W.threadNotifies (s.thread j) := by
  intro hmem
  have hdone := h.balanced.done_eq_empty (sources_of_mem hi hready)
  have hbound := h.balanced.bound t ht
  have hcount := List.count_pos_iff.mpr hmem
  rw [Ledger.pending, hdone, Finset.sdiff_empty] at hbound
  by_cases hpreds : W.G.dag.preds t = ∅
  · -- both threads announce a ready task
    have hcount' := List.count_pos_iff.mpr (hready t ((source_iff ht).mp hpreds))
    have htwo : (W.threadNotifies (s.thread i)).count t +
        (W.threadNotifies (s.thread j)).count t ≤ (W.ledger s).announced t :=
      Family.add_le_sum (fun th => (W.threadNotifies th).count t) s.thread hi hj hij
    rw [hpreds, Finset.card_empty] at hbound
    omega
  · have hpos := Finset.card_pos.mpr (Finset.nonempty_iff_ne_empty.mpr hpreds)
    have hle := notifies_count_le (s := s) hj t
    omega

/-- There is a ready task. -/
lemma exists_readyLoop (W : Wss) : ∃ t ∈ W.G.readyLoop, W.G.dag.IsTask t := by
  obtain ⟨t, ht, -, hpreds⟩ : ∃ t, W.G.dag.IsTask t ∧ ¬ False ∧ ∀ p ∈ W.G.dag.preds t, False :=
    TaskDag.exists_ready (.inr rfl) id
  exact ⟨t, (source_iff ht).mp (Finset.eq_empty_of_forall_notMem hpreds), ht⟩

/-- When a thread is about to begin a further block, the others do not use their queues. -/
lemma Running.not_usesQueue (h : W.Running s) (hi : i < W.numThreads) {rest : List Op}
    (hpc : (s.thread i).pc = .code (.ifMore :: rest)) (hj : j < W.numThreads) (hij : i ≠ j)
    (hpop : ¬ PopsHead s j) {ops : List Op} (hops : (s.thread j).pc = .code ops) :
    ∀ op ∈ ops, op.usesQueue = false := by
  have hready : ∀ u ∈ W.G.readyLoop, u ∈ W.threadNotifies (s.thread i) := fun u hu =>
    (h.code i hi _ hpc).mem_notifies (t := 0) hpc (.inr rfl) hu
  have hnot := fun t (ht : W.G.dag.IsTask t) => h.not_announced hi hready hj hij ht
  have htok := threadTokens_eq_nil
    (h.balanced.tokens_eq_zero_of_sources (sources_of_mem hi hready)) hj
  rw [threadTokens_code hops, List.append_eq_nil_iff] at htok
  obtain ⟨t, ht, htask⟩ := W.exists_readyLoop
  cases h.code j hj ops hops with
  | tail htail =>
    rw [PopsHead, hops] at hpop
    refine htail.usesQueue ?_ htok.1 (fun hmem => hpop (.inl hmem)) (fun hmem => hpop (.inr hmem))
    refine List.eq_nil_iff_forall_not_mem.mpr fun u hu => hnot u (htail.isTask hu) ?_
    rwa [threadNotifies_tail hops htail]
  | init hinit =>
    refine absurd ?_ (hnot t htask)
    rw [threadNotifies_init hops hinit]
    exact hinit.mem_notifies ht
  | loop hp hann => cases htok.1
  | last => cases htok.1
  | more =>
    refine absurd ?_ (hnot t htask)
    exact Code.more.mem_notifies (t := 0) hops (.inr rfl) ht

/-! ## One thread initialises the queues -/

/-- A step of the thread `k`, which goes on with code that is not more harmful. -/
lemma Initialises.next {k : ℕ} (h : W.Initialises i s)
    (hthread : ∀ j ≠ k, s'.thread j = s.thread j)
    (hown : ∀ ops, (s'.thread k).pc = .code ops → ∀ op ∈ ops, ∀ q, ownedQueue k op = some q →
      q = k ∨ k = i ∧ ∃ ops', (s.thread i).pc = .code ops' ∧ op ∈ ops')
    (hother : k ≠ i → k < W.numThreads → ∀ ops ops', (s.thread i).pc = .code ops →
      (s'.thread k).pc = .code ops' → (∃ op ∈ ops, ownedQueue i op = some k) →
      ∀ op ∈ ops', op.usesQueue = false) : W.Initialises i s' where
  own j hj hji ops hops op hop q hq := by
    by_cases hjk : j = k
    · subst hjk
      exact (hown ops hops op hop q hq).resolve_right fun hor => hji hor.1
    · rw [hthread j hjk] at hops
      exact h.own j hj hji ops hops op hop q hq
  other j hj hji ops ops' hops hops' hex := by
    by_cases hki : i = k
    · -- what is left to initialise was left before
      subst hki
      obtain ⟨op, hop, hq⟩ := hex
      rw [hthread j hji] at hops'
      rcases hown ops hops op hop j hq with heq | ⟨-, ops₁, hops₁, hop₁⟩
      · exact absurd heq hji
      · exact h.other j hj hji ops₁ ops' hops₁ hops' ⟨op, hop₁, hq⟩
    · rw [hthread i hki] at hops
      by_cases hjk : j = k
      · subst hjk
        exact hother hji hj ops ops' hops hops' hex
      · rw [hthread j hjk] at hops'
        exact h.other j hj hji ops ops' hops hops' hex

/-- The step of the thread `k` begins a further block. -/
lemma Initialises.more {k : ℕ} (hthread : ∀ j ≠ k, s'.thread j = s.thread j)
    (hnot : ∀ j < W.numThreads, k ≠ j → ∀ ops, (s.thread j).pc = .code ops →
      ∀ op ∈ ops, op.usesQueue = false) : W.Initialises k s' where
  own j hj hjk ops hops op hop q hq := by
    rw [hthread j hjk] at hops
    have huse := hnot j hj (Ne.symm hjk) ops hops op hop
    rw [usesQueue_of_ownedQueue hq] at huse
    cases huse
  other j hj hjk ops ops' _ hops' _ := by
    rw [hthread j hjk] at hops'
    exact hnot j hj (Ne.symm hjk) ops' hops'

theorem Initialises.step {k : ℕ} (h : W.Initialises i s) (hi : i < W.numThreads)
    (hcall : W.InCall n s) (hk : k < W.numThreads) (hstep : W.step s k = some s')
    (hund : W.Undisturbed s (.step k)) : ∃ i < W.numThreads, W.Initialises i s' := by
  obtain ⟨hmore, htask⟩ := hund
  have hthread := (step_frame hstep).1
  -- the thread is not in a block of code any more
  have hquiet : (∀ ops, (s'.thread k).pc ≠ .code ops) → ∃ i < W.numThreads, W.Initialises i s' :=
    fun hpc => ⟨i, hi, h.next hthread (fun ops hops => absurd hops (hpc ops))
      fun _ _ _ ops' _ hops' => absurd hops' (hpc ops')⟩
  have hstep' := hstep
  unfold Wss.step at hstep'
  cases hpc : (s.thread k).pc with
  | idle =>
    simp only [hpc] at hstep'
    split at hstep'
    · cases hstep'
      exact hquiet (by simp)
    · cases hstep'
  | test =>
    simp only [hpc] at hstep'
    split at hstep'
    · cases hstep'
      exact hquiet (by simp)
    · cases hstep'
      exact hquiet (by simp)
  | loadIndex =>
    simp only [hpc] at hstep'
    cases hstep'
    exact hquiet (by simp [SchedulerState.setThread])
  | loadCount =>
    simp only [hpc] at hstep'
    cases hstep'
    exact hquiet (by simp [SchedulerState.setThread])
  | switch =>
    simp only [hpc] at hstep'
    split at hstep'
    · rename_i block hblock
      cases hstep'
      have hself : ((s.goto k (.code (W.expands k block))).thread k).pc =
          .code (W.expands k block) := by simp
      refine ⟨i, hi, h.next hthread (fun ops hops op hop q hq => .inl ?_)
        fun hki _ ops ops' hops hops' hex => ?_⟩
      · rw [hself] at hops
        cases hops
        exact ownedQueue_caseBlock hblock hop hq
      · rw [hself] at hops'
        cases hops'
        by_contra huse
        push Not at huse
        obtain ⟨op', hop', huse⟩ := huse
        obtain ⟨op, hop, hq⟩ := hex
        have hany : (W.expands k block).any Op.usesQueue = true :=
          List.any_eq_true.mpr ⟨op', hop', by simpa using huse⟩
        cases op with
        | pushHead q t =>
          cases hq
          refine htask hpc block hblock hany i hi (Ne.symm hki) ⟨.pushHead k t, ?_, by simp [pushesOn]⟩
          rwa [hops]
        | popHead =>
          cases hq
          exact hki rfl
        | initOne q =>
          -- the queues are being reset, and nobody holds a task
          have hw := hcall.tokens_eq_zero hi hops hop hk hpc
          rw [hw, caseBlock_workStealing] at hblock
          cases hblock
          cases hany
        | _ => cases hq
    · cases hstep'
      exact hquiet (by simp)
  | code ops =>
    cases ops with
    | nil =>
      simp only [hpc] at hstep'
      cases hstep'
      exact hquiet (by simp)
    | cons op rest =>
      simp only [hpc, Option.some.injEq] at hstep'
      by_cases hlt : op = .ifMore ∧ s.fIndex < s.fFullcount
      · obtain ⟨rfl, hlt⟩ := hlt
        have hrun := hcall.running hk hpc hlt
        have hhead : (s.thread k).pc.ops.head? = some .ifMore := by rw [hpc]; rfl
        exact ⟨k, hk, .more hthread fun j hj hkj ops hops =>
          hrun.not_usesQueue hk hpc hj hkj (hmore hhead hlt j hj (Ne.symm hkj)) hops⟩
      · obtain ⟨ops, hops, hmem⟩ := execOp_code s k op rest fun heq hlt' => hlt ⟨heq, hlt'⟩
        rw [hstep'] at hops
        refine ⟨i, hi, h.next hthread (fun ops' hops' op' hop' q hq => ?_)
          fun hki _ ops₁ ops' hops₁ hops' hex op' hop' => ?_⟩
        · rw [hops] at hops'
          cases hops'
          rcases hmem op' hop' with hmem | ⟨-, hnone⟩ | ⟨-, hself⟩
          · by_cases hki : k = i
            · exact .inr ⟨hki, op :: rest, hki ▸ hpc, List.mem_cons_of_mem _ hmem⟩
            · exact .inl (h.own k hk hki _ hpc op' (List.mem_cons_of_mem _ hmem) q hq)
          · rw [hnone] at hq
            cases hq
          · rw [hself] at hq
            cases hq
            exact .inl rfl
        · rw [hops] at hops'
          cases hops'
          have hold := h.other k hk hki ops₁ _ hops₁ hpc hex
          rcases hmem op' hop' with hmem | ⟨hnot, -⟩ | ⟨huse, -⟩
          · exact hold op' (List.mem_cons_of_mem _ hmem)
          · exact hnot
          · rw [hold op List.mem_cons_self] at huse
            cases huse

/-- At the beginning of a call the master thread initialises the queues. -/
lemma Initialises.call (m : ℤ) (hcalm : ∀ j < W.numThreads, j ≠ 0 → ∀ ops,
    (s.thread j).pc = .code ops → ∀ op ∈ ops, op.usesQueue = false) :
    W.Initialises 0 (W.call s m) := by
  refine .more (k := 0) (s := s) (fun j hj => Function.update_of_ne hj _ _)
    fun j hj hj0 => hcalm j hj (Ne.symm hj0)

/-! ## Sequences of calls -/

/-- The invariant of a sequence of undisturbed calls. -/
theorem session_invariant (h : Session Undisturbed W n s) :
    W.InCall n s ∧ ∃ i < W.numThreads, W.Initialises i s := by
  induction h with
  | @start W s n h hn hallowed =>
    refine ⟨⟨hn, hallowed.1, h.confined n, .starting (h.starting n)⟩, 0, W.numThreads_pos,
      .call n fun j hj _ ops hops => ?_⟩
    rw [(h.idle j (hj.trans_le W.numThreads_le)).1] at hops
    cases hops
  | step i _ hi hstep hallowed ih =>
    obtain ⟨hcall, k, hk, hinit⟩ := ih
    have hlt := hcall.confined.lt hi hstep
    exact ⟨hcall.step hlt hstep, hinit.step hk hcall hlt hstep hallowed⟩
  | @call W n s timing m _ hreturned hm hallowed ih =>
    obtain ⟨hcall, -⟩ := ih
    obtain ⟨hend, hother⟩ := hallowed
    refine ⟨hcall.call hreturned hother hm hend, 0, (W.syncAll timing).numThreads_pos, .call m ?_⟩
    intro j hj hj0 ops hops
    have hstatic := hj.trans_le (W.syncAll timing).numThreads_le
    exact ((hcall.calm_of_other hreturned hother hstatic hj0).code ops hops).usesQueue

/-- A thread in a block of code takes part in the call. -/
lemma Confined.lt_of_code (h : W.Confined s) (hi : i < W.fStaticNumThreads) {ops : List Op}
    (hpc : (s.thread i).pc = .code ops) : i < W.numThreads :=
  (h.lt_or_waits hi).resolve_right fun hwaits => by
    rw [hwaits.1] at hpc
    cases hpc

/-- In a sequence of undisturbed calls the queues are consistent. -/
theorem session_consistent (h : Session Undisturbed W n s) : W.Consistent n s := by
  obtain ⟨hcall, i, -, hinit⟩ := session_invariant h
  have hlt := fun {a : ℕ} => hcall.confined.lt_of_code (i := a)
  exact {
    owner := fun a ha b hb q howns howns' => by
      obtain ⟨_, _, hpc, _⟩ := id howns
      obtain ⟨_, _, hpc', _⟩ := id howns'
      exact hinit.owner (hlt ha hpc) (hlt hb hpc') howns howns'
    once := hcall.nodup
    complete := fun hidle k => hcall.complete hidle
    returns := hcall.return
    counters := fun a ha b hb hruns hbefore => by
      obtain ⟨_, _, hpc, _⟩ := id hruns
      obtain ⟨_, hpc', _⟩ := id hbefore
      exact hcall.counters (hlt ha hpc) (hlt hb hpc') hruns hbefore }

/-! ## Runs of some sequences of calls -/

instance (s : SchedulerState) (j : ℕ) : Decidable (Waits s j) := inferInstanceAs (Decidable (_ ∧ _))

instance (W : Wss) (s : SchedulerState) (j : ℕ) : Decidable (W.Harmless s j) :=
  decidable_of_iff (_ ∧ _ ∧ _) ⟨fun h => ⟨h.1, h.2.1, h.2.2⟩, fun h => ⟨h.tokens, h.queue, h.code⟩⟩

instance (s : SchedulerState) (j : ℕ) : Decidable (PopsHead s j) :=
  inferInstanceAs (Decidable (_ ∨ _))

instance (s : SchedulerState) (j q : ℕ) : Decidable (Pushes s j q) :=
  inferInstanceAs (Decidable (∃ op ∈ _, _))

instance (W : Wss) (s : SchedulerState) : ∀ move, Decidable (W.Undisturbed s move)
  | .step _ => inferInstanceAs (Decidable (_ ∧ _))
  | .call _ => inferInstanceAs (Decidable (_ ∧ _))

lemma session_runSteps {allowed : Wss → SchedulerState → Move → Prop}
    {ok : SchedulerState → ℕ → Bool} (hok : ∀ s i, ok s i = true → allowed W s (.step i))
    {is : List ℕ} (h : Session allowed W n s) (hrun : W.runSteps ok is s = some s') :
    Session allowed W n s' := by
  induction is generalizing s with
  | nil =>
    cases hrun
    exact h
  | cons i is ih =>
    simp only [runSteps] at hrun
    split at hrun
    · rename_i hi
      obtain ⟨s₁, hstep, hrest⟩ := Option.bind_eq_some_iff.mp hrun
      exact ih (.step i h (hi.1.trans_le W.numThreads_le) hstep (hok s i hi.2)) hrest
    · cases hrun

/-- The steps that threads take one after the other, each for some time, if nobody disturbs them. -/
def undisturbedSteps (W : Wss) (turns : List (ℕ × ℕ)) (s : SchedulerState) : Option SchedulerState :=
  W.runSteps (fun s i => decide (W.Undisturbed s (.step i)))
    (turns.flatMap fun turn => List.replicate turn.1 turn.2) s

lemma session_undisturbedSteps {turns : List (ℕ × ℕ)} (h : Session Undisturbed W n s)
    (hrun : W.undisturbedSteps turns s = some s') : Session Undisturbed W n s' :=
  session_runSteps (fun _ _ => of_decide_eq_true) h hrun

/-- The diamond on a pool of three threads, two of which take part in the first call. -/
def lateWss : Wss := { diamondWss with fStaticNumThreads := 3, numThreads_le := by decide }

/-- Seven samples on two threads; when the master thread has returned thread 1 is looking for work
in the second of the two queues. The timings are better, so three threads take part in the next
call, on four samples. The late thread finds the first task and runs it. -/
theorem session_consistent_late : ∃ s₁ s₂ s₃,
    (lateWss.Consistent 7 s₁ ∧ (s₁.thread 0).pc = .idle ∧
      (s₁.thread 1).pc = .code [.getNextTask 1 2]) ∧
    ((lateWss.syncAll .better).numThreads = 3 ∧ (lateWss.syncAll .better).Consistent 4 s₂ ∧
      (s₂.thread 1).pc.ops.head? = some (.loop 0)) ∧
    ((lateWss.syncAll .better).Run s₂ s₃ ∧ (lateWss.syncAll .better).Consistent 4 s₃ ∧
      (s₃.thread 0).pc = .idle ∧
      s₃.log = [.loop 0 0 4, .loop 1 0 4, .loop 2 0 4, .loop 3 0 4, .last 0]) := by
  set W := lateWss.syncAll .better with hW
  have hruns : ((lateWss.undisturbedSteps
      [(30, 0), (18, 0), (9, 0), (21, 1), (19, 0), (21, 1), (10, 0)]
      (lateWss.call restState 7)).bind fun s₁ =>
        (W.undisturbedSteps [(7, 0), (12, 1)] (W.call { s₁ with log := [] } 4)).bind fun s₂ =>
          (W.undisturbedSteps [(15, 0), (15, 2), (8, 1), (29, 1), (5, 0)] s₂).map fun s₃ =>
            (((s₁.thread 0).pc, (s₁.thread 1).pc, decide (W.Undisturbed s₁ (.call 4))),
              (s₂.thread 1).pc.ops.head?, (s₃.thread 0).pc, s₃.log)) =
      some ((.idle, .code [.getNextTask 1 2], true), some (.loop 0), .idle,
        [.loop 0 0 4, .loop 1 0 4, .loop 2 0 4, .loop 3 0 4, .last 0]) := by
    decide +kernel
  obtain ⟨s₁, hrun₁, hruns⟩ := Option.bind_eq_some_iff.mp hruns
  obtain ⟨s₂, hrun₂, hruns⟩ := Option.bind_eq_some_iff.mp hruns
  obtain ⟨s₃, hrun₃, hruns⟩ := Option.map_eq_some_iff.mp hruns
  simp only [Prod.mk.injEq, decide_eq_true_iff] at hruns
  obtain ⟨⟨hidle, hlate, hcall⟩, hloop, hidle₃, hlog⟩ := hruns
  have hsession₁ := session_undisturbedSteps
    (.start 7 (quiescent_restState lateWss) (by decide) (by decide)) hrun₁
  have hsession₂ := session_undisturbedSteps (.call .better 4 hsession₁ hidle (by decide) hcall) hrun₂
  have hsession₃ := session_undisturbedSteps hsession₂ hrun₃
  exact ⟨s₁, s₂, s₃, ⟨session_consistent hsession₁, hidle, hlate⟩,
    ⟨rfl, session_consistent hsession₂, hloop⟩,
    run_runSteps hrun₃, session_consistent hsession₃, hidle₃, hlog⟩

/-- When every move is allowed they are not: the second thread ends the first call and has still to
test whether there is a further block. The master thread returns, calls `compute` again and runs
the first loop. Now the test succeeds, and the second thread runs this loop too. -/
theorem not_session_consistent_diamond :
    ¬ ∀ W n s, Session (fun _ _ _ => True) W n s → W.Consistent n s := by
  intro hall
  have hrun : ((diamondWss.runSteps (fun _ _ => true)
      (List.replicate 8 0 ++ List.replicate 42 1 ++ [0]) (diamondWss.call restState 4)).bind
      fun s => ((diamondWss.syncAll .same).runSteps (fun _ _ => true)
        (List.replicate 19 0 ++ List.replicate 19 1)
        ((diamondWss.syncAll .same).call { s with log := [] } 4)).map fun s' =>
          ((s.thread 0).pc, s'.log)) =
      some (.idle, [.loop 0 0 4, .loop 0 0 4]) := by
    decide +kernel
  obtain ⟨s, hfirst, hrun⟩ := Option.bind_eq_some_iff.mp hrun
  obtain ⟨s', hsecond, heq⟩ := Option.map_eq_some_iff.mp hrun
  obtain ⟨hidle, hlog⟩ := Prod.mk.inj heq
  have hsession := session_runSteps (fun _ _ _ => trivial)
    (.start 4 (quiescent_restState diamondWss) (by decide) trivial :
      Session (fun _ _ _ => True) diamondWss 4 _) hfirst
  have hsession' := session_runSteps (fun _ _ _ => trivial)
    (.call .same 4 hsession hidle (by decide) trivial) hsecond
  have honce := (hall _ 4 s' hsession').once
  rw [hlog] at honce
  simp at honce

end Faust.Wss
