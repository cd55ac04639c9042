import Faust.Scheduler.StateLedger

/-!
# The invariant of a call

While there is a block of samples to compute, the ledger of the state is balanced, the
activation count of a task is what is pending for it, unless it is about to be reset, and a
thread that holds a task has the index and the number of samples of the block.
-/

namespace Faust.Wss

open LoopGraph Finset

variable (W : Wss)

/-- Code that resets the activation counts and the queues, and then pushes the ready tasks. -/
def InitCode (ops : List Op) : Prop :=
  ∃ iops fin, ops = iops ++ fin ∧ (∀ op ∈ iops, W.InitOp op) ∧ W.Tail fin ∧
    ∀ t ∈ W.G.readyLoop, t ∈ W.notifies fin

/-- The code in which a thread can be. -/
inductive Code : List Op → Prop
  | tail {ops : List Op} (h : W.Tail ops) : Code ops
  | init {ops : List Op} (h : W.InitCode ops) : Code ops
  | loop {p : ℕ} {ops : List Op} (hp : p ∈ W.G.order) (h : W.Announces p ops) :
    Code (.loop p :: ops)
  | last : Code [.addIndex, .ifMore, .storeTasknum workStealingIndex]
  | more : Code [.ifMore, .storeTasknum workStealingIndex]

/-- The code resets the activation count of `t` before it lets another thread use it. -/
def Resets (ops : List Op) (t : ℕ) : Prop :=
  .initTask t (W.G.preds t).length ∈ ops ∨ ops.head? = some .ifMore

/-- Some thread is about to reset the activation count of `t`. -/
def Resetting (s : SchedulerState) (t : ℕ) : Prop :=
  ∃ i < W.numThreads, ∃ ops, (s.thread i).pc = .code ops ∧ W.Resets ops t

/-- The local variables of a thread are those of the current block. -/
def Locals (s : SchedulerState) (th : Thread) : Prop :=
  match th.pc with
  | .loadCount => th.index = s.fIndex
  | .switch | .code (.loop _ :: _) => th.index = s.fIndex ∧ th.count = W.blockCount s
  | _ => True

/-- The invariant while there is a block to compute. -/
structure Running (s : SchedulerState) : Prop where
  lt : s.fIndex < s.fFullcount
  code : ∀ i < W.numThreads, ∀ ops, (s.thread i).pc = .code ops → W.Code ops
  balanced : (W.ledger s).Balanced W.G.dag
  count : ∀ t, W.G.dag.IsTask t → 1 < (W.G.preds t).length →
    W.Resetting s t ∨ s.taskGraph t = (W.ledger s).pending W.G.dag t
  locals : ∀ i < W.numThreads, W.threadTokens (s.thread i) ≠ [] → W.Locals s (s.thread i)
  master : (s.thread 0).pc ≠ .idle

variable {W} {s s' : SchedulerState} {i : ℕ}

/-! ## The code of a thread -/

lemma Tail.not_resets {ops : List Op} (h : W.Tail ops) (t : ℕ) : ¬ W.Resets ops t := by
  rintro (hmem | hhead)
  · exact h.op _ hmem
  · exact h.op _ (List.mem_of_head? hhead)

lemma threadNotifies_code {th : Thread} {op : Op} {rest : List Op}
    (h : th.pc = .code (op :: rest)) (hloop : ∀ p, op ≠ .loop p) (hlast : op ≠ .addIndex) :
    W.threadNotifies th = W.notifies (op :: rest) := by
  rw [threadNotifies, h]
  cases op with
  | loop p => exact absurd rfl (hloop p)
  | addIndex => exact absurd rfl hlast
  | _ => rfl

/-- What the next step of a thread can be. -/
lemma Code.cons_inv {op : Op} {rest : List Op} (h : W.Code (op :: rest)) :
    W.Tail (op :: rest) ∨ W.InitOp op ∧ W.InitCode rest ∨
      (∃ p ∈ W.G.order, op = .loop p ∧ W.Announces p rest) ∨
      op = .addIndex ∧ rest = [.ifMore, .storeTasknum workStealingIndex] ∨
      op = .ifMore ∧ rest = [.storeTasknum workStealingIndex] := by
  cases h with
  | tail h => exact .inl h
  | init h =>
    obtain ⟨iops, fin, heq, hiops, hfin, hready⟩ := h
    cases iops with
    | nil => exact .inl (by rwa [heq, List.nil_append])
    | cons op' iops =>
      obtain ⟨rfl, rfl⟩ := List.cons.inj heq
      exact .inr (.inl ⟨hiops _ List.mem_cons_self, iops, fin, rfl,
        fun op hop => hiops op (List.mem_cons_of_mem _ hop), hfin, hready⟩)
  | loop hp h => exact .inr (.inr (.inl ⟨_, hp, rfl, h⟩))
  | last => exact .inr (.inr (.inr (.inl ⟨rfl, rfl⟩)))
  | more => exact .inr (.inr (.inr (.inr ⟨rfl, rfl⟩)))

lemma InitCode.mem_notifies {ops : List Op} (h : W.InitCode ops) {t : ℕ}
    (ht : t ∈ W.G.readyLoop) : t ∈ W.notifies ops := by
  obtain ⟨iops, fin, rfl, -, -, hready⟩ := h
  rw [notifies_append]
  exact List.mem_append_right _ (hready t ht)

lemma InitCode.op {ops : List Op} (h : W.InitCode ops) {op : Op} (hop : op ∈ ops) :
    W.InitOp op ∨ W.TailOp op := by
  obtain ⟨iops, fin, rfl, hiops, hfin, -⟩ := h
  exact (List.mem_append.mp hop).imp (hiops op) (hfin.op op)

lemma threadNotifies_init {th : Thread} {ops : List Op} (h : th.pc = .code ops)
    (hinit : W.InitCode ops) : W.threadNotifies th = W.notifies ops := by
  cases ops with
  | nil => rw [threadNotifies, h]
  | cons op rest =>
    have hop := hinit.op List.mem_cons_self
    refine threadNotifies_code h (fun p heq => ?_) fun heq => ?_
    · subst heq
      exact hop.elim id id
    · subst heq
      exact hop.elim id id

/-- A thread that is about to reset a count is about to announce the ready tasks. -/
lemma Code.mem_notifies {th : Thread} {ops : List Op} (hpc : th.pc = .code ops)
    (h : W.Code ops) {t : ℕ} (hresets : W.Resets ops t) {u : ℕ} (hu : u ∈ W.G.readyLoop) :
    u ∈ W.threadNotifies th := by
  cases h with
  | tail h => exact absurd hresets (h.not_resets t)
  | init h =>
    rw [threadNotifies_init hpc h]
    exact h.mem_notifies hu
  | loop hp h =>
    rcases hresets with hmem | hhead
    · rcases List.mem_cons.mp hmem with heq | hmem
      · cases heq
      · exact absurd (.inl hmem) (h.tail.not_resets t)
    · cases hhead
  | last => rcases hresets with hmem | hhead <;> simp_all
  | more =>
    rw [threadNotifies_code hpc (by simp) (by simp)]
    exact List.mem_append_left _ hu

lemma source_iff {t : ℕ} (ht : W.G.dag.IsTask t) : W.G.dag.preds t = ∅ ↔ t ∈ W.G.readyLoop := by
  rw [mem_readyLoop, ← Finset.card_eq_zero, card_preds, List.length_eq_zero_iff]
  exact ⟨fun h => ⟨ht, h⟩, fun h => h.2⟩

/-- While a thread announces the ready tasks, nothing has been done. -/
lemma sources_of_mem (hi : i < W.numThreads)
    (h : ∀ u ∈ W.G.readyLoop, u ∈ W.threadNotifies (s.thread i)) :
    ∀ t, W.G.dag.IsTask t → W.G.dag.preds t = ∅ → 0 < (W.ledger s).announced t := by
  intro t ht hpreds
  have := List.count_pos_iff.mpr (h t ((source_iff ht).mp hpreds))
  have := notifies_count_le (s := s) hi t
  omega

namespace Running

lemma sources (h : W.Running s) {t : ℕ} (hr : W.Resetting s t) :
    ∀ t, W.G.dag.IsTask t → W.G.dag.preds t = ∅ → 0 < (W.ledger s).announced t := by
  obtain ⟨i, hi, ops, hpc, hresets⟩ := hr
  exact sources_of_mem hi fun u hu => (h.code i hi ops hpc).mem_notifies hpc hresets hu

/-- Nothing is announced to a task whose count is about to be reset. -/
lemma not_resetting (h : W.Running s) {t : ℕ} (ht : W.G.dag.IsTask t)
    (hlen : 1 < (W.G.preds t).length) (hann : 0 < (W.ledger s).announced t) :
    ¬ W.Resetting s t := by
  intro hr
  have := h.balanced.announced_eq_zero_of_sources (h.sources hr) ht (by rwa [card_preds])
  omega

/-- A queue holds tasks. -/
lemma isTask_of_mem_queue (h : W.Running s) {q : ℕ} (hq : q < W.numThreads) {t : ℕ}
    (ht : t ∈ s.taskQueue q) : W.G.dag.IsTask t := by
  have := List.count_pos_iff.mpr ht
  have := queue_count_le (s := s) hq t
  exact h.balanced.isTask t (by omega)

/-- A thread holds tasks. -/
lemma isTask_of_mem_tokens (h : W.Running s) (hi : i < W.numThreads) {t : ℕ}
    (ht : t ∈ W.threadTokens (s.thread i)) : W.G.dag.IsTask t := by
  have := List.count_pos_iff.mpr ht
  have := thread_count_le (s := s) hi t
  exact h.balanced.isTask t (by omega)

lemma counted (h : W.Running s) (hconf : W.Confined s) (hi : i < W.numThreads) {ops : List Op}
    (hpc : (s.thread i).pc = .code ops) (htail : W.Tail ops) : W.Counted s i ops where
  queue q hq hmem := not_isTask_workStealing (h.isTask_of_mem_queue hq hmem)
  bound t ht := by
    rw [← card_preds]
    exact h.balanced.bound t (htail.isTask ht)
  count t ht hlen := by
    have hann := notifies_count_le (s := s) hi t
    rw [threadNotifies_tail hpc htail] at hann
    have := List.count_pos_iff.mpr ht
    have hnot := h.not_resetting (htail.isTask ht) hlen (by omega)
    exact (h.count t (htail.isTask ht) hlen).resolve_left hnot
  confined := hconf.code i hi ops hpc

/-- The invariant after a step that leaves the block as it is. -/
lemma next (h : W.Running s) (hthread : ∀ j ≠ i, s'.thread j = s.thread j)
    (hindex : s'.fIndex = s.fIndex) (hfull : s'.fFullcount = s.fFullcount)
    (hcode : ∀ ops, (s'.thread i).pc = .code ops → W.Code ops)
    (hbal : (W.ledger s').Balanced W.G.dag)
    (hcount : ∀ t, W.G.dag.IsTask t → 1 < (W.G.preds t).length →
      W.Resetting s t ∨ s.taskGraph t = (W.ledger s).pending W.G.dag t →
      W.Resetting s' t ∨ s'.taskGraph t = (W.ledger s').pending W.G.dag t)
    (hlocals : W.threadTokens (s'.thread i) ≠ [] → W.Locals s' (s'.thread i))
    (hidle : (s'.thread i).pc ≠ .idle) : W.Running s' where
  lt := by rw [hindex, hfull]; exact h.lt
  code j hj ops hpc := by
    by_cases hji : j = i
    · exact hcode ops (hji ▸ hpc)
    · exact h.code j hj ops (hthread j hji ▸ hpc)
  balanced := hbal
  count t ht hlen := hcount t ht hlen (h.count t ht hlen)
  locals j hj htok := by
    by_cases hji : j = i
    · exact hji ▸ hlocals (hji ▸ htok)
    · have hold := h.locals j hj (hthread j hji ▸ htok)
      rw [hthread j hji]
      unfold Locals blockCount at hold ⊢
      rwa [hindex, hfull]
  master := by
    by_cases h0 : 0 = i
    · exact h0 ▸ hidle
    · rw [hthread 0 h0]
      exact h.master

/-- The other threads reset what they reset before. -/
lemma resetting_of_ne (hthread : ∀ j ≠ i, s'.thread j = s.thread j) {t : ℕ}
    (hr : W.Resetting s t)
    (hself : ∀ ops, (s.thread i).pc = .code ops → W.Resets ops t → W.Resetting s' t) :
    W.Resetting s' t := by
  obtain ⟨j, hj, ops, hpc, hresets⟩ := hr
  by_cases hji : j = i
  · exact hself ops (hji ▸ hpc) hresets
  · exact ⟨j, hj, ops, by rw [hthread j hji, hpc], hresets⟩

end Running

end Faust.Wss
