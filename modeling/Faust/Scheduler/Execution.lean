import Mathlib.Algebra.Order.Ring.Int
import Mathlib.Data.Nat.Cast.Order.Ring
import Mathlib.Tactic.Ring
import Faust.Scheduler.Startup

/-!
# The execution of a call

Every event of a run is justified by those before it, and when `compute` returns all blocks
have been computed. This is so until the index overflows: then a block begins at a negative index.
-/

namespace Faust.Wss

open LoopGraph

variable (W : Wss)

/-- The index of a block of samples. -/
def blockIndex (k : ℕ) : ℤ := k * W.vecSize

/-- `n` rounded up to a multiple of `VecSize`: the index after the last block. -/
def endIndex (n : ℤ) : ℤ := (n + W.vecSize - 1) / W.vecSize * W.vecSize

/-- What must have been run before an event, in a call on `n` samples. -/
def Justified (n : ℤ) (before : List Event) : Event → Prop
  | .loop p index count =>
    p ∈ W.G.order ∧ (∃ k, index = W.blockIndex k) ∧ index < n ∧
      count = min W.vecSize (n - index) ∧ (∀ c, .loop p index c ∉ before) ∧
      ∀ q ∈ W.G.backward p, .loop q index count ∈ before
  | .last index =>
    (∃ k, index = W.blockIndex k) ∧ index < n ∧ .last index ∉ before ∧
      ∀ p ∈ W.G.order, .loop p index (min W.vecSize (n - index)) ∈ before

/-- The events of a block. -/
def blockEvents (n : ℤ) (k : ℕ) : List Event :=
  W.G.order.map (fun p => .loop p (W.blockIndex k) (min W.vecSize (n - W.blockIndex k))) ++
    [.last (W.blockIndex k)]

/-- The invariant of the log. -/
structure LogOk (s : SchedulerState) : Prop where
  block : ∃ k, s.fIndex = W.blockIndex k
  fIndex_lt : s.fIndex < 2 ^ 31
  fFullcount_lt : s.fFullcount < 2 ^ 31
  justified : ∀ before e after, s.log = before ++ e :: after → W.Justified s.fFullcount before e
  complete : ∀ k, W.blockIndex k < s.fIndex → ∀ e ∈ W.blockEvents s.fFullcount k, e ∈ s.log
  loop_le : ∀ p index c, .loop p index c ∈ s.log → index ≤ s.fIndex
  last_lt : ∀ index, .last index ∈ s.log → index < s.fIndex

/-- The invariant of a call on `n` samples, after its start. -/
structure Computing (n : ℤ) (s : SchedulerState) : Prop where
  fFullcount : s.fFullcount = n
  log : W.LogOk s
  phase : W.Running s ∨ W.Finished s ∨ W.NoBlock s

variable {W} {s s' : SchedulerState} {i : ℕ} {n : ℤ}

lemma Justified.notMem {before : List Event} {e : Event} (h : W.Justified n before e) :
    e ∉ before := by
  cases e with
  | loop p index count => exact h.2.2.2.2.1 count
  | last index => exact h.2.2.1

/-- Nothing is run twice. -/
lemma nodup_of_justified {log : List Event}
    (h : ∀ before e after, log = before ++ e :: after → W.Justified n before e) : log.Nodup := by
  induction log using List.reverseRecOn with
  | nil => exact List.nodup_nil
  | append_singleton log e ih =>
    have hlog := ih fun before e' after heq => h before e' (after ++ [e]) (by simp [heq])
    have hnot := (h log e [] rfl).notMem
    rw [List.nodup_append]
    refine ⟨hlog, List.nodup_singleton e, fun a ha b hb heq => ?_⟩
    rw [heq, List.mem_singleton.mp hb] at ha
    exact hnot ha

lemma justified_of_mem {log : List Event} {e : Event}
    (h : ∀ before e after, log = before ++ e :: after → W.Justified n before e) (he : e ∈ log) :
    ∃ before, W.Justified n before e := by
  obtain ⟨before, after, heq⟩ := List.append_of_mem he
  exact ⟨before, h before e after heq⟩

/-- One more event. -/
lemma justified_append {log : List Event} {e : Event}
    (h : ∀ before e after, log = before ++ e :: after → W.Justified n before e)
    (he : W.Justified n log e) : ∀ before e' after, log ++ [e] = before ++ e' :: after →
      W.Justified n before e' := by
  intro before e' after heq
  rcases List.eq_nil_or_concat after with rfl | ⟨after', a, rfl⟩
  · obtain ⟨rfl, hlast⟩ := List.append_inj' heq rfl
    cases hlast
    exact he
  · rw [List.concat_eq_append, ← List.cons_append, ← List.append_assoc] at heq
    exact h before e' after' (List.append_inj' heq rfl).1

lemma blockIndex_succ (k : ℕ) : W.blockIndex (k + 1) = W.blockIndex k + W.vecSize := by
  unfold blockIndex
  push_cast
  ring

lemma blockIndex_lt {j k : ℕ} (h : W.blockIndex j < W.blockIndex k) : j < k :=
  Nat.cast_lt.mp (lt_of_mul_lt_mul_right h W.vecSize_pos.le)

lemma blockIndex_nonneg (k : ℕ) : 0 ≤ W.blockIndex k :=
  mul_nonneg (Nat.cast_nonneg k) W.vecSize_pos.le

/-- The last block ends at `endIndex n`. -/
lemma endIndex_le_iff (k : ℕ) : W.endIndex n ≤ W.blockIndex k ↔ n ≤ W.blockIndex k := by
  have hv := W.vecSize_pos
  unfold endIndex blockIndex
  rw [mul_le_mul_iff_of_pos_right hv, ← Int.lt_add_one_iff, Int.ediv_lt_iff_lt_mul hv, add_mul,
    one_mul]
  omega

lemma blockIndex_succ_le_endIndex {k : ℕ} (h : W.blockIndex k < n) :
    W.blockIndex (k + 1) ≤ W.endIndex n := by
  have hv := W.vecSize_pos
  have hlt : W.blockIndex k < W.endIndex n := by
    have := (W.endIndex_le_iff (n := n) k).not.mpr (not_le.mpr h)
    omega
  have hdiv := lt_of_mul_lt_mul_right hlt hv.le
  unfold blockIndex
  exact mul_le_mul_of_nonneg_right (by push_cast; omega) hv.le

lemma LogOk.fIndex_nonneg (h : W.LogOk s) : 0 ≤ s.fIndex := by
  obtain ⟨k, hk⟩ := h.block
  rw [hk]
  exact blockIndex_nonneg k

/-- The number of samples of the block. -/
lemma LogOk.blockCount_eq (h : W.LogOk s) (hlt : s.fIndex < s.fFullcount) :
    W.blockCount s = min W.vecSize (s.fFullcount - s.fIndex) := by
  have := h.fIndex_nonneg
  have := h.fFullcount_lt
  rw [blockCount, wrap32_of_isInt32 ⟨by omega, by omega⟩]

lemma LogOk.frame (h : W.LogOk s) (hframe : Frame s s' i) : W.LogOk s' := by
  obtain ⟨hblock, hindex, hfull, hjust, hcomplete, hloop, hlast⟩ := h
  constructor
  · rwa [hframe.fIndex]
  · rwa [hframe.fIndex]
  · rwa [hframe.fFullcount]
  · rwa [hframe.log, hframe.fFullcount]
  · rwa [hframe.log, hframe.fFullcount, hframe.fIndex]
  · rwa [hframe.log, hframe.fIndex]
  · rwa [hframe.log, hframe.fIndex]

/-- The index after the block: it is the next one, or negative. -/
lemma LogOk.next_index (h : W.LogOk s) :
    s.fIndex + W.vecSize < 2 ^ 31 ∧ wrap32 (s.fIndex + W.vecSize) = s.fIndex + W.vecSize ∨
      2 ^ 31 ≤ s.fIndex + W.vecSize ∧ wrap32 (s.fIndex + W.vecSize) < 0 := by
  have := h.fIndex_nonneg
  have := h.fIndex_lt
  have := W.vecSize_pos
  have := W.vecSize_lt
  by_cases hlt : s.fIndex + W.vecSize < 2 ^ 31
  · exact .inl ⟨hlt, wrap32_of_isInt32 ⟨by omega, hlt⟩⟩
  · refine .inr ⟨by omega, ?_⟩
    rw [wrap32, Int.bmod_def]
    omega

lemma LogOk.index_nonneg (h : W.LogOk s) {p : ℕ} {index c : ℤ}
    (hmem : .loop p index c ∈ s.log) : 0 ≤ index := by
  obtain ⟨before, -, ⟨k, rfl⟩, -⟩ := justified_of_mem h.justified hmem
  exact blockIndex_nonneg k

/-- No loop of the next block has been run. -/
lemma LogOk.fresh (h : W.LogOk s) (p : ℕ) (c : ℤ) :
    .loop p (wrap32 (s.fIndex + W.vecSize)) c ∉ s.log := by
  intro hmem
  have := h.loop_le p _ c hmem
  have := h.index_nonneg hmem
  have := W.vecSize_pos
  rcases h.next_index with ⟨-, heq⟩ | ⟨-, hneg⟩
  · omega
  · omega

/-- The event of a loop. -/
lemma LogOk.exec_loop (h : W.LogOk s) (hrun : W.Running s) (hi : i < W.numThreads) {p : ℕ}
    {rest : List Op} (hpc : (s.thread i).pc = .code (.loop p :: rest)) (hp : p ∈ W.G.order) :
    W.LogOk (W.execOp s i (.loop p) rest) := by
  obtain ⟨htoken, hindex, hcount⟩ := hrun.holds_loop hi hpc
  set s' := W.execOp s i (.loop p) rest with hs'
  have hlog : s'.log = s.log ++ [.loop p s.fIndex (W.blockCount s)] := by
    rw [hs', ← hindex, ← hcount]
    rfl
  have hnew : W.Justified s.fFullcount s.log (.loop p s.fIndex (W.blockCount s)) := by
    refine ⟨hp, h.block, hrun.lt, h.blockCount_eq hrun.lt, fun c hmem => ?_, fun q hq => ?_⟩
    · obtain ⟨-, -, -, -, hc, -⟩ := justified_of_mem h.justified hmem
      rw [hc, ← h.blockCount_eq hrun.lt] at hmem
      exact hrun.balanced.notMem_done htoken ((mem_done hp).mpr hmem)
    · have hqp : W.G.index q ∈ W.G.dag.preds (W.G.index p) :=
        mem_dag_preds.mpr ((index_mem_preds_index (mem_order_of_mem_backward hp hq) hp).mpr hq)
      exact (mem_done (mem_order_of_mem_backward hp hq)).mp
        (hrun.balanced.preds_subset_done htoken hqp)
  refine ⟨h.block, h.fIndex_lt, h.fFullcount_lt, ?_, fun k hk e he => ?_,
    fun q index c hmem => ?_, fun index hmem => ?_⟩
  · rw [hlog]
    exact justified_append h.justified hnew
  · rw [hlog]
    exact List.mem_append_left _ (h.complete k hk e he)
  · rw [hlog] at hmem
    rcases List.mem_append.mp hmem with hmem | hmem
    · exact h.loop_le q index c hmem
    · cases List.mem_singleton.mp hmem
      exact le_refl s.fIndex
  · rw [hlog] at hmem
    rcases List.mem_append.mp hmem with hmem | hmem
    · exact h.last_lt index hmem
    · cases List.mem_singleton.mp hmem

/-- The event of the last task. -/
lemma LogOk.exec_last (h : W.LogOk s) (hrun : W.Running s) (hi : i < W.numThreads)
    {rest : List Op} (hpc : (s.thread i).pc = .code (.addIndex :: rest))
    (hno : s.fIndex + W.vecSize < 2 ^ 31) : W.LogOk (W.execOp s i .addIndex rest) := by
  have hall := hrun.all_of_last hi hpc
  rw [h.blockCount_eq hrun.lt] at hall
  set s' := W.execOp s i .addIndex rest with hs'
  have hlog : s'.log = s.log ++ [.last s.fIndex] := rfl
  have hindex : s'.fIndex = s.fIndex + W.vecSize :=
    (h.next_index.resolve_right fun hover => by omega).2
  have hvec := W.vecSize_pos
  obtain ⟨k₀, hk₀⟩ := h.block
  have hnew : W.Justified s.fFullcount s.log (.last s.fIndex) := by
    refine ⟨h.block, hrun.lt, fun hmem => ?_, hall⟩
    exact lt_irrefl _ (h.last_lt _ hmem)
  refine ⟨⟨k₀ + 1, by rw [hindex, hk₀, blockIndex_succ]⟩, by rwa [hindex], h.fFullcount_lt, ?_,
    fun k hk e he => ?_, fun q index c hmem => ?_, fun index hmem => ?_⟩
  · rw [hlog]
    exact justified_append h.justified hnew
  · rw [hindex, hk₀, ← blockIndex_succ] at hk
    have hle : k ≤ k₀ := Nat.lt_succ_iff.mp (blockIndex_lt hk)
    rw [hlog]
    rcases Nat.lt_or_eq_of_le hle with hlt | rfl
    · refine List.mem_append_left _ (h.complete k ?_ e he)
      rw [hk₀]
      exact mul_lt_mul_of_pos_right (Nat.cast_lt.mpr hlt) hvec
    · -- the block that has just ended
      rcases List.mem_append.mp he with he | he
      · obtain ⟨p, hp, rfl⟩ := List.mem_map.mp he
        rw [← hk₀]
        exact List.mem_append_left _ (hall p hp)
      · rw [List.mem_singleton.mp he, ← hk₀]
        exact List.mem_append_right _ (List.mem_singleton_self _)
  · rw [hlog] at hmem
    rcases List.mem_append.mp hmem with hmem | hmem
    · have := h.loop_le q index c hmem
      omega
    · cases List.mem_singleton.mp hmem
  · rw [hlog] at hmem
    rcases List.mem_append.mp hmem with hmem | hmem
    · have := h.last_lt index hmem
      omega
    · cases List.mem_singleton.mp hmem
      omega

/-! ## The invariant of a call -/

/-- The index has overflowed, and there is a block to compute at a negative index. -/
structure Overflowed (W : Wss) (s : SchedulerState) : Prop where
  running : W.Running s
  neg : s.fIndex < 0

/-- While there is a block to compute, and after the last one. -/
theorem Computing.step_block (h : W.Computing n s) (hconf : W.Confined s)
    (hphase : W.Running s ∨ W.Finished s) (hi : i < W.numThreads) (hstep : W.step s i = some s') :
    W.Computing n s' ∧ (W.Running s' ∨ W.Finished s') ∨
      2 ^ 31 ≤ W.endIndex n ∧ W.Overflowed s' := by
  have hnext : s'.fFullcount = s.fFullcount → W.LogOk s' → W.Running s' ∨ W.Finished s' →
      W.Computing n s' ∧ (W.Running s' ∨ W.Finished s') ∨
        2 ^ 31 ≤ W.endIndex n ∧ W.Overflowed s' := fun hfull hlog hphase' =>
    .inl ⟨⟨hfull.trans h.fFullcount, hlog, hphase'.imp_right .inl⟩, hphase'⟩
  rcases hphase with hrun | hfin
  · cases hrun.step hconf hi hstep with
    | silent hrun' hframe => exact hnext hframe.fFullcount (h.log.frame hframe) (.inl hrun')
    | loop p rest hpc hp hann heq =>
      subst heq
      exact hnext rfl (h.log.exec_loop hrun hi hpc hp) (.inl (hrun.exec_loop hi hpc hp hann))
    | last hpc heq =>
      rcases h.log.next_index with ⟨hno, -⟩ | ⟨hover, hneg⟩
      · have hlog := h.log.exec_last hrun hi hpc hno
        rw [← heq] at hlog
        refine hnext (by rw [heq]; rfl) hlog ?_
        by_cases hlt : s'.fIndex < s'.fFullcount
        · exact .inl (hrun.next_block hi hpc heq h.log.fresh hlt)
        · exact .inr (hrun.finished hi hpc heq h.log.fresh (not_lt.mp hlt))
      · -- the next block begins at a negative index
        obtain ⟨k, hk⟩ := h.log.block
        have hlt := hrun.lt
        have hend : W.blockIndex (k + 1) ≤ W.endIndex n := blockIndex_succ_le_endIndex (by
          rw [← hk, ← h.fFullcount]
          exact hlt)
        rw [blockIndex_succ, ← hk] at hend
        have hindex : s'.fIndex = wrap32 (s.fIndex + W.vecSize) := by rw [heq]; rfl
        have hfull : s'.fFullcount = s.fFullcount := by rw [heq]; rfl
        have hnonneg := h.log.fIndex_nonneg
        refine .inr ⟨hover.trans hend, hrun.next_block hi hpc heq h.log.fresh ?_, ?_⟩
        · rw [hindex, hfull]
          omega
        · rwa [hindex]
  · obtain ⟨hfin', hframe⟩ := hfin.step hconf hi hstep
    exact hnext hframe.fFullcount (h.log.frame hframe) (.inr hfin')

theorem Computing.step (h : W.Computing n s) (hconf : W.Confined s) (hi : i < W.numThreads)
    (hstep : W.step s i = some s') :
    W.Computing n s' ∨ 2 ^ 31 ≤ W.endIndex n ∧ W.Overflowed s' := by
  rcases h.phase with hrun | hfin | hno
  · exact (h.step_block hconf (.inl hrun) hi hstep).imp_left And.left
  · exact (h.step_block hconf (.inr hfin) hi hstep).imp_left And.left
  · obtain ⟨hno', hframe⟩ := hno.step hi hstep
    exact .inl ⟨hframe.fFullcount.trans h.fFullcount, h.log.frame hframe, .inr (.inr hno')⟩

/-- At the beginning of a call nothing has been run. -/
lemma LogOk.start (hindex : s.fIndex = 0) (hfull : s.fFullcount < 2 ^ 31) (hlog : s.log = []) :
    W.LogOk s := by
  refine ⟨⟨0, by rw [hindex]; simp [blockIndex]⟩, by rw [hindex]; decide, hfull, ?_,
    fun k hk => ?_, ?_, ?_⟩
  · intro before e after heq
    rw [hlog] at heq
    simp at heq
  · rw [hindex, blockIndex] at hk
    exact absurd hk (not_lt.mpr (mul_nonneg (Nat.cast_nonneg k) W.vecSize_pos.le))
  · simp [hlog]
  · simp [hlog]

lemma Started.computing (h : W.Started n s) (hn : IsInt32 n) : W.Computing n s := by
  refine ⟨h.fFullcount, .start h.fIndex (h.fFullcount ▸ hn.2) h.log, ?_⟩
  by_cases hn : 0 < n
  · exact .inl (h.running hn)
  · exact .inr (.inr (h.noBlock (not_lt.mp hn)))

/-- No thread of an earlier call is still running. -/
structure Quiescent (W : Wss) (s : SchedulerState) : Prop where
  idle : ∀ i < W.fStaticNumThreads, Waits s i
  log : s.log = []

lemma call_self (s : SchedulerState) (n : ℤ) : (W.call s n).thread 0 =
    { s.thread 0 with pc := .code (W.compute n), tasknum := workStealingIndex } := by
  simp [call, SchedulerState.gotoWith, SchedulerState.setThread]

lemma Quiescent.starting (h : W.Quiescent s) (n : ℤ) : W.Starting n (W.call s n) where
  idle j hj hj0 := by
    have hother : (W.call s n).thread j = s.thread j := Function.update_of_ne hj0 _ _
    rw [hother]
    exact h.idle j (hj.trans_le W.numThreads_le)
  tasknum := by rw [call_self]
  log := h.log
  code := by
    refine ⟨[], .storeFullcount n, .storeIndex :: W.initOps, rfl, ?_, nofun⟩
    rw [call_self, compute_eq]
    rfl

/-- The threads of the pool keep to the call. -/
lemma Quiescent.confined (h : W.Quiescent s) (n : ℤ) : W.Confined (W.call s n) where
  waits j hj hlt := by
    have := W.numThreads_pos
    have hother : (W.call s n).thread j = s.thread j := Function.update_of_ne (by omega) _ _
    unfold Waits
    rw [hother]
    exact h.idle j hlt
  code j hj ops hops op hop := by
    by_cases h0 : j = 0
    · subst h0
      rw [call_self] at hops
      cases hops
      exact confinedOp_compute hop
    · rw [((h.starting n).idle j hj h0).1] at hops
      cases hops

/-- The invariant of a call: it holds until the index overflows. -/
theorem invariant {s₀ : SchedulerState} (h : W.Quiescent s₀) (hn : IsInt32 n)
    (hrun : W.Run (W.call s₀ n) s) : W.Starting n s ∨ W.Computing n s ∨
      2 ^ 31 ≤ W.endIndex n ∧ ∃ s', W.Run (W.call s₀ n) s' ∧ W.Overflowed s' := by
  induction hrun with
  | refl => exact .inl (h.starting n)
  | step i hi hrun hstep ih =>
    rcases ih with ih | ih | ih
    · exact (ih.step hi hstep).imp_right fun hstarted => .inl (hstarted.computing hn)
    · refine .inr ((ih.step ((h.confined n).run hrun) hi hstep).imp_right fun hover => ?_)
      exact ⟨hover.1, _, .step i hi hrun hstep, hover.2⟩
    · exact .inr (.inr ih)

/-! ## What the invariant says -/

variable (W) in
/-- The tasks of a step exist. -/
def OnTask : Op → Prop
  | .loop p => p ∈ W.G.order
  | .storeTasknum t => t = workStealingIndex ∨ W.G.dag.IsTask t
  | .initTask t _ | .pushHead _ t | .activateOneOutputTask t | .activateOutputTask1 t
  | .activateOutputTask2 t => W.G.dag.IsTask t
  | _ => True

lemma TailOp.onTask {op : Op} (h : W.TailOp op) : W.OnTask op := by
  cases op with
  | storeTasknum t => exact h.imp_right And.left
  | pushHead q t => exact h.2
  | activateOneOutputTask t => exact h.1
  | activateOutputTask1 t => exact h.1
  | activateOutputTask2 t => exact h.1
  | loop p => exact h.elim
  | initTask t m => exact h.elim
  | _ => trivial

lemma InitOp.onTask {op : Op} (h : W.InitOp op) : W.OnTask op := by
  cases op with
  | initTask t m => exact h.1
  | initOne q => trivial
  | _ => exact h.elim

lemma Code.onTask {ops : List Op} (h : W.Code ops) {op : Op} (hop : op ∈ ops) :
    W.OnTask op := by
  cases h with
  | tail h => exact TailOp.onTask (h.op op hop)
  | init h => exact (h.op hop).elim InitOp.onTask TailOp.onTask
  | loop hp h =>
    rcases List.mem_cons.mp hop with rfl | hop
    · exact hp
    · exact TailOp.onTask (h.tail.op op hop)
  | last =>
    simp only [List.mem_cons, List.not_mem_nil, or_false] at hop
    rcases hop with rfl | rfl | rfl
    · trivial
    · trivial
    · exact .inl rfl
  | more =>
    simp only [List.mem_cons, List.not_mem_nil, or_false] at hop
    rcases hop with rfl | rfl
    · trivial
    · exact .inl rfl

lemma Computing.onTask (h : W.Computing n s) (hi : i < W.numThreads) {ops : List Op}
    (hpc : (s.thread i).pc = .code ops) {op : Op} (hop : op ∈ ops) : W.OnTask op := by
  rcases h.phase with hrun | hfin | hno
  · exact (hrun.code i hi ops hpc).onTask hop
  · rcases hfin.code i hi ops hpc with ⟨htail, -⟩ | rfl
    · exact TailOp.onTask (htail.op op hop)
    · exact Code.more.onTask hop
  · rcases hno.pc i hi with hpc' | hpc' | ⟨ops', hpc', hops⟩
    · rw [hpc'] at hpc
      cases hpc
    · rw [hpc'] at hpc
      cases hpc
    · rw [hpc'] at hpc
      cases hpc
      rcases hops op hop with ⟨q, t, rfl, ht⟩ | ⟨j, rfl⟩
      · exact ht
      · trivial

lemma Computing.caseBlock (h : W.Computing n s) (hi : i < W.numThreads)
    (hpc : (s.thread i).pc = .switch) : (W.G.caseBlock (s.thread i).tasknum).isSome := by
  rcases h.phase with hrun | hfin | hno
  · obtain ⟨block, hblock, -⟩ := hrun.step_switch hi hpc
    rw [hblock]
    rfl
  · have hempty := threadTokens_eq_nil hfin.tokens hi
    rw [threadTokens, hpc] at hempty
    by_cases hw : (s.thread i).tasknum = workStealingIndex
    · rw [hw, caseBlock_workStealing]
      rfl
    · rw [held_of_ne hw] at hempty
      cases hempty
  · rcases hno.pc i hi with hpc' | hpc' | ⟨ops', hpc', -⟩ <;> (rw [hpc'] at hpc; cases hpc)

/-- When the master thread returns, all blocks have been computed. -/
lemma Computing.complete (h : W.Computing n s) (hidle : (s.thread 0).pc = .idle) {k : ℕ}
    (hk : W.blockIndex k < n) : ∀ e ∈ W.blockEvents n k, s.log.count e = 1 := by
  have hnd := nodup_of_justified h.log.justified
  have hle : n ≤ s.fIndex := by
    rw [← h.fFullcount]
    rcases h.phase with hrun | hfin | hno
    · exact absurd hidle hrun.master
    · exact hfin.le
    · exact hno.le
  intro e he
  rw [← h.fFullcount] at he
  exact List.count_eq_one_of_mem hnd (h.log.complete k (hk.trans_le hle) e he)

end Faust.Wss
