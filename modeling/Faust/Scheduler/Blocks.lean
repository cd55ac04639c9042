import Faust.Scheduler.Steps

/-!
# Blocks of samples

The last task ends a block: all loops have been run then, and no thread holds anything. Either
the next block begins, or the threads find nothing more to do.
-/

namespace Faust.Wss

open LoopGraph Finset

variable (W : Wss)

/-- The invariant when all blocks have been computed. -/
structure Finished (s : SchedulerState) : Prop where
  le : s.fFullcount ≤ s.fIndex
  tokens : ∀ u, (W.ledger s).tokens u = 0
  code : ∀ i < W.numThreads, ∀ ops, (s.thread i).pc = .code ops →
    W.Tail ops ∧ W.notifies ops = [] ∨ ops = [.ifMore, .storeTasknum workStealingIndex]

variable {W} {s s' : SchedulerState} {i : ℕ}

lemma threadTokens_eq_nil (h : ∀ u, (W.ledger s).tokens u = 0) (hi : i < W.numThreads) :
    W.threadTokens (s.thread i) = [] := by
  refine List.eq_nil_iff_forall_not_mem.mpr fun u hu => ?_
  have := List.count_pos_iff.mpr hu
  have := thread_count_le (s := s) hi u
  have := h u
  omega

lemma taskQueue_eq_nil (h : ∀ u, (W.ledger s).tokens u = 0) {q : ℕ} (hq : q < W.numThreads) :
    s.taskQueue q = [] := by
  refine List.eq_nil_iff_forall_not_mem.mpr fun u hu => ?_
  have := List.count_pos_iff.mpr hu
  have := queue_count_le (s := s) hq u
  have := h u
  omega

/-! ## The end of a block -/

/-- A thread that is about to end a block holds the last task. -/
lemma holds_last (hi : i < W.numThreads) {rest : List Op}
    (hpc : (s.thread i).pc = .code (.addIndex :: rest)) :
    0 < (W.ledger s).tokens lastTaskIndex := by
  have hmem : lastTaskIndex ∈ W.threadTokens (s.thread i) := by
    rw [threadTokens_code hpc, tokens_cons]
    exact List.mem_append_left _ (List.mem_append_left _ (List.mem_singleton_self _))
  have := List.count_pos_iff.mpr hmem
  have := thread_count_le (s := s) hi lastTaskIndex
  omega

/-- What has been done when a block ends. -/
lemma Running.all_of_last (h : W.Running s) (hi : i < W.numThreads) {rest : List Op}
    (hpc : (s.thread i).pc = .code (.addIndex :: rest)) :
    ∀ p ∈ W.G.order, .loop p s.fIndex (W.blockCount s) ∈ s.log := by
  intro p hp
  rw [← mem_done hp, (h.balanced.last (holds_last hi hpc)).1]
  exact List.mem_toFinset.mpr (List.mem_map_of_mem hp)

section Last

variable (hi : i < W.numThreads)
  (hpc : (s.thread i).pc = .code [.addIndex, .ifMore, .storeTasknum workStealingIndex])
  (heq : s' = W.execOp s i .addIndex [.ifMore, .storeTasknum workStealingIndex])

include heq

lemma last_thread : s'.thread = Function.update s.thread i
    { s.thread i with pc := .code [.ifMore, .storeTasknum workStealingIndex] } := by
  rw [heq]
  rfl

lemma last_thread_of_ne : ∀ j ≠ i, s'.thread j = s.thread j := fun j hj => by
  rw [last_thread heq, Function.update_of_ne hj]

lemma last_self : (s'.thread i).pc = .code [.ifMore, .storeTasknum workStealingIndex] := by
  rw [last_thread heq, Function.update_self]

include hi hpc

/-- After the last task the work begins anew. -/
lemma Running.start_of_last (h : W.Running s)
    (hfresh : ∀ p c, .loop p (wrap32 (s.fIndex + W.vecSize)) c ∉ s.log) :
    (W.ledger s').Start W.G.dag := by
  obtain ⟨-, hall⟩ := h.balanced.last (holds_last hi hpc)
  have hthread := last_thread heq
  refine ⟨fun t ht => ?_, fun u => ?_, ?_⟩
  · have := announced_update hi hthread t
    have hold : W.threadNotifies (s.thread i) = [] := by rw [threadNotifies, hpc]
    have hnew : W.threadNotifies
        { s.thread i with pc := .code [.ifMore, .storeTasknum workStealingIndex] } =
        W.G.readyLoop := List.append_nil _
    rw [hold, hnew, (hall t ht).1, nodup_readyLoop.count, List.count_nil] at this
    simp only [source_iff ht]
    omega
  · have := tokens_update (q := 0) (l := s.taskQueue 0) hi W.numThreads_pos hthread
      (by rw [heq, Function.update_eq_self]; rfl) u
    rw [threadTokens_code hpc, threadTokens_code rfl] at this
    simp only [tokens_cons, tokens_nil, Op.tokens, List.any_cons, Op.overwrites, Bool.true_or,
      Bool.or_true, if_true, List.append_nil, List.count_singleton, beq_iff_eq,
      List.count_nil, @eq_comm _ lastTaskIndex u] at this
    by_cases hu : W.G.dag.IsTask u
    · have htok : (W.ledger s).tokens u = if u = lastTaskIndex then 1 else 0 := (hall u hu).2
      omega
    · have hzero : ¬ 0 < (W.ledger s).tokens u := fun hpos => hu (h.balanced.isTask u hpos)
      omega
  · refine Finset.eq_empty_of_forall_notMem fun u hu => ?_
    obtain ⟨p, -, -, hlog⟩ := mem_done_iff.mp hu
    have hlog' : s'.log = s.log ++ [.last s.fIndex] := by rw [heq]; rfl
    have hindex : s'.fIndex = wrap32 (s.fIndex + W.vecSize) := by rw [heq]; rfl
    rw [hlog', hindex] at hlog
    rcases List.mem_append.mp hlog with hmem | hmem
    · exact hfresh p _ hmem
    · cases List.mem_singleton.mp hmem

/-- The next block. -/
lemma Running.next_block (h : W.Running s)
    (hfresh : ∀ p c, .loop p (wrap32 (s.fIndex + W.vecSize)) c ∉ s.log)
    (hlt : s'.fIndex < s'.fFullcount) : W.Running s' := by
  have hstart := h.start_of_last hi hpc heq hfresh
  refine ⟨hlt, fun j hj ops hops => ?_, Ledger.Balanced.start hstart,
    fun t _ _ => .inl ⟨i, hi, _, last_self heq, .inr rfl⟩, fun j hj hne => ?_, ?_⟩
  · by_cases hji : j = i
    · rw [hji, last_self heq] at hops
      cases hops
      exact .more
    · exact h.code j hj ops (last_thread_of_ne heq j hji ▸ hops)
  · exact absurd (threadTokens_eq_nil hstart.tokens hj) hne
  · by_cases h0 : 0 = i
    · rw [h0, last_self heq]
      simp
    · rw [last_thread_of_ne heq 0 h0]
      exact h.master

/-- No next block. -/
lemma Running.finished (h : W.Running s)
    (hfresh : ∀ p c, .loop p (wrap32 (s.fIndex + W.vecSize)) c ∉ s.log)
    (hle : s'.fFullcount ≤ s'.fIndex) : W.Finished s' := by
  have htokens := (h.start_of_last hi hpc heq hfresh).tokens
  obtain ⟨hdone, hall⟩ := h.balanced.last (holds_last hi hpc)
  have hne : (W.ledger s).done ≠ ∅ := by
    obtain ⟨p, hp⟩ := List.exists_mem_of_ne_nil _ W.G.last_ne_nil
    rw [hdone]
    exact Finset.ne_empty_of_mem
      (List.mem_toFinset.mpr (List.mem_map_of_mem (mem_order_of_mem_lastLevel hp)))
  refine ⟨hle, htokens, fun j hj ops hops => ?_⟩
  by_cases hji : j = i
  · rw [hji, last_self heq] at hops
    cases hops
    exact .inr rfl
  have hempty := threadTokens_eq_nil htokens hj
  rw [threadTokens_code hops] at hempty
  rw [last_thread_of_ne heq j hji] at hops
  cases h.code j hj ops hops with
  | tail htail =>
    refine .inl ⟨htail, List.eq_nil_iff_forall_not_mem.mpr fun t ht => ?_⟩
    have := List.count_pos_iff.mpr ht
    have hle := notifies_count_le (s := s) hj t
    rw [threadNotifies_tail hops htail, (hall t (htail.isTask ht)).1] at hle
    omega
  | init hinit =>
    refine absurd (h.balanced.done_eq_empty (sources_of_mem hj fun u hu => ?_)) hne
    rw [threadNotifies_init hops hinit]
    exact hinit.mem_notifies hu
  | loop hp hann => cases hempty
  | last => cases hempty
  | more => exact .inr rfl

end Last

/-! ## After the last block -/

/-- The threads find nothing to do. -/
theorem Finished.step (h : W.Finished s) (hconf : W.Confined s) (hi : i < W.numThreads)
    (hstep : W.step s i = some s') : W.Finished s' ∧ Frame s s' i := by
  have hempty := threadTokens_eq_nil h.tokens hi
  -- a step that moves the thread only
  have hmove : ∀ {s' : SchedulerState} {th : Thread}, Frame s s' i →
      s'.thread = Function.update s.thread i th → s'.taskQueue = s.taskQueue →
      W.threadTokens th = [] → (∀ ops, th.pc = .code ops → W.Tail ops ∧ W.notifies ops = []) →
      W.Finished s' ∧ Frame s s' i := by
    intro s' th hframe hthread hqueue htok hcode
    refine ⟨⟨?_, fun u => ?_, fun j hj ops hops => ?_⟩, hframe⟩
    · rw [hframe.fIndex, hframe.fFullcount]
      exact h.le
    · have := tokens_update (q := 0) (l := s.taskQueue 0) hi W.numThreads_pos hthread
        (by rw [hqueue, Function.update_eq_self]) u
      rw [htok, hempty, h.tokens u] at this
      omega
    · by_cases hji : j = i
      · subst hji
        rw [hthread, Function.update_self] at hops
        exact .inl (hcode ops hops)
      · exact h.code j hj ops (hframe.thread j hji ▸ hops)
  have hframe : ∀ th, Frame s (s.setThread i th) i := fun th =>
    ⟨fun j hj => Function.update_of_ne hj _ _, rfl, rfl, rfl⟩
  unfold Wss.step at hstep
  cases hpc : (s.thread i).pc with
  | idle =>
    simp only [hpc] at hstep
    split at hstep
    · cases hstep
      exact hmove ⟨fun j hj => Function.update_of_ne hj _ _, rfl, rfl, rfl⟩ rfl rfl rfl (by simp)
    · cases hstep
  | test =>
    simp only [hpc, not_lt.mpr h.le, if_false, Option.some.injEq] at hstep
    subst hstep
    exact hmove (hframe _) rfl rfl rfl (by simp)
  | loadIndex =>
    simp only [hpc, Option.some.injEq] at hstep
    subst hstep
    refine hmove (hframe _) rfl rfl ?_ (by simp)
    rw [← hempty, threadTokens, threadTokens, hpc]
  | loadCount =>
    simp only [hpc, Option.some.injEq] at hstep
    subst hstep
    refine hmove (hframe _) rfl rfl ?_ (by simp)
    rw [← hempty, threadTokens, threadTokens, hpc]
  | switch =>
    have hw : (s.thread i).tasknum = workStealingIndex := by
      rw [threadTokens, hpc] at hempty
      by_contra hne
      rw [held_of_ne hne] at hempty
      cases hempty
    simp only [hpc, hw, caseBlock_workStealing, Option.some.injEq] at hstep
    subst hstep
    refine hmove (hframe _) rfl rfl rfl fun ops hops => ?_
    cases hops
    exact ⟨tail_getNextTask, rfl⟩
  | code ops =>
    cases ops with
    | nil =>
      simp only [hpc, Option.some.injEq] at hstep
      subst hstep
      refine hmove (hframe _) rfl rfl ?_ (by simp)
      rw [← hempty, threadTokens_code hpc]
      rfl
    | cons op rest =>
      simp only [hpc, Option.some.injEq] at hstep
      subst hstep
      rcases h.code i hi _ hpc with ⟨htail, hnot⟩ | hmore
      · have hcounted : W.Counted s i (op :: rest) := by
          refine ⟨fun q hq hmem => ?_, fun t ht => ?_, fun t ht => ?_, hconf.code i hi _ hpc⟩
          · rw [taskQueue_eq_nil h.tokens hq] at hmem
            cases hmem
          · rw [hnot] at ht
            cases ht
          · rw [hnot] at ht
            cases ht
        obtain ⟨hframe', heffect, ops', hpc', htail', hsub⟩ := exec_tail hi hpc htail hcounted
        rw [hnot] at hsub
        refine ⟨⟨?_, fun u => ?_, fun j hj ops'' hops => ?_⟩, hframe'⟩
        · rw [hframe'.fIndex, hframe'.fFullcount]
          exact h.le
        · cases heffect with
          | silent _ hledger => rw [hledger, h.tokens]
          | announce t ht _ _ =>
            rw [hnot] at ht
            cases ht
        · by_cases hji : j = i
          · rw [hji, hpc'] at hops
            cases hops
            exact .inl ⟨htail', List.subset_nil.mp hsub⟩
          · exact h.code j hj ops'' (hframe'.thread j hji ▸ hops)
      · cases hmore
        have hexec : W.execOp s i .ifMore [.storeTasknum workStealingIndex] =
            s.goto i (.code [.storeTasknum workStealingIndex]) := by
          simp only [execOp, not_lt.mpr h.le, if_false]
        rw [hexec]
        refine hmove (hframe _) rfl rfl rfl fun ops hops => ?_
        cases hops
        exact ⟨tail_storeTasknum, rfl⟩

end Faust.Wss
