import Faust.Scheduler.Progress

/-!
# A call of `compute`

In every run of a call each loop is run at most once on each block, after the loops it depends
on, with the index and the number of samples of the block, and the last task once at the end.
When the master thread returns all of this has been done, and from every state it can return.
This holds for the calls in which the index does not overflow, and for no other.
-/

namespace Faust.Wss

open LoopGraph

variable {W : Wss} {s s' : SchedulerState} {i : ℕ} {n : ℤ}

/-- There are finitely many events in a call. -/
lemma Computing.length_log_le (h : W.Computing n s) :
    s.log.length ≤ ((List.range n.toNat).flatMap (W.blockEvents n)).length := by
  refine (List.subperm_of_subset (nodup_of_justified h.log.justified) fun e he => ?_).length_le
  obtain ⟨before, hjust⟩ := justified_of_mem h.log.justified he
  rw [h.fFullcount] at hjust
  have hmem : ∀ k, W.blockIndex k < n → k ∈ List.range n.toNat := by
    intro k hk
    have hle : (k : ℤ) ≤ W.blockIndex k :=
      le_mul_of_one_le_right (Nat.cast_nonneg k) W.vecSize_pos
    rw [List.mem_range]
    omega
  rw [List.mem_flatMap]
  cases e with
  | loop p index c =>
    obtain ⟨hp, ⟨k, rfl⟩, hlt, rfl, -⟩ := hjust
    exact ⟨k, hmem k hlt, List.mem_append_left _ (List.mem_map_of_mem hp)⟩
  | last index =>
    obtain ⟨⟨k, rfl⟩, hlt, -⟩ := hjust
    exact ⟨k, hmem k hlt, List.mem_append_right _ (List.mem_singleton_self _)⟩

lemma Finished.run (h : W.Finished s) (hconf : W.Confined s) (hrun : W.Run s s') :
    W.Finished s' := by
  induction hrun with
  | refl => exact h
  | step i hi hrun hstep ih => exact (ih.step (hconf.run hrun) hi hstep).1

/-- A call whose last block ends below 2^31. -/
lemma Computing.run (h : W.Computing n s) (hconf : W.Confined s) (hend : W.endIndex n < 2 ^ 31)
    (hrun : W.Run s s') : W.Computing n s' := by
  induction hrun with
  | refl => exact h
  | step i hi hrun hstep ih =>
    exact (ih.step (hconf.run hrun) hi hstep).resolve_right fun hover => by omega

/-- The master thread leaves the loop. -/
lemma return_of_test (hpc : (s.thread 0).pc = .test) (hle : s.fFullcount ≤ s.fIndex) :
    ∃ s', W.Run s s' ∧ (s'.thread 0).pc = .idle := by
  have hstep : W.step s 0 = some (s.goto 0 .idle) := by
    simp only [step, hpc, not_lt.mpr hle, if_false]
  exact ⟨_, .single W.numThreads_pos hstep, by simp⟩

/-- After the last block the master thread returns. -/
lemma Finished.return (h : W.Finished s) (hcomp : W.Computing n s) (hconf : W.Confined s)
    (hend : W.endIndex n < 2 ^ 31) (hpc : ∀ ops, (s.thread 0).pc ≠ .code ops) :
    ∃ s', W.Run s s' ∧ (s'.thread 0).pc = .idle := by
  have h0 := W.numThreads_pos
  cases hpc' : (s.thread 0).pc with
  | idle => exact ⟨s, .refl, hpc'⟩
  | code ops => exact absurd hpc' (hpc ops)
  | test => exact return_of_test hpc' h.le
  | _ =>
    obtain ⟨s₁, hrun₁, hswitch, -⟩ := run_switch (W := W) (s := s) h0 (by simp [hpc'])
    obtain ⟨block, hblock⟩ := Option.isSome_iff_exists.mp
      ((hcomp.run hconf hend hrun₁).caseBlock h0 hswitch)
    have hstep : W.step s₁ 0 = some (s₁.goto 0 (.code (W.expands 0 block))) := by
      simp only [Wss.step, hswitch, hblock]
    obtain ⟨s₂, hrun₂, htest, -⟩ :=
      run_code (W := W) (s := s₁.goto 0 (.code (W.expands 0 block))) h0 (by simp; rfl)
    have hall := (hrun₁.trans (.single h0 hstep)).trans hrun₂
    obtain ⟨s₃, hrun₃, hidle⟩ := return_of_test (W := W) htest (h.run hconf hall).le
    exact ⟨s₃, hall.trans hrun₃, hidle⟩

/-- From every state of a call the master thread can return. -/
theorem Computing.return (h : W.Computing n s) (hconf : W.Confined s)
    (hend : W.endIndex n < 2 ^ 31) : ∃ s', W.Run s s' ∧ (s'.thread 0).pc = .idle := by
  induction hk : ((List.range n.toNat).flatMap (W.blockEvents n)).length - s.log.length using
    Nat.strong_induction_on generalizing s with
  | _ k ih =>
    obtain ⟨s₁, hrun, hpcs⟩ := run_codes (W := W) s W.numThreads le_rfl
    have hconf₁ := hconf.run hrun
    have hcomp := h.run hconf hend hrun
    rcases hcomp.phase with hrunning | hfin | hno
    · obtain ⟨s₂, hrun', hlog, -⟩ := hrunning.event hconf₁
      have hcomp' := hcomp.run hconf₁ hend hrun'
      have hle := hrun.log_le.length_le
      have hbound := hcomp'.length_log_le
      obtain ⟨s₃, hrun₃, hidle⟩ := ih _ (by omega) hcomp' (hconf₁.run hrun') rfl
      exact ⟨s₃, (hrun.trans hrun').trans hrun₃, hidle⟩
    · obtain ⟨s₂, hrun', hidle⟩ := hfin.return hcomp hconf₁ hend (hpcs 0 W.numThreads_pos)
      exact ⟨s₂, hrun.trans hrun', hidle⟩
    · rcases hno.pc 0 W.numThreads_pos with hpc | hpc | ⟨ops, hpc, -⟩
      · exact ⟨s₁, hrun, hpc⟩
      · obtain ⟨s₂, hrun', hidle⟩ := return_of_test (W := W) hpc hno.le
        exact ⟨s₂, hrun.trans hrun', hidle⟩
      · exact absurd hpc (hpcs 0 W.numThreads_pos ops)

/-- In a state of the start too. -/
lemma Starting.return (h : W.Starting n s) (hconf : W.Confined s) (hend : W.endIndex n < 2 ^ 31)
    (hinv : ∀ s', W.Run s s' → W.Starting n s' ∨ W.Computing n s') :
    ∃ s', W.Run s s' ∧ (s'.thread 0).pc = .idle := by
  obtain ⟨pre, op, rest, -, hpc, -⟩ := h.code
  obtain ⟨s₁, hrun, htest, -⟩ := run_code W.numThreads_pos hpc
  rcases hinv s₁ hrun with hstart | hcomp
  · obtain ⟨pre', op', rest', -, hpc', -⟩ := hstart.code
    rw [htest] at hpc'
    cases hpc'
  · obtain ⟨s₂, hrun', hidle⟩ := hcomp.return (hconf.run hrun) hend
    exact ⟨s₂, hrun.trans hrun', hidle⟩

lemma Starting.onTask (h : W.Starting n s) (hi : i < W.numThreads) {ops : List Op}
    (hpc : (s.thread i).pc = .code ops) {op : Op} (hop : op ∈ ops) : W.OnTask op := by
  by_cases h0 : i = 0
  · obtain ⟨pre, op', rest, hstart, hpc', -⟩ := h.code
    rw [h0, hpc'] at hpc
    cases hpc
    rcases List.mem_append.mp hop with hop | hop
    · have hmem : op ∈ W.startup n := by
        rw [hstart]
        exact List.mem_append_right _ hop
      rcases mem_startup hmem with rfl | rfl | hinit
      · trivial
      · trivial
      · exact InitOp.onTask hinit
    · exact TailOp.onTask (tail_dispatch.op op hop)
  · rw [(h.idle i hi h0).1] at hpc
    cases hpc

lemma Starting.not_switch (h : W.Starting n s) (hi : i < W.numThreads) :
    (s.thread i).pc ≠ .switch := by
  by_cases h0 : i = 0
  · obtain ⟨pre, op', rest, -, hpc', -⟩ := h.code
    rw [h0, hpc']
    exact nofun
  · rw [(h.idle i hi h0).1]
    exact nofun

variable (W) in
/-- What is expected of the states of a call on `n` samples: every block is computed, in an order
that respects the dependencies, and no step is on a task that does not exist. -/
structure Correct (n : ℤ) (s : SchedulerState) : Prop where
  justified : ∀ before e after, s.log = before ++ e :: after → W.Justified n before e
  complete : (s.thread 0).pc = .idle → ∀ k, W.blockIndex k < n →
    ∀ e ∈ W.blockEvents n k, s.log.count e = 1
  returns : ∃ s', W.Run s s' ∧ (s'.thread 0).pc = .idle
  caseBlock : ∀ i < W.numThreads, (s.thread i).pc = .switch →
    (W.G.caseBlock (s.thread i).tasknum).isSome
  onTask : ∀ i < W.numThreads, ∀ ops, (s.thread i).pc = .code ops → ∀ op ∈ ops, W.OnTask op

lemma Starting.correct (h : W.Starting n s) (hreturn : ∃ s', W.Run s s' ∧ (s'.thread 0).pc = .idle) :
    W.Correct n s where
  justified before e after heq := by
    rw [h.log] at heq
    simp at heq
  complete hidle := by
    obtain ⟨pre, op, rest, -, hpc, -⟩ := h.code
    rw [hpc] at hidle
    cases hidle
  returns := hreturn
  caseBlock i hi hpc := absurd hpc (h.not_switch hi)
  onTask i hi ops hpc op hop := h.onTask hi hpc hop

lemma Computing.correct (h : W.Computing n s)
    (hreturn : ∃ s', W.Run s s' ∧ (s'.thread 0).pc = .idle) : W.Correct n s where
  justified := by
    rw [← h.fFullcount]
    exact h.log.justified
  complete hidle k hk := h.complete hidle hk
  returns := hreturn
  caseBlock i hi := h.caseBlock hi
  onTask i hi ops hpc op hop := h.onTask hi hpc hop

/-- A call whose last block ends below 2^31 is correct. -/
theorem correct_of_endIndex_lt {s₀ : SchedulerState} (h : W.Quiescent s₀) (hn : IsInt32 n)
    (hend : W.endIndex n < 2 ^ 31) (hrun : W.Run (W.call s₀ n) s) : W.Correct n s := by
  have hinv : ∀ s', W.Run s s' → W.Starting n s' ∨ W.Computing n s' := fun s' hrun' =>
    (invariant h hn (hrun.trans hrun')).imp_right fun hor =>
      hor.resolve_right fun hover => by omega
  have hconf := (h.confined n).run hrun
  rcases hinv s .refl with hstart | hcomp
  · exact hstart.correct (hstart.return hconf hend hinv)
  · exact hcomp.correct (hcomp.return hconf hend)

/-- When the master thread has returned the index has reached the end. -/
lemma Computing.endIndex_lt (h : W.Computing n s) (hidle : (s.thread 0).pc = .idle) :
    W.endIndex n < 2 ^ 31 := by
  obtain ⟨k, hk⟩ := h.log.block
  have hle : n ≤ s.fIndex := by
    rw [← h.fFullcount]
    rcases h.phase with hrun | hfin | hno
    · exact absurd hidle hrun.master
    · exact hfin.le
    · exact hno.le
  have hend := (W.endIndex_le_iff k).mpr (hk ▸ hle)
  rw [← hk] at hend
  exact hend.trans_lt h.log.fIndex_lt

/-- When the index overflows, something is run at a negative index. -/
theorem Overflowed.not_justified (h : W.Overflowed s) (hconf : W.Confined s) :
    ∃ s', W.Run s s' ∧ ∃ e ∈ s'.log, ∀ before, ¬ W.Justified n before e := by
  obtain ⟨s', hrun, -, e, he, heq⟩ := h.running.event hconf
  have hneg := h.neg
  refine ⟨s', hrun, e, he, fun before hjust => ?_⟩
  have hblock : ∃ k, e.index = W.blockIndex k := by
    cases e with
    | loop p index count => exact hjust.2.1
    | last index => exact hjust.1
  obtain ⟨k, hk⟩ := hblock
  have := W.blockIndex_nonneg k
  omega

/-- A call is correct in every run exactly when its last block ends below 2^31: when the number of
samples, rounded up to a multiple of `VecSize`, is an `int`. -/
theorem compute_correct_iff {s₀ : SchedulerState} (h : W.Quiescent s₀) (hn : IsInt32 n) :
    (∀ s, W.Run (W.call s₀ n) s → W.Correct n s) ↔ W.endIndex n < 2 ^ 31 := by
  refine ⟨fun hall => ?_, fun hend s hrun => correct_of_endIndex_lt h hn hend hrun⟩
  obtain ⟨s, hrun, hidle⟩ := (hall _ .refl).returns
  rcases invariant h hn hrun with hstart | hcomp | ⟨-, s', hrun', hover⟩
  · obtain ⟨pre, op, rest, -, hpc, -⟩ := hstart.code
    rw [hpc] at hidle
    cases hidle
  · exact hcomp.endIndex_lt hidle
  · obtain ⟨s'', hrun'', e, he, hnot⟩ :=
      hover.not_justified (n := n) ((h.confined n).run hrun')
    obtain ⟨before, after, heq⟩ := List.append_of_mem he
    exact absurd ((hall s'' (hrun'.trans hrun'')).justified before e after heq) (hnot before)

/-- Four loops: two of them depend on the first one, and the last one on these two. -/
def diamond : LoopGraph where
  levels := [[3], [1, 2], [0]]
  backward
    | 1 | 2 => [0]
    | 3 => [1, 2]
    | _ => []
  last_ne_nil := by decide
  nodup := by decide
  nodup_backward p := by split <;> decide
  deeper l p hp q hq := by
    match l with
    | 0 =>
      obtain rfl := List.mem_singleton.mp hp
      exact ⟨1, by decide, hq⟩
    | 1 =>
      obtain rfl | rfl : p = 1 ∨ p = 2 := by simpa using hp
      · exact ⟨2, by decide, hq⟩
      · exact ⟨2, by decide, hq⟩
    | 2 =>
      obtain rfl := List.mem_singleton.mp hp
      cases hq
    | l + 3 => cases hp
  used l p hp := by
    match l with
    | 0 => exact ⟨3, by decide, hp⟩
    | 1 => exact ⟨1, by decide, hp⟩
    | l + 2 => cases hp

/-- The machine that runs it on two threads, four samples at a time. -/
def diamondWss : Wss where
  G := diamond
  fStaticNumThreads := 2
  numThreads := 2
  fOldfDynamicNumThreads := 1
  vecSize := 4
  numThreads_pos := by decide
  numThreads_le := by decide
  vecSize_pos := by decide
  vecSize_lt := by decide

/-- All threads wait. -/
def restState : SchedulerState where
  fIndex := 0
  fFullcount := 0
  taskGraph _ := 0
  taskQueue _ := []
  semaphore _ := 0
  thread _ := ⟨.idle, 0, 0, 0⟩
  log := []

lemma quiescent_restState (W : Wss) : W.Quiescent restState := ⟨fun _ _ => ⟨rfl, rfl⟩, rfl⟩

/-- Two blocks of four and three samples. -/
theorem compute_correct_iff_diamond : ∃ s, diamondWss.Run (diamondWss.call restState 7) s ∧
    (s.thread 0).pc = .idle ∧ s.log.count (.loop 3 0 4) = 1 ∧ s.log.count (.loop 0 4 3) = 1 ∧
    s.log.count (.last 4) = 1 := by
  have hall := (compute_correct_iff (quiescent_restState diamondWss) (n := 7) (by decide)).mpr
    (by decide)
  obtain ⟨s, hrun, hidle⟩ := (hall _ .refl).returns
  have hdone := (hall s hrun).complete hidle
  refine ⟨s, hrun, hidle, ?_, ?_, ?_⟩
  · exact hdone 0 (by decide) _ (by decide)
  · exact hdone 1 (by decide) _ (by decide)
  · exact hdone 1 (by decide) _ (by decide)

variable (W) in
/-- The state after the steps of some threads, one after the other, if they are all allowed. -/
def runSteps (ok : SchedulerState → ℕ → Bool) : List ℕ → SchedulerState → Option SchedulerState
  | [], s => some s
  | i :: is, s => if i < W.numThreads ∧ ok s i then (W.step s i).bind (runSteps ok is) else none

lemma run_runSteps {ok : SchedulerState → ℕ → Bool} {is : List ℕ}
    (hrun : W.runSteps ok is s = some s') : W.Run s s' := by
  induction is generalizing s with
  | nil =>
    cases hrun
    exact .refl
  | cons i is ih =>
    simp only [runSteps] at hrun
    split at hrun
    · rename_i hi
      obtain ⟨s₁, hstep, hrest⟩ := Option.bind_eq_some_iff.mp hrun
      exact (Run.single hi.1 hstep).trans (ih hrest)
    · cases hrun

/-- The same loops in blocks of 2^30 samples. -/
def largeWss : Wss :=
  { diamondWss with vecSize := 2 ^ 30, vecSize_pos := by decide, vecSize_lt := by decide }

/-- On 2^30 + 1 samples the index is 2^31 after two blocks: it wraps around, and a further block
begins at the index -2^31. -/
theorem not_compute_correct_large :
    ¬ ∀ s, largeWss.Run (largeWss.call restState (2 ^ 30 + 1)) s →
      largeWss.Correct (2 ^ 30 + 1) s := by
  intro hall
  have hlast : ((largeWss.runSteps (fun _ _ => true) (List.replicate 120 0)
      (largeWss.call restState (2 ^ 30 + 1))).bind fun s => s.log.getLast?) =
        some (.loop 0 (-2 ^ 31) (1 - 2 ^ 30)) := by
    decide +kernel
  obtain ⟨s, hrun, hlast⟩ := Option.bind_eq_some_iff.mp hlast
  obtain ⟨before, heq⟩ := List.getLast?_eq_some_iff.mp hlast
  obtain ⟨-, ⟨k, hk⟩, -⟩ := (hall s (run_runSteps hrun)).justified before _ [] heq
  have := largeWss.blockIndex_nonneg k
  omega

end Faust.Wss
