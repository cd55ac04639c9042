import Faust.Scheduler.Invariant

/-!
# Steps within a block

Each step of a thread keeps the invariant. A step that runs a loop records it; every other
step leaves the log as it is. The last task is the subject of the next file.
-/

namespace Faust.Wss

open LoopGraph Finset

variable {W : Wss} {s s' : SchedulerState} {i : ℕ}

lemma locals_code {th : Thread} {ops : List Op} (hpc : th.pc = .code ops)
    (hne : ∀ p rest, ops ≠ .loop p :: rest) : W.Locals s th := by
  unfold Locals
  rw [hpc]
  split
  · trivial
  · rename_i hcase
    cases hcase
  · rename_i p rest hcase
    cases hcase
    exact absurd rfl (hne p rest)
  · trivial

/-- A step between blocks of code, which changes the thread only. -/
lemma Running.move (h : W.Running s) (hi : i < W.numThreads) {th : Thread}
    (hthread : s'.thread = Function.update s.thread i th) (hqueue : s'.taskQueue = s.taskQueue)
    (hgraph : s'.taskGraph = s.taskGraph) (hframe : Frame s s' i)
    (htok : W.threadTokens th = W.threadTokens (s.thread i))
    (hnot : W.threadNotifies th = W.threadNotifies (s.thread i))
    (hcode : ∀ ops, th.pc = .code ops → W.Code ops)
    (hquiet : ∀ ops t, (s.thread i).pc = .code ops → ¬ W.Resets ops t)
    (hlocals : W.threadTokens th ≠ [] → W.Locals s th) (hidle : th.pc ≠ .idle) :
    W.Running s' := by
  have hself : s'.thread i = th := by rw [hthread, Function.update_self]
  have hledger : W.ledger s' = W.ledger s := by
    refine Ledger.ext (funext fun u => ?_) (funext fun u => ?_)
      (done_congr hframe.log hframe.fIndex hframe.fFullcount)
    · have := announced_update hi hthread u
      rw [hnot] at this
      omega
    · have := tokens_update (q := 0) (l := s.taskQueue 0) hi W.numThreads_pos hthread
        (by rw [hqueue, Function.update_eq_self]) u
      rw [htok] at this
      omega
  refine h.next hframe.thread hframe.fIndex hframe.fFullcount (by rwa [hself])
    (by rw [hledger]; exact h.balanced) (fun t _ _ ht => ?_) (fun hne => ?_) (by rwa [hself])
  · rw [hledger, hgraph]
    exact ht.imp_left fun hr =>
      resetting_of_ne hframe.thread hr fun ops hpc hres => absurd hres (hquiet ops t hpc)
  · have hold := hlocals (hself ▸ hne)
    rw [hself]
    unfold Locals blockCount at hold ⊢
    rwa [hframe.fIndex, hframe.fFullcount]

/-- A step of code that activates tasks. -/
lemma Running.exec_tail {op : Op} {rest : List Op} (h : W.Running s) (hconf : W.Confined s)
    (hi : i < W.numThreads) (hpc : (s.thread i).pc = .code (op :: rest)) (htail : W.Tail (op :: rest)) :
    W.Running (W.execOp s i op rest) := by
  obtain ⟨hframe, heffect, ops, hpc', htail', -⟩ :=
    Wss.exec_tail hi hpc htail (h.counted hconf hi hpc htail)
  have hother : ∀ {t : ℕ}, W.Resetting s t → W.Resetting (W.execOp s i op rest) t := by
    intro t hr
    refine resetting_of_ne hframe.thread hr fun ops hops hres => ?_
    rw [hpc] at hops
    cases hops
    exact absurd hres (htail.not_resets t)
  refine h.next hframe.thread hframe.fIndex hframe.fFullcount ?_ ?_ ?_ ?_ (by simp [hpc'])
  · intro ops' hops'
    rw [hpc'] at hops'
    cases hops'
    exact .tail htail'
  · cases heffect with
    | silent _ hledger =>
      rw [hledger]
      exact h.balanced
    | announce t ht _ hledger => exact h.balanced.announce hledger (htail.isTask ht)
  · intro t ht hlen hor
    rcases hor with hr | hcount
    · exact .inl (hother hr)
    refine .inr ?_
    cases heffect with
    | silent hgraph hledger => rw [hgraph, hledger, hcount]
    | announce u hu hgraph hledger =>
      have hpend := hledger.pending t
      by_cases htu : t = u
      · subst htu
        rw [if_pos rfl] at hpend
        rw [hgraph, if_pos hlen, Function.update_self]
        omega
      · rw [if_neg htu] at hpend
        have hsame : (W.execOp s i op rest).taskGraph t = s.taskGraph t := by
          rw [hgraph]
          split
          · rw [Function.update_of_ne htu]
          · rfl
        omega
  · rintro -
    refine locals_code hpc' fun p rest' heq => ?_
    exact htail'.op (.loop p) (heq ▸ List.mem_cons_self)

lemma InitOp.quiet {op : Op} (h : W.InitOp op) :
    op.notifies W.G = [] ∧ op.tokens W.G = [] ∧ op.overwrites = false := by
  cases op with
  | initTask t n => exact ⟨rfl, rfl, rfl⟩
  | initOne q => exact ⟨rfl, rfl, rfl⟩
  | _ => exact h.elim

/-- A step that initialises the block changes activation counts only. -/
lemma exec_initOp (i : ℕ) {op : Op} (rest : List Op) (hop : W.InitOp op)
    (hqueue : ∀ q < W.numThreads, s.taskQueue q = []) : ∃ g,
    W.execOp s i op rest = { s.goto i (.code rest) with taskGraph := g } ∧
    ∀ t, (g t = s.taskGraph t ∧ op ≠ .initTask t (W.G.preds t).length) ∨
      g t = (W.G.preds t).length := by
  cases op with
  | initTask t n =>
    obtain ⟨-, rfl⟩ := hop
    refine ⟨Function.update s.taskGraph t (W.G.preds t).length, rfl, fun u => ?_⟩
    by_cases hut : u = t
    · subst hut
      exact .inr (Function.update_self _ _ _)
    · refine .inl ⟨Function.update_of_ne hut _ _, fun heq => ?_⟩
      cases heq
      exact hut rfl
  | initOne q =>
    refine ⟨s.taskGraph, ?_, fun t => .inl ⟨rfl, by simp⟩⟩
    have hsame : s.setQueue q [] = s := by
      unfold SchedulerState.setQueue
      rw [← hqueue q hop, Function.update_eq_self]
    show (s.setQueue q []).goto i _ = _
    rw [hsame]
    rfl
  | _ => exact hop.elim

/-- A step that initialises a block. -/
lemma Running.exec_init {op : Op} {rest : List Op} (h : W.Running s) (hi : i < W.numThreads)
    (hpc : (s.thread i).pc = .code (op :: rest)) (hop : W.InitOp op) (hrest : W.InitCode rest) :
    W.Running (W.execOp s i op rest) := by
  have hinit : W.InitCode (op :: rest) := by
    obtain ⟨iops, fin, rfl, hiops, hfin, hready⟩ := hrest
    exact ⟨op :: iops, fin, rfl, List.forall_mem_cons.mpr ⟨hop, hiops⟩, hfin, hready⟩
  have hsources := sources_of_mem (s := s) hi fun u hu => by
    rw [threadNotifies_init hpc hinit]
    exact hinit.mem_notifies hu
  have hqueue : ∀ q < W.numThreads, s.taskQueue q = [] := fun q hq => by
    refine List.eq_nil_iff_forall_not_mem.mpr fun u hu => ?_
    have := List.count_pos_iff.mpr hu
    have := queue_count_le (s := s) hq u
    have := h.balanced.tokens_eq_zero_of_sources hsources u
    omega
  obtain ⟨g, hexec, hg⟩ := exec_initOp i rest hop hqueue
  obtain ⟨hnot, htok, hover⟩ := InitOp.quiet hop
  have hthread : (W.execOp s i op rest).thread =
      Function.update s.thread i { s.thread i with pc := .code rest } := by
    rw [hexec]
    rfl
  have hframe : Frame s (W.execOp s i op rest) i := by
    refine ⟨fun j hj => by rw [hthread, Function.update_of_ne hj], ?_, ?_, ?_⟩ <;> rw [hexec] <;> rfl
  have hself : ((W.execOp s i op rest).thread i).pc = .code rest := by
    rw [hthread, Function.update_self]
  have hledger : W.ledger (W.execOp s i op rest) = W.ledger s := by
    refine Ledger.ext (funext fun u => ?_) (funext fun u => ?_)
      (done_congr hframe.log hframe.fIndex hframe.fFullcount)
    · have := announced_update hi hthread u
      rw [threadNotifies_init hpc hinit, threadNotifies_init rfl hrest, notifies_cons, hnot,
        List.nil_append] at this
      omega
    · have := tokens_update (q := 0) (l := s.taskQueue 0) hi W.numThreads_pos hthread
        (by rw [hexec, Function.update_eq_self]; rfl) u
      rw [threadTokens_code hpc, threadTokens_code rfl, tokens_cons, htok, List.nil_append,
        List.any_cons, hover, Bool.false_or] at this
      dsimp only at this
      omega
  refine h.next hframe.thread hframe.fIndex hframe.fFullcount (fun ops hops => ?_)
    (by rw [hledger]; exact h.balanced) (fun t ht hlen hor => ?_) (fun _ => ?_)
    (by simp [hself])
  · rw [hself] at hops
    cases hops
    exact .init hrest
  · rw [hledger]
    have hgraph : (W.execOp s i op rest).taskGraph = g := by rw [hexec]
    rw [hgraph]
    rcases hg t with ⟨hsame, hne⟩ | hnew
    · rw [hsame]
      refine hor.imp_left fun hr => resetting_of_ne hframe.thread hr fun ops hops hres => ?_
      rw [hpc] at hops
      cases hops
      refine ⟨i, hi, rest, hself, .inl ?_⟩
      rcases hres with hmem | hhead
      · exact (List.mem_cons.mp hmem).resolve_left fun heq => hne heq.symm
      · cases hhead
        exact hop.elim
    · -- the count has been reset, and nothing has been announced yet
      refine .inr ?_
      have hann := h.balanced.announced_eq_zero_of_sources hsources ht (by rwa [card_preds])
      rw [hnew, Ledger.pending, hann, h.balanced.done_eq_empty hsources, Finset.sdiff_empty,
        card_preds, Nat.zero_add]
  · refine locals_code hself fun p rest' heq => ?_
    subst heq
    exact (hrest.op List.mem_cons_self).elim id id

/-! ## Running a loop -/

/-- A thread that is about to run a loop holds it. -/
lemma Running.holds_loop (h : W.Running s) (hi : i < W.numThreads) {p : ℕ} {rest : List Op}
    (hpc : (s.thread i).pc = .code (.loop p :: rest)) :
    0 < (W.ledger s).tokens (W.G.index p) ∧
      (s.thread i).index = s.fIndex ∧ (s.thread i).count = W.blockCount s := by
  have hmem : W.G.index p ∈ W.threadTokens (s.thread i) := by
    rw [threadTokens_code hpc, tokens_cons]
    exact List.mem_append_left _ (List.mem_append_left _ (List.mem_singleton_self _))
  have := List.count_pos_iff.mpr hmem
  have := thread_count_le (s := s) hi (W.G.index p)
  refine ⟨by omega, ?_⟩
  have hlocals := h.locals i hi (List.ne_nil_of_mem hmem)
  unfold Locals at hlocals
  rwa [hpc] at hlocals

lemma Running.run_loop (h : W.Running s) (hi : i < W.numThreads) {p : ℕ} {rest : List Op}
    (hpc : (s.thread i).pc = .code (.loop p :: rest)) (hp : p ∈ W.G.order)
    (hann : W.Announces p rest) :
    (W.ledger s).Run W.G.dag (W.ledger (W.execOp s i (.loop p) rest)) (W.G.index p) := by
  obtain ⟨-, hindex, hcount⟩ := h.holds_loop hi hpc
  have hthread : (W.execOp s i (.loop p) rest).thread =
      Function.update s.thread i { s.thread i with pc := .code rest } := rfl
  have hover := hann.overwrites
  refine ⟨fun u => ?_, fun u => ?_, ?_⟩
  · have := announced_update hi hthread u
    have hold : W.threadNotifies (s.thread i) = [] := by rw [threadNotifies, hpc]
    have hnew : W.threadNotifies { s.thread i with pc := .code rest } = W.notifies rest :=
      threadNotifies_tail rfl hann.tail
    rw [hold, hnew, hann.count, List.count_nil] at this
    simp only [mem_dag_preds]
    omega
  · have := tokens_update (q := 0) (l := s.taskQueue 0) hi W.numThreads_pos hthread
      (Function.update_eq_self _ _).symm u
    rw [threadTokens_code hpc, threadTokens_code rfl, tokens_cons, List.any_cons, hover,
      Bool.or_true, hann.tokens] at this
    simp only [if_true, List.append_nil, Op.tokens, List.count_singleton, beq_iff_eq,
      List.count_nil, @eq_comm _ (W.G.index p) u] at this
    omega
  · ext u
    have hlog : (W.execOp s i (.loop p) rest).log =
        s.log ++ [.loop p s.fIndex (W.blockCount s)] := by rw [← hindex, ← hcount]; rfl
    rw [Finset.mem_insert, mem_done_iff, mem_done_iff, hlog]
    constructor
    · rintro ⟨q, hq, rfl, hmem⟩
      rcases List.mem_append.mp hmem with hmem | hmem
      · exact .inr ⟨q, hq, rfl, hmem⟩
      · cases List.mem_singleton.mp hmem
        exact .inl rfl
    · rintro (rfl | ⟨q, hq, rfl, hmem⟩)
      · exact ⟨p, hp, rfl, List.mem_append_right _ (List.mem_singleton_self _)⟩
      · exact ⟨q, hq, rfl, List.mem_append_left _ hmem⟩

/-- The step that runs a loop. -/
lemma Running.exec_loop (h : W.Running s) (hi : i < W.numThreads) {p : ℕ} {rest : List Op}
    (hpc : (s.thread i).pc = .code (.loop p :: rest)) (hp : p ∈ W.G.order)
    (hann : W.Announces p rest) : W.Running (W.execOp s i (.loop p) rest) := by
  have hrun := h.run_loop hi hpc hp hann
  have hnot := h.balanced.notMem_done (h.holds_loop hi hpc).1
  have hthread : ∀ j ≠ i, (W.execOp s i (.loop p) rest).thread j = s.thread j :=
    fun j hj => Function.update_of_ne hj _ _
  have hself : ((W.execOp s i (.loop p) rest).thread i).pc = .code rest := by
    show (Function.update s.thread i _ i).pc = _
    rw [Function.update_self]
  refine h.next hthread rfl rfl (fun ops hops => ?_) (h.balanced.run hrun ?_)
    (fun t ht hlen hor => ?_) (fun _ => ?_) (by simp [hself])
  · rw [hself] at hops
    cases hops
    exact .tail hann.tail
  · exact List.mem_toFinset.mpr (List.mem_map_of_mem hp)
  · rw [hrun.pending hnot]
    refine hor.imp_left fun hr => resetting_of_ne hthread hr fun ops hops hres => ?_
    rw [hpc] at hops
    cases hops
    rcases hres with hmem | hhead
    · exact absurd (.inl ((List.mem_cons.mp hmem).resolve_left (by simp))) (hann.tail.not_resets t)
    · cases hhead
  · refine locals_code hself fun q rest' heq => ?_
    exact hann.tail.op (.loop q) (heq ▸ List.mem_cons_self)

/-! ## The start of a block -/

/-- The code of the initialisation of a block, before code that activates tasks. -/
structure Opens (W : Wss) (ops rest : List Op) : Prop where
  init : W.InitCode ops
  count : ∀ t, (W.notifies ops).count t = W.G.readyLoop.count t + (W.notifies rest).count t
  tokens : W.tokens ops = W.tokens rest
  overwrites : ops.any Op.overwrites = rest.any Op.overwrites
  resets : ∀ t, W.G.dag.IsTask t → 1 < (W.G.preds t).length → W.Resets ops t

lemma quiet_initOps : W.notifies W.initOps = [] ∧ W.tokens W.initOps = [] ∧
    W.initOps.any Op.overwrites = false := by
  refine ⟨?_, ?_, ?_⟩
  · exact List.flatMap_eq_nil_iff.mpr fun op hop => (InitOp.quiet (initOp_of_mem hop)).1
  · exact List.flatMap_eq_nil_iff.mpr fun op hop => (InitOp.quiet (initOp_of_mem hop)).2.1
  · refine List.any_eq_false.mpr fun op hop => ?_
    rw [(InitOp.quiet (initOp_of_mem hop)).2.2]
    exact Bool.false_ne_true

lemma tail_pushes {self : ℕ} (hself : self < W.numThreads) (cur : CurThread) {rest : List Op}
    (hrest : W.Tail rest) : W.Tail (W.pushes self cur ++ rest) := by
  obtain ⟨hops, -⟩ := pushes_spec hself cur
  refine ⟨fun op hop => ?_, live_append (fun op hop => (hops op hop).2) hrest.live⟩
  exact (List.mem_append.mp hop).elim (fun h => (hops op h).1) (hrest.op op)

theorem opens_initBlock {self : ℕ} (hself : self < W.numThreads) (cur : CurThread)
    {rest : List Op} (hrest : W.Tail rest) : W.Opens (W.initBlock self cur ++ rest) rest := by
  obtain ⟨-, hcount, htokens, hover⟩ := pushes_spec hself cur
  obtain ⟨hnot, htok, hov⟩ := quiet_initOps (W := W)
  rw [initBlock_eq, List.append_assoc]
  refine ⟨⟨W.initOps, W.pushes self cur ++ rest, rfl, fun op => initOp_of_mem,
    tail_pushes hself cur hrest, fun t ht => ?_⟩, fun t => ?_, ?_, ?_, fun t ht hlen => ?_⟩
  · rw [notifies_append, List.mem_append, ← List.count_pos_iff, hcount]
    exact .inl (List.count_pos_iff.mpr ht)
  · rw [notifies_append, notifies_append, hnot, List.nil_append, List.count_append, hcount]
  · rw [tokens_append, tokens_append, htok, htokens]
    rfl
  · rw [List.any_append, List.any_append, hov, hover]
    rfl
  · exact .inl (List.mem_append_left _ (initTask_mem_initOps ht hlen))

lemma tail_getNextTask : W.Tail [.getNextTask 0 W.numThreads] := tail_singleton W.numThreads_pos

lemma tail_storeTasknum : W.Tail [.storeTasknum workStealingIndex] := tail_singleton (.inl rfl)

/-- The step that begins the initialisation of the next block. -/
lemma Running.exec_ifMore (h : W.Running s) (hi : i < W.numThreads)
    (hpc : (s.thread i).pc = .code [.ifMore, .storeTasknum workStealingIndex]) :
    W.Running (W.execOp s i .ifMore [.storeTasknum workStealingIndex]) ∧
      Frame s (W.execOp s i .ifMore [.storeTasknum workStealingIndex]) i := by
  set s' := W.execOp s i .ifMore [.storeTasknum workStealingIndex] with hs'
  set ops := W.initBlock i .numThread ++ [.storeTasknum workStealingIndex] with hops
  have hexec : s' = s.goto i (.code ops) := by
    rw [hs']
    simp only [execOp, h.lt, if_true, hops]
  have hopens : W.Opens ops [.storeTasknum workStealingIndex] :=
    opens_initBlock hi .numThread tail_storeTasknum
  have hthread : s'.thread = Function.update s.thread i { s.thread i with pc := .code ops } := by
    rw [hexec]
    rfl
  have hframe : Frame s s' i := by
    refine ⟨fun j hj => by rw [hthread, Function.update_of_ne hj], ?_, ?_, ?_⟩ <;> rw [hexec] <;> rfl
  have hself : (s'.thread i).pc = .code ops := by rw [hthread, Function.update_self]
  have hledger : W.ledger s' = W.ledger s := by
    refine Ledger.ext (funext fun u => ?_) (funext fun u => ?_)
      (done_congr hframe.log hframe.fIndex hframe.fFullcount)
    · have := announced_update hi hthread u
      have hold := threadNotifies_code (W := W) hpc (by simp) (by simp)
      have hnew : W.threadNotifies { s.thread i with pc := .code ops } = W.notifies ops :=
        threadNotifies_init rfl hopens.init
      rw [hold, hnew, hopens.count, notifies_cons, List.count_append] at this
      simp only [Op.notifies] at this
      omega
    · have := tokens_update (q := 0) (l := s.taskQueue 0) hi W.numThreads_pos hthread
        (by rw [hexec, Function.update_eq_self]; rfl) u
      rw [threadTokens_code hpc, threadTokens_code rfl, hopens.tokens, hopens.overwrites] at this
      simp only [tokens_cons, Op.tokens, List.any_cons, Op.overwrites, List.nil_append,
        Bool.false_or, Bool.true_or, if_true] at this
      omega
  refine ⟨h.next hframe.thread hframe.fIndex hframe.fFullcount (fun ops' hops' => ?_)
    (by rw [hledger]; exact h.balanced)
    (fun t ht hlen _ => .inl ⟨i, hi, ops, hself, hopens.resets t ht hlen⟩) (fun _ => ?_)
    (by simp [hself]), hframe⟩
  · rw [hself] at hops'
    cases hops'
    exact .init hopens.init
  · refine locals_code hself fun p rest heq => ?_
    have hmem : .loop p ∈ ops := heq ▸ List.mem_cons_self
    exact (hopens.init.op hmem).elim id id

/-! ## Any step -/

/-- What a step does while there is a block to compute. -/
inductive StepOf (W : Wss) (s s' : SchedulerState) (i : ℕ) : Prop
  | silent (h : W.Running s') (hframe : Frame s s' i)
  | loop (p : ℕ) (rest : List Op) (hpc : (s.thread i).pc = .code (.loop p :: rest))
    (hp : p ∈ W.G.order) (hann : W.Announces p rest)
    (heq : s' = W.execOp s i (.loop p) rest)
  | last (hpc : (s.thread i).pc = .code [.addIndex, .ifMore, .storeTasknum workStealingIndex])
    (heq : s' = W.execOp s i .addIndex [.ifMore, .storeTasknum workStealingIndex])

/-- The code of a `case` holds the task it runs, and nothing else. -/
lemma code_caseBlock (hi : i < W.numThreads) {t : ℕ} (ht : W.G.dag.IsTask t) :
    ∃ block, W.G.caseBlock t = some block ∧ W.Code (W.expands i block) ∧
      W.tokens (W.expands i block) = [t] ∧ (W.expands i block).any Op.overwrites = true ∧
      ∀ th : Thread, th.pc = .code (W.expands i block) → W.threadNotifies th = [] := by
  rcases isTask_iff.mp ht with ⟨p, hp, rfl⟩ | rfl
  · have hann := announces_activation (W := W) hp hi
    have hblock : W.expands i (.loop p :: W.G.activation p) =
        .loop p :: W.expands i (W.G.activation p) := rfl
    refine ⟨_, caseBlock_index hp, ?_⟩
    rw [hblock]
    refine ⟨.loop hp hann, ?_, ?_, fun th hth => by rw [threadNotifies, hth]⟩
    · rw [tokens_cons, hann.tokens]
      rfl
    · rw [List.any_cons, hann.overwrites, Bool.or_true]
  · exact ⟨_, caseBlock_lastTask, .last, rfl, rfl, fun th hth => by rw [threadNotifies, hth]; rfl⟩

/-- A step between two blocks of code. -/
lemma Running.step_switch (h : W.Running s) (hi : i < W.numThreads)
    (hpc : (s.thread i).pc = .switch) : ∃ block, W.G.caseBlock (s.thread i).tasknum = some block ∧
      W.Running (s.goto i (.code (W.expands i block))) := by
  have hframe : ∀ pc, Frame s (s.goto i pc) i := fun pc =>
    ⟨fun j hj => Function.update_of_ne hj _ _, rfl, rfl, rfl⟩
  have hnot : W.threadNotifies (s.thread i) = [] := by rw [threadNotifies, hpc]
  have htok : W.threadTokens (s.thread i) = held (s.thread i).tasknum := by rw [threadTokens, hpc]
  by_cases hw : (s.thread i).tasknum = workStealingIndex
  · -- look for work
    refine ⟨[.getNextTask], by rw [hw, caseBlock_workStealing], ?_⟩
    have htail : W.Tail (W.expands i [.getNextTask]) :=
      tail_getNextTask
    refine h.move hi rfl rfl rfl (hframe _) ?_ ?_ (fun ops hops => ?_) (fun ops t hops => ?_)
      (fun hne => ?_) (by simp)
    · rw [htok, hw]
      rfl
    · rw [hnot]
      rfl
    · cases hops
      exact .tail htail
    · rw [hpc] at hops
      cases hops
    · exact locals_code rfl fun p rest heq => by cases heq
  · have ht := h.isTask_of_mem_tokens hi (t := (s.thread i).tasknum) (by
      rw [htok, held_of_ne hw]
      exact List.mem_singleton_self _)
    obtain ⟨block, hblock, hcode, htokens, hover, hnew⟩ := code_caseBlock hi ht
    refine ⟨block, hblock, h.move hi rfl rfl rfl (hframe _) ?_ ?_ (fun ops hops => ?_)
      (fun ops t hops => ?_) (fun hne => ?_) (by simp)⟩
    · rw [htok, held_of_ne hw, threadTokens_code rfl, htokens, hover]
      rfl
    · rw [hnot]
      exact hnew _ rfl
    · cases hops
      exact hcode
    · rw [hpc] at hops
      cases hops
    · have hold := h.locals i hi (by rw [htok, held_of_ne hw]; exact List.cons_ne_nil _ _)
      unfold Locals at hold ⊢
      rw [hpc] at hold
      dsimp only at hold ⊢
      split
      · trivial
      · trivial
      · exact hold
      · trivial

/-- Every step keeps the invariant, but for the one that ends the block. -/
theorem Running.step (h : W.Running s) (hconf : W.Confined s) (hi : i < W.numThreads)
    (hstep : W.step s i = some s') : W.StepOf s s' i := by
  have hframe : ∀ th, Frame s (s.setThread i th) i := fun th =>
    ⟨fun j hj => Function.update_of_ne hj _ _, rfl, rfl, rfl⟩
  have hmove : ∀ {s' : SchedulerState} {th : Thread}, Frame s s' i →
      s'.thread = Function.update s.thread i th → s'.taskQueue = s.taskQueue →
      s'.taskGraph = s.taskGraph → (∀ ops, (s.thread i).pc ≠ .code ops) →
      (∀ ops, th.pc ≠ .code ops) → W.threadTokens th = W.threadTokens (s.thread i) →
      (W.threadTokens th ≠ [] → W.Locals s th) → th.pc ≠ .idle → W.StepOf s s' i := by
    intro s' th hframe hthread hqueue hgraph hold hnew htok hlocals hidle
    refine .silent (h.move hi hthread hqueue hgraph hframe htok ?_ (fun ops hops => ?_)
      (fun ops t hops => absurd hops (hold ops)) hlocals hidle) hframe
    · have hquiet : ∀ th : Thread, (∀ ops, th.pc ≠ .code ops) → W.threadNotifies th = [] := by
        intro th hth
        cases hpc : th.pc with
        | code ops => exact absurd hpc (hth ops)
        | _ => rw [threadNotifies, hpc]
      rw [hquiet _ hold, hquiet _ hnew]
    · exact absurd hops (hnew ops)
  unfold Wss.step at hstep
  cases hpc : (s.thread i).pc with
  | idle =>
    simp only [hpc] at hstep
    split at hstep
    · cases hstep
      refine hmove ⟨fun j hj => Function.update_of_ne hj _ _, rfl, rfl, rfl⟩ rfl rfl rfl
        (by simp [hpc]) (by simp) ?_ (fun _ => trivial) (by simp)
      have hold : W.threadTokens (s.thread i) = [] := by rw [threadTokens, hpc]
      rw [hold]
      rfl
    · cases hstep
  | test =>
    simp only [hpc, h.lt, if_true, Option.some.injEq] at hstep
    subst hstep
    refine hmove (hframe _) rfl rfl rfl (by simp [hpc]) (by simp) ?_ (fun _ => trivial) (by simp)
    rw [threadTokens, threadTokens, hpc]
  | loadIndex =>
    simp only [hpc, Option.some.injEq] at hstep
    subst hstep
    refine hmove (hframe _) rfl rfl rfl (by simp [hpc]) (by simp) ?_ (fun _ => rfl) (by simp)
    rw [threadTokens, threadTokens, hpc]
  | loadCount =>
    simp only [hpc, Option.some.injEq] at hstep
    subst hstep
    have htok : ∀ n, W.threadTokens { s.thread i with pc := .switch, count := n } =
        W.threadTokens (s.thread i) := fun n => by rw [threadTokens, threadTokens, hpc]
    refine hmove (hframe _) rfl rfl rfl (by simp [hpc]) (by simp) (htok _) (fun hne => ?_)
      (by simp)
    have hlocals := h.locals i hi (htok _ ▸ hne)
    unfold Locals at hlocals
    rw [hpc] at hlocals
    exact ⟨hlocals, rfl⟩
  | switch =>
    obtain ⟨block, hblock, hrun⟩ := h.step_switch hi hpc
    simp only [hpc, hblock, Option.some.injEq] at hstep
    exact hstep ▸ .silent hrun (hframe _)
  | code ops =>
    cases ops with
    | nil =>
      simp only [hpc, Option.some.injEq] at hstep
      subst hstep
      refine .silent (h.move hi rfl rfl rfl (hframe _) ?_ ?_ (by simp) (fun ops t hops => ?_)
        (fun _ => trivial) (by simp)) (hframe _)
      · rw [threadTokens_code hpc]
        rfl
      · rw [threadNotifies, threadNotifies, hpc]
        rfl
      · rw [hpc] at hops
        cases hops
        rintro (hmem | hhead)
        · cases hmem
        · cases hhead
    | cons op rest =>
      simp only [hpc, Option.some.injEq] at hstep
      subst hstep
      rcases (h.code i hi _ hpc).cons_inv with htail | ⟨hop, hrest⟩ | ⟨p, hp, rfl, hann⟩ |
        ⟨rfl, rfl⟩ | ⟨rfl, rfl⟩
      · exact .silent (h.exec_tail hconf hi hpc htail)
          (Wss.exec_tail hi hpc htail (h.counted hconf hi hpc htail)).toFrame
      · refine .silent (h.exec_init hi hpc hop hrest) ?_
        cases op with
        | initTask t n => exact ⟨fun j hj => Function.update_of_ne hj _ _, rfl, rfl, rfl⟩
        | initOne q => exact ⟨fun j hj => Function.update_of_ne hj _ _, rfl, rfl, rfl⟩
        | _ => exact hop.elim
      · exact .loop p rest hpc hp hann rfl
      · exact .last hpc rfl
      · obtain ⟨hrun, hframe⟩ := h.exec_ifMore hi hpc
        exact .silent hrun hframe

end Faust.Wss
