import Faust.Scheduler.LoopDag
import Faust.Scheduler.Threads

/-!
# Accounting of tasks in the generated code

A step of a thread may hold a task that is ready (`tokens`), and may announce to a task that
one of the tasks it depends on has been run (`notifies`). This file counts both in the code
the generator writes: after a loop the code announces it once to each task that depends on
it, and holds no task.
-/

namespace Faust

open LoopGraph

namespace Op

variable (G : LoopGraph)

/-- The ready tasks that a step holds. A task with several inputs is pushed when it is ready,
a task with at most one is pushed directly after its input. -/
def tokens : Op → List ℕ
  | .loop p => [G.index p]
  | .addIndex => [lastTaskIndex]
  | .pushHead _ t => if 1 < (G.preds t).length then [t] else []
  | _ => []

/-- The tasks to which a step announces an input. A ready task is announced once, by the
initialisation of the block. -/
def notifies : Op → List ℕ
  | .activateOneOutputTask t | .activateOutputTask1 t | .activateOutputTask2 t => [t]
  | .storeTasknum n => if n = workStealingIndex then [] else [n]
  | .pushHead _ t => if 1 < (G.preds t).length then [] else [t]
  | .ifMore => G.readyLoop
  | _ => []

/-- The step sets `tasknum` whatever it was. -/
def overwrites : Op → Bool
  | .storeTasknum _ | .activateOneOutputTask _ | .popHead | .getNextTask _ _ => true
  | _ => false

/-- The step may put a task in `tasknum`. -/
def setsTasknum : Op → Bool
  | .storeTasknum n => n ≠ workStealingIndex
  | .activateOneOutputTask _ | .activateOutputTask1 _ | .popHead | .getNextTask _ _
  | .getReadyTask => true
  | _ => false

end Op

/-- A task that is put in `tasknum` is not overwritten. -/
def Live : List Op → Prop
  | [] => True
  | op :: rest => (op.setsTasknum = true → rest.any Op.overwrites = false) ∧ Live rest

lemma live_of_not_overwrites {ops : List Op} (h : ops.any Op.overwrites = false) : Live ops := by
  induction ops with
  | nil => trivial
  | cons op ops ih =>
    rw [List.any_cons, Bool.or_eq_false_iff] at h
    exact ⟨fun _ => h.2, ih h.2⟩

lemma live_append {ops ops' : List Op} (h : ∀ op ∈ ops, op.setsTasknum = false)
    (h' : Live ops') : Live (ops ++ ops') := by
  induction ops with
  | nil => exact h'
  | cons op ops ih =>
    refine ⟨fun hs => ?_, ih fun op' hop' => h op' (by simp [hop'])⟩
    rw [h op (by simp)] at hs
    cases hs

namespace Wss

variable (W : Wss)

/-- The steps that the activation of tasks is made of. -/
def TailOp : Op → Prop
  | .storeTasknum n => n = workStealingIndex ∨ W.G.dag.IsTask n ∧ (W.G.preds n).length = 1
  | .activateOneOutputTask t | .activateOutputTask1 t | .activateOutputTask2 t =>
    W.G.dag.IsTask t ∧ 1 < (W.G.preds t).length
  | .pushHead q t => q < W.numThreads ∧ W.G.dag.IsTask t
  | .getNextTask q num_threads => q < num_threads
  | .popHead | .getReadyTask | .signal _ => True
  | _ => False

/-- The steps that reset the activation counts and the queues. -/
def InitOp : Op → Prop
  | .initTask t n => W.G.dag.IsTask t ∧ n = (W.G.preds t).length
  | .initOne q => q < W.numThreads
  | _ => False

/-- Code that activates tasks. -/
structure Tail (ops : List Op) : Prop where
  op : ∀ op ∈ ops, W.TailOp op
  live : Live ops

variable {W}

lemma Tail.cons_inv {op : Op} {ops : List Op} (h : W.Tail (op :: ops)) : W.Tail ops :=
  ⟨fun op' hop' => h.op op' (by simp [hop']), h.live.2⟩

lemma Tail.cons {op : Op} {ops : List Op} (h : W.Tail ops) (hop : W.TailOp op)
    (hlive : op.setsTasknum = true → ops.any Op.overwrites = false) : W.Tail (op :: ops) :=
  ⟨List.forall_mem_cons.mpr ⟨hop, h.op⟩, hlive, h.live⟩

variable (W)

/-- The tasks announced by a list of steps. -/
def notifies (ops : List Op) : List ℕ := ops.flatMap (Op.notifies W.G)

/-- The ready tasks held by a list of steps. -/
def tokens (ops : List Op) : List ℕ := ops.flatMap (Op.tokens W.G)

@[simp] lemma notifies_nil : W.notifies [] = [] := rfl

@[simp] lemma notifies_cons (op : Op) (ops : List Op) :
    W.notifies (op :: ops) = op.notifies W.G ++ W.notifies ops := rfl

@[simp] lemma notifies_append (ops ops' : List Op) :
    W.notifies (ops ++ ops') = W.notifies ops ++ W.notifies ops' := List.flatMap_append

@[simp] lemma tokens_nil : W.tokens [] = [] := rfl

@[simp] lemma tokens_cons (op : Op) (ops : List Op) :
    W.tokens (op :: ops) = op.tokens W.G ++ W.tokens ops := rfl

@[simp] lemma tokens_append (ops ops' : List Op) :
    W.tokens (ops ++ ops') = W.tokens ops ++ W.tokens ops' := List.flatMap_append

/-! ## After a loop -/

/-- What the code after the loop `p` must be. -/
structure Announces (p : ℕ) (ops : List Op) : Prop where
  tail : W.Tail ops
  count : ∀ t, (W.notifies ops).count t = if W.G.index p ∈ W.G.preds t then 1 else 0
  tokens : W.tokens ops = []
  overwrites : ops.any Op.overwrites = true

variable {W}

lemma index_mem_preds_iff_last {p : ℕ} (hp : p ∈ W.G.lastLevel) (t : ℕ) :
    W.G.index p ∈ W.G.preds t ↔ t = lastTaskIndex := by
  have hpo := mem_order_of_mem_lastLevel hp
  constructor
  · intro h
    obtain ⟨q, hq, heq, ⟨rfl, -⟩ | ⟨r, hr, rfl, hqr⟩⟩ := exists_of_mem_preds h
    · rfl
    · rw [index_inj hq hpo heq] at hqr
      exact absurd hqr (notMem_backward_of_mem_lastLevel hp hr)
  · rintro rfl
    exact (index_mem_preds_last hpo).mpr hp

lemma index_mem_preds_iff_forward {p : ℕ} (hp : p ∈ W.G.order) (hlast : p ∉ W.G.lastLevel)
    (t : ℕ) : W.G.index p ∈ W.G.preds t ↔ t ∈ (W.G.forward p).map W.G.index := by
  rw [List.mem_map]
  constructor
  · intro h
    obtain ⟨q, hq, heq, ⟨rfl, hql⟩ | ⟨r, hr, rfl, hqr⟩⟩ := exists_of_mem_preds h
    · exact absurd (index_inj hq hp heq ▸ hql) hlast
    · exact ⟨r, mem_forward.mpr ⟨hr, index_inj hq hp heq ▸ hqr⟩, rfl⟩
  · rintro ⟨s, hs, rfl⟩
    obtain ⟨hso, hps⟩ := mem_forward.mp hs
    exact (index_mem_preds_index hp hso).mpr hps

/-- A list of announcements that is a permutation of the loops that depend on `p`. -/
lemma count_of_perm {p : ℕ} (hp : p ∈ W.G.order) (hlast : p ∉ W.G.lastLevel) {l : List ℕ}
    (h : l.Perm ((W.G.forward p).map W.G.index)) (t : ℕ) :
    l.count t = if W.G.index p ∈ W.G.preds t then 1 else 0 := by
  have hnd : ((W.G.forward p).map W.G.index).Nodup :=
    (nodup_forward p).map_on fun q hq r hr heq =>
      index_inj (mem_forward.mp hq).1 (mem_forward.mp hr).1 heq
  rw [h.count_eq, hnd.count]
  simp only [index_mem_preds_iff_forward hp hlast]

/-- A loop that depends on `p` has one input, or several. -/
lemma one_lt_of_mem_forward {p s : ℕ} (hs : s ∈ W.G.forward p)
    (h : (W.G.backward s).length ≠ 1) : 1 < (W.G.preds (W.G.index s)).length := by
  obtain ⟨hso, hps⟩ := mem_forward.mp hs
  have := List.length_pos_of_mem hps
  rw [length_preds_index hso]
  omega

lemma announces_activateLast {p self : ℕ} (hp : p ∈ W.G.lastLevel) :
    W.Announces p (W.expands self W.G.activateLast) := by
  have hlen : (W.G.preds lastTaskIndex).length = W.G.lastLevel.length := by simp
  unfold activateLast
  split
  · rename_i h
    refine ⟨⟨?_, ?_⟩, fun t => ?_, rfl, rfl⟩
    · simp only [expands, expand, List.flatMap_cons, List.flatMap_nil, List.append_nil,
        List.mem_singleton, forall_eq]
      exact .inr ⟨isTask_last, by rw [hlen, h]⟩
    · exact ⟨fun _ => rfl, trivial⟩
    · show [lastTaskIndex].count t = _
      simp only [List.count_singleton, beq_iff_eq, index_mem_preds_iff_last hp, @eq_comm _ t]
  · rename_i h
    have hpos := List.length_pos_of_mem hp
    refine ⟨⟨?_, ?_⟩, fun t => ?_, rfl, rfl⟩
    · simp only [expands, expand, List.flatMap_cons, List.flatMap_nil, List.append_nil,
        List.mem_singleton, forall_eq]
      exact ⟨isTask_last, by rw [hlen]; omega⟩
    · exact ⟨fun _ => rfl, trivial⟩
    · show [lastTaskIndex].count t = _
      simp only [List.count_singleton, beq_iff_eq, index_mem_preds_iff_last hp, @eq_comm _ t]

lemma tail_singleton {op : Op} (h : W.TailOp op) : W.Tail [op] :=
  ⟨List.forall_mem_singleton.mpr h, fun _ => rfl, trivial⟩

/-- Activating the outputs of `p` when none is kept. -/
lemma expand_activateOutput_none {self s : ℕ}
    (h : (W.G.backward s).length ≠ 1) :
    W.expands self (W.G.activateOutput none s) = [.activateOutputTask1 (W.G.index s)] := by
  rw [activateOutput, if_neg h]
  rfl

/-- Activating an output of `p` that is not the one that is kept. -/
lemma expand_activateOutput_some {p self keep s : ℕ} (hs : s ∈ W.G.forward p)
    (hkeep : (W.G.backward keep).length = 1) (hself : self < W.numThreads) :
    (∀ op ∈ W.expands self (W.G.activateOutput (some keep) s),
      W.TailOp op ∧ op.setsTasknum = false) ∧
    W.notifies (W.expands self (W.G.activateOutput (some keep) s)) =
      (if s = keep then [] else [W.G.index s]) ∧
    W.tokens (W.expands self (W.G.activateOutput (some keep) s)) = [] := by
  obtain ⟨hso, hps⟩ := mem_forward.mp hs
  have hlen := length_preds_index hso
  unfold activateOutput
  by_cases h1 : (W.G.backward s).length = 1
  · rw [if_pos h1]
    have hpreds : ¬ 1 < (W.G.preds (W.G.index s)).length := by omega
    by_cases hk : s = keep
    · simp [hk, expands, notifies, tokens]
    · rw [if_pos (by simpa using hk), if_neg hk]
      refine ⟨?_, ?_, ?_⟩
      · intro op hop
        obtain rfl : op = .pushHead self (W.G.index s) := by
          simpa [expands, expand] using hop
        exact ⟨⟨hself, isTask_index hso⟩, rfl⟩
      · simp [expands, expand, notifies, Op.notifies, hpreds]
      · simp [expands, expand, tokens, Op.tokens, hpreds]
  · rw [if_neg h1]
    have hk : s ≠ keep := fun h => h1 (h ▸ hkeep)
    rw [if_neg hk]
    refine ⟨?_, rfl, rfl⟩
    intro op hop
    obtain rfl : op = .activateOutputTask2 (W.G.index s) := by
      simpa [expands, expand] using hop
    exact ⟨⟨isTask_index hso, one_lt_of_mem_forward hs h1⟩, rfl⟩

lemma expands_append (self : ℕ) (c c' : List Instr) :
    W.expands self (c ++ c') = W.expands self c ++ W.expands self c' := List.flatMap_append

lemma expands_flatMap (self : ℕ) (ss : List ℕ) (f : ℕ → List Instr) :
    W.expands self (ss.flatMap f) = ss.flatMap fun s => W.expands self (f s) := by
  rw [expands, List.flatMap_assoc]
  rfl

/-- The outputs are activated by a loop over them, and none is kept. -/
lemma announces_none {p self : ℕ} (hp : p ∈ W.G.order) (hlast : p ∉ W.G.lastLevel)
    (hne : ∀ s ∈ W.G.forward p, (W.G.backward s).length ≠ 1) :
    W.Announces p (W.expands self (.storeTasknum workStealingIndex ::
      (W.G.forward p).flatMap (W.G.activateOutput none) ++ [.getReadyTask])) := by
  have hforward := fun s (hs : s ∈ W.G.forward p) => (mem_forward.mp hs).1
  set acts := (W.G.forward p).map fun s => Op.activateOutputTask1 (W.G.index s) with hacts
  have hexp : W.expands self (.storeTasknum workStealingIndex ::
      (W.G.forward p).flatMap (W.G.activateOutput none) ++ [.getReadyTask]) =
      .storeTasknum workStealingIndex :: (acts ++ [.getReadyTask]) := by
    show _ :: W.expands self (_ ++ _) = _
    rw [expands_append, expands_flatMap, hacts, List.map_eq_flatMap]
    congr 2
    exact List.flatMap_congr fun s hs => expand_activateOutput_none (hne s hs)
  have hquiet : (acts ++ [Op.getReadyTask]).any Op.overwrites = false := by
    rw [List.any_eq_false]
    intro op hop
    simp only [hacts, List.mem_append, List.mem_map, List.mem_singleton] at hop
    rcases hop with ⟨s, -, rfl⟩ | rfl <;> exact Bool.false_ne_true
  have hnotifies : W.notifies acts = (W.G.forward p).map W.G.index := by
    rw [hacts, notifies, List.flatMap_map, List.map_eq_flatMap]
    rfl
  have htokens : W.tokens acts = [] := by
    rw [tokens, List.flatMap_eq_nil_iff]
    intro op hop
    obtain ⟨s, -, rfl⟩ := List.mem_map.mp hop
    rfl
  rw [hexp]
  refine ⟨⟨?_, fun h => ?_, live_of_not_overwrites hquiet⟩, fun t => ?_, ?_, rfl⟩
  · intro op hop
    simp only [hacts, List.mem_cons, List.mem_append, List.mem_map, List.not_mem_nil,
      or_false] at hop
    rcases hop with rfl | ⟨s, hs, rfl⟩ | rfl
    · exact .inl rfl
    · exact ⟨isTask_index (hforward s hs), one_lt_of_mem_forward hs (hne s hs)⟩
    · trivial
  · exact hquiet
  · rw [notifies_cons, notifies_append, hnotifies]
    exact count_of_perm hp hlast (by simp [Op.notifies]) t
  · rw [tokens_cons, tokens_append, htokens]
    rfl

/-- The outputs are activated by a loop over them, and `keep` is run next. -/
lemma announces_some {p self keep : ℕ} (hp : p ∈ W.G.order) (hlast : p ∉ W.G.lastLevel)
    (hself : self < W.numThreads) (hkeep : keep ∈ W.G.forward p)
    (hlen : (W.G.backward keep).length = 1) :
    W.Announces p (W.expands self ((W.G.forward p).flatMap (W.G.activateOutput (some keep)) ++
      [.storeTasknum (W.G.index keep)])) := by
  have hforward := fun s (hs : s ∈ W.G.forward p) => (mem_forward.mp hs).1
  have hout := fun s hs => @expand_activateOutput_some W p self keep s hs hlen hself
  have hne : W.G.index keep ≠ workStealingIndex := by
    have := two_le_index (hforward keep hkeep)
    rw [workStealingIndex]
    omega
  set acts := (W.G.forward p).flatMap fun s =>
    W.expands self (W.G.activateOutput (some keep) s) with hacts
  have hexp : W.expands self ((W.G.forward p).flatMap (W.G.activateOutput (some keep)) ++
      [.storeTasknum (W.G.index keep)]) = acts ++ [.storeTasknum (W.G.index keep)] := by
    rw [expands_append, expands_flatMap]
    rfl
  have hop : ∀ op ∈ acts, W.TailOp op ∧ op.setsTasknum = false := by
    intro op hop
    obtain ⟨s, hs, hop⟩ := List.mem_flatMap.mp hop
    exact (hout s hs).1 op hop
  have hnotifies : W.notifies acts = ((W.G.forward p).erase keep).map W.G.index := by
    rw [hacts, notifies, List.flatMap_assoc, (nodup_forward p).erase_eq_filter]
    have hrest : ∀ ss : List ℕ, (∀ s ∈ ss, s ∈ W.G.forward p) →
        ss.flatMap (fun s => W.notifies (W.expands self (W.G.activateOutput (some keep) s))) =
          (ss.filter (· != keep)).map W.G.index := by
      intro ss hss
      induction ss with
      | nil => rfl
      | cons s ss ih =>
        rw [List.flatMap_cons, (hout s (hss s (by simp))).2.1,
          ih fun s' hs' => hss s' (by simp [hs'])]
        by_cases hs : s = keep
        · simp [hs]
        · rw [if_neg hs, List.filter_cons_of_pos (by simpa using hs)]
          rfl
    exact hrest _ fun _ => id
  have htokens : W.tokens acts = [] := by
    rw [tokens, List.flatMap_eq_nil_iff]
    intro op hop
    obtain ⟨s, hs, hop⟩ := List.mem_flatMap.mp hop
    have := (hout s hs).2.2
    rw [tokens, List.flatMap_eq_nil_iff] at this
    exact this op hop
  have hstore : W.TailOp (.storeTasknum (W.G.index keep)) :=
    .inr ⟨isTask_index (hforward keep hkeep), by
      rw [length_preds_index (hforward keep hkeep), hlen]⟩
  rw [hexp]
  refine ⟨⟨?_, live_append (fun op h => (hop op h).2) ⟨fun _ => rfl, trivial⟩⟩,
    fun t => ?_, ?_, ?_⟩
  · intro op hop'
    rcases List.mem_append.mp hop' with hop' | hop'
    · exact (hop op hop').1
    · obtain rfl := List.mem_singleton.mp hop'
      exact hstore
  · refine count_of_perm hp hlast ?_ t
    have hsing : W.notifies [.storeTasknum (W.G.index keep)] = [W.G.index keep] := by
      rw [notifies_cons, Op.notifies, if_neg hne]
      rfl
    rw [notifies_append, hnotifies, hsing]
    exact (List.perm_append_comm).trans ((List.perm_cons_erase hkeep).map W.G.index).symm
  · rw [tokens_append, htokens]
    rfl
  · simp [Op.overwrites]

/-- The code after a loop that is not on the last level. -/
lemma announces_activateOutputs {p self : ℕ} (hp : p ∈ W.G.order) (hlast : p ∉ W.G.lastLevel)
    (hself : self < W.numThreads) : W.Announces p (W.expands self (W.G.activateOutputs p)) := by
  unfold activateOutputs
  split
  · -- one output only
    rename_i s hfor
    have hs : s ∈ W.G.forward p := by
      rw [hfor]
      exact List.mem_singleton_self s
    have hso := (mem_forward.mp hs).1
    have hne : W.G.index s ≠ workStealingIndex := by
      have := two_le_index hso
      rw [workStealingIndex]
      omega
    have hcount : ∀ t, [W.G.index s].count t = if W.G.index p ∈ W.G.preds t then 1 else 0 :=
      count_of_perm hp hlast (by rw [hfor]; exact .refl _)
    split
    · rename_i h
      have hlen : (W.G.preds (W.G.index s)).length = 1 := by rw [length_preds_index hso, h]
      refine ⟨tail_singleton (.inr ⟨isTask_index hso, hlen⟩), ?_, rfl, rfl⟩
      simpa [notifies, expands, expand, Op.notifies, hne] using hcount
    · rename_i h
      exact ⟨tail_singleton ⟨isTask_index hso, one_lt_of_mem_forward hs h⟩, hcount, rfl, rfl⟩
  · split
    · rename_i hfind
      rw [List.find?_eq_none] at hfind
      exact announces_none hp hlast (by simpa using hfind)
    · rename_i keep hfind
      exact announces_some hp hlast hself (List.mem_of_find?_eq_some hfind)
        (by simpa using List.find?_some hfind)

/-- After a loop the code announces it to the tasks that depend on it. -/
theorem announces_activation {p self : ℕ} (hp : p ∈ W.G.order) (hself : self < W.numThreads) :
    W.Announces p (W.expands self (W.G.activation p)) := by
  unfold activation
  split
  · rename_i hlast
    exact announces_activateLast hlast
  · rename_i hlast
    exact announces_activateOutputs hp hlast hself

/-! ## The initialisation of a block -/

variable (W) in
/-- The steps that reset the activation counts and the queues. -/
def initOps : List Op :=
  (if 1 < W.G.lastLevel.length then [.initTask lastTaskIndex W.G.lastLevel.length] else []) ++
    (W.G.order.filter fun p => 1 < (W.G.backward p).length).map
      (fun p => .initTask (W.G.index p) (W.G.backward p).length) ++
    (List.range W.numThreads).map .initOne

variable (W) in
/-- The steps that push the ready tasks. -/
def pushes (self : ℕ) : CurThread → List Op
  | .minusOne => (List.range W.numThreads).flatMap fun i => (W.taskSlice i).map (.pushHead i)
  | .numThread => W.G.readyLoop.map (.pushHead self)

lemma initBlock_eq (self : ℕ) (cur : CurThread) :
    W.initBlock self cur = W.initOps ++ W.pushes self cur := by
  have hmap : ∀ ps : List ℕ, W.expands self
      (ps.map fun p => .initTask (W.G.index p) (W.G.backward p).length) =
        ps.map fun p => .initTask (W.G.index p) (W.G.backward p).length := by
    intro ps
    rw [expands, List.flatMap_map, List.map_eq_flatMap]
    rfl
  have hlist : W.expands self [.initTaskList cur] = W.initTaskList self cur := by
    simp [expands, expand]
  have hlast : ∀ b : Prop, [Decidable b] → W.expands self
      (if b then [.initTask lastTaskIndex W.G.lastLevel.length] else []) =
        if b then [.initTask lastTaskIndex W.G.lastLevel.length] else [] := by
    intro b _
    split <;> rfl
  have hsplit : W.initTaskList self cur =
      (List.range W.numThreads).map .initOne ++ W.pushes self cur := by
    cases cur <;> rfl
  rw [initBlock, generateDAGLoopWSSAux1, expands_append, expands_append, hmap, hlist, hlast,
    hsplit, initOps, List.append_assoc, List.append_assoc, List.append_assoc]

lemma initOp_of_mem {op : Op} (h : op ∈ W.initOps) : W.InitOp op := by
  simp only [initOps, List.mem_append, List.mem_map, List.mem_filter, List.mem_range] at h
  rcases h with (h | ⟨p, ⟨hp, -⟩, rfl⟩) | ⟨q, hq, rfl⟩
  · split at h
    · obtain rfl := List.mem_singleton.mp h
      exact ⟨isTask_last, by simp⟩
    · cases h
  · exact ⟨isTask_index hp, (length_preds_index hp).symm⟩
  · exact hq

/-- The activation count of every task with several inputs is reset. -/
lemma initTask_mem_initOps {t : ℕ} (ht : W.G.dag.IsTask t) (h : 1 < (W.G.preds t).length) :
    .initTask t (W.G.preds t).length ∈ W.initOps := by
  rw [initOps, List.mem_append, List.mem_append]
  refine .inl ?_
  rcases isTask_iff.mp ht with ⟨p, hp, rfl⟩ | rfl
  · refine .inr (List.mem_map.mpr ⟨p, ?_, by rw [length_preds_index hp]⟩)
    rw [length_preds_index hp] at h
    exact List.mem_filter.mpr ⟨hp, by simpa using h⟩
  · rw [preds_last, List.length_map] at h ⊢
    rw [if_pos h]
    exact .inl (List.mem_singleton_self _)

lemma initOne_mem_initOps {q : ℕ} (hq : q < W.numThreads) : .initOne q ∈ W.initOps :=
  List.mem_append_right _ (List.mem_map_of_mem (List.mem_range.mpr hq))

/-- The slices of the threads are the ready tasks. -/
lemma perm_taskSlice :
    ((List.range W.numThreads).flatMap W.taskSlice).Perm W.G.readyLoop := by
  set ready := W.G.readyLoop with hready
  set k := ready.length / W.numThreads with hk
  have hslices : ∀ n, (List.range n).flatMap (fun i => (ready.drop (i * k)).take k) =
      ready.take (n * k) := by
    intro n
    induction n with
    | zero => simp
    | succ n ih =>
      rw [List.range_succ, List.flatMap_append, ih, List.flatMap_singleton, Nat.succ_mul,
        List.take_add]
  obtain ⟨n, hn⟩ : ∃ n, W.numThreads = n + 1 := Nat.exists_eq_succ_of_ne_zero W.numThreads_pos.ne'
  have hfirst : W.taskSlice 0 = ready.take k ++ ready.drop (W.numThreads * k) := by
    simp [taskSlice, ← hready, ← hk]
  have hother : (List.range n).flatMap (fun i => W.taskSlice (i + 1)) =
      (List.range n).flatMap fun i => (ready.drop ((i + 1) * k)).take k := by
    refine List.flatMap_congr fun i _ => ?_
    simp [taskSlice, ← hready, ← hk]
  have hall := hslices (n + 1)
  rw [List.range_succ_eq_map, List.flatMap_cons, List.flatMap_map, Nat.zero_mul, List.drop_zero,
    ← hn] at hall
  rw [hn, List.range_succ_eq_map, List.flatMap_cons, List.flatMap_map, hother, hfirst]
  calc _ = ready.take k ++ (ready.drop (W.numThreads * k) ++
        (List.range n).flatMap fun i => (ready.drop ((i + 1) * k)).take k) := by
          rw [List.append_assoc]
    _ |>.Perm _ := (List.perm_append_comm).append_left _
    _ = ready.take (W.numThreads * k) ++ ready.drop (W.numThreads * k) := by
          rw [← List.append_assoc, ← hall]
    _ = ready := List.take_append_drop _ _

lemma pushes_eq (self : ℕ) (cur : CurThread) : ∃ qs : List (ℕ × ℕ),
    W.pushes self cur = qs.map (fun q => .pushHead q.1 q.2) ∧
    (qs.map Prod.snd).Perm W.G.readyLoop ∧
    (self < W.numThreads → ∀ q ∈ qs, q.1 < W.numThreads) := by
  cases cur with
  | minusOne =>
    refine ⟨(List.range W.numThreads).flatMap fun i => (W.taskSlice i).map fun t => (i, t),
      ?_, ?_, fun _ q hq => ?_⟩
    · simp only [pushes, List.map_flatMap, List.map_map]
      rfl
    · rw [List.map_flatMap]
      simpa [List.map_map, Function.comp_def] using perm_taskSlice (W := W)
    · obtain ⟨i, hi, hq⟩ := List.mem_flatMap.mp hq
      obtain ⟨t, -, rfl⟩ := List.mem_map.mp hq
      exact List.mem_range.mp hi
  | numThread =>
    refine ⟨W.G.readyLoop.map fun t => (self, t), ?_, ?_, fun hself q hq => ?_⟩
    · simp only [pushes, List.map_map]
      rfl
    · simp [List.map_map, Function.comp_def]
    · obtain ⟨t, -, rfl⟩ := List.mem_map.mp hq
      exact hself

/-- Pushing the ready tasks announces each of them once. -/
theorem pushes_spec {self : ℕ} (hself : self < W.numThreads) (cur : CurThread) :
    (∀ op ∈ W.pushes self cur, W.TailOp op ∧ op.setsTasknum = false) ∧
    (∀ t, (W.notifies (W.pushes self cur)).count t = W.G.readyLoop.count t) ∧
    W.tokens (W.pushes self cur) = [] ∧ (W.pushes self cur).any Op.overwrites = false := by
  obtain ⟨qs, heq, hperm, hqueue⟩ := W.pushes_eq self cur
  have hready : ∀ q ∈ qs, W.G.dag.IsTask q.2 ∧ W.G.preds q.2 = [] := fun q hq =>
    mem_readyLoop.mp (hperm.mem_iff.mp (List.mem_map_of_mem hq))
  have hno : ∀ q ∈ qs, ¬ 1 < (W.G.preds q.2).length := fun q hq => by simp [(hready q hq).2]
  rw [heq]
  refine ⟨fun op hop => ?_, fun t => ?_, ?_, ?_⟩
  · obtain ⟨q, hq, rfl⟩ := List.mem_map.mp hop
    exact ⟨⟨hqueue hself q hq, (hready q hq).1⟩, rfl⟩
  · have hnotifies : W.notifies (qs.map fun q => .pushHead q.1 q.2) = qs.map Prod.snd := by
      rw [notifies, List.flatMap_map, List.map_eq_flatMap]
      exact List.flatMap_congr fun q hq => if_neg (hno q hq)
    rw [hnotifies, hperm.count_eq]
  · rw [tokens, List.flatMap_map, List.flatMap_eq_nil_iff]
    exact fun q hq => if_neg (hno q hq)
  · rw [List.any_map]
    exact List.any_eq_false.mpr fun q _ => Bool.false_ne_true

end Wss

end Faust
