import Mathlib
import Faust.Generator.Wss

/-!
# The activation counters (`scheduler.cpp`)

`TaskGraph` holds a counter for each task. A call to `ActivateOutputTask` or
`ActivateOneOutputTask` decrements the counter of a task with one atomic instruction, and then
compares with 0 what this instruction returned. Between the two, any other thread may run.

`atomic_xadd` has two definitions, and the file selects one for each platform.
-/

namespace Faust

/-- What selects a definition of `atomic_xadd`: whether `__APPLE__` is defined. -/
inductive Platform
  | apple
  | other
deriving DecidableEq, Repr

/-- `atomic_xadd`: the value it leaves, and the value it returns. -/
def atomicXadd (platform : Platform) (atomic val : BitVec 32) : BitVec 32 × BitVec 32 :=
  match platform with
  | .apple => (atomic + val, atomic + val)
  -- `xadd` leaves in the register what was in memory
  | .other => (atomic + val, atomic)

/-- `DEC_ATOMIC`. -/
def decAtomic (platform : Platform) (val : BitVec 32) : BitVec 32 × BitVec 32 :=
  atomicXadd platform val (-1)

@[simp] lemma decAtomic_fst (platform : Platform) (val : BitVec 32) :
    (decAtomic platform val).1 = val - 1 := by
  cases platform <;> simp [decAtomic, atomicXadd, BitVec.sub_eq_add_neg]

namespace Activation

/-! ## The calls -/

/-- The functions that activate a task. -/
inductive Activate
  /-- `ActivateOutputTask(queue, task, tasknum)`. -/
  | activateOutputTask1
  /-- `ActivateOutputTask(queue, task)`. -/
  | activateOutputTask2
  /-- `ActivateOneOutputTask(queue, task, tasknum)`. -/
  | activateOneOutputTask
deriving DecidableEq, Repr

/-- What a call does once it has decremented the counter. -/
inductive Outcome
  /-- `queue.PushHead(task)`. -/
  | pushHead (task : ℕ)
  /-- `*tasknum = task`. -/
  | storeTasknum (task : ℕ)
  /-- `*tasknum = queue.PopHead()`. -/
  | popHead
  | nothing
deriving DecidableEq, Repr

/-- The rest of a call, after the atomic instruction returned `dec`. -/
def Activate.outcome (f : Activate) (dec : BitVec 32) (task tasknum : ℕ) : Outcome :=
  match f with
  | .activateOutputTask1 =>
    if dec = 0 then
      if tasknum = workStealingIndex then .storeTasknum task else .pushHead task
    else .nothing
  | .activateOutputTask2 => if dec = 0 then .pushHead task else .nothing
  | .activateOneOutputTask => if dec = 0 then .storeTasknum task else .popHead

/-- The call made the task ready: it pushed it, or returned it as the next task. -/
def Outcome.readies (o : Outcome) (task : ℕ) : Prop :=
  o = .pushHead task ∨ o = .storeTasknum task

instance (o : Outcome) (task : ℕ) : Decidable (o.readies task) := by
  unfold Outcome.readies; infer_instance

theorem outcome_readies (f : Activate) (dec : BitVec 32) (task tasknum : ℕ) :
    (f.outcome dec task tasknum).readies task ↔ dec = 0 := by
  unfold Activate.outcome Outcome.readies
  by_cases h : dec = 0
  · by_cases hn : tasknum = workStealingIndex <;> cases f <;> simp [h, hn]
  · cases f <;> simp only [if_neg h] <;> simp_all

/-! ## The machine -/

variable {ι : Type*} [DecidableEq ι]

/-- A call that has decremented its counter and has not yet looked at the result. `rank` says
which decrement of the counter it made. -/
structure Call (ι : Type*) where
  thread : ι
  function : Activate
  task : ℕ
  dec : BitVec 32
  rank : ℕ
deriving DecidableEq

/-- The counters, the queues from their heads, and the variables `tasknum`. The last three
fields record the calls: those under way, how many decrements were made on a task since it was
initialised, and what came of the calls that are over, with their ranks. -/
structure State (ι : Type*) where
  fTaskList : ℕ → BitVec 32
  queue : ι → List ℕ
  tasknum : ι → ℕ
  inFlight : List (Call ι)
  decs : ℕ → ℕ
  outcomes : ℕ → List (ℕ × Outcome)

/-- What the threads do. -/
inductive Action (ι : Type*)
  /-- The atomic instruction of a call. -/
  | activate (thread : ι) (function : Activate) (task : ℕ)
  /-- The rest of the call. -/
  | finish (call : Call ι)
  | initTask (task : ℕ) (val : BitVec 32)
  /-- Any other use of a queue or of a variable `tasknum`. -/
  | other (thread : ι) (queue : List ℕ) (tasknum : ℕ)

/-- `TaskGraph::InitTask`. The record of the calls on this task starts again. -/
def State.initTask (s : State ι) (task : ℕ) (val : BitVec 32) : State ι :=
  { s with
    fTaskList := Function.update s.fTaskList task val
    decs := Function.update s.decs task 0
    outcomes := Function.update s.outcomes task [] }

/-- The decrement of a call by the thread `i`. -/
def State.activate (s : State ι) (platform : Platform) (i : ι) (f : Activate) (task : ℕ) :
    State ι :=
  let (val, dec) := decAtomic platform (s.fTaskList task)
  { s with
    fTaskList := Function.update s.fTaskList task val
    inFlight := ⟨i, f, task, dec, s.decs task + 1⟩ :: s.inFlight
    decs := Function.update s.decs task (s.decs task + 1) }

/-- What comes of the call `c`. -/
def State.outcome (s : State ι) (c : Call ι) : Outcome :=
  c.function.outcome c.dec c.task (s.tasknum c.thread)

/-- The end of the call `c`. -/
def State.finish (s : State ι) (c : Call ι) : State ι :=
  let o := s.outcome c
  { s with
    queue := Function.update s.queue c.thread <|
      match o with
      | .pushHead task => task :: s.queue c.thread
      | .popHead => (s.queue c.thread).tail
      | _ => s.queue c.thread
    tasknum := Function.update s.tasknum c.thread <|
      match o with
      | .storeTasknum task => task
      | .popHead => (s.queue c.thread).headD workStealingIndex
      | _ => s.tasknum c.thread
    inFlight := s.inFlight.erase c
    outcomes := Function.update s.outcomes c.task ((c.rank, o) :: s.outcomes c.task) }

/-- One action, where it can be taken. A thread makes one call at a time. -/
def State.step (platform : Platform) (s : State ι) : Action ι → Option (State ι)
  | .activate i f task =>
    if ∀ c ∈ s.inFlight, c.thread ≠ i then some (s.activate platform i f task) else none
  | .finish c => if c ∈ s.inFlight then some (s.finish c) else none
  | .initTask task val => some (s.initTask task val)
  | .other i queue tasknum =>
    if ∀ c ∈ s.inFlight, c.thread ≠ i then
      some { s with
        queue := Function.update s.queue i queue
        tasknum := Function.update s.tasknum i tasknum }
    else none

/-- A sequence of actions. -/
def State.run (platform : Platform) (s : State ι) : List (Action ι) → Option (State ι)
  | [] => some s
  | a :: as => (s.step platform a).bind fun s' => s'.run platform as

/-- The action does not initialise the task. -/
def Action.keeps (task : ℕ) : Action ι → Prop
  | .initTask task' _ => task' ≠ task
  | _ => True

/-- No call on the task is under way. -/
def State.quiet (s : State ι) (task : ℕ) : Prop := ∀ c ∈ s.inFlight, c.task ≠ task

/-- `n` calls were made on the task and are over, and the `n`-th of them, in counter order, is
the one that made it ready. -/
def State.firesOnce (s : State ι) (task n : ℕ) : Prop :=
  ((s.outcomes task).map Prod.fst).Perm (List.range' 1 n) ∧
    ∀ e ∈ s.outcomes task, e.2.readies task ↔ e.1 = n

/-! ## What the calls see -/

/-- What the `k`-th decrement of a counter returns, from the value `n` on. -/
def decValue : Platform → ℕ → ℕ → BitVec 32
  | .apple, n, k => BitVec.ofInt 32 (n - k)
  | .other, n, k => BitVec.ofInt 32 (n - k + 1)

theorem decAtomic_snd (platform : Platform) (n k : ℕ) :
    (decAtomic platform (BitVec.ofInt 32 (n - k))).2 = decValue platform n (k + 1) := by
  cases platform with
  | apple =>
    show BitVec.ofInt 32 (n - k) + -1 = BitVec.ofInt 32 (n - (k + 1 : ℕ))
    apply BitVec.eq_of_toInt_eq
    simp [BitVec.toInt_add, BitVec.toInt_ofInt]
    congr 1
    omega
  | other =>
    show BitVec.ofInt 32 (n - k) = BitVec.ofInt 32 (n - (k + 1 : ℕ) + 1)
    congr 1
    push_cast
    omega

/-- The calls under way on a task, and those that are over, by their ranks. -/
def State.ranks (s : State ι) (task : ℕ) : List ℕ :=
  (s.inFlight.filter fun c => c.task = task).map Call.rank ++ (s.outcomes task).map Prod.fst

/-- What holds of a task after its counter was set to `n`. -/
structure State.counts (platform : Platform) (task n : ℕ) (s : State ι) : Prop where
  counter : s.fTaskList task = BitVec.ofInt 32 (n - s.decs task)
  flight : ∀ c ∈ s.inFlight, c.task = task → c.dec = decValue platform n c.rank
  outcome : ∀ e ∈ s.outcomes task, e.2.readies task ↔ decValue platform n e.1 = 0
  ranks : (s.ranks task).Perm (List.range' 1 (s.decs task))

variable {platform : Platform} {task n : ℕ}

omit [DecidableEq ι] in
theorem counts_initTask (s : State ι) (hs : s.quiet task) :
    (s.initTask task (BitVec.ofInt 32 n)).counts platform task n := by
  constructor
  · simp [State.initTask]
  · intro c hc ht
    exact absurd ht (hs c hc)
  · simp [State.initTask]
  · have hf : s.inFlight.filter (fun c => c.task = task) = [] := by
      simpa [List.filter_eq_nil_iff, State.quiet] using hs
    simp [State.ranks, State.initTask, hf]

omit [DecidableEq ι] in
/-- A decrement of the counter. -/
theorem counts_activate {s : State ι} (h : s.counts platform task n) (i : ι) (f : Activate)
    (task' : ℕ) : (s.activate platform i f task').counts platform task n := by
  by_cases ht : task' = task
  · subst ht
    have hdec : (decAtomic platform (s.fTaskList task')).2 =
        decValue platform n (s.decs task' + 1) := by
      rw [h.counter, decAtomic_snd]
    constructor
    · have hl : (s.activate platform i f task').fTaskList task' = s.fTaskList task' - 1 := by
        simp [State.activate]
      rw [hl, h.counter]
      simp only [State.activate, Function.update_self]
      apply BitVec.eq_of_toInt_eq
      simp [BitVec.toInt_sub, BitVec.toInt_ofInt]
      congr 1
      omega
    · intro c hc hct
      simp only [State.activate, List.mem_cons] at hc
      rcases hc with hc | hc
      · rw [hc]
        exact hdec
      · exact h.flight c hc hct
    · exact h.outcome
    · show ((s.activate platform i f task').ranks task').Perm _
      have hr : (s.activate platform i f task').ranks task' =
          (s.decs task' + 1) :: s.ranks task' := by
        simp [State.ranks, State.activate]
      have hd : (s.activate platform i f task').decs task' = s.decs task' + 1 := by
        simp [State.activate]
      rw [hr, hd, List.range'_1_concat]
      apply (h.ranks.cons _).trans
      simpa [Nat.add_comm] using
        (List.perm_append_singleton (s.decs task' + 1) (List.range' 1 (s.decs task'))).symm
  · have hr : (s.activate platform i f task').ranks task = s.ranks task := by
      simp [State.ranks, State.activate, ht]
    have hd : (s.activate platform i f task').decs task = s.decs task := by
      simp [State.activate, Function.update_of_ne (Ne.symm ht)]
    constructor
    · rw [hd, ← h.counter]
      simp [State.activate, Function.update_of_ne (Ne.symm ht)]
    · intro c hc hct
      simp only [State.activate, List.mem_cons] at hc
      rcases hc with hc | hc
      · rw [hc] at hct
        exact absurd hct ht
      · exact h.flight c hc hct
    · exact h.outcome
    · rw [hr, hd]
      exact h.ranks

/-- The end of a call. -/
theorem counts_finish {s : State ι} (h : s.counts platform task n) {c : Call ι}
    (hc : c ∈ s.inFlight) : (s.finish c).counts platform task n := by
  have hflight : ∀ d ∈ (s.finish c).inFlight, d.task = task →
      d.dec = decValue platform n d.rank := by
    intro d hd hdt
    exact h.flight d (List.mem_of_mem_erase hd) hdt
  by_cases ht : c.task = task
  · constructor
    · exact h.counter
    · exact hflight
    · intro e he
      simp only [State.finish, ht, Function.update_self, List.mem_cons] at he
      rcases he with he | he
      · rw [he, ← h.flight c hc ht]
        show (s.outcome c).readies task ↔ c.dec = 0
        rw [← ht]
        exact outcome_readies _ _ _ _
      · exact h.outcome e he
    · apply List.Perm.trans _ h.ranks
      -- the rank of the call goes from the calls under way to those that are over
      have hp : (s.inFlight.filter fun d => d.task = task).Perm
          (c :: (s.inFlight.erase c).filter fun d => d.task = task) := by
        have := (List.perm_cons_erase hc).filter fun d => d.task = task
        simpa [ht] using this
      have hm := hp.map Call.rank
      simp only [State.ranks, State.finish, ht, Function.update_self, List.map_cons] at hm ⊢
      exact List.perm_middle.trans (List.Perm.append_right _ hm.symm)
  · have ho : (s.finish c).outcomes task = s.outcomes task := by
      simp [State.finish, Function.update_of_ne (Ne.symm ht)]
    constructor
    · exact h.counter
    · exact hflight
    · rw [ho]
      exact h.outcome
    · have hp : ((s.inFlight.erase c).filter fun d => d.task = task).Perm
          (s.inFlight.filter fun d => d.task = task) := by
        have := (List.perm_cons_erase hc).filter fun d => d.task = task
        simpa [ht] using this.symm
      apply List.Perm.trans _ h.ranks
      rw [State.ranks, State.ranks, ho]
      exact List.Perm.append_right _ (hp.map _)

theorem counts_step {s s' : State ι} (h : s.counts platform task n) {a : Action ι}
    (ha : a.keeps task) (hs : s.step platform a = some s') : s'.counts platform task n := by
  cases a with
  | activate i f task' =>
    simp only [State.step, Option.ite_none_right_eq_some, Option.some.injEq] at hs
    rw [← hs.2]
    exact counts_activate h i f task'
  | finish c =>
    simp only [State.step, Option.ite_none_right_eq_some, Option.some.injEq] at hs
    rw [← hs.2]
    exact counts_finish h hs.1
  | initTask task' val =>
    simp only [State.step, Option.some.injEq] at hs
    have hne : task ≠ task' := Ne.symm ha
    rw [← hs]
    constructor
    · simpa [State.initTask, Function.update_of_ne hne] using h.counter
    · exact h.flight
    · simpa [State.initTask, Function.update_of_ne hne] using h.outcome
    · simpa [State.initTask, State.ranks, Function.update_of_ne hne] using h.ranks
  | other i queue tasknum =>
    simp only [State.step, Option.ite_none_right_eq_some, Option.some.injEq] at hs
    rw [← hs.2]
    exact ⟨h.counter, h.flight, h.outcome, h.ranks⟩

theorem counts_run {s s' : State ι} (h : s.counts platform task n) {as : List (Action ι)}
    (ha : ∀ a ∈ as, a.keeps task) (hs : s.run platform as = some s') :
    s'.counts platform task n := by
  induction as generalizing s with
  | nil =>
    simp only [State.run, Option.some.injEq] at hs
    exact hs ▸ h
  | cons a as ih =>
    simp only [State.run, Option.bind_eq_some_iff] at hs
    obtain ⟨s₁, h₁, hs⟩ := hs
    apply ih (counts_step h (ha a List.mem_cons_self) h₁) _ hs
    intro b hb
    exact ha b (List.mem_cons_of_mem a hb)

/-! ## Which call sees 0 -/

theorem ofInt_eq_zero {m : ℤ} (h0 : 0 ≤ m) (hm : m < 2 ^ 32) : BitVec.ofInt 32 m = 0 ↔ m = 0 := by
  constructor
  · intro h
    have ht := congrArg BitVec.toNat h
    simp at ht
    omega
  · rintro rfl
    rfl

/-- With `__sync_add_and_fetch` the `n`-th call sees 0, and no other. -/
theorem decValue_apple {k : ℕ} (hn : n < 2 ^ 31) (hk : k ≤ n) :
    decValue .apple n k = 0 ↔ k = n := by
  rw [decValue, ofInt_eq_zero (by omega) (by omega)]
  omega

/-- With `xadd` no call sees 0. -/
theorem decValue_other {k : ℕ} (hn : n < 2 ^ 31) (hk : k ≤ n) : decValue .other n k ≠ 0 := by
  rw [decValue, Ne, ofInt_eq_zero (by omega) (by omega)]
  omega

omit [DecidableEq ι] in
/-- Once `n` calls were made on a task and are over, they are the calls of ranks 1 to `n`. -/
theorem ranks_of_quiet {s : State ι} (h : s.counts platform task n) (hd : s.decs task = n)
    (hq : s.quiet task) : ((s.outcomes task).map Prod.fst).Perm (List.range' 1 n) := by
  have hf : s.inFlight.filter (fun c => c.task = task) = [] := by
    simpa [List.filter_eq_nil_iff, State.quiet] using hq
  simpa [State.ranks, hf, hd] using h.ranks

/-- A task whose counter was set to `n`, and on which any threads then make `n` calls in any
order, is made ready by the `n`-th call in counter order and by no other: this is so where
`atomic_xadd` returns the new value, and only there. -/
theorem firesOnce_iff (platform : Platform) (task n : ℕ) (h2 : 2 ≤ n) (hn : n < 2 ^ 31)
    (s s' : State ι) (as : List (Action ι)) (hs : s.quiet task)
    (has : ∀ a ∈ as, a.keeps task)
    (hrun : (s.initTask task (BitVec.ofInt 32 n)).run platform as = some s')
    (hd : s'.decs task = n) (hq : s'.quiet task) :
    s'.firesOnce task n ↔ platform = .apple := by
  have hinit : (s.initTask task (BitVec.ofInt 32 n)).counts platform task n :=
    counts_initTask s hs
  have h := counts_run hinit has hrun
  have hranks := ranks_of_quiet h hd hq
  have hle : ∀ e ∈ s'.outcomes task, e.1 ≤ n := by
    intro e he
    have := hranks.mem_iff.1 (List.mem_map_of_mem he)
    simp at this
    omega
  cases platform with
  | apple =>
    refine ⟨fun _ => rfl, fun _ => ⟨hranks, ?_⟩⟩
    intro e he
    rw [h.outcome e he]
    exact decValue_apple hn (hle e he)
  | other =>
    refine ⟨fun hf => ?_, fun hp => by cases hp⟩
    -- the last call exists, and does not see 0
    obtain ⟨e, he, hen⟩ : ∃ e ∈ s'.outcomes task, e.1 = n := by
      have : n ∈ (s'.outcomes task).map Prod.fst := by
        rw [hranks.mem_iff]
        simp
        omega
      simpa using this
    have hr := (hf.2 e he).2 hen
    rw [h.outcome e he] at hr
    exact absurd hr (decValue_other hn (hle e he))

/-- Two threads activate task 2. `first` and `second` are what their decrements return. -/
def twoCalls (first second : BitVec 32) : List (Action Bool) :=
  [.activate true .activateOutputTask2 2, .activate false .activateOneOutputTask 2,
    .finish ⟨false, .activateOneOutputTask, 2, second, 2⟩,
    .finish ⟨true, .activateOutputTask2, 2, first, 1⟩]

lemma keeps_twoCalls (first second : BitVec 32) : ∀ a ∈ twoCalls first second, a.keeps 2 := by
  intro a ha
  simp only [twoCalls, List.mem_cons, List.not_mem_nil, or_false] at ha
  rcases ha with rfl | rfl | rfl | rfl <;> trivial

/-- A state before any call. -/
def start : State Bool := ⟨fun _ => 0, fun _ => [], fun _ => 0, [], fun _ => 0, fun _ => []⟩

lemma quiet_start : start.quiet 2 := by simp [State.quiet, start]

/-- The second call, which ends first, returns task 2 as the next task. -/
theorem firesOnce_twoCalls :
    ∃ s, (start.initTask 2 (BitVec.ofInt 32 2)).run .apple (twoCalls 1 0) = some s ∧
      s.firesOnce 2 2 := by
  refine ⟨_, rfl, ?_⟩
  apply (firesOnce_iff .apple 2 2 (by decide) (by decide) start _ (twoCalls 1 0) quiet_start
    (keeps_twoCalls 1 0) rfl rfl _).2 rfl
  exact List.forall_mem_nil _

/-- With `xadd`, neither call makes task 2 ready. -/
theorem not_firesOnce_twoCalls :
    ¬ ∀ (platform : Platform) (task n : ℕ), 2 ≤ n → n < 2 ^ 31 →
      ∀ (s s' : State Bool) (as : List (Action Bool)), s.quiet task →
        (∀ a ∈ as, a.keeps task) →
        (s.initTask task (BitVec.ofInt 32 n)).run platform as = some s' →
        s'.decs task = n → s'.quiet task → s'.firesOnce task n := by
  intro h
  have hf := h .other 2 2 (by decide) (by decide) start _ (twoCalls 2 1) quiet_start
    (keeps_twoCalls 2 1) rfl rfl (List.forall_mem_nil _)
  have hlast := hf.2 (2, .popHead) (by decide)
  exact absurd (hlast.2 rfl) (by decide)

end Activation
end Faust
