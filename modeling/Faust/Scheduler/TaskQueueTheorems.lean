import Faust.Scheduler.TaskQueue
import Mathlib.Tactic.Abel

/-!
# The queue keeps what is pushed

While no push finds the head at the largest `short`, the half words count without wrapping
around: the slots from the tail to the head hold the deque, and a slot below the tail, or the
one that the owner has just taken, does not change until its reader has read it.
-/

namespace Faust
namespace TaskQueue

variable {ι : Type*} [DecidableEq ι] {owner : ι} {s : State ι}

/-! ## The invariant -/

/-- What holds of a thread at a point of a call. -/
def State.pcHolds (s : State ι) (owner i : ι) : Pc → Prop
  | .idle => s.claimed i = none
  | .pushIndex _ => i = owner ∧ s.claimed i = none ∧ s.fCounter.fHead.toNat < 32767 ∧
      s.fCounter.fHead.toNat < s.pushCalls
  | .pushStore _ index => i = owner ∧ s.claimed i = none ∧ s.fCounter.fHead.toNat < 32767 ∧
      s.fCounter.fHead.toNat < s.pushCalls ∧ index = s.fCounter.fHead
  | .pushLoad item => i = owner ∧ s.claimed i = none ∧ s.fCounter.fHead.toNat < 32767 ∧
      s.fCounter.fHead.toNat < s.pushCalls ∧ s.fTaskList s.fCounter.fHead.toNat = item
  | .pushIncr item head => i = owner ∧ s.claimed i = none ∧ s.fCounter.fHead.toNat < 32767 ∧
      s.fCounter.fHead.toNat < s.pushCalls ∧ s.fTaskList s.fCounter.fHead.toNat = item ∧
      head = s.fCounter.fHead
  | .headLoad => i = owner ∧ s.claimed i = none
  | .headCas old => i = owner ∧ s.claimed i = none ∧ old.fHead ≠ old.fTail
  | .headSlot old => i = owner ∧ s.claimed i = some (s.fTaskList s.fCounter.fHead.toNat) ∧
      old.fHead.toNat = s.fCounter.fHead.toNat + 1 ∧ old.fHead.toNat < 2 ^ 15 ∧
      s.fCounter.fHead.toNat < s.pushCalls
  | .tailLoad => s.claimed i = none
  | .tailCas old => s.claimed i = none ∧ old.fHead ≠ old.fTail
  | .tailSlot old => s.claimed i = some (s.fTaskList old.fTail.toNat) ∧
      old.fTail.toNat < s.fCounter.fTail.toNat

/-- The half words have not wrapped around, and the slots hold the deque. -/
structure State.shape (owner : ι) (s : State ι) : Prop where
  head : s.fCounter.fHead.toNat = s.fCounter.fTail.toNat + s.deque.length
  bound : s.fCounter.fHead.toNat < 2 ^ 15
  calls : s.fCounter.fHead.toNat ≤ s.pushCalls
  slots : ∀ k (hk : k < s.deque.length),
    s.fTaskList (s.fCounter.fTail.toNat + k : ℕ) = s.deque.get ⟨k, hk⟩
  pcs : ∀ i, s.pcHolds owner i (s.pc i)

theorem toInt_of_lt {x : BitVec 16} (h : x.toNat < 2 ^ 15) : x.toInt = x.toNat :=
  BitVec.toInt_eq_toNat_of_lt (by omega)

omit [DecidableEq ι] in
/-- What another thread does: the head, the slots and the count of the pushes are the owner's,
and the tail only grows. -/
theorem pcHolds_of_frame {s' : State ι} {j : ι} {pc : Pc} (h : s.pcHolds owner j pc)
    (hclaimed : s'.claimed j = s.claimed j)
    (howner : j = owner → s'.fCounter.fHead = s.fCounter.fHead ∧ s'.pushCalls = s.pushCalls ∧
      s'.fTaskList = s.fTaskList)
    (htail : s.fCounter.fTail.toNat ≤ s'.fCounter.fTail.toNat)
    (hslots : ∀ k : ℕ, k < s.fCounter.fTail.toNat → s'.fTaskList k = s.fTaskList k) :
    s'.pcHolds owner j pc := by
  cases pc with
  | idle | tailLoad | tailCas old =>
    simpa [State.pcHolds, hclaimed] using h
  | tailSlot old =>
    refine ⟨?_, lt_of_lt_of_le h.2 htail⟩
    rw [hclaimed, hslots _ h.2]
    exact h.1
  | pushIndex item | pushStore item index | pushLoad item | pushIncr item head
  | headLoad | headCas old | headSlot old =>
    obtain ⟨hhead, hcalls, hmem⟩ := howner h.1
    simpa [State.pcHolds, hclaimed, hhead, hcalls, hmem] using h

namespace State.shape

/-! ## One access -/

theorem goto (h : s.shape owner) {i : ι} {pc : Pc} (hpc : s.pcHolds owner i pc) :
    (s.goto i pc).shape owner := by
  refine ⟨h.head, h.bound, h.calls, h.slots, ?_⟩
  intro j
  by_cases hj : j = i
  · subst hj
    rw [show (s.goto j pc).pc j = pc from Function.update_self _ _ _]
    exact pcHolds_of_frame hpc rfl (fun _ => ⟨rfl, rfl, rfl⟩) le_rfl (fun _ _ => rfl)
  · rw [show (s.goto i pc).pc j = s.pc j from Function.update_of_ne hj _ _]
    exact pcHolds_of_frame (h.pcs j) rfl (fun _ => ⟨rfl, rfl, rfl⟩) le_rfl (fun _ _ => rfl)

theorem store (h : s.shape owner) {i : ι} {index : BitVec 16} {item : ℤ}
    (hpc : s.pc i = .pushStore item index) : (s.store i index item).shape owner := by
  have hi := h.pcs i
  rw [hpc] at hi
  obtain ⟨rfl, hclaimed, hlt, hcalls, rfl⟩ := hi
  have hindex := toInt_of_lt h.bound
  -- the slot is above those of the deque
  have hslots : ∀ k : ℕ, k < s.fCounter.fHead.toNat →
      (s.store i s.fCounter.fHead item).fTaskList k = s.fTaskList k := by
    intro k hk
    simp only [State.store, hindex]
    apply Function.update_of_ne
    omega
  refine ⟨h.head, h.bound, h.calls, ?_, ?_⟩
  · intro k hk
    rw [hslots _ (by have := h.head; simp only [State.store] at hk ⊢; omega)]
    exact h.slots k hk
  · intro j
    by_cases hj : j = i
    · subst hj
      simp [State.store, State.pcHolds, hclaimed, hlt, hcalls, hindex]
    · have hpcj : (s.store i s.fCounter.fHead item).pc j = s.pc j := Function.update_of_ne hj _ _
      rw [hpcj]
      refine pcHolds_of_frame (h.pcs j) rfl (fun ho => absurd ho hj) le_rfl ?_
      intro k hk
      have := h.head
      exact hslots k (by omega)

theorem incr (h : s.shape owner) {i : ι} {item : ℤ} {head : BitVec 16}
    (hpc : s.pc i = .pushIncr item head) : (s.incr i item head).shape owner := by
  have hi := h.pcs i
  rw [hpc] at hi
  obtain ⟨rfl, hclaimed, hlt, hcalls, hitem, rfl⟩ := hi
  have hsucc : (s.fCounter.fHead + 1).toNat = s.fCounter.fHead.toNat + 1 := by
    simp only [BitVec.toNat_add, show (1 : BitVec 16).toNat = 1 from rfl]
    omega
  refine ⟨?_, ?_, ?_, ?_, ?_⟩
  · have := h.head
    simp only [State.incr, Deque.pushHead, List.length_append, List.length_singleton]
    omega
  · simp only [State.incr]
    omega
  · simp only [State.incr]
    omega
  · intro k hk
    simp only [State.incr, Deque.pushHead, List.length_append, List.length_singleton] at hk ⊢
    by_cases hlast : k = s.deque.length
    · subst hlast
      simp [← h.head, hitem]
    · have hk' : k < s.deque.length := by omega
      simpa [List.getElem_append_left hk'] using h.slots k hk'
  · intro j
    by_cases hj : j = i
    · subst hj
      simpa [State.incr, State.pcHolds] using hclaimed
    · have hpcj : (s.incr i item s.fCounter.fHead).pc j = s.pc j := Function.update_of_ne hj _ _
      rw [hpcj]
      exact pcHolds_of_frame (h.pcs j) rfl (fun ho => absurd ho hj) le_rfl (fun _ _ => rfl)

omit [DecidableEq ι] in
/-- A word read with two different halves stands for a deque that is not empty. -/
theorem deque_ne_nil (h : s.shape owner) (hne : s.fCounter.fHead ≠ s.fCounter.fTail) :
    s.deque ≠ [] := by
  intro hnil
  apply hne
  apply BitVec.eq_of_toNat_eq
  have := h.head
  simpa [hnil] using this

omit [DecidableEq ι] in
/-- The slot below the head holds the end of the deque. -/
theorem slot_head (h : s.shape owner) (hnil : s.deque ≠ []) :
    s.fTaskList (s.fCounter.fHead - 1).toNat = s.deque.getLast hnil ∧
      (s.fCounter.fHead - 1).toNat + 1 = s.fCounter.fHead.toNat := by
  have hlen : 0 < s.deque.length := List.length_pos_of_ne_nil hnil
  have hhead := h.head
  have hbound := h.bound
  have hpred : (s.fCounter.fHead - 1).toNat = s.fCounter.fHead.toNat - 1 := by
    simp only [BitVec.toNat_sub, show (1 : BitVec 16).toNat = 1 from rfl]
    omega
  have hslot := h.slots (s.deque.length - 1) (by omega)
  constructor
  · rw [hpred, List.getLast_eq_getElem]
    rw [show s.fCounter.fTail.toNat + (s.deque.length - 1) = s.fCounter.fHead.toNat - 1 by omega]
      at hslot
    exact hslot
  · omega

omit [DecidableEq ι] in
/-- The slot at the tail holds the front of the deque. -/
theorem slot_tail (h : s.shape owner) (hnil : s.deque ≠ []) :
    s.fTaskList s.fCounter.fTail.toNat = s.deque.head hnil ∧
      (s.fCounter.fTail + 1).toNat = s.fCounter.fTail.toNat + 1 := by
  have hlen : 0 < s.deque.length := List.length_pos_of_ne_nil hnil
  have hhead := h.head
  have hbound := h.bound
  have hslot := h.slots 0 hlen
  constructor
  · rw [Nat.add_zero] at hslot
    rw [hslot, List.head_eq_getElem, List.get_eq_getElem]
  · simp only [BitVec.toNat_add, show (1 : BitVec 16).toNat = 1 from rfl]
    omega

theorem takeHead (h : s.shape owner) (hne : s.fCounter.fHead ≠ s.fCounter.fTail) :
    (s.takeHead owner s.fCounter).shape owner := by
  have hnil := h.deque_ne_nil hne
  have hlen : 0 < s.deque.length := List.length_pos_of_ne_nil hnil
  have hhead := h.head
  have hbound := h.bound
  have hcalls := h.calls
  obtain ⟨hlast, hpred⟩ := h.slot_head hnil
  have hlength : (s.takeHead owner s.fCounter).deque.length = s.deque.length - 1 := by
    simp [State.takeHead, Deque.popHead]
  refine ⟨?_, ?_, ?_, ?_, ?_⟩
  · rw [hlength]
    show (s.fCounter.fHead - 1).toNat = s.fCounter.fTail.toNat + (s.deque.length - 1)
    omega
  · show (s.fCounter.fHead - 1).toNat < 2 ^ 15
    omega
  · show (s.fCounter.fHead - 1).toNat ≤ s.pushCalls
    omega
  · intro k hk
    rw [hlength] at hk
    show s.fTaskList (s.fCounter.fTail.toNat + k : ℕ) = s.deque.dropLast.get ⟨k, _⟩
    rw [h.slots k (by omega)]
    simp
  · intro j
    by_cases hj : j = owner
    · subst hj
      rw [show (s.takeHead j s.fCounter).pc j = .headSlot s.fCounter from
        Function.update_self _ _ _]
      refine ⟨rfl, ?_, hpred.symm, hbound, ?_⟩
      · show Function.update s.claimed j s.deque.getLast? j =
          some (s.fTaskList (s.fCounter.fHead - 1).toNat)
        rw [Function.update_self, hlast, List.getLast?_eq_some_getLast hnil]
      · show (s.fCounter.fHead - 1).toNat < s.pushCalls
        omega
    · rw [show (s.takeHead owner s.fCounter).pc j = s.pc j from Function.update_of_ne hj _ _]
      exact pcHolds_of_frame (h.pcs j) (Function.update_of_ne hj _ _)
        (fun ho => absurd ho hj) le_rfl (fun _ _ => rfl)

theorem takeTail (h : s.shape owner) (hne : s.fCounter.fHead ≠ s.fCounter.fTail) (i : ι) :
    (s.takeTail i s.fCounter).shape owner := by
  have hnil := h.deque_ne_nil hne
  have hlen : 0 < s.deque.length := List.length_pos_of_ne_nil hnil
  have hhead := h.head
  obtain ⟨hfirst, hsucc⟩ := h.slot_tail hnil
  have hlength : (s.takeTail i s.fCounter).deque.length = s.deque.length - 1 := by
    simp [State.takeTail, Deque.popTail]
  refine ⟨?_, h.bound, h.calls, ?_, ?_⟩
  · rw [hlength]
    show s.fCounter.fHead.toNat = (s.fCounter.fTail + 1).toNat + (s.deque.length - 1)
    omega
  · intro k hk
    rw [hlength] at hk
    show s.fTaskList ((s.fCounter.fTail + 1).toNat + k : ℕ) = s.deque.tail.get ⟨k, _⟩
    rw [hsucc, show s.fCounter.fTail.toNat + 1 + k = s.fCounter.fTail.toNat + (k + 1) by omega,
      h.slots (k + 1) (by omega)]
    simp
  · intro j
    by_cases hj : j = i
    · subst hj
      rw [show (s.takeTail j s.fCounter).pc j = .tailSlot s.fCounter from
        Function.update_self _ _ _]
      constructor
      · show Function.update s.claimed j s.deque.head? j = some (s.fTaskList s.fCounter.fTail.toNat)
        rw [Function.update_self, hfirst, List.head?_eq_some_head hnil]
      · show s.fCounter.fTail.toNat < (s.fCounter.fTail + 1).toNat
        omega
    · rw [show (s.takeTail i s.fCounter).pc j = s.pc j from Function.update_of_ne hj _ _]
      refine pcHolds_of_frame (h.pcs j) (Function.update_of_ne hj _ _)
        (fun _ => ⟨rfl, rfl, rfl⟩) ?_ (fun _ _ => rfl)
      show s.fCounter.fTail.toNat ≤ (s.fCounter.fTail + 1).toNat
      omega

theorem casHead (h : s.shape owner) {i : ι} {old : AtomicCounter} (hpc : s.pc i = .headCas old) :
    (s.casHead i old).shape owner := by
  have hi := h.pcs i
  rw [hpc] at hi
  obtain ⟨rfl, hclaimed, hne⟩ := hi
  by_cases hcas : s.fCounter.fValue = old.fValue
  · obtain rfl := AtomicCounter.fValue_injective hcas
    rw [State.casHead, if_pos rfl]
    exact h.takeHead hne
  · rw [State.casHead, if_neg hcas]
    exact h.goto ⟨rfl, hclaimed⟩

theorem casTail (h : s.shape owner) {i : ι} {old : AtomicCounter} (hpc : s.pc i = .tailCas old) :
    (s.casTail i old).shape owner := by
  have hi := h.pcs i
  rw [hpc] at hi
  obtain ⟨hclaimed, hne⟩ := hi
  by_cases hcas : s.fCounter.fValue = old.fValue
  · obtain rfl := AtomicCounter.fValue_injective hcas
    rw [State.casTail, if_pos rfl]
    exact h.takeTail hne i
  · rw [State.casTail, if_neg hcas]
    exact h.goto hclaimed

/-- The end of a call. -/
theorem ret (h : s.shape owner) (i : ι) (index : ℤ) : (s.ret i index).shape owner := by
  refine ⟨h.head, h.bound, h.calls, h.slots, ?_⟩
  intro j
  by_cases hj : j = i
  · subst hj
    simp [State.ret, State.pcHolds]
  · rw [show (s.ret i index).pc j = s.pc j from Function.update_of_ne hj _ _]
    exact pcHolds_of_frame (h.pcs j) (Function.update_of_ne hj _ _) (fun _ => ⟨rfl, rfl, rfl⟩)
      le_rfl (fun _ _ => rfl)

theorem load (h : s.shape owner) {i : ι} {cas : AtomicCounter → Pc} (hclaimed : s.claimed i = none)
    (hcas : s.fCounter.fHead ≠ s.fCounter.fTail → s.pcHolds owner i (cas s.fCounter)) :
    (s.load i cas).shape owner := by
  unfold State.load
  split
  · refine ⟨h.head, h.bound, h.calls, h.slots, ?_⟩
    intro j
    by_cases hj : j = i
    · subst hj
      simpa [State.fail, State.pcHolds] using hclaimed
    · rw [show (s.fail i).pc j = s.pc j from Function.update_of_ne hj _ _]
      exact pcHolds_of_frame (h.pcs j) rfl (fun _ => ⟨rfl, rfl, rfl⟩) le_rfl (fun _ _ => rfl)
  · exact h.goto (hcas ‹_›)

theorem access (h : s.shape owner) (i : ι) : (s.access i).shape owner := by
  have hi := h.pcs i
  unfold State.access
  cases hpc : s.pc i with
  | idle => exact h
  | pushIndex item =>
    rw [hpc] at hi
    exact h.goto ⟨hi.1, hi.2.1, hi.2.2.1, hi.2.2.2, rfl⟩
  | pushStore item index => exact h.store hpc
  | pushLoad item =>
    rw [hpc] at hi
    exact h.goto ⟨hi.1, hi.2.1, hi.2.2.1, hi.2.2.2.1, hi.2.2.2.2, rfl⟩
  | pushIncr item head => exact h.incr hpc
  | headLoad =>
    rw [hpc] at hi
    exact h.load hi.2 fun hne => ⟨hi.1, hi.2, hne⟩
  | headCas old => exact h.casHead hpc
  | headSlot old => exact h.ret i _
  | tailLoad =>
    rw [hpc] at hi
    exact h.load hi fun hne => ⟨hi, hne⟩
  | tailCas old => exact h.casTail hpc
  | tailSlot old => exact h.ret i _

/-! ## One action -/

theorem begin (h : s.shape owner) {i : ι} {pc : Pc} (hpc : s.pcHolds owner i pc) :
    (s.begin i pc).shape owner := by
  refine ⟨h.head, h.bound, h.calls, h.slots, ?_⟩
  intro j
  by_cases hj : j = i
  · subst hj
    rw [show (s.begin j pc).pc j = pc from Function.update_self _ _ _]
    exact pcHolds_of_frame hpc rfl (fun _ => ⟨rfl, rfl, rfl⟩) le_rfl (fun _ _ => rfl)
  · rw [show (s.begin i pc).pc j = s.pc j from Function.update_of_ne hj _ _]
    exact pcHolds_of_frame (h.pcs j) rfl (fun _ => ⟨rfl, rfl, rfl⟩) le_rfl (fun _ _ => rfl)

omit [DecidableEq ι] in
theorem observe (h : s.shape owner) : s.observe.shape owner :=
  ⟨h.head, h.bound, h.calls, h.slots, h.pcs⟩

/-- A call of `PushHead`, where the head can still be incremented. -/
theorem beginPush (h : s.shape owner) (hidle : s.pc owner = .idle)
    (hroom : s.fCounter.fHead ≠ 32767) (item : ℤ) :
    State.shape owner { s.begin owner (.pushIndex item) with pushCalls := s.pushCalls + 1 } := by
  have hown := h.pcs owner
  rw [hidle] at hown
  have hcalls := h.calls
  refine ⟨h.head, h.bound, ?_, h.slots, ?_⟩
  · simp only [State.begin]
    omega
  · intro j
    by_cases hj : j = owner
    · subst hj
      have hne : s.fCounter.fHead.toNat ≠ 32767 := fun he => hroom (BitVec.eq_of_toNat_eq he)
      have hbound := h.bound
      simp only [State.begin, Function.update_self, State.pcHolds]
      exact ⟨trivial, hown, by omega, by omega⟩
    · simp only [State.begin, Function.update_of_ne hj]
      exact pcHolds_of_frame (h.pcs j) rfl (fun ho => absurd ho hj) le_rfl (fun _ _ => rfl)

theorem step (h : s.shape owner) {a : Action ι} (hroom : s.roomy a) {s' : State ι}
    (hs : s.step owner a = some s') : s'.shape owner := by
  cases a with
  | pushHead item =>
    simp only [State.step, Option.ite_none_right_eq_some, Option.some.injEq] at hs
    rw [← hs.2]
    exact (h.beginPush hs.1 hroom item).observe
  | popHead =>
    simp only [State.step, Option.ite_none_right_eq_some, Option.some.injEq] at hs
    rw [← hs.2]
    have hown := h.pcs owner
    rw [hs.1] at hown
    have hload : s.pcHolds owner owner .headLoad := ⟨rfl, hown⟩
    exact (h.begin hload).observe
  | popTail i =>
    simp only [State.step, Option.ite_none_right_eq_some, Option.some.injEq] at hs
    rw [← hs.2]
    have hi := h.pcs i
    rw [hs.1] at hi
    have hload : s.pcHolds owner i .tailLoad := hi
    exact (h.begin hload).observe
  | access i =>
    simp only [State.step, Option.ite_none_left_eq_some, Option.some.injEq] at hs
    rw [← hs.2]
    exact (h.access i).observe

end State.shape

/-! ## The account of the numbers -/

section Ledger

variable [Fintype ι]

/-- What the pops under way have taken. -/
def State.taken (s : State ι) : Multiset ℤ := ∑ i, ((s.claimed i).toList : Multiset ℤ)

/-- A thread that has claimed nothing claims a number. -/
theorem sum_update_claimed {claimed : ι → Option ℤ} {i : ι} (h : claimed i = none) (x : ℤ) :
    ∑ j, ((Function.update claimed i (some x) j).toList : Multiset ℤ) =
      {x} + ∑ j, ((claimed j).toList : Multiset ℤ) := by
  rw [← Finset.add_sum_erase _ _ (Finset.mem_univ i), ← Finset.add_sum_erase (a := i)
    (f := fun j => ((claimed j).toList : Multiset ℤ)) _ (Finset.mem_univ i)]
  have hrest : ∀ j ∈ Finset.univ.erase i, ((Function.update claimed i (some x) j).toList :
      Multiset ℤ) = ((claimed j).toList : Multiset ℤ) := by
    intro j hj
    rw [Function.update_of_ne (Finset.ne_of_mem_erase hj)]
  rw [Finset.sum_congr rfl hrest]
  simp [h]

/-- Every pushed number is returned, claimed, or in the deque; and what was recorded is as it
should be. -/
structure State.ledger (s : State ι) : Prop where
  account : (s.pushed : Multiset ℤ) = s.returned + s.taken + s.deque
  failures : ∀ b ∈ s.failures, b = true
  used : ∀ k ∈ s.used, 0 ≤ k ∧ k < s.pushCalls

omit [DecidableEq ι] [Fintype ι] in
theorem sawEmpty_observe (s : State ι) (h : s.observe.deque = []) (i : ι) :
    s.observe.sawEmpty i = true := by
  have hnil : s.deque = [] := h
  simp [State.observe, hnil]

namespace State.ledger

omit [DecidableEq ι] in
/-- A state that differs in the memory and the points of the threads only. -/
theorem of_eq {s' : State ι} (l : s.ledger) (hpushed : s'.pushed = s.pushed)
    (hreturned : s'.returned = s.returned) (hfailures : s'.failures = s.failures)
    (hused : s'.used = s.used) (hdeque : s'.deque = s.deque) (hclaimed : s'.claimed = s.claimed)
    (hcalls : s.pushCalls ≤ s'.pushCalls) : s'.ledger := by
  refine ⟨?_, ?_, ?_⟩
  · rw [hpushed, hreturned, hdeque, State.taken, hclaimed]
    exact l.account
  · rw [hfailures]
    exact l.failures
  · intro k hk
    rw [hused] at hk
    have := l.used k hk
    omega

theorem goto (l : s.ledger) (i : ι) (pc : Pc) : (s.goto i pc).ledger :=
  l.of_eq rfl rfl rfl rfl rfl rfl le_rfl

theorem store (l : s.ledger) {i : ι} {index : BitVec 16} (item : ℤ)
    (hindex : index.toInt < s.pushCalls) (hpos : 0 ≤ index.toInt) :
    (s.store i index item).ledger := by
  refine ⟨l.account, l.failures, ?_⟩
  intro k hk
  simp only [State.store, List.mem_cons] at hk
  rcases hk with rfl | hk
  · exact ⟨hpos, hindex⟩
  · exact l.used k hk

theorem incr (l : s.ledger) (i : ι) (item : ℤ) (head : BitVec 16) :
    (s.incr i item head).ledger := by
  refine ⟨?_, l.failures, l.used⟩
  show ((item :: s.pushed : List ℤ) : Multiset ℤ) =
    s.returned + s.taken + ((s.deque ++ [item] : List ℤ) : Multiset ℤ)
  rw [← Multiset.cons_coe, l.account, ← Multiset.coe_add, Multiset.coe_singleton, ← add_assoc,
    ← Multiset.singleton_add]
  exact add_comm _ _

/-- A pop takes a number off the deque. -/
theorem take {s' : State ι} (l : s.ledger) {i : ι} {x : ℤ} (hclaimed : s.claimed i = none)
    (hclaimed' : s'.claimed = Function.update s.claimed i (some x))
    (hdeque : (s.deque : Multiset ℤ) = {x} + (s'.deque : Multiset ℤ))
    (hpushed : s'.pushed = s.pushed) (hreturned : s'.returned = s.returned)
    (hfailures : s'.failures = s.failures) (hused : s'.used = s.used)
    (hcalls : s'.pushCalls = s.pushCalls) : s'.ledger := by
  refine ⟨?_, ?_, ?_⟩
  · rw [hpushed, hreturned, l.account, State.taken, State.taken, hclaimed',
      sum_update_claimed hclaimed, hdeque]
    abel
  · rw [hfailures]
    exact l.failures
  · rw [hused, hcalls]
    exact l.used

theorem casHead (l : s.ledger) (h : s.shape owner) {i : ι} {old : AtomicCounter}
    (hpc : s.pc i = .headCas old) : (s.casHead i old).ledger := by
  have hi := h.pcs i
  rw [hpc] at hi
  obtain ⟨rfl, hclaimed, hne⟩ := hi
  by_cases hcas : s.fCounter.fValue = old.fValue
  · obtain rfl := AtomicCounter.fValue_injective hcas
    have hnil := h.deque_ne_nil hne
    rw [State.casHead, if_pos rfl]
    refine l.take hclaimed (x := s.deque.getLast hnil) ?_ ?_ rfl rfl rfl rfl rfl
    · show Function.update s.claimed i s.deque.getLast? = _
      rw [List.getLast?_eq_some_getLast hnil]
    · show (s.deque : Multiset ℤ) = {s.deque.getLast hnil} + (s.deque.dropLast : Multiset ℤ)
      conv_lhs => rw [← List.dropLast_append_getLast hnil]
      rw [← Multiset.coe_add, Multiset.coe_singleton, add_comm]
  · rw [State.casHead, if_neg hcas]
    exact l.goto i _

theorem casTail (l : s.ledger) (h : s.shape owner) {i : ι} {old : AtomicCounter}
    (hpc : s.pc i = .tailCas old) : (s.casTail i old).ledger := by
  have hi := h.pcs i
  rw [hpc] at hi
  obtain ⟨hclaimed, hne⟩ := hi
  by_cases hcas : s.fCounter.fValue = old.fValue
  · obtain rfl := AtomicCounter.fValue_injective hcas
    have hnil := h.deque_ne_nil hne
    rw [State.casTail, if_pos rfl]
    refine l.take hclaimed (x := s.deque.head hnil) ?_ ?_ rfl rfl rfl rfl rfl
    · show Function.update s.claimed i s.deque.head? = _
      rw [List.head?_eq_some_head hnil]
    · show (s.deque : Multiset ℤ) = {s.deque.head hnil} + (s.deque.tail : Multiset ℤ)
      conv_lhs => rw [← List.cons_head_tail hnil]
      rw [← Multiset.cons_coe, Multiset.singleton_add]
  · rw [State.casTail, if_neg hcas]
    exact l.goto i _

/-- `ret` gives back what the pop has claimed. -/
theorem ret (l : s.ledger) {i : ι} {index : ℤ} (hclaimed : s.claimed i = some (s.fTaskList index))
    (hpos : 0 ≤ index) (hindex : index < s.pushCalls) : (s.ret i index).ledger := by
  refine ⟨?_, l.failures, ?_⟩
  · have htaken : s.taken = {s.fTaskList index} + (s.ret i index).taken := by
      have hnone : Function.update s.claimed i none i = none := Function.update_self _ _ _
      have := sum_update_claimed hnone (s.fTaskList index)
      rw [Function.update_idem, ← hclaimed, Function.update_eq_self] at this
      exact this
    show (s.pushed : Multiset ℤ) = ((s.fTaskList index :: s.returned : List ℤ) : Multiset ℤ) +
      (s.ret i index).taken + s.deque
    rw [l.account, htaken, ← Multiset.cons_coe, ← Multiset.singleton_add]
    abel
  · intro k hk
    simp only [State.ret, List.mem_cons] at hk
    rcases hk with rfl | hk
    · exact ⟨hpos, hindex⟩
    · exact l.used k hk

/-- A pop reads the word. It fails where the halves are equal, and then the deque is empty. -/
theorem load (l : s.ledger) (h : s.shape owner) (hsaw : s.deque = [] → ∀ i, s.sawEmpty i = true)
    (i : ι) (cas : AtomicCounter → Pc) : (s.load i cas).ledger := by
  unfold State.load
  split
  next heq =>
    have hnil : s.deque = [] := by
      have := h.head
      rw [heq] at this
      exact List.eq_nil_of_length_eq_zero (by omega)
    refine ⟨l.account, ?_, l.used⟩
    intro b hb
    simp only [State.fail, List.mem_cons] at hb
    rcases hb with rfl | hb
    · exact hsaw hnil i
    · exact l.failures b hb
  next => exact l.goto i _

theorem access (l : s.ledger) (h : s.shape owner)
    (hsaw : s.deque = [] → ∀ i, s.sawEmpty i = true) (i : ι) : (s.access i).ledger := by
  have hi := h.pcs i
  have hcalls := h.calls
  have hhead := h.head
  unfold State.access
  cases hpc : s.pc i with
  | idle => exact l
  | pushIndex item => exact l.goto i _
  | pushStore item index =>
    rw [hpc] at hi
    obtain ⟨-, -, -, hlt, rfl⟩ := hi
    have hindex := toInt_of_lt h.bound
    exact l.store item (by omega) (by omega)
  | pushLoad item => exact l.goto i _
  | pushIncr item head => exact l.incr i item head
  | headLoad => exact l.load h hsaw i _
  | headCas old => exact l.casHead h hpc
  | headSlot old =>
    rw [hpc] at hi
    obtain ⟨-, hclaimed, hsucc, hlt, hpushed⟩ := hi
    have hindex : old.fHead.toInt - 1 = s.fCounter.fHead.toNat := by
      rw [toInt_of_lt hlt]
      omega
    rw [← hindex] at hclaimed
    exact l.ret hclaimed (by omega) (by omega)
  | tailLoad => exact l.load h hsaw i _
  | tailCas old => exact l.casTail h hpc
  | tailSlot old =>
    rw [hpc] at hi
    obtain ⟨hclaimed, hlt⟩ := hi
    have hbound := h.bound
    have hindex : old.fTail.toInt = old.fTail.toNat := toInt_of_lt (by omega)
    rw [← hindex] at hclaimed
    exact l.ret hclaimed (by omega) (by omega)

theorem step (l : s.ledger) (h : s.shape owner) (hsaw : s.deque = [] → ∀ i, s.sawEmpty i = true)
    {a : Action ι} {s' : State ι} (hs : s.step owner a = some s') : s'.ledger := by
  cases a with
  | pushHead item =>
    simp only [State.step, Option.ite_none_right_eq_some, Option.some.injEq] at hs
    rw [← hs.2]
    exact l.of_eq rfl rfl rfl rfl rfl rfl (Nat.le_succ _)
  | popHead | popTail i =>
    simp only [State.step, Option.ite_none_right_eq_some, Option.some.injEq] at hs
    rw [← hs.2]
    exact l.of_eq rfl rfl rfl rfl rfl rfl le_rfl
  | access i =>
    simp only [State.step, Option.ite_none_left_eq_some, Option.some.injEq] at hs
    rw [← hs.2]
    exact (l.access h hsaw i).of_eq rfl rfl rfl rfl rfl rfl le_rfl

end State.ledger

/-! ## Runs -/

/-- All that holds in a run. -/
structure State.good (owner : ι) (s : State ι) : Prop where
  shape : s.shape owner
  ledger : s.ledger
  sawEmpty : s.deque = [] → ∀ i, s.sawEmpty i = true

omit [DecidableEq ι] in
theorem good_initOne (owner : ι) : (initOne ι).good owner := by
  refine ⟨⟨rfl, Nat.two_pow_pos 15, le_rfl, ?_, fun _ => rfl⟩, ⟨?_, ?_, ?_⟩, fun _ _ => rfl⟩
  · intro k hk
    exact absurd hk (Nat.not_lt_zero k)
  · simp [initOne, State.taken]
  · exact List.forall_mem_nil _
  · exact List.forall_mem_nil _

theorem good_step (g : s.good owner) {a : Action ι} (hroom : s.roomy a) {s' : State ι}
    (hs : s.step owner a = some s') : s'.good owner := by
  refine ⟨g.shape.step hroom hs, g.ledger.step g.shape g.sawEmpty hs, ?_⟩
  -- each action ends with an observation
  cases a with
  | pushHead item | popHead | popTail i =>
    simp only [State.step, Option.ite_none_right_eq_some, Option.some.injEq] at hs
    rw [← hs.2]
    exact sawEmpty_observe _
  | access i =>
    simp only [State.step, Option.ite_none_left_eq_some, Option.some.injEq] at hs
    rw [← hs.2]
    exact sawEmpty_observe _

theorem good_run (g : s.good owner) {as : List (Action ι)} (hroom : s.roomyRun owner as)
    {s' : State ι} (hs : s.run owner as = some s') : s'.good owner := by
  induction as generalizing s with
  | nil =>
    simp only [State.run, Option.some.injEq] at hs
    exact hs ▸ g
  | cons a as ih =>
    simp only [State.run, Option.bind_eq_some_iff] at hs
    obtain ⟨s₁, h₁, hs⟩ := hs
    exact ih (good_step g hroom.1 h₁) (hroom.2 s₁ h₁) hs

omit [DecidableEq ι] in
theorem sound_of_good (g : s.good owner) (size : ℕ) : s.sound size := by
  refine ⟨?_, g.ledger.failures, ?_⟩
  · rw [g.ledger.account, add_assoc]
    exact Multiset.le_add_right _ _
  · intro hsize k hk
    have := g.ledger.used k hk
    omega

/-- In every run from `InitOne`, with any threads and any interleaving of their accesses: while
no push finds the head at the largest `short`, nothing is returned twice, and so on. -/
theorem sound_of_roomyRun (size : ℕ) (owner : ι) (as : List (Action ι)) (s : State ι)
    (hroom : (initOne ι).roomyRun owner as) (hrun : (initOne ι).run owner as = some s) :
    s.sound size :=
  sound_of_good (good_run (good_initOne owner) hroom hrun) size

/-- How many pushes a run makes. -/
def pushes : List (Action ι) → ℕ
  | [] => 0
  | .pushHead _ :: as => pushes as + 1
  | _ :: as => pushes as

omit [Fintype ι] in
theorem pushCalls_access (s : State ι) (i : ι) : (s.access i).pushCalls = s.pushCalls := by
  unfold State.access State.load State.casHead State.casTail
  split <;> first | rfl | (split <;> rfl)

/-- A run with fewer pushes than there are positive `short` numbers never fills the half word. -/
theorem roomyRun_of_pushes_le (g : s.good owner) {as : List (Action ι)}
    (hle : s.pushCalls + pushes as ≤ 32767) : s.roomyRun owner as := by
  induction as generalizing s with
  | nil => trivial
  | cons a as ih =>
    have hroom : s.roomy a := by
      cases a with
      | pushHead item =>
        intro heq
        have hcalls := g.shape.calls
        rw [heq, show (32767 : BitVec 16).toNat = 32767 from rfl] at hcalls
        simp only [pushes] at hle
        omega
      | popHead | popTail i | access i => trivial
    refine ⟨hroom, fun s' hs => ih (good_step g hroom hs) ?_⟩
    cases a with
    | pushHead item =>
      simp only [State.step, Option.ite_none_right_eq_some, Option.some.injEq] at hs
      have hcalls : s'.pushCalls = s.pushCalls + 1 := by
        rw [← hs.2]
        rfl
      simp only [pushes] at hle
      omega
    | popHead | popTail i =>
      simp only [State.step, Option.ite_none_right_eq_some, Option.some.injEq] at hs
      rw [← hs.2]
      exact hle
    | access i =>
      simp only [State.step, Option.ite_none_left_eq_some, Option.some.injEq] at hs
      have hcalls : s'.pushCalls = s.pushCalls := by
        rw [← hs.2]
        exact pushCalls_access s i
      rw [hcalls]
      exact hle

end Ledger

/-! ## A run that fills the half word -/

/-- A push with nothing in between. -/
def onePush : List (Action Unit) := [.pushHead 2, .access (), .access (), .access (), .access ()]

theorem run_append (s : State ι) (as bs : List (Action ι)) :
    s.run owner (as ++ bs) = (s.run owner as).bind fun s' => s'.run owner bs := by
  induction as generalizing s with
  | nil => rfl
  | cons a as ih =>
    show ((s.step owner a).bind fun s' => s'.run owner (as ++ bs)) = _
    simp only [State.run, Option.bind_assoc, ih]

theorem run_onePush {s : State Unit} (hidle : s.pc () = .idle) :
    ∃ s', s.run () onePush = some s' ∧ s'.pc () = .idle ∧
      s'.fCounter = s.fCounter.incHead ∧ s'.pushCalls = s.pushCalls + 1 := by
  simp [onePush, State.run, State.step, hidle, State.begin, State.observe, State.access,
    State.goto, State.store, State.incr, AtomicCounter.incHead]

theorem run_pushes (k : ℕ) : ∃ s, (initOne Unit).run () (List.replicate k onePush).flatten = some s ∧
    s.pc () = .idle ∧ s.fCounter = ⟨BitVec.ofNat 16 k, 0⟩ ∧ s.pushCalls = k := by
  induction k with
  | zero => exact ⟨_, rfl, rfl, rfl, rfl⟩
  | succ k ih =>
    obtain ⟨s, hrun, hidle, hcounter, hcalls⟩ := ih
    obtain ⟨s', hrun', hidle', hcounter', hcalls'⟩ := run_onePush hidle
    refine ⟨s', ?_, hidle', ?_, by omega⟩
    · rw [List.replicate_succ', List.flatten_append, run_append, hrun]
      simpa using hrun'
    · rw [hcounter', hcounter, AtomicCounter.incHead, BitVec.ofNat_add]
      rfl

/-- A pop by the owner, of a queue whose head is negative. -/
theorem run_popHead {s : State Unit} (hidle : s.pc () = .idle)
    (hcounter : s.fCounter = ⟨0x8000, 0⟩) :
    ∃ s', s.run () [.popHead, .access (), .access (), .access ()] = some s' ∧
      -32769 ∈ s'.used ∧ s'.pushCalls = s.pushCalls := by
  simp [State.run, State.step, hidle, State.begin, State.observe, State.access, State.goto,
    State.load, hcounter, State.casHead, State.takeHead, State.ret]

/-- After 32768 pushes on a queue of 40000 slots, the head is negative, and the next pop reads
the memory before the list. -/
theorem not_sound_pushes :
    ¬ ∀ (size : ℕ) (owner : Unit) (as : List (Action Unit)) (s : State Unit),
      (initOne Unit).run owner as = some s → s.sound size := by
  intro h
  obtain ⟨s, hrun, hidle, hcounter, hcalls⟩ := run_pushes 32768
  obtain ⟨s', hrun', hused, hcalls'⟩ := run_popHead hidle hcounter
  have hsound := h 40000 () ((List.replicate 32768 onePush).flatten ++
    [.popHead, .access (), .access (), .access ()]) s' (by
      rw [run_append, hrun]
      exact hrun')
  have := (hsound.used (by omega) _ hused).1
  omega

/-- Two threads on a queue: one number is pushed, and the other thread takes it. -/
def pushAndSteal : List (Action Bool) :=
  [.pushHead 5, .access true, .access true, .access true, .popTail false, .access true,
    .access false, .access false, .access false]

theorem sound_pushAndSteal :
    ∃ s, (initOne Bool).run true pushAndSteal = some s ∧ s.returned = [5] ∧ s.sound 1 := by
  refine ⟨_, rfl, rfl, ?_⟩
  apply sound_of_roomyRun 1 true pushAndSteal _ _ rfl
  exact roomyRun_of_pushes_le (good_initOne true) (by decide)

end TaskQueue
end Faust
