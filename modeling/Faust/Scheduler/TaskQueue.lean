import Mathlib.Algebra.BigOperators.Group.Finset.Basic
import Mathlib.Data.Fintype.Basic
import Mathlib.Data.Multiset.AddSub
import Mathlib.Tactic.Common

/-!
# The work stealing queue (`scheduler.cpp`)

A queue is a list of slots and one word that holds two half words, the head and the tail. Its
owner pushes and pops at the head, any thread pops at the tail. A pop reads the word, computes
the next one, and tries a compare-and-swap; the slot is read after that. A push writes the
slot, and then increments the head with a plain read and a plain write of the half word.

The machine takes these accesses one at a time, in any order of the threads. Beside the memory
it keeps the deque that the queue stands for.
-/

namespace Faust
namespace TaskQueue

/-! ## The deque -/

/-- What the queue stands for: the tail is at the front of the list, the head at its end. -/
abbrev Deque := List ℤ

def Deque.pushHead (d : Deque) (item : ℤ) : Deque := d ++ [item]

def Deque.popHead (d : Deque) : Option ℤ × Deque := (d.getLast?, d.dropLast)

def Deque.popTail (d : Deque) : Option ℤ × Deque := (d.head?, d.tail)

/-! ## The memory -/

/-- `AtomicCounter`, with the two `short` of its union. -/
structure AtomicCounter where
  fHead : BitVec 16
  fTail : BitVec 16
deriving DecidableEq, Repr

/-- `fValue`, the whole word. -/
def AtomicCounter.fValue (c : AtomicCounter) : BitVec 32 := c.fTail ++ c.fHead

/-- `IncHead`. -/
def AtomicCounter.incHead (c : AtomicCounter) : AtomicCounter := { c with fHead := c.fHead + 1 }

/-- `DecHead`. -/
def AtomicCounter.decHead (c : AtomicCounter) : AtomicCounter := { c with fHead := c.fHead - 1 }

/-- `IncTail`. -/
def AtomicCounter.incTail (c : AtomicCounter) : AtomicCounter := { c with fTail := c.fTail + 1 }

theorem AtomicCounter.fValue_injective : Function.Injective AtomicCounter.fValue := by
  intro c d h
  have hHead := congrArg (BitVec.setWidth 16) h
  have hTail := congrArg (BitVec.extractLsb' 16 16) h
  simp only [fValue, BitVec.setWidth_append, BitVec.extractLsb'_append_eq_left] at hHead hTail
  cases c
  cases d
  simp_all

/-- Where a thread is in a call. -/
inductive Pc
  /-- In no call. -/
  | idle
  /-- `PushHead`: about to read the head, for the slot. -/
  | pushIndex (item : ℤ)
  /-- About to write the slot. -/
  | pushStore (item : ℤ) (index : BitVec 16)
  /-- About to read the head, to increment it. -/
  | pushLoad (item : ℤ)
  /-- About to write the head. -/
  | pushIncr (item : ℤ) (head : BitVec 16)
  /-- `PopHead`: about to read the word. -/
  | headLoad
  /-- About to swap it. -/
  | headCas (old : AtomicCounter)
  /-- About to read the slot. -/
  | headSlot (old : AtomicCounter)
  /-- `PopTail`: about to read the word. -/
  | tailLoad
  | tailCas (old : AtomicCounter)
  | tailSlot (old : AtomicCounter)
deriving DecidableEq, Repr

/-- The memory and the threads. The slots are the words of memory from `fTaskList` on, and an
index out of the list is the place of another word.

The other fields record what happens. `pushCalls` counts the calls of `PushHead`. `pushed`,
`returned` and `failures` are for the calls that are over: the last says, for each pop that
failed, whether the queue was empty at some moment of the call. `used` has the indices of the
slots read or written. `claimed` is what a pop under way has taken off `deque`, and `sawEmpty`
whether `deque` was empty since the call of a thread began. -/
structure State (ι : Type*) where
  fTaskList : ℤ → ℤ
  fCounter : AtomicCounter
  pc : ι → Pc
  pushCalls : ℕ
  pushed : List ℤ
  returned : List ℤ
  failures : List Bool
  used : List ℤ
  deque : Deque
  claimed : ι → Option ℤ
  sawEmpty : ι → Bool

/-- After `InitOne`. -/
def initOne (ι : Type*) : State ι where
  fTaskList := fun _ => -1
  fCounter := ⟨0, 0⟩
  pc := fun _ => .idle
  pushCalls := 0
  pushed := []
  returned := []
  failures := []
  used := []
  deque := []
  claimed := fun _ => none
  sawEmpty := fun _ => true

namespace State

variable {ι : Type*} [DecidableEq ι] (s : State ι)

/-! ## The accesses -/

def goto (i : ι) (pc : Pc) : State ι := { s with pc := Function.update s.pc i pc }

/-- `fTaskList[index] = item`. -/
def store (i : ι) (index : BitVec 16) (item : ℤ) : State ι :=
  { s with
    fTaskList := Function.update s.fTaskList index.toInt item
    used := index.toInt :: s.used
    pc := Function.update s.pc i (.pushLoad item) }

/-- The write of the head that ends a push. -/
def incr (i : ι) (item : ℤ) (head : BitVec 16) : State ι :=
  { s with
    fCounter := { s.fCounter with fHead := head + 1 }
    pc := Function.update s.pc i .idle
    pushed := item :: s.pushed
    deque := s.deque.pushHead item }

/-- The swap of `PopHead`, once the word is the one that was read. -/
def takeHead (i : ι) (old : AtomicCounter) : State ι :=
  { s with
    fCounter := old.decHead
    pc := Function.update s.pc i (.headSlot old)
    deque := s.deque.popHead.2
    claimed := Function.update s.claimed i s.deque.popHead.1 }

/-- The swap of `PopTail`. -/
def takeTail (i : ι) (old : AtomicCounter) : State ι :=
  { s with
    fCounter := old.incTail
    pc := Function.update s.pc i (.tailSlot old)
    deque := s.deque.popTail.2
    claimed := Function.update s.claimed i s.deque.popTail.1 }

/-- The compare-and-swap of `PopHead`. -/
def casHead (i : ι) (old : AtomicCounter) : State ι :=
  if s.fCounter.fValue = old.fValue then s.takeHead i old else s.goto i .headLoad

/-- The compare-and-swap of `PopTail`. -/
def casTail (i : ι) (old : AtomicCounter) : State ι :=
  if s.fCounter.fValue = old.fValue then s.takeTail i old else s.goto i .tailLoad

/-- `return fTaskList[index]`. -/
def ret (i : ι) (index : ℤ) : State ι :=
  { s with
    pc := Function.update s.pc i .idle
    returned := s.fTaskList index :: s.returned
    used := index :: s.used
    claimed := Function.update s.claimed i none }

/-- `return WORK_STEALING_INDEX`. -/
def fail (i : ι) : State ι :=
  { s with
    pc := Function.update s.pc i .idle
    failures := s.sawEmpty i :: s.failures }

/-- The read of the word, and the comparison of its two halves. -/
def load (i : ι) (cas : AtomicCounter → Pc) : State ι :=
  if s.fCounter.fHead = s.fCounter.fTail then s.fail i else s.goto i (cas s.fCounter)

/-- The next access of thread `i`. -/
def access (i : ι) : State ι :=
  match s.pc i with
  | .idle => s
  | .pushIndex item => s.goto i (.pushStore item s.fCounter.fHead)
  | .pushStore item index => s.store i index item
  | .pushLoad item => s.goto i (.pushIncr item s.fCounter.fHead)
  | .pushIncr item head => s.incr i item head
  | .headLoad => s.load i .headCas
  | .headCas old => s.casHead i old
  | .headSlot old => s.ret i (old.fHead.toInt - 1)
  | .tailLoad => s.load i .tailCas
  | .tailCas old => s.casTail i old
  | .tailSlot old => s.ret i old.fTail.toInt

/-- The beginning of a call of thread `i`. -/
def begin (i : ι) (pc : Pc) : State ι :=
  { s with
    pc := Function.update s.pc i pc
    sawEmpty := Function.update s.sawEmpty i false }

/-- Every thread that is in a call sees whether the deque is empty. -/
def observe : State ι := { s with sawEmpty := fun i => s.sawEmpty i || s.deque.isEmpty }

end State

/-! ## Runs -/

/-- What a thread does next. -/
inductive Action (ι : Type*)
  /-- The owner calls `PushHead(item)`. -/
  | pushHead (item : ℤ)
  /-- The owner calls `PopHead()`. -/
  | popHead
  /-- Thread `i` calls `PopTail()`. -/
  | popTail (i : ι)
  /-- Thread `i` makes its next access. -/
  | access (i : ι)

variable {ι : Type*} [DecidableEq ι]

/-- One action, where it can be taken. -/
def State.step (owner : ι) (s : State ι) : Action ι → Option (State ι)
  | .pushHead item =>
    if s.pc owner = .idle then
      some { s.begin owner (.pushIndex item) with pushCalls := s.pushCalls + 1 }.observe
    else none
  | .popHead => if s.pc owner = .idle then some (s.begin owner .headLoad).observe else none
  | .popTail i => if s.pc i = .idle then some (s.begin i .tailLoad).observe else none
  | .access i => if s.pc i = .idle then none else some (s.access i).observe

def State.run (owner : ι) (s : State ι) : List (Action ι) → Option (State ι)
  | [] => some s
  | a :: as => (s.step owner a).bind fun s' => s'.run owner as

/-- A push does not find the head at the largest `short`. -/
def State.roomy (s : State ι) : Action ι → Prop
  | .pushHead _ => s.fCounter.fHead ≠ 32767
  | _ => True

/-- Every push of the run finds the head below the largest `short`. -/
def State.roomyRun (owner : ι) (s : State ι) : List (Action ι) → Prop
  | [] => True
  | a :: as => s.roomy a ∧ ∀ s', s.step owner a = some s' → s'.roomyRun owner as

/-- What is expected of a queue of `size` slots: no pushed number is returned twice and nothing
else is returned, a pop fails only if the queue was empty during the call, and as long as fewer
pushes are made than there are slots, no index is out of the list. -/
structure State.sound (size : ℕ) (s : State ι) : Prop where
  returned : (s.returned : Multiset ℤ) ≤ s.pushed
  failures : ∀ b ∈ s.failures, b = true
  used : s.pushCalls < size → ∀ k ∈ s.used, 0 ≤ k ∧ k < size

end TaskQueue
end Faust
