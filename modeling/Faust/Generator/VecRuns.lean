import Faust.Generator.VecComponents

/-!
# Runs of vector code

The host initialises the object and calls `compute` any number of times, each time for any
number of samples. The loop on blocks cuts a call into blocks, and each block executes all the
loops of the dag, of which one contains the component that is looked at. The component keeps its
invariant in all these runs, so that delay lines delay and the indices of waveforms count.
-/

namespace Faust.Fir

open InstBuilder DelayBuffer

/-! ## Programs -/

/-- A program: the code `own` of a component, the code around it in the sections, and the other
loops of the dag in the order of execution. -/
structure VecProgram where
  variant : VectorLoopVariant
  gVecSize : ℕ
  first : Sections
  own : Sections
  rest : Sections
  locals : List StatementInst
  before : List DAGLoop
  after : List DAGLoop

namespace VecProgram

/-- The sections. -/
def sections (p : VecProgram) : Sections := (p.first.append p.own).append p.rest

/-- The loop of the component. -/
def loop (p : VecProgram) : DAGLoop := ⟨p.sections.pre, p.sections.compute, p.sections.post⟩

/-- The loops of the dag. -/
def dag (p : VecProgram) : List StatementInst := generateDAGLoop (p.before ++ p.loop :: p.after)

/-- The loop on blocks. -/
def blocks (p : VecProgram) : StatementInst :=
  generateDAGLoopVariant p.variant p.gVecSize p.locals p.dag

/-- The size of the block that starts at sample `i` of a call for `N` samples. -/
def blockSize (p : VecProgram) (N i : ℕ) : ℕ := min p.gVecSize (N - i)

/-- The size of blocks is a positive `int`. -/
def ValidSize (p : VecProgram) : Prop := 0 < p.gVecSize ∧ p.gVecSize < 2 ^ 31

/-- No index of the loop on blocks overflows in a call for `N` samples. -/
def Covers (p : VecProgram) (N : ℕ) : Prop :=
  N < 2 ^ 31 ∧ (p.variant = .variant1 → (N + p.gVecSize - 1) / p.gVecSize * p.gVecSize < 2 ^ 31)

/-- The controls that are not the index of the samples. -/
def outer : List String := ["count", "index", "fullcount"]

/-- The code around a component leaves its variables alone, and the names of its variables are
not those of loops. -/
structure WellNamed (p : VecProgram) (v : Variables) : Prop where
  fresh : ∀ n ∈ v.names, IsFresh n
  init : SparesAll (v.names ++ outer) (v.names ++ controls) v.pointers
    (p.first.declare ++ p.rest.declare ++ (p.first.init ++ p.rest.init))
  block : SparesAll (v.names ++ outer) (v.names ++ controls) v.pointers
    (p.first.block ++ p.rest.block)
  locals : SparesAll (v.names ++ outer) (v.names ++ controls) v.pointers p.locals
  loops : ∀ l ∈ p.before ++ p.after, SparesAll (v.names ++ outer) (v.names ++ controls) v.pointers
    (l.fPreInst ++ l.fComputeInst ++ l.fPostInst)
  pre : SparesAll (v.names ++ outer) (v.names ++ controls) v.pointers (p.first.pre ++ p.rest.pre)
  compute : SparesAll (v.names ++ controls) (v.names ++ controls) v.pointers
    (p.first.compute ++ p.rest.compute)
  post : SparesAll (v.names ++ outer) (v.names ++ controls) v.pointers
    (p.first.post ++ p.rest.post)

/-! ## Blocks -/

section
variable (ext : ExternFun) (p : VecProgram)

/-- A block of `n` samples is executed. -/
def Block (n : ℕ) (m m' : Memory) : Prop :=
  ∃ m₁, Runs ext p.locals m m₁ ∧ Runs ext p.dag (Function.update m₁ "count" (intCell n)) m'

/-- The memory after the blocks of the first `i` samples of a call for `N` samples. Each block
starts where the one before it ended. -/
inductive Blocks (N : ℕ) (m₀ : Memory) : ℕ → Memory → Prop
  | start : Blocks N m₀ 0 (Function.update m₀ "index" (intCell 0))
  | block {i : ℕ} {index : ℤ} {m m' : Memory} : Blocks N m₀ i m → i < N →
      p.Block ext (p.blockSize N i) m m' →
      (i + p.blockSize N i < N → index = (i + p.blockSize N i : ℕ)) →
      Blocks N m₀ (i + p.blockSize N i) (Function.update m' "index" (intCell index))

/-- In a block of `n` samples that starts with memory `m`, the loop of the component starts with
`m'`. -/
def LoopAt (n : ℕ) (m m' : Memory) : Prop :=
  ∃ m₁, Runs ext p.locals m m₁ ∧
    Runs ext (generateDAGLoop p.before) (Function.update m₁ "count" (intCell n)) m'

/-- Sample `j` of this block starts with `m'` in the loop of the component. -/
def TurnAt (n : ℕ) (m : Memory) (j : ℕ) (m' : Memory) : Prop :=
  ∃ m₁ m₂, p.LoopAt ext n m m₁ ∧ Runs ext p.loop.fPreInst m₁ m₂ ∧
    Turns ext "i" p.loop.fComputeInst 0 j (Function.update m₂ "i" (intCell 0)) m'

/-- The loop of the component has done all its samples. -/
def TurnsDone (n : ℕ) (m m' : Memory) : Prop :=
  ∃ m₁ m₂, p.LoopAt ext n m m₁ ∧ Runs ext p.loop.fPreInst m₁ m₂ ∧
    Runs ext (if p.loop.fComputeInst.isEmpty then []
      else [genCountLoop "i" (genLoadStackVar "count") p.loop.fComputeInst]) m₂ m'

/-- The first `k` values of the block that starts at time `t` are those of the signal `x`. -/
def Supplied (exp : Option ValueInst) (x : ℕ → Val) (t n k : ℕ) (m : Memory) : Prop :=
  ∀ j < k, ∀ mj ma, p.TurnAt ext n m j mj → Runs ext p.first.compute mj ma →
    ∀ e ∈ exp, e.eval ext ma = some (x (t + j))

/-! ## Calls -/

/-- The function `min` of the library. -/
def IsMin (ext : ExternFun) : Prop :=
  ∀ a b : BitVec 32, ext "min" [.int a, .int b] = some (.int (if a.slt b then a else b))

/-- The host leaves the variables of the object alone. -/
def HostStep (v : Variables) (m m' : Memory) : Prop :=
  Protected v.names v.pointers m' ∧ AgreeOn v.persistent m m'

/-- The memory at the start of a call of `compute`, after `t` samples. -/
inductive CallAt (v : Variables) (exp : Option ValueInst) (x : ℕ → Val) : ℕ → Memory → Prop
  | first {m₀ m m' : Memory} : Protected v.names v.pointers m₀ →
      Runs ext (p.sections.declare ++ p.sections.init) m₀ m → HostStep v m m' →
      CallAt v exp x 0 m'
  | next {t N : ℕ} {m m₁ m₂ m' : Memory} : CallAt v exp x t m →
      m "fullcount" = intCell N → p.Covers N → Runs ext p.sections.block m m₁ →
      (∀ i mi, i < N → p.Blocks ext N m₁ i mi →
        p.Supplied ext exp x (t + i) (p.blockSize N i) (p.blockSize N i) mi) →
      Runs ext [p.blocks] m₁ m₂ → HostStep v m₂ m' → CallAt v exp x (t + N) m'

/-- The memory at the start of a block of `n` samples, after `t` samples. -/
def BlockAt (v : Variables) (exp : Option ValueInst) (x : ℕ → Val) (t n : ℕ) (m : Memory) :
    Prop :=
  ∃ (t₀ N i : ℕ) (m₀ m₁ : Memory), p.CallAt ext v exp x t₀ m₀ ∧ m₀ "fullcount" = intCell N ∧
    p.Covers N ∧ Runs ext p.sections.block m₀ m₁ ∧
    (∀ j mj, j < i → p.Blocks ext N m₁ j mj →
      p.Supplied ext exp x (t₀ + j) (p.blockSize N j) (p.blockSize N j) mj) ∧
    p.Blocks ext N m₁ i m ∧ i < N ∧ t = t₀ + i ∧ n = p.blockSize N i

end

end VecProgram

end Faust.Fir
