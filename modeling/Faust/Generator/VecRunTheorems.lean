import Faust.Generator.VecRuns

/-!
# The invariant of a component

The states of a component follow one another in the order of the code: the sections of its loop
lead from the start of a block to its end, the blocks of a call from its start to its end, and
the calls of a run from the initialisation on.
-/

namespace Faust.Fir

open InstBuilder DelayBuffer

/-! ## Pieces of code -/

section
variable {ext : ExternFun} {v : Variables} {m m' : Memory}

/-- The controls are left alone by a list of them. -/
def AreControls (K : List String) : Prop := ∀ a ∈ K, a ∈ controls

theorem areControls_outer : AreControls VecProgram.outer := by
  simp [AreControls, VecProgram.outer, controls]

theorem areControls_controls : AreControls controls := fun _ h => h

/-- Code that leaves the variables of a component and the controls `K` alone, at any point of its
execution. -/
theorem Steps.spared (hpointers : ∀ q ∈ v.pointers, q ∈ v.names) {K : List String}
    (hK : AreControls K) {ss r : List StatementInst}
    (hss : SparesAll (v.names ++ K) (v.names ++ controls) v.pointers ss)
    (hm : Protected v.names v.pointers m) (h : Steps ext (ss, m) (r, m')) :
    Protected v.names v.pointers m' ∧ AgreeOn v.names m m' ∧ AgreeOn K m m' := by
  have hsub : ∀ n ∈ v.names ++ K, n ∈ v.names ++ controls := by
    intro n hn
    obtain hn | hn := List.mem_append.mp hn
    · exact List.mem_append_left _ hn
    · exact List.mem_append_right _ (hK n hn)
  obtain ⟨_, hm', hkeep⟩ := steps_spares hsub
    (fun q hq => List.mem_append_left _ (hpointers q hq)) hss hm h
  exact ⟨hm', fun n hn => hkeep n (List.mem_append_left _ hn),
    fun n hn => hkeep n (List.mem_append_right _ hn)⟩

/-- A section: the code of the component between other code. -/
theorem Runs.surrounded (hpointers : ∀ q ∈ v.pointers, q ∈ v.names) {K : List String}
    (hK : AreControls K) {first own rest : List StatementInst} {Q Q' : Memory → Prop}
    (hQ : ∀ {m m'}, AgreeOn v.names m m' → Q m → Q m')
    (hQ' : ∀ {m m'}, AgreeOn v.names m m' → Q' m → Q' m')
    (hother : SparesAll (v.names ++ K) (v.names ++ controls) v.pointers (first ++ rest))
    (hown : ∀ ma, Runs ext first m ma → Q ma → AgreeOn K m ma →
      ∃ mb, Runs ext own ma mb ∧ Q' mb ∧ Kept v.names v.pointers ma mb)
    (hm : Protected v.names v.pointers m) (hQm : Q m) (h : Runs ext (first ++ own ++ rest) m m') :
    Protected v.names v.pointers m' ∧ Q' m' ∧ AgreeOn K m m' := by
  rw [sparesAll_append] at hother
  obtain ⟨mb, hfirst, hrest⟩ := h.append_inv
  obtain ⟨ma, hfirst, hrun⟩ := hfirst.append_inv
  obtain ⟨hma, hva, hca⟩ := Steps.spared hpointers hK hother.1 hm hfirst
  obtain ⟨mb', hrun', hQb, hkept⟩ := hown ma hfirst (hQ hva hQm) hca
  obtain rfl := hrun'.unique hrun
  obtain ⟨hmb, hcb⟩ := hkept hma
  obtain ⟨hm', hv', hc'⟩ := Steps.spared hpointers hK hother.2 hmb hrest
  exact ⟨hm', hQ' hv' hQb, (hca.trans fun n hn => hcb n (hK n hn)).trans hc'⟩

end

theorem VecProgram.blockSize_pos (p : VecProgram) (hvs : p.ValidSize) {N i : ℕ} (hi : i < N) :
    0 < p.blockSize N i :=
  Nat.lt_min.mpr ⟨hvs.1, by omega⟩

namespace Component

open VecProgram

variable {ext : ExternFun} {x : ℕ → Val} {p : VecProgram} {exp : Option ValueInst}
  (C : Component ext x p.gVecSize p.own exp) (h : p.WellNamed C.toVariables) {m m' : Memory}
  {t n : ℕ}
include h

/-! ## A block -/

/-- Other loops leave the component alone. -/
theorem other_loops {loops : List DAGLoop} (hloops : ∀ l ∈ loops, l ∈ p.before ++ p.after) :
    SparesAll (C.names ++ outer) (C.names ++ controls) C.pointers (generateDAGLoop loops) := by
  have hi : "i" ∉ C.names ++ outer := by
    intro hmem
    obtain hn | ho := List.mem_append.mp hmem
    · exact (h.fresh "i" hn).1 (by decide)
    · exact absurd ho (by decide)
  rw [sparesAll_iff]
  intro s hs
  obtain ⟨l, hl, hs⟩ := List.mem_flatMap.mp hs
  have hspares := h.loops l (hloops l hl)
  rw [sparesAll_append, sparesAll_append] at hspares
  obtain ⟨⟨hpre, hcompute⟩, hpost⟩ := hspares
  rw [DAGLoop.generateDAGScalarLoop, List.mem_append, List.mem_append] at hs
  obtain (hs | hs) | hs := hs
  · exact sparesAll_iff.mp hpre s hs
  · split at hs
    · simp at hs
    · obtain rfl := List.mem_singleton.mp hs
      simpa [genCountLoop, StatementInst.Spares, genDecLoopVar, genStoreLoopVar, genAdd,
        ValueInst.Confines] using ⟨by simpa using hi, hcompute⟩
  · exact sparesAll_iff.mp hpost s hs

/-- The number of samples of the block is set. -/
theorem holds_count {Q : Memory → Prop} (hQ : ∀ {m m'}, AgreeOn C.names m m' → Q m → Q m')
    (hm : Protected C.names C.pointers m) (hQm : Q m) (n : ℕ) :
    Protected C.names C.pointers (Function.update m "count" (intCell n)) ∧
      Q (Function.update m "count" (intCell n)) := by
  refine ⟨hm.update (by simp [intCell, Cell.targets]) (by simp [intCell]), hQ ?_ hQm⟩
  intro a ha
  have hne : a ≠ "count" := fun hne => (h.fresh a ha).1 (hne ▸ by decide)
  exact Function.update_of_ne hne _ _

/-- At the start of the loop of the component. -/
theorem holds_loopAt (hm : Protected C.names C.pointers m) (hopen : C.Open t m)
    (hloop : p.LoopAt ext n m m') :
    Protected C.names C.pointers m' ∧ C.Open t m' ∧ m' "count" = intCell n ∧
      AgreeOn ["index", "fullcount"] m m' := by
  obtain ⟨m₁, hio, hbefore⟩ := hloop
  obtain ⟨hm₁, hv₁, hc₁⟩ := Steps.spared C.pointers_mem areControls_outer h.locals hm hio
  obtain ⟨hmc, hopenc⟩ := C.holds_count h C.open_congr hm₁ (C.open_congr hv₁ hopen) n
  obtain ⟨hm', hv', hc₂⟩ := Steps.spared C.pointers_mem areControls_outer
    (C.other_loops h fun l hl => List.mem_append_left _ hl) hmc hbefore
  refine ⟨hm', C.open_congr hv' hopenc, ?_, ?_⟩
  · rw [hc₂ "count" (by decide), Function.update_self]
  · intro a ha
    have hne : a ≠ "count" := by
      rintro rfl
      exact absurd ha (by decide)
    have hao : a ∈ outer := by
      revert ha
      simp only [outer, List.mem_cons, List.not_mem_nil, or_false]
      exact Or.inr
    rw [hc₂ a hao, Function.update_of_ne hne, hc₁ a hao]

/-- After the code of the loop before its samples. -/
theorem holds_pre (hm : Protected C.names C.pointers m) (hopen : C.Open t m)
    (hpre : Runs ext p.loop.fPreInst m m') :
    Protected C.names C.pointers m' ∧ C.Stored t 0 m' ∧ AgreeOn outer m m' :=
  hpre.surrounded C.pointers_mem areControls_outer C.open_congr C.stored_congr h.pre
    (fun ma _ ho _ => C.pre t ma ho) hm hopen

/-- A sample is executed. -/
theorem holds_turn {j : ℕ} (hm : Protected C.names C.pointers m) (hs : C.Stored t j m)
    (hj : j < p.gVecSize) (hi : m "i" = intCell j)
    (hx : ∀ ma, Runs ext p.first.compute m ma → ∀ e ∈ exp, e.eval ext ma = some (x (t + j)))
    (hrun : Runs ext p.loop.fComputeInst m m') :
    Protected C.names C.pointers m' ∧ C.Stored t (j + 1) m' ∧ AgreeOn controls m m' :=
  hrun.surrounded C.pointers_mem areControls_controls C.stored_congr C.stored_congr h.compute
    (fun ma hfirst hsa hc => C.store t j ma hsa hj ((hc "i" (by decide)).trans hi) (hx ma hfirst))
    hm hs

/-- The index of the samples is set. -/
theorem holds_index {k j : ℕ} (hm : Protected C.names C.pointers m) (hs : C.Stored t k m) :
    Protected C.names C.pointers (Function.update m "i" (intCell j)) ∧
      C.Stored t k (Function.update m "i" (intCell j)) ∧
      AgreeOn outer m (Function.update m "i" (intCell j)) := by
  refine ⟨hm.update (by simp [intCell, Cell.targets]) (by simp [intCell]), C.stored_congr ?_ hs, ?_⟩
  · intro a ha
    have hne : a ≠ "i" := fun hne => (h.fresh a ha).1 (hne ▸ by decide)
    exact Function.update_of_ne hne _ _
  · intro a ha
    have hne : a ≠ "i" := by
      rintro rfl
      exact absurd ha (by decide)
    exact Function.update_of_ne hne _ _

/-- The samples of a loop one after the other. -/
theorem holds_turns {m₂ : Memory} (hm : Protected C.names C.pointers m₂) (hs : C.Stored t 0 m₂)
    {j : ℕ} (hj : j ≤ p.gVecSize)
    (hx : ∀ i < j, ∀ mi ma, Turns ext "i" p.loop.fComputeInst 0 i
      (Function.update m₂ "i" (intCell 0)) mi → Runs ext p.first.compute mi ma →
      ∀ e ∈ exp, e.eval ext ma = some (x (t + i)))
    (hturns : Turns ext "i" p.loop.fComputeInst 0 j (Function.update m₂ "i" (intCell 0)) m') :
    Protected C.names C.pointers m' ∧ C.Stored t j m' ∧ m' "i" = intCell j ∧
      AgreeOn outer m₂ m' := by
  induction j generalizing m' with
  | zero =>
    cases hturns with
    | none =>
      obtain ⟨hm', hs', hc'⟩ := C.holds_index h (j := 0) hm hs
      exact ⟨hm', hs', Function.update_self .., hc'⟩
    | turn _ hrest => exact absurd hrest.le (by omega)
  | succ j ih =>
    obtain ⟨ma, mb, hfirst, hrun, rfl⟩ := hturns.last (Nat.zero_le j)
    obtain ⟨hma, hsa, hia, hca⟩ := ih (by omega) (fun i hi => hx i (by omega)) hfirst
    obtain ⟨hmb, hsb, hcb⟩ := C.holds_turn h hma hsa (by omega) hia
      (fun mc hmc => hx j (by omega) ma mc hfirst hmc) hrun
    obtain ⟨hm', hs', hc'⟩ := C.holds_index h (j := j + 1) hmb hsb
    refine ⟨hm', hs', Function.update_self .., ?_⟩
    exact (hca.trans fun a ha => hcb a (areControls_outer a ha)).trans hc'

/-- At the start of sample `j` in the loop of the component. -/
theorem holds_turnAt (hm : Protected C.names C.pointers m) (hopen : C.Open t m) {j : ℕ}
    (hj : j ≤ p.gVecSize) (hx : p.Supplied ext exp x t n j m) (hturn : p.TurnAt ext n m j m') :
    Protected C.names C.pointers m' ∧ C.Stored t j m' ∧ m' "i" = intCell j ∧
      m' "count" = intCell n ∧ AgreeOn ["index", "fullcount"] m m' := by
  obtain ⟨m₁, m₂, hloop, hpre, hturns⟩ := hturn
  obtain ⟨hm₁, hopen₁, hcount, hc₁⟩ := C.holds_loopAt h hm hopen hloop
  obtain ⟨hm₂, hs₂, hc₂⟩ := C.holds_pre h hm₁ hopen₁ hpre
  obtain ⟨hm', hs', hi, hc'⟩ := C.holds_turns h hm₂ hs₂ hj
    (fun i hi mi ma hmi => hx i hi mi ma ⟨m₁, m₂, hloop, hpre, hmi⟩) hturns
  have hc := hc₂.trans hc'
  refine ⟨hm', hs', hi, (hc "count" (by decide)).trans hcount, fun a ha => ?_⟩
  have hao : a ∈ outer := List.mem_cons_of_mem _ ha
  exact (hc a hao).trans (hc₁ a ha)

/-- At the end of the samples of the loop. -/
theorem holds_turnsDone (hm : Protected C.names C.pointers m) (hopen : C.Open t m)
    (hvs : p.gVecSize < 2 ^ 31) (hn : n ≤ p.gVecSize) (hx : p.Supplied ext exp x t n n m)
    (hdone : p.TurnsDone ext n m m') :
    Protected C.names C.pointers m' ∧ C.Stored t n m' ∧ m' "count" = intCell n ∧
      AgreeOn ["index", "fullcount"] m m' := by
  obtain ⟨m₁, m₂, hloop, hpre, hrun⟩ := hdone
  obtain ⟨hm₁, hopen₁, hcount, hc₁⟩ := C.holds_loopAt h hm hopen hloop
  obtain ⟨hm₂, hs₂, hc₂⟩ := C.holds_pre h hm₁ hopen₁ hpre
  have hcount₂ := (hc₂ "count" (by decide)).trans hcount
  have hagree : ∀ {mk}, AgreeOn outer m₂ mk → mk "count" = intCell n ∧
      AgreeOn ["index", "fullcount"] m mk := by
    intro mk hk
    refine ⟨(hk "count" (by decide)).trans hcount₂, fun a ha => ?_⟩
    exact ((hc₂.trans hk) a (List.mem_cons_of_mem _ ha)).trans (hc₁ a ha)
  split at hrun
  · -- the loop has no code for a sample
    rename_i hempty
    obtain rfl := (Runs.nil m₂).unique hrun
    have hown : p.own.compute = [] := by
      have hnil := List.isEmpty_iff.mp hempty
      simp only [VecProgram.loop, sections, Sections.append, List.append_eq_nil_iff] at hnil
      exact hnil.1.2
    exact ⟨hm₂, C.idle hown hs₂ n, hagree fun _ _ => rfl⟩
  · obtain ⟨hturns, -⟩ := hrun.genCountLoop_turns
      (fun j mj => Protected C.names C.pointers mj ∧ C.Stored t j mj ∧ AgreeOn outer m₂ mj)
      (show n < 2 ^ 31 by omega)
      (fun j mj hj => eval_genLoadStackVar ext
        ((hj.2.2 "count" (by decide)).trans hcount₂))
      (by
        rintro j mj mk hjn hturns ⟨hmj, hsj, hcj⟩ hij hrun
        obtain ⟨hmk, hsk, hck⟩ := C.holds_turn h hmj hsj (by omega) hij
          (fun ma hma => hx j hjn mj ma ⟨m₁, m₂, hloop, hpre, hturns⟩ hma) hrun
        obtain ⟨hm', hs', hc'⟩ := C.holds_index h (j := j + 1) hmk hsk
        refine ⟨(hck "i" (by decide)).trans hij, hm', hs', ?_⟩
        exact (hcj.trans fun a ha => hck a (areControls_outer a ha)).trans hc')
      (C.holds_index h (j := 0) hm₂ hs₂)
    obtain ⟨hm', hs', _, hc'⟩ := C.holds_turns h hm₂ hs₂ hn
      (fun i hi mi ma hmi => hx i hi mi ma ⟨m₁, m₂, hloop, hpre, hmi⟩) hturns
    exact ⟨hm', hs', hagree hc'⟩

/-- After the loop of the component. -/
theorem holds_post (hm : Protected C.names C.pointers m) (hs : C.Stored t n m)
    (hn : n ≤ p.gVecSize) (hcount : m "count" = intCell n)
    (hpost : Runs ext p.loop.fPostInst m m') :
    Protected C.names C.pointers m' ∧ C.Done t n m' ∧ AgreeOn outer m m' :=
  hpost.surrounded C.pointers_mem areControls_outer C.stored_congr C.done_congr h.post
    (fun ma _ hsa hc => C.post t n ma hsa hn ((hc "count" (by decide)).trans hcount)) hm hs

/-- The loops after the one of the component. -/
theorem holds_after {r : List StatementInst} (hm : Protected C.names C.pointers m)
    (hd : C.Done t n m) (hrun : Steps ext (generateDAGLoop p.after, m) (r, m')) :
    Protected C.names C.pointers m' ∧ C.Done t n m' ∧ AgreeOn outer m m' := by
  obtain ⟨hm', hv', hc'⟩ := Steps.spared C.pointers_mem areControls_outer
    (C.other_loops h fun l hl => List.mem_append_right _ hl) hm hrun
  exact ⟨hm', C.done_congr hv' hd, hc'⟩

/-- A block leads to the start of the next one. -/
theorem holds_block (hm : Protected C.names C.pointers m) (hopen : C.Open t m)
    (hvs : p.gVecSize < 2 ^ 31) (hn : n ≤ p.gVecSize) (hx : p.Supplied ext exp x t n n m)
    (hblock : p.Block ext n m m') :
    Protected C.names C.pointers m' ∧ C.Open (t + n) m' ∧
      AgreeOn ["index", "fullcount"] m m' := by
  obtain ⟨m₁, hio, hdag⟩ := hblock
  rw [dag, generateDAGLoop, List.flatMap_append, List.flatMap_cons] at hdag
  obtain ⟨m₂, hbefore, hdag⟩ := hdag.append_inv
  obtain ⟨m₃, hloop, hafter⟩ := hdag.append_inv
  obtain ⟨m₄, hloop, hpost⟩ := hloop.append_inv
  obtain ⟨m₅, hpre, hturns⟩ := hloop.append_inv
  have hdone : p.TurnsDone ext n m m₄ := ⟨m₂, m₅, ⟨m₁, hio, hbefore⟩, hpre, hturns⟩
  obtain ⟨hm₄, hs₄, hcount₄, hc₄⟩ := C.holds_turnsDone h hm hopen hvs hn hx hdone
  obtain ⟨hm₃, hd₃, hc₃⟩ := C.holds_post h hm₄ hs₄ hn hcount₄ hpost
  obtain ⟨hm', hd', hc'⟩ := C.holds_after h hm₃ hd₃ hafter
  refine ⟨hm', C.done_open hd', fun a ha => ?_⟩
  have hao : a ∈ outer := List.mem_cons_of_mem _ ha
  exact ((hc₃.trans hc') a hao).trans (hc₄ a ha)

/-! ## A call -/

/-- The index of the blocks is set. -/
theorem holds_blockIndex (hm : Protected C.names C.pointers m) (hopen : C.Open t m) (k : ℤ) :
    Protected C.names C.pointers (Function.update m "index" (intCell k)) ∧
      C.Open t (Function.update m "index" (intCell k)) := by
  refine ⟨hm.update (by simp [intCell, Cell.targets]) (by simp [intCell]), C.open_congr ?_ hopen⟩
  intro a ha
  have hne : a ≠ "index" := fun hne => (h.fresh a ha).1 (hne ▸ by decide)
  exact Function.update_of_ne hne _ _

/-- After the code of a call before its blocks. -/
theorem holds_callBlock (hm : Protected C.names C.pointers m) (hheld : C.Held t m)
    (hrun : Runs ext p.sections.block m m') :
    Protected C.names C.pointers m' ∧ C.Open t m' ∧ AgreeOn outer m m' :=
  hrun.surrounded C.pointers_mem areControls_outer
    (fun ha => C.held_congr fun a hp => ha a (C.persistent_mem a hp)) C.open_congr h.block
    (fun ma _ hh _ => C.block t ma hh) hm hheld

/-- The blocks of a call one after the other. -/
theorem holds_blocks {N j : ℕ} {m₁ : Memory} (hvs : p.ValidSize)
    (hm₁ : Protected C.names C.pointers m₁) (hopen₁ : C.Open t m₁)
    (hfull : m₁ "fullcount" = intCell N)
    (hx : ∀ i mi, i < j → p.Blocks ext N m₁ i mi →
      p.Supplied ext exp x (t + i) (p.blockSize N i) (p.blockSize N i) mi)
    (hblocks : p.Blocks ext N m₁ j m) :
    Protected C.names C.pointers m ∧ C.Open (t + j) m ∧ m "fullcount" = intCell N ∧
      (j < N → m "index" = intCell j) := by
  induction hblocks with
  | start =>
    obtain ⟨hm, hopen⟩ := C.holds_blockIndex h hm₁ hopen₁ 0
    exact ⟨hm, hopen, (Function.update_of_ne (by decide) _ _).trans hfull,
      fun _ => Function.update_self ..⟩
  | @block i index ma mb hprev hi hblock hindex ih =>
    have hpos := p.blockSize_pos hvs hi
    obtain ⟨hma, hoa, hfa, _⟩ := ih fun k mk hk => hx k mk (by omega)
    obtain ⟨hmb, hob, hcb⟩ := C.holds_block h hma hoa hvs.2 (Nat.min_le_left _ _)
      (hx i ma (by omega) hprev) hblock
    obtain ⟨hm, hopen⟩ := C.holds_blockIndex h hmb hob index
    rw [add_assoc] at hopen
    refine ⟨hm, hopen, ?_, fun hlt => by rw [Function.update_self, hindex hlt]⟩
    exact (Function.update_of_ne (by decide) _ _).trans ((hcb _ (by decide)).trans hfa)

/-- The code of a block executes a block of its number of samples. -/
theorem block_of_runs {count : ValueInst}
    (hm : Protected C.names C.pointers m)
    (hcount : ∀ m₁, AgreeOn outer m m₁ → count.eval ext m₁ = some (.int (.ofInt 32 n)))
    (hrun : Runs ext (blockCode p.locals count p.dag) m m') : p.Block ext n m m' := by
  obtain ⟨m₁, hio, hrest⟩ := hrun.append_inv
  obtain ⟨_, _, hc₁⟩ := Steps.spared C.pointers_mem areControls_outer h.locals hm hio
  have hdec : step ext ([genDecStackVar "count" (.basic .kInt) (some count)], m₁) =
      some ([], Function.update m₁ "count" (intCell n)) := by
    simp [genDecStackVar, step, declareCell, hcount m₁ hc₁, intCell]
  exact ⟨m₁, hio, hrest.cons_inv hdec⟩

section
variable {N : ℕ} {m₁ : Memory} (hvs : p.ValidSize) (hm₁ : Protected C.names C.pointers m₁)
  (hopen₁ : C.Open t m₁) (hfull : m₁ "fullcount" = intCell N) (hN : p.Covers N)
  (hx : ∀ i mi, i < N → p.Blocks ext N m₁ i mi →
    p.Supplied ext exp x (t + i) (p.blockSize N i) (p.blockSize N i) mi)
include hvs hm₁ hopen₁ hfull hx

/-- A block that is executed from one of the blocks of a call. -/
theorem blocks_step {i : ℕ} {k : ℤ} (hi : i < N) (hblocks : p.Blocks ext N m₁ i m)
    {count : ValueInst} (hcount : ∀ m₂, AgreeOn outer m m₂ →
      count.eval ext m₂ = some (.int (.ofInt 32 (p.blockSize N i : ℕ))))
    (hrun : Runs ext (blockCode p.locals count p.dag) m m')
    (hk : i + p.blockSize N i < N → k = (i + p.blockSize N i : ℕ)) :
    m' "index" = m "index" ∧
      p.Blocks ext N m₁ (i + p.blockSize N i) (Function.update m' "index" (intCell k)) := by
  obtain ⟨hm, hopen, _, _⟩ := C.holds_blocks h hvs hm₁ hopen₁ hfull
    (fun j mj hj => hx j mj (by omega)) hblocks
  have hblock := C.block_of_runs h hm hcount hrun
  obtain ⟨_, _, hc⟩ := C.holds_block h hm hopen hvs.2 (Nat.min_le_left _ _) (hx i m hi hblocks)
    hblock
  exact ⟨hc "index" (by decide), .block hblocks hi hblock hk⟩

/-- The number of samples of a call is left alone by its blocks. -/
theorem fullcount_eval {i : ℕ} (hi : i ≤ N) (hblocks : p.Blocks ext N m₁ i m) {m₂ : Memory}
    (hc : AgreeOn outer m m₂) :
    (genLoadFunArgsVar "fullcount").eval ext m₂ = some (.int (.ofInt 32 N)) := by
  obtain ⟨_, _, hf, _⟩ := C.holds_blocks h hvs hm₁ hopen₁ hfull
    (fun j mj hj => hx j mj (by omega)) hblocks
  exact eval_loadVar (a := ⟨"fullcount", .kFunArgs⟩) ((hc "fullcount" (by decide)).trans hf)

include hN

/-- `generateDAGLoopVariant0` executes the blocks of the call: those of the loop have the vector
size, and the code after it executes the samples that remain. -/
theorem variant0_blocks
    (hrun : Runs ext [generateDAGLoopVariant0 p.gVecSize p.locals p.dag] m₁ m') :
    p.Blocks ext N m₁ N m' := by
  have hdec : step ext ([genDecStackVar "index" (.basic .kInt) none], m₁) =
      some ([], Function.update m₁ "index" (.scalar none)) := rfl
  have hcode := hrun.block_inv.cons_inv hdec
  obtain ⟨m₂, hfor, hif⟩ := Runs.append_inv (a := [_]) (b := [_]) hcode
  rw [runs_forLoop] at hfor
  obtain ⟨m₀, hinit, hwhile⟩ := hfor
  have hstart : step ext ([genStoreStackVar "index" (.intNum 0)],
      Function.update m₁ "index" (.scalar none)) =
      some ([], Function.update m₁ "index" (intCell 0)) := by
    rw [genStoreStackVar, step_storeVar_scalar ext (a := ⟨"index", .kStack⟩)
      (Function.update_self ..) (eval_intNum 0), Function.update_idem]
  obtain rfl := (runs_singleton hstart).mp hinit
  have hpos := hvs.1
  have hvs31 := hvs.2
  have hN31 := hN.1
  have hcond : ∀ {i : ℕ} {m : Memory}, i ≤ N → p.Blocks ext N m₁ i m → m "index" = intCell i →
      ∃ v, (genLessEqual (genLoadStackVar "index") (genSub (genLoadFunArgsVar "fullcount")
        (.intNum p.gVecSize))).eval ext m = some v ∧
        v.truth = decide ((i : ℤ) ≤ (N : ℤ) - p.gVecSize) :=
    fun hi hblocks hidx => genLessEqual_truth (by omega) (by omega)
      (eval_genLoadStackVar ext hidx)
      (eval_genSub (C.fullcount_eval h hvs hm₁ hopen₁ hfull hx hi hblocks fun _ _ => rfl)
        (eval_intNum _))
  obtain ⟨⟨i, hiN, hblocks, hidx⟩, v, hv, hfalse⟩ := hwhile.whileLoop_invariant
    (fun m => ∃ i ≤ N, p.Blocks ext N m₁ i m ∧ m "index" = intCell i)
    (by
      rintro ma mc v ⟨i, hiN, hblocks, hidx⟩ hv htrue hturn
      obtain ⟨w, hw, htruth⟩ := hcond hiN hblocks hidx
      obtain rfl := Option.some.inj (hw.symm.trans hv)
      rw [htruth, decide_eq_true_eq] at htrue
      have hsize : p.blockSize N i = p.gVecSize := Nat.min_eq_left (by omega)
      obtain ⟨mb, hblock, hincr⟩ := hturn.append_inv
      obtain ⟨hidx', hnext⟩ := C.blocks_step h hvs hm₁ hopen₁ hfull hx (by omega) hblocks
        (k := (i + p.gVecSize : ℕ)) (fun _ _ => by rw [hsize]; exact eval_intNum _) hblock
        (fun _ => by rw [hsize])
      have hstep := step_storeVar_int (a := ⟨"index", .kStack⟩) (hidx'.trans hidx)
        (eval_genAdd (eval_genLoadStackVar ext (hidx'.trans hidx))
          (eval_intNum p.gVecSize))
      obtain rfl := (runs_singleton hstep).mp hincr
      rw [hsize, Nat.cast_add] at hnext
      exact ⟨i + p.gVecSize, by omega, hnext, by rw [Function.update_self, Nat.cast_add]⟩)
    ⟨0, Nat.zero_le N, .start, Function.update_self ..⟩
  obtain ⟨w, hw, htruth⟩ := hcond hiN hblocks hidx
  obtain rfl := Option.some.inj (hw.symm.trans hv)
  rw [htruth, decide_eq_false_iff_not] at hfalse
  have hsize : p.blockSize N i = N - i := Nat.min_eq_right (by omega)
  have hfc : ∀ {m₃}, AgreeOn outer m₂ m₃ → (genLoadFunArgsVar "fullcount").eval ext m₃ =
      some (.int (.ofInt 32 N)) :=
    fun hc => C.fullcount_eval h hvs hm₁ hopen₁ hfull hx hiN hblocks hc
  obtain ⟨w, hw, htruth'⟩ := genLessThan_truth_of_eval (by omega) (by omega)
    (eval_genLoadStackVar ext hidx) (hfc fun _ _ => rfl)
  have hrest := hif.ifInst_inv hw
  by_cases hlt : i < N
  · rw [htruth', decide_eq_true (by omega), if_pos rfl] at hrest
    obtain ⟨hidx', hnext⟩ := C.blocks_step h hvs hm₁ hopen₁ hfull hx hlt hblocks (k := (i : ℤ))
      (fun m₃ hc => by
        rw [hsize, Nat.cast_sub hiN]
        exact eval_genSub (hfc hc) (eval_genLoadStackVar ext
          ((hc "index" (by decide)).trans hidx))) hrest (fun hlt' => by omega)
    rw [← hidx, ← hidx', Function.update_eq_self, hsize, Nat.add_sub_cancel' hiN] at hnext
    exact hnext
  · rw [htruth', decide_eq_false (by omega), if_neg (by simp)] at hrest
    obtain rfl := (Runs.nil _).unique hrest
    obtain rfl : i = N := by omega
    exact hblocks

omit hN hvs hm₁ hopen₁ hfull hx h in
/-- The number of samples of a block in `generateDAGLoopVariant1`. -/
theorem minCount_eval (hmin : IsMin ext) {vs i : ℕ} (hvs31 : vs < 2 ^ 31) (hN31 : N < 2 ^ 31)
    (hi : i ≤ N) (hfull : (genLoadFunArgsVar "fullcount").eval ext m = some (.int (.ofInt 32 N)))
    (hidx : m "index" = intCell i) :
    (minCount vs).eval ext m = some (.int (.ofInt 32 (min vs (N - i) : ℕ))) := by
  have hrem := eval_genSub hfull (eval_genLoadLoopVar ext hidx)
  rw [← Nat.cast_sub hi] at hrem
  have hslt : (BitVec.ofInt 32 (vs : ℤ)).slt (.ofInt 32 ((N - i : ℕ) : ℤ)) =
      decide (vs < N - i) := by
    rw [BitVec.slt, toInt_ofInt_of_lt hvs31, toInt_ofInt_of_lt (by omega), decide_eq_decide]
    omega
  have harg : (remaining (genLoadLoopVar "index")).eval ext m =
      some (.int (.ofInt 32 ((N - i : ℕ) : ℤ))) := hrem
  have happ := hmin (.ofInt 32 (vs : ℤ)) (.ofInt 32 ((N - i : ℕ) : ℤ))
  rw [hslt] at happ
  simp only [minCount, ValueInst.eval, evalArgs, harg, Option.bind_eq_bind, Option.bind_some,
    Option.pure_def, happ, decide_eq_true_eq]
  split
  · rw [min_eq_left (by omega)]
  · rw [min_eq_right (by omega)]

/-- `generateDAGLoopVariant1` executes the blocks of the call. -/
theorem variant1_blocks (hmin : IsMin ext) (hvar : p.variant = .variant1)
    (hrun : Runs ext [generateDAGLoopVariant1 p.gVecSize p.locals p.dag] m₁ m') :
    p.Blocks ext N m₁ N m' := by
  rw [generateDAGLoopVariant1, runs_forLoop] at hrun
  obtain ⟨m₀, hinit, hwhile⟩ := hrun
  obtain rfl := (runs_singleton (step_genDecLoopVar "index" 0 m₁)).mp hinit
  have hpos := hvs.1
  have hvs31 := hvs.2
  have hN31 := hN.1
  have hround := hN.2 hvar
  -- the index is a multiple of the vector size, which may be beyond the last sample
  have hnext : ∀ {q : ℕ}, q * p.gVecSize < N → (q + 1) * p.gVecSize < 2 ^ 31 := by
    intro q hq
    have hdiv : q + 1 ≤ (N + p.gVecSize - 1) / p.gVecSize := by
      rw [Nat.le_div_iff_mul_le hpos, Nat.succ_mul]
      omega
    exact lt_of_le_of_lt (Nat.mul_le_mul_right _ hdiv) hround
  have hcond : ∀ {q : ℕ} {m : Memory}, q * p.gVecSize < 2 ^ 31 →
      p.Blocks ext N m₁ (min (q * p.gVecSize) N) m → m "index" = intCell (q * p.gVecSize : ℕ) →
      ∃ v, (genLessThan (genLoadLoopVar "index") (genLoadFunArgsVar "fullcount")).eval ext m =
        some v ∧ v.truth = decide (((q * p.gVecSize : ℕ) : ℤ) < (N : ℤ)) :=
    fun hlt hblocks hidx => genLessThan_truth_of_eval (by omega) (by omega)
      (eval_genLoadLoopVar ext hidx)
      (C.fullcount_eval h hvs hm₁ hopen₁ hfull hx (min_le_right _ _) hblocks fun _ _ => rfl)
  obtain ⟨⟨q, hq, hblocks, hidx⟩, v, hv, hfalse⟩ := hwhile.whileLoop_invariant
    (fun m => ∃ q, q * p.gVecSize < 2 ^ 31 ∧ p.Blocks ext N m₁ (min (q * p.gVecSize) N) m ∧
      m "index" = intCell (q * p.gVecSize : ℕ))
    (by
      rintro ma mc v ⟨q, hq, hblocks, hidx⟩ hv htrue hturn
      obtain ⟨w, hw, htruth⟩ := hcond hq hblocks hidx
      obtain rfl := Option.some.inj (hw.symm.trans hv)
      rw [htruth, decide_eq_true_eq, Nat.cast_lt] at htrue
      rw [min_eq_left htrue.le] at hblocks
      obtain ⟨mb, hblock, hincr⟩ := hturn.append_inv
      obtain ⟨hidx', hstep⟩ := C.blocks_step h hvs hm₁ hopen₁ hfull hx htrue hblocks
        (k := (q * p.gVecSize : ℕ) + p.gVecSize)
        (fun m₂ hc => minCount_eval hmin hvs31 hN31 htrue.le
          (C.fullcount_eval h hvs hm₁ hopen₁ hfull hx htrue.le hblocks hc)
          ((hc "index" (by decide)).trans hidx)) hblock
        (fun hlt => by
          unfold blockSize at hlt ⊢
          rw [min_eq_left (by omega)]
          push_cast
          rfl)
      have hset := step_storeVar_int (a := ⟨"index", .kLoop⟩) (hidx'.trans hidx)
        (eval_genAdd (eval_genLoadLoopVar ext (hidx'.trans hidx)) (eval_intNum p.gVecSize))
      obtain rfl := (runs_singleton hset).mp hincr
      have hend : min ((q + 1) * p.gVecSize) N =
          q * p.gVecSize + p.blockSize N (q * p.gVecSize) := by
        unfold blockSize
        rw [Nat.succ_mul]
        omega
      refine ⟨q + 1, hnext htrue, hend ▸ hstep, ?_⟩
      rw [Function.update_self, Nat.succ_mul, Nat.cast_add])
    ⟨0, by omega, by simpa using Blocks.start, by rw [Function.update_self, Nat.zero_mul]; rfl⟩
  obtain ⟨w, hw, htruth⟩ := hcond hq hblocks hidx
  obtain rfl := Option.some.inj (hw.symm.trans hv)
  rw [htruth, decide_eq_false_iff_not, Nat.cast_lt] at hfalse
  rwa [min_eq_right (by omega)] at hblocks

/-- The loop on blocks cuts a call into blocks that cover it in order. -/
theorem call_blocks (hmin : IsMin ext) (hrun : Runs ext [p.blocks] m₁ m') :
    p.Blocks ext N m₁ N m' := by
  unfold VecProgram.blocks generateDAGLoopVariant at hrun
  split at hrun
  · exact C.variant0_blocks h hvs hm₁ hopen₁ hfull hN hx hrun
  · rename_i hvar
    exact C.variant1_blocks h hvs hm₁ hopen₁ hfull hN hx hmin hvar hrun

end

/-! ## A run -/

/-- After the declarations of the program. -/
theorem holds_declare (hm : Protected C.names C.pointers m)
    (hrun : Runs ext p.sections.declare m m') :
    Protected C.names C.pointers m' ∧ C.Declared m' := by
  have hdeclare := (sparesAll_append.mp h.init).1
  obtain ⟨hm', hd, _⟩ := hrun.surrounded (Q := fun _ => True) C.pointers_mem areControls_outer
    (fun _ hQ => hQ) C.declared_congr hdeclare (fun ma _ _ _ => C.declare ma) hm trivial
  exact ⟨hm', hd⟩

/-- After the initialisation. -/
theorem holds_start (hm : Protected C.names C.pointers m)
    (hrun : Runs ext (p.sections.declare ++ p.sections.init) m m') :
    Protected C.names C.pointers m' ∧ C.Held 0 m' := by
  obtain ⟨m₁, hdeclare, hinit⟩ := hrun.append_inv
  obtain ⟨hm₁, hd₁⟩ := C.holds_declare h hm hdeclare
  obtain ⟨hm', hh, _⟩ := hinit.surrounded C.pointers_mem areControls_outer C.declared_congr
    (fun ha => C.held_congr fun a hp => ha a (C.persistent_mem a hp))
    (sparesAll_append.mp h.init).2 (fun ma _ hd _ => C.init ma hd) hm₁ hd₁
  exact ⟨hm', hh⟩

/-- At the start of a call. -/
theorem holds_callAt (hvs : p.ValidSize) (hmin : IsMin ext)
    (hcall : p.CallAt ext C.toVariables exp x t m) :
    Protected C.names C.pointers m ∧ C.Held t m := by
  induction hcall with
  | first hm₀ hrun hhost =>
    obtain ⟨_, hheld⟩ := C.holds_start h hm₀ hrun
    exact ⟨hhost.1, C.held_congr hhost.2 hheld⟩
  | next _ hfull hN hblock hx hloop hhost ih =>
    obtain ⟨hm, hheld⟩ := ih
    obtain ⟨hm₁, hopen₁, hc₁⟩ := C.holds_callBlock h hm hheld hblock
    have hfull₁ := (hc₁ "fullcount" (by decide)).trans hfull
    have hblocks := C.call_blocks h hvs hm₁ hopen₁ hfull₁ hN hx hmin hloop
    obtain ⟨_, hopen, _, _⟩ := C.holds_blocks h hvs hm₁ hopen₁ hfull₁ hx hblocks
    exact ⟨hhost.1, C.held_congr hhost.2 (C.open_held hopen)⟩

/-- At the start of a block. -/
theorem holds_blockAt (hvs : p.ValidSize) (hmin : IsMin ext)
    (hblock : p.BlockAt ext C.toVariables exp x t n m) :
    Protected C.names C.pointers m ∧ C.Open t m ∧ 0 < n ∧ n ≤ p.gVecSize := by
  obtain ⟨t₀, N, i, m₀, m₁, hcall, hfull, hN, hrun, hx, hblocks, hi, rfl, rfl⟩ := hblock
  obtain ⟨hm₀, hheld⟩ := C.holds_callAt h hvs hmin hcall
  obtain ⟨hm₁, hopen₁, hc₁⟩ := C.holds_callBlock h hm₀ hheld hrun
  obtain ⟨hm, hopen, _, _⟩ := C.holds_blocks h hvs hm₁ hopen₁
    ((hc₁ "fullcount" (by decide)).trans hfull) hx hblocks
  exact ⟨hm, hopen, p.blockSize_pos hvs hi, Nat.min_le_left _ _⟩

end Component

/-- The code of a component is executed wherever it is reached: none of its accesses is outside
of an array. The blocks of a call cover it in order, and none has more than `gVecSize` samples. -/
structure VecProgram.CodeRuns (ext : ExternFun) (p : VecProgram) (v : Variables)
    (exp : Option ValueInst) : Prop where
  declare : ∀ m, ∃ m', Runs ext p.own.declare m m'
  init : ∀ m₀ m, Protected v.names v.pointers m₀ →
    Runs ext (p.sections.declare ++ p.first.init) m₀ m → ∃ m', Runs ext p.own.init m m'
  block : ∀ x t m ma, p.CallAt ext v exp x t m → Runs ext p.first.block m ma →
    ∃ m', Runs ext p.own.block ma m'
  blocks : ∀ x t N m m₁ m₂, p.CallAt ext v exp x t m → m "fullcount" = intCell (N : ℕ) →
    p.Covers N → Runs ext p.sections.block m m₁ →
    (∀ i mi, i < N → p.Blocks ext N m₁ i mi →
      p.Supplied ext exp x (t + i) (p.blockSize N i) (p.blockSize N i) mi) →
    Runs ext [p.blocks] m₁ m₂ → p.Blocks ext N m₁ N m₂
  sizes : ∀ x t n m, p.BlockAt ext v exp x t n m → 1 ≤ n ∧ n ≤ p.gVecSize
  pre : ∀ x t n m mb ma, p.BlockAt ext v exp x t n m → p.LoopAt ext n m mb →
    Runs ext p.first.pre mb ma → ∃ m', Runs ext p.own.pre ma m'
  store : ∀ x t n j m mj ma, p.BlockAt ext v exp x t n m → j < n →
    p.Supplied ext exp x t n (j + 1) m → p.TurnAt ext n m j mj →
    Runs ext p.first.compute mj ma → ∃ m', Runs ext p.own.compute ma m'
  post : ∀ x t n m ml ma, p.BlockAt ext v exp x t n m → p.Supplied ext exp x t n n m →
    p.TurnsDone ext n m ml → Runs ext p.first.post ml ma → ∃ m', Runs ext p.own.post ma m'

namespace Component

open VecProgram

variable {ext : ExternFun} {p : VecProgram} {exp : Option ValueInst} {v : Variables}

/-- The value of a sample is stored. -/
theorem holds_store {x : ℕ → Val} (C : Component ext x p.gVecSize p.own exp)
    (h : p.WellNamed C.toVariables) {t n j : ℕ} {m mj ma : Memory}
    (hm : Protected C.names C.pointers m) (hopen : C.Open t m) (hj : j < p.gVecSize)
    (hx : p.Supplied ext exp x t n (j + 1) m) (hturn : p.TurnAt ext n m j mj)
    (hfirst : Runs ext p.first.compute mj ma) :
    ∃ mb, Runs ext p.own.compute ma mb ∧ Protected C.names C.pointers mb ∧
      C.Stored t (j + 1) mb ∧ mb "i" = intCell j := by
  obtain ⟨hmj, hsj, hij, _, _⟩ := C.holds_turnAt h hm hopen hj.le
    (fun i hi => hx i (by omega)) hturn
  obtain ⟨hma, hva, hca⟩ := Steps.spared C.pointers_mem areControls_controls
    (sparesAll_append.mp h.compute).1 hmj hfirst
  have hia := (hca "i" (by decide)).trans hij
  obtain ⟨mb, hrun, hsb, hkept⟩ := C.store t j ma (C.stored_congr hva hsj) hj hia
    (hx j (by omega) mj ma hturn hfirst)
  obtain ⟨hmb, hcb⟩ := hkept hma
  exact ⟨mb, hrun, hmb, hsb, (hcb "i" (by decide)).trans hia⟩

/-- The code of a component is executed wherever it is reached. -/
theorem codeRuns (C : ∀ x, Component ext x p.gVecSize p.own exp)
    (hv : ∀ x, (C x).toVariables = v) (h : p.WellNamed v) (hvs : p.ValidSize)
    (hmin : IsMin ext) : p.CodeRuns ext v exp where
  declare m := by
    obtain ⟨m', hrun, _⟩ := (C fun _ => .int 0).declare m
    exact ⟨m', hrun⟩
  init m₀ m hm hrun := by
    let x : ℕ → Val := fun _ => .int 0
    rw [← hv x] at h hm
    obtain ⟨m₁, hdeclare, hinit⟩ := hrun.append_inv
    obtain ⟨hm₁, hd₁⟩ := (C x).holds_declare h hm hdeclare
    obtain ⟨_, hva, _⟩ := Steps.spared (C x).pointers_mem areControls_outer
      (sparesAll_append.mp (sparesAll_append.mp h.init).2).1 hm₁ hinit
    obtain ⟨m', hrun', _⟩ := (C x).init m ((C x).declared_congr hva hd₁)
    exact ⟨m', hrun'⟩
  block x t m ma hcall hrun := by
    rw [← hv x] at h hcall
    obtain ⟨hm, hheld⟩ := (C x).holds_callAt h hvs hmin hcall
    obtain ⟨_, hva, _⟩ := Steps.spared (C x).pointers_mem areControls_outer
      (sparesAll_append.mp h.block).1 hm hrun
    obtain ⟨m', hrun', _⟩ := (C x).block t ma
      ((C x).held_congr (fun a ha => hva a ((C x).persistent_mem a ha)) hheld)
    exact ⟨m', hrun'⟩
  blocks x t N m m₁ m₂ hcall hfull hN hblock hx hrun := by
    rw [← hv x] at h hcall
    obtain ⟨hm, hheld⟩ := (C x).holds_callAt h hvs hmin hcall
    obtain ⟨hm₁, hopen₁, hc₁⟩ := (C x).holds_callBlock h hm hheld hblock
    exact (C x).call_blocks h hvs hm₁ hopen₁ ((hc₁ "fullcount" (by decide)).trans hfull) hN hx
      hmin hrun
  sizes x t n m hblock := by
    rw [← hv x] at h hblock
    obtain ⟨_, _, hpos, hle⟩ := (C x).holds_blockAt h hvs hmin hblock
    exact ⟨hpos, hle⟩
  pre x t n m mb ma hblock hloop hrun := by
    rw [← hv x] at h hblock
    obtain ⟨hm, hopen, _, _⟩ := (C x).holds_blockAt h hvs hmin hblock
    obtain ⟨hmb, hob, _, _⟩ := (C x).holds_loopAt h hm hopen hloop
    obtain ⟨_, hva, _⟩ := Steps.spared (C x).pointers_mem areControls_outer
      (sparesAll_append.mp h.pre).1 hmb hrun
    obtain ⟨m', hrun', _⟩ := (C x).pre t ma ((C x).open_congr hva hob)
    exact ⟨m', hrun'⟩
  store x t n j m mj ma hblock hj hx hturn hfirst := by
    rw [← hv x] at h hblock
    obtain ⟨hm, hopen, _, hle⟩ := (C x).holds_blockAt h hvs hmin hblock
    obtain ⟨m', hrun', _⟩ := (C x).holds_store h hm hopen (by omega) hx hturn hfirst
    exact ⟨m', hrun'⟩
  post x t n m ml ma hblock hx hdone hrun := by
    rw [← hv x] at h hblock
    obtain ⟨hm, hopen, _, hle⟩ := (C x).holds_blockAt h hvs hmin hblock
    obtain ⟨hml, hsl, hcount, _⟩ := (C x).holds_turnsDone h hm hopen hvs.2 hle hx hdone
    obtain ⟨_, hva, hca⟩ := Steps.spared (C x).pointers_mem areControls_outer
      (sparesAll_append.mp h.post).1 hml hrun
    obtain ⟨m', hrun', _⟩ := (C x).post t n ma ((C x).stored_congr hva hsl) hle
      ((hca "count" (by decide)).trans hcount)
    exact ⟨m', hrun'⟩

end Component

end Faust.Fir
