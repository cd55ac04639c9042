import Faust.Generator.VecRunTheorems

/-!
# Vector delay lines delay

A read of a line, in the loop that fills it or in a later one, gives the value of the signal as
many samples ago as it asks for, in every run whose sizes do not overflow. The index of a
waveform is the number of samples modulo its size.
-/

namespace Faust.Fir

open InstBuilder DelayBuffer VecProgram

namespace DAGInstructionsCompiler

/-! ## Reads -/

/-- The past of a signal, in numbers. -/
theorem history_some (z : Val) (x : ℕ → Val) (t d : ℕ) :
    history (some z) (fun s => some (x s)) ((t : ℤ) - d) =
      some (if d ≤ t then x (t - d) else z) := by
  rw [history_sub]
  split <;> rfl

section
variable (ext : ExternFun) (mcd : ℤ) (vs : ℕ) (vname : String) (mxd : ℕ) (ctype : VarType)
  (x : ℕ → Val)

/-- In the block that starts at time `t`, the samples before `k` can be read with any delay. -/
def ReadsAt (t k : ℕ) (m : Memory) : Prop :=
  ∀ (delay : Delay) (i d : ℕ), i < k → m "i" = intCell i →
    delay.value.eval ext m = some (.int (.ofInt 32 d)) → d ≤ mxd →
    ∃ code, generateFixDelay mcd vs vname mxd delay = some code ∧
      code.eval ext m = some (if d ≤ t + i then x (t + i - d) else zeroVal ctype)

/-- The line delays: its code is executed wherever it is reached, and a read of sample `t + j`
for a delay of `d` gives the value `d` samples ago, in the turn of the sample after it is stored
and anywhere in the loops after the one of the line. -/
structure Delays (p : VecProgram) (v : Variables) (exp : ValueInst) : Prop extends
    p.CodeRuns ext v (some exp) where
  read : ∀ x t n j m mj ma mb r mc, p.BlockAt ext v (some exp) x t n m → j < n →
    p.Supplied ext (some exp) x t n (j + 1) m → p.TurnAt ext n m j mj →
    Runs ext p.first.compute mj ma → Runs ext p.own.compute ma mb →
    Steps ext (p.rest.compute, mb) (r, mc) →
    mc "i" = intCell j ∧ ReadsAt ext mcd vs vname mxd ctype x t (j + 1) mc
  readLater : ∀ x t n m ml me r mc, p.BlockAt ext v (some exp) x t n m →
    p.Supplied ext (some exp) x t n n m → p.TurnsDone ext n m ml →
    Runs ext p.loop.fPostInst ml me → Steps ext (generateDAGLoop p.after, me) (r, mc) →
    ReadsAt ext mcd vs vname mxd ctype x t n mc

end

variable {ext : ExternFun} {mcd : ℤ} {vs : ℕ} {vname : String} {mxd : ℕ} {ctype : VarType}
  {x : ℕ → Val} {m : Memory} {t k : ℕ}

/-- A component whose states can be read is a line that delays. -/
theorem delays_of_reads {own : Sections} {v : Variables} {exp : ValueInst}
    (C : ∀ x, Component ext x vs own (some exp)) (hv : ∀ x, (C x).toVariables = v)
    (hstored : ∀ x t k m, k ≤ vs → (C x).Stored t k m →
      ReadsAt ext mcd vs vname mxd ctype x t k m)
    (hdone : ∀ x t n m, n ≤ vs → (C x).Done t n m → ReadsAt ext mcd vs vname mxd ctype x t n m)
    (hvs : 0 < vs ∧ vs < 2 ^ 31) (hmin : IsMin ext) {p : VecProgram} (hown : p.own = own)
    (hsize : p.gVecSize = vs) (h : p.WellNamed v) :
    Delays ext mcd vs vname mxd ctype p v exp := by
  subst hown hsize
  refine ⟨Component.codeRuns C hv h hvs hmin, ?_, ?_⟩
  · intro x t n j m mj ma mb r mc hblock hj hx hturn hfirst hcode hrest
    rw [← hv x] at h hblock
    obtain ⟨hm, hopen, _, hle⟩ := (C x).holds_blockAt h hvs hmin hblock
    obtain ⟨mb', hrun, hmb, hsb, hib⟩ := (C x).holds_store h hm hopen (by omega) hx hturn hfirst
    obtain rfl := hrun.unique hcode
    obtain ⟨_, hvc, hcc⟩ := Steps.spared (C x).pointers_mem areControls_controls
      (sparesAll_append.mp h.compute).2 hmb hrest
    exact ⟨(hcc "i" (by decide)).trans hib,
      hstored x t (j + 1) mc (by omega) ((C x).stored_congr hvc hsb)⟩
  · intro x t n m ml me r mc hblock hx hturns hpost hlater
    rw [← hv x] at h hblock
    obtain ⟨hm, hopen, _, hle⟩ := (C x).holds_blockAt h hvs hmin hblock
    obtain ⟨hml, hsl, hcount, _⟩ := (C x).holds_turnsDone h hm hopen hvs.2 hle hx hturns
    obtain ⟨hme, hde, _⟩ := (C x).holds_post h hml hsl hle hcount hpost
    obtain ⟨_, hdc, _⟩ := (C x).holds_after h hme hde hlater
    exact hdone x t n mc hle hdc

theorem toInt_natCast_inj {a b : ℕ} (ha : a < 2 ^ 31) (hb : b < 2 ^ 31)
    (h : BitVec.ofInt 32 (a : ℤ) = .ofInt 32 b) : a = b := by
  have hi := congrArg BitVec.toInt h
  rw [toInt_ofInt_of_lt ha, toInt_ofInt_of_lt hb] at hi
  exact_mod_cast hi

/-- Lines without delay are read at the sample. -/
theorem readsAt_vector (hvs : vs < 2 ^ 31) (hk : k ≤ vs)
    (h : Buffered (zeroVal ctype) x vname vname 0 vs (t - (0 : ℕ)) (0 + k) m) :
    ReadsAt ext mcd vs vname 0 ctype x t k m := by
  intro delay i d hik hi hdelay hd
  obtain rfl : d = 0 := by omega
  refine ⟨_, rfl, ?_⟩
  have hindex : getCurrentLoopIndex.eval ext m =
      some (.int (.ofInt 32 ((i : ℤ) - (0 : ℕ)))) := by
    rw [Nat.cast_zero, sub_zero]
    exact eval_genLoadLoopVar ext hi
  rw [h.read hik le_rfl hvs hk hindex, history_some]

/-- Short lines are read in the array of the block. -/
theorem readsAt_copy {r : ℕ} (hmxd : mxd ≠ 0) (hlt : (mxd : ℤ) < mcd) (hr : mxd ≤ r)
    (hsize : vs + r < 2 ^ 31) (hk : k ≤ vs)
    (h : Buffered (zeroVal ctype) x vname (vname ++ "_tmp") r vs (t - r) (r + k) m) :
    ReadsAt ext mcd vs vname mxd ctype x t k m := by
  intro delay i d hik hi hdelay hd
  have hread : ∀ {e : ValueInst}, e.eval ext m = some (.int (.ofInt 32 ((i : ℤ) - d))) →
      (genLoadArrayStackVar vname e).eval ext m =
        some (if d ≤ t + i then x (t + i - d) else zeroVal ctype) := by
    intro e he
    rw [h.read hik (by omega) hsize hk he, history_some]
  have hsub := eval_genSub (eval_genLoadLoopVar ext hi) hdelay
  unfold generateFixDelay
  rw [if_neg hmxd, if_pos hlt]
  cases delay with
  | code v => exact ⟨_, rfl, hread hsub⟩
  | sigInt d' =>
    by_cases hzero : d' = 0
    · -- the index of the loop is used as it is
      subst hzero
      have hd₀ : 0 = d := toInt_natCast_inj (by omega) (by omega)
        (Val.int.inj (Option.some.inj hdelay))
      subst hd₀
      refine ⟨_, if_pos rfl, hread ?_⟩
      rw [Nat.cast_zero, sub_zero]
      exact eval_genLoadLoopVar ext hi
    · exact ⟨_, if_neg hzero, hread hsub⟩

/-- Long lines are read in the ring. -/
theorem readsAt_ring {q : ℕ} (hmxd : mxd ≠ 0) (hge : ¬ (mxd : ℤ) < mcd)
    (hpow : pow2limit (mxd + vs) = some (2 ^ q)) (hsize : mxd + vs ≤ 2 ^ 30) (hq : q ≤ 30)
    (hle : mxd + vs ≤ 2 ^ q) (hk : k ≤ vs) (hstart : m (vname ++ "_idx") = intCell (t % 2 ^ q))
    (h : RingAt (zeroVal ctype) x vname (2 ^ q) (t + k : ℕ) m) :
    ReadsAt ext mcd vs vname mxd ctype x t k m := by
  intro delay i d hik hi hdelay hd
  have hle' : (mxd : ℤ) + vs ≤ 2 ^ q := by exact_mod_cast hle
  have hread : ∀ {e : ValueInst} {j : ℤ}, e.eval ext m = some (.int (.ofInt 32 j)) →
      j = (i : ℤ) + (t : ℤ) % 2 ^ q - d →
      (genLoadArrayStructVar vname (genAnd e (.intNum ((2 ^ q : ℕ) - 1)))).eval ext m =
        some (if d ≤ t + i then x (t + i - d) else zeroVal ctype) := by
    rintro e j he rfl
    have hindex := eval_ringIndex hq he
    have hmod : ((i : ℤ) + (t : ℤ) % 2 ^ q - d) % 2 ^ q = (((t + i : ℕ) : ℤ) - d) % 2 ^ q := by
      rw [Int.sub_emod, Int.add_emod_emod, ← Int.sub_emod, add_comm (i : ℤ)]
      push_cast
      rfl
    rw [hmod] at hindex
    rw [h.read hq (by push_cast; omega) (by push_cast; omega) hindex, history_some]
  have hplace := eval_genAdd (eval_genLoadLoopVar ext hi) (eval_genLoadStructVar ext hstart)
  have hsum : addSizes mxd vs = some (mxd + vs) := if_pos (by omega)
  unfold generateFixDelay
  rw [if_neg hmxd, if_neg hge]
  simp only [Option.bind_eq_bind, Option.bind_some, hsum, hpow]
  cases delay with
  | code v => exact ⟨_, rfl, hread (eval_genSub hplace hdelay) rfl⟩
  | sigInt d' =>
    by_cases hzero : d' = 0
    · subst hzero
      have hd₀ : 0 = d := toInt_natCast_inj (by omega) (by omega)
        (Val.int.inj (Option.some.inj hdelay))
      subst hd₀
      exact ⟨_, if_pos rfl, hread hplace (by simp)⟩
    · exact ⟨_, if_neg hzero, hread (eval_genSub hplace hdelay) rfl⟩

/-! ## Lines -/

variable (mcd vname mxd) in
/-- The variables of a line. -/
def lineVariables : Variables :=
  if mxd = 0 then ⟨[vname], [], []⟩
  else if mxd < mcd then ⟨[vname, vname ++ "_tmp", vname ++ "_perm"], [vname], [vname ++ "_perm"]⟩
  else ⟨[vname, vname ++ "_idx", vname ++ "_idx_save"], [],
    [vname, vname ++ "_idx", vname ++ "_idx_save"]⟩

/-- The line is compiled, and it delays in every program that its code is part of. -/
def LineDelays (ext : ExternFun) (mcd : ℤ) (vs : ℕ) (exp : ValueInst) (ctype : VarType)
    (vname : String) (mxd : ℕ) (c : InstructionsCompiler) : Prop :=
  ∃ c' own, generateDelayLine mcd vs exp ctype vname mxd c = some c' ∧
    c'.sections = c.sections.append own ∧
    ∀ p : VecProgram, p.own = own → p.gVecSize = vs →
      p.WellNamed (lineVariables mcd vname mxd) →
      Delays ext mcd vs vname mxd ctype p (lineVariables mcd vname mxd) exp

/-- The indices of the loops over arrays are no controls. -/
theorem append_toString_notMem_controls (k : ℕ) :
    "i" ++ toString k ∉ controls ∧ "j" ++ toString k ∉ controls := by
  have hindex : "i" ++ toString k ≠ "index" := by
    intro h
    have hlist := congrArg String.toList h
    rw [String.toList_append] at hlist
    have htail : (toString k).toList = ['n', 'd', 'e', 'x'] := (List.cons.inj hlist).2
    have hmem : 'n' ∈ Nat.toDigits 10 k := by
      rw [← Nat.toList_repr, show k.repr = toString k from rfl, htail]
      decide
    exact absurd (Nat.isDigit_of_mem_toDigits (by decide) (by decide) hmem) (by decide)
  constructor
  · intro h
    simp only [controls, List.mem_cons, List.not_mem_nil, or_false] at h
    obtain h | h | h | h := h
    · exact append_toString_ne k (c := 'i') rfl rfl (.inr (by decide)) h.symm
    · exact append_toString_ne k (c := 'i') rfl rfl (.inl (by decide)) h.symm
    · exact hindex h
    · exact append_toString_ne k (c := 'i') rfl rfl (.inl (by decide)) h.symm
  · intro h
    simp only [controls, List.mem_cons, List.not_mem_nil, or_false] at h
    obtain h | h | h | h := h <;>
      exact append_toString_ne k (c := 'j') rfl rfl (.inl (by decide)) h.symm

/-- A line delays when its sizes fit, and it is not compiled otherwise. -/
theorem lineDelays_iff (hmin : IsMin ext) (hvs : 0 < vs ∧ vs < 2 ^ 31) (exp : ValueInst)
    (ctype : VarType) (vname : String) (mxd : ℕ) (c : InstructionsCompiler) :
    LineDelays ext mcd vs exp ctype vname mxd c ↔ Fits mcd vs mxd := by
  constructor
  · rintro ⟨c', own, hc', _⟩
    rw [← generateDelayLine_isSome_iff mcd vs mxd exp ctype vname c, hc']
    rfl
  intro hfits
  have hi := (append_toString_notMem_controls (c.gIDCounters "i")).1
  have hj := (append_toString_notMem_controls (c.gIDCounters "j")).2
  have hfresh : ∀ {n : String} (k : ℕ), IsFresh n → n ≠ "i" ++ toString k ∧
      n ≠ "j" ++ toString k :=
    fun k hn => ⟨fun heq => hn.2.2 (.inr ⟨k, .inl heq⟩), fun heq => hn.2.2 (.inr ⟨k, .inr heq⟩)⟩
  by_cases hmxd : mxd = 0
  · subst hmxd
    obtain ⟨c', hc', hsections⟩ := @generateDelayLine_zero mcd vs exp ctype vname c
    refine ⟨c', _, hc', hsections, fun p hown hsize h => ?_⟩
    have hname : IsFresh vname := h.fresh vname (by simp [lineVariables])
    exact delays_of_reads (fun x => vectorComponent ext x ctype exp hvs.1 hvs.2 hname)
      (fun x => by simp [lineVariables, vectorComponent])
      (fun x t k m hk hs => readsAt_vector hvs.2 hk hs)
      (fun x t k m hk hs => readsAt_vector hvs.2 hk hs) hvs hmin hown hsize h
  by_cases hlt : (mxd : ℤ) < mcd
  · obtain hzero | ⟨_, hfit, hround⟩ | ⟨hge, _⟩ := hfits
    · exact absurd hzero hmxd
    · obtain ⟨c', hc', hsections⟩ := @generateDelayLine_copy mcd vs mxd exp ctype vname hmxd hlt _
        (roundDelay_of_lt hround) hfit c
      refine ⟨c', _, hc', hsections, fun p hown hsize h => ?_⟩
      have hnames : ∀ n ∈ [vname, vname ++ "_tmp", vname ++ "_perm"],
          IsFresh n ∧ n ≠ c.freshID "i" ∧ n ≠ c.freshID "j" := by
        intro n hn
        have hf := h.fresh n (by simpa [lineVariables, hmxd, hlt] using hn)
        exact ⟨hf, (hfresh _ hf).1, (hfresh _ hf).2⟩
      exact delays_of_reads (fun x => copyComponent ext x ctype exp (by omega) hfit hnames hi hj)
        (fun x => by simp [lineVariables, copyComponent, hmxd, hlt])
        (fun x t k m hk hs => readsAt_copy hmxd hlt (by omega) hfit hk hs.2)
        (fun x t k m hk hs => readsAt_copy hmxd hlt (by omega) hfit hk hs.2) hvs hmin hown hsize h
    · exact absurd hlt hge
  · obtain hzero | ⟨hlt', _⟩ | ⟨_, hfit⟩ := hfits
    · exact absurd hzero hmxd
    · exact absurd hlt' hlt
    · obtain ⟨q, _, hq, hpow, hle⟩ := pow2limit_of_le hfit
      obtain ⟨c', hc', hsections⟩ := @generateDelayLine_ring mcd vs mxd exp ctype vname hmxd hlt _
        (by omega) hpow c
      refine ⟨c', _, hc', hsections, fun p hown hsize h => ?_⟩
      have hnames : ∀ n ∈ [vname, vname ++ "_idx", vname ++ "_idx_save"],
          IsFresh n ∧ n ≠ c.freshID "i" := by
        intro n hn
        have hf := h.fresh n (by simpa [lineVariables, hmxd, hlt] using hn)
        exact ⟨hf, (hfresh _ hf).1⟩
      exact delays_of_reads (fun x => ringComponent ext x ctype exp hq hnames hi)
        (fun x => by simp [lineVariables, ringComponent, hmxd, hlt])
        (fun x t k m hk hs => readsAt_ring hmxd hlt hpow hfit hq hle hk hs.2.1 hs.1)
        (fun x t k m hk hs => readsAt_ring hmxd hlt hpow hfit hq hle hk hs.2.1 hs.1)
        hvs hmin hown hsize h

/-! ## Waveforms -/

/-- The variables of the index of a waveform. -/
def waveformVariables (vname : String) : Variables := ⟨[vname ++ "_idx"], [], [vname ++ "_idx"]⟩

/-- The index that `generateWaveform` keeps is the number of samples modulo the size, at the start
of every call and of every block, and the value that it loads is the one of the sample. -/
structure Counts (ext : ExternFun) (vname : String) (size : ℕ) (p : VecProgram) : Prop extends
    p.CodeRuns ext (waveformVariables vname) none where
  call : ∀ x t m, p.CallAt ext (waveformVariables vname) none x t m →
    m (vname ++ "_idx") = intCell (t % size : ℕ)
  start : ∀ x t n m, p.BlockAt ext (waveformVariables vname) none x t n m →
    m (vname ++ "_idx") = intCell (t % size : ℕ)
  load : ∀ x t n j m mj r mc c, p.BlockAt ext (waveformVariables vname) none x t n m → j < n →
    p.TurnAt ext n m j mj → Steps ext (p.loop.fComputeInst, mj) (r, mc) →
    (generateWaveform vname size c).1.eval ext mc =
      some (.int (.ofInt 32 ((t + j) % size : ℕ)))

/-- The index of the waveform counts in every program that its code is part of. -/
def WaveformCounts (ext : ExternFun) (vs : ℕ) (vname : String) (size : ℕ)
    (c : InstructionsCompiler) : Prop :=
  ∃ own, (generateWaveform vname size c).2.sections = c.sections.append own ∧
    ∀ p : VecProgram, p.own = own → p.gVecSize = vs → p.WellNamed (waveformVariables vname) →
      Counts ext vname size p

theorem waveformCounts (hmin : IsMin ext) (hvs : 0 < vs ∧ vs < 2 ^ 31) (vname : String)
    {size : ℕ} (hpos : 0 < size) (hsize : size + vs ≤ 2 ^ 31) (c : InstructionsCompiler) :
    WaveformCounts ext vs vname size c := by
  refine ⟨_, generateWaveform_sections vname size c, ?_⟩
  rintro ⟨variant, gVecSize, first, own, rest, locals, before, after⟩ rfl rfl h
  have hfresh : IsFresh (vname ++ "_idx") := h.fresh _ (by simp [waveformVariables])
  let C := fun x => waveformComponent ext x hpos hsize hvs.1 hfresh
  refine ⟨Component.codeRuns C (fun _ => rfl) h hvs hmin, ?_, ?_, ?_⟩
  · intro x t m hcall
    exact ((C x).holds_callAt h hvs hmin hcall).2
  · intro x t n m hblock
    exact ((C x).holds_blockAt h hvs hmin hblock).2.1
  · intro x t n j m mj r mc c' hblock hj hturn hrun
    obtain ⟨hm, hopen, _, hle⟩ := (C x).holds_blockAt h hvs hmin hblock
    have hj' : j < gVecSize := lt_of_lt_of_le hj hle
    obtain ⟨hmj, hsj, hij, _, _⟩ := (C x).holds_turnAt h hm hopen hj'.le
      (fun _ _ _ _ _ _ e he => by simp at he) hturn
    -- the waveform has no code of its own in a sample
    have hspares : SparesAll ((C x).names ++ controls) ((C x).names ++ controls) (C x).pointers
        (first.compute ++ [] ++ rest.compute) := by
      rw [List.append_nil]
      exact h.compute
    obtain ⟨_, hvc, hcc⟩ := Steps.spared (C x).pointers_mem areControls_controls hspares hmj hrun
    have hidx : mc (vname ++ "_idx") = intCell (t % size : ℕ) := (C x).stored_congr hvc hsj
    have hlt := Nat.mod_lt t hpos
    have hsum := eval_genAdd (eval_genLoadStructVar ext hidx)
      (eval_genLoadLoopVar ext ((hcc "i" (by decide)).trans hij))
    rw [← Nat.cast_add] at hsum
    have hrem := eval_genRem (by omega) (by omega) hpos hsum (eval_intNum size)
    rwa [Nat.mod_add_mod] at hrem

/-- Vector code implements delays: a line is compiled when its sizes fit, and then it delays in
every run; the indices of waveforms count samples. -/
theorem vectorCode_delays_iff {ext : ExternFun} (hmin : IsMin ext) {vs : ℕ}
    (hvs : 0 < vs ∧ vs < 2 ^ 31) :
    (∀ (gMaxCopyDelay : ℤ) (exp : ValueInst) (ctype : VarType) (vname : String) (mxd : ℕ)
      (c : InstructionsCompiler),
      LineDelays ext gMaxCopyDelay vs exp ctype vname mxd c ↔ Fits gMaxCopyDelay vs mxd) ∧
    ∀ (vname : String) (size : ℕ) (c : InstructionsCompiler), 0 < size → size + vs ≤ 2 ^ 31 →
      WaveformCounts ext vs vname size c :=
  ⟨fun _ exp ctype vname mxd c => lineDelays_iff hmin hvs exp ctype vname mxd c,
    fun vname _ c hpos hsize => waveformCounts hmin hvs vname hpos hsize c⟩

/-! ## Examples -/

/-- The library, as far as the loop on blocks uses it. -/
def minFun : ExternFun
  | "min", [.int a, .int b] => some (.int (if a.slt b then a else b))
  | _, _ => none

theorem minFun_isMin : IsMin minFun := fun _ _ => rfl

/-- The sample at the input. -/
def inputValue : ValueInst := .loadArrayVar ⟨"input0", .kStack⟩ getCurrentLoopIndex

/-- `process = @(10);` in blocks of 32 samples. -/
def vecEcho : VecProgram where
  variant := .variant0
  gVecSize := 32
  first := ⟨[], [], [], [], [], []⟩
  own := copyCode 32 .kFloat "fVec0" inputValue 12 "i0" "j0"
  rest := ⟨[], [], [], [], [genStoreArrayStackVar "output0" getCurrentLoopIndex
    (genLoadArrayStackVar "fVec0" (genSub getCurrentLoopIndex (.intNum 10)))], []⟩
  locals := [genDecStackVar "input0" (.array .kFloatMacro 0)
      (some (.loadArrayVarAddress ⟨"fInput0", .kStack⟩ (genLoadStackVar "index"))),
    genDecStackVar "output0" (.array .kFloatMacro 0)
      (some (.loadArrayVarAddress ⟨"fOutput0", .kStack⟩ (genLoadStackVar "index")))]
  before := []
  after := []

theorem not_isOwnName_fVec {n : String} {cs : List Char} (hn : n.toList = 'f' :: cs) :
    ¬ IsOwnName n := by
  rintro (rfl | ⟨k, h | h⟩)
  · exact absurd (List.cons.inj hn).1 (by decide)
  · exact append_toString_ne k (c := 'i') rfl hn (.inl (by simp)) h
  · exact append_toString_ne k (c := 'j') rfl hn (.inl (by simp)) h

theorem vecEcho_wellNamed : vecEcho.WellNamed (lineVariables 16 "fVec0" 10) where
  fresh := by
    intro n hn
    simp only [lineVariables, OfNat.ofNat_ne_zero, if_false, Nat.cast_ofNat, List.mem_cons,
      List.not_mem_nil, or_false, show (10 : ℤ) < 16 by decide, if_true] at hn
    obtain rfl | rfl | rfl := hn <;>
      exact ⟨by decide, by decide, not_isOwnName_fVec rfl⟩
  init := trivial
  block := trivial
  locals := by
    simp [vecEcho, SparesAll, StatementInst.Spares, genDecStackVar, ValueInst.Confines,
      lineVariables, controls, outer]
  loops := by simp [vecEcho]
  pre := trivial
  compute := by
    simp [vecEcho, SparesAll, StatementInst.Spares, genStoreArrayStackVar, lineVariables, controls]
  post := trivial

theorem vectorCode_delays_iff_echo :
    Delays minFun 16 32 "fVec0" 10 .kFloat vecEcho (lineVariables 16 "fVec0" 10) inputValue ∧
      WaveformCounts minFun 32 "fWave0" 5 .start := by
  obtain ⟨hlines, hwaves⟩ := vectorCode_delays_iff minFun_isMin
    (show 0 < 32 ∧ 32 < 2 ^ 31 by norm_num)
  refine ⟨?_, hwaves "fWave0" 5 .start (by norm_num) (by norm_num)⟩
  obtain ⟨c', own, hc', hsections, hdelays⟩ :=
    (hlines 16 inputValue .kFloat "fVec0" 10 .start).mpr
      (.inr (.inl ⟨by norm_num, by norm_num, by norm_num⟩))
  obtain ⟨c₁, hc₁, hsections₁⟩ := @generateDelayLine_copy 16 32 10 inputValue .kFloat "fVec0"
    (by norm_num) (by norm_num) _ (roundDelay_of_lt (by norm_num)) (by norm_num) .start
  obtain rfl := Option.some.inj (hc'.symm.trans hc₁)
  have hown : vecEcho.own = own := hsections₁.symm.trans hsections
  exact hdelays vecEcho hown rfl vecEcho_wellNamed

/-- No code is generated for a delay of `2 ^ 30` samples. -/
theorem not_lineDelays_longEcho :
    ¬ LineDelays minFun 16 32 inputValue .kFloat "fVec0" (2 ^ 30) .start := by
  rintro ⟨c', own, hc', -⟩
  have hsum : addSizes (2 ^ 30) 32 = some (2 ^ 30 + 32) := by decide
  have hnone : generateDelayLine 16 32 inputValue .kFloat "fVec0" (2 ^ 30) .start = none := by
    have hpow : pow2limit (2 ^ 30 + 32) = none := pow2limit_of_gt (by norm_num)
    simp only [generateDelayLine, generateDlineLoop, hsum, hpow, Option.bind_eq_bind,
      Option.bind_some, Option.bind_none]
    norm_num
  rw [hnone] at hc'
  cases hc'

end DAGInstructionsCompiler

end Faust.Fir
