import Faust.Generator.DelayLineTheorems

/-!
# Runs of a program with delay lines

The host allocates the object, initialises it and calls `compute` any number of times, each
time for any number of samples. Between two calls it may change any variable but those of the
object. The theorem of this module says when a compilation succeeds and all its lines delay.
-/

namespace Faust.Fir

open InstBuilder DelayBuffer

/-! ## Runs -/

/-- The variables that the delays of a line depend on. -/
def DelayLine.names (l : DelayLine) : List String := [l.vname, "IOTA", "i", "count"]

theorem DelayLine.vname_mem (l : DelayLine) : l.vname ∈ l.names := by simp [DelayLine.names]

theorem DelayLine.iota_mem (l : DelayLine) : "IOTA" ∈ l.names := by simp [DelayLine.names]

theorem DelayLine.i_mem (l : DelayLine) : "i" ∈ l.names := by simp [DelayLine.names]

theorem DelayLine.count_mem (l : DelayLine) : "count" ∈ l.names := by simp [DelayLine.names]

/-- The host leaves the variables of the object alone. -/
structure HostStep (l : DelayLine) (m m' : Memory) : Prop where
  guarded : Guarded l.names [] m'
  array : m' l.vname = m l.vname
  iota : m' "IOTA" = m "IOTA"

/-- The memory at the start of a call of `compute`, after `t` samples in which the line stored
the values of `x`. `before` is the code of a sample before the line stores. -/
inductive CallAt (ext : ExternFun) (c : InstructionsCompiler) (l : DelayLine)
    (before : List StatementInst) (x : ℕ → Val) : ℕ → Memory → Prop
  | first {m₀ m m' : Memory} : Guarded l.names [] m₀ →
      Runs ext (c.fDeclarationInstructions ++ c.fInitInstructions) m₀ m → HostStep l m m' →
      CallAt ext c l before x 0 m'
  | next {t n : ℕ} {m m₁ m₂ m' : Memory} : CallAt ext c l before x t m →
      m "count" = intCell n → n < 2 ^ 31 → Runs ext c.fComputeBlockInstructions m m₁ →
      (∀ i < n, ∀ mi ma, Turns ext "i" c.sample 0 i (Function.update m₁ "i" (intCell 0)) mi →
        Runs ext before mi ma → l.exp.eval ext ma = some (x (t + i))) →
      Runs ext [generateScalarLoop c] m₁ m₂ → HostStep l m₂ m' →
      CallAt ext c l before x (t + n) m'

/-- The memory at the start of sample `t`. -/
def SampleAt (ext : ExternFun) (c : InstructionsCompiler) (l : DelayLine)
    (before : List StatementInst) (x : ℕ → Val) (t : ℕ) (m : Memory) : Prop :=
  ∃ (t₀ n i : ℕ) (m₀ m₁ : Memory), t = t₀ + i ∧ CallAt ext c l before x t₀ m₀ ∧
    m₀ "count" = intCell n ∧ n < 2 ^ 31 ∧ i < n ∧ Runs ext c.fComputeBlockInstructions m₀ m₁ ∧
    (∀ j < i, ∀ mj ma, Turns ext "i" c.sample 0 j (Function.update m₁ "i" (intCell 0)) mj →
      Runs ext before mj ma → l.exp.eval ext ma = some (x (t₀ + j))) ∧
    Turns ext "i" c.sample 0 i (Function.update m₁ "i" (intCell 0)) m

/-- The code that is pushed on a section between two states of the compiler. -/
def pushed (section_ : InstructionsCompiler → List StatementInst) (c c' : InstructionsCompiler) :
    List StatementInst :=
  (section_ c').drop (section_ c).length

/-- The state in which a line pushes its own code: a ring has made sure of `IOTA`. -/
def lineStart (gMaxCopyDelay : ℤ) (l : DelayLine) (c : InstructionsCompiler) :
    InstructionsCompiler :=
  if l.mxd < gMaxCopyDelay then c else ensureIotaCode c

/-- The line delays: none of its accesses is outside of its array, and after the assignment of
sample `t`, at any point of the code of this sample, a read for a delay of `d` gives the value
`d` samples ago. `c₀` and `c₁` are the states of the compiler before and after it compiles the
line, and `c` the one at the end. -/
structure DelayLine.Delays (ext : ExternFun) (gMaxCopyDelay : ℤ) (l : DelayLine)
    (c₀ c₁ c : InstructionsCompiler) : Prop where
  init : ∀ m₀ m, Guarded l.names [] m₀ →
    Runs ext (c.fDeclarationInstructions ++ c₀.fInitInstructions) m₀ m →
    ∃ m', Runs ext (pushed (·.fInitInstructions) c₀ c₁) m m'
  store : ∀ x t m ma, SampleAt ext c l (c.fPreInst ++ c₀.fComputeInst) x t m →
    Runs ext (c.fPreInst ++ c₀.fComputeInst) m ma → l.exp.eval ext ma = some (x t) →
    ∃ mb, Runs ext (pushed (·.fComputeInst) c₀ c₁) ma mb
  read : ∀ x t m ma mb r mc delay d, SampleAt ext c l (c.fPreInst ++ c₀.fComputeInst) x t m →
    Runs ext (c.fPreInst ++ c₀.fComputeInst) m ma → l.exp.eval ext ma = some (x t) →
    Runs ext (pushed (·.fComputeInst) c₀ c₁) ma mb →
    Steps ext (pushed (·.fComputeInst) c₁ c, mb) (r, mc) →
    ValueInst.eval ext mc delay = some (.int (.ofInt 32 (d : ℕ))) → d ≤ l.mxd →
    ∃ code, generateFixDelay gMaxCopyDelay l.vname l.mxd delay = some code ∧
      code.eval ext mc = some (if d ≤ t then x (t - d) else zeroVal l.ctype)
  post : ∀ x t m ma mb md, SampleAt ext c l (c.fPreInst ++ c₀.fComputeInst) x t m →
    Runs ext (c.fPreInst ++ c₀.fComputeInst) m ma → l.exp.eval ext ma = some (x t) →
    Runs ext (pushed (·.fComputeInst) c₀ c₁) ma mb →
    Runs ext (pushed (·.fComputeInst) c₁ c ++ c₀.fPostInst) mb md →
    ∃ me, Runs ext (pushed (·.fPostInst) c₀ c₁) md me

/-- The names of the lines. -/
def lineNames (as : List Action) : List String :=
  as.filterMap fun
    | .line l => some l.vname
    | .other _ => none

theorem lineNames_append (as bs : List Action) :
    lineNames (as ++ bs) = lineNames as ++ lineNames bs := List.filterMap_append

theorem lineNames_cons (l : DelayLine) (as : List Action) :
    lineNames (.line l :: as) = l.vname :: lineNames as := rfl

/-- The names are those of a compilation: arrays have fresh names, and no other code assigns
the variables of a line or makes pointers to them. -/
structure WellNamed (as : List Action) : Prop where
  distinct : (lineNames as).Nodup
  fresh : ∀ l, .line l ∈ as → ¬ IsOwnName l.vname ∧ l.vname ≠ "i" ∧ l.vname ≠ "count"
  exp : ∀ l l', .line l ∈ as → .line l' ∈ as → l'.exp.Confines l.names []
  other : ∀ l p, .line l ∈ as → .other p ∈ as → ∀ n ∈ l.names, p.statement.Spares [n] l.names []

/-! ## The contents of a line -/

/-- The array of a line after `t` samples, before (`k = 1`) or after (`k = 0`) the assignment of
sample `t`. -/
def DelayLine.Holds (gMaxCopyDelay : ℤ) (l : DelayLine) (x : ℕ → Val) (k t : ℕ) (m : Memory) :
    Prop :=
  if l.mxd < gMaxCopyDelay then
    ∃ vs, m l.vname = .array vs ∧ vs.length = l.mxd + 1 ∧
      Register (some (zeroVal l.ctype)) (fun s => some (x s)) k t vs
  else
    ∃ vs n, m l.vname = .array vs ∧ vs.length = 2 ^ n ∧ n ≤ 30 ∧ l.mxd < 2 ^ n ∧
      pow2limit (l.mxd + 1) = some (2 ^ n) ∧
      Ring (some (zeroVal l.ctype)) (fun s => some (x s)) (t + 1 - k) vs ∧ m "IOTA" = intCell t

variable {ext : ExternFun} {mcd : ℤ} {l : DelayLine} {x : ℕ → Val} {m m' : Memory} {t : ℕ}

/-- The contents depends on the array and on `IOTA` only. -/
theorem DelayLine.Holds.congr {k : ℕ} (h : l.Holds mcd x k t m) (hv : m' l.vname = m l.vname)
    (hi : m' "IOTA" = m "IOTA") : l.Holds mcd x k t m' := by
  unfold DelayLine.Holds at h ⊢
  rwa [hv, hi]

/-- The contents of a short line depends on the array only. -/
theorem DelayLine.Holds.congr_short {k : ℕ} (h : l.Holds mcd x k t m) (hlt : (l.mxd : ℤ) < mcd)
    (hv : m' l.vname = m l.vname) : l.Holds mcd x k t m' := by
  unfold DelayLine.Holds at h ⊢
  rw [if_pos hlt] at h ⊢
  rwa [hv]

/-- The elements of a register are numbers. -/
theorem register_initialised {vs : List (Option Val)} {z : Val}
    (hreg : Register (some z) (fun s => some (x s)) 0 (t : ℤ) vs) :
    ∀ d < vs.length, ∃ w, vs[d]? = some (some w) := by
  intro d hd
  obtain ⟨w, hw⟩ := exists_history z x (t - d)
  exact ⟨w, by rw [hreg d (Nat.zero_le d) hd, hw]⟩

/-- The assignment of a line. -/
def DelayLine.storeCode (gMaxCopyDelay : ℤ) (l : DelayLine) (size : ℕ) : StatementInst :=
  if l.mxd < gMaxCopyDelay then genStoreArrayStructVar l.vname (.intNum 0) l.exp
  else ringStore l.vname size l.exp

/-- The value of sample `t` is stored inside of the array. -/
theorem DelayLine.Holds.store {size : ℕ} (h : l.Holds mcd x 1 t m) (hv : l.vname ≠ "IOTA")
    (hsize : ¬ (l.mxd : ℤ) < mcd → pow2limit (l.mxd + 1) = some size)
    (hx : l.exp.eval ext m = some (x t)) :
    ∃ m', step ext ([l.storeCode mcd size], m) = some ([], m') ∧ l.Holds mcd x 0 t m' ∧
      ∀ n ≠ l.vname, m' n = m n := by
  unfold DelayLine.Holds at h ⊢
  unfold DelayLine.storeCode
  split at h
  · rename_i hlt
    simp only [if_pos hlt]
    obtain ⟨vs, hvs, hlen, hreg⟩ := h
    refine ⟨_, step_storeArrayVar ext hvs (eval_intNum 0) (toInt_ofInt_of_lt (i := 0) (by omega))
      (by omega) hx, ⟨_, Function.update_self .., by simpa using hlen, hreg.store⟩,
      fun n hn => Function.update_of_ne hn _ _⟩
  · rename_i hge
    simp only [if_neg hge]
    obtain ⟨vs, n, hvs, hlen, hn, hmxd, hpow, hring, hiota⟩ := h
    obtain rfl : 2 ^ n = size := by
      rw [hsize hge] at hpow
      exact (Option.some.inj hpow).symm
    have hindex := eval_ringIndex hn (eval_genLoadStructVar ext hiota)
    have hpos : 0 < vs.length := by rw [hlen]; positivity
    have hlt := Int.emod_lt_of_pos (t : ℤ) (show (0 : ℤ) < 2 ^ n by positivity)
    have hcast : ((vs.length : ℕ) : ℤ) = 2 ^ n := by rw [hlen]; push_cast; rfl
    have hstep := step_storeArrayVar ext (a := ⟨l.vname, .kStruct⟩) hvs hindex
      (toInt_ofInt_emod hn t) (by omega) hx
    refine ⟨_, hstep, ⟨_, n, Function.update_self .., by simpa using hlen, hn, hmxd, hpow, ?_, ?_⟩,
      fun n hn => Function.update_of_ne hn _ _⟩
    · have hring' := hring
      rw [Nat.cast_one, add_sub_cancel_right] at hring'
      have hstored := hring'.store hpos
      rw [hcast] at hstored
      simpa using hstored
    · rw [Function.update_of_ne hv.symm, hiota]

/-- A read gives the value `d` samples ago, from inside of the array. -/
theorem DelayLine.Holds.read (h : l.Holds mcd x 0 t m) (hmxd : l.mxd ≠ 0) (hmcd : mcd < 2 ^ 31)
    {delay : ValueInst} {d : ℕ} (hd : d ≤ l.mxd)
    (hdelay : delay.eval ext m = some (.int (.ofInt 32 d))) :
    ∃ code, generateFixDelay mcd l.vname l.mxd delay = some code ∧
      code.eval ext m = some (if d ≤ t then x (t - d) else zeroVal l.ctype) := by
  have hvalue : history (some (zeroVal l.ctype)) (fun s => some (x s)) (t - d) =
      some (if d ≤ t then x (t - d) else zeroVal l.ctype) := by
    rw [history_sub]
    split <;> rfl
  unfold DelayLine.Holds at h
  unfold generateFixDelay
  rw [if_neg hmxd]
  split at h
  · rename_i hlt
    rw [if_pos hlt]
    obtain ⟨vs, hvs, hlen, hreg⟩ := h
    refine ⟨_, rfl, eval_loadArrayVar hvs hdelay (toInt_ofInt_of_lt (by omega)) ?_⟩
    rw [hreg d (Nat.zero_le d) (by omega), hvalue]
  · rename_i hge
    rw [if_neg hge]
    obtain ⟨vs, n, hvs, hlen, hn, hmxd', hpow, hring, hiota⟩ := h
    refine ⟨_, by rw [hpow]; rfl, ?_⟩
    have hcast : ((vs.length : ℕ) : ℤ) = 2 ^ n := by rw [hlen]; push_cast; rfl
    have hlarge : (l.mxd : ℤ) < 2 ^ n := by exact_mod_cast hmxd'
    have hindex := eval_ringIndex hn (eval_genSub (eval_genLoadStructVar ext hiota) hdelay)
    refine eval_loadArrayVar hvs hindex (toInt_ofInt_emod hn _) ?_
    have hget := hring (t - d) (by rw [hcast]; push_cast; omega) (by push_cast; omega)
    rw [hcast] at hget
    rw [hget, hvalue]

variable (ext) in
/-- The shift at the end of a sample, inside of the array. -/
theorem runs_shiftCode {index vname : String} {mxd : ℕ} {vs : List (Option Val)}
    (hmxd : mxd ≠ 0) (hne : index ≠ vname) (hlt : mxd < 2 ^ 31) (hm : m vname = .array vs)
    (hlen : vs.length = mxd + 1) (hinit : ∀ d ≤ mxd, ∃ w, vs[d]? = some (some w)) :
    ∃ m' vs', Runs ext (shiftCode index vname mxd) m m' ∧ m' vname = .array vs' ∧
      vs'.length = vs.length ∧ ∀ d < mxd, vs'[d + 1]? = vs[d]? := by
  unfold shiftCode
  split
  · rename_i h₁
    subst h₁
    obtain ⟨w, hw⟩ := hinit 0 (by omega)
    have hstep := step_generateCopyArray ext (i := 0) hm (by omega) (by omega) hw
    refine ⟨_, _, (runs_singleton hstep).mpr rfl, Function.update_self .., by simp, ?_⟩
    intro d hd
    obtain rfl : d = 0 := by omega
    rw [List.getElem?_set_self (by omega), hw]
  split
  · rename_i h₁ h₂
    subst h₂
    obtain ⟨w₀, hw₀⟩ := hinit 0 (by omega)
    obtain ⟨w₁, hw₁⟩ := hinit 1 (by omega)
    have hstep₁ := step_generateCopyArray ext (i := 1) hm (by omega) (by omega) hw₁
    have hstep₂ := step_generateCopyArray ext (i := 0) (w := w₀)
      (Function.update_self vname (.array (vs.set (1 + 1) (some w₁))) m) (by simp; omega) (by omega)
      (by rw [List.getElem?_set_ne (by omega), hw₀])
    refine ⟨_, _, Runs.append ((runs_singleton hstep₁).mpr rfl) ((runs_singleton hstep₂).mpr rfl),
      Function.update_self .., by simp, ?_⟩
    intro d hd
    obtain rfl | rfl : d = 0 ∨ d = 1 := by omega
    · rw [List.getElem?_set_self (by simp; omega), hw₀]
    · rw [List.getElem?_set_ne (by omega), List.getElem?_set_self (by omega), hw₁]
  · exact runs_shiftLoop hne hlt hm hlen hinit

/-! ## A line in a compilation -/

/-- The number of elements of the array of a line. -/
def DelayLine.Size (gMaxCopyDelay : ℤ) (l : DelayLine) (size : ℕ) : Prop :=
  if l.mxd < gMaxCopyDelay then size = l.mxd + 1 else pow2limit (l.mxd + 1) = some size

/-- The code of a line at the end of a sample. -/
def DelayLine.postCode (gMaxCopyDelay : ℤ) (l : DelayLine) (index : String) :
    List StatementInst :=
  if l.mxd < gMaxCopyDelay then shiftCode index l.vname l.mxd else []

/-- What is known about a line that is compiled between the states `c₀` and `c₁` of a
compilation that ends in `c`. -/
structure DelayLine.Compiled (gMaxCopyDelay : ℤ) (l : DelayLine)
    (c₀ c₁ c : InstructionsCompiler) (size : ℕ) : Prop where
  mxd : l.mxd ≠ 0
  fresh : ¬ IsOwnName l.vname
  ne_index : l.vname ≠ "i"
  fits : l.Size gMaxCopyDelay size
  before : Grows l.names l.vname .start c₀
  pushes : Pushes l.vname l.ctype size (l.storeCode gMaxCopyDelay size)
    (l.postCode gMaxCopyDelay (c₀.freshID "j")) c₀ c₁
  after : Grows l.names l.vname c₁ c
  index : Grows l.names "i" .start c
  count : Grows l.names "count" .start c
  iota : IotaState l.names c
  loaded : ¬ (l.mxd : ℤ) < gMaxCopyDelay → c.fLoadedIota = true

/-- Every section starts empty. -/
theorem Grows.spares {S : List String} {n : String} {c : InstructionsCompiler}
    (h : Grows S n .start c) :
    SparesAll [n] S [] c.fDeclarationInstructions ∧ SparesAll [n] S [] c.fInitInstructions ∧
    SparesAll [n] S [] c.fComputeBlockInstructions ∧ SparesAll [n] S [] c.fPreInst ∧
    SparesAll [n] S [] c.fComputeInst ∧ SparesAll [n] S [] c.fPostInst :=
  ⟨h.declare.spares trivial, h.init.spares trivial, h.block.spares trivial, h.pre.spares trivial,
    h.compute.spares trivial, h.post.spares trivial⟩

theorem DelayLine.Size.lt {size : ℕ} (h : l.Size mcd size) (hmcd : mcd < 2 ^ 31) :
    0 < size ∧ size < 2 ^ 31 := by
  unfold DelayLine.Size at h
  split at h
  · omega
  · by_cases hmxd : l.mxd + 1 ≤ 2 ^ 30
    · obtain ⟨k, _, hk, hpow, _⟩ := pow2limit_of_le hmxd
      rw [hpow] at h
      obtain rfl := Option.some.inj h
      have hle : 2 ^ k ≤ 2 ^ 30 := Nat.pow_le_pow_right (by norm_num) hk
      have hpos : 0 < 2 ^ k := by positivity
      omega
    · rw [pow2limit_of_gt (by omega)] at h
      simp at h

/-- Code with a part that is about `n` runs it between two parts that leave `n` alone. -/
theorem Runs.once {S : List String} {n k : String} (hn : n ∈ S) (hk : k ∈ S)
    {a b own : List StatementInst} (h : Runs ext (a ++ own ++ b) m m')
    (ha : SparesAll [n] S [] a) (hb : SparesAll [n] S [] b)
    (hall : SparesAll [k] S [] (a ++ own ++ b)) (hm : Guarded S [] m) :
    ∃ m₁ m₂, Runs ext a m m₁ ∧ Guarded S [] m₁ ∧ m₁ n = m n ∧ Runs ext own m₁ m₂ ∧
      Guarded S [] m' ∧ m' n = m₂ n := by
  obtain ⟨m₂, hao, hrunb⟩ := h.append_inv
  obtain ⟨m₁, hruna, hruno⟩ := hao.append_inv
  obtain ⟨hm₁, hn₁⟩ := hruna.keeps hn ha hm
  rw [sparesAll_append, sparesAll_append] at hall
  obtain ⟨hm₂, _⟩ := hruno.keeps hk hall.1.2 hm₁
  obtain ⟨hm', hn'⟩ := hrunb.keeps hn hb hm₂
  exact ⟨m₁, m₂, hruna, hm₁, hn₁, hruno, hm', hn'⟩

/-- A section of the final code: what was there before the line, the code of the line, and what
was pushed after it. -/
theorem section_split {S : List String} {n : String} {l₀ l₁ l₂ own : List StatementInst}
    (h₀ : SparesAll [n] S [] l₀) (h₁ : l₁ = l₀ ++ own) (h₂ : Extends S n l₁ l₂) :
    ∃ rest, l₂ = l₀ ++ own ++ rest ∧ SparesAll [n] S [] l₀ ∧ SparesAll [n] S [] rest := by
  obtain ⟨rest, rfl, hrest⟩ := h₂
  exact ⟨rest, by rw [h₁], h₀, hrest⟩

/-- The code of a sample leaves the index and the number of samples alone. -/
theorem Grows.sample {c : InstructionsCompiler} {n : String} (hn : n ∈ l.names)
    (hg : Grows l.names n .start c)
    (hm : Guarded l.names [] m) (hrun : Runs ext c.sample m m') :
    Guarded l.names [] m' ∧ m' n = m n := by
  obtain ⟨_, _, _, hpre, hcompute, hpost⟩ := hg.spares
  exact hrun.keeps hn (sparesAll_append.mpr ⟨sparesAll_append.mpr ⟨hpre, hcompute⟩, hpost⟩) hm

theorem pushed_eq {section_ : InstructionsCompiler → List StatementInst}
    {c c' : InstructionsCompiler} {d : List StatementInst} (h : section_ c' = section_ c ++ d) :
    pushed section_ c c' = d := by
  rw [pushed, h, List.drop_left]

/-- A section with one statement about `IOTA` runs it. -/
theorem Runs.iota {S : List String} {s : StatementInst} {ss : List StatementInst}
    (hiota : "IOTA" ∈ S) (hi : "i" ∈ S) (hrun : Runs ext ss m m') (hs : Once S s ss)
    (hall : SparesAll ["i"] S [] ss) (hm : Guarded S [] m) :
    ∃ m₁ m₂, m₁ "IOTA" = m "IOTA" ∧ Runs ext [s] m₁ m₂ ∧ Guarded S [] m' ∧
      m' "IOTA" = m₂ "IOTA" := by
  obtain ⟨a, b, rfl, ha, hb⟩ := hs
  rw [show a ++ s :: b = a ++ [s] ++ b by simp] at hrun hall
  obtain ⟨m₁, m₂, _, _, hn₁, hown, hm', hn'⟩ := hrun.once hiota hi ha hb hall hm
  exact ⟨m₁, m₂, hn₁, hown, hm', hn'⟩

namespace DelayLine.Compiled

variable {c₀ c₁ c : InstructionsCompiler} {size : ℕ}
  (h : l.Compiled mcd c₀ c₁ c size) (hmcd : mcd < 2 ^ 31)
include h

theorem freshID_ne (pre : String) (hpre : pre = "i" ∨ pre = "j") (c : InstructionsCompiler) :
    c.freshID pre ≠ l.vname := by
  intro heq
  obtain rfl | rfl := hpre
  · exact h.fresh (.inr ⟨_, .inl heq.symm⟩)
  · exact h.fresh (.inr ⟨_, .inr heq.symm⟩)

theorem vname_ne_iota : l.vname ≠ "IOTA" := fun heq => h.fresh (.inl heq)

include hmcd

/-- After the declarations, the array of the line has its size. -/
theorem declare_runs (hm : Guarded l.names [] m)
    (hrun : Runs ext c.fDeclarationInstructions m m') :
    Guarded l.names [] m' ∧ m' l.vname = .array (List.replicate size none) := by
  obtain ⟨rest, hc, hbefore, hrest⟩ := section_split h.before.spares.1 h.pushes.declare
    h.after.declare
  have hi := h.index.spares.1
  rw [hc] at hrun hi
  obtain ⟨m₁, m₂, _, _, _, hown, hm', hn'⟩ :=
    hrun.once l.vname_mem l.i_mem hbefore hrest hi hm
  refine ⟨hm', hn'.trans ?_⟩
  obtain ⟨hpos, _⟩ := h.fits.lt hmcd
  obtain ⟨k, rfl⟩ := Nat.exists_eq_succ_of_ne_zero hpos.ne'
  have hstep : step ext ([genDecStructVar l.vname (.array l.ctype (k + 1)) none], m₁) =
      some ([], Function.update m₁ l.vname (.array (List.replicate (k + 1) none))) := rfl
  rw [← (runs_singleton hstep).mp hown, Function.update_self]

/-- The initialisation loop of the line is inside of the array. -/
theorem init_exists {m₀ : Memory} (hm : Guarded l.names [] m₀)
    (hrun : Runs ext (c.fDeclarationInstructions ++ c₀.fInitInstructions) m₀ m) :
    ∃ m', Runs ext (pushed (·.fInitInstructions) c₀ c₁) m m' := by
  obtain ⟨m₁, hdec, hinit⟩ := hrun.append_inv
  obtain ⟨hm₁, harr⟩ := h.declare_runs hmcd hm hdec
  obtain ⟨_, hkeep⟩ := hinit.keeps l.vname_mem h.before.spares.2.1 hm₁
  obtain ⟨m', hrun', _, _⟩ := runs_initLoop ext l.ctype (h.freshID_ne "i" (.inl rfl) c₀)
    (h.fits.lt hmcd).2 (hkeep.trans harr) (List.length_replicate ..)
  rw [pushed_eq h.pushes.init]
  exact ⟨m', hrun'⟩

/-- Before the first sample the array is full of zeros. -/
theorem holds_start {m₀ : Memory} (x : ℕ → Val) (hm : Guarded l.names [] m₀)
    (hrun : Runs ext (c.fDeclarationInstructions ++ c.fInitInstructions) m₀ m) :
    Guarded l.names [] m ∧ l.Holds mcd x 1 0 m := by
  obtain ⟨m₁, hdec, hinit⟩ := hrun.append_inv
  obtain ⟨hm₁, harr⟩ := h.declare_runs hmcd hm hdec
  obtain ⟨rest, hc, hbefore, hrest⟩ := section_split h.before.spares.2.1 h.pushes.init
    h.after.init
  have hi := h.index.spares.2.1
  have hinit' := hinit
  rw [hc] at hinit' hi
  obtain ⟨m₂, m₃, _, hm₂, hn₂, hown, hm', hn'⟩ :=
    hinit'.once l.vname_mem l.i_mem hbefore hrest hi hm₁
  obtain ⟨m₃', hrun', hzero, _⟩ := runs_initLoop ext l.ctype
    (h.freshID_ne "i" (.inl rfl) c₀) (h.fits.lt hmcd).2 (hn₂.trans harr) (List.length_replicate ..)
  obtain rfl := hrun'.unique hown
  refine ⟨hm', ?_⟩
  have hsize := h.fits
  unfold DelayLine.Holds
  unfold DelayLine.Size at hsize
  split at hsize
  · rename_i hlt
    rw [if_pos hlt]
    have hreg : Register (some (zeroVal l.ctype)) (fun s => some (x s)) 1 0
        (List.replicate size (some (zeroVal l.ctype))) := register_replicate size
    exact ⟨_, hn'.trans hzero, by simpa using hsize, hreg⟩
  · rename_i hge
    rw [if_neg hge]
    have hmxd : l.mxd + 1 ≤ 2 ^ 30 := by
      by_contra hgt
      rw [pow2limit_of_gt (by omega)] at hsize
      simp at hsize
    obtain ⟨n, _, hn, hpow, hle⟩ := pow2limit_of_le hmxd
    obtain rfl : 2 ^ n = size := Option.some.inj (hpow.symm.trans hsize)
    refine ⟨_, n, hn'.trans hzero, List.length_replicate .., hn, by omega, hpow, ?_, ?_⟩
    · simpa using ring_replicate (zeroVal l.ctype : Option Val) (fun s => some (x s))
        (show 0 < 2 ^ n by positivity)
    · -- `IOTA` is declared once and set to 0 once
      obtain ⟨hdecl, hinits, _⟩ := h.iota.loaded (h.loaded hge)
      obtain ⟨a₁, a₂, _, hda, _, hka⟩ := hdec.iota l.iota_mem l.i_mem hdecl h.index.spares.1 hm
      have hdstep : step ext ([iotaDeclare], a₁) =
          some ([], Function.update a₁ "IOTA" (.scalar none)) := rfl
      rw [← (runs_singleton hdstep).mp hda, Function.update_self] at hka
      obtain ⟨b₁, b₂, hkb, hib, _, hkb'⟩ :=
        hinit.iota l.iota_mem l.i_mem hinits h.index.spares.2.1 hm₁
      have histep : step ext ([iotaInit], b₁) =
          some ([], Function.update b₁ "IOTA" (intCell 0)) := by
        simp [iotaInit, genStoreStructVar, step, hkb, hka, storeCell, ValueInst.eval, intCell]
      rw [hkb', ← (runs_singleton histep).mp hib, Function.update_self]
      rfl

omit hmcd

/-- The block code of a call leaves the line alone. -/
theorem holds_block (hm : Guarded l.names [] m) (hH : l.Holds mcd x 1 t m)
    (hrun : Runs ext c.fComputeBlockInstructions m m') :
    Guarded l.names [] m' ∧ l.Holds mcd x 1 t m' := by
  have hblock : SparesAll [l.vname] l.names [] c.fComputeBlockInstructions := by
    apply h.after.block.spares
    rw [h.pushes.block]
    exact h.before.spares.2.2.1
  obtain ⟨hm', hv⟩ := hrun.keeps l.vname_mem hblock hm
  obtain ⟨_, hi⟩ := hrun.keeps l.iota_mem h.iota.block hm
  exact ⟨hm', hH.congr hv hi⟩

/-- The code before the assignment leaves the line alone. -/
theorem holds_before {ma : Memory} (hm : Guarded l.names [] m) (hH : l.Holds mcd x 1 t m)
    (hrun : Runs ext (c.fPreInst ++ c₀.fComputeInst) m ma) :
    Guarded l.names [] ma ∧ l.Holds mcd x 1 t ma := by
  obtain ⟨rest, hc, hbefore, _⟩ := section_split h.before.spares.2.2.2.2.1 h.pushes.compute
    h.after.compute
  have hpre : SparesAll [l.vname] l.names [] c.fPreInst := by
    apply h.after.pre.spares
    rw [h.pushes.pre]
    exact h.before.spares.2.2.2.1
  have hcomp := h.iota.compute
  rw [hc, sparesAll_append, sparesAll_append] at hcomp
  obtain ⟨hm', hv⟩ := hrun.keeps l.vname_mem (sparesAll_append.mpr ⟨hpre, hbefore⟩) hm
  obtain ⟨_, hi⟩ := hrun.keeps l.iota_mem (sparesAll_append.mpr ⟨h.iota.pre, hcomp.1.1⟩) hm
  exact ⟨hm', hH.congr hv hi⟩

/-- The assignment is inside of the array. -/
theorem store_exists {ma : Memory} (hH : l.Holds mcd x 1 t ma)
    (hx : l.exp.eval ext ma = some (x t)) :
    ∃ mb, Runs ext (pushed (·.fComputeInst) c₀ c₁) ma mb := by
  have hfits := h.fits
  unfold DelayLine.Size at hfits
  obtain ⟨mb, hstep, _⟩ := hH.store h.vname_ne_iota (fun hge => by rwa [if_neg hge] at hfits) hx
  rw [pushed_eq h.pushes.compute]
  exact ⟨mb, (runs_singleton hstep).mpr rfl⟩

/-- The assignment stores the sample. -/
theorem holds_store {ma mb : Memory} (hm : Guarded l.names [] ma) (hH : l.Holds mcd x 1 t ma)
    (hx : l.exp.eval ext ma = some (x t))
    (hrun : Runs ext (pushed (·.fComputeInst) c₀ c₁) ma mb) :
    Guarded l.names [] mb ∧ l.Holds mcd x 0 t mb := by
  have hfits := h.fits
  unfold DelayLine.Size at hfits
  obtain ⟨mb', hstep, hH', _⟩ :=
    hH.store h.vname_ne_iota (fun hge => by rwa [if_neg hge] at hfits) hx
  rw [pushed_eq h.pushes.compute] at hrun
  obtain rfl := (runs_singleton hstep).mp hrun
  have hcomp := h.index.spares.2.2.2.2.1
  obtain ⟨rest, hc, _, _⟩ := section_split h.before.spares.2.2.2.2.1 h.pushes.compute
    h.after.compute
  rw [hc, sparesAll_append, sparesAll_append] at hcomp
  exact ⟨(hrun.keeps l.i_mem hcomp.1.2 hm).1, hH'⟩

/-- The code after the assignment leaves the line alone. -/
theorem holds_after {mb mc : Memory} {r : List StatementInst} (hm : Guarded l.names [] mb)
    (hH : l.Holds mcd x 0 t mb) (hrun : Steps ext (pushed (·.fComputeInst) c₁ c, mb) (r, mc)) :
    Guarded l.names [] mc ∧ l.Holds mcd x 0 t mc := by
  obtain ⟨rest, hc, hrest⟩ := h.after.compute
  rw [pushed_eq hc] at hrun
  have hcomp := h.iota.compute
  rw [hc, sparesAll_append] at hcomp
  obtain ⟨hm', hv⟩ := hrun.keeps l.vname_mem hrest hm
  obtain ⟨_, hi⟩ := hrun.keeps l.iota_mem hcomp.2 hm
  exact ⟨hm', hH.congr hv hi⟩

include hmcd

/-- The code of the line at the end of a sample is inside of the array. -/
theorem post_exists {md : Memory} (hH : l.Holds mcd x 0 t md) :
    ∃ me, Runs ext (pushed (·.fPostInst) c₀ c₁) md me := by
  rw [pushed_eq h.pushes.post]
  unfold DelayLine.Holds at hH
  unfold DelayLine.postCode
  split at hH
  · rename_i hlt
    rw [if_pos hlt]
    obtain ⟨vs, hvs, hlen, hreg⟩ := hH
    obtain ⟨me, _, hrun, _⟩ := runs_shiftCode ext h.mxd (h.freshID_ne "j" (.inr rfl) c₀)
      (by omega) hvs hlen (fun d hd => register_initialised hreg d (by omega))
    exact ⟨me, hrun⟩
  · rename_i hge
    rw [if_neg hge]
    exact ⟨md, .nil md⟩

/-- The end of a sample makes room for the next one. -/
theorem holds_post (hm : Guarded l.names [] m) (hH : l.Holds mcd x 0 t m)
    (hrun : Runs ext c.fPostInst m m') :
    Guarded l.names [] m' ∧ l.Holds mcd x 1 (t + 1) m' := by
  obtain ⟨rest, hc, hbefore, hrest⟩ := section_split h.before.spares.2.2.2.2.2 h.pushes.post
    h.after.post
  have hi := h.index.spares.2.2.2.2.2
  have hrun' := hrun
  rw [hc] at hrun' hi
  obtain ⟨m₁, m₂, _, hm₁, hn₁, hown, hm', hn'⟩ :=
    hrun'.once l.vname_mem l.i_mem hbefore hrest hi hm
  refine ⟨hm', ?_⟩
  unfold DelayLine.Holds at hH ⊢
  unfold DelayLine.postCode at hown
  split at hH
  · rename_i hlt
    rw [if_pos hlt] at hown ⊢
    obtain ⟨vs, hvs, hlen, hreg⟩ := hH
    obtain ⟨m₂', vs', hshift, hvs', hlen', hmoved⟩ := runs_shiftCode ext h.mxd
      (h.freshID_ne "j" (.inr rfl) c₀) (by omega) (hn₁.trans hvs) hlen
      (fun d hd => register_initialised hreg d (by omega))
    obtain rfl := hshift.unique hown
    refine ⟨vs', hn'.trans hvs', hlen'.trans hlen, ?_⟩
    have hnext := hreg.shift hlen' (fun d hd => hmoved d (by omega))
    exact_mod_cast hnext
  · rename_i hge
    rw [if_neg hge] at hown ⊢
    obtain ⟨vs, n, hvs, hlen, hn, hmxd, hpow, hring, hiota⟩ := hH
    obtain rfl := (Runs.nil m₁).unique hown
    refine ⟨vs, n, hn'.trans (hn₁.trans hvs), hlen, hn, hmxd, hpow, ?_, ?_⟩
    · simpa using hring
    · obtain ⟨_, _, hpost⟩ := h.iota.loaded (h.loaded hge)
      obtain ⟨b₁, b₂, hkb, hib, _, hkb'⟩ :=
        hrun.iota l.iota_mem l.i_mem hpost h.index.spares.2.2.2.2.2 hm
      have hcell := hkb.trans hiota
      rw [hkb', ← (runs_singleton (step_storeVar_int (a := ⟨"IOTA", .kStruct⟩) hcell
        (eval_genAdd (eval_genLoadStructVar ext hcell) (eval_intNum 1)))).mp hib, Function.update_self]
      push_cast
      rfl

/-- A sample stores the value of the signal and makes room for the next one. -/
theorem holds_sample (hm : Guarded l.names [] m) (hH : l.Holds mcd x 1 t m)
    (hx : ∀ ma, Runs ext (c.fPreInst ++ c₀.fComputeInst) m ma → l.exp.eval ext ma = some (x t))
    (hrun : Runs ext c.sample m m') : Guarded l.names [] m' ∧ l.Holds mcd x 1 (t + 1) m' := by
  obtain ⟨rest, hc, hrest⟩ := h.after.compute
  rw [InstructionsCompiler.sample, hc, h.pushes.compute] at hrun
  obtain ⟨md, hcompute, hpost⟩ := hrun.append_inv
  simp only [← List.append_assoc] at hcompute
  obtain ⟨mb, hstore, hafter⟩ := hcompute.append_inv
  obtain ⟨ma, hbefore, hstore⟩ := hstore.append_inv
  obtain ⟨hma, hHa⟩ := h.holds_before hm hH hbefore
  obtain ⟨hmb, hHb⟩ := h.holds_store hma hHa (hx ma hbefore)
    (by rwa [pushed_eq h.pushes.compute])
  rw [← pushed_eq hc] at hafter
  obtain ⟨hmd, hHd⟩ := h.holds_after hmb hHb hafter
  exact h.holds_post hmcd hmd hHd hpost

/-- The contents at the start of a sample of a call. -/
theorem holds_turns {t₀ n i : ℕ} {m₁ mi : Memory} (hm : Guarded l.names [] m₁)
    (hH : l.Holds mcd x 1 t₀ m₁) (hin : i ≤ n)
    (hx : ∀ j < n, ∀ mj ma, Turns ext "i" c.sample 0 j (Function.update m₁ "i" (intCell 0)) mj →
      Runs ext (c.fPreInst ++ c₀.fComputeInst) mj ma → l.exp.eval ext ma = some (x (t₀ + j)))
    (hturns : Turns ext "i" c.sample 0 i (Function.update m₁ "i" (intCell 0)) mi) :
    Guarded l.names [] mi ∧ l.Holds mcd x 1 (t₀ + i) mi := by
  have hindex : ∀ {m : Memory} {k t : ℕ}, Guarded l.names [] m → l.Holds mcd x 1 t m →
      Guarded l.names [] (Function.update m "i" (intCell k)) ∧
        l.Holds mcd x 1 t (Function.update m "i" (intCell k)) := by
    intro m k t hm hH
    refine ⟨hm.update (by simp [intCell, Cell.targets]) (by simp), hH.congr ?_ ?_⟩
    · exact Function.update_of_ne h.ne_index _ _
    · exact Function.update_of_ne (by decide) _ _
  induction i generalizing mi with
  | zero =>
    cases hturns with
    | none => exact hindex (k := 0) hm hH
    | turn _ hrest => exact absurd hrest.le (by omega)
  | succ i ih =>
    obtain ⟨m₂, m₃, hfirst, hrun, rfl⟩ := hturns.last (Nat.zero_le i)
    obtain ⟨hm₂, hH₂⟩ := ih (by omega) hfirst
    obtain ⟨hm₃, hH₃⟩ := h.holds_sample hmcd hm₂ hH₂
      (fun ma hma => hx i (by omega) m₂ ma hfirst hma) hrun
    exact hindex (k := i + 1) hm₃ hH₃

omit hmcd in
/-- The loop of a call executes the code of each sample in turn. -/
theorem loop_turns {n : ℕ} (hn : n < 2 ^ 31) (hm : Guarded l.names [] m)
    (hcount : m "count" = intCell n) (hrun : Runs ext [generateScalarLoop c] m m') :
    Turns ext "i" c.sample 0 n (Function.update m "i" (intCell 0)) m' := by
  refine (runs_genCountLoop (fun m => Guarded l.names [] m ∧ m "count" = intCell n) hn ?_ ?_ ?_
    ⟨hm, hcount⟩).mp hrun
  · rintro m i ⟨hm, hcount⟩
    exact ⟨hm.update (by simp [intCell, Cell.targets]) (by simp),
      (Function.update_of_ne (by decide) _ _).trans hcount⟩
  · rintro m ⟨_, hcount⟩
    exact eval_loadVar hcount
  · rintro m m₁ ⟨hm, hcount⟩ hrun
    obtain ⟨hm', hcount'⟩ := h.count.sample l.count_mem hm hrun
    exact ⟨⟨hm', hcount'.trans hcount⟩, (h.index.sample l.i_mem hm hrun).2⟩

/-- The contents at the start of a call. -/
theorem holds_call {t : ℕ} (hcall : CallAt ext c l (c.fPreInst ++ c₀.fComputeInst) x t m) :
    Guarded l.names [] m ∧ l.Holds mcd x 1 t m := by
  induction hcall with
  | first hm₀ hrun hhost =>
    obtain ⟨_, hH⟩ := h.holds_start hmcd x hm₀ hrun
    exact ⟨hhost.guarded, hH.congr hhost.array hhost.iota⟩
  | @next t n m m₁ m₂ m' _ hcount hn hblock hx hloop hhost ih =>
    obtain ⟨hm, hH⟩ := ih
    obtain ⟨hm₁, hH₁⟩ := h.holds_block hm hH hblock
    obtain ⟨_, hcount₁⟩ := hblock.keeps l.count_mem h.count.spares.2.2.1 hm
    have hturns := h.loop_turns hn hm₁ (hcount₁.trans hcount) hloop
    obtain ⟨_, hH₂⟩ := h.holds_turns hmcd hm₁ hH₁ le_rfl hx hturns
    exact ⟨hhost.guarded, hH₂.congr hhost.array hhost.iota⟩

/-- The contents at the start of a sample. -/
theorem holds_sampleAt (hsample : SampleAt ext c l (c.fPreInst ++ c₀.fComputeInst) x t m) :
    Guarded l.names [] m ∧ l.Holds mcd x 1 t m := by
  obtain ⟨t₀, n, i, m₀, m₁, rfl, hcall, _, _, _, hblock, hx, hturns⟩ := hsample
  obtain ⟨hm, hH⟩ := h.holds_call hmcd hcall
  obtain ⟨hm₁, hH₁⟩ := h.holds_block hm hH hblock
  exact h.holds_turns hmcd hm₁ hH₁ le_rfl hx hturns

/-- A compiled line delays. -/
theorem delays : l.Delays ext mcd c₀ c₁ c where
  init _ _ hm hrun := h.init_exists hmcd hm hrun
  store x t m ma hsample hbefore hx := by
    obtain ⟨hm, hH⟩ := h.holds_sampleAt hmcd hsample
    obtain ⟨_, hHa⟩ := h.holds_before hm hH hbefore
    exact h.store_exists hHa hx
  read x t m ma mb r mc delay d hsample hbefore hx hstore hafter hdelay hd := by
    obtain ⟨hm, hH⟩ := h.holds_sampleAt hmcd hsample
    obtain ⟨hma, hHa⟩ := h.holds_before hm hH hbefore
    obtain ⟨hmb, hHb⟩ := h.holds_store hma hHa hx hstore
    obtain ⟨_, hHc⟩ := h.holds_after hmb hHb hafter
    exact hHc.read h.mxd hmcd hd hdelay
  post x t m ma mb md hsample hbefore hx hstore hafter := by
    obtain ⟨hm, hH⟩ := h.holds_sampleAt hmcd hsample
    obtain ⟨hma, hHa⟩ := h.holds_before hm hH hbefore
    obtain ⟨hmb, hHb⟩ := h.holds_store hma hHa hx hstore
    obtain ⟨mc, hafter, hpost⟩ := hafter.append_inv
    obtain ⟨hmc, hHc⟩ := h.holds_after hmb hHb hafter
    by_cases hlt : (l.mxd : ℤ) < mcd
    · obtain ⟨_, hv⟩ := hpost.keeps l.vname_mem h.before.spares.2.2.2.2.2 hmc
      exact h.post_exists hmcd (hHc.congr_short hlt hv)
    · -- a ring has no code of its own at the end of a sample
      rw [pushed_eq h.pushes.post, DelayLine.postCode, if_neg hlt]
      exact ⟨md, .nil md⟩

end DelayLine.Compiled

/-! ## Compilations -/

/-- The condition under which a line is compiled. -/
def DelayLine.Fits (gMaxCopyDelay : ℤ) (l : DelayLine) : Prop :=
  l.mxd < gMaxCopyDelay ∨ l.mxd < 2 ^ 30

variable (mcd l) in
theorem generateDelayLine_isSome_iff (c : InstructionsCompiler) :
    (generateDelayLine mcd l.exp l.ctype l.vname l.mxd c).isSome ↔ l.Fits mcd := by
  unfold DelayLine.Fits
  by_cases h₀ : l.mxd = 0
  · simp [generateDelayLine, h₀]
  by_cases hlt : (l.mxd : ℤ) < mcd
  · obtain ⟨c', hc', _⟩ := @generateDelayLine_copy mcd l.exp l.ctype l.vname l.mxd h₀ hlt c
    simp [hc', hlt]
  · by_cases hmxd : 2 ^ 30 ≤ l.mxd
    · simp [generateDelayLine_none h₀ hlt hmxd, hlt]
      omega
    · obtain ⟨k, _, _, hk, _⟩ := pow2limit_of_le (x := l.mxd + 1) (by omega)
      obtain ⟨c', hc', _⟩ := @generateDelayLine_ring mcd l.exp l.ctype l.vname l.mxd h₀ hlt _ hk c
      simp [hc', hlt]
      omega

/-- A compilation succeeds when all its lines are compiled. -/
theorem compileActions_isSome_iff (mcd : ℤ) (as : List Action) (c : InstructionsCompiler) :
    (compileActions mcd as c).isSome ↔ ∀ l, .line l ∈ as → l.Fits mcd := by
  induction as generalizing c with
  | nil => simp [compileActions]
  | cons a as ih =>
    cases a with
    | line l =>
      have hline := generateDelayLine_isSome_iff mcd l c
      simp only [compileActions, Option.bind_eq_bind]
      cases hc : generateDelayLine mcd l.exp l.ctype l.vname l.mxd c with
      | none =>
        rw [hc] at hline
        simp only [Option.isSome_none, Bool.false_eq_true, false_iff] at hline
        simp only [Option.bind_none, Option.isSome_none, Bool.false_eq_true, false_iff]
        exact fun hall => hline (hall l List.mem_cons_self)
      | some r =>
        rw [hc] at hline
        simp only [Option.isSome_some, true_iff] at hline
        rw [Option.bind_some, ih]
        simp [hline]
    | other p =>
      rw [compileActions, ih]
      simp

/-- The other steps of the compilation leave the variables of a line alone. -/
theorem WellNamed.leavesAlone {as bs : List Action} (h : WellNamed (as ++ .line l :: bs)) {n : String}
    (hn : n ∈ l.names) : ∀ a ∈ as ++ bs, a.LeavesAlone l.names n := by
  intro a ha
  have hl : Action.line l ∈ as ++ .line l :: bs := by simp
  have ha' : a ∈ as ++ .line l :: bs := by
    rw [List.mem_append] at ha ⊢
    exact ha.imp_right (List.mem_cons_of_mem _)
  cases a with
  | other p => exact h.other l p hl ha' n hn
  | line l' =>
    obtain ⟨hown, hi, hcount⟩ := h.fresh l' ha'
    refine ⟨?_, h.exp l l' hl ha'⟩
    simp only [DelayLine.names, List.mem_cons, List.not_mem_nil, or_false] at hn
    obtain rfl | rfl | rfl | rfl := hn
    · -- two lines have different names
      have hdistinct := h.distinct
      rw [lineNames_append, lineNames_cons, List.nodup_append, List.nodup_cons] at hdistinct
      obtain ⟨_, ⟨hbs, _⟩, has⟩ := hdistinct
      intro heq
      obtain has' | hbs' := List.mem_append.mp ha
      · exact has l'.vname (List.mem_filterMap.mpr ⟨_, has', rfl⟩) l.vname (by simp) heq
      · exact hbs (heq ▸ List.mem_filterMap.mpr ⟨_, hbs', rfl⟩)
    · exact fun heq => hown (.inl heq)
    · exact hi
    · exact hcount

/-- What is known about a line of a compilation. -/
theorem WellNamed.compiled {as bs : List Action} (h : WellNamed (as ++ .line l :: bs))
    (hmxd : l.mxd ≠ 0) {c₀ c₁ c : InstructionsCompiler} {e : ValueInst}
    (h₀ : compileActions mcd as .start = some c₀)
    (h₁ : generateDelayLine mcd l.exp l.ctype l.vname l.mxd c₀ = some (e, c₁))
    (h₂ : compileActions mcd bs c₁ = some c) :
    ∃ size, l.Compiled mcd (lineStart mcd l c₀) c₁ c size := by
  have hl : Action.line l ∈ as ++ .line l :: bs := by simp
  obtain ⟨hown, hi, hcount⟩ := h.fresh l hl
  have hexp := h.exp l l hl hl
  have has : ∀ {n}, n ∈ l.names → ∀ a ∈ as, a.LeavesAlone l.names n :=
    fun hn a ha => h.leavesAlone hn a (List.mem_append_left _ ha)
  have hbs : ∀ {n}, n ∈ l.names → ∀ a ∈ bs, a.LeavesAlone l.names n :=
    fun hn a ha => h.leavesAlone hn a (List.mem_append_right _ ha)
  have hiota : l.vname ≠ "IOTA" := fun heq => hown (.inl heq)
  have hgrow : ∀ {n}, n ∈ l.names → ¬ IsOwnName n → l.vname ≠ n → Grows l.names n .start c :=
    fun hn hfresh hne => ((compileActions_grows hfresh (has hn) h₀).trans
      (generateDelayLine_grows hne hfresh hexp h₁)).trans (compileActions_grows hfresh (hbs hn) h₂)
  obtain ⟨hstate₀, _⟩ := IotaState.start.compileActions (has l.iota_mem) h₀
  obtain ⟨hstate₁, _, hload⟩ := hstate₀.generateDelayLine hiota hexp h₁
  obtain ⟨hstate, hmono⟩ := hstate₁.compileActions (hbs l.iota_mem) h₂
  have hbefore := compileActions_grows hown (has l.vname_mem) h₀
  have hafter := compileActions_grows hown (hbs l.vname_mem) h₂
  have hindex := hgrow l.i_mem not_isOwnName_i hi
  have hcounts := hgrow l.count_mem not_isOwnName_count hcount
  by_cases hlt : (l.mxd : ℤ) < mcd
  · obtain ⟨c', hc', hpush⟩ := generateDelayLine_copy hmxd hlt c₀
    obtain ⟨_, rfl⟩ := Prod.mk.inj (Option.some.inj (hc'.symm.trans h₁))
    refine ⟨l.mxd + 1, hmxd, hown, hi, by simp [DelayLine.Size, hlt], ?_, ?_, hafter, hindex,
      hcounts, hstate, fun hge => absurd hlt hge⟩
    · rwa [lineStart, if_pos hlt]
    · simpa only [lineStart, DelayLine.storeCode, DelayLine.postCode, if_pos hlt] using hpush
  · by_cases hbig : 2 ^ 30 ≤ l.mxd
    · rw [generateDelayLine_none hmxd hlt hbig] at h₁
      simp at h₁
    · obtain ⟨k, _, _, hk, _⟩ := pow2limit_of_le (x := l.mxd + 1) (by omega)
      obtain ⟨c', hc', hpush⟩ := generateDelayLine_ring hmxd hlt hk c₀
      obtain ⟨_, rfl⟩ := Prod.mk.inj (Option.some.inj (hc'.symm.trans h₁))
      refine ⟨2 ^ k, hmxd, hown, hi, by simp [DelayLine.Size, hlt, hk], ?_, ?_, hafter, hindex,
        hcounts, hstate, fun hge => hmono (hload hmxd hge)⟩
      · rw [lineStart, if_neg hlt]
        exact hbefore.trans (ensureIotaCode_grows hiota c₀)
      · simpa only [lineStart, DelayLine.storeCode, DelayLine.postCode, if_neg hlt] using hpush

/-- The compilation succeeds, and in the code every line delays. -/
def LinesDelay (ext : ExternFun) (gMaxCopyDelay : ℤ) (as : List Action) : Prop :=
  ∃ c, compileActions gMaxCopyDelay as .start = some c ∧
    ∀ l bs cs, as = bs ++ .line l :: cs → 1 ≤ l.mxd →
      ∃ c₀ e c₁, compileActions gMaxCopyDelay bs .start = some c₀ ∧
        generateDelayLine gMaxCopyDelay l.exp l.ctype l.vname l.mxd c₀ = some (e, c₁) ∧
        l.Delays ext gMaxCopyDelay (lineStart gMaxCopyDelay l c₀) c₁ c

/-- Every program whose lines all fit is compiled to code in which every line delays, and no
other program is compiled. -/
theorem linesDelay_iff (ext : ExternFun) {gMaxCopyDelay : ℤ} (hmcd : gMaxCopyDelay < 2 ^ 31)
    {as : List Action} (hnames : WellNamed as) :
    LinesDelay ext gMaxCopyDelay as ↔ ∀ l, .line l ∈ as → l.Fits gMaxCopyDelay := by
  rw [← compileActions_isSome_iff gMaxCopyDelay as .start, Option.isSome_iff_exists]
  constructor
  · rintro ⟨c, hc, _⟩
    exact ⟨c, hc⟩
  · rintro ⟨c, hc⟩
    refine ⟨c, hc, ?_⟩
    rintro l bs cs rfl hmxd
    rw [compileActions_append] at hc
    obtain ⟨c₀, h₀, hrest⟩ := Option.bind_eq_some_iff.mp hc
    simp only [compileActions, Option.bind_eq_bind, Option.bind_eq_some_iff] at hrest
    obtain ⟨⟨e, c₁⟩, h₁, h₂⟩ := hrest
    obtain ⟨size, hcompiled⟩ := hnames.compiled (by omega) h₀ h₁ h₂
    exact ⟨c₀, e, c₁, h₀, h₁, hcompiled.delays hmcd⟩

/-! ## Examples -/

/-- The sample at the input. -/
def inputSample : ValueInst := .loadArrayVar ⟨"input0", .kStack⟩ (genLoadLoopVar "i")

/-- `process = _ <: @(3), @(100) :> _;` with a line for each delay. -/
def echo : List Action :=
  [.line ⟨inputSample, .kFloat, "fVec0", 3⟩, .line ⟨inputSample, .kFloat, "fVec1", 100⟩,
    .other (.compute (.storeArrayVar ⟨"output0", .kStack⟩ (genLoadLoopVar "i")
      (genAdd (genLoadArrayStructVar "fVec0" (.intNum 3))
        (genLoadArrayStructVar "fVec1"
          (genAnd (genSub (genLoadStructVar "IOTA") (.intNum 100)) (.intNum 127))))))]

theorem not_isOwnName_of_head {n : String} {c : Char} {cs : List Char} (hn : n.toList = c :: cs)
    (hI : c ≠ 'I') (hi : c ≠ 'i') (hj : c ≠ 'j') : ¬ IsOwnName n := by
  rintro (rfl | ⟨k, h | h⟩)
  · exact hI (List.cons.inj hn).1.symm
  · exact append_toString_ne k (c := 'i') rfl hn (.inl (by simpa using hi)) h
  · exact append_toString_ne k (c := 'j') rfl hn (.inl (by simpa using hj)) h

theorem echo_wellNamed : WellNamed echo where
  distinct := by decide
  fresh := by
    intro l hl
    simp only [echo, List.mem_cons, Action.line.injEq, reduceCtorEq, List.not_mem_nil,
      or_false] at hl
    obtain rfl | rfl := hl
    · exact ⟨not_isOwnName_of_head (c := 'f') rfl (by decide) (by decide) (by decide), by decide,
        by decide⟩
    · exact ⟨not_isOwnName_of_head (c := 'f') rfl (by decide) (by decide) (by decide), by decide,
        by decide⟩
  exp := by
    intro l l' _ hl'
    simp only [echo, List.mem_cons, Action.line.injEq, reduceCtorEq, List.not_mem_nil,
      or_false] at hl'
    obtain rfl | rfl := hl' <;> trivial
  other := by
    intro l p hl hp n hn
    simp only [echo, List.mem_cons, Action.other.injEq, Action.line.injEq, reduceCtorEq,
      List.not_mem_nil, or_false, false_or] at hl hp
    subst hp
    obtain rfl | rfl := hl <;>
    · simp only [DelayLine.names, List.mem_cons, List.not_mem_nil, or_false] at hn
      obtain rfl | rfl | rfl | rfl := hn <;> simp [Push.statement, StatementInst.Spares]

theorem linesDelay_iff_echo : LinesDelay (fun _ _ => none) 16 echo := by
  refine (linesDelay_iff (fun _ _ => none) (by norm_num) echo_wellNamed).mpr ?_
  intro l hl
  simp only [echo, List.mem_cons, Action.line.injEq, reduceCtorEq, List.not_mem_nil,
    or_false] at hl
  obtain rfl | rfl := hl <;> exact .inr (by norm_num)

/-- `process = @(1073741824);`. -/
def longEcho : List Action := [.line ⟨inputSample, .kFloat, "fVec0", 2 ^ 30⟩]

/-- No code is generated for a delay of `2 ^ 30` samples. -/
theorem not_linesDelay_longEcho : ¬ LinesDelay (fun _ _ => none) 16 longEcho := by
  intro h
  obtain ⟨c, hc, -⟩ := h
  have hnone : generateDelayLine 16 inputSample .kFloat "fVec0" (2 ^ 30) .start = none :=
    generateDelayLine_none (by norm_num) (by norm_num) le_rfl _
  simp only [longEcho, compileActions, hnone] at hc
  cases hc

end Faust.Fir
