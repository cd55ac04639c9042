import Faust.Generator.VecDelayLineTheorems

/-!
# Components of vector code

A delay line, or the index of a waveform, is a piece of the code of a loop with variables of its
own. `Component` says what the pieces that it pushes on the sections do to these variables; the
rest of the program leaves them alone.
-/

namespace Faust.Fir

open InstBuilder DelayBuffer

/-! ## Variables -/

/-- The variables that the loops on blocks and on samples write. -/
def controls : List String := ["i", "count", "index", "fullcount"]

/-- The variables `names` have the same contents. -/
def AgreeOn (names : List String) (m m' : Memory) : Prop := ∀ a ∈ names, m' a = m a

theorem AgreeOn.trans {names : List String} {m m₁ m₂ : Memory} (h : AgreeOn names m m₁)
    (h' : AgreeOn names m₁ m₂) : AgreeOn names m m₂ :=
  fun a ha => (h' a ha).trans (h a ha)

/-- Only `pointers` point to `names` or to a control. -/
abbrev Protected (names pointers : List String) (m : Memory) : Prop :=
  Guarded (names ++ controls) pointers m

/-- The controls are left alone, and no pointers to them or to `names` are made. -/
def Kept (names pointers : List String) (m m' : Memory) : Prop :=
  Protected names pointers m → Protected names pointers m' ∧ AgreeOn controls m m'

variable {ext : ExternFun} {names pointers : List String} {m m₁ m₂ m' : Memory}

theorem Kept.refl (m : Memory) : Kept names pointers m m := fun h => ⟨h, fun _ _ => rfl⟩

theorem Kept.trans (h : Kept names pointers m m₁) (h' : Kept names pointers m₁ m₂) :
    Kept names pointers m m₂ := by
  intro hm
  obtain ⟨hm₁, hc₁⟩ := h hm
  obtain ⟨hm₂, hc₂⟩ := h' hm₁
  exact ⟨hm₂, hc₁.trans hc₂⟩

/-- A variable gets a new contents that is no pointer, or is a pointer by right. -/
theorem Kept.update {n : String} {c : Cell} (hn : n ∉ controls)
    (htargets : n ∉ pointers → ∀ b ∈ c.targets, b ∉ names ++ controls)
    (hsingle : n ∈ pointers → ∀ ps, c ≠ .pointers ps) :
    Kept names pointers m (Function.update m n c) := by
  intro hm
  refine ⟨hm.update htargets hsingle, fun a ha => ?_⟩
  have hne : a ≠ n := fun hne => hn (hne ▸ ha)
  exact Function.update_of_ne hne _ _

/-- A variable gets a number or an array. -/
theorem Kept.update_data {n : String} {c : Cell} (hn : n ∉ controls) (htargets : c.targets = [])
    (hsingle : ∀ ps, c ≠ .pointers ps) : Kept names pointers m (Function.update m n c) :=
  Kept.update hn (fun _ b hb => by simp [htargets] at hb) fun _ => hsingle

/-- Code that spares the controls. -/
theorem Kept.of_runs {ss : List StatementInst} (hpointers : ∀ p ∈ pointers, p ∈ names)
    (hss : SparesAll controls (names ++ controls) pointers ss) (h : Runs ext ss m m') :
    Kept names pointers m m' := by
  intro hm
  obtain ⟨_, hm', hkeep⟩ := steps_spares (fun a ha => List.mem_append_right _ ha)
    (fun p hp => List.mem_append_left _ (hpointers p hp)) hss hm h
  exact ⟨hm', hkeep⟩

/-! ## Components -/

/-- The variables of a component, those of them that point to others, and those that are kept
between calls. -/
structure Variables where
  names : List String
  pointers : List String
  persistent : List String

/-- A piece of the code of a loop: the code `own` that it pushes, its variables, and what is known
of them. `Held t` is between two calls, after `t` samples; `Open t` at the start of a block; the
block has stored its first `k` values in `Stored t k`; its code is finished in `Done t n`. The
value that is stored is the one of `exp`, if there is one, and the signal is `x`. -/
structure Component (ext : ExternFun) (x : ℕ → Val) (gVecSize : ℕ) (own : Sections)
    (exp : Option ValueInst) extends Variables where
  Declared : Memory → Prop
  Held : ℕ → Memory → Prop
  Open : ℕ → Memory → Prop
  Stored : ℕ → ℕ → Memory → Prop
  Done : ℕ → ℕ → Memory → Prop
  pointers_mem : ∀ p ∈ pointers, p ∈ names
  persistent_mem : ∀ p ∈ persistent, p ∈ names
  declared_congr : ∀ {m m'}, AgreeOn names m m' → Declared m → Declared m'
  held_congr : ∀ {t m m'}, AgreeOn persistent m m' → Held t m → Held t m'
  open_congr : ∀ {t m m'}, AgreeOn names m m' → Open t m → Open t m'
  stored_congr : ∀ {t k m m'}, AgreeOn names m m' → Stored t k m → Stored t k m'
  done_congr : ∀ {t n m m'}, AgreeOn names m m' → Done t n m → Done t n m'
  declare : ∀ m, ∃ m', Runs ext own.declare m m' ∧ Declared m' ∧ Kept names pointers m m'
  init : ∀ m, Declared m → ∃ m', Runs ext own.init m m' ∧ Held 0 m' ∧ Kept names pointers m m'
  block : ∀ t m, Held t m → ∃ m', Runs ext own.block m m' ∧ Open t m' ∧ Kept names pointers m m'
  pre : ∀ t m, Open t m → ∃ m', Runs ext own.pre m m' ∧ Stored t 0 m' ∧ Kept names pointers m m'
  store : ∀ t k m, Stored t k m → k < gVecSize → m "i" = intCell k →
    (∀ e ∈ exp, e.eval ext m = some (x (t + k))) →
    ∃ m', Runs ext own.compute m m' ∧ Stored t (k + 1) m' ∧ Kept names pointers m m'
  idle : own.compute = [] → ∀ {t m}, Stored t 0 m → ∀ n, Stored t n m
  post : ∀ t n m, Stored t n m → n ≤ gVecSize → m "count" = intCell n →
    ∃ m', Runs ext own.post m m' ∧ Done t n m' ∧ Kept names pointers m m'
  done_open : ∀ {t n m}, Done t n m → Open (t + n) m
  open_held : ∀ {t m}, Open t m → Held t m

/-- A name that no loop uses. -/
def IsFresh (n : String) : Prop := n ∉ controls ∧ n ≠ "j" ∧ ¬ IsOwnName n

/-! ## Stacks of a block -/

/-- An element of an array is named the same way after an assignment to the array. -/
theorem resolve_update_array {base : String} {vs vs' : List (Option Val)}
    (hbase : m base = .array vs) (n : String) (i : ℤ) :
    Memory.resolve (Function.update m base (.array vs')) n i = m.resolve n i := by
  by_cases hn : n = base
  · subst hn
    rw [resolve_array (Function.update_self ..), resolve_array hbase]
  · simp [Memory.resolve, Function.update_of_ne hn]

theorem resolve_congr {n : String} (h : m' n = m n) (i : ℤ) : m'.resolve n i = m.resolve n i := by
  simp [Memory.resolve, h]

/-- The array of a block, of `size` samples after the `r` samples before the block, in which
`n` values from time `s` on are stored. Element 0 of `vname` is the first sample of the block. -/
def Buffered (z : Val) (x : ℕ → Val) (vname base : String) (r size : ℕ) (s : ℤ) (n : ℕ)
    (m : Memory) : Prop :=
  (∀ i, m.resolve vname i = (base, r + i)) ∧ ∃ vs, m base = .array vs ∧ vs.length = size + r ∧
    Window (some z) (fun t => some (x t)) s n vs

namespace Buffered

variable {z : Val} {x : ℕ → Val} {vname base : String} {r size : ℕ} {s : ℤ} {n t k : ℕ}

theorem congr (h : Buffered z x vname base r size s n m) (hv : m' vname = m vname)
    (hb : m' base = m base) : Buffered z x vname base r size s n m' := by
  refine ⟨fun i => (resolve_congr hv i).trans (h.1 i), ?_⟩
  rw [hb]
  exact h.2

/-- The values are forgotten. -/
theorem reset (h : Buffered z x vname base r size s n m) (s' : ℤ) :
    Buffered z x vname base r size s' 0 m := by
  obtain ⟨hres, vs, hvs, hlen, _⟩ := h
  exact ⟨hres, vs, hvs, hlen, window_zero _ _ _ _⟩

/-- Sample `k` of the block that starts at time `t` is stored. -/
theorem store (h : Buffered z x vname base r size (t - r) (r + k) m) (hk : k < size)
    (hsize : size + r < 2 ^ 31) (hi : m "i" = intCell k) {e : ValueInst}
    (he : e.eval ext m = some (x (t + k))) :
    ∃ vs, step ext ([genStoreArrayStackVar vname DAGInstructionsCompiler.getCurrentLoopIndex e], m) =
        some ([], Function.update m base (.array vs)) ∧
      Buffered z x vname base r size (t - r) (r + (k + 1))
        (Function.update m base (.array vs)) := by
  obtain ⟨hres, vs, hvs, hlen, hwin⟩ := h
  have hindex : m.resolve vname (BitVec.ofInt 32 (k : ℤ)).toInt = (base, ((r + k : ℕ) : ℤ)) := by
    rw [toInt_ofInt_of_lt (by omega), hres]
    push_cast
    rfl
  have hstep := step_storeArrayVar_resolve ext (a := ⟨vname, .kStack⟩)
    (eval_genLoadLoopVar ext hi) hindex hvs (by omega) he
  refine ⟨_, hstep, fun i => ?_, _, Function.update_self .., by rw [List.length_set, hlen], ?_⟩
  · rw [resolve_update_array hvs, hres]
  · exact hwin.store (by omega) (by push_cast; ring)

/-- The value of sample `i` of the block is read with a delay of `d` samples. -/
theorem read (h : Buffered z x vname base r size (t - r) (r + k) m) {i d : ℕ} (hik : i < k)
    (hd : d ≤ r) (hsize : size + r < 2 ^ 31) (hk : k ≤ size) {e : ValueInst}
    (he : e.eval ext m = some (.int (.ofInt 32 (i - d)))) :
    (genLoadArrayStackVar vname e).eval ext m =
      history (some z) (fun t => some (x t)) ((t + i : ℕ) - d) := by
  obtain ⟨hres, vs, hvs, hlen, hwin⟩ := h
  obtain ⟨q, hq⟩ : ∃ q : ℕ, q + d = r + i := ⟨r + i - d, by omega⟩
  have hindex : m.resolve vname (BitVec.ofInt 32 ((i : ℤ) - d)).toInt = (base, (q : ℤ)) := by
    rw [toInt_ofInt_of_le (by omega) (by omega), hres]
    congr 1
    omega
  apply eval_loadArrayVar_resolve (a := ⟨vname, .kStack⟩) he hindex hvs
  rw [hwin.2 q (by omega)]
  congr 2
  push_cast
  omega

end Buffered

/-! ## Lines on the stack -/

section
variable {n : String} {v w : Option Val} {i : ℤ}

variable (ext) in
theorem step_declareArray {a : NamedAddress} (ctype : VarType) {size : ℕ} (hsize : 0 < size)
    (m : Memory) : step ext ([.declareVar a (.array ctype size) none], m) =
      some ([], Function.update m a.fName (.array (List.replicate size none))) := by
  obtain ⟨k, rfl⟩ := Nat.exists_eq_succ_of_ne_zero hsize.ne'
  rfl

variable (ext) in
/-- A pointer to element `r` of an array is declared. -/
theorem step_declarePointer (vname : String) {base : String} (ctype : VarType) {r : ℕ} (hr : r < 2 ^ 31)
    {vs : List (Option Val)} (hbase : m base = .array vs) :
    step ext ([genDecStackVar vname (.array ctype 0)
        (some (genLoadArrayStackVarAddress base (.intNum r)))], m) =
      some ([], Function.update m vname (.pointer (some (base, r)))) := by
  have haddr : (genLoadArrayStackVarAddress base (.intNum r)).evalPointer ext m =
      some (base, (r : ℤ)) := by
    show some (m.resolve base (BitVec.ofInt 32 r).toInt) = _
    rw [toInt_ofInt_of_lt hr, resolve_array hbase]
  simp [genDecStackVar, step, declareCell, haddr]

variable (ext) in
/-- A variable that holds a number, or none yet, is assigned. -/
theorem step_storeVar_scalar {a : NamedAddress} {e : ValueInst} (ha : m a.fName = .scalar v)
    (he : e.eval ext m = some (.int (.ofInt 32 i))) :
    step ext ([.storeVar a e], m) = some ([], Function.update m a.fName (intCell i)) := by
  simp [step, storeCell, ha, he, intCell]

end

/-- A loop that fills an array leaves the other variables alone. -/
theorem fillLoop_spares {W S P : List String} {index : String} {end_ i v : ValueInst}
    {a : NamedAddress} (hi : index ∉ W) (ha : a.fName ∉ W) (hP : a.fName ∉ P) :
    SparesAll W S P [genCountLoop index end_ [.storeArrayVar a i v]] := by
  simp [SparesAll, genCountLoop, StatementInst.Spares, genDecLoopVar, genStoreLoopVar,
    ValueInst.Confines, genAdd, hi, ha, hP]

open DAGInstructionsCompiler

section
variable (ext) (x : ℕ → Val) {gVecSize : ℕ} (ctype : VarType) {vname : String} (exp : ValueInst)

/-- A line without delay: an array of one block. -/
def vectorComponent (hpos : 0 < gVecSize) (hsize : gVecSize < 2 ^ 31) (hfresh : IsFresh vname) :
    Component ext x gVecSize (vectorCode gVecSize ctype vname exp) (some exp) where
  names := [vname]
  pointers := []
  persistent := []
  Declared _ := True
  Held _ _ := True
  Open t := Buffered (zeroVal ctype) x vname vname 0 gVecSize (t - (0 : ℕ)) 0
  Stored t k := Buffered (zeroVal ctype) x vname vname 0 gVecSize (t - (0 : ℕ)) (0 + k)
  Done t n := Buffered (zeroVal ctype) x vname vname 0 gVecSize (t - (0 : ℕ)) (0 + n)
  pointers_mem := by simp
  persistent_mem := by simp
  declared_congr _ h := h
  held_congr _ h := h
  open_congr h ho := ho.congr (h _ (by simp)) (h _ (by simp))
  stored_congr h hs := hs.congr (h _ (by simp)) (h _ (by simp))
  done_congr h hd := hd.congr (h _ (by simp)) (h _ (by simp))
  declare m := ⟨m, .nil m, trivial, .refl m⟩
  init m _ := ⟨m, .nil m, trivial, .refl m⟩
  block t m _ := by
    refine ⟨_, (runs_singleton (step_declareArray ext ctype hpos m)).mpr rfl, ⟨fun i => ?_, _,
      Function.update_self .., by simp, window_zero _ _ _ _⟩,
      .update_data hfresh.1 rfl (by simp)⟩
    rw [resolve_array (Function.update_self ..)]
    simp
  pre t m h := ⟨m, .nil m, h, .refl m⟩
  store t k m h hk hi hexp := by
    obtain ⟨vs, hstep, hstored⟩ := h.store hk (by omega) hi (hexp exp rfl)
    exact ⟨_, (runs_singleton hstep).mpr rfl, hstored, .update_data hfresh.1 rfl (by simp)⟩
  idle h := by simp [vectorCode] at h
  post t n m h _ _ := ⟨m, .nil m, h, .refl m⟩
  done_open h := h.reset _
  open_held _ := trivial

end

/-! ## Short lines -/

/-- An array holds the last `r` values before time `t`. -/
def Saved (z : Val) (x : ℕ → Val) (perm : String) (r t : ℕ) (m : Memory) : Prop :=
  ∃ vs, m perm = .array vs ∧ vs.length = r ∧
    Window (some z) (fun s => some (x s)) (t - r) r vs

theorem Saved.congr {z : Val} {x : ℕ → Val} {perm : String} {r t : ℕ}
    (h : Saved z x perm r t m) (hp : m' perm = m perm) : Saved z x perm r t m' := by
  unfold Saved
  rwa [hp]

/-- The samples of a window are numbers. -/
theorem window_initialised {z : Val} {x : ℕ → Val} {s : ℤ} {n : ℕ} {vs : List (Option Val)}
    (h : Window (some z) (fun t => some (x t)) s n vs) :
    ∃ f : ℕ → Val, ∀ j < n, vs[j]? = some (some (f j)) := by
  have hval : ∀ j, ∃ w, j < n → vs[j]? = some (some w) := by
    intro j
    by_cases hj : j < n
    · exact ⟨_, fun _ => by rw [h.2 j hj, (exists_history z x (s + j)).choose_spec]⟩
    · exact ⟨z, fun hj' => absurd hj' hj⟩
  choose f hf using hval
  exact ⟨f, hf⟩

section
variable {z : Val} {x : ℕ → Val} {vname perm tmp : String} {r size t n : ℕ}

variable (ext) in
/-- The samples before the block are copied from the permanent array. -/
theorem runs_copyLoop {j : String} (hj : j ≠ perm ∧ j ≠ tmp) (htmp : tmp ≠ perm)
    (hr : r < 2 ^ 31) (hsaved : Saved z x perm r t m) {s : ℤ}
    (hbuf : Buffered z x vname tmp r size s 0 m) (hv : vname ≠ j ∧ vname ≠ tmp) :
    ∃ m', Runs ext [copyLoop j tmp perm r] m m' ∧ m' perm = m perm ∧
      Buffered z x vname tmp r size (t - r) r m' := by
  obtain ⟨ps, hps, hplen, hwin⟩ := hsaved
  obtain ⟨hres, vs, hvs, hlen, _⟩ := hbuf
  obtain ⟨f, hf⟩ := window_initialised hwin
  obtain ⟨m', vs', hrun, hframe, hvs', hlen', hfill⟩ := runs_fillLoop ext .kStack
    (genLoadArrayStructVar perm (genLoadLoopVar j)) f hj.2 hr hvs
    (by omega) fun m' k hk hkeep hidx => eval_loadArrayVar (a := ⟨perm, .kStruct⟩)
      ((hkeep perm hj.1.symm htmp.symm).trans hps) (eval_genLoadLoopVar ext hidx)
      (toInt_ofInt_of_lt (by omega)) (hf k hk)
  refine ⟨m', hrun, hframe perm hj.1.symm htmp.symm, fun i => ?_, vs', hvs', hlen'.trans hlen, ?_⟩
  · exact (resolve_congr (hframe vname hv.1 hv.2) i).trans (hres i)
  · have hcopy := hwin.copy vs' 0 r (by omega) (by omega) fun k hk => by
      rw [hfill k hk, zero_add, hf k hk]
    simpa using hcopy

variable (ext) in
/-- The last samples of the block are copied to the permanent array. -/
theorem runs_copyBack (hj : "j" ≠ perm ∧ "j" ≠ tmp) (htmp : tmp ≠ perm) (hsize : size + r < 2 ^ 31)
    (hn : n ≤ size) (hcount : m "count" = intCell n) (hne : "count" ≠ perm)
    {ps : List (Option Val)} (hps : m perm = .array ps) (hplen : ps.length = r)
    (hbuf : Buffered z x vname tmp r size (t - r) (r + n) m) (hv : vname ≠ "j" ∧ vname ≠ perm) :
    ∃ m', Runs ext [generateCopyBackArray perm tmp r] m m' ∧ Saved z x perm r (t + n) m' ∧
      Buffered z x vname tmp r size (t - r) (r + n) m' := by
  have hbuf' := hbuf
  obtain ⟨hres, vs, hvs, hlen, hwin⟩ := hbuf
  obtain ⟨f, hf⟩ := window_initialised hwin
  obtain ⟨m', ps', hrun, hframe, hps', hlen', hfill⟩ := runs_fillLoop ext .kStruct
    (genLoadArrayStackVar tmp (genAdd (genLoadStackVar "count") (genLoadLoopVar "j")))
    (fun k => f (n + k)) hj.1 (show r < 2 ^ 31 by omega) hps (by omega)
    fun m' k hk hkeep hidx => by
      have hindex := eval_genAdd (eval_genLoadStackVar ext
        ((hkeep "count" (by decide) hne).trans hcount)) (eval_genLoadLoopVar ext hidx)
      rw [← Nat.cast_add] at hindex
      exact eval_loadArrayVar (a := ⟨tmp, .kStack⟩) ((hkeep tmp hj.2.symm htmp).trans hvs) hindex
        (toInt_ofInt_of_lt (by omega)) (hf (n + k) (by omega))
  refine ⟨m', hrun, ⟨ps', hps', hlen'.trans hplen, ?_⟩,
    hbuf'.congr (hframe _ hv.1 hv.2) (hframe _ hj.2.symm htmp)⟩
  have hcopy := hwin.copy ps' n r (by omega) (by omega) fun k hk => by
    rw [hfill k hk, hf (n + k) (by omega)]
  have hs : ((t + n : ℕ) : ℤ) - r = (t : ℤ) - r + n := by
    push_cast
    ring
  rwa [hs]

end

theorem append_ne_self (n : String) {s : String} (hs : s ≠ "") : n ++ s ≠ n := by
  intro h
  have hlen := congrArg String.length h
  rw [String.length_append] at hlen
  exact hs (String.length_eq_zero_iff.mp (by omega))

theorem append_ne_append (n : String) {s t : String} (hst : s ≠ t) : n ++ s ≠ n ++ t :=
  fun h => hst ((String.append_right_inj n).mp h)

section
variable (ext) (x : ℕ → Val) {gVecSize r : ℕ} (ctype : VarType) {vname : String} (exp : ValueInst)

/-- A short line: the array of a block with the samples before it, which are kept in a permanent
array between blocks. -/
def copyComponent (hpos : 0 < r) (hsize : gVecSize + r < 2 ^ 31) {i j : String}
    (hfresh : ∀ n ∈ [vname, vname ++ "_tmp", vname ++ "_perm"], IsFresh n ∧ n ≠ i ∧ n ≠ j)
    (hi : i ∉ controls) (hj : j ∉ controls) :
    Component ext x gVecSize (copyCode gVecSize ctype vname exp r i j) (some exp) where
  names := [vname, vname ++ "_tmp", vname ++ "_perm"]
  pointers := [vname]
  persistent := [vname ++ "_perm"]
  Declared m := ∃ vs, m (vname ++ "_perm") = .array vs ∧ vs.length = r
  Held := Saved (zeroVal ctype) x (vname ++ "_perm") r
  Open t m := Saved (zeroVal ctype) x (vname ++ "_perm") r t m ∧
    Buffered (zeroVal ctype) x vname (vname ++ "_tmp") r gVecSize (t - r) 0 m
  Stored t k m := (∃ vs, m (vname ++ "_perm") = .array vs ∧ vs.length = r) ∧
    Buffered (zeroVal ctype) x vname (vname ++ "_tmp") r gVecSize (t - r) (r + k) m
  Done t n m := Saved (zeroVal ctype) x (vname ++ "_perm") r (t + n) m ∧
    Buffered (zeroVal ctype) x vname (vname ++ "_tmp") r gVecSize (t - r) (r + n) m
  pointers_mem := by simp
  persistent_mem := by simp
  declared_congr h hd := by
    rw [h _ (by simp)]
    exact hd
  held_congr h hh := hh.congr (h _ (by simp))
  open_congr h ho := ⟨ho.1.congr (h _ (by simp)), ho.2.congr (h _ (by simp)) (h _ (by simp))⟩
  stored_congr h hs := by
    refine ⟨?_, hs.2.congr (h _ (by simp)) (h _ (by simp))⟩
    rw [h _ (by simp)]
    exact hs.1
  done_congr h hd := ⟨hd.1.congr (h _ (by simp)), hd.2.congr (h _ (by simp)) (h _ (by simp))⟩
  declare m := by
    refine ⟨_, (runs_singleton (step_declareArray ext ctype hpos m)).mpr rfl,
      ⟨_, Function.update_self .., by simp⟩, .update_data ?_ rfl (by simp)⟩
    exact (hfresh _ (by simp)).1.1
  init m hd := by
    obtain ⟨vs, hvs, hlen⟩ := hd
    obtain ⟨m', hrun, hzero, _⟩ := runs_initLoop ext ctype (hfresh _ (by simp)).2.1.symm
      (show r < 2 ^ 31 by omega) hvs hlen
    refine ⟨m', hrun, ⟨_, hzero, by simp, ?_⟩, .of_runs (by simp) (fillLoop_spares hi ?_ ?_) hrun⟩
    · simpa using window_replicate (some (zeroVal ctype)) (fun s => some (x s)) r
    · exact (hfresh _ (by simp)).1.1
    · simp
  block t m hh := by
    have htmp : vname ++ "_tmp" ≠ vname := append_ne_self vname (by decide)
    have hperm : vname ++ "_perm" ≠ vname := append_ne_self vname (by decide)
    have hne : vname ++ "_perm" ≠ vname ++ "_tmp" := append_ne_append vname (by decide)
    have hdec := step_declareArray ext (a := ⟨vname ++ "_tmp", .kStack⟩) ctype
      (show 0 < gVecSize + r by omega) m
    have haddr := step_declarePointer ext vname ctype
      (show r < 2 ^ 31 by omega) (Function.update_self (vname ++ "_tmp")
        (.array (List.replicate (gVecSize + r) none)) m)
    refine ⟨_, Runs.append ((runs_singleton hdec).mpr rfl) ((runs_singleton haddr).mpr rfl),
      ⟨hh.congr ?_, fun i => ?_, List.replicate (gVecSize + r) none, ?_, List.length_replicate,
        window_zero _ _ _ _⟩,
      .trans (.update_data (hfresh _ (by simp)).1.1 rfl (by simp))
        (.update (hfresh _ (by simp)).1.1 (by simp) (by simp))⟩
    · rw [Function.update_of_ne hperm, Function.update_of_ne hne]
    · simp [Memory.resolve]
    · rw [Function.update_of_ne htmp, Function.update_self]
  pre t m ho := by
    obtain ⟨m', hrun, hperm, hbuf⟩ := runs_copyLoop ext (j := j)
      ⟨(hfresh _ (by simp)).2.2.symm, (hfresh _ (by simp)).2.2.symm⟩
      (append_ne_append vname (by decide)) (show r < 2 ^ 31 by omega) ho.1 ho.2
      ⟨(hfresh _ (by simp)).2.2, (append_ne_self vname (by decide)).symm⟩
    obtain ⟨vs, hvs, hlen, _⟩ := ho.1
    refine ⟨m', hrun, ⟨⟨vs, hperm.trans hvs, hlen⟩, hbuf⟩,
      .of_runs (by simp) (fillLoop_spares hj ?_ ?_) hrun⟩
    · exact (hfresh _ (by simp)).1.1
    · simp
  store t k m hs hk hidx hexp := by
    have hne : vname ++ "_perm" ≠ vname ++ "_tmp" := append_ne_append vname (by decide)
    obtain ⟨vs, hstep, hstored⟩ := hs.2.store hk hsize hidx (hexp exp rfl)
    refine ⟨_, (runs_singleton hstep).mpr rfl, ⟨?_, hstored⟩,
      .update_data (hfresh _ (by simp)).1.1 rfl (by simp)⟩
    rw [Function.update_of_ne hne]
    exact hs.1
  idle h := by simp [copyCode] at h
  post t n m hs hn hcount := by
    obtain ⟨⟨ps, hps, hplen⟩, hbuf⟩ := hs
    have hne : vname ++ "_tmp" ≠ vname ++ "_perm" := append_ne_append vname (by decide)
    obtain ⟨m', hrun, hsaved, hbuf'⟩ := runs_copyBack ext
      ⟨(hfresh _ (by simp)).1.2.1.symm, (hfresh _ (by simp)).1.2.1.symm⟩ hne hsize hn hcount
      (fun heq => (hfresh (vname ++ "_perm") (by simp)).1.1 (heq ▸ by decide)) hps hplen hbuf
      ⟨(hfresh _ (by simp)).1.2.1, (append_ne_self vname (by decide)).symm⟩
    refine ⟨m', hrun, ⟨hsaved, hbuf'⟩,
      .of_runs (by simp) (fillLoop_spares (by decide) ?_ ?_) hrun⟩
    · exact (hfresh _ (by simp)).1.1
    · simp
  done_open h := ⟨h.1, h.2.reset _⟩
  open_held h := h.1

end

/-! ## Long lines -/

/-- A ring of `size` elements holds the values before time `w`. -/
def RingAt (z : Val) (x : ℕ → Val) (vname : String) (size : ℕ) (w : ℤ) (m : Memory) : Prop :=
  ∃ vs, m vname = .array vs ∧ vs.length = size ∧ Ring (some z) (fun s => some (x s)) w vs

namespace RingAt

variable {z : Val} {x : ℕ → Val} {vname : String} {p : ℕ}

theorem congr {size : ℕ} {w : ℤ} (h : RingAt z x vname size w m) (hv : m' vname = m vname) :
    RingAt z x vname size w m' := by
  unfold RingAt
  rwa [hv]

/-- The value of time `t` is stored at its place. -/
theorem store {t : ℕ} (hp : p ≤ 30) (h : RingAt z x vname (2 ^ p) t m) {index e : ValueInst}
    (hindex : index.eval ext m = some (.int (.ofInt 32 (t % 2 ^ p))))
    (he : e.eval ext m = some (x t)) :
    ∃ vs, step ext ([genStoreArrayStructVar vname index e], m) =
        some ([], Function.update m vname (.array vs)) ∧
      RingAt z x vname (2 ^ p) (t + 1) (Function.update m vname (.array vs)) := by
  obtain ⟨vs, hvs, hlen, hring⟩ := h
  have hcast : ((vs.length : ℕ) : ℤ) = 2 ^ p := by rw [hlen]; push_cast; rfl
  have hpos : 0 < vs.length := by rw [hlen]; positivity
  have hlt := Int.emod_lt_of_pos (t : ℤ) (show (0 : ℤ) < 2 ^ p by positivity)
  have hstep := step_storeArrayVar ext (a := ⟨vname, .kStruct⟩) hvs hindex
    (toInt_ofInt_emod hp t) (by omega) he
  refine ⟨_, hstep, _, Function.update_self .., by rw [List.length_set, hlen], ?_⟩
  have hstored := hring.store hpos
  rwa [hcast] at hstored

/-- The value of time `s` is read at its place. -/
theorem read {w s : ℤ} (hp : p ≤ 30) (h : RingAt z x vname (2 ^ p) w m) (hlo : w - 2 ^ p ≤ s)
    (hhi : s < w) {index : ValueInst}
    (hindex : index.eval ext m = some (.int (.ofInt 32 (s % 2 ^ p)))) :
    (genLoadArrayStructVar vname index).eval ext m =
      history (some z) (fun t => some (x t)) s := by
  obtain ⟨vs, hvs, hlen, hring⟩ := h
  have hcast : ((vs.length : ℕ) : ℤ) = 2 ^ p := by rw [hlen]; push_cast; rfl
  have hget := hring s (by rw [hcast]; exact hlo) hhi
  rw [hcast] at hget
  exact eval_loadArrayVar hvs hindex (toInt_ofInt_emod hp s) hget

end RingAt

section
variable (ext) (x : ℕ → Val) {gVecSize p : ℕ} (ctype : VarType) {vname : String}
  (exp : ValueInst)

/-- A long line: a ring, and the place where the block starts in it. The size of the block before
is added to this place when a block starts. -/
def ringComponent (hp : p ≤ 30) {i : String}
    (hfresh : ∀ n ∈ [vname, vname ++ "_idx", vname ++ "_idx_save"], IsFresh n ∧ n ≠ i)
    (hi : i ∉ controls) :
    Component ext x gVecSize (ringCode ctype vname exp (2 ^ p) i) (some exp) where
  names := [vname, vname ++ "_idx", vname ++ "_idx_save"]
  pointers := []
  persistent := [vname, vname ++ "_idx", vname ++ "_idx_save"]
  Declared m := (∃ vs, m vname = .array vs ∧ vs.length = 2 ^ p) ∧
    m (vname ++ "_idx") = .scalar none ∧ m (vname ++ "_idx_save") = .scalar none
  Held t m := RingAt (zeroVal ctype) x vname (2 ^ p) t m ∧ ∃ a b : ℤ,
    m (vname ++ "_idx") = intCell a ∧ m (vname ++ "_idx_save") = intCell b ∧
      (a + b) % 2 ^ p = t % 2 ^ p
  Open t m := RingAt (zeroVal ctype) x vname (2 ^ p) t m ∧ ∃ a b : ℤ,
    m (vname ++ "_idx") = intCell a ∧ m (vname ++ "_idx_save") = intCell b ∧
      (a + b) % 2 ^ p = t % 2 ^ p
  Stored t k m := RingAt (zeroVal ctype) x vname (2 ^ p) (t + k : ℕ) m ∧
    m (vname ++ "_idx") = intCell (t % 2 ^ p) ∧ ∃ v, m (vname ++ "_idx_save") = .scalar v
  Done t n m := RingAt (zeroVal ctype) x vname (2 ^ p) (t + n : ℕ) m ∧
    m (vname ++ "_idx") = intCell (t % 2 ^ p) ∧ m (vname ++ "_idx_save") = intCell n
  pointers_mem := by simp
  persistent_mem := fun _ h => h
  declared_congr h hd := by
    rw [h _ (by simp), h _ (by simp), h _ (by simp)]
    exact hd
  held_congr h hh := by
    refine ⟨hh.1.congr (h _ (by simp)), ?_⟩
    rw [h _ (by simp), h _ (by simp)]
    exact hh.2
  open_congr h ho := by
    refine ⟨ho.1.congr (h _ (by simp)), ?_⟩
    rw [h _ (by simp), h _ (by simp)]
    exact ho.2
  stored_congr h hs := by
    refine ⟨hs.1.congr (h _ (by simp)), ?_⟩
    rw [h _ (by simp), h _ (by simp)]
    exact hs.2
  done_congr h hd := by
    refine ⟨hd.1.congr (h _ (by simp)), ?_⟩
    rw [h _ (by simp), h _ (by simp)]
    exact hd.2
  declare m := by
    have hidx : vname ++ "_idx" ≠ vname := append_ne_self vname (by decide)
    have hsave : vname ++ "_idx_save" ≠ vname := append_ne_self vname (by decide)
    have hne : vname ++ "_idx" ≠ vname ++ "_idx_save" := append_ne_append vname (by decide)
    have harr := step_declareArray ext (a := ⟨vname, .kStruct⟩) ctype
      (show 0 < 2 ^ p by positivity) m
    refine ⟨_, Runs.append ((runs_singleton harr).mpr rfl)
      (Runs.append ((runs_singleton rfl).mpr rfl) ((runs_singleton rfl).mpr rfl)),
      ⟨⟨List.replicate (2 ^ p) none, ?_, List.length_replicate⟩, ?_, Function.update_self ..⟩,
      .trans (.update_data (hfresh _ (by simp)).1.1 rfl (by simp))
        (.trans (.update_data (hfresh _ (by simp)).1.1 rfl (by simp))
          (.update_data (hfresh _ (by simp)).1.1 rfl (by simp)))⟩
    · rw [Function.update_of_ne hsave.symm, Function.update_of_ne hidx.symm,
        Function.update_self]
    · rw [Function.update_of_ne hne, Function.update_self]
  init m hd := by
    obtain ⟨⟨vs, hvs, hlen⟩, hidx, hsave⟩ := hd
    have hne : vname ++ "_idx" ≠ vname := append_ne_self vname (by decide)
    have hne' : vname ++ "_idx_save" ≠ vname := append_ne_self vname (by decide)
    have hne₂ : vname ++ "_idx_save" ≠ vname ++ "_idx" := append_ne_append vname (by decide)
    have hle : 2 ^ p ≤ 2 ^ 30 := Nat.pow_le_pow_right (by norm_num) hp
    obtain ⟨m₁, hrun, hzero, hframe⟩ := runs_initLoop ext ctype (hfresh _ (by simp)).2.symm
      (show 2 ^ p < 2 ^ 31 by omega) hvs hlen
    have hidx₁ : m₁ (vname ++ "_idx") = .scalar none :=
      (hframe _ (hfresh _ (by simp)).2 hne).trans hidx
    have hsave₁ : m₁ (vname ++ "_idx_save") = .scalar none :=
      (hframe _ (hfresh _ (by simp)).2 hne').trans hsave
    have hstore := step_storeVar_scalar ext (a := ⟨vname ++ "_idx", .kStruct⟩) hidx₁
      (eval_intNum 0)
    have hstore' := step_storeVar_scalar ext (a := ⟨vname ++ "_idx_save", .kStruct⟩)
      ((Function.update_of_ne hne₂ (intCell 0) m₁).trans hsave₁) (eval_intNum 0)
    refine ⟨_, Runs.append hrun (Runs.append ((runs_singleton hstore).mpr rfl)
      ((runs_singleton hstore').mpr rfl)),
      ⟨⟨List.replicate (2 ^ p) (some (zeroVal ctype)), ?_, List.length_replicate, ?_⟩, 0, 0, ?_,
        Function.update_self .., by simp⟩,
      .trans (.of_runs (by simp) (fillLoop_spares hi ?_ (by simp)) hrun)
        (.trans (.update_data (hfresh _ (by simp)).1.1 rfl (by simp [intCell]))
          (.update_data (hfresh _ (by simp)).1.1 rfl (by simp [intCell])))⟩
    · rw [Function.update_of_ne hne'.symm, Function.update_of_ne hne.symm, hzero]
    · exact ring_replicate _ _ (by positivity)
    · rw [Function.update_of_ne hne₂.symm, Function.update_self]
    · exact (hfresh _ (by simp)).1.1
  block t m hh := ⟨m, .nil m, hh, .refl m⟩
  pre t m ho := by
    obtain ⟨hring, a, b, ha, hb, hab⟩ := ho
    have hne : vname ≠ vname ++ "_idx" := (append_ne_self vname (by decide)).symm
    have hne' : vname ++ "_idx_save" ≠ vname ++ "_idx" := append_ne_append vname (by decide)
    have hindex := eval_ringIndex hp (eval_genAdd (eval_genLoadStructVar ext ha)
      (eval_genLoadStructVar ext hb))
    rw [hab] at hindex
    refine ⟨_, (runs_singleton (step_storeVar_int (a := ⟨vname ++ "_idx", .kStruct⟩) ha
      hindex)).mpr rfl, ⟨hring.congr (Function.update_of_ne hne _ _), Function.update_self ..,
        _, (Function.update_of_ne hne' _ _).trans hb⟩,
      .update_data (hfresh _ (by simp)).1.1 rfl (by simp [intCell])⟩
  store t k m hs hk hidx hexp := by
    obtain ⟨hring, hstart, v, hsave⟩ := hs
    have hindex := eval_ringIndex hp (eval_genAdd (eval_genLoadLoopVar ext hidx)
      (eval_genLoadStructVar ext hstart))
    have hmod : ((k : ℤ) + t % 2 ^ p) % 2 ^ p = ((t + k : ℕ) : ℤ) % 2 ^ p := by
      rw [Int.add_emod_emod, add_comm]
      push_cast
      rfl
    rw [hmod] at hindex
    obtain ⟨vs, hstep, hring'⟩ := hring.store hp hindex (hexp exp rfl)
    refine ⟨_, (runs_singleton hstep).mpr rfl, ⟨hring', ?_, v, ?_⟩,
      .update_data (hfresh _ (by simp)).1.1 rfl (by simp)⟩
    · rw [Function.update_of_ne (append_ne_self vname (by decide)), hstart]
    · rw [Function.update_of_ne (append_ne_self vname (by decide)), hsave]
  idle h := by simp [ringCode] at h
  post t n m hs hn hcount := by
    obtain ⟨hring, hstart, v, hsave⟩ := hs
    refine ⟨_, (runs_singleton (step_storeVar_scalar ext (a := ⟨vname ++ "_idx_save", .kStruct⟩)
      hsave (eval_genLoadStackVar ext hcount))).mpr rfl,
      ⟨hring.congr (Function.update_of_ne (append_ne_self vname (by decide)).symm _ _),
        (Function.update_of_ne (append_ne_append vname (by decide)) _ _).trans hstart,
        Function.update_self ..⟩, .update_data (hfresh _ (by simp)).1.1 rfl (by simp [intCell])⟩
  done_open h := by
    refine ⟨h.1, _, _, h.2.1, h.2.2, ?_⟩
    rw [Int.emod_add_emod]
    push_cast
    rfl
  open_held h := h

end

/-! ## Waveforms -/

/-- The remainder of two numbers. -/
theorem eval_genRem {a b : ValueInst} {i n : ℕ} (hi : i < 2 ^ 31) (hn : n < 2 ^ 31) (hpos : 0 < n)
    (ha : a.eval ext m = some (.int (.ofInt 32 i))) (hb : b.eval ext m = some (.int (.ofInt 32 n))) :
    (genRem a b).eval ext m = some (.int (.ofInt 32 ((i % n : ℕ) : ℤ))) := by
  have hni := toInt_ofInt_of_lt hi
  have hnn := toInt_ofInt_of_lt hn
  have hne : BitVec.ofInt 32 (n : ℤ) ≠ 0 := by
    intro h
    have hzero := congrArg BitVec.toInt h
    rw [hnn] at hzero
    simp at hzero
    omega
  have hmin : ¬ (BitVec.ofInt 32 (i : ℤ) = .intMin 32 ∧ BitVec.ofInt 32 (n : ℤ) = -1) := by
    rintro ⟨h, _⟩
    have hneg := congrArg BitVec.toInt h
    rw [hni, BitVec.toInt_intMin] at hneg
    norm_num at hneg
    omega
  have hrem : (BitVec.ofInt 32 (i : ℤ)).srem (.ofInt 32 n) = .ofInt 32 ((i % n : ℕ) : ℤ) := by
    apply BitVec.eq_of_toInt_eq
    have hle : i % n < 2 ^ 31 := lt_of_le_of_lt (Nat.mod_le i n) hi
    rw [BitVec.toInt_srem, hni, hnn, toInt_ofInt_of_lt hle, ← Int.ofNat_tmod]
  simp only [genRem, ValueInst.eval, ha, hb, Option.bind_eq_bind, Option.bind_some, Val.binop,
    Val.intOp]
  rw [if_neg (by rw [not_or]; exact ⟨hne, hmin⟩), hrem]

section
variable (ext) (x : ℕ → Val) {gVecSize size : ℕ} {vname : String}

/-- The index of a waveform: the number of samples modulo the size. -/
def waveformComponent (hpos : 0 < size) (hsize : size + gVecSize ≤ 2 ^ 31)
    (hvs : 0 < gVecSize) (hfresh : IsFresh (vname ++ "_idx")) :
    Component ext x gVecSize (waveformCode vname size) none where
  names := [vname ++ "_idx"]
  pointers := []
  persistent := [vname ++ "_idx"]
  Declared m := m (vname ++ "_idx") = .scalar none
  Held t m := m (vname ++ "_idx") = intCell (t % size : ℕ)
  Open t m := m (vname ++ "_idx") = intCell (t % size : ℕ)
  Stored t _ m := m (vname ++ "_idx") = intCell (t % size : ℕ)
  Done t n m := m (vname ++ "_idx") = intCell ((t + n) % size : ℕ)
  pointers_mem := by simp
  persistent_mem := fun _ h => h
  declared_congr h hd := (h _ (by simp)).trans hd
  held_congr h hh := (h _ (by simp)).trans hh
  open_congr h ho := (h _ (by simp)).trans ho
  stored_congr h hs := (h _ (by simp)).trans hs
  done_congr h hd := (h _ (by simp)).trans hd
  declare m := ⟨_, (runs_singleton rfl).mpr rfl, Function.update_self ..,
    .update_data hfresh.1 rfl (by simp)⟩
  init m hd := ⟨_, (runs_singleton (step_storeVar_scalar ext (a := ⟨vname ++ "_idx", .kStruct⟩) hd
      (eval_intNum 0))).mpr rfl, by rw [Function.update_self, Nat.zero_mod]; rfl,
    .update_data hfresh.1 rfl (by simp [intCell])⟩
  block t m hh := ⟨m, .nil m, hh, .refl m⟩
  pre t m ho := ⟨m, .nil m, ho, .refl m⟩
  store t k m hs _ _ _ := ⟨m, .nil m, hs, .refl m⟩
  idle _ _ _ hs _ := hs
  post t n m hs hn hcount := by
    have hlt := Nat.mod_lt t hpos
    have hsum := eval_genAdd (eval_genLoadStructVar ext hs)
      (eval_genLoadStackVar ext hcount)
    rw [← Nat.cast_add] at hsum
    have hrem := eval_genRem (by omega) (by omega) hpos hsum (eval_intNum size)
    rw [Nat.mod_add_mod] at hrem
    exact ⟨_, (runs_singleton (step_storeVar_int (a := ⟨vname ++ "_idx", .kStruct⟩) hs hrem)).mpr rfl,
      Function.update_self .., .update_data hfresh.1 rfl (by simp [intCell])⟩
  done_open h := h
  open_held h := h

end

end Faust.Fir
