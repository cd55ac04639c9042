import Faust.Generator.DelayLine
import Faust.Generator.InstFrame
import Faust.Lib.DelayBuffer

/-!
# Delay lines delay

What the code of a delay line does to the array that keeps the past of a signal, and from it
what a whole run of a program does: a read for a delay of `d` samples is the value of the
signal `d` samples ago.
-/

namespace Faust.Fir

open InstBuilder DelayBuffer

attribute [local simp] StatementInst.Spares pow2limitFrom

/-! ## Sizes of rings -/

theorem pow2limitFrom_of_le {x : ℕ} (hx : x ≤ 2 ^ 30) (turns k : ℕ) (hk : 31 ≤ turns + k)
    (hk' : k ≤ 30) (hk₁ : 1 ≤ k) :
    ∃ j, 1 ≤ j ∧ j ≤ 30 ∧ pow2limitFrom turns (2 ^ k) x = some (2 ^ j) ∧ x ≤ 2 ^ j := by
  induction turns generalizing k with
  | zero => omega
  | succ turns ih =>
    by_cases hlt : 2 ^ k < x
    · have hk30 : k < 30 := by
        by_contra hge
        obtain rfl : k = 30 := by omega
        omega
      have hdouble : 2 * 2 ^ k < 2 ^ 31 := by
        have := Nat.pow_le_pow_right (n := 2) (by norm_num) (show k ≤ 29 by omega)
        omega
      rw [pow2limitFrom, if_pos hlt, if_pos hdouble, ← pow_succ']
      exact ih (k + 1) (by omega) (by omega) (by omega)
    · exact ⟨k, hk₁, hk', by rw [pow2limitFrom, if_neg hlt], by omega⟩

/-- Up to `2 ^ 30`, `pow2limit` returns a power of two that is large enough. -/
theorem pow2limit_of_le {x : ℕ} (hx : x ≤ 2 ^ 30) :
    ∃ k, 1 ≤ k ∧ k ≤ 30 ∧ pow2limit x = some (2 ^ k) ∧ x ≤ 2 ^ k :=
  pow2limitFrom_of_le hx 31 1 (by omega) (by omega) (by omega)

theorem pow2limitFrom_of_gt {x : ℕ} (hx : 2 ^ 30 < x) (turns k : ℕ) (hk : k ≤ 30) :
    pow2limitFrom turns (2 ^ k) x = none := by
  induction turns generalizing k with
  | zero => rfl
  | succ turns ih =>
    have hle : 2 ^ k ≤ 2 ^ 30 := Nat.pow_le_pow_right (by norm_num) hk
    rw [pow2limitFrom, if_pos (by omega)]
    by_cases hdouble : 2 * 2 ^ k < 2 ^ 31
    · have hk30 : k < 30 := by
        by_contra hge
        obtain rfl : k = 30 := by omega
        omega
      rw [if_pos hdouble, ← pow_succ']
      exact ih (k + 1) (by omega)
    · rw [if_neg hdouble]

/-- Beyond `2 ^ 30` the doubling in `pow2limit` overflows. -/
theorem pow2limit_of_gt {x : ℕ} (hx : 2 ^ 30 < x) : pow2limit x = none :=
  pow2limitFrom_of_gt hx 31 1 (by omega)

/-! ## The code of a line -/

variable {ext : ExternFun}

/-- The zero that arrays of a type start with. -/
def zeroVal (ctype : VarType) : Val := if ctype = .kInt then .int 0 else .real 0

theorem eval_genTypedZero (ctype : VarType) (m : Memory) :
    (genTypedZero ctype).eval ext m = some (zeroVal ctype) := by
  cases ctype <;> simp [genTypedZero, genRealNumInst, zeroVal, ValueInst.eval, Val.cast, Val.toReal]

/-- The index of a ring. -/
theorem eval_ringIndex {m : Memory} {n : ℕ} (hn : n ≤ 30) {e : ValueInst} {i : ℤ}
    (he : e.eval ext m = some (.int (.ofInt 32 i))) :
    (genAnd e (.intNum ((2 ^ n : ℕ) - 1))).eval ext m = some (.int (.ofInt 32 (i % 2 ^ n))) := by
  have hmask := eval_genAnd_mask (k := n) (by omega) he
  push_cast
  exact hmask

theorem toInt_ofInt_emod {n : ℕ} (hn : n ≤ 30) (i : ℤ) :
    (BitVec.ofInt 32 (i % 2 ^ n)).toInt = ((i % 2 ^ n).toNat : ℕ) := by
  have hpos : (0 : ℤ) < 2 ^ n := by positivity
  have hpow : (2 : ℤ) ^ n ≤ 2 ^ 30 := pow_le_pow_right₀ (by norm_num) hn
  have h₀ := Int.emod_nonneg i hpos.ne'
  have h₁ := Int.emod_lt_of_pos i hpos
  rw [BitVec.toInt_ofInt, Int.toNat_of_nonneg h₀]
  exact Int.bmod_eq_of_le (by omega) (by omega)

/-- The past of a signal is made of numbers. -/
theorem exists_history (z : Val) (x : ℕ → Val) (s : ℤ) :
    ∃ w, history (some z) (fun s => some (x s)) s = some w := by
  unfold history
  split
  · exact ⟨_, rfl⟩
  · exact ⟨_, rfl⟩

variable (ext) in
/-- A loop that assigns to each of the first `n` elements of an array. -/
theorem runs_fillLoop {index dst : String} (access : AccessType) (value : ValueInst) {n : ℕ}
    {m : Memory} {ds : List (Option Val)} (f : ℕ → Val) (hne : index ≠ dst) (hn : n < 2 ^ 31)
    (hdst : m dst = .array ds) (hlen : n ≤ ds.length)
    (hvalue : ∀ m' j, j < n → (∀ a, a ≠ index → a ≠ dst → m' a = m a) → m' index = intCell j →
      value.eval ext m' = some (f j)) :
    ∃ m' ds', Runs ext [genCountLoop index (.intNum n)
        [.storeArrayVar ⟨dst, access⟩ (genLoadLoopVar index) value]] m m' ∧
      (∀ a, a ≠ index → a ≠ dst → m' a = m a) ∧ m' dst = .array ds' ∧
      ds'.length = ds.length ∧ ∀ j < n, ds'[j]? = some (some (f j)) := by
  let inv : ℕ → Memory → Prop := fun j m' => (∀ a, a ≠ index → a ≠ dst → m' a = m a) ∧
    ∃ ds', m' dst = .array ds' ∧ ds'.length = ds.length ∧ ∀ d < j, ds'[d]? = some (some (f d))
  have hloop : ∃ m', Runs ext [genCountLoop index (.intNum n)
      [.storeArrayVar ⟨dst, access⟩ (genLoadLoopVar index) value]] m m' ∧ inv n m' := by
    apply runs_genCountLoop_of_invariant inv hn
    · exact fun j m' _ => eval_intNum n
    · rintro j m' hj hidx ⟨hframe, ds', hds', hlen', hfill⟩
      have hstore := step_storeArrayVar ext (a := ⟨dst, access⟩) hds' (eval_genLoadLoopVar ext hidx)
        (toInt_ofInt_of_lt (by omega)) (by omega) (hvalue m' j hj hframe hidx)
      refine ⟨_, (runs_singleton hstore).mpr rfl, ?_, ?_, ds'.set j (some (f j)), ?_, ?_, ?_⟩
      · rw [Function.update_of_ne hne, hidx]
      · intro a hai had
        rw [Function.update_of_ne hai, Function.update_of_ne had, hframe a hai had]
      · rw [Function.update_of_ne hne.symm, Function.update_self]
      · rw [List.length_set, hlen']
      · intro d hd
        by_cases hdj : d = j
        · subst hdj
          rw [List.getElem?_set_self (by omega)]
        · rw [List.getElem?_set_ne (Ne.symm hdj)]
          exact hfill d (by omega)
    · refine ⟨fun a hai _ => Function.update_of_ne hai _ _, ds, ?_, rfl, fun d hd => by omega⟩
      rw [Function.update_of_ne hne.symm, hdst]
  obtain ⟨m', hrun, hframe, ds', hds', hlen', hfill⟩ := hloop
  exact ⟨m', ds', hrun, hframe, hds', hlen', hfill⟩

variable (ext) in
/-- The initialisation loop fills the array with zeros. -/
theorem runs_initLoop {index vname : String} (ctype : VarType) {n : ℕ} {m : Memory}
    {vs : List (Option Val)} (hne : index ≠ vname) (hn : n < 2 ^ 31) (hm : m vname = .array vs)
    (hlen : vs.length = n) :
    ∃ m', Runs ext [initLoop index vname ctype n] m m' ∧
      m' vname = .array (List.replicate n (some (zeroVal ctype))) ∧
      ∀ a, a ≠ index → a ≠ vname → m' a = m a := by
  obtain ⟨m', vs', hrun, hframe, hvs', hlen', hzero⟩ := runs_fillLoop ext .kStruct
    (genTypedZero ctype) (fun _ => zeroVal ctype) hne hn hm (by omega)
    fun m' _ _ _ _ => eval_genTypedZero ctype m'
  refine ⟨m', hrun, ?_, hframe⟩
  rw [hvs']
  congr 1
  apply List.ext_getElem?
  intro d
  by_cases hd : d < n
  · rw [hzero d hd, List.getElem?_replicate_of_lt hd]
  · rw [List.getElem?_eq_none (by omega), List.getElem?_eq_none (by simp; omega)]

variable (ext) in
/-- Copying element `i` of the array to element `i + 1`. -/
theorem step_generateCopyArray {vname : String} {i : ℕ} {m : Memory} {vs : List (Option Val)}
    {w : Val} (hm : m vname = .array vs) (hi : i + 1 < vs.length) (hlt : i + 1 < 2 ^ 31)
    (hw : vs[i]? = some (some w)) :
    step ext ([generateCopyArray vname i (i + 1)], m) =
      some ([], Function.update m vname (.array (vs.set (i + 1) (some w)))) := by
  apply step_storeArrayVar ext (a := ⟨vname, .kStruct⟩) hm (i := .intNum ((i + 1 : ℕ) : ℤ)) rfl
    (toInt_ofInt_of_lt hlt) hi
  exact eval_loadArrayVar (a := ⟨vname, .kStruct⟩) hm (i := .intNum (i : ℤ)) rfl
    (toInt_ofInt_of_lt (by omega)) hw

variable (ext) in
theorem genGreaterThan_truth {m : Memory} {index : String} {i : ℕ} (hi : i < 2 ^ 31)
    (hm : m index = intCell i) :
    ∃ v, (genGreaterThan (genLoadLoopVar index) (.intNum 0)).eval ext m = some v ∧
      v.truth = decide (0 < i) := by
  refine ⟨Val.ofBool (decide (0 < i)), ?_, by by_cases h : 0 < i <;> simp [Val.ofBool, Val.truth, h]⟩
  have hslt : (BitVec.ofInt 32 0).slt (BitVec.ofInt 32 (i : ℤ)) = decide (0 < i) := by
    rw [BitVec.slt, toInt_ofInt_of_lt hi]
    simp
  rw [← hslt]
  simp [genGreaterThan, genLoadLoopVar, ValueInst.eval, hm, intCell, Val.binop, Val.intOp]

/-- The shift loop moves every element of the array up by one place. -/
theorem runs_shiftLoop {index vname : String} {delay : ℕ} {m : Memory} {vs : List (Option Val)}
    (hne : index ≠ vname) (hdelay : delay < 2 ^ 31) (hm : m vname = .array vs)
    (hlen : vs.length = delay + 1) (hinit : ∀ d ≤ delay, ∃ w, vs[d]? = some (some w)) :
    ∃ m' vs', Runs ext [shiftLoop index vname delay] m m' ∧ m' vname = .array vs' ∧
      vs'.length = vs.length ∧ ∀ d < delay, vs'[d + 1]? = vs[d]? := by
  -- after `k` turns, the elements above `delay - k` have moved
  let inv : ℕ → Memory → Prop := fun k m => m index = intCell ((delay - k : ℕ) : ℤ) ∧
    ∃ vs', m vname = .array vs' ∧ vs'.length = vs.length ∧
      (∀ d, delay - k ≤ d → d < delay → vs'[d + 1]? = vs[d]?) ∧
      ∀ d ≤ delay - k, vs'[d]? = vs[d]?
  have hloop : ∃ m', Runs ext [.whileLoop
      (genGreaterThan (genLoadLoopVar index) (.intNum 0))
      ([genStoreArrayStructVar vname (genLoadLoopVar index)
        (genLoadArrayStructVar vname (genSub (genLoadLoopVar index) (.intNum 1)))] ++
        [genStoreLoopVar index (genSub (genLoadLoopVar index) (.intNum 1))])]
      (Function.update m index (intCell delay)) m' ∧ inv delay m' := by
    apply runs_whileLoop_of_invariant inv ?_ ?_ (Nat.zero_le delay)
    · refine ⟨by simp, vs, by rw [Function.update_of_ne hne.symm, hm], rfl, ?_, fun _ _ => rfl⟩
      intro d hd hlt
      omega
    · rintro k m hk ⟨hidx, vs', hvs', hlen', hmoved, hrest⟩
      obtain ⟨j, hj⟩ : ∃ j, delay - k = j + 1 := ⟨delay - k - 1, by omega⟩
      rw [hj] at hidx hmoved hrest
      obtain ⟨v, hv, htruth⟩ := genGreaterThan_truth ext (by omega) hidx
      have hpred : (genSub (genLoadLoopVar index) (.intNum 1)).eval ext m =
          some (.int (.ofInt 32 (j : ℤ))) := by
        have hsub := eval_genSub (eval_genLoadLoopVar ext hidx)
          (eval_intNum 1)
        rwa [Nat.cast_succ, add_sub_cancel_right] at hsub
      obtain ⟨w, hw⟩ := hinit j (by omega)
      have hstore := step_storeArrayVar ext (a := ⟨vname, .kStruct⟩) hvs'
        (eval_genLoadLoopVar ext hidx) (toInt_ofInt_of_lt (by omega)) (by omega)
        (eval_loadArrayVar (a := ⟨vname, .kStruct⟩) hvs' hpred (toInt_ofInt_of_lt (by omega))
          ((hrest j (by omega)).trans hw))
      have hdec : step ext ([genStoreLoopVar index (genSub (genLoadLoopVar index) (.intNum 1))],
          Function.update m vname (.array (vs'.set (j + 1) (some w)))) =
          some ([], Function.update (Function.update m vname (.array (vs'.set (j + 1) (some w))))
            index (intCell j)) := by
        have hidx' : Function.update m vname (.array (vs'.set (j + 1) (some w))) index =
            intCell ((j + 1 : ℕ) : ℤ) := by
          rw [Function.update_of_ne hne, hidx]
        have hsub := eval_genSub (eval_genLoadLoopVar ext hidx')
          (eval_intNum 1)
        rw [Nat.cast_succ, add_sub_cancel_right] at hsub
        exact step_storeVar_int hidx' hsub
      refine ⟨⟨v, hv, by simp [htruth]⟩, _, Runs.append ((runs_singleton hstore).mpr rfl)
        ((runs_singleton hdec).mpr rfl), ?_⟩
      have hj' : delay - (k + 1) = j := by omega
      refine ⟨by rw [hj', Function.update_self], vs'.set (j + 1) (some w), ?_, by simpa, ?_, ?_⟩
      · rw [Function.update_of_ne hne.symm, Function.update_self]
      · intro d hd hlt
        by_cases hdj : d = j
        · subst hdj
          rw [List.getElem?_set_self (by omega), hw]
        · rw [List.getElem?_set_ne (by omega)]
          exact hmoved d (by omega) hlt
      · intro d hd
        rw [List.getElem?_set_ne (by omega)]
        exact hrest d (by omega)
    · rintro m ⟨hidx, _⟩
      obtain ⟨v, hv, htruth⟩ := genGreaterThan_truth ext (by omega) hidx
      exact ⟨v, hv, by simp [htruth]⟩
  obtain ⟨m', hrun, _, vs', hvs', hlen', hmoved, _⟩ := hloop
  refine ⟨m', vs', ?_, hvs', hlen', fun d hd => hmoved d (by omega) hd⟩
  rw [shiftLoop, runs_forLoop]
  exact ⟨_, (runs_singleton (step_genDecLoopVar index delay m)).mpr rfl, hrun⟩

/-! ## What a compilation pushes -/

/-- The variables that the code of delay lines writes besides their arrays. -/
def IsOwnName (n : String) : Prop :=
  n = "IOTA" ∨ ∃ k : ℕ, n = "i" ++ toString k ∨ n = "j" ++ toString k

theorem append_toString_ne {pre n : String} {c : Char} {cs : List Char} (k : ℕ)
    (hpre : pre.toList = [c]) (hn : n.toList = cs) (hcs : cs.head? ≠ some c ∨ cs.length ≤ 1) :
    n ≠ pre ++ toString k := by
  rintro rfl
  rw [String.toList_append, hpre] at hn
  subst hn
  obtain hcs | hcs := hcs
  · simp at hcs
  · simp at hcs

theorem not_isOwnName_i : ¬ IsOwnName "i" := by
  rintro (h | ⟨k, h | h⟩)
  · simp at h
  · exact append_toString_ne k (c := 'i') rfl rfl (.inr (by decide)) h
  · exact append_toString_ne k (c := 'j') rfl rfl (.inr (by decide)) h

theorem not_isOwnName_count : ¬ IsOwnName "count" := by
  rintro (h | ⟨k, h | h⟩)
  · simp at h
  · exact append_toString_ne k (c := 'i') rfl rfl (.inl (by decide)) h
  · exact append_toString_ne k (c := 'j') rfl rfl (.inl (by decide)) h

/-- The section `b` is `a` followed by code that leaves `n` alone. -/
def Extends (S : List String) (n : String) (a b : List StatementInst) : Prop :=
  ∃ d, b = a ++ d ∧ SparesAll [n] S [] d

namespace Extends

variable {S : List String} {n : String} {a b d : List StatementInst}

theorem refl (a : List StatementInst) : Extends S n a a := ⟨[], by simp, trivial⟩

theorem trans (hab : Extends S n a b) (hbd : Extends S n b d) : Extends S n a d := by
  obtain ⟨e, rfl, he⟩ := hab
  obtain ⟨f, rfl, hf⟩ := hbd
  exact ⟨e ++ f, by simp, sparesAll_append.mpr ⟨he, hf⟩⟩

theorem push {s : StatementInst} (hs : s.Spares [n] S []) : Extends S n a (a ++ [s]) :=
  ⟨[s], rfl, hs, trivial⟩

/-- Code that leaves `n` alone still does when it is extended. -/
theorem spares (hab : Extends S n a b) (ha : SparesAll [n] S [] a) : SparesAll [n] S [] b := by
  obtain ⟨d, rfl, hd⟩ := hab
  exact sparesAll_append.mpr ⟨ha, hd⟩

end Extends

/-- What is pushed between two states of the compiler leaves `n` alone. -/
structure Grows (S : List String) (n : String) (c c' : InstructionsCompiler) : Prop where
  declare : Extends S n c.fDeclarationInstructions c'.fDeclarationInstructions
  init : Extends S n c.fInitInstructions c'.fInitInstructions
  block : Extends S n c.fComputeBlockInstructions c'.fComputeBlockInstructions
  pre : Extends S n c.fPreInst c'.fPreInst
  compute : Extends S n c.fComputeInst c'.fComputeInst
  post : Extends S n c.fPostInst c'.fPostInst

namespace Grows

variable {S : List String} {n : String} {c c' c'' : InstructionsCompiler} {s : StatementInst}

theorem refl (c : InstructionsCompiler) : Grows S n c c :=
  ⟨.refl _, .refl _, .refl _, .refl _, .refl _, .refl _⟩

theorem trans (h : Grows S n c c') (h' : Grows S n c' c'') : Grows S n c c'' :=
  ⟨h.declare.trans h'.declare, h.init.trans h'.init, h.block.trans h'.block, h.pre.trans h'.pre,
    h.compute.trans h'.compute, h.post.trans h'.post⟩

theorem pushDeclare (h : Grows S n c c') (hs : s.Spares [n] S []) :
    Grows S n c (c'.pushDeclare s) :=
  h.trans ⟨.push hs, .refl _, .refl _, .refl _, .refl _, .refl _⟩

theorem pushInitMethod (h : Grows S n c c') (hs : s.Spares [n] S []) :
    Grows S n c (c'.pushInitMethod s) :=
  h.trans ⟨.refl _, .push hs, .refl _, .refl _, .refl _, .refl _⟩

theorem pushComputeDSPMethod (h : Grows S n c c') (hs : s.Spares [n] S []) :
    Grows S n c (c'.pushComputeDSPMethod s) :=
  h.trans ⟨.refl _, .refl _, .refl _, .refl _, .push hs, .refl _⟩

theorem pushComputePostDSPMethod (h : Grows S n c c') (hs : s.Spares [n] S []) :
    Grows S n c (c'.pushComputePostDSPMethod s) :=
  h.trans ⟨.refl _, .refl _, .refl _, .refl _, .refl _, .push hs⟩

theorem countID (h : Grows S n c c') (pre : String) : Grows S n c (c'.countID pre) :=
  h.trans ⟨.refl _, .refl _, .refl _, .refl _, .refl _, .refl _⟩

/-- Any other push. -/
theorem run {p : Push} (hp : p.statement.Spares [n] S []) (c : InstructionsCompiler) :
    Grows S n c (p.run c) := by
  cases p with
  | declare s => exact ⟨.push hp, .refl _, .refl _, .refl _, .refl _, .refl _⟩
  | init s => exact ⟨.refl _, .push hp, .refl _, .refl _, .refl _, .refl _⟩
  | block s => exact ⟨.refl _, .refl _, .push hp, .refl _, .refl _, .refl _⟩
  | pre s => exact ⟨.refl _, .refl _, .refl _, .push hp, .refl _, .refl _⟩
  | compute s => exact ⟨.refl _, .refl _, .refl _, .refl _, .push hp, .refl _⟩
  | post s => exact ⟨.refl _, .refl _, .refl _, .refl _, .refl _, .push hp⟩

end Grows

section
variable {S : List String} {n index vname : String}

theorem initLoop_spares (ctype : VarType) (d : ℕ) (hi : index ≠ n) (hv : vname ≠ n) :
    (initLoop index vname ctype d).Spares [n] S [] := by
  simp [initLoop, genCountLoop, StatementInst.Spares, SparesAll, genDecLoopVar, genStoreLoopVar,
    genStoreArrayStructVar, ValueInst.Confines, genAdd, hi, hv]

theorem shiftLoop_spares (d : ℕ) (hi : index ≠ n) (hv : vname ≠ n) :
    (shiftLoop index vname d).Spares [n] S [] := by
  simp [shiftLoop, StatementInst.Spares, SparesAll, genDecLoopVar, genStoreLoopVar,
    genStoreArrayStructVar, ValueInst.Confines, genSub, hi, hv]

theorem genStoreArrayStructVar_spares (i v : ValueInst) (hv : vname ≠ n) :
    (genStoreArrayStructVar vname i v).Spares [n] S [] := by
  simp [genStoreArrayStructVar, StatementInst.Spares, hv]

theorem genDecStructVar_spares (t : Typed) (hv : vname ≠ n) :
    (genDecStructVar vname t none).Spares [n] S [] := by
  simp [genDecStructVar, StatementInst.Spares, hv]

theorem iota_spares (hn : n ≠ "IOTA") : iotaDeclare.Spares [n] S [] ∧ iotaInit.Spares [n] S [] ∧
    iotaPost.Spares [n] S [] := by
  simp [iotaDeclare, iotaInit, iotaPost, genDecStructVar, genStoreStructVar, genAdd,
    StatementInst.Spares, ValueInst.Confines, hn.symm]

end

/-! ## What a delay line pushes -/

/-- The code that shifts the register of a line at the end of a sample. -/
def shiftCode (index vname : String) (mxd : ℕ) : List StatementInst :=
  if mxd = 1 then [generateCopyArray vname 0 1]
  else if mxd = 2 then [generateCopyArray vname 1 2, generateCopyArray vname 0 1]
  else [shiftLoop index vname mxd]

/-- What is pushed for an array of `size` elements, with the assignment `store` and the code
`post` at the end of a sample. -/
structure Pushes (vname : String) (ctype : VarType) (size : ℕ) (store : StatementInst)
    (post : List StatementInst) (c c' : InstructionsCompiler) : Prop where
  declare : c'.fDeclarationInstructions =
    c.fDeclarationInstructions ++ [genDecStructVar vname (.array ctype size) none]
  init : c'.fInitInstructions =
    c.fInitInstructions ++ [initLoop (c.freshID "i") vname ctype size]
  block : c'.fComputeBlockInstructions = c.fComputeBlockInstructions
  pre : c'.fPreInst = c.fPreInst
  compute : c'.fComputeInst = c.fComputeInst ++ [store]
  post : c'.fPostInst = c.fPostInst ++ post
  iota : c'.fLoadedIota = c.fLoadedIota

variable {mcd : ℤ} {exp : ValueInst} {ctype : VarType} {vname : String} {mxd : ℕ}

/-- The code of a short line. -/
theorem generateDelayLine_copy (h₀ : mxd ≠ 0) (hlt : (mxd : ℤ) < mcd) (c : InstructionsCompiler) :
    ∃ c', generateDelayLine mcd exp ctype vname mxd c = some (exp, c') ∧
      Pushes vname ctype (mxd + 1) (genStoreArrayStructVar vname (.intNum 0) exp)
        (shiftCode (c.freshID "j") vname mxd) c c' := by
  rw [generateDelayLine, if_neg h₀, if_pos hlt]
  dsimp only [generateInitArray, generateShiftArray]
  unfold shiftCode
  by_cases h₁ : mxd = 1
  · rw [if_pos h₁, if_pos h₁]
    exact ⟨_, rfl, rfl, rfl, rfl, rfl, rfl, rfl, rfl⟩
  rw [if_neg h₁, if_neg h₁]
  by_cases h₂ : mxd = 2
  · rw [if_pos h₂, if_pos h₂]
    refine ⟨_, rfl, rfl, rfl, rfl, rfl, rfl, ?_, rfl⟩
    show (c.fPostInst ++ [_]) ++ [_] = c.fPostInst ++ [_, _]
    rw [List.append_assoc]
    rfl
  · rw [if_neg h₂, if_neg h₂]
    refine ⟨_, rfl, rfl, rfl, rfl, rfl, rfl, ?_, rfl⟩
    -- the counter of the indices of shift loops is not the one of initialisation loops
    have hid : (c.countID "i").freshID "j" = c.freshID "j" := by
      simp [InstructionsCompiler.freshID, InstructionsCompiler.countID]
    rw [← hid]
    rfl

/-- The assignment of a ring. -/
def ringStore (vname : String) (n : ℕ) (exp : ValueInst) : StatementInst :=
  genStoreArrayStructVar vname (genAnd (genLoadStructVar "IOTA") (.intNum (n - 1))) exp

/-- The code of a long line. -/
theorem generateDelayLine_ring (h₀ : mxd ≠ 0) (hge : ¬ (mxd : ℤ) < mcd) {n : ℕ}
    (hn : pow2limit (mxd + 1) = some n) (c : InstructionsCompiler) :
    ∃ c', generateDelayLine mcd exp ctype vname mxd c = some (exp, c') ∧
      Pushes vname ctype n (ringStore vname n exp) [] (ensureIotaCode c) c' := by
  rw [generateDelayLine, if_neg h₀, if_neg hge, hn]
  exact ⟨_, rfl, rfl, rfl, rfl, rfl, rfl, (List.append_nil _).symm, rfl⟩

/-- A long line that needs more than `2 ^ 30` elements is not compiled. -/
theorem generateDelayLine_none (h₀ : mxd ≠ 0) (hge : ¬ (mxd : ℤ) < mcd) (hmxd : 2 ^ 30 ≤ mxd)
    (c : InstructionsCompiler) : generateDelayLine mcd exp ctype vname mxd c = none := by
  simp [generateDelayLine, h₀, hge, pow2limit_of_gt (Nat.lt_succ_of_le hmxd)]

section
variable {S : List String} {n : String} {c c' : InstructionsCompiler}

theorem shiftCode_spares {index : String} (d : ℕ) (hi : index ≠ n) (hv : vname ≠ n) :
    SparesAll [n] S [] (shiftCode index vname d) := by
  unfold shiftCode
  split
  · exact ⟨genStoreArrayStructVar_spares _ _ hv, trivial⟩
  · split
    · exact ⟨genStoreArrayStructVar_spares _ _ hv, genStoreArrayStructVar_spares _ _ hv, trivial⟩
    · exact ⟨shiftLoop_spares d hi hv, trivial⟩

/-- The code of a line leaves the other variables alone. -/
theorem Pushes.grows {size : ℕ} {store : StatementInst} {post : List StatementInst}
    (h : Pushes vname ctype size store post c c') (hv : vname ≠ n) (hi : c.freshID "i" ≠ n)
    (hstore : store.Spares [n] S []) (hpost : SparesAll [n] S [] post) : Grows S n c c' where
  declare := ⟨_, h.declare, genDecStructVar_spares _ hv, trivial⟩
  init := ⟨_, h.init, initLoop_spares _ _ hi hv, trivial⟩
  block := h.block ▸ .refl _
  pre := h.pre ▸ .refl _
  compute := ⟨_, h.compute, hstore, trivial⟩
  post := ⟨_, h.post, hpost⟩

/-- `ensureIotaCode` leaves all variables but `IOTA` alone. -/
theorem ensureIotaCode_grows (hn : n ≠ "IOTA") (c : InstructionsCompiler) :
    Grows S n c (ensureIotaCode c) := by
  unfold ensureIotaCode
  split
  · exact .refl c
  · obtain ⟨hdec, hinit, hpost⟩ := iota_spares (S := S) hn
    have hload : Grows S n c { c with fLoadedIota := true } :=
      ⟨.refl _, .refl _, .refl _, .refl _, .refl _, .refl _⟩
    exact ((hload.pushDeclare hdec).pushInitMethod hinit).pushComputePostDSPMethod hpost

/-- The code of a line leaves alone the variables that are neither its array nor one of those
that all lines use. -/
theorem generateDelayLine_grows {e : ValueInst} (hv : vname ≠ n) (hown : ¬ IsOwnName n)
    (hexp : exp.Confines S [])
    (h : generateDelayLine mcd exp ctype vname mxd c = some (e, c')) : Grows S n c c' := by
  have hiota : n ≠ "IOTA" := fun hn => hown (.inl hn)
  have hid : ∀ c : InstructionsCompiler, c.freshID "i" ≠ n :=
    fun c hn => hown (.inr ⟨_, .inl hn.symm⟩)
  have hjd : c.freshID "j" ≠ n := fun hn => hown (.inr ⟨_, .inr hn.symm⟩)
  by_cases h₀ : mxd = 0
  · simp only [generateDelayLine, h₀, if_true, Option.some.injEq, Prod.mk.injEq] at h
    obtain ⟨_, rfl⟩ := h
    apply (Grows.refl c).pushComputeDSPMethod
    simp [genDecStackVar, StatementInst.Spares, hv, hexp]
  by_cases hlt : (mxd : ℤ) < mcd
  · obtain ⟨c₁, h₁, hpush⟩ := generateDelayLine_copy h₀ hlt c
    obtain ⟨_, rfl⟩ := Prod.mk.inj (Option.some.inj (h₁.symm.trans h))
    exact hpush.grows hv (hid c) (genStoreArrayStructVar_spares _ _ hv)
      (shiftCode_spares _ hjd hv)
  · by_cases hmxd : 2 ^ 30 ≤ mxd
    · simp [generateDelayLine_none h₀ hlt hmxd] at h
    · obtain ⟨k, _, _, hk, _⟩ := pow2limit_of_le (x := mxd + 1) (by omega)
      obtain ⟨c₁, h₁, hpush⟩ := generateDelayLine_ring h₀ hlt hk c
      obtain ⟨_, rfl⟩ := Prod.mk.inj (Option.some.inj (h₁.symm.trans h))
      exact (ensureIotaCode_grows hiota c).trans
        (hpush.grows hv (hid _) (genStoreArrayStructVar_spares _ _ hv) trivial)

end

/-! ## Compilations -/

/-- A step of the compilation that leaves `n` alone and makes no pointer to `S`. -/
def Action.LeavesAlone (S : List String) (n : String) : Action → Prop
  | .line l => l.vname ≠ n ∧ l.exp.Confines S []
  | .other p => p.statement.Spares [n] S []

theorem compileActions_append (mcd : ℤ) (as bs : List Action) (c : InstructionsCompiler) :
    compileActions mcd (as ++ bs) c = (compileActions mcd as c).bind (compileActions mcd bs) := by
  induction as generalizing c with
  | nil => rfl
  | cons a as ih =>
    cases a with
    | line l =>
      simp only [List.cons_append, compileActions, Option.bind_eq_bind]
      cases generateDelayLine mcd l.exp l.ctype l.vname l.mxd c with
      | none => rfl
      | some r => exact ih r.2
    | other p => exact ih (p.run c)

section
variable {S : List String} {n : String}

theorem compileActions_grows (hown : ¬ IsOwnName n) {as : List Action}
    (has : ∀ a ∈ as, a.LeavesAlone S n) {c c' : InstructionsCompiler}
    (h : compileActions mcd as c = some c') : Grows S n c c' := by
  induction as generalizing c with
  | nil =>
    obtain rfl := Option.some.inj h
    exact .refl c
  | cons a as ih =>
    have ha := has a List.mem_cons_self
    have has' := fun b hb => has b (List.mem_cons_of_mem _ hb)
    cases a with
    | line l =>
      simp only [compileActions, Option.bind_eq_bind, Option.bind_eq_some_iff] at h
      obtain ⟨⟨e, c₁⟩, hline, hrest⟩ := h
      exact (generateDelayLine_grows ha.1 hown ha.2 hline).trans (ih has' hrest)
    | other p => exact (Grows.run ha c).trans (ih has' h)

/-- A section with one statement about `IOTA`. -/
def Once (S : List String) (s : StatementInst) (l : List StatementInst) : Prop :=
  ∃ a b, l = a ++ s :: b ∧ SparesAll ["IOTA"] S [] a ∧ SparesAll ["IOTA"] S [] b

theorem Once.of_extends {s : StatementInst} {l l' : List StatementInst} (h : Once S s l)
    (hl : Extends S "IOTA" l l') : Once S s l' := by
  obtain ⟨a, b, rfl, ha, hb⟩ := h
  obtain ⟨d, rfl, hd⟩ := hl
  exact ⟨a, b ++ d, by simp, ha, sparesAll_append.mpr ⟨hb, hd⟩⟩

/-- The code about `IOTA` is there once, or not at all. -/
structure IotaState (S : List String) (c : InstructionsCompiler) : Prop where
  block : SparesAll ["IOTA"] S [] c.fComputeBlockInstructions
  pre : SparesAll ["IOTA"] S [] c.fPreInst
  compute : SparesAll ["IOTA"] S [] c.fComputeInst
  loaded : c.fLoadedIota = true → Once S iotaDeclare c.fDeclarationInstructions ∧
    Once S iotaInit c.fInitInstructions ∧ Once S iotaPost c.fPostInst
  absent : c.fLoadedIota = false → SparesAll ["IOTA"] S [] c.fDeclarationInstructions ∧
    SparesAll ["IOTA"] S [] c.fInitInstructions ∧ SparesAll ["IOTA"] S [] c.fPostInst

namespace IotaState

variable {c c' : InstructionsCompiler}

theorem start : IotaState S InstructionsCompiler.start :=
  ⟨trivial, trivial, trivial, by simp [InstructionsCompiler.start],
    fun _ => ⟨trivial, trivial, trivial⟩⟩

theorem of_grows (h : IotaState S c) (hg : Grows S "IOTA" c c')
    (hload : c'.fLoadedIota = c.fLoadedIota) : IotaState S c' where
  block := hg.block.spares h.block
  pre := hg.pre.spares h.pre
  compute := hg.compute.spares h.compute
  loaded := fun hl => by
    obtain ⟨hdec, hinit, hpost⟩ := h.loaded (hload ▸ hl)
    exact ⟨hdec.of_extends hg.declare, hinit.of_extends hg.init, hpost.of_extends hg.post⟩
  absent := fun hl => by
    obtain ⟨hdec, hinit, hpost⟩ := h.absent (hload ▸ hl)
    exact ⟨hg.declare.spares hdec, hg.init.spares hinit, hg.post.spares hpost⟩

theorem ensureIotaCode (h : IotaState S c) :
    IotaState S (ensureIotaCode c) ∧ (Fir.ensureIotaCode c).fLoadedIota = true := by
  unfold Fir.ensureIotaCode
  by_cases hl : c.fLoadedIota = true
  · rw [if_pos hl]
    exact ⟨h, hl⟩
  · rw [if_neg hl]
    obtain ⟨hdec, hinit, hpost⟩ := h.absent (by simpa using hl)
    exact ⟨⟨h.block, h.pre, h.compute, fun _ => ⟨⟨_, [], rfl, hdec, trivial⟩,
      ⟨_, [], rfl, hinit, trivial⟩, ⟨_, [], rfl, hpost, trivial⟩⟩, fun hf => by cases hf⟩, rfl⟩

/-- A line keeps the code about `IOTA` unique, and a ring has it. -/
theorem generateDelayLine {e : ValueInst} (h : IotaState S c) (hv : vname ≠ "IOTA")
    (hexp : exp.Confines S [])
    (hc : generateDelayLine mcd exp ctype vname mxd c = some (e, c')) :
    IotaState S c' ∧ (c.fLoadedIota = true → c'.fLoadedIota = true) ∧
      (mxd ≠ 0 → ¬ (mxd : ℤ) < mcd → c'.fLoadedIota = true) := by
  have hid : ∀ c : InstructionsCompiler, c.freshID "i" ≠ "IOTA" := fun c =>
    (append_toString_ne _ (c := 'i') rfl rfl (.inl (by decide))).symm
  have hjd : c.freshID "j" ≠ "IOTA" :=
    (append_toString_ne _ (c := 'j') rfl rfl (.inl (by decide))).symm
  by_cases h₀ : mxd = 0
  · simp only [Fir.generateDelayLine, h₀, if_true, Option.some.injEq, Prod.mk.injEq] at hc
    obtain ⟨_, rfl⟩ := hc
    refine ⟨h.of_grows ((Grows.refl c).pushComputeDSPMethod ?_) rfl, fun hl => hl,
      fun hne => absurd h₀ hne⟩
    simp [genDecStackVar, StatementInst.Spares, hv, hexp]
  by_cases hlt : (mxd : ℤ) < mcd
  · obtain ⟨c₁, h₁, hpush⟩ := generateDelayLine_copy h₀ hlt c
    obtain ⟨_, rfl⟩ := Prod.mk.inj (Option.some.inj (h₁.symm.trans hc))
    exact ⟨h.of_grows (hpush.grows hv (hid c) (genStoreArrayStructVar_spares _ _ hv)
      (shiftCode_spares _ hjd hv)) hpush.iota, fun hl => hpush.iota.trans hl,
      fun _ hge => absurd hlt hge⟩
  · by_cases hmxd : 2 ^ 30 ≤ mxd
    · simp [generateDelayLine_none h₀ hlt hmxd] at hc
    · obtain ⟨k, _, _, hk, _⟩ := pow2limit_of_le (x := mxd + 1) (by omega)
      obtain ⟨c₁, h₁, hpush⟩ := generateDelayLine_ring h₀ hlt hk c
      obtain ⟨_, rfl⟩ := Prod.mk.inj (Option.some.inj (h₁.symm.trans hc))
      obtain ⟨hstate, hload⟩ := h.ensureIotaCode
      exact ⟨hstate.of_grows (hpush.grows hv (hid _) (genStoreArrayStructVar_spares _ _ hv) trivial)
        hpush.iota, fun _ => hpush.iota.trans hload, fun _ _ => hpush.iota.trans hload⟩

/-- A compilation keeps the code about `IOTA` unique. -/
theorem compileActions {as : List Action} (has : ∀ a ∈ as, a.LeavesAlone S "IOTA")
    (h : IotaState S c) (hc : compileActions mcd as c = some c') :
    IotaState S c' ∧ (c.fLoadedIota = true → c'.fLoadedIota = true) := by
  induction as generalizing c with
  | nil =>
    obtain rfl := Option.some.inj hc
    exact ⟨h, fun hl => hl⟩
  | cons a as ih =>
    have ha := has a List.mem_cons_self
    have has' := fun b hb => has b (List.mem_cons_of_mem _ hb)
    cases a with
    | line l =>
      simp only [Fir.compileActions, Option.bind_eq_bind, Option.bind_eq_some_iff] at hc
      obtain ⟨⟨e, c₁⟩, hline, hrest⟩ := hc
      obtain ⟨hstate, hmono, _⟩ := h.generateDelayLine ha.1 ha.2 hline
      obtain ⟨hstate', hmono'⟩ := ih has' hstate hrest
      exact ⟨hstate', fun hl => hmono' (hmono hl)⟩
    | other p =>
      have hrun : (p.run c).fLoadedIota = c.fLoadedIota := by cases p <;> rfl
      obtain ⟨hstate', hmono'⟩ := ih has' (h.of_grows (Grows.run ha c) hrun) hc
      exact ⟨hstate', fun hl => hmono' (hrun.trans hl)⟩

end IotaState

end

end Faust.Fir
