import Faust.Generator.InstSemantics
import Faust.Lib.Bits

/-!
# Executions of FIR

How executions compose, what a counting loop does, and which variables an execution leaves
alone.
-/

namespace Faust.Fir

attribute [local simp] step ValueInst.eval ValueInst.evalPointer declareCell storeCell

variable {ext : ExternFun}

/-! ## Composition -/

/-- What a statement does does not depend on the code after it. -/
theorem step_cons (s : StatementInst) (k : List StatementInst) (m : Memory) :
    step ext (s :: k, m) = (step ext ([s], m)).map fun c => (c.1 ++ k, c.2) := by
  cases s with
  | declareVar | storeVar => simp
  | storeArrayVar a i v =>
    simp only [step]
    split
    · rename_i b w _ _
      cases h : m.storeArray a.fName b.toInt w <;> simp
    · rfl
  | block code => simp [step]
  | ifInst c t e => cases h : c.eval ext m <;> simp [step, h]
  | forLoop init end_ incr code => simp [step]
  | whileLoop c code =>
    cases h : c.eval ext m with
    | none => simp [step, h]
    | some v => cases hv : v.truth <;> simp [step, h, hv]
  | switch c cases =>
    simp only [step]
    split
    · simp
    · rfl

theorem step_append {ss r : List StatementInst} {m m' : Memory}
    (h : step ext (ss, m) = some (r, m')) (k : List StatementInst) :
    step ext (ss ++ k, m) = some (r ++ k, m') := by
  cases ss with
  | nil => simp [step] at h
  | cons s ss =>
    rw [step_cons] at h
    obtain ⟨c, hc, hr⟩ := Option.map_eq_some_iff.mp h
    rw [List.cons_append, step_cons, hc]
    obtain ⟨rfl, rfl⟩ := Prod.mk.injEq .. ▸ hr
    simp

/-- Code that is followed by other code steps as it does alone. -/
theorem step_append_inv {s : StatementInst} {ss k : List StatementInst} {m : Memory} {c : Config}
    (h : step ext (s :: ss ++ k, m) = some c) :
    ∃ r m', step ext (s :: ss, m) = some (r, m') ∧ c = (r ++ k, m') := by
  rw [List.cons_append, step_cons] at h
  obtain ⟨c', hc', rfl⟩ := Option.map_eq_some_iff.mp h
  refine ⟨c'.1 ++ ss, c'.2, ?_, by simp⟩
  rw [step_cons, hc']
  rfl

theorem Steps.append {ss r : List StatementInst} {m m' : Memory}
    (h : Steps ext (ss, m) (r, m')) (k : List StatementInst) :
    Steps ext (ss ++ k, m) (r ++ k, m') := by
  generalize hc : (ss, m) = c at h
  induction h using Relation.ReflTransGen.head_induction_on generalizing ss m with
  | refl =>
    obtain ⟨rfl, rfl⟩ := Prod.mk.injEq .. ▸ hc
    exact .refl
  | head hstep _ ih =>
    rename_i c₀ c₁
    subst hc
    exact .head (step_append hstep k) (ih rfl)

theorem Runs.nil (m : Memory) : Runs ext [] m m := Relation.ReflTransGen.refl

/-- Code runs after other code. -/
theorem Runs.append {a b : List StatementInst} {m m₁ m₂ : Memory}
    (ha : Runs ext a m m₁) (hb : Runs ext b m₁ m₂) : Runs ext (a ++ b) m m₂ :=
  (Steps.append ha b).trans hb

theorem Runs.cons {s : StatementInst} {k r : List StatementInst} {m m₁ m₂ : Memory}
    (hs : step ext (s :: k, m) = some (r, m₁)) (h : Runs ext r m₁ m₂) :
    Runs ext (s :: k) m m₂ :=
  Relation.ReflTransGen.head hs h

/-- An execution of two pieces of code executes the first one, then the second one. -/
theorem Runs.append_inv {a b : List StatementInst} {m m₂ : Memory}
    (h : Runs ext (a ++ b) m m₂) : ∃ m₁, Runs ext a m m₁ ∧ Runs ext b m₁ m₂ := by
  unfold Runs at h
  generalize hc : (a ++ b, m) = c at h
  induction h using Relation.ReflTransGen.head_induction_on generalizing a m with
  | refl =>
    obtain ⟨hnil, rfl⟩ := Prod.mk.injEq .. ▸ hc
    obtain ⟨rfl, rfl⟩ := List.append_eq_nil_iff.mp hnil
    exact ⟨m, .nil m, .nil m⟩
  | head hstep hrest ih =>
    subst hc
    cases a with
    | nil => exact ⟨m, .nil m, Relation.ReflTransGen.head hstep hrest⟩
    | cons s ss =>
      obtain ⟨r, m', hs, rfl⟩ := step_append_inv hstep
      obtain ⟨m₁, h₁, h₂⟩ := ih rfl
      exact ⟨m₁, h₁.cons hs, h₂⟩

/-- Execution is deterministic. -/
theorem Runs.unique {ss : List StatementInst} {m m₁ m₂ : Memory}
    (h₁ : Runs ext ss m m₁) (h₂ : Runs ext ss m m₂) : m₁ = m₂ := by
  unfold Runs at h₁ h₂
  generalize (ss, m) = c at h₁ h₂
  induction h₁ using Relation.ReflTransGen.head_induction_on with
  | refl =>
    obtain hnil | ⟨c', hstep, _⟩ := h₂.cases_head
    · exact (Prod.mk.inj hnil).2
    · simp [step] at hstep
  | head hstep _ ih =>
    obtain rfl | ⟨c', hstep', hrest⟩ := h₂.cases_head
    · simp [step] at hstep
    · rw [hstep] at hstep'
      obtain rfl := Option.some.inj hstep'
      exact ih hrest

/-- A declaration or an assignment that comes first is executed in one step. -/
theorem Runs.cons_inv {s : StatementInst} {k : List StatementInst} {m m₁ m' : Memory}
    (hs : step ext ([s], m) = some ([], m₁)) (h : Runs ext (s :: k) m m') : Runs ext k m₁ m' := by
  obtain heq | ⟨c, hstep, hrest⟩ := Relation.ReflTransGen.cases_head h
  · simp at heq
  · rw [step_cons, hs] at hstep
    obtain rfl := Option.some.inj hstep
    exact hrest

theorem Runs.block_inv {code : List StatementInst} {m m' : Memory}
    (h : Runs ext [.block code] m m') : Runs ext code m m' := by
  obtain heq | ⟨c, hstep, hrest⟩ := Relation.ReflTransGen.cases_head h
  · simp at heq
  · obtain rfl := Option.some.inj hstep
    rwa [List.append_nil] at hrest

theorem Runs.ifInst_inv {c : ValueInst} {t e : List StatementInst} {m m' : Memory} {v : Val}
    (hc : c.eval ext m = some v) (h : Runs ext [.ifInst c t e] m m') :
    Runs ext (if v.truth then t else e) m m' := by
  obtain heq | ⟨c', hstep, hrest⟩ := Relation.ReflTransGen.cases_head h
  · simp at heq
  · simp only [step, hc, Option.pure_def, Option.bind_eq_bind, Option.bind_some,
      List.append_nil] at hstep
    obtain rfl := Option.some.inj hstep
    exact hrest

/-! ## Integers -/

section
variable {m : Memory} {a b : ValueInst} {i j : ℤ}

theorem eval_genAdd (ha : a.eval ext m = some (.int (.ofInt 32 i)))
    (hb : b.eval ext m = some (.int (.ofInt 32 j))) :
    (InstBuilder.genAdd a b).eval ext m = some (.int (.ofInt 32 (i + j))) := by
  simp [InstBuilder.genAdd, ValueInst.eval, ha, hb, Val.binop, Val.intOp, BitVec.ofInt_add]

theorem eval_genSub (ha : a.eval ext m = some (.int (.ofInt 32 i)))
    (hb : b.eval ext m = some (.int (.ofInt 32 j))) :
    (InstBuilder.genSub a b).eval ext m = some (.int (.ofInt 32 (i - j))) := by
  simp [InstBuilder.genSub, ValueInst.eval, ha, hb, Val.binop, Val.intOp, Bits.ofInt_sub]

/-- The conjunction with the mask of the low bits. -/
theorem eval_genAnd_mask {k : ℕ} (hk : k < 31) (ha : a.eval ext m = some (.int (.ofInt 32 i))) :
    (InstBuilder.genAnd a (.intNum (2 ^ k - 1))).eval ext m =
      some (.int (.ofInt 32 (i % 2 ^ k))) := by
  simp [InstBuilder.genAnd, ValueInst.eval, ha, Val.binop, Val.intOp, Bits.ofInt_and_mask i hk]

theorem eval_intNum (i : ℤ) : (ValueInst.intNum i).eval ext m = some (.int (.ofInt 32 i)) := rfl

theorem toInt_ofInt_of_le {i : ℤ} (hlo : -2 ^ 31 ≤ i) (hhi : i < 2 ^ 31) :
    (BitVec.ofInt 32 i).toInt = i := by
  rw [BitVec.toInt_ofInt]
  exact Int.bmod_eq_of_le (by omega) (by omega)

theorem toInt_ofInt_of_lt {i : ℕ} (h : i < 2 ^ 31) : (BitVec.ofInt 32 (i : ℤ)).toInt = i :=
  toInt_ofInt_of_le (by omega) (by omega)

theorem Val.ofBool_truth (b : Bool) : (Val.ofBool b).truth = b := by
  cases b <;> rfl

/-- The comparison of two numbers. -/
theorem genLessThan_truth_of_eval (hi : -2 ^ 31 ≤ i ∧ i < 2 ^ 31) (hj : -2 ^ 31 ≤ j ∧ j < 2 ^ 31)
    (ha : a.eval ext m = some (.int (.ofInt 32 i)))
    (hb : b.eval ext m = some (.int (.ofInt 32 j))) :
    ∃ v, (InstBuilder.genLessThan a b).eval ext m = some v ∧ v.truth = decide (i < j) := by
  refine ⟨Val.ofBool (decide (i < j)), ?_, Val.ofBool_truth _⟩
  have hslt : (BitVec.ofInt 32 i).slt (.ofInt 32 j) = decide (i < j) := by
    rw [BitVec.slt, toInt_ofInt_of_le hi.1 hi.2, toInt_ofInt_of_le hj.1 hj.2]
  rw [← hslt]
  simp [InstBuilder.genLessThan, ValueInst.eval, ha, hb, Val.binop, Val.intOp]

theorem genLessEqual_truth (hi : -2 ^ 31 ≤ i ∧ i < 2 ^ 31) (hj : -2 ^ 31 ≤ j ∧ j < 2 ^ 31)
    (ha : a.eval ext m = some (.int (.ofInt 32 i)))
    (hb : b.eval ext m = some (.int (.ofInt 32 j))) :
    ∃ v, (InstBuilder.genLessEqual a b).eval ext m = some v ∧ v.truth = decide (i ≤ j) := by
  refine ⟨Val.ofBool (decide (i ≤ j)), ?_, Val.ofBool_truth _⟩
  have hsle : (BitVec.ofInt 32 i).sle (.ofInt 32 j) = decide (i ≤ j) := by
    rw [BitVec.sle, toInt_ofInt_of_le hi.1 hi.2, toInt_ofInt_of_le hj.1 hj.2]
  rw [← hsle]
  simp [InstBuilder.genLessEqual, ValueInst.eval, ha, hb, Val.binop, Val.intOp]

/-- The contents of an `int` variable. -/
def intCell (i : ℤ) : Cell := .scalar (some (.int (.ofInt 32 i)))

theorem eval_loadVar {a : NamedAddress} (h : m a.fName = intCell i) :
    (ValueInst.loadVar a).eval ext m = some (.int (.ofInt 32 i)) := by
  simp [ValueInst.eval, h, intCell]

variable (ext) in
theorem eval_genLoadLoopVar {index : String} (h : m index = intCell i) :
    (InstBuilder.genLoadLoopVar index).eval ext m = some (.int (.ofInt 32 i)) := eval_loadVar h

variable (ext) in
theorem eval_genLoadStructVar {n : String} (h : m n = intCell i) :
    (InstBuilder.genLoadStructVar n).eval ext m = some (.int (.ofInt 32 i)) := eval_loadVar h

variable (ext) in
theorem eval_genLoadStackVar {n : String} (h : m n = intCell i) :
    (InstBuilder.genLoadStackVar n).eval ext m = some (.int (.ofInt 32 i)) := eval_loadVar h

/-- An `int` variable is assigned. -/
theorem step_storeVar_int {a : NamedAddress} {v : ValueInst} (ha : m a.fName = intCell j)
    (hv : v.eval ext m = some (.int (.ofInt 32 i))) :
    step ext ([.storeVar a v], m) = some ([], Function.update m a.fName (intCell i)) := by
  simp [step, storeCell, ha, hv, intCell]

end

/-! ## Arrays -/

theorem resolve_array {m : Memory} {n : String} {vs : List (Option Val)} (hn : m n = .array vs)
    (i : ℤ) : m.resolve n i = (n, i) := by
  simp [Memory.resolve, hn]

/-- An element is read through a variable that stands for an array or points into one. -/
theorem eval_loadArrayVar_resolve {m : Memory} {a : NamedAddress} {i : ValueInst} {b : BitVec 32}
    {base : String} {vs : List (Option Val)} {k : ℕ} {w : Option Val}
    (hi : i.eval ext m = some (.int b)) (ha : m.resolve a.fName b.toInt = (base, (k : ℤ)))
    (hbase : m base = .array vs) (hk : vs[k]? = some w) :
    (ValueInst.loadArrayVar a i).eval ext m = w := by
  simp [ValueInst.eval, hi, Memory.loadArray, ha, hbase, Memory.getAt, hk]

/-- An element of an array is read. -/
theorem eval_loadArrayVar {m : Memory} {a : NamedAddress} {i : ValueInst} {b : BitVec 32}
    {vs : List (Option Val)} {k : ℕ} {w : Option Val} (hn : m a.fName = .array vs)
    (hi : i.eval ext m = some (.int b)) (hb : b.toInt = k) (hk : vs[k]? = some w) :
    (ValueInst.loadArrayVar a i).eval ext m = w :=
  eval_loadArrayVar_resolve hi (hb ▸ resolve_array hn b.toInt) hn hk

variable (ext) in
/-- An element is assigned through a variable that stands for an array or points into one. -/
theorem step_storeArrayVar_resolve {m : Memory} {a : NamedAddress} {i v : ValueInst}
    {b : BitVec 32} {base : String} {vs : List (Option Val)} {k : ℕ} {w : Val}
    (hi : i.eval ext m = some (.int b)) (ha : m.resolve a.fName b.toInt = (base, (k : ℤ)))
    (hbase : m base = .array vs) (hk : k < vs.length) (hv : v.eval ext m = some w) :
    step ext ([.storeArrayVar a i v], m) =
      some ([], Function.update m base (.array (vs.set k (some w)))) := by
  simp [step, hi, hv, Memory.storeArray, ha, hbase, hk]

variable (ext) in
/-- An element of an array is assigned. -/
theorem step_storeArrayVar {m : Memory} {a : NamedAddress} {i v : ValueInst} {b : BitVec 32}
    {vs : List (Option Val)} {k : ℕ} {w : Val} (hn : m a.fName = .array vs)
    (hi : i.eval ext m = some (.int b)) (hb : b.toInt = k) (hk : k < vs.length)
    (hv : v.eval ext m = some w) :
    step ext ([.storeArrayVar a i v], m) =
      some ([], Function.update m a.fName (.array (vs.set k (some w)))) :=
  step_storeArrayVar_resolve ext hi (hb ▸ resolve_array hn b.toInt) hn hk hv

/-! ## Loops -/

/-- One turn of a loop, or its end. -/
theorem runs_whileLoop {c : ValueInst} {code : List StatementInst} {m m' : Memory} {v : Val}
    (hc : c.eval ext m = some v) :
    Runs ext [.whileLoop c code] m m' ↔
      if v.truth then ∃ m₁, Runs ext code m m₁ ∧ Runs ext [.whileLoop c code] m₁ m' else m = m' := by
  have hstep : step ext ([.whileLoop c code], m) =
      some (if v.truth then code ++ [.whileLoop c code] else [], m) := by
    simp [step, hc]
  constructor
  · intro h
    obtain heq | ⟨c', hs, hrest⟩ := Relation.ReflTransGen.cases_head h
    · simp at heq
    · rw [hstep] at hs
      obtain rfl := Option.some.inj hs
      cases hv : v.truth with
      | true =>
        simp only [hv, if_true] at hrest ⊢
        exact Runs.append_inv hrest
      | false =>
        simp only [hv, Bool.false_eq_true, if_false] at hrest ⊢
        exact (Runs.nil m).unique hrest
  · intro h
    refine Runs.cons hstep ?_
    cases hv : v.truth with
    | true =>
      simp only [hv, if_true] at h ⊢
      obtain ⟨m₁, h₁, h₂⟩ := h
      exact h₁.append h₂
    | false =>
      simp only [hv, Bool.false_eq_true, if_false] at h ⊢
      exact h ▸ Runs.nil m

/-- A loop whose turns keep an invariant ends, after `n` turns. -/
theorem runs_whileLoop_of_invariant {c : ValueInst} {code : List StatementInst} {n : ℕ}
    (inv : ℕ → Memory → Prop)
    (hturn : ∀ j m, j < n → inv j m → (∃ v, c.eval ext m = some v ∧ v.truth = true) ∧
      ∃ m₁, Runs ext code m m₁ ∧ inv (j + 1) m₁)
    (hend : ∀ m, inv n m → ∃ v, c.eval ext m = some v ∧ v.truth = false)
    {i : ℕ} (hi : i ≤ n) {m : Memory} (hm : inv i m) :
    ∃ m', Runs ext [.whileLoop c code] m m' ∧ inv n m' := by
  induction hk : n - i generalizing i m with
  | zero =>
    obtain rfl : i = n := by omega
    obtain ⟨v, hv, htruth⟩ := hend m hm
    exact ⟨m, (runs_whileLoop hv).mpr (by simp [htruth]), hm⟩
  | succ k ih =>
    obtain ⟨⟨v, hv, htruth⟩, m₁, hrun, h₁⟩ := hturn i m (by omega) hm
    obtain ⟨m', hrest, hm'⟩ := ih (by omega) h₁ (by omega)
    exact ⟨m', (runs_whileLoop hv).mpr (by simpa [htruth] using ⟨m₁, hrun, hrest⟩), hm'⟩

/-- The code of a loop that has ended kept an invariant, and the condition is false. -/
theorem Runs.whileLoop_invariant {c : ValueInst} {code : List StatementInst} (inv : Memory → Prop)
    (hturn : ∀ m m₁ v, inv m → c.eval ext m = some v → v.truth = true → Runs ext code m m₁ →
      inv m₁) {m m' : Memory} (hm : inv m) (h : Runs ext [.whileLoop c code] m m') :
    inv m' ∧ ∃ v, c.eval ext m' = some v ∧ v.truth = false := by
  -- `s` is what remains of the current turn
  have hrest : ∀ (cf : Config) (s : List StatementInst) (m : Memory),
      Steps ext cf ([], m') → cf = (s ++ [.whileLoop c code], m) →
      (∀ m₁, Runs ext s m m₁ → inv m₁) → inv m' ∧ ∃ v, c.eval ext m' = some v ∧ v.truth = false := by
    intro cf s m hrun
    induction hrun using Relation.ReflTransGen.head_induction_on generalizing s m with
    | refl => simp
    | head hstep hrun ih =>
      rintro rfl hinv
      cases s with
      | nil =>
        simp only [List.nil_append, step, Option.pure_def, Option.bind_eq_bind,
          Option.bind_eq_some_iff] at hstep
        obtain ⟨v, hv, hnext⟩ := hstep
        obtain rfl := Option.some.inj hnext
        cases htruth : v.truth with
        | true =>
          apply ih code m (by simp [htruth])
          exact fun m₁ hcode => hturn m m₁ v (hinv m (.nil m)) hv htruth hcode
        | false =>
          simp only [htruth, Bool.false_eq_true, if_false] at hrun
          obtain rfl := (Runs.nil m).unique hrun
          exact ⟨hinv m (.nil m), v, hv, htruth⟩
      | cons t s =>
        obtain ⟨r, m₁, hs, rfl⟩ := step_append_inv hstep
        exact ih r m₁ rfl fun m₂ hr => hinv m₂ (hr.cons hs)
  exact hrest _ [] m h rfl fun m₁ hnil => (Runs.nil m).unique hnil ▸ hm

/-- A `for` loop is its initialisation and a `while` loop. -/
theorem runs_forLoop {init incr : StatementInst} {end_ : ValueInst} {code : List StatementInst}
    {m m' : Memory} :
    Runs ext [.forLoop init end_ incr code] m m' ↔
      ∃ m₁, Runs ext [init] m m₁ ∧ Runs ext [.whileLoop end_ (code ++ [incr])] m₁ m' := by
  have hstep : step ext ([.forLoop init end_ incr code], m) =
      some ([init] ++ [.whileLoop end_ (code ++ [incr])], m) := rfl
  constructor
  · intro h
    obtain heq | ⟨c', hs, hrest⟩ := Relation.ReflTransGen.cases_head h
    · simp at heq
    · rw [hstep] at hs
      obtain rfl := Option.some.inj hs
      exact Runs.append_inv hrest
  · rintro ⟨m₁, h₁, h₂⟩
    exact Runs.cons hstep (h₁.append h₂)

/-- A statement that ends in one step. -/
theorem runs_singleton {s : StatementInst} {m m₁ m' : Memory}
    (hs : step ext ([s], m) = some ([], m₁)) : Runs ext [s] m m' ↔ m₁ = m' := by
  have hrun : Runs ext [s] m m₁ := Runs.cons hs (.nil m₁)
  exact ⟨fun h => hrun.unique h, fun h => h ▸ hrun⟩

/-! ## Counting loops -/

/-- Turns `i` to `n` of a counting loop, from the memory at the start of turn `i`, where the
index is `i`. -/
inductive Turns (ext : ExternFun) (index : String) (code : List StatementInst) :
    ℕ → ℕ → Memory → Memory → Prop
  | none (i : ℕ) (m : Memory) : Turns ext index code i i m m
  | turn {i n : ℕ} {m m₁ m' : Memory} : Runs ext code m m₁ →
      Turns ext index code (i + 1) n (Function.update m₁ index (intCell (i + 1))) m' →
      Turns ext index code i n m m'

theorem Turns.le {index : String} {code : List StatementInst} {i n : ℕ} {m m' : Memory}
    (h : Turns ext index code i n m m') : i ≤ n := by
  induction h with
  | none => exact le_rfl
  | turn _ _ ih => omega

theorem Turns.trans {index : String} {code : List StatementInst} {i j n : ℕ}
    {m m₁ m' : Memory} (h : Turns ext index code i j m m₁) (h' : Turns ext index code j n m₁ m') :
    Turns ext index code i n m m' := by
  induction h with
  | none => exact h'
  | turn hrun _ ih => exact .turn hrun (ih h')

/-- The turns up to `j`, and those from `j` on. -/
theorem Turns.split {index : String} {code : List StatementInst} {i n : ℕ} {m m' : Memory}
    (h : Turns ext index code i n m m') {j : ℕ} (hij : i ≤ j) (hjn : j ≤ n) :
    ∃ m₁, Turns ext index code i j m m₁ ∧ Turns ext index code j n m₁ m' := by
  induction h with
  | none i m =>
    obtain rfl : i = j := by omega
    exact ⟨m, .none i m, .none i m⟩
  | @turn i n m m₀ m' hrun hrest ih =>
    by_cases hi : i = j
    · exact ⟨m, hi ▸ .none i m, hi ▸ .turn hrun hrest⟩
    · obtain ⟨m₁, h₁, h₂⟩ := ih (by omega) hjn
      exact ⟨m₁, .turn hrun h₁, h₂⟩

/-- The last turn. -/
theorem Turns.last {index : String} {code : List StatementInst} {i n : ℕ} {m m' : Memory}
    (h : Turns ext index code i (n + 1) m m') (hin : i ≤ n) :
    ∃ m₁ m₂, Turns ext index code i n m m₁ ∧ Runs ext code m₁ m₂ ∧
      m' = Function.update m₂ index (intCell (n + 1)) := by
  obtain ⟨m₁, h₁, h₂⟩ := h.split hin (Nat.le_succ n)
  cases h₂ with
  | turn hrun hrest =>
    cases hrest with
    | none => exact ⟨m₁, _, h₁, hrun, rfl⟩
    | turn _ hmore => exact absurd hmore.le (by omega)

/-- An invariant of the turns. -/
theorem Turns.invariant {index : String} {code : List StatementInst} (inv : ℕ → Memory → Prop)
    {i n : ℕ} {m m' : Memory} (h : Turns ext index code i n m m')
    (hturn : ∀ j m m₁, j < n → inv j m → Runs ext code m m₁ →
      inv (j + 1) (Function.update m₁ index (intCell (j + 1))))
    (hm : inv i m) : inv n m' := by
  induction h with
  | none => exact hm
  | turn hrun hrest ih => exact ih hturn (hturn _ _ _ hrest.le hm hrun)

section
variable {index : String} {end_ : ValueInst} {code : List StatementInst} {n : ℕ}

/-- The condition of a counting loop. -/
theorem genLessThan_truth {m : Memory} {i : ℕ} (hi : i < 2 ^ 31) (hn : n < 2 ^ 31)
    (hm : m index = intCell i) (hend : end_.eval ext m = some (.int (.ofInt 32 n))) :
    ∃ v, (InstBuilder.genLessThan (InstBuilder.genLoadLoopVar index) end_).eval ext m = some v ∧
      v.truth = decide (i < n) := by
  obtain ⟨v, hv, htruth⟩ := genLessThan_truth_of_eval (i := i) (j := n) (by omega) (by omega)
    (eval_genLoadLoopVar ext hm) hend
  exact ⟨v, hv, by rw [htruth, decide_eq_decide]; omega⟩

/-- The initialisation of a loop. -/
theorem step_genDecLoopVar (index : String) (i : ℤ) (m : Memory) :
    step ext ([InstBuilder.genDecLoopVar index (.basic .kInt) (some (.intNum i))], m) =
      some ([], Function.update m index (intCell i)) := by
  simp [InstBuilder.genDecLoopVar, step, declareCell, ValueInst.eval, intCell]

/-- The increment of a counting loop. -/
theorem step_increment {m : Memory} {i : ℕ} (hm : m index = intCell i) :
    step ext ([InstBuilder.genStoreLoopVar index
        (InstBuilder.genAdd (InstBuilder.genLoadLoopVar index) (.intNum 1))], m) =
      some ([], Function.update m index (intCell (i + 1))) :=
  step_storeVar_int hm (eval_genAdd (eval_genLoadLoopVar ext hm) (eval_intNum 1))

/-- A counting loop executes its code for each index, where `P` is what the code leaves
unchanged and the bound depends on. -/
theorem runs_genCountLoop (P : Memory → Prop) (hn : n < 2 ^ 31)
    (hP : ∀ m i, P m → P (Function.update m index (intCell i)))
    (hend : ∀ m, P m → end_.eval ext m = some (.int (.ofInt 32 n)))
    (hcode : ∀ m m₁, P m → Runs ext code m m₁ → P m₁ ∧ m₁ index = m index)
    {m m' : Memory} (hm : P m) :
    Runs ext [InstBuilder.genCountLoop index end_ code] m m' ↔
      Turns ext index code 0 n (Function.update m index (intCell 0)) m' := by
  have hwhile : ∀ (k i : ℕ) (m : Memory), i + k = n → P m → m index = intCell i →
      (Runs ext [.whileLoop (InstBuilder.genLessThan (InstBuilder.genLoadLoopVar index) end_)
        (code ++ [InstBuilder.genStoreLoopVar index
          (InstBuilder.genAdd (InstBuilder.genLoadLoopVar index) (.intNum 1))])] m m' ↔
        Turns ext index code i n m m') := by
    intro k
    induction k with
    | zero =>
      intro i m hik hPm hi
      obtain ⟨v, hv, htruth⟩ := genLessThan_truth (by omega) hn hi (hend m hPm)
      obtain rfl : i = n := by omega
      rw [runs_whileLoop hv, htruth]
      simp only [lt_irrefl, decide_false, Bool.false_eq_true, if_false]
      exact ⟨fun h => h ▸ .none i m, fun h => by cases h with
        | none => rfl
        | turn _ hrest => exact absurd hrest.le (by omega)⟩
    | succ k ih =>
      intro i m hik hPm hi
      obtain ⟨v, hv, htruth⟩ := genLessThan_truth (by omega) hn hi (hend m hPm)
      have hlt : i < n := by omega
      rw [runs_whileLoop hv, htruth]
      simp only [hlt, decide_true, if_true]
      constructor
      · rintro ⟨m₂, hrun, hrest⟩
        obtain ⟨m₁, h₁, h₂⟩ := hrun.append_inv
        obtain ⟨hP₁, hi₁⟩ := hcode m m₁ hPm h₁
        rw [runs_singleton (step_increment (hi₁.trans hi))] at h₂
        subst h₂
        exact .turn h₁ ((ih (i + 1) _ (by omega) (hP _ _ hP₁) (by simp)).mp hrest)
      · intro h
        cases h with
        | none => omega
        | @turn _ _ _ m₁ _ h₁ hrest =>
          obtain ⟨hP₁, hi₁⟩ := hcode m m₁ hPm h₁
          refine ⟨_, h₁.append ((runs_singleton (step_increment (hi₁.trans hi))).mpr rfl), ?_⟩
          exact (ih (i + 1) _ (by omega) (hP _ _ hP₁) (by simp)).mpr hrest
  rw [InstBuilder.genCountLoop, runs_forLoop]
  constructor
  · rintro ⟨m₁, h₁, h₂⟩
    rw [runs_singleton (step_genDecLoopVar index 0 m)] at h₁
    subst h₁
    exact (hwhile n 0 _ (by omega) (hP _ _ hm) (by simp)).mp h₂
  · intro h
    exact ⟨_, (runs_singleton (step_genDecLoopVar index 0 m)).mpr rfl,
      (hwhile n 0 _ (by omega) (hP _ _ hm) (by simp)).mpr h⟩

/-- A counting loop whose turns keep an invariant ends. -/
theorem runs_genCountLoop_of_invariant (inv : ℕ → Memory → Prop) (hn : n < 2 ^ 31)
    (hend : ∀ j m, inv j m → end_.eval ext m = some (.int (.ofInt 32 n)))
    (hturn : ∀ j m, j < n → m index = intCell j → inv j m → ∃ m₁, Runs ext code m m₁ ∧
      m₁ index = intCell j ∧ inv (j + 1) (Function.update m₁ index (intCell (j + 1))))
    {m : Memory} (hm : inv 0 (Function.update m index (intCell 0))) :
    ∃ m', Runs ext [InstBuilder.genCountLoop index end_ code] m m' ∧ inv n m' := by
  have hloop : ∃ m', Runs ext [.whileLoop
      (InstBuilder.genLessThan (InstBuilder.genLoadLoopVar index) end_)
      (code ++ [InstBuilder.genStoreLoopVar index
        (InstBuilder.genAdd (InstBuilder.genLoadLoopVar index) (.intNum 1))])]
      (Function.update m index (intCell 0)) m' ∧ m' index = intCell n ∧ inv n m' := by
    apply runs_whileLoop_of_invariant (fun j m => m index = intCell j ∧ inv j m) ?_ ?_
      (Nat.zero_le n) ⟨by simp, hm⟩
    · intro j m hj hinv
      obtain ⟨v, hv, htruth⟩ := genLessThan_truth (by omega) hn hinv.1 (hend j m hinv.2)
      obtain ⟨m₁, hrun, hidx, hinv₁⟩ := hturn j m hj hinv.1 hinv.2
      exact ⟨⟨v, hv, by simp [htruth, hj]⟩, _,
        hrun.append ((runs_singleton (step_increment hidx)).mpr rfl), by simp, hinv₁⟩
    · intro m hinv
      obtain ⟨v, hv, htruth⟩ := genLessThan_truth hn hn hinv.1 (hend n m hinv.2)
      exact ⟨v, hv, by simp [htruth]⟩
  obtain ⟨m', hrun, _, hinv⟩ := hloop
  refine ⟨m', ?_, hinv⟩
  rw [InstBuilder.genCountLoop, runs_forLoop]
  exact ⟨_, (runs_singleton (step_genDecLoopVar index 0 m)).mpr rfl, hrun⟩

/-- A counting loop whose turns keep an invariant has executed its code for each index. -/
theorem Runs.genCountLoop_turns (inv : ℕ → Memory → Prop) (hn : n < 2 ^ 31) {m m' : Memory}
    (hend : ∀ j m, inv j m → end_.eval ext m = some (.int (.ofInt 32 n)))
    (hturn : ∀ j mj m₁, j < n →
      Turns ext index code 0 j (Function.update m index (intCell 0)) mj →
      inv j mj → mj index = intCell j → Runs ext code mj m₁ →
      m₁ index = intCell j ∧ inv (j + 1) (Function.update m₁ index (intCell (j + 1))))
    (hm : inv 0 (Function.update m index (intCell 0)))
    (h : Runs ext [InstBuilder.genCountLoop index end_ code] m m') :
    Turns ext index code 0 n (Function.update m index (intCell 0)) m' ∧ inv n m' := by
  rw [InstBuilder.genCountLoop, runs_forLoop] at h
  obtain ⟨m₀, hinit, hloop⟩ := h
  obtain rfl := (runs_singleton (step_genDecLoopVar index 0 m)).mp hinit
  let invj : Memory → Prop := fun mj => ∃ j ≤ n,
    Turns ext index code 0 j (Function.update m index (intCell 0)) mj ∧ inv j mj ∧
      mj index = intCell j
  obtain ⟨⟨j, hjn, hturns, hinv, hidx⟩, v, hv, hfalse⟩ :=
    hloop.whileLoop_invariant invj (by
      rintro mj m₂ v ⟨j, hjn, hturns, hinv, hidx⟩ hv htrue hrun
      obtain ⟨w, hw, htruth⟩ := genLessThan_truth (by omega) hn hidx (hend j mj hinv)
      obtain rfl := Option.some.inj (hw.symm.trans hv)
      have hlt : j < n := by simpa [htruth] using htrue
      obtain ⟨m₁, hcode, hincr⟩ := hrun.append_inv
      obtain ⟨hidx₁, hinv₁⟩ := hturn j mj m₁ hlt hturns hinv hidx hcode
      obtain rfl := (runs_singleton (step_increment hidx₁)).mp hincr
      exact ⟨j + 1, hlt, hturns.trans (.turn hcode (.none _ _)), hinv₁, Function.update_self ..⟩)
      ⟨0, Nat.zero_le n, .none _ _, hm, Function.update_self ..⟩
  -- the condition is false at the end only
  obtain ⟨w, hw, htruth⟩ := genLessThan_truth (by omega) hn hidx (hend j m' hinv)
  obtain rfl := Option.some.inj (hw.symm.trans hv)
  have hge : ¬ j < n := by simpa [htruth] using hfalse
  obtain rfl : j = n := by omega
  exact ⟨hturns, hinv⟩

end

end Faust.Fir
