import Faust.Generator.TextTheorems
import Faust.Signals.EnclosureTheorems
import Mathlib.Data.Rat.Floor

/-!
# The JavaScript text of a value

The numbers of JavaScript are reals, and its visitor prints neither a conversion of a result to
32 bits nor one of a real to an integer. Its text has the value of the C text when no operation
on integers overflows, no division of integers leaves a remainder, and a real that is converted
to an integer is integral: `JavaScript.Exact`.
-/

namespace Faust.Fir

open ExprGrammar

/-! ## Numbers and words -/

theorem ofInt_truncInt (i : ℤ) : BitVec.ofInt 32 (truncInt (i : ℚ)) = BitVec.ofInt 32 i := by
  rw [truncInt_intCast]

theorem ofInt_tdiv (a b : BitVec 32) : BitVec.ofInt 32 (a.toInt.tdiv b.toInt) = a.sdiv b := by
  apply BitVec.eq_of_toInt_eq
  rw [BitVec.toInt_ofInt, BitVec.toInt_sdiv]

theorem toInt_ne_zero {b : BitVec 32} (h : b ≠ 0) : (b.toInt : ℚ) ≠ 0 := by
  intro h0
  apply h
  apply BitVec.eq_of_toInt_eq
  simpa using h0

/-! ## Binary operations -/

namespace JavaScript

/-- The operation on words is the one on the integers they stand for. -/
def ExactOp (op : BinOp) (a b : BitVec 32) : Prop :=
  match op with
  | .kAdd => IsInt32 (a.toInt + b.toInt)
  | .kSub => IsInt32 (a.toInt - b.toInt)
  | .kMul => IsInt32 (a.toInt * b.toInt)
  | .kDiv => b.toInt ∣ a.toInt
  | _ => True

instance (op : BinOp) (a b : BitVec 32) : Decidable (ExactOp op a b) := by
  cases op <;> (simp only [ExactOp]; infer_instance)

theorem toInt32_of_toNumber {v : JsVal} {b : BitVec 32} (h : v.toNumber = b.toInt) :
    v.toInt32 = b := by
  rw [JsVal.toInt32, h, ofInt_truncInt, BitVec.ofInt_toInt]

@[simp] theorem toNumber_ofInt32 (b : BitVec 32) : (JsVal.ofInt32 b).toNumber = b.toInt := rfl

@[simp] theorem toInt32_ofInt32 (b : BitVec 32) : (JsVal.ofInt32 b).toInt32 = b :=
  toInt32_of_toNumber rfl

theorem toNumber_boolean (b : Bool) : (JsVal.boolean b).toNumber = (Val.ofBool b).toReal := by
  cases b <;> simp [JsVal.toNumber, Val.ofBool, Val.toReal]

/-- A number is the word it is read as when it is an integer in range. -/
theorem num_of_ofInt {i : ℤ} {c : BitVec 32} (h : BitVec.ofInt 32 i = c) :
    Val.int c = .int (JsVal.num i).toInt32 ∧
      (IsInt32 i → (JsVal.num i).toNumber = (Val.int c).toReal) := by
  constructor
  · rw [JsVal.toInt32, JsVal.toNumber, ofInt_truncInt, h]
  · intro hi
    rw [← h, JsVal.toNumber, Val.toReal, Interval.toInt_ofInt_of_isInt32 hi]

/-- A truth value is the word of the comparison that gives it. -/
theorem boolean_of_decide {b c : Bool} {P : Prop} (h : c = b) :
    ∃ r, some (JsVal.boolean c) = some r ∧ Val.ofBool b = .int r.toInt32 ∧
      (P → r.toNumber = (Val.ofBool b).toReal) := by
  refine ⟨_, rfl, ?_, fun _ => by rw [toNumber_boolean, h]⟩
  rw [h]
  cases b <;> simp [Val.ofBool, JsVal.toInt32, JsVal.toNumber, truncInt]

/-- A binary operation on the numbers of two words gives a number that is the result as a word,
and the result itself when the operation is exact. -/
theorem binary_intOp {op : BinOp} {a b : BitVec 32} {u : Val} {v w : JsVal}
    (h : Val.intOp op a b = some u) (hv : v.toNumber = a.toInt) (hw : w.toNumber = b.toInt) :
    ∃ r, binary op v w = some r ∧ u = .int r.toInt32 ∧
      (ExactOp op a b → r.toNumber = u.toReal) := by
  have hv32 := toInt32_of_toNumber hv
  have hw32 := toInt32_of_toNumber hw
  cases op <;> simp only [Val.intOp] at h <;> simp only [binary, hv, hw, hv32, hw32]
  case kAdd =>
    rw [← Option.some.inj h]
    refine ⟨.num (a.toInt + b.toInt : ℤ), by push_cast; rfl, num_of_ofInt ?_⟩
    rw [BitVec.ofInt_add, BitVec.ofInt_toInt, BitVec.ofInt_toInt]
  case kSub =>
    rw [← Option.some.inj h]
    refine ⟨.num (a.toInt - b.toInt : ℤ), by push_cast; rfl, num_of_ofInt ?_⟩
    rw [← Bits.ofInt_sub, BitVec.ofInt_toInt, BitVec.ofInt_toInt]
  case kMul =>
    rw [← Option.some.inj h]
    refine ⟨.num (a.toInt * b.toInt : ℤ), by push_cast; rfl, num_of_ofInt ?_⟩
    rw [BitVec.ofInt_mul, BitVec.ofInt_toInt, BitVec.ofInt_toInt]
  case kDiv =>
    split at h
    · simp at h
    next hb =>
      have hb0 : (b.toInt : ℚ) ≠ 0 := toInt_ne_zero fun h0 => hb (.inl h0)
      rw [if_neg hb0, ← Option.some.inj h]
      refine ⟨_, rfl, ?_, fun hd => ?_⟩
      · rw [JsVal.toInt32, JsVal.toNumber, truncInt_div, ofInt_tdiv]
      · have hq : (a.sdiv b).toInt = a.toInt.tdiv b.toInt := by
          rw [BitVec.toInt_sdiv_of_ne_or_ne]
          by_contra hne
          exact hb (.inr (by simpa using hne))
        rw [JsVal.toNumber, Val.toReal, hq, Int.tdiv_eq_ediv_of_dvd hd, Int.cast_div hd hb0]
  case kRem =>
    split at h
    · simp at h
    next hb =>
      have hb0 : (b.toInt : ℚ) ≠ 0 := toInt_ne_zero fun h0 => hb (.inl h0)
      rw [if_neg hb0, ← Option.some.inj h, truncInt_div]
      have hr : (a.srem b).toInt = a.toInt - b.toInt * a.toInt.tdiv b.toInt := by
        rw [BitVec.toInt_srem, Int.tmod_def]
      refine ⟨.num (a.toInt - b.toInt * a.toInt.tdiv b.toInt : ℤ), by push_cast; rfl, ?_, ?_⟩
      · rw [← hr, JsVal.toInt32, JsVal.toNumber, ofInt_truncInt, BitVec.ofInt_toInt]
      · rw [← hr]
        exact fun _ => rfl
  case kLsh | kRsh =>
    split at h
    next hb =>
      rw [← Option.some.inj h, Nat.mod_eq_of_lt hb]
      exact ⟨_, rfl, by rw [toInt32_ofInt32], fun _ => rfl⟩
    · simp at h
  case kAND | kOR | kXOR =>
    rw [← Option.some.inj h]
    exact ⟨_, rfl, by rw [toInt32_ofInt32], fun _ => rfl⟩
  case kGT | kLT =>
    rw [← Option.some.inj h]
    exact boolean_of_decide (decide_eq_decide.mpr Int.cast_lt)
  case kGE | kLE =>
    rw [← Option.some.inj h]
    exact boolean_of_decide (decide_eq_decide.mpr Int.cast_le)
  case kEQ =>
    rw [← Option.some.inj h]
    have heq : (a.toInt : ℚ) = b.toInt ↔ a = b := Int.cast_inj.trans BitVec.toInt_inj
    exact boolean_of_decide (by simp only [heq, beq_eq_decide])
  case kNE =>
    rw [← Option.some.inj h]
    have heq : (a.toInt : ℚ) = b.toInt ↔ a = b := Int.cast_inj.trans BitVec.toInt_inj
    exact boolean_of_decide (by simp only [ne_eq, heq, bne, beq_eq_decide, decide_not])

/-- A binary operation on the numbers of two reals. -/
theorem binary_realOp {op : BinOp} {x y : ℚ} {u : Val} {v w : JsVal}
    (h : Val.realOp op x y = some u) (hv : v.toNumber = x) (hw : w.toNumber = y) :
    ∃ r, binary op v w = some r ∧ r.toNumber = u.toReal := by
  cases op <;> simp only [Val.realOp, reduceCtorEq] at h <;> simp only [binary, hv, hw]
  case kDiv =>
    split at h
    · simp at h
    next hy =>
      rw [if_neg hy, ← Option.some.inj h]
      exact ⟨_, rfl, rfl⟩
  all_goals
    rw [← Option.some.inj h]
    first | exact ⟨_, rfl, rfl⟩ | exact ⟨_, rfl, toNumber_boolean _⟩

/-- The operation on two values is the one on the numbers they stand for. -/
def ExactVal (op : BinOp) : Val → Val → Prop
  | .int a, .int b => ExactOp op a b
  | _, _ => True

theorem binary_val {op : BinOp} {va vb u : Val} {v w : JsVal} (h : Val.binop op va vb = some u)
    (hv : v.toNumber = va.toReal) (hw : w.toNumber = vb.toReal) (he : ExactVal op va vb) :
    ∃ r, binary op v w = some r ∧ r.toNumber = u.toReal := by
  match va, vb, h, he with
  | .int a, .int b, h, he =>
    obtain ⟨r, hr, -, hu⟩ := binary_intOp h hv hw
    exact ⟨r, hr, hu he⟩
  | .int a, .real y, h, _ => exact binary_realOp h hv hw
  | .real x, .int b, h, _ => exact binary_realOp h hv hw
  | .real x, .real y, h, _ => exact binary_realOp h hv hw

/-- Only a comparison gives a truth value. -/
theorem binary_num {op : BinOp} {v w r : JsVal} (h : binary op v w = some r)
    (ho : isBoolOpcode op = false) : ∃ x, r = .num x := by
  cases op <;> simp only [isBoolOpcode, Bool.true_eq_false] at ho <;> simp only [binary] at h
  case kDiv | kRem =>
    split at h
    · simp at h
    · exact ⟨_, (Option.some.inj h).symm⟩
  all_goals exact ⟨_, (Option.some.inj h).symm⟩

theorem truth_eq {r : JsVal} {v : Val} (h : r.toNumber = v.toReal) : r.truth = v.truth := by
  have hr : r.truth = decide (r.toNumber ≠ 0) := by
    cases r with
    | boolean b => cases b <;> simp [JsVal.truth, JsVal.toNumber]
    | num x => rfl
  rw [hr, h]
  cases v with
  | int i =>
    have hi : (i.toInt : ℚ) = 0 ↔ i = 0 := by
      rw [Int.cast_eq_zero]
      exact BitVec.toInt_inj (y := 0#32)
    simp [Val.truth, Val.toReal, hi]
  | real x => rfl

/-! ## The text of a value -/

section
variable (gVarTypeTable : VarTypeTable) (m : Memory)

/-- The text of the value gives a truth value. -/
def yieldsBool : ValueInst → Bool
  | .binop op _ _ => isBoolOpcode op
  | .castNum a _ => yieldsBool a
  | .select2 c t e =>
    if (c.typedEval gVarTypeTable m).any Val.truth then yieldsBool t else yieldsBool e
  | _ => false

/-- No operation that is computed overflows or leaves a remainder, no real that is converted to
an integer has a fractional part, and no index is a truth value. -/
def Exact : ValueInst → Prop
  | .loadArrayVar _ i => Exact i ∧ yieldsBool gVarTypeTable m i = false
  | .binop op a b => Exact a ∧ Exact b ∧ ∀ va vb, a.typedEval gVarTypeTable m = some va →
    b.typedEval gVarTypeTable m = some vb → ExactVal op va vb
  | .castNum a t => Exact a ∧ (t = .kInt → ∀ x, a.typedEval gVarTypeTable m = some (.real x) →
    x.den = 1)
  | .select2 c t e => Exact c ∧ ∀ v, c.typedEval gVarTypeTable m = some v →
    (v.truth = true → Exact t) ∧ (v.truth = false → Exact e)
  | _ => True

end

section
variable {gVarTypeTable : VarTypeTable} {m : Memory}

/-- How a variable is written. -/
def nameExpr (a : NamedAddress) : Expr :=
  if a.fAccess = .kStruct then .member (.name "this") a.fName else .name a.fName

theorem textOf_named (a : NamedAddress) :
    TextOf types (JAVAScriptInstVisitor.named a) (nameExpr a) ∧ (nameExpr a).prec = 10 := by
  unfold JAVAScriptInstVisitor.named nameExpr
  split
  · exact ⟨⟨rfl, ⟨rfl, rfl⟩, by simp⟩, rfl⟩
  · exact ⟨.name rfl, rfl⟩

theorem eval_nameExpr {a : NamedAddress} {t : Typed}
    (ht : gVarTypeTable a.fName = some (a.fAccess, t)) :
    eval (jsEnv gVarTypeTable m) (nameExpr a) = (m.number a.fName).map .num := by
  unfold nameExpr
  split
  next h => simp [eval, jsEnv, ht, h]
  next h => simp [eval, jsEnv, ht, h]

theorem eval_index_nameExpr {a : NamedAddress} {t : Typed} {i : Expr}
    (ht : gVarTypeTable a.fName = some (a.fAccess, t)) :
    eval (jsEnv gVarTypeTable m) (.index (nameExpr a) i) =
      (eval (jsEnv gVarTypeTable m) i).bind (getElem (m.numberAt a.fName)) := by
  have hf : (fun v => getElem ((jsEnv gVarTypeTable m).fieldElem a.fName) v) =
      if a.fAccess = .kStruct then getElem (m.numberAt a.fName) else getElem fun _ => none := by
    by_cases h : a.fAccess = .kStruct <;> simp [jsEnv, ht, h]
  have he : (fun v => getElem ((jsEnv gVarTypeTable m).elem a.fName) v) =
      if a.fAccess = .kStruct then getElem fun _ => none else getElem (m.numberAt a.fName) := by
    by_cases h : a.fAccess = .kStruct <;> simp [jsEnv, ht, h]
  unfold nameExpr
  split
  next h => simp [eval, hf, h]
  next h => simp [eval, he, h]

theorem eval_intExpr (env : Env) (n : ℤ) : eval env (intExpr n) = some (.num n) := by
  unfold intExpr
  split
  next h =>
    have hn : (n : ℚ) = -(n.natAbs : ℚ) := by
      rw [← Int.cast_natCast, ← Int.cast_neg]
      congr 1
      omega
    show some (JsVal.num (-(n.natAbs : ℚ))) = _
    rw [hn]
  next h =>
    have hn : (n : ℚ) = (n.natAbs : ℚ) := by
      rw [← Int.cast_natCast]
      congr 1
      omega
    show some (JsVal.num (n.natAbs : ℚ)) = _
    rw [hn]

theorem eval_realExpr (env : Env) (x : ℚ) : eval env (realExpr x) = some (.num x) := by
  unfold realExpr
  split <;> simp [eval, JsVal.toNumber]

@[simp] theorem toReal_promote (v : Val) (real : Bool) : (v.promote real).toReal = v.toReal := by
  cases real <;> rfl

/-- The conversion of a value keeps its number, but for a real that is cut. -/
theorem toReal_cast {t : VarType} {v w : Val} (ht : t.Numeric) (h : Val.cast t v = some w)
    (hx : t = .kInt → ∀ x, v = .real x → x.den = 1) : w.toReal = v.toReal := by
  cases t with
  | kInt =>
    simp only [Val.cast, Option.map_eq_some_iff] at h
    obtain ⟨b, hb, rfl⟩ := h
    cases v with
    | int i => rw [Option.some.inj hb]
    | real x =>
      simp only [Val.toInt] at hb
      split at hb
      next hr =>
        have hx1 : (x.num : ℚ) = x := Rat.coe_int_num_of_den_eq_one (hx rfl x rfl)
        rw [← Option.some.inj hb, Val.toReal, Interval.toInt_ofInt_of_isInt32 hr, ← hx1,
          truncInt_intCast]
        rfl
      · simp at hb
  | kFloat | kFloatMacro | kDouble =>
    rw [← Option.some.inj h]
    rfl
  | kQuad | kBool => exact ht.elim

/-- The expression has the value, and gives a number unless the value is printed as a truth
value. -/
def Yields (env : Env) (x : Expr) (v : Val) (bool : Bool) : Prop :=
  ∃ r, eval env x = some r ∧ r.toNumber = v.toReal ∧ (bool = false → ∃ q, r = .num q)

/-- The JavaScript text of a well-typed value is well formed. It has the value of the C text when
the computation is exact. -/
theorem visit_text : ∀ {e : ValueInst}, e.WellTyped gVarTypeTable →
    ∃ ts x, JAVAScriptInstVisitor.visit e = some ts ∧ TextOf types ts x ∧
      (Exact gVarTypeTable m e → ∀ v, e.typedEval gVarTypeTable m = some v →
        Yields (jsEnv gVarTypeTable m) x v (yieldsBool gVarTypeTable m e))
  | .loadVar a, hw => by
    obtain ⟨-, t, ht, -⟩ := hw
    refine ⟨_, _, rfl, (textOf_named a).1, fun _ v hv => ?_⟩
    have hn : m.number a.fName = some v.toReal := by
      simp only [ValueInst.typedEval] at hv
      unfold Memory.number
      split at hv <;> simp_all
    exact ⟨.num v.toReal, by rw [eval_nameExpr ht, hn]; rfl, rfl, fun _ => ⟨_, rfl⟩⟩
  | .loadArrayVar a i, hw => by
    obtain ⟨-, ⟨t, n, ht, -⟩, hwi, -⟩ := hw
    obtain ⟨ts, x, hts, hx, hvx⟩ := visit_text hwi
    refine ⟨_, _, by simp [JAVAScriptInstVisitor.visit, hts],
      (textOf_named a).1.indexed (textOf_named a).2 hx, fun he v hv => ?_⟩
    simp only [ValueInst.typedEval] at hv
    split at hv
    next b hb =>
      obtain ⟨r, hr, hrn, hnum⟩ := hvx he.1 _ hb
      obtain ⟨q, rfl⟩ := hnum he.2
      have hq : q = (b.toInt : ℚ) := hrn
      refine ⟨.num v.toReal, ?_, rfl, fun _ => ⟨_, rfl⟩⟩
      rw [eval_index_nameExpr ht, hr]
      simp [getElem, hq, Memory.numberAt, hv]
    · simp at hv
  | .intNum n, hw => by
    refine ⟨_, _, rfl, .intNum n, fun _ v hv => ⟨_, eval_intExpr _ n, ?_, fun _ => ⟨_, rfl⟩⟩⟩
    rw [← Option.some.inj hv, Val.toReal, Interval.toInt_ofInt_of_isInt32 hw]
    rfl
  | .realNum t r, _ => by
    refine ⟨_, _, rfl, .realNum r, fun _ v hv => ⟨_, eval_realExpr _ r, ?_, fun _ => ⟨_, rfl⟩⟩⟩
    rw [← Option.some.inj hv]
    rfl
  | .boolNum b, _ => by
    refine ⟨_, _, rfl, .boolNum b, fun _ v hv => ⟨_, rfl, ?_, fun _ => ⟨_, rfl⟩⟩⟩
    rw [← Option.some.inj hv]
    cases b <;> simp [JsVal.toNumber, Val.ofBool, Val.toReal]
  | .binop op a b, hw => by
    obtain ⟨ts, x, hts, hx, hvx⟩ := visit_text hw.1
    obtain ⟨us, y, hus, hy, hvy⟩ := visit_text hw.2.1
    refine ⟨_, _, by simp [JAVAScriptInstVisitor.visit, hts, hus], hx.binop op hy,
      fun he v hv => ?_⟩
    simp only [ValueInst.typedEval, Option.bind_eq_bind, Option.bind_eq_some_iff] at hv
    obtain ⟨va, ha, vb, hb, hv⟩ := hv
    obtain ⟨r, hr, hrn, -⟩ := hvx he.1 va ha
    obtain ⟨s, hs, hsn, -⟩ := hvy he.2.1 vb hb
    obtain ⟨u, hu, hun⟩ := binary_val hv hrn hsn (he.2.2 va vb ha hb)
    exact ⟨u, by simp [eval, hr, hs, hu], hun, fun hb => binary_num hu hb⟩
  | .castNum a t, hw => by
    obtain ⟨ts, x, hts, hx, hvx⟩ := visit_text hw.1
    refine ⟨ts, x, hts, hx, fun he v hv => ?_⟩
    simp only [ValueInst.typedEval, Option.bind_eq_bind, Option.bind_eq_some_iff] at hv
    obtain ⟨va, ha, hv⟩ := hv
    obtain ⟨r, hr, hrn, hnum⟩ := hvx he.1 va ha
    refine ⟨r, hr, ?_, hnum⟩
    rw [hrn, toReal_cast hw.2 hv fun ht x hvx => he.2 ht x (by rw [ha, hvx])]
  | .select2 c t e, hw => by
    obtain ⟨ts, x, hts, hx, hvx⟩ := visit_text hw.1
    obtain ⟨us, y, hus, hy, hvy⟩ := visit_text hw.2.1
    obtain ⟨vs, z, hvs, hz, hvz⟩ := visit_text hw.2.2
    refine ⟨_, _, by simp [JAVAScriptInstVisitor.visit, hts, hus, hvs], hx.select2 hy hz,
      fun he v hv => ?_⟩
    rw [ValueInst.typedEval_select2, Option.bind_eq_some_iff] at hv
    obtain ⟨vc, hc, hv⟩ := hv
    obtain ⟨w, hw', rfl⟩ := Option.map_eq_some_iff.mp hv
    obtain ⟨r, hr, hrn, -⟩ := hvx he.1 vc hc
    have hrt := truth_eq hrn
    cases hvc : vc.truth
    · rw [hvc] at hw' hrt
      obtain ⟨s, hs, hsn, hnum⟩ := hvz ((he.2 vc hc).2 hvc) w hw'
      refine ⟨s, by simp [eval, hr, hrt, hs], by rw [hsn, toReal_promote], fun hb => hnum ?_⟩
      simpa [yieldsBool, hc, hvc] using hb
    · rw [hvc] at hw' hrt
      obtain ⟨s, hs, hsn, hnum⟩ := hvy ((he.2 vc hc).1 hvc) w hw'
      refine ⟨s, by simp [eval, hr, hrt, hs], by rw [hsn, toReal_promote], fun hb => hnum ?_⟩
      simpa [yieldsBool, hc, hvc] using hb

end

end JavaScript

end Faust.Fir
