import Faust.Generator.TargetLanguages
import Mathlib.Tactic.Common

/-!
# Well-typed values and their C text

The values whose text the back-ends agree on are made of numbers, loads of declared variables,
operators, conversions and selections. The C text of such a value is well formed, and means
what `typedEval` says: the meaning of FIR, with the branches of a selection converted to their
common type.
-/

namespace Faust.Fir

open ExprGrammar

/-! ## Types of values -/

/-- The types of the variables that hold numbers. -/
def VarType.Numeric : VarType → Prop
  | .kInt | .kFloat | .kFloatMacro | .kDouble => True
  | .kQuad | .kBool => False

/-- Whether a number is a real. -/
def Val.isReal : Val → Bool
  | .int _ => false
  | .real _ => true

/-- The words that no variable is named with. -/
def keyword (x : String) : Bool :=
  x == "int" || x == "float" || x == "true" || x == "false" || x == "this"

/-- The operators that C has on integers only. -/
def isIntOpcode : BinOp → Bool
  | .kRem | .kLsh | .kRsh | .kAND | .kOR | .kXOR => true
  | _ => false

section
variable (gVarTypeTable : VarTypeTable)

namespace ValueInst

/-- Whether the C type of a value is a real one. -/
def isReal : ValueInst → Bool
  | .loadVar a =>
    match gVarTypeTable a.fName with
    | some (_, .basic t) => t.isReal
    | _ => false
  | .loadArrayVar a _ =>
    match gVarTypeTable a.fName with
    | some (_, .array t _) => t.isReal
    | _ => false
  | .realNum _ _ => true
  | .binop op a b => !isBoolOpcode op && (isReal a || isReal b)
  | .castNum _ t => t.isReal
  | .select2 _ t e => isReal t || isReal e
  | _ => false

/-- Literals, loads of declared variables, operators on operands they apply to, conversions
between numbers, and selections. -/
def WellTyped : ValueInst → Prop
  | .loadVar a => keyword a.fName = false ∧
    ∃ t, gVarTypeTable a.fName = some (a.fAccess, .basic t) ∧ t.Numeric
  | .loadArrayVar a i => keyword a.fName = false ∧
    (∃ t n, gVarTypeTable a.fName = some (a.fAccess, .array t n) ∧ t.Numeric) ∧
      i.WellTyped ∧ i.isReal gVarTypeTable = false
  | .intNum n => IsInt32 n
  | .realNum t _ => t = .kFloat ∨ t = .kDouble
  | .boolNum _ => True
  | .binop op a b => a.WellTyped ∧ b.WellTyped ∧ (isIntOpcode op = true →
    a.isReal gVarTypeTable = false ∧ b.isReal gVarTypeTable = false)
  | .castNum a t => a.WellTyped ∧ t.Numeric
  | .select2 c t e => c.WellTyped ∧ t.WellTyped ∧ e.WellTyped
  | _ => False

variable (m : Memory)

/-- The value of a value in C. -/
def typedEval : ValueInst → Option Val
  | .loadVar a =>
    match m a.fName with
    | .scalar v => v
    | _ => none
  | .loadArrayVar a i =>
    match typedEval i with
    | some (.int b) => m.loadArray a.fName b.toInt
    | _ => none
  | .intNum n => some (.int (.ofInt 32 n))
  | .realNum _ x => some (.real x)
  | .boolNum b => some (.ofBool b)
  | .binop op a b => do Val.binop op (← typedEval a) (← typedEval b)
  | .castNum a t => do Val.cast t (← typedEval a)
  | .select2 c t e => do
    let v ← if (← typedEval c).truth then typedEval t else typedEval e
    return v.promote (isReal gVarTypeTable t || isReal gVarTypeTable e)
  | _ => none

end ValueInst

/-- The variables hold numbers of their types. -/
structure Valuation (m : Memory) : Prop where
  scalar : ∀ x a t v, gVarTypeTable x = some (a, .basic t) → m x = .scalar (some v) →
    v.isReal = t.isReal
  elem : ∀ x a t n i v, gVarTypeTable x = some (a, .array t n) → m.loadArray x i = some v →
    v.isReal = t.isReal

end

/-! ## Values have the nature of their type -/

theorem Val.eq_int {v : Val} (h : v.isReal = false) : ∃ b, v = .int b := by
  cases v with
  | int b => exact ⟨b, rfl⟩
  | real x => simp [Val.isReal] at h

theorem Val.eq_real {v : Val} (h : v.isReal = true) : ∃ x, v = .real x := by
  cases v with
  | int b => simp [Val.isReal] at h
  | real x => exact ⟨x, rfl⟩

@[simp] theorem Val.isReal_ofBool (b : Bool) : (Val.ofBool b).isReal = false := rfl

theorem Val.isReal_promote {real : Bool} {v : Val} (h : v.isReal = true → real = true) :
    (v.promote real).isReal = real := by
  cases real with
  | true => rfl
  | false =>
    cases v with
    | int b => rfl
    | real x => simp [Val.isReal] at h

theorem Val.isReal_cast {t : VarType} {v w : Val} (h : Val.cast t v = some w) :
    w.isReal = t.isReal := by
  cases t <;> simp only [Val.cast, Option.map_eq_some_iff, Option.some.injEq] at h
  case kInt =>
    obtain ⟨b, -, rfl⟩ := h
    rfl
  all_goals
    rw [← h]
    rfl

theorem Val.isReal_intOp {op : BinOp} {a b : BitVec 32} {w : Val}
    (h : Val.intOp op a b = some w) : w.isReal = false := by
  cases op <;> simp only [Val.intOp] at h
  case kDiv | kRem | kLsh | kRsh =>
    split at h
    all_goals simp only [Option.some.injEq, reduceCtorEq] at h
    all_goals
      rw [← h]
      rfl
  all_goals
    rw [← Option.some.inj h]
    rfl

theorem Val.isReal_realOp {op : BinOp} {x y : ℚ} {w : Val} (h : Val.realOp op x y = some w) :
    w.isReal = !isBoolOpcode op := by
  cases op <;> simp only [Val.realOp, reduceCtorEq] at h
  case kDiv =>
    split at h
    all_goals simp only [Option.some.injEq, reduceCtorEq] at h
    rw [← h]
    rfl
  all_goals
    rw [← Option.some.inj h]
    rfl

theorem Val.isReal_binop {op : BinOp} {v w u : Val} (h : Val.binop op v w = some u) :
    u.isReal = (!isBoolOpcode op && (v.isReal || w.isReal)) := by
  cases v with
  | int a =>
    cases w with
    | int b => simpa [Val.isReal] using Val.isReal_intOp h
    | real y => simpa [Val.isReal] using Val.isReal_realOp h
  | real x => simpa [Val.isReal] using Val.isReal_realOp h

section
variable {gVarTypeTable : VarTypeTable} {m : Memory}

/-- The value of a well-typed value is a real when its type is real. -/
theorem ValueInst.isReal_typedEval (hm : Valuation gVarTypeTable m) :
    ∀ {e : ValueInst} {v : Val}, e.WellTyped gVarTypeTable →
      e.typedEval gVarTypeTable m = some v → v.isReal = e.isReal gVarTypeTable
  | .loadVar a, v, hw, h => by
    obtain ⟨-, t, ht, -⟩ := hw
    simp only [typedEval] at h
    split at h
    next w hw => simpa [isReal, ht] using hm.scalar _ _ _ _ ht (hw.trans (by rw [h]))
    next => simp at h
  | .loadArrayVar a i, v, hw, h => by
    obtain ⟨-, ⟨t, n, ht, -⟩, -⟩ := hw
    simp only [typedEval] at h
    split at h
    next b hb => simpa [isReal, ht] using hm.elem _ _ _ _ _ _ ht h
    next => simp at h
  | .intNum n, v, _, h => by
    rw [← Option.some.inj h]
    rfl
  | .realNum t x, v, _, h => by
    rw [← Option.some.inj h]
    rfl
  | .boolNum b, v, _, h => by
    rw [← Option.some.inj h]
    rfl
  | .binop op a b, v, hw, h => by
    simp only [typedEval, Option.bind_eq_bind, Option.bind_eq_some_iff] at h
    obtain ⟨va, ha, vb, hb, h⟩ := h
    rw [Val.isReal_binop h, isReal_typedEval hm hw.1 ha, isReal_typedEval hm hw.2.1 hb]
    rfl
  | .castNum a t, v, _, h => by
    simp only [typedEval, Option.bind_eq_bind, Option.bind_eq_some_iff] at h
    obtain ⟨va, -, h⟩ := h
    exact Val.isReal_cast h
  | .select2 c t e, v, hw, h => by
    simp only [typedEval, Option.bind_eq_bind, Option.bind_eq_some_iff] at h
    obtain ⟨vc, -, h⟩ := h
    -- the branch that is taken has its own type
    split at h
    · obtain ⟨w, ht, h⟩ := Option.bind_eq_some_iff.mp h
      rw [← Option.some.inj h]
      apply Val.isReal_promote
      intro hr
      simp [← isReal_typedEval hm hw.2.1 ht, hr]
    · obtain ⟨w, he, h⟩ := Option.bind_eq_some_iff.mp h
      rw [← Option.some.inj h]
      apply Val.isReal_promote
      intro hr
      simp [← isReal_typedEval hm hw.2.2 he, hr]

theorem ValueInst.typedEval_select2 (c t e : ValueInst) :
    (ValueInst.select2 c t e).typedEval gVarTypeTable m =
      (c.typedEval gVarTypeTable m).bind fun v =>
        (if v.truth then t.typedEval gVarTypeTable m else e.typedEval gVarTypeTable m).map
          (Val.promote (t.isReal gVarTypeTable || e.isReal gVarTypeTable)) := by
  cases hc : c.typedEval gVarTypeTable m with
  | none => simp [typedEval, hc]
  | some v =>
    cases hv : v.truth
    · cases he : e.typedEval gVarTypeTable m <;> simp [typedEval, hc, hv, he]
    · cases ht : t.typedEval gVarTypeTable m <;> simp [typedEval, hc, hv, ht]

end

/-! ## Texts that are operands -/

/-- The text is the one of an expression that may stand under any operator. -/
structure TextOf (types : String → Bool) (ts : List Tok) (x : Expr) : Prop where
  tokens : x.tokens = ts
  fits : x.Fits types
  tight : 9 ≤ x.prec

/-- How an integer is written. -/
def intExpr (n : ℤ) : Expr := if n < 0 then .unary .neg (.int n.natAbs) else .int n.natAbs

/-- How a real is written. -/
def realExpr (x : ℚ) : Expr := if x < 0 then .unary .neg (.real (-x)) else .real x

namespace TextOf

variable {types : String → Bool} {ts us vs : List Tok} {x y z : Expr}

theorem reads (h : TextOf types ts x) : Reads types ts x := by
  rw [← h.tokens]
  exact reads_tokens h.fits

theorem name {x : String} (h : types x = false) : TextOf types [.name x] (.name x) where
  tokens := rfl
  fits := h
  tight := by simp

theorem intNum (n : ℤ) : TextOf types (TextInstVisitor.intNum n) (intExpr n) := by
  unfold TextInstVisitor.intNum intExpr
  split
  · exact ⟨rfl, ⟨trivial, by simp⟩, by simp⟩
  · exact ⟨rfl, trivial, by simp⟩

theorem realNum (r : ℚ) : TextOf types (TextInstVisitor.realNum r) (realExpr r) := by
  unfold TextInstVisitor.realNum realExpr
  split
  · exact ⟨rfl, ⟨trivial, by simp⟩, by simp⟩
  · exact ⟨rfl, trivial, by simp⟩

theorem boolNum (b : Bool) :
    TextOf types (TextInstVisitor.boolNum b) (.int (if b then 1 else 0)) :=
  ⟨rfl, trivial, by simp⟩

theorem indexed (hx : TextOf types ts x) (h10 : x.prec = 10) (hy : TextOf types us y) :
    TextOf types (TextInstVisitor.indexed ts us) (.index x y) where
  tokens := by simp [Expr.tokens, TextInstVisitor.indexed, hx.tokens, hy.tokens]
  fits := ⟨hx.fits, h10, hy.fits⟩
  tight := by simp

theorem paren (hx : TextOf types ts x) : TextOf types (.lpar :: (ts ++ [.rpar])) (.paren x) where
  tokens := by simp [Expr.tokens, hx.tokens]
  fits := hx.fits
  tight := by simp

theorem binop (op : BinOp) (hx : TextOf types ts x) (hy : TextOf types us y) :
    TextOf types (TextInstVisitor.binop op ts us) (.paren (.binary (BinOp.fName op) x y)) where
  tokens := by simp [Expr.tokens, TextInstVisitor.binop, hx.tokens, hy.tokens]
  fits := by
    have ho := (BinOp.fName op).prec_le
    have hpx := hx.tight
    have hpy := hy.tight
    exact ⟨hx.fits, by omega, hy.fits, by omega⟩
  tight := by simp

theorem select2 (hx : TextOf types ts x) (hy : TextOf types us y) (hz : TextOf types vs z) :
    TextOf types (TextInstVisitor.select2 ts us vs) (.paren (.cond x y z)) where
  tokens := by simp [Expr.tokens, TextInstVisitor.select2, hx.tokens, hy.tokens, hz.tokens]
  fits := by
    have hpx := hx.tight
    exact ⟨hx.fits, by omega, hy.fits, hz.fits⟩
  tight := by simp

theorem call1 {f : String} (hf : types f = false) (hx : TextOf types ts x) :
    TextOf types (.name f :: .lpar :: (ts ++ [.rpar])) (.call1 f x) where
  tokens := by simp [Expr.tokens, hx.tokens]
  fits := ⟨hf, hx.fits⟩
  tight := by simp

end TextOf

/-! ## The text of C++ -/

namespace C

variable {gVarTypeTable : VarTypeTable} {m : Memory}

theorem eval_intExpr (n : ℤ) : eval gVarTypeTable m (intExpr n) = some (.int (.ofInt 32 n)) := by
  unfold intExpr
  split
  next h =>
    have hn : n = -(n.natAbs : ℤ) := by omega
    simp only [eval, Option.map_some, Val.neg, Option.some.injEq, Val.int.injEq]
    conv_rhs => rw [hn, BitVec.ofInt_neg, BitVec.ofInt_natCast]
  next h =>
    have hn : n = (n.natAbs : ℤ) := by omega
    simp only [eval, Option.some.injEq, Val.int.injEq]
    conv_rhs => rw [hn, BitVec.ofInt_natCast]

theorem eval_realExpr (x : ℚ) : eval gVarTypeTable m (realExpr x) = some (.real x) := by
  unfold realExpr
  split <;> simp [eval, Val.neg]

theorem isReal_intExpr (n : ℤ) : isReal gVarTypeTable (intExpr n) = false := by
  unfold intExpr
  split <;> rfl

theorem isReal_realExpr (x : ℚ) : isReal gVarTypeTable (realExpr x) = true := by
  unfold realExpr
  split <;> rfl

theorem eval_cond (c t e : Expr) :
    eval gVarTypeTable m (.cond c t e) =
      (eval gVarTypeTable m c).bind fun v =>
        (if v.truth then eval gVarTypeTable m t else eval gVarTypeTable m e).map
          (Val.promote (isReal gVarTypeTable t || isReal gVarTypeTable e)) := by
  cases hc : eval gVarTypeTable m c with
  | none => simp [eval, hc]
  | some v =>
    cases hv : v.truth
    · cases he : eval gVarTypeTable m e <;> simp [eval, hc, hv, he]
    · cases ht : eval gVarTypeTable m t <;> simp [eval, hc, hv, ht]

theorem conversion_generateType {t : VarType} (h : t.Numeric) :
    conversion (CPPInstVisitor.generateType t) = some t := by
  cases t <;> first | rfl | exact h.elim

/-- The C++ text of a well-typed value is well formed, and means `typedEval`. -/
theorem visit_text : ∀ {e : ValueInst}, e.WellTyped gVarTypeTable →
    ∃ ts x, CPPInstVisitor.visit e = some ts ∧ TextOf types ts x ∧
      isReal gVarTypeTable x = e.isReal gVarTypeTable ∧
      eval gVarTypeTable m x = e.typedEval gVarTypeTable m
  | .loadVar a, _ => ⟨_, _, rfl, .name rfl, rfl, rfl⟩
  | .loadArrayVar a i, hw => by
    obtain ⟨ts, x, hts, hx, -, hv⟩ := visit_text hw.2.2.1
    refine ⟨_, .index (.name a.fName) x, by simp [CPPInstVisitor.visit, hts],
      (TextOf.name rfl).indexed rfl hx, rfl, ?_⟩
    cases hi : i.typedEval gVarTypeTable m with
    | none => simp [eval, ValueInst.typedEval, hv, hi]
    | some v => cases v <;> simp [eval, ValueInst.typedEval, hv, hi]
  | .intNum n, _ => ⟨_, _, rfl, .intNum n, isReal_intExpr n, eval_intExpr n⟩
  | .realNum t r, _ => ⟨_, _, rfl, .realNum r, isReal_realExpr r, eval_realExpr r⟩
  | .boolNum b, _ => ⟨_, _, rfl, .boolNum b, rfl, by cases b <;> rfl⟩
  | .binop op a b, hw => by
    obtain ⟨ts, x, hts, hx, hrx, hvx⟩ := visit_text hw.1
    obtain ⟨us, y, hus, hy, hry, hvy⟩ := visit_text hw.2.1
    refine ⟨_, _, by simp [CPPInstVisitor.visit, hts, hus], hx.binop op hy, ?_, ?_⟩
    · simp [isReal, ValueInst.isReal, hrx, hry]
    · simp [eval, ValueInst.typedEval, hvx, hvy]
  | .castNum a t, hw => by
    obtain ⟨ts, x, hts, hx, -, hv⟩ := visit_text hw.1
    have ht := conversion_generateType hw.2
    refine ⟨_, .call1 (CPPInstVisitor.generateType t) x, by simp [CPPInstVisitor.visit, hts],
      hx.call1 rfl, ?_, ?_⟩
    · simp [isReal, ValueInst.isReal, ht]
    · simp [eval, ValueInst.typedEval, ht, hv]
  | .select2 c t e, hw => by
    obtain ⟨ts, x, hts, hx, -, hvx⟩ := visit_text hw.1
    obtain ⟨us, y, hus, hy, hry, hvy⟩ := visit_text hw.2.1
    obtain ⟨vs, z, hvs, hz, hrz, hvz⟩ := visit_text hw.2.2
    refine ⟨_, _, by simp [CPPInstVisitor.visit, hts, hus, hvs], hx.select2 hy hz, ?_, ?_⟩
    · simp [isReal, ValueInst.isReal, hry, hrz]
    · show eval gVarTypeTable m (.cond x y z) = _
      rw [eval_cond, ValueInst.typedEval_select2, hvx, hvy, hvz, hry, hrz]

/-- The C++ text of a well-typed value means `typedEval`. -/
theorem means_iff {e : ValueInst} (hw : e.WellTyped gVarTypeTable) {ts : List Tok}
    (hts : CPPInstVisitor.visit e = some ts) {v : Val} :
    Means gVarTypeTable m ts v ↔ e.typedEval gVarTypeTable m = some v := by
  obtain ⟨us, x, hus, hx, -, hv⟩ := visit_text (m := m) hw
  rw [hts] at hus
  have htu : ts = us := Option.some.inj hus
  constructor
  · intro ⟨y, hy, hyv⟩
    rw [← hv, ← hyv, hx.reads.unique (htu ▸ hy)]
  · intro h
    exact ⟨x, htu ▸ hx.reads, by rw [hv, h]⟩

end C

end Faust.Fir
