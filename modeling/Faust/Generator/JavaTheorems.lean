import Faust.Generator.AsmJsTheorems

/-!
# The Java text of a value

Java has a type of truth values, which the visitor follows with the types it infers. The text
goes wrong in three ways. A condition that is a number is tested the wrong way round. A truth
value that is written as a number, or the reverse, does not type. A truth value next to a real
whose type is not `float` is not converted. `Java.Typed` is that none of them happens.
-/

namespace Faust.Fir

open ExprGrammar

namespace Java

section
variable (gVarTypeTable : VarTypeTable)

/-- The text of the value has the type `boolean`. -/
def isBoolean : ValueInst → Bool
  | .binop op _ _ => isBoolOpcode op
  | .select2 _ t e => isBoolean t && isBoolean e
  | _ => false

/-- The inferred type is `kBool` exactly for a text of type `boolean`. -/
def Tagged (e : ValueInst) : Prop :=
  TypingVisitor.visit gVarTypeTable e = .basic .kBool ↔ isBoolean e = true

/-- The operand of an operation that is not a comparison is written with the type it has, next to
an operand whose type is known to the visitor. -/
def Operand (a b : ValueInst) : Prop :=
  Tagged gVarTypeTable a ∧ (isBoolean a = true →
    TypingVisitor.visit gVarTypeTable b ≠ .basic .kFloatMacro ∧
      TypingVisitor.visit gVarTypeTable b ≠ .basic .kDouble)

/-- The types are the ones the visitor goes by: conditions are truth values, numbers are compared
with numbers, and conversions are made from the type the text has. -/
def Typed : ValueInst → Prop
  | .loadArrayVar _ i => Typed i ∧ isBoolean i = false
  | .binop op a b => Typed a ∧ Typed b ∧
    (isBoolOpcode op = true → isBoolean a = isBoolean b ∧
      (isBoolean a = true → op = .kEQ ∨ op = .kNE)) ∧
    (isBoolOpcode op = false → Operand gVarTypeTable a b ∧ Operand gVarTypeTable b a)
  | .castNum a _ => Typed a ∧ Tagged gVarTypeTable a
  | .select2 c t e => Typed c ∧ Typed t ∧ Typed e ∧ Tagged gVarTypeTable c ∧
    isBoolean c = true ∧ isBoolean t = isBoolean e ∧
    (e.isReal gVarTypeTable = true → t.isReal gVarTypeTable = true)
  | _ => True

end

section
variable {gVarTypeTable : VarTypeTable}

attribute [local simp] eval type isBoolean Typed ValueInst.typedEval ValueInst.isReal

theorem Typed.typedByThen : ∀ {e : ValueInst}, Typed gVarTypeTable e → TypedByThen gVarTypeTable e
  | .loadArrayVar _ _, h => h.1.typedByThen
  | .binop _ _ _, h => ⟨h.1.typedByThen, h.2.1.typedByThen⟩
  | .castNum _ _, h => h.1.typedByThen
  | .select2 _ _ _, h =>
    ⟨h.1.typedByThen, h.2.1.typedByThen, h.2.2.1.typedByThen, h.2.2.2.2.2.2⟩
  | .loadVar _, _ | .intNum _, _ | .realNum _ _, _ | .boolNum _, _ | .null, _
  | .loadArrayVarAddress _ _, _ | .intArrayNum _, _ | .realArrayNum _ _, _ | .funCall _ _, _ =>
    trivial

/-- A truth value is not a real. -/
theorem isReal_of_isBoolean : ∀ {e : ValueInst}, isBoolean e = true →
    e.isReal gVarTypeTable = false
  | .binop op a b, h => by simp [ValueInst.isReal, show isBoolOpcode op = true from h]
  | .select2 c t e, h => by
    have hte : isBoolean t = true ∧ isBoolean e = true := by simpa [isBoolean] using h
    simp [ValueInst.isReal, isReal_of_isBoolean hte.1, isReal_of_isBoolean hte.2]

/-! ## Values -/

/-- The Java value of a C value: a truth value stands for 0 or 1. -/
def Has (bool : Bool) (v : Val) (w : JavaVal) : Prop :=
  if bool then ∃ b, v = .ofBool b ∧ w = .boolean b else w = .num v

theorem Has.toVal {bool : Bool} {v : Val} {w : JavaVal} (h : Has bool v w) : w.toVal = v := by
  cases bool with
  | true =>
    obtain ⟨b, rfl, rfl⟩ := h
    rfl
  | false =>
    have hw : w = .num v := h
    rw [hw]
    rfl

theorem binary_intOp {op : BinOp} {a b : BitVec 32} {u : Val}
    (h : Val.intOp op a b = some u) :
    ∃ w, binary op (.num (.int a)) (.num (.int b)) = some w ∧ Has (isBoolOpcode op) u w := by
  cases op <;> simp only [Val.intOp] at h <;> simp only [binary, intOp]
  case kDiv | kRem =>
    split at h
    · simp at h
    next hb =>
      rw [if_neg fun h0 => hb (.inl h0)]
      exact ⟨_, rfl, by rw [← Option.some.inj h]; rfl⟩
  case kLsh | kRsh =>
    split at h
    next hb =>
      rw [Nat.mod_eq_of_lt hb]
      exact ⟨_, rfl, by rw [← Option.some.inj h]; rfl⟩
    · simp at h
  case kGT | kLT | kGE | kLE | kEQ | kNE =>
    exact ⟨_, rfl, _, (Option.some.inj h).symm, rfl⟩
  all_goals exact ⟨_, rfl, by rw [← Option.some.inj h]; rfl⟩

theorem realOp_has {op : BinOp} {x y : ℚ} {u : Val} (h : Val.realOp op x y = some u) :
    ∃ w, realOp op x y = some w ∧ Has (isBoolOpcode op) u w := by
  cases op <;> simp only [Val.realOp, reduceCtorEq] at h <;> simp only [realOp]
  case kDiv =>
    split at h
    · simp at h
    next hy =>
      rw [if_neg hy]
      exact ⟨_, rfl, by rw [← Option.some.inj h]; rfl⟩
  case kGT | kLT | kGE | kLE | kEQ | kNE =>
    exact ⟨_, rfl, _, (Option.some.inj h).symm, rfl⟩
  all_goals exact ⟨_, rfl, by rw [← Option.some.inj h]; rfl⟩

theorem binop_real {op : BinOp} {v w : Val} (h : (v.isReal || w.isReal) = true) :
    Val.binop op v w = Val.realOp op v.toReal w.toReal := by
  match v, w, h with
  | .int _, .real _, _ | .real _, .int _, _ | .real _, .real _, _ => rfl

theorem binary_real {op : BinOp} {v w : Val} (h : (v.isReal || w.isReal) = true) :
    binary op (.num v) (.num w) = realOp op v.toReal w.toReal := by
  match v, w, h with
  | .int _, .real _, _ | .real _, .int _, _ | .real _, .real _, _ => rfl

/-- An operation on numbers, one of which may have been converted to a real because the other
is one. -/
theorem binary_has {op : BinOp} {va vb wa wb u : Val} (h : Val.binop op va vb = some u)
    (ha : wa.toReal = va.toReal) (hb : wb.toReal = vb.toReal)
    (hw : (va.isReal || vb.isReal) = true ∧ (wa.isReal || wb.isReal) = true ∨ wa = va ∧ wb = vb) :
    ∃ w, binary op (.num wa) (.num wb) = some w ∧ Has (isBoolOpcode op) u w := by
  have hreal : (va.isReal || vb.isReal) = true → (wa.isReal || wb.isReal) = true →
      ∃ w, binary op (.num wa) (.num wb) = some w ∧ Has (isBoolOpcode op) u w := by
    intro hv hw
    rw [binop_real hv] at h
    rw [binary_real hw, ha, hb]
    exact realOp_has h
  rcases hw with ⟨hv, hw⟩ | ⟨rfl, rfl⟩
  · exact hreal hv hw
  · cases hr : wa.isReal || wb.isReal with
    | true => exact hreal hr hr
    | false =>
      obtain ⟨ha, hb⟩ := Bool.or_eq_false_iff.mp hr
      obtain ⟨a, rfl⟩ := Val.eq_int ha
      obtain ⟨b, rfl⟩ := Val.eq_int hb
      exact binary_intOp h

/-- The type of an operation on numbers. -/
theorem binaryType_num {op : BinOp} {ra rb : Bool}
    (hint : isIntOpcode op = true → ra = false ∧ rb = false) :
    binaryType op (if ra then .real else .int) (if rb then .real else .int) =
      some (if isBoolOpcode op then .boolean else if ra || rb then .real else .int) := by
  cases op <;> cases ra <;> cases rb <;> first | rfl | simp [isIntOpcode] at hint

end

/-! ## Conversions -/

section
variable {gVarTypeTable : VarTypeTable} {m : Memory}

/-- The type of a number. -/
def numType (real : Bool) : JavaType := if real then .real else .int

/-- The text `ts` of `y` is the number that `x` stands for: `x` is a truth value when `bool` holds,
a real when `real` does, and `y` is a real when `real'` does. -/
structure Converted (gVarTypeTable : VarTypeTable) (m : Memory) (bool real real' : Bool)
    (x : Expr) (ts : List Tok) (y : Expr) : Prop where
  text : TextOf types ts y
  type : Java.type gVarTypeTable y = some (numType real')
  eval : ∀ v w, Has bool v w → v.isReal = real → Java.eval gVarTypeTable m x = some w →
    ∃ u, Java.eval gVarTypeTable m y = some (.num u) ∧ u.toReal = v.toReal ∧ u.isReal = real' ∧
      (real' = real → u = v)

variable {ts : List Tok} {x : Expr} {real : Bool}

theorem textOf_cast {t : String} (ht : types t = true) (hx : TextOf types ts x) :
    TextOf types (JAVAInstVisitor.cast t ts) (.cast t x) where
  tokens := by simp [Expr.tokens, JAVAInstVisitor.cast, hx.tokens]
  fits := ⟨ht, hx.fits, hx.tight⟩
  tight := by simp

theorem textOf_choose {one zero : Tok} {a b : Expr} (ha : TextOf types [one] a)
    (hb : TextOf types [zero] b) (hx : TextOf types ts x) :
    TextOf types (JAVAInstVisitor.choose ts one zero) (.paren (.cond (.paren x) a b)) where
  tokens := by simp [Expr.tokens, JAVAInstVisitor.choose, hx.tokens, ha.tokens, hb.tokens]
  fits := ⟨hx.fits, by simp, ha.fits, hb.fits⟩
  tight := by simp

theorem Converted.same (hx : TextOf types ts x)
    (ht : Java.type gVarTypeTable x = some (numType real)) :
    Converted gVarTypeTable m false real real x ts x where
  text := hx
  type := ht
  eval v w hw hr he := by
    have hw' : w = .num v := hw
    exact ⟨v, by rw [he, hw'], rfl, hr, fun _ => rfl⟩

theorem type_cast_float (ht : Java.type gVarTypeTable x = some (numType real)) :
    Java.type gVarTypeTable (.cast "float" x) = some .real := by
  cases real <;> simp [Java.type, ht, numType]

theorem type_cast_int (ht : Java.type gVarTypeTable x = some (numType real)) :
    Java.type gVarTypeTable (.cast "int" x) = some .int := by
  cases real <;> simp [Java.type, ht, numType]

theorem Converted.float (hx : TextOf types ts x)
    (ht : Java.type gVarTypeTable x = some (numType false)) :
    Converted gVarTypeTable m false false true x (JAVAInstVisitor.cast "float" ts)
      (.cast "float" x) where
  text := textOf_cast rfl hx
  type := type_cast_float ht
  eval v w hw hr he := by
    have hw' : w = .num v := hw
    exact ⟨.real v.toReal, by simp [Java.eval, he, hw'], rfl, rfl, by simp⟩

theorem Converted.chooseInt (hx : TextOf types ts x)
    (ht : Java.type gVarTypeTable x = some .boolean) :
    Converted gVarTypeTable m true false false x (JAVAInstVisitor.choose ts (.int 1) (.int 0))
      (.paren (.cond (.paren x) (.int 1) (.int 0))) where
  text := textOf_choose ⟨rfl, trivial, by simp⟩ ⟨rfl, trivial, by simp⟩ hx
  type := by simp [Java.type, ht, promote, numType]
  eval v w hw hr he := by
    obtain ⟨b, rfl, rfl⟩ := hw
    refine ⟨.ofBool b, ?_, rfl, rfl, fun _ => rfl⟩
    cases b <;> simp [Java.eval, he, Java.type, ht, promote, Val.promote, Val.ofBool]

theorem Converted.chooseReal (hx : TextOf types ts x)
    (ht : Java.type gVarTypeTable x = some .boolean) :
    Converted gVarTypeTable m true false true x (JAVAInstVisitor.choose ts (.real 1) (.real 0))
      (.paren (.cond (.paren x) (.real 1) (.real 0))) where
  text := textOf_choose ⟨rfl, trivial, by simp⟩ ⟨rfl, trivial, by simp⟩ hx
  type := by simp [Java.type, ht, promote, numType]
  eval v w hw hr he := by
    obtain ⟨b, rfl, rfl⟩ := hw
    refine ⟨.real (if b then 1 else 0), ?_, ?_, rfl, by simp⟩
    · cases b <;> simp [Java.eval, he, Java.type, ht, promote, Val.promote, Val.toReal]
    · cases b <;> simp [Val.ofBool, Val.toReal]

/-- The operands of an operation on numbers are converted to numbers. -/
theorem operands_converted {t1 t2 : VarType} {b1 b2 : Bool} (h1 : t1 ≠ .kQuad) (h2 : t2 ≠ .kQuad)
    (hb1 : t1 = .kBool ↔ b1 = true) (hb2 : t2 = .kBool ↔ b2 = true)
    (hm1 : b1 = true → t2 ≠ .kFloatMacro ∧ t2 ≠ .kDouble)
    (hm2 : b2 = true → t1 ≠ .kFloatMacro ∧ t1 ≠ .kDouble)
    {us : List Tok} {y : Expr} (hx : TextOf types ts x) (hy : TextOf types us y)
    (htx : Java.type gVarTypeTable x = some (if b1 then .boolean else numType t1.isReal))
    (hty : Java.type gVarTypeTable y = some (if b2 then .boolean else numType t2.isReal)) :
    ∃ x' y' r1 r2, Converted gVarTypeTable m b1 t1.isReal r1 x
        (JAVAInstVisitor.operands (.basic t1) (.basic t2) ts us).1 x' ∧
      Converted gVarTypeTable m b2 t2.isReal r2 y
        (JAVAInstVisitor.operands (.basic t1) (.basic t2) ts us).2 y' ∧
      (r1 || r2) = (t1.isReal || t2.isReal) := by
  have hd1 : b1 = decide (t1 = .kBool) := by
    cases b1 <;> simp_all
  have hd2 : b2 = decide (t2 = .kBool) := by
    cases b2 <;> simp_all
  subst hd1 hd2
  cases t1 <;> cases t2 <;> first
    | exact absurd rfl h1
    | exact absurd rfl h2
    | exact absurd rfl (hm1 rfl).1
    | exact absurd rfl (hm1 rfl).2
    | exact absurd rfl (hm2 rfl).1
    | exact absurd rfl (hm2 rfl).2
    | exact ⟨_, _, _, _, .same hx htx, .same hy hty, rfl⟩
    | exact ⟨_, _, _, _, .float hx htx, .same hy hty, rfl⟩
    | exact ⟨_, _, _, _, .same hx htx, .float hy hty, rfl⟩
    | exact ⟨_, _, _, _, .same hx htx, .chooseInt hy hty, rfl⟩
    | exact ⟨_, _, _, _, .chooseInt hx htx, .same hy hty, rfl⟩
    | exact ⟨_, _, _, _, .chooseInt hx htx, .chooseInt hy hty, rfl⟩
    | exact ⟨_, _, _, _, .same hx htx, .chooseReal hy hty, rfl⟩
    | exact ⟨_, _, _, _, .chooseReal hx htx, .same hy hty, rfl⟩

/-- The text of a conversion. -/
theorem castNum_text {t s : VarType} {bool : Bool} (ht : t.Numeric) (hs : s ≠ .kQuad)
    (hb : s = .kBool ↔ bool = true) (hx : TextOf types ts x)
    (htx : Java.type gVarTypeTable x = some (if bool then .boolean else numType s.isReal)) :
    ∃ us y, JAVAInstVisitor.castNum t (.basic s) ts = some us ∧ TextOf types us y ∧
      Java.type gVarTypeTable y = some (numType t.isReal) ∧
      ∀ v w u, Has bool v w → v.isReal = s.isReal → Java.eval gVarTypeTable m x = some w →
        Val.cast t v = some u → Java.eval gVarTypeTable m y = some (.num u) := by
  have hd : bool = decide (s = .kBool) := by
    cases bool <;> simp_all
  subst hd
  -- the conversions that `operands` also makes
  have hconv : ∀ {ts' : List Tok} {y : Expr} {b r : Bool}, t.isReal = true →
      Converted gVarTypeTable m b r true x ts' y →
      TextOf types ts' y ∧ Java.type gVarTypeTable y = some (numType t.isReal) ∧
        ∀ v w u, Has b v w → v.isReal = r → Java.eval gVarTypeTable m x = some w →
          Val.cast t v = some u → Java.eval gVarTypeTable m y = some (.num u) := by
    intro ts' y b r hr hc
    refine ⟨hc.text, by rw [hc.type, hr], fun v w u hw hv he hu => ?_⟩
    obtain ⟨u', he', hn, hr', -⟩ := hc.eval v w hw hv he
    rw [he']
    have hu' : u = .real v.toReal := by
      cases t <;> first | exact (Option.some.inj hu).symm | simp [VarType.isReal] at hr
    obtain ⟨q, rfl⟩ := Val.eq_real hr'
    rw [hu', ← hn]
    rfl
  cases t with
  | kInt =>
    cases s with
    | kQuad => exact absurd rfl hs
    | kInt =>
      refine ⟨ts, x, rfl, hx, htx, fun v w u hw hv he hu => ?_⟩
      have hw' : w = .num v := hw
      obtain ⟨b, rfl⟩ := Val.eq_int hv
      rw [he, hw']
      simpa [Val.cast, Val.toInt] using hu
    | kBool =>
      have hc : Converted gVarTypeTable m true false false x _ _ := .chooseInt hx htx
      refine ⟨_, _, rfl, hc.text, hc.type, fun v w u hw hv he hu => ?_⟩
      obtain ⟨u', he', -, -, hu'⟩ := hc.eval v w hw hv he
      rw [he', hu' rfl]
      obtain ⟨b, rfl⟩ := Val.eq_int hv
      simpa [Val.cast, Val.toInt] using hu
    | kFloat | kFloatMacro | kDouble =>
      have hreal : Java.type gVarTypeTable x = some (numType true) := htx
      refine ⟨_, _, rfl, textOf_cast rfl hx, type_cast_int hreal, fun v w u hw hv he hu => ?_⟩
      have hw' : w = .num v := hw
      obtain ⟨q, rfl⟩ := Val.eq_real hv
      simp only [Val.cast, Val.toInt, Option.map_eq_some_iff] at hu
      obtain ⟨b, hb, rfl⟩ := hu
      split at hb
      next hr =>
        -- no number that C converts is out of range
        have hmax : max (-2 ^ 31) (min (2 ^ 31 - 1) (truncInt q)) = truncInt q := by
          have h1 := hr.1
          have h2 := hr.2
          omega
        rw [← Option.some.inj hb]
        simp only [Java.eval, he, hw', toInt, hmax]
      · simp at hb
  | kFloat | kFloatMacro | kDouble =>
    cases s with
    | kQuad => exact absurd rfl hs
    | kInt => exact ⟨_, _, rfl, hconv rfl (.float hx htx)⟩
    | kBool => exact ⟨_, _, rfl, hconv rfl (.chooseReal hx htx)⟩
    | kDouble =>
      have hreal : Java.type gVarTypeTable x = some (numType true) := htx
      refine ⟨_, _, rfl, textOf_cast rfl hx, type_cast_float hreal, fun v w u hw hv he hu => ?_⟩
      have hw' : w = .num v := hw
      rw [← Option.some.inj hu]
      simp [Java.eval, he, hw']
    | kFloat | kFloatMacro => exact ⟨_, _, rfl, hconv rfl (.same hx htx)⟩
  | kQuad | kBool => exact ht.elim

/-! ## The text of a value -/

theorem types_of_keyword {x : String} (h : keyword x = false) :
    types x = false ∧ x ≠ "true" ∧ x ≠ "false" := by
  simp only [keyword, Bool.or_eq_false_iff, beq_eq_false_iff_ne] at h
  exact ⟨by simp [types, h.1.1.1.1, h.1.1.1.2], h.1.1.2, h.1.2⟩

theorem ofVarType_numeric {t : VarType} (h : t.Numeric) : ofVarType t = numType t.isReal := by
  cases t <;> first | rfl | exact h.elim

theorem type_intExpr {n : ℤ} (h : IsInt32 n) : type gVarTypeTable (intExpr n) = some .int := by
  have h1 := h.1
  have h2 := h.2
  unfold intExpr
  split
  · rw [type, if_pos (by omega)]
  · rw [type, if_pos (by omega)]

theorem eval_intExpr (n : ℤ) :
    eval gVarTypeTable m (intExpr n) = some (.num (.int (.ofInt 32 n))) := by
  have hc : C.eval gVarTypeTable m (intExpr n) = some (.int (.ofInt 32 n)) := C.eval_intExpr n
  unfold intExpr at hc ⊢
  split
  next h =>
    rw [if_pos h] at hc
    simp only [C.eval, Option.map_some, Option.some.injEq] at hc
    simp only [eval, hc]
  next h =>
    rw [if_neg h] at hc
    simp only [C.eval, Option.some.injEq] at hc
    simp only [eval, hc]

theorem type_realExpr (x : ℚ) : type gVarTypeTable (realExpr x) = some .real := by
  unfold realExpr
  split <;> simp [type]

theorem eval_realExpr (x : ℚ) : eval gVarTypeTable m (realExpr x) = some (.num (.real x)) := by
  unfold realExpr
  split <;> simp [eval, Val.neg]

/-- The inferred type of a well-typed text, and whether it is `kBool`. -/
theorem visit_type {e : ValueInst} (hw : e.WellTyped gVarTypeTable) (ht : Typed gVarTypeTable e)
    (htag : Tagged gVarTypeTable e) : ∃ t, TypingVisitor.visit gVarTypeTable e = .basic t ∧
      t ≠ .kQuad ∧ t.isReal = e.isReal gVarTypeTable ∧ (t = .kBool ↔ isBoolean e = true) := by
  obtain ⟨t, hv, hq, hr⟩ := ht.typedByThen.visit hw
  rw [Tagged, hv, CurType.basic.injEq] at htag
  exact ⟨t, hv, hq, hr, htag⟩

theorem type_binop {op : BinOp} {x y : Expr} {s t : JavaType}
    (hx : type gVarTypeTable x = some s) (hy : type gVarTypeTable y = some t) :
    type gVarTypeTable (.paren (.binary (BinOp.fName op) x y)) = binaryType op s t := by
  simp [type, hx, hy]

theorem eval_binop {op : BinOp} {x y : Expr} {v w : JavaVal}
    (hx : eval gVarTypeTable m x = some v) (hy : eval gVarTypeTable m y = some w) :
    eval gVarTypeTable m (.paren (.binary (BinOp.fName op) x y)) = binary op v w := by
  simp [eval, hx, hy]

/-- Truth values are compared as the numbers they stand for. -/
theorem binary_boolean {op : BinOp} (ho : op = .kEQ ∨ op = .kNE) {va vb u : Val} {wa wb : JavaVal}
    (ha : Has true va wa) (hb : Has true vb wb) (h : Val.binop op va vb = some u) :
    ∃ w, binary op wa wb = some w ∧ Has (isBoolOpcode op) u w := by
  obtain ⟨a, rfl, rfl⟩ := ha
  obtain ⟨b, rfl, rfl⟩ := hb
  rcases ho with rfl | rfl
  · refine ⟨_, rfl, a == b, ?_, rfl⟩
    rw [← Option.some.inj h]
    cases a <;> cases b <;> rfl
  · refine ⟨_, rfl, a != b, ?_, rfl⟩
    rw [← Option.some.inj h]
    cases a <;> cases b <;> rfl

/-- The type of a selection whose branches have types that go together. -/
theorem type_cond {c t e : Expr} {bool rt re : Bool} (hc : type gVarTypeTable c = some .boolean)
    (ht : type gVarTypeTable t = some (if bool then .boolean else numType rt))
    (he : type gVarTypeTable e = some (if bool then .boolean else numType re)) :
    type gVarTypeTable (.cond c t e) =
      some (if bool then .boolean else numType (rt || re)) := by
  cases bool <;> cases rt <;> cases re <;> simp [type, hc, ht, he, numType, promote]

/-- The value of a selection. -/
theorem eval_cond {c t e : Expr} {bool rt re b : Bool} {v : Val} {w : JavaVal}
    (hc : eval gVarTypeTable m c = some (.boolean b)) (hv : Has bool v w)
    (hw : (if b then eval gVarTypeTable m t else eval gVarTypeTable m e) = some w)
    (hty : type gVarTypeTable (.cond c t e) =
      some (if bool then .boolean else numType (rt || re)))
    (hbool : bool = true → rt = false ∧ re = false) :
    ∃ u, eval gVarTypeTable m (.cond c t e) = some u ∧ Has bool (v.promote (rt || re)) u := by
  cases bool with
  | true =>
    obtain ⟨b', rfl, rfl⟩ := hv
    obtain ⟨rfl, rfl⟩ := hbool rfl
    refine ⟨.boolean b', ?_, b', rfl, rfl⟩
    cases b
    all_goals
      simp only [Bool.false_eq_true, if_false, if_true] at hw
      simp [eval, hc, hw]
  | false =>
    have hw' : w = .num v := hv
    subst hw'
    refine ⟨.num (v.promote (rt || re)), ?_, rfl⟩
    have hp : decide (type gVarTypeTable (.cond c t e) = some .real) = (rt || re) := by
      rw [hty]
      cases rt <;> cases re <;> rfl
    cases b
    all_goals
      simp only [Bool.false_eq_true, if_false, if_true] at hw
      simp [eval, hc, hw, hp]

/-- The Java text of a well-typed value is well formed and has the value of the C text, if the
types are the ones the visitor goes by. -/
theorem visit_text (hm : Valuation gVarTypeTable m) :
    ∀ {e : ValueInst}, e.WellTyped gVarTypeTable → Typed gVarTypeTable e →
      ∃ ts x, JAVAInstVisitor.visit gVarTypeTable e = some ts ∧ TextOf types ts x ∧
        type gVarTypeTable x =
          some (if isBoolean e then .boolean else numType (e.isReal gVarTypeTable)) ∧
        ∀ v, e.typedEval gVarTypeTable m = some v →
          ∃ w, eval gVarTypeTable m x = some w ∧ Has (isBoolean e) v w
  | .loadVar a, hw, _ => by
    obtain ⟨hk, t, ht, hn⟩ := hw
    obtain ⟨hty, h1, h2⟩ := types_of_keyword hk
    refine ⟨_, .name a.fName, rfl, .name hty, ?_, fun v hv => ?_⟩
    · simp [type, h1, h2, ht, isBoolean, ValueInst.isReal, ofVarType_numeric hn]
    · simp only [ValueInst.typedEval] at hv
      split at hv
      next w hw => exact ⟨.num v, by simp [eval, h1, h2, hw, hv], rfl⟩
      · simp at hv
  | .loadArrayVar a i, hw, hty => by
    obtain ⟨hk, ⟨t, n, ht, hn⟩, hwi, hri⟩ := hw
    obtain ⟨hkt, -, -⟩ := types_of_keyword hk
    obtain ⟨us, y, hus, hy, htyy, hvy⟩ := visit_text hm hwi hty.1
    rw [hty.2, hri] at htyy
    refine ⟨_, .index (.name a.fName) y, by simp [JAVAInstVisitor.visit, hus],
      (TextOf.name hkt).indexed rfl hy, ?_, fun v hv => ?_⟩
    · have hint : type gVarTypeTable y = some .int := htyy
      simp [type, hint, ht, isBoolean, ValueInst.isReal, ofVarType_numeric hn]
    · simp only [ValueInst.typedEval] at hv
      split at hv
      next b hb =>
        obtain ⟨w, hew, hw⟩ := hvy _ hb
        rw [hty.2] at hw
        have hw' : w = .num (.int b) := hw
        exact ⟨.num v, by simp [eval, hew, hw', hv], rfl⟩
      · simp at hv
  | .intNum n, hw, _ => by
    refine ⟨_, _, rfl, .intNum n, type_intExpr hw, fun v hv => ⟨_, eval_intExpr n, ?_⟩⟩
    rw [← Option.some.inj hv]
    rfl
  | .realNum t r, _, _ => by
    refine ⟨_, _, rfl, .realNum r, type_realExpr r, fun v hv => ⟨_, eval_realExpr r, ?_⟩⟩
    rw [← Option.some.inj hv]
    rfl
  | .boolNum b, _, _ => by
    refine ⟨_, _, rfl, .boolNum b, ?_, fun v hv => ⟨_, rfl, ?_⟩⟩
    · cases b <;> rfl
    · rw [← Option.some.inj hv]
      cases b <;> rfl
  | .binop op a b, hw, hty => by
    obtain ⟨ts, x, hts, hx, htx, hvx⟩ := visit_text hm hw.1 hty.1
    obtain ⟨us, y, hus, hy, htyy, hvy⟩ := visit_text hm hw.2.1 hty.2.1
    have hval : ∀ v, (ValueInst.binop op a b).typedEval gVarTypeTable m = some v →
        ∃ va vb, a.typedEval gVarTypeTable m = some va ∧ b.typedEval gVarTypeTable m = some vb ∧
          Val.binop op va vb = some v := by
      intro v hv
      simp only [ValueInst.typedEval, Option.bind_eq_bind, Option.bind_eq_some_iff] at hv
      obtain ⟨va, ha, vb, hb, hv⟩ := hv
      exact ⟨va, vb, ha, hb, hv⟩
    cases ho : isBoolOpcode op with
    | true =>
      obtain ⟨hab, heq⟩ := hty.2.2.1 ho
      have hres : isBoolean (.binop op a b) = true := ho
      rw [← hab] at htyy hvy
      refine ⟨_, _, by simp [JAVAInstVisitor.visit, hts, hus, ho], hx.binop op hy, ?_,
        fun v hv => ?_⟩
      · rw [type_binop htx htyy, hres]
        cases hba : isBoolean a with
        | true => rcases heq hba with rfl | rfl <;> rfl
        | false =>
          have hn := binaryType_num hw.2.2
          rw [ho] at hn
          exact hn
      · obtain ⟨va, vb, ha, hb, hv⟩ := hval v hv
        obtain ⟨wa, hea, hwa⟩ := hvx va ha
        obtain ⟨wb, heb, hwb⟩ := hvy vb hb
        obtain ⟨w, hw, hhas⟩ : ∃ w, binary op wa wb = some w ∧ Has (isBoolOpcode op) v w := by
          cases hba : isBoolean a with
          | true =>
            rw [hba] at hwa hwb
            exact binary_boolean (heq hba) hwa hwb hv
          | false =>
            rw [hba] at hwa hwb
            have hwa' : wa = .num va := hwa
            have hwb' : wb = .num vb := hwb
            rw [hwa', hwb']
            exact binary_has hv rfl rfl (.inr ⟨rfl, rfl⟩)
        exact ⟨w, by rw [eval_binop hea heb, hw], hhas⟩
    | false =>
      obtain ⟨hoa, hob⟩ := hty.2.2.2 ho
      obtain ⟨t1, h1, hq1, hr1, hb1⟩ := visit_type hw.1 hty.1 hoa.1
      obtain ⟨t2, h2, hq2, hr2, hb2⟩ := visit_type hw.2.1 hty.2.1 hob.1
      have hm1 : isBoolean a = true → t2 ≠ .kFloatMacro ∧ t2 ≠ .kDouble := by
        simpa [h2] using hoa.2
      have hm2 : isBoolean b = true → t1 ≠ .kFloatMacro ∧ t1 ≠ .kDouble := by
        simpa [h1] using hob.2
      rw [← hr1] at htx
      rw [← hr2] at htyy
      obtain ⟨x', y', r1, r2, hcx, hcy, hor⟩ :=
        operands_converted (m := m) hq1 hq2 hb1 hb2 hm1 hm2 hx hy htx htyy
      have hres : isBoolean (.binop op a b) = false := ho
      refine ⟨_, _, by simp [JAVAInstVisitor.visit, hts, hus, ho, h1, h2],
        hcx.text.binop op hcy.text, ?_, fun v hv => ?_⟩
      · have hint : isIntOpcode op = true → r1 = false ∧ r2 = false := by
          intro h
          obtain ⟨ha, hb⟩ := hw.2.2 h
          rw [hr1, hr2, ha, hb] at hor
          simpa using hor
        rw [type_binop hcx.type hcy.type, hres, ValueInst.isReal, ho, ← hr1, ← hr2]
        have hn := binaryType_num hint
        rw [ho, hor] at hn
        exact hn
      · obtain ⟨va, vb, ha, hb, hv⟩ := hval v hv
        obtain ⟨wa, hea, hwa⟩ := hvx va ha
        obtain ⟨wb, heb, hwb⟩ := hvy vb hb
        have hra := (ValueInst.isReal_typedEval hm hw.1 ha).trans hr1.symm
        have hrb := (ValueInst.isReal_typedEval hm hw.2.1 hb).trans hr2.symm
        obtain ⟨ua, hua, hna, hria, hsa⟩ := hcx.eval va wa hwa hra hea
        obtain ⟨ub, hub, hnb, hrib, hsb⟩ := hcy.eval vb wb hwb hrb heb
        -- an operand only changes when the operation is on reals
        have hsame : (va.isReal || vb.isReal) = true ∧ (ua.isReal || ub.isReal) = true ∨
            ua = va ∧ ub = vb := by
          rw [hra, hrb, hria, hrib, hor]
          cases hr : t1.isReal || t2.isReal with
          | true => exact .inl ⟨rfl, rfl⟩
          | false =>
            rw [hr] at hor
            simp only [Bool.or_eq_false_iff] at hr hor
            exact .inr ⟨hsa (by rw [hor.1, hr.1]), hsb (by rw [hor.2, hr.2])⟩
        obtain ⟨w, hw, hhas⟩ := binary_has hv hna hnb hsame
        exact ⟨w, by rw [eval_binop hua hub, hw], hhas⟩
  | .castNum a t, hw, hty => by
    obtain ⟨ts, x, hts, hx, htx, hvx⟩ := visit_text hm hw.1 hty.1
    obtain ⟨s, hs, hq, hr, hb⟩ := visit_type hw.1 hty.1 hty.2
    rw [← hr] at htx
    obtain ⟨us, y, hus, hy, htyy, hvy⟩ := castNum_text (m := m) hw.2 hq hb hx htx
    refine ⟨us, y, by simp [JAVAInstVisitor.visit, hts, hs, hus], hy, htyy, fun v hv => ?_⟩
    simp only [ValueInst.typedEval, Option.bind_eq_bind, Option.bind_eq_some_iff] at hv
    obtain ⟨va, ha, hv⟩ := hv
    obtain ⟨w, he, hw'⟩ := hvx va ha
    have hra := (ValueInst.isReal_typedEval hm hw.1 ha).trans hr.symm
    exact ⟨.num v, hvy va w v hw' hra he hv, rfl⟩
  | .select2 c t e, hw, hty => by
    obtain ⟨htyc, htyt, htye, htag, hbc, hbe, -⟩ := hty
    obtain ⟨ts, x, hts, hx, htx, hvx⟩ := visit_text hm hw.1 htyc
    obtain ⟨us, y, hus, hy, htyy, hvy⟩ := visit_text hm hw.2.1 htyt
    obtain ⟨vs, z, hvs, hz, htz, hvz⟩ := visit_text hm hw.2.2 htye
    have hcond : TypingVisitor.visit gVarTypeTable c = .basic .kBool := htag.mpr hbc
    rw [hbc] at htx hvx
    rw [← hbe] at htz hvz
    have hbool : isBoolean (.select2 c t e) = isBoolean t := by simp [isBoolean, ← hbe]
    have hty : type gVarTypeTable (.cond (.paren x) y z) = some (if isBoolean t then .boolean
        else numType (t.isReal gVarTypeTable || e.isReal gVarTypeTable)) :=
      type_cond (by rw [type]; exact htx) htyy htz
    refine ⟨_, _, by simp [JAVAInstVisitor.visit, hts, hus, hvs, hcond, JAVAInstVisitor.condition],
      hx.paren.select2 hy hz, by rw [hbool]; exact hty, fun v hv => ?_⟩
    rw [ValueInst.typedEval_select2, Option.bind_eq_some_iff] at hv
    obtain ⟨vc, hc, hv⟩ := hv
    obtain ⟨u, hu, rfl⟩ := Option.map_eq_some_iff.mp hv
    obtain ⟨wc, hec, b, rfl, rfl⟩ := hvx vc hc
    have htruth : (Val.ofBool b).truth = b := by cases b <;> rfl
    rw [htruth] at hu
    obtain ⟨w, hw', hhas⟩ : ∃ w, (if b then eval gVarTypeTable m y
        else eval gVarTypeTable m z) = some w ∧ Has (isBoolean t) u w := by
      cases b
      · exact hvz u hu
      · exact hvy u hu
    rw [hbool]
    apply eval_cond (by rw [eval]; exact hec) hhas hw' hty
    intro hb
    exact ⟨isReal_of_isBoolean hb, isReal_of_isBoolean (hbe ▸ hb)⟩

end

end Java

end Faust.Fir
