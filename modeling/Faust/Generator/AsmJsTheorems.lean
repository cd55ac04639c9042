import Faust.Generator.JavaScriptTheorems

/-!
# The asm.js text of a value

The visitor turns every result back to a word or to a real by the type it has inferred. A
selection is typed by its first branch only: when that type is an integer one, the other branch
has to be an integer too. This is all the text needs to have the value of the C text.
-/

namespace Faust.Fir

open ExprGrammar

/-! ## The inferred types -/

section
variable (gVarTypeTable : VarTypeTable)

/-- In every selection the first branch is a real one as soon as the other is. -/
def TypedByThen : ValueInst → Prop
  | .loadArrayVar _ i => TypedByThen i
  | .binop _ a b => TypedByThen a ∧ TypedByThen b
  | .castNum a _ => TypedByThen a
  | .select2 c t e => TypedByThen c ∧ TypedByThen t ∧ TypedByThen e ∧
    (e.isReal gVarTypeTable = true → t.isReal gVarTypeTable = true)
  | _ => True

end

section
variable {gVarTypeTable : VarTypeTable}

theorem VarType.Numeric.ne_kQuad {t : VarType} (h : t.Numeric) : t ≠ .kQuad := by
  rintro rfl
  exact h

/-- The type of an operation on numbers. -/
theorem binopType_basic {t1 t2 : VarType} (h1 : t1 ≠ .kQuad) (h2 : t2 ≠ .kQuad) :
    TypingVisitor.binopType (.basic t1) (.basic t2) =
      .basic (if t1.isReal || t2.isReal then .kFloat else .kInt) := by
  cases t1 <;> cases t2 <;> first | rfl | exact absurd rfl h1 | exact absurd rfl h2

/-- The inferred type tells integers from reals. -/
theorem TypedByThen.visit : ∀ {e : ValueInst}, e.WellTyped gVarTypeTable →
    TypedByThen gVarTypeTable e → ∃ t, TypingVisitor.visit gVarTypeTable e = .basic t ∧
      t ≠ .kQuad ∧ t.isReal = e.isReal gVarTypeTable
  | .loadVar a, hw, _ => by
    obtain ⟨-, t, ht, hn⟩ := hw
    exact ⟨t, by simp [TypingVisitor.visit, ht], hn.ne_kQuad, by simp [ValueInst.isReal, ht]⟩
  | .loadArrayVar a i, hw, _ => by
    obtain ⟨-, ⟨t, n, ht, hn⟩, -⟩ := hw
    exact ⟨t, by simp [TypingVisitor.visit, ht], hn.ne_kQuad, by simp [ValueInst.isReal, ht]⟩
  | .intNum n, _, _ => ⟨.kInt, rfl, by decide, rfl⟩
  | .realNum t r, hw, _ => by
    rcases hw with rfl | rfl
    · exact ⟨.kFloat, rfl, by decide, rfl⟩
    · exact ⟨.kDouble, rfl, by decide, rfl⟩
  | .boolNum b, _, _ => ⟨.kBool, rfl, by decide, rfl⟩
  | .binop op a b, hw, ht => by
    obtain ⟨t1, h1, hq1, hr1⟩ := TypedByThen.visit hw.1 ht.1
    obtain ⟨t2, h2, hq2, hr2⟩ := TypedByThen.visit hw.2.1 ht.2
    cases ho : isBoolOpcode op with
    | true => exact ⟨.kBool, by simp [TypingVisitor.visit, ho], by decide,
        by simp [ValueInst.isReal, ho]; rfl⟩
    | false =>
      refine ⟨_, by simp only [TypingVisitor.visit, ho, h1, h2, binopType_basic hq1 hq2]; rfl,
        by split <;> decide, ?_⟩
      rw [ValueInst.isReal, ho, ← hr1, ← hr2]
      cases t1.isReal <;> cases t2.isReal <;> rfl
  | .castNum a t, hw, _ => ⟨t, rfl, hw.2.ne_kQuad, rfl⟩
  | .select2 c t e, hw, ht => by
    obtain ⟨s, hs, hq, hr⟩ := TypedByThen.visit hw.2.1 ht.2.1
    refine ⟨s, hs, hq, ?_⟩
    have he := ht.2.2.2
    rw [hr, ValueInst.isReal]
    cases hre : e.isReal gVarTypeTable
    · simp
    · simp [he hre]

end

/-! ## Words and the heap -/

open JavaScript

theorem JavaScript.ExactVal.of_isBoolOpcode {op : BinOp} {v w : Val}
    (h : isBoolOpcode op = true) : ExactVal op v w := by
  match v, w with
  | .int a, .int b => cases op <;> trivial
  | .int _, .real _ | .real _, .int _ | .real _, .real _ => trivial

theorem JavaScript.ExactVal.of_isReal {op : BinOp} {v w : Val}
    (h : (v.isReal || w.isReal) = true) : ExactVal op v w := by
  match v, w, h with
  | .int _, .real _, _ | .real _, .int _, _ | .real _, .real _, _ => trivial

section
variable {env : Env} {x y : Expr}

theorem TextOf.toInt {types : String → Bool} {ts : List Tok} (ht : x.tokens = ts)
    (hf : x.Fits types) (hp : 1 ≤ x.prec) :
    TextOf types (ASMJAVAScriptInstVisitor.toInt ts) (.paren (.binary .or x (.int 0))) where
  tokens := by simp [Expr.tokens, ASMJAVAScriptInstVisitor.toInt, ht]
  fits := ⟨hf, hp, trivial, by simp [Oper.prec]⟩
  tight := by simp

theorem TextOf.toReal {types : String → Bool} {ts : List Tok} (ht : x.tokens = ts)
    (hf : x.Fits types) :
    TextOf types (ASMJAVAScriptInstVisitor.toReal ts) (.unary .plus (.paren x)) where
  tokens := by simp [Expr.tokens, ASMJAVAScriptInstVisitor.toReal, ht, UnOp.tok]
  fits := ⟨hf, by simp⟩
  tight := by simp

theorem toInt32_natCast (n : ℕ) : (JsVal.num n).toInt32 = BitVec.ofNat 32 n := by
  rw [JsVal.toInt32, JsVal.toNumber, ← Int.cast_natCast, ofInt_truncInt, BitVec.ofInt_natCast]

theorem eval_toInt {r : JsVal} {b : BitVec 32} (hx : eval env x = some r) (hb : r.toInt32 = b) :
    eval env (.paren (.binary .or x (.int 0))) = some (.num b.toInt) := by
  have h0 : b ||| BitVec.ofNat 32 0 = b := BitVec.or_zero
  simp only [eval, hx, operation, binary, hb, toInt32_natCast, h0, Option.bind_eq_bind,
    Option.bind_some]
  rfl

theorem eval_toReal {r : JsVal} (hx : eval env x = some r) :
    eval env (.unary .plus (.paren x)) = some (.num r.toNumber) := by
  simp [eval, hx]

end

section
variable {env : Env} {h : Heap} {gVarTypeTable : VarTypeTable} {m : Memory} {x y : Expr}

theorem eval_index (n : String) (i : Expr) :
    eval env (.index (.name n) i) = (eval env i).bind (JavaScript.getElem (env.elem n)) := by
  simp only [eval]
  rfl

theorem getElem_intCast (elem : ℤ → Option ℚ) (i : ℤ) :
    JavaScript.getElem elem (.num i) = (elem i).map .num := by
  simp [JavaScript.getElem]

/-- Reading the heap at an address. -/
theorem eval_heap {t : VarType} {a : ℤ} (ha : Heap.Valid a)
    (hx : eval (h.env gVarTypeTable m) x = some (.num a)) :
    eval (h.env gVarTypeTable m)
        (.index (.name (if t.isReal then "HEAPF32" else "HEAP32")) (.binary .shr x (.int 2))) =
      some (.num (h.read t a)) := by
  have hi : (BitVec.ofInt 32 a).toInt = a :=
    Interval.toInt_ofInt_of_isInt32 ⟨by have := ha.1; omega, ha.2⟩
  have hs : ((BitVec.ofInt 32 a).sshiftRight 2).toInt = a / 4 := by
    rw [BitVec.toInt_sshiftRight, hi, Int.shiftRight_eq_div_pow]
    rfl
  have ha32 : (JsVal.num (a : ℚ)).toInt32 = BitVec.ofInt 32 a := by
    rw [JsVal.toInt32, JsVal.toNumber, ofInt_truncInt]
  have he : eval (h.env gVarTypeTable m) (.binary .shr x (.int 2)) =
      some (.num ((a / 4 : ℤ) : ℚ)) := by
    simp only [eval, hx, operation, binary, ha32, toInt32_natCast, Option.bind_eq_bind,
      Option.bind_some, JsVal.ofInt32]
    rw [← hs]
    rfl
  rw [eval_index, he, Option.bind_some, getElem_intCast]
  cases ht : t.isReal <;> simp [Heap.env, Heap.read, ht]

/-- The address of an element: the index is multiplied by the size of a number. -/
theorem eval_address {a i : ℤ} (h4 : IsInt32 (4 * i))
    (hx : eval env x = some (.num a)) (hy : eval env y = some (.num i)) :
    eval env (.binary .add x (.paren (.binary .shl y (.int 2)))) =
      some (.num ((a + 4 * i : ℤ) : ℚ)) := by
  have hi32 : (JsVal.num (i : ℚ)).toInt32 = BitVec.ofInt 32 i := by
    rw [JsVal.toInt32, JsVal.toNumber, ofInt_truncInt]
  have hs : (BitVec.ofInt 32 i <<< 2).toInt = 4 * i := by
    have hm : BitVec.ofInt 32 i <<< 2 = BitVec.ofInt 32 (4 * i) := by
      rw [BitVec.ofInt_mul, BitVec.mul_comm, BitVec.shiftLeft_eq_mul_twoPow]
      rfl
    rw [hm, Interval.toInt_ofInt_of_isInt32 h4]
  have he : eval env (.paren (.binary .shl y (.int 2))) = some (.num ((4 * i : ℤ) : ℚ)) := by
    simp only [eval, hy, operation, binary, hi32, toInt32_natCast, Option.bind_eq_bind,
      Option.bind_some, JsVal.ofInt32]
    rw [← hs]
    rfl
  rw [eval, hx, he]
  simp [operation, binary, JsVal.toNumber]

end

/-! ## Addresses -/

namespace ASMJAVAScriptInstVisitor

section
variable {gVarTypeTable : VarTypeTable} {fFieldTable : FieldTable} {h : Heap} {m : Memory}

theorem textOf_heapElement {heap : String} {base index : List Tok} {x y : Expr}
    (ht : x.tokens = base) (hf : x.Fits types) (hp : 7 ≤ x.prec) (hy : TextOf types index y) :
    TextOf types (heapElement heap base index) (.index (.name heap) (.binary .shr
      (.binary .add x (.paren (.binary .shl y (.int 2)))) (.int 2))) where
  tokens := by simp [Expr.tokens, heapElement, ht, hy.tokens]
  fits := by
    have hpy := hy.tight
    refine ⟨rfl, rfl, ⟨⟨hf, hp, ⟨hy.fits, ?_, trivial, ?_⟩, ?_⟩, ?_, trivial, ?_⟩⟩
    all_goals simp only [Expr.prec_int, Expr.prec_paren, Expr.prec_binary, Oper.prec]
    all_goals omega
  tight := by simp

/-- The text of a field that holds a number. -/
theorem named_inStruct (hl : h.Lays gVarTypeTable fFieldTable m) {a : NamedAddress} {t : VarType}
    (ht : gVarTypeTable a.fName = some (a.fAccess, .basic t)) (hn : t.Numeric)
    (hs : a.fAccess.inStruct = true) :
    ∃ ts x, named fFieldTable a = some ts ∧ TextOf types ts x ∧
      ∀ v, m a.fName = .scalar (some v) →
        eval (h.env gVarTypeTable m) x = some (.num v.toReal) := by
  obtain ⟨hft, hv, hr⟩ := hl.scalar _ _ _ ht hs
  have hd : ∀ heap, TextOf types [.name heap, .lbrack, .name "dsp", .op .add,
      .int (fFieldTable a.fName).1, .op .shr, .int 2, .rbrack]
      (.index (.name heap) (.binary .shr (.binary .add (.name "dsp")
        (.int (fFieldTable a.fName).1)) (.int 2))) := by
    intro heap
    refine ⟨rfl, ⟨rfl, rfl, ⟨rfl, ?_, trivial, ?_⟩, ?_, trivial, ?_⟩, ?_⟩
    all_goals simp [Oper.prec]
  have he : eval (h.env gVarTypeTable m) (.binary .add (.name "dsp")
      (.int (fFieldTable a.fName).1)) =
      some (.num ((h.dsp + (fFieldTable a.fName).1 : ℤ) : ℚ)) := by
    simp [eval, Heap.env, operation, binary, JsVal.toNumber]
  refine ⟨_, _, ?_, hd (if t.isReal then "HEAPF32" else "HEAP32"), fun v hmv => ?_⟩
  · simp only [named, hs, hft]
    cases t <;> first | rfl | exact hn.elim
  · rw [eval_heap hv he, hr v hmv]

/-- The text of a local variable that holds a number. -/
theorem named_local (hl : h.Lays gVarTypeTable fFieldTable m) {a : NamedAddress} {t : VarType}
    (ht : gVarTypeTable a.fName = some (a.fAccess, .basic t)) (hs : a.fAccess.inStruct = false) :
    ∃ ts x, named fFieldTable a = some ts ∧ TextOf types ts x ∧
      ∀ v, m a.fName = .scalar (some v) →
        eval (h.env gVarTypeTable m) x = some (.num v.toReal) := by
  have hd : a.fName ≠ "dsp" := by
    intro hd
    have hr := (hl.names _ _ ht).1
    simp [hd, Heap.reserved] at hr
  refine ⟨_, .name a.fName, by simp [named, hs], .name rfl, fun v hmv => ?_⟩
  simp [eval, Heap.env, hd, ht, hs, Memory.number, hmv]

/-- An element that the heap holds. -/
theorem eval_heapElement {t : VarType} {n : String} {i b : ℤ} {v : Val} {x y : Expr}
    (hh : h.Holds t b m n) (hv : m.loadArray n i = some v)
    (hx : eval (h.env gVarTypeTable m) x = some (.num b))
    (hy : eval (h.env gVarTypeTable m) y = some (.num i)) :
    eval (h.env gVarTypeTable m) (.index (.name (if t.isReal then "HEAPF32" else "HEAP32"))
      (.binary .shr (.binary .add x (.paren (.binary .shl y (.int 2)))) (.int 2))) =
      some (.num v.toReal) := by
  obtain ⟨h4, ha, hr⟩ := hh i v hv
  rw [eval_heap ha (eval_address h4 hx hy), hr]

/-- The text of an element. -/
theorem indexedAddress_text (hl : h.Lays gVarTypeTable fFieldTable m) {a : NamedAddress}
    {t : VarType} {n : ℕ} (ht : gVarTypeTable a.fName = some (a.fAccess, .array t n))
    (hn : t.Numeric) {us : List Tok} {y : Expr} (hy : TextOf types us y) :
    ∃ x, TextOf types (indexedAddress fFieldTable a us) x ∧
      ∀ (i : ℤ) v, eval (h.env gVarTypeTable m) y = some (.num i) →
        m.loadArray a.fName i = some v →
        eval (h.env gVarTypeTable m) x = some (.num v.toReal) := by
  obtain ⟨hr, hin, hout⟩ := hl.names _ _ ht
  have hres : a.fName ≠ "dsp" ∧ a.fName ≠ "HEAP32" ∧ a.fName ≠ "HEAPF32" := by
    simpa [Heap.reserved, and_assoc] using hr
  unfold indexedAddress
  simp only [hin, hout, Bool.or_self, Bool.false_eq_true, if_false]
  cases hb : Heap.isBuffer a.fName with
  | true =>
    obtain ⟨hs, htr, hh⟩ := hl.buffer _ _ _ _ ht hb
    rw [Heap.isBuffer] at hb
    rw [if_pos hb]
    refine ⟨_, textOf_heapElement (x := .name a.fName) rfl rfl (by simp) hy, fun i v hi hv => ?_⟩
    have he := eval_heapElement (x := .name a.fName) hh hv
      (by simp [eval, Heap.env, hres.1, ht, hs]) hi
    rwa [htr] at he
  | false =>
    have hb' := hb
    rw [Heap.isBuffer] at hb'
    rw [if_neg (by simp [hb'])]
    cases hs : a.fAccess.inStruct with
    | true =>
      obtain ⟨hft, hh⟩ := hl.array _ _ _ _ ht hb hs
      have hd : eval (h.env gVarTypeTable m) (.binary .add (.name "dsp")
          (.int (fFieldTable a.fName).1)) =
          some (.num ((h.dsp + (fFieldTable a.fName).1 : ℤ) : ℚ)) := by
        simp [eval, Heap.env, operation, binary, JsVal.toNumber]
      have htext : ∀ heap, TextOf types
          (heapElement heap [.name "dsp", .op .add, .int (fFieldTable a.fName).1] us) _ :=
        fun heap => textOf_heapElement
          (x := .binary .add (.name "dsp") (.int (fFieldTable a.fName).1)) rfl
          ⟨rfl, by simp [Oper.prec], trivial, by simp [Oper.prec]⟩ (by simp [Oper.prec]) hy
      refine ⟨_, ?_, fun i v hi hv => eval_heapElement hh hv hd hi⟩
      rw [if_pos rfl, hft]
      cases t <;> first | exact htext _ | exact hn.elim
    | false =>
      rw [if_neg (by simp)]
      refine ⟨_, (TextOf.name rfl).indexed rfl hy, fun i v hi hv => ?_⟩
      rw [eval_index, hi, Option.bind_some, getElem_intCast]
      simp [Heap.env, hres.2.1, hres.2.2, ht, hs, hb, Memory.numberAt, hv]

/-- A load gives the number of the variable, by its type. -/
theorem load_text {t : VarType} (hn : t.Numeric) (n : String) {ts : List Tok} {x : Expr}
    (hx : TextOf types ts x) :
    ∃ y, TextOf types (load n (.basic t) ts) y ∧
      ∀ v : Val, v.isReal = t.isReal →
        eval (h.env gVarTypeTable m) x = some (.num v.toReal) →
        eval (h.env gVarTypeTable m) y = some (.num v.toReal) := by
  have hp := hx.tight
  cases t with
  | kInt =>
    refine ⟨_, .toInt hx.tokens hx.fits (by omega), fun v hv he => ?_⟩
    obtain ⟨b, rfl⟩ := Val.eq_int hv
    exact eval_toInt he (toInt32_of_toNumber rfl)
  | kFloat | kFloatMacro | kDouble =>
    exact ⟨_, .toReal hx.tokens hx.fits, fun v _ he => eval_toReal he⟩
  | kQuad | kBool => exact hn.elim

/-- The text of a binary operation on numbers of known types. -/
theorem binop_text (env : Env) (op : BinOp) {t1 t2 : VarType} (h1 : t1 ≠ .kQuad)
    (h2 : t2 ≠ .kQuad) {ts us : List Tok} {x y : Expr} (hx : TextOf types ts x)
    (hy : TextOf types us y) :
    ∃ z, TextOf types (binop op (.basic t1) (.basic t2) ts us) z ∧
      ∀ va vb v : Val, va.isReal = t1.isReal → vb.isReal = t2.isReal →
        Val.binop op va vb = some v → eval env x = some (.num va.toReal) →
        eval env y = some (.num vb.toReal) → eval env z = some (.num v.toReal) := by
  have hop := (BinOp.fName op).prec_le
  have hop1 := (BinOp.fName op).prec_pos
  have hpx := hx.tight
  have hpy := hy.tight
  have ht : (Expr.binary (BinOp.fName op) x y).tokens = ts ++ .op (BinOp.fName op) :: us := by
    simp [Expr.tokens, hx.tokens, hy.tokens]
  have hf : (Expr.binary (BinOp.fName op) x y).Fits types :=
    ⟨hx.fits, by omega, hy.fits, by omega⟩
  have hev : ∀ {va vb : Val} {r : JsVal}, eval env x = some (.num va.toReal) →
      eval env y = some (.num vb.toReal) →
      JavaScript.binary op (.num va.toReal) (.num vb.toReal) = some r →
      eval env (.binary (BinOp.fName op) x y) = some r := by
    intro va vb r hxv hyv hr
    simp [eval, hxv, hyv, hr]
  have htoInt := TextOf.toInt ht hf hop1
  unfold binop
  rw [binopType_basic h1 h2]
  cases ho : isBoolOpcode op with
  | true =>
    -- the truth value of a comparison becomes 0 or 1
    refine ⟨_, htoInt, fun va vb v _ _ hv hxv hyv => ?_⟩
    obtain ⟨r, hr, hrn⟩ := binary_val (v := .num va.toReal) (w := .num vb.toReal) hv rfl rfl
      (ExactVal.of_isBoolOpcode ho)
    obtain ⟨b, rfl⟩ := Val.eq_int (v := v) (by rw [Val.isReal_binop hv, ho]; rfl)
    exact eval_toInt (hev hxv hyv hr) (toInt32_of_toNumber hrn)
  | false =>
    cases hr : t1.isReal || t2.isReal with
    | true =>
      refine ⟨_, .toReal ht hf, fun va vb v hva hvb hv hxv hyv => ?_⟩
      rw [← hva, ← hvb] at hr
      obtain ⟨r, hr, hrn⟩ := binary_val (v := .num va.toReal) (w := .num vb.toReal) hv rfl rfl
        (ExactVal.of_isReal hr)
      rw [eval_toReal (hev hxv hyv hr), hrn]
    | false =>
      have hint : ∀ va vb : Val, va.isReal = t1.isReal → vb.isReal = t2.isReal →
          ∃ a b, va = .int a ∧ vb = .int b := by
        intro va vb hva hvb
        rw [← hva, ← hvb] at hr
        obtain ⟨ha, hb⟩ := Bool.or_eq_false_iff.mp hr
        obtain ⟨a, rfl⟩ := Val.eq_int ha
        obtain ⟨b, rfl⟩ := Val.eq_int hb
        exact ⟨a, b, rfl, rfl⟩
      by_cases hmul : op = .kMul
      · subst hmul
        refine ⟨_, .toInt (x := .call2 "imul" x y) (by simp [Expr.tokens, hx.tokens, hy.tokens])
          ⟨rfl, hx.fits, hy.fits⟩ (by simp), fun va vb v hva hvb hv hxv hyv => ?_⟩
        obtain ⟨a, b, rfl, rfl⟩ := hint va vb hva hvb
        rw [← Option.some.inj hv]
        apply eval_toInt (r := .ofInt32 (a * b)) _ (toInt32_ofInt32 _)
        simp only [eval, hxv, hyv, Option.bind_eq_bind, Option.bind_some]
        rw [toInt32_of_toNumber (b := a) rfl, toInt32_of_toNumber (b := b) rfl]
        rfl
      · simp only [Bool.false_eq_true, if_false, if_neg hmul]
        refine ⟨_, htoInt, fun va vb v hva hvb hv hxv hyv => ?_⟩
        obtain ⟨a, b, rfl, rfl⟩ := hint va vb hva hvb
        obtain ⟨r, hr, hu, -⟩ := binary_intOp (v := .num a.toInt) (w := .num b.toInt) hv rfl rfl
        rw [hu]
        exact eval_toInt (hev hxv hyv hr) rfl

/-- The asm.js text of a well-typed value is well formed and has the value of the C text, if the
typing visitor finds the type of every selection. -/
theorem visit_text (hl : h.Lays gVarTypeTable fFieldTable m) (hm : Valuation gVarTypeTable m) :
    ∀ {e : ValueInst}, e.WellTyped gVarTypeTable → TypedByThen gVarTypeTable e →
      ∃ ts x, visit fFieldTable gVarTypeTable e = some ts ∧ TextOf types ts x ∧
        ∀ v, e.typedEval gVarTypeTable m = some v →
          eval (h.env gVarTypeTable m) x = some (.num v.toReal)
  | .loadVar a, hw, _ => by
    have hmv : ∀ v, (ValueInst.loadVar a).typedEval gVarTypeTable m = some v →
        m a.fName = .scalar (some v) := by
      intro v hv
      simp only [ValueInst.typedEval] at hv
      split at hv <;> simp_all
    obtain ⟨-, t, ht, hn⟩ := hw
    have hnamed : ∃ ts x, named fFieldTable a = some ts ∧ TextOf types ts x ∧
        ∀ v, m a.fName = .scalar (some v) →
          eval (h.env gVarTypeTable m) x = some (.num v.toReal) := by
      cases hs : a.fAccess.inStruct with
      | true => exact named_inStruct hl ht hn hs
      | false => exact named_local hl ht hs
    obtain ⟨ts, x, hts, hx, hvx⟩ := hnamed
    obtain ⟨y, hy, hvy⟩ := load_text hn a.fName hx
    refine ⟨_, y, by simp [visit, hts, TypingVisitor.visit, ht], hy, fun v hv => ?_⟩
    exact hvy v (hm.scalar _ _ _ _ ht (hmv v hv)) (hvx v (hmv v hv))
  | .loadArrayVar a i, hw, hty => by
    obtain ⟨-, ⟨t, n, ht, hn⟩, hwi, -⟩ := hw
    obtain ⟨us, y, hus, hy, hvy⟩ := visit_text hl hm hwi hty
    obtain ⟨x, hx, hvx⟩ := indexedAddress_text hl ht hn hy
    obtain ⟨z, hz, hvz⟩ := load_text hn a.fName hx
    refine ⟨_, z, by simp [visit, hus, TypingVisitor.visit, ht], hz, fun v hv => ?_⟩
    simp only [ValueInst.typedEval] at hv
    split at hv
    next b hb =>
      exact hvz v (hm.elem _ _ _ _ _ _ ht hv) (hvx b.toInt v (hvy _ hb) hv)
    · simp at hv
  | .intNum n, hw, _ => by
    refine ⟨_, _, rfl, .intNum n, fun v hv => ?_⟩
    rw [← Option.some.inj hv, eval_intExpr, Val.toReal, Interval.toInt_ofInt_of_isInt32 hw]
  | .realNum t r, _, _ => by
    refine ⟨_, _, rfl, .realNum r, fun v hv => ?_⟩
    rw [← Option.some.inj hv, eval_realExpr]
    rfl
  | .boolNum b, _, _ => by
    refine ⟨_, _, rfl, .boolNum b, fun v hv => ?_⟩
    rw [← Option.some.inj hv]
    cases b <;> simp [eval, Val.ofBool, Val.toReal]
  | .binop op a b, hw, hty => by
    obtain ⟨ts, x, hts, hx, hvx⟩ := visit_text hl hm hw.1 hty.1
    obtain ⟨us, y, hus, hy, hvy⟩ := visit_text hl hm hw.2.1 hty.2
    obtain ⟨t1, h1, hq1, hr1⟩ := hty.1.visit hw.1
    obtain ⟨t2, h2, hq2, hr2⟩ := hty.2.visit hw.2.1
    obtain ⟨z, hz, hvz⟩ := binop_text (h.env gVarTypeTable m) op hq1 hq2 hx hy
    refine ⟨_, z, by simp [visit, hts, hus, h1, h2], hz, fun v hv => ?_⟩
    simp only [ValueInst.typedEval, Option.bind_eq_bind, Option.bind_eq_some_iff] at hv
    obtain ⟨va, ha, vb, hb, hv⟩ := hv
    have hra := ValueInst.isReal_typedEval hm hw.1 ha
    have hrb := ValueInst.isReal_typedEval hm hw.2.1 hb
    exact hvz va vb v (hra.trans hr1.symm) (hrb.trans hr2.symm) hv (hvx va ha) (hvy vb hb)
  | .castNum a t, hw, hty => by
    obtain ⟨ts, x, hts, hx, hvx⟩ := visit_text hl hm hw.1 hty
    have hreal : t ≠ .kInt → ∃ us y, castNum t ts = some us ∧ TextOf types us y ∧
        ∀ v, (ValueInst.castNum a t).typedEval gVarTypeTable m = some v →
          eval (h.env gVarTypeTable m) y = some (.num v.toReal) := by
      intro hne
      refine ⟨toReal ts, _, ?_, .toReal hx.tokens hx.fits, fun v hv => ?_⟩
      · cases t <;> first | rfl | exact absurd rfl hne | exact hw.2.elim
      · simp only [ValueInst.typedEval, Option.bind_eq_bind, Option.bind_eq_some_iff] at hv
        obtain ⟨va, ha, hv⟩ := hv
        rw [eval_toReal (hvx va ha), toReal_cast hw.2 hv fun h => absurd h hne]
        rfl
    have hint : t = .kInt → ∃ us y, castNum t ts = some us ∧ TextOf types us y ∧
        ∀ v, (ValueInst.castNum a t).typedEval gVarTypeTable m = some v →
          eval (h.env gVarTypeTable m) y = some (.num v.toReal) := by
      rintro rfl
      refine ⟨_, .unary .compl (.unary .compl (.paren x)), rfl, ⟨?_, ?_, ?_⟩, fun v hv => ?_⟩
      · simp [Expr.tokens, UnOp.tok, hx.tokens]
      · exact ⟨⟨hx.fits, by simp⟩, by simp⟩
      · simp
      · simp only [ValueInst.typedEval, Option.bind_eq_bind, Option.bind_eq_some_iff, Val.cast,
          Option.map_eq_some_iff] at hv
        obtain ⟨va, ha, b, hb, rfl⟩ := hv
        have hb32 : (JsVal.num va.toReal).toInt32 = b := by
          cases va with
          | int a =>
            rw [toInt32_of_toNumber (b := a) rfl]
            exact Option.some.inj hb
          | real q =>
            simp only [Val.toInt] at hb
            split at hb
            · exact Option.some.inj hb
            · simp at hb
        simp only [eval, hvx va ha, hb32, Option.bind_eq_bind, Option.bind_some,
          Option.pure_def, toInt32_ofInt32, BitVec.not_not]
        rfl
    obtain ⟨us, y, hus, hy⟩ : ∃ us y, castNum t ts = some us ∧ _ := by
      by_cases ht : t = .kInt
      · exact hint ht
      · exact hreal ht
    exact ⟨us, y, by simp [visit, hts, hus], hy⟩
  | .select2 c t e, hw, hty => by
    obtain ⟨ts, x, hts, hx, hvx⟩ := visit_text hl hm hw.1 hty.1
    obtain ⟨us, y, hus, hy, hvy⟩ := visit_text hl hm hw.2.1 hty.2.1
    obtain ⟨vs, z, hvs, hz, hvz⟩ := visit_text hl hm hw.2.2 hty.2.2.1
    refine ⟨_, _, by simp [visit, hts, hus, hvs], hx.select2 hy hz, fun v hv => ?_⟩
    rw [ValueInst.typedEval_select2, Option.bind_eq_some_iff] at hv
    obtain ⟨vc, hc, hv⟩ := hv
    obtain ⟨w, hw', rfl⟩ := Option.map_eq_some_iff.mp hv
    have hrt := truth_eq (r := .num vc.toReal) (v := vc) rfl
    cases hvc : vc.truth
    · rw [hvc] at hw' hrt
      simp [eval, hvx vc hc, hrt, hvz w hw']
    · rw [hvc] at hw' hrt
      simp [eval, hvx vc hc, hrt, hvy w hw']

end

end ASMJAVAScriptInstVisitor

end Faust.Fir
