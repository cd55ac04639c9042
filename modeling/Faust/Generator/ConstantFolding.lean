import Faust.Generator.BinOpInst
import Faust.Signals.EnclosureTheorems

/-!
# Folding a constant and computing it

`simplification` replaces an operation on two literals by the literal that `BinOp::compute`
gives. Without it, the operation would be computed by the code of `generateBinOp`. The two agree
except on the quotient of two integers, on the operations on bits and the remainders of reals,
and, for LLVM, on the right shift of a negative integer.
-/

namespace Faust.Fir

/-- The types that `itfloat()` can return. -/
def IsItfloat (t : VarType) : Prop := t = .kFloat ∨ t = .kDouble ∨ t = .kQuad

/-- The operations on two literals that can be folded. -/
def FoldsAsComputed (reading : Reading) (op : BinOp) (n1 n2 : Node) : Prop :=
  match op with
  | .kDiv => n1.isDouble = true ∨ n2.isDouble = true
  | .kRem | .kLsh | .kAND | .kOR | .kXOR => n1.isDouble = false ∧ n2.isDouble = false
  | .kRsh => n1.isDouble = false ∧ n2.isDouble = false ∧
      (reading = .llvm → 0 ≤ n1.toDouble ∨ n2.toDouble = 0)
  | _ => True

/-! ## The value of the code -/

/-- What a binary operation is read as. -/
def Reading.binop : Reading → BinOp → Val → Val → Option Val
  | .c => Val.binop
  | .llvm => generateBinopAux

/-- The value of a literal. -/
def literalVal : Node → Val
  | .int i => .int (.ofInt 32 i)
  | n => .real n.toDouble

/-- The nature that `infereSigType` gives to an operation. -/
def resultNature (op : BinOp) (t1 t2 : Nature) : Nature :=
  match op with
  | .kDiv => .kReal
  | .kGT | .kLT | .kGE | .kLE | .kEQ | .kNE => .kInt
  | _ => t1.join t2

theorem infereBinOpType_nature {op : BinOp} {t1 t2 t : SimpleType}
    (h : infereBinOpType op t1 t2 = .ok t) : t.nature = resultNature op t1.nature t2.nature := by
  unfold infereBinOpType at h
  cases hI : arithmetic op t1.interval t2.interval with
  | none => simp [hI] at h
  | some I =>
    simp only [hI] at h
    cases op <;> simp only [Except.ok.injEq] at h <;> rw [← h] <;> rfl

section
variable {reading : Reading} {itfloat : VarType}

@[simp] theorem evalReading_binop (op : BinOp) (a b : ValueInst) :
    reading.eval (.binop op a b) =
      (reading.eval a).bind fun v => (reading.eval b).bind fun w => reading.binop op v w := by
  cases reading <;> rfl

@[simp] theorem evalReading_castNum (a : ValueInst) (t : VarType) :
    reading.eval (.castNum a t) = (reading.eval a).bind (Val.cast t) := by
  cases reading <;> rfl

@[simp] theorem evalReading_intNum (i : ℤ) : reading.eval (.intNum i) = some (.int (.ofInt 32 i)) := by
  cases reading <;> rfl

@[simp] theorem evalReading_realNum (t : VarType) (x : ℚ) :
    reading.eval (.realNum t x) = some (.real x) := by
  cases reading <;> rfl

/-- A cast of an operation is computed. -/
theorem eval_genCastNumInst_binop (op : BinOp) (a b : ValueInst) (t : VarType) :
    reading.eval (genCastNumInst (.binop op a b) t) =
      (reading.eval (.binop op a b)).bind (Val.cast t) := by
  rw [← evalReading_castNum]
  cases t <;> rfl

theorem eval_generateNumber (hf : IsItfloat itfloat) {n : Node} (h : n.IsLiteral) :
    reading.eval (generateNumber itfloat n) = some (literalVal n) := by
  cases n with
  | int i => simp [generateNumber, literalVal]
  | double x =>
    rcases hf with rfl | rfl | rfl <;>
      exact evalReading_realNum _ _
  | _ => exact h.elim

theorem eval_promote2real (hf : IsItfloat itfloat) {n : Node} (h : n.IsLiteral) :
    reading.eval (promote2real itfloat n.inferLiteralType.nature (generateNumber itfloat n)) =
      some (.real n.toDouble) := by
  cases n with
  | int i =>
    rcases hf with rfl | rfl | rfl <;>
      simp [promote2real, Node.inferLiteralType, Node.isDouble, generateNumber, genCastNumInst]
  | double x =>
    simpa [promote2real, Node.inferLiteralType, Node.isDouble, literalVal] using
      eval_generateNumber hf h
  | _ => exact h.elim

theorem eval_promote2int (hf : IsItfloat itfloat) {n : Node} (h : n.IsLiteral) :
    reading.eval (promote2int n.inferLiteralType.nature (generateNumber itfloat n)) =
      some (.int (.ofInt 32 (n.toInt wrap32))) := by
  cases n with
  | int i => simp [promote2int, Node.inferLiteralType, Node.isDouble, generateNumber]
  | double x =>
    rcases hf with rfl | rfl | rfl <;>
      simp [promote2int, Node.inferLiteralType, Node.isDouble, generateNumber,
        InstBuilder.genRealNumInst, genCastNumInst, Node.toInt]
  | _ => exact h.elim

/-- The operands of the operation that is computed. -/
def operands (op : BinOp) (n1 n2 : Node) : Val × Val :=
  if isLogicalOpcode op then
    (.int (.ofInt 32 (n1.toInt wrap32)), .int (.ofInt 32 (n2.toInt wrap32)))
  else if n1.isDouble || n2.isDouble then (.real n1.toDouble, .real n2.toDouble)
  else (literalVal n1, literalVal n2)

/-- The code computes the operation on the operands, and converts the result. -/
theorem generatedVal_eq (hf : IsItfloat itfloat) {op : BinOp} {n1 n2 : Node} (h1 : n1.IsLiteral)
    (h2 : n2.IsLiteral) {v : Val} (h : generatedVal reading itfloat op n1 n2 = some v) :
    ∃ u, reading.binop op (operands op n1 n2).1 (operands op n1 n2).2 = some u ∧
      Val.cast (genBasicFIRTyped itfloat (resultNature op n1.inferLiteralType.nature
        n2.inferLiteralType.nature)) u = some v := by
  unfold generatedVal at h
  split at h
  · simp at h
  next t ht =>
    rw [infereBinOpType_nature ht] at h
    have hn1 : n1.inferLiteralType.nature = .kReal ↔ n1.isDouble = true := by
      cases hd : n1.isDouble <;> simp [Node.inferLiteralType, hd]
    have hn2 : n2.inferLiteralType.nature = .kReal ↔ n2.isDouble = true := by
      cases hd : n2.isDouble <;> simp [Node.inferLiteralType, hd]
    unfold generateBinOp at h
    unfold operands
    by_cases hl : isLogicalOpcode op = true
    · simp only [hl, if_true, eval_genCastNumInst_binop, evalReading_binop, eval_promote2int hf h1,
        eval_promote2int hf h2, Option.bind_some] at h ⊢
      exact Option.bind_eq_some_iff.1 h
    · by_cases hr : n1.isDouble = true ∨ n2.isDouble = true
      · have hr' : (n1.isDouble || n2.isDouble) = true := by simpa using hr
        simp only [hl, hr', hn1, hn2, hr, if_true, eval_genCastNumInst_binop, evalReading_binop,
          eval_promote2real hf h1, eval_promote2real hf h2, Option.bind_some, Bool.false_eq_true,
          if_false] at h ⊢
        exact Option.bind_eq_some_iff.1 h
      · have hr' : ¬ (n1.isDouble || n2.isDouble) = true := by simpa using hr
        simp only [hl, hr', hn1, hn2, hr, eval_genCastNumInst_binop, evalReading_binop,
          eval_generateNumber hf h1, eval_generateNumber hf h2, Option.bind_some, Bool.false_eq_true,
          if_false] at h ⊢
        exact Option.bind_eq_some_iff.1 h

end

/-! ## Integers -/

theorem wrap32_toInt (b : BitVec 32) : wrap32 b.toInt = b.toInt :=
  wrap32_of_isInt32 ⟨BitVec.le_toInt b, BitVec.toInt_lt⟩

/-- A comparison of integers is folded to the word of its truth value. -/
theorem ofBool_eq (c : Bool) : Val.ofBool c = .int (if c then 1 else 0) ∧
    ((if c then 1 else 0 : BitVec 32)).toInt = c.toNat := by
  cases c <;> exact ⟨rfl, rfl⟩

theorem ofInt_beq {i j : ℤ} (hi : IsInt32 i) (hj : IsInt32 j) :
    (BitVec.ofInt 32 i == BitVec.ofInt 32 j) = (i == j) := by
  have hi' := Interval.toInt_ofInt_of_isInt32 hi
  have hj' := Interval.toInt_ofInt_of_isInt32 hj
  rw [Bool.eq_iff_iff, beq_iff_eq, beq_iff_eq]
  constructor
  · intro h
    rw [← hi', ← hj', h]
  · intro h
    rw [h]

/-- An operation on two integers is folded to the word that C computes. -/
theorem compute_intOp {op : BinOp} (hop : op ≠ .kDiv) {i j : ℤ} (hi : IsInt32 i) (hj : IsInt32 j)
    {u : Val} (h : Val.intOp op (.ofInt 32 i) (.ofInt 32 j) = some u) :
    ∃ b : BitVec 32, u = .int b ∧ op.compute wrap32 (.int i) (.int j) = .int b.toInt := by
  have hi' := Interval.toInt_ofInt_of_isInt32 hi
  have hj' := Interval.toInt_ofInt_of_isInt32 hj
  cases op with
  | kDiv => exact absurd rfl hop
  | kAdd | kSub | kMul =>
    refine ⟨_, (Option.some.inj h).symm, ?_⟩
    simp [BinOp.compute, Node.addNode, Node.subNode, Node.mulNode, Node.arith, Node.isDouble,
      BitVec.toInt_add, BitVec.toInt_sub, BitVec.toInt_mul, hi', hj', wrap32]
  | kRem =>
    simp only [Val.intOp, Option.ite_none_left_eq_some, Option.some.injEq] at h
    refine ⟨_, h.2.symm, ?_⟩
    show Node.int (wrap32 (i.tmod j)) = _
    rw [← wrap32_toInt (BitVec.srem _ _), BitVec.toInt_srem, hi', hj']
  | kLsh | kRsh =>
    simp only [Val.intOp, Option.ite_none_right_eq_some, Option.some.injEq] at h
    exact ⟨_, h.2.symm, rfl⟩
  | kAND | kOR | kXOR => exact ⟨_, (Option.some.inj h).symm, rfl⟩
  | kGT | kLT | kGE | kLE =>
    refine ⟨_, (Option.some.inj h).symm.trans (ofBool_eq _).1, ?_⟩
    rw [(ofBool_eq _).2]
    simp only [BinOp.compute, Node.gtNode, Node.ltNode, Node.geNode, Node.leNode, Node.compare,
      Node.isDouble, Bool.or_self, Bool.false_eq_true, if_false, Node.toInt_int, BitVec.slt,
      BitVec.sle, hi', hj']
    exact congrArg (fun c : Bool => Node.int c.toNat) (decide_eq_decide.2 Iff.rfl)
  | kEQ | kNE =>
    refine ⟨_, (Option.some.inj h).symm.trans (ofBool_eq _).1, ?_⟩
    rw [(ofBool_eq _).2]
    simp [BinOp.compute, Node.eqNode, Node.neNode, Node.compare, Node.isDouble, bne,
      ofInt_beq hi hj]

theorem toReal_intDiv {i j : ℤ} (hi : IsInt32 i) (hj : IsInt32 j) {u : Val}
    (h : Val.intOp .kDiv (.ofInt 32 i) (.ofInt 32 j) = some u) :
    u.toReal = (wrap32 (i.tdiv j) : ℤ) := by
  have hi' := Interval.toInt_ofInt_of_isInt32 hi
  have hj' := Interval.toInt_ofInt_of_isInt32 hj
  simp only [Val.intOp, Option.ite_none_left_eq_some, Option.some.injEq] at h
  rw [← h.2, Val.toReal, BitVec.toInt_sdiv, hi', hj', wrap32]

/-- The quotient of two integers is folded to the exact one, and computed by truncation. -/
theorem not_isVal_intDiv {i j : ℤ} (hi : IsInt32 i) (hj : IsInt32 j) {u : Val}
    (h : Val.intOp .kDiv (.ofInt 32 i) (.ofInt 32 j) = some u) :
    ¬ (BinOp.compute wrap32 .kDiv (.int i) (.int j)).IsVal (.real u.toReal) := by
  have hu := toReal_intDiv hi hj h
  have hdiv : BinOp.compute wrap32 .kDiv (.int i) (.int j) =
      if ((wrap32 (i.tdiv j) : ℤ) : ℚ) = i / j then .int (wrap32 (i.tdiv j))
      else .double (i / j) := rfl
  rw [hdiv]
  by_cases hq : ((wrap32 (i.tdiv j) : ℤ) : ℚ) = i / j
  · rw [if_pos hq]
    exact fun hv => hv
  · rw [if_neg hq]
    intro hv
    apply hq
    rw [← hu]
    exact hv

/-! ## The instructions of LLVM -/

/-- On words, the instruction of an operator is the operator of C, except for the right shift. -/
theorem generateBinopAux_int {op : BinOp} (hop : op ≠ .kRsh) (a b : BitVec 32) :
    generateBinopAux op (.int a) (.int b) = Val.intOp op a b := by
  cases op with
  | kRsh => exact absurd rfl hop
  | kDiv | kRem | kLsh => exact apply_ite (Option.map Val.int) _ _ _
  | _ => rfl

theorem lshr_eq_some {a b : BitVec 32} {u : Val}
    (h : generateBinopAux .kRsh (.int a) (.int b) = some u) :
    b.toNat < 32 ∧ u = .int (a >>> b.toNat) := by
  have hlshr : generateBinopAux .kRsh (.int a) (.int b) =
      (if b.toNat < 32 then some (a >>> b.toNat) else none).map Val.int := rfl
  rw [hlshr] at h
  by_cases hb : b.toNat < 32
  · rw [if_pos hb] at h
    exact ⟨hb, (Option.some.inj h).symm⟩
  · rw [if_neg hb] at h
    simp at h

/-- A shift that fills with zeros, and one that keeps the sign. -/
theorem ushiftRight_eq_iff (a : BitVec 32) {k : ℕ} (hk : k < 32) :
    a >>> k = a.sshiftRight k ↔ 0 ≤ a.toInt ∨ k = 0 := by
  cases hm : a.msb with
  | false =>
    have hpos : 0 ≤ a.toInt := by
      rw [BitVec.toInt_eq_msb_cond, hm]
      simp
    rw [BitVec.sshiftRight_eq_of_msb_false hm]
    exact ⟨fun _ => .inl hpos, fun _ => rfl⟩
  | true =>
    have hneg : a.toInt < 0 := by
      rw [BitVec.toInt_eq_msb_cond, hm]
      have := a.isLt
      simp
      omega
    constructor
    · intro h
      -- the sign bit tells the two apart
      have hmsb := congrArg BitVec.msb h
      rw [BitVec.msb_sshiftRight, BitVec.msb_ushiftRight, hm] at hmsb
      simp at hmsb
      exact .inr hmsb
    · intro h
      have hk0 : k = 0 := by omega
      subst hk0
      simp

/-! ## Reals -/

theorem cast_itfloat {itfloat : VarType} (hf : IsItfloat itfloat) (u : Val) :
    Val.cast itfloat u = some (.real u.toReal) := by
  rcases hf with rfl | rfl | rfl <;> rfl

/-- A sum, difference, product or quotient with a real operand is done on reals. -/
theorem isVal_arith {reading : Reading} {op : BinOp} {n1 n2 : Node}
    (hd : (n1.isDouble || n2.isDouble) = true)
    (hop : op = .kAdd ∨ op = .kSub ∨ op = .kMul ∨ op = .kDiv) {u : Val}
    (hu : reading.binop op (.real n1.toDouble) (.real n2.toDouble) = some u) :
    (op.compute wrap32 n1 n2).IsVal (.real u.toReal) := by
  have hsome : ∀ {x : ℚ}, some (Val.real x) = some u → u.toReal = x := by
    intro x hx
    rw [← Option.some.inj hx]
    rfl
  rcases hop with rfl | rfl | rfl | rfl
  · have hx : u.toReal = n1.toDouble + n2.toDouble := by cases reading <;> exact hsome hu
    simp [BinOp.compute, Node.addNode, Node.arith, hd, hx, Node.IsVal]
  · have hx : u.toReal = n1.toDouble - n2.toDouble := by cases reading <;> exact hsome hu
    simp [BinOp.compute, Node.subNode, Node.arith, hd, hx, Node.IsVal]
  · have hx : u.toReal = n1.toDouble * n2.toDouble := by cases reading <;> exact hsome hu
    simp [BinOp.compute, Node.mulNode, Node.arith, hd, hx, Node.IsVal]
  · have hx : u.toReal = n1.toDouble / n2.toDouble := by
      by_cases h0 : n2.toDouble = 0
      · cases reading <;> simp [Reading.binop, Val.binop, Val.realOp, generateBinopAux,
          isBoolOpcode, BinOp.fLlvmFloatInst, LlvmInst.createFloat, h0, Val.toReal] at hu
      · cases reading <;> simp [Reading.binop, Val.binop, Val.realOp, generateBinopAux,
          isBoolOpcode, BinOp.fLlvmFloatInst, LlvmInst.createFloat, h0, Val.toReal] at hu <;>
        · rw [← hu]
          rfl
    simp [BinOp.compute, Node.divExtendedNode, hd, hx, Node.IsVal]

/-- A comparison with a real operand is done on reals, and gives an integer. -/
theorem isVal_compare {reading : Reading} {op : BinOp} {n1 n2 : Node}
    (hd : (n1.isDouble || n2.isDouble) = true) (hop : isBoolOpcode op = true) {u v : Val}
    (hu : reading.binop op (.real n1.toDouble) (.real n2.toDouble) = some u)
    (hv : Val.cast .kInt u = some v) : (op.compute wrap32 n1 n2).IsVal v := by
  -- LLVM gives 0 or 1 as a real, which is converted
  have hfold : ∀ c : Bool, op.compute wrap32 n1 n2 = .int c.toNat →
      some (if reading = .c then Val.ofBool c else .real (if c then 1 else 0)) = some u →
      (op.compute wrap32 n1 n2).IsVal v := by
    intro c hc hcu
    have hval : v = .int (if c then 1 else 0) := by
      rw [← Option.some.inj hcu] at hv
      cases reading <;> cases c <;> exact (Option.some.inj hv).symm
    rw [hc, hval]
    exact (ofBool_eq c).2
  cases op with
  | kGT =>
    apply hfold (decide (n2.toDouble < n1.toDouble))
    · simp [BinOp.compute, Node.gtNode, Node.compare, hd]
    · cases reading <;> exact hu
  | kLT =>
    apply hfold (decide (n1.toDouble < n2.toDouble))
    · simp [BinOp.compute, Node.ltNode, Node.compare, hd]
    · cases reading <;> exact hu
  | kGE =>
    apply hfold (decide (n2.toDouble ≤ n1.toDouble))
    · simp [BinOp.compute, Node.geNode, Node.compare, hd]
    · cases reading <;> exact hu
  | kLE =>
    apply hfold (decide (n1.toDouble ≤ n2.toDouble))
    · simp [BinOp.compute, Node.leNode, Node.compare, hd]
    · cases reading <;> exact hu
  | kEQ =>
    apply hfold (decide (n1.toDouble = n2.toDouble))
    · simp [BinOp.compute, Node.eqNode, Node.compare, hd, beq_eq_decide]
    · cases reading <;> exact hu
  | kNE =>
    apply hfold (decide (n1.toDouble ≠ n2.toDouble))
    · simp [BinOp.compute, Node.neNode, Node.compare, hd, bne, beq_eq_decide]
    · cases reading <;> exact hu
  | _ => simp [isBoolOpcode] at hop

/-- The operations on bits and the remainder are folded to an integer. -/
theorem not_isVal_bits {op : BinOp}
    (hop : op = .kRem ∨ op = .kLsh ∨ op = .kRsh ∨ isLogicalOpcode op = true) (n1 n2 : Node)
    (x : ℚ) : ¬ (op.compute wrap32 n1 n2).IsVal (.real x) := by
  cases op <;> first
    | exact fun h => h
    | simp [isLogicalOpcode] at hop

/-! ## When the two agree -/

/-- The shift that LLVM does keeps the sign only of a number that has none to keep. -/
theorem isVal_lshr_iff {i j : ℤ} (hi : IsInt32 i) (hj : IsInt32 j) {u : Val}
    (hu : generateBinopAux .kRsh (.int (.ofInt 32 i)) (.int (.ofInt 32 j)) = some u) :
    (BinOp.compute wrap32 .kRsh (.int i) (.int j)).IsVal u ↔ 0 ≤ i ∨ j = 0 := by
  have hi' := Interval.toInt_ofInt_of_isInt32 hi
  have hj' := Interval.toInt_ofInt_of_isInt32 hj
  obtain ⟨hk, rfl⟩ := lshr_eq_some hu
  have hfold : BinOp.compute wrap32 .kRsh (.int i) (.int j) =
      .int ((BitVec.ofInt 32 i).sshiftRight (BitVec.ofInt 32 j).toNat).toInt := rfl
  have hzero : (BitVec.ofInt 32 j).toNat = 0 ↔ j = 0 := by
    constructor
    · intro h
      rw [← hj', BitVec.eq_of_toNat_eq (y := 0) h]
      rfl
    · intro h
      rw [h]
      rfl
  rw [hfold]
  show BitVec.toInt _ = BitVec.toInt _ ↔ _
  rw [BitVec.toInt_inj, ushiftRight_eq_iff _ hk, hi', hzero]

/-- Two integers. -/
theorem isVal_compute_int_iff {reading : Reading} {itfloat : VarType} (hf : IsItfloat itfloat)
    {op : BinOp} {i j : ℤ} (hi : IsInt32 i) (hj : IsInt32 j) {u v : Val}
    (hu : reading.binop op (.int (.ofInt 32 i)) (.int (.ofInt 32 j)) = some u)
    (hv : Val.cast (genBasicFIRTyped itfloat (resultNature op .kInt .kInt)) u = some v) :
    (op.compute wrap32 (.int i) (.int j)).IsVal v ↔
      FoldsAsComputed reading op (.int i) (.int j) := by
  by_cases hdiv : op = .kDiv
  · subst hdiv
    have hc : Val.intOp .kDiv (.ofInt 32 i) (.ofInt 32 j) = some u := by
      cases reading with
      | c => exact hu
      | llvm => exact (generateBinopAux_int (by decide) _ _).symm.trans hu
    have hval : v = .real u.toReal := Option.some.inj (hv.symm.trans (cast_itfloat hf u))
    rw [hval]
    constructor
    · intro h
      exact absurd h (not_isVal_intDiv hi hj hc)
    · intro h
      simp [FoldsAsComputed, Node.isDouble] at h
  · -- an operation that is not a quotient gives an integer
    have hnature : genBasicFIRTyped itfloat (resultNature op .kInt .kInt) = .kInt := by
      cases op <;> first | rfl | exact absurd rfl hdiv
    rw [hnature] at hv
    by_cases hshift : reading = .llvm ∧ op = .kRsh
    · obtain ⟨rfl, rfl⟩ := hshift
      have huv : v = u := by
        obtain ⟨-, rfl⟩ := lshr_eq_some hu
        exact (Option.some.inj hv).symm
      rw [huv, isVal_lshr_iff hi hj hu]
      simp [FoldsAsComputed, Node.isDouble]
    · have hc : Val.intOp op (.ofInt 32 i) (.ofInt 32 j) = some u := by
        cases reading with
        | c => exact hu
        | llvm => exact (generateBinopAux_int (fun h => hshift ⟨rfl, h⟩) _ _).symm.trans hu
      obtain ⟨b, rfl, hfold⟩ := compute_intOp hdiv hi hj hc
      rw [hfold, ← Option.some.inj hv]
      refine ⟨fun _ => ?_, fun _ => rfl⟩
      cases op with
      | kDiv => exact absurd rfl hdiv
      | kRsh =>
        refine ⟨rfl, rfl, fun hr => ?_⟩
        exact absurd ⟨hr, rfl⟩ hshift
      | kRem | kLsh | kAND | kOR | kXOR => exact ⟨rfl, rfl⟩
      | _ => trivial

/-- An operand is real. -/
theorem isVal_compute_real_iff {reading : Reading} {itfloat : VarType} (hf : IsItfloat itfloat)
    {op : BinOp} {n1 n2 : Node} (hd : (n1.isDouble || n2.isDouble) = true) {u v : Val}
    (hu : reading.binop op (operands op n1 n2).1 (operands op n1 n2).2 = some u)
    (hv : Val.cast (genBasicFIRTyped itfloat (resultNature op n1.inferLiteralType.nature
      n2.inferLiteralType.nature)) u = some v) :
    (op.compute wrap32 n1 n2).IsVal v ↔ FoldsAsComputed reading op n1 n2 := by
  have hjoin : n1.inferLiteralType.nature.join n2.inferLiteralType.nature = .kReal := by
    cases h1 : n1.isDouble <;> cases h2 : n2.isDouble <;>
      simp_all [Node.inferLiteralType, Nature.join]
  have hnot : ¬ (n1.isDouble = false ∧ n2.isDouble = false) := by
    intro h
    simp [h.1, h.2] at hd
  have hreal : ∀ w, Val.cast (genBasicFIRTyped itfloat .kReal) w = some v → v = .real w.toReal :=
    fun w h => Option.some.inj (h.symm.trans (cast_itfloat hf w))
  cases op with
  | kAdd | kSub | kMul | kDiv =>
    simp only [operands, isLogicalOpcode, hd, Bool.false_eq_true, if_false, if_true] at hu
    simp only [resultNature, hjoin] at hv
    rw [hreal u hv]
    have hor : n1.isDouble = true ∨ n2.isDouble = true := by simpa using hd
    refine ⟨fun _ => ?_, fun _ => isVal_arith hd (by simp) hu⟩
    trivial
  | kGT | kLT | kGE | kLE | kEQ | kNE =>
    simp only [operands, isLogicalOpcode, hd, Bool.false_eq_true, if_false, if_true] at hu
    exact ⟨fun _ => trivial, fun _ => isVal_compare hd rfl hu hv⟩
  | kRem | kLsh | kAND | kOR | kXOR =>
    simp only [resultNature, hjoin] at hv
    rw [hreal u hv]
    constructor
    · intro h
      exact absurd h (not_isVal_bits (by simp [isLogicalOpcode]) n1 n2 _)
    · intro h
      exact absurd h hnot
  | kRsh =>
    simp only [resultNature, hjoin] at hv
    rw [hreal u hv]
    constructor
    · intro h
      exact absurd h (not_isVal_bits (by simp) n1 n2 _)
    · intro h
      exact absurd ⟨h.1, h.2.1⟩ hnot

/-- Two literals are folded to the value, of the same nature, that the code computes on them:
this is so exactly on the operations of `FoldsAsComputed`. -/
theorem isVal_compute_iff (reading : Reading) (itfloat : VarType) (hf : IsItfloat itfloat)
    (op : BinOp) (n1 n2 : Node) (h1 : n1.IsLiteral) (h2 : n2.IsLiteral) (v : Val)
    (hv : generatedVal reading itfloat op n1 n2 = some v) :
    (op.compute wrap32 n1 n2).IsVal v ↔ FoldsAsComputed reading op n1 n2 := by
  obtain ⟨u, hu, hcast⟩ := generatedVal_eq hf h1 h2 hv
  cases hd : n1.isDouble || n2.isDouble with
  | true => exact isVal_compute_real_iff hf hd hu hcast
  | false =>
    cases n1 with
    | int i =>
      cases n2 with
      | int j =>
        have hops : operands op (.int i) (.int j) = (.int (.ofInt 32 i), .int (.ofInt 32 j)) := by
          unfold operands
          split <;> rfl
        rw [hops] at hu
        exact isVal_compute_int_iff hf h1 h2 hu hcast
      | double y => simp [Node.isDouble] at hd
      | _ => exact h2.elim
    | double x => simp [Node.isDouble] at hd
    | _ => exact h1.elim

/-- On two `int`s the code computes `BinOp.value`, the value that the inferred interval is to
hold. -/
theorem isVal_value {itfloat : VarType} (hf : IsItfloat itfloat) (op : BinOp) {i j : ℤ}
    (hi : IsInt32 i) (hj : IsInt32 j) {v : Val}
    (hv : generatedVal .c itfloat op (.int i) (.int j) = some v) :
    (op.value (.int i) (.int j)).IsVal v := by
  by_cases hdiv : op = .kDiv
  · subst hdiv
    have hlit : (Node.int i).IsLiteral ∧ (Node.int j).IsLiteral := ⟨hi, hj⟩
    obtain ⟨u, hu, hcast⟩ := generatedVal_eq hf hlit.1 hlit.2 hv
    rw [← Option.some.inj (hcast.symm.trans (cast_itfloat hf u)).symm]
    exact toReal_intDiv hi hj hu
  · rw [BinOp.value_eq hdiv, isVal_compute_iff .c itfloat hf op (.int i) (.int j) hi hj v hv]
    cases op with
    | kDiv => exact absurd rfl hdiv
    | kRsh => exact ⟨rfl, rfl, nofun⟩
    | kRem | kLsh | kAND | kOR | kXOR => exact ⟨rfl, rfl⟩
    | _ => trivial

/-- `5.0 > 2` is folded to what is computed. -/
theorem isVal_compute_gt : (BinOp.compute wrap32 .kGT (.double 5) (.int 2)).IsVal (.int 1) :=
  (isVal_compute_iff .llvm .kDouble (.inr (.inl rfl)) .kGT (.double 5) (.int 2) trivial
    (by decide) (.int 1) (by decide)).2 trivial

/-- `7 / 2` is folded to 3.5, and the code computes 3. -/
theorem not_isVal_compute_div :
    ¬ ∀ (reading : Reading) (itfloat : VarType), IsItfloat itfloat →
      ∀ (op : BinOp) (n1 n2 : Node), n1.IsLiteral → n2.IsLiteral →
        ∀ v, generatedVal reading itfloat op n1 n2 = some v →
          (op.compute wrap32 n1 n2).IsVal v := by
  intro h
  have hdiv := h .c .kFloat (.inl rfl) .kDiv (.int 7) (.int 2) (by decide) (by decide) (.real 3)
    (by decide)
  exact not_isVal_intDiv (i := 7) (j := 2) (by decide) (by decide) (u := .int 3) rfl hdiv

end Faust.Fir
