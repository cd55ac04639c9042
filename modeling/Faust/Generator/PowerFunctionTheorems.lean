import Faust.Generator.LiteralCode
import Faust.Generator.SignalContainers
import Faust.Normalize.Privatise
import Faust.Normalize.SimplifyTheorems

/-!
# Which powers are compiled to powers

A signal that `simplify` returns holds no power of a literal exponent below two. The function that
is made for an exponent multiplies its argument as many times as the exponent tells, so it raises
its argument to the exponent unless this one is negative. The code of an exponent that is no literal
can be a negative literal: the code of an attachment that is not shared is the one of its first
operand.
-/

namespace Faust

open Faust.Tree

namespace Power

open Faust.Fir Faust.Fir.InstBuilder Faust.Simplify Outcome

/-! ## The body of an inline function -/

section
variable {ext : ExternFun} {m : Memory}

theorem eval_value {v : Val} (hm : m "value" = .scalar (some v)) :
    (genLoadFunArgsVar "value").eval ext m = some v := by
  simp [genLoadFunArgsVar, ValueInst.eval, hm]

/-- The loop multiplies an integer. -/
theorem eval_powerLoop_int {a : BitVec 32} (hm : m "value" = .scalar (some (.int a)))
    {res : ValueInst} {i : ℤ} (hres : res.eval ext m = some (.int (.ofInt 32 i))) (turns : ℕ) :
    (powerLoop res turns).eval ext m = some (.int (.ofInt 32 (a.toInt ^ turns * i))) := by
  induction turns generalizing res i with
  | zero =>
    rw [pow_zero, one_mul]
    exact hres
  | succ turns ih =>
    have hmul : (genMul res (genLoadFunArgsVar "value")).eval ext m =
        some (.int (.ofInt 32 (a.toInt * i))) := by
      rw [mul_comm, BitVec.ofInt_mul, BitVec.ofInt_toInt]
      simp [genMul, ValueInst.eval, hres, eval_value hm, Val.binop, Val.intOp]
    rw [powerLoop, ih hmul, pow_succ, mul_assoc]

/-- The loop multiplies a real. -/
theorem eval_powerLoop_real {x y : ℚ} (hm : m "value" = .scalar (some (.real x)))
    {res : ValueInst} (hres : res.eval ext m = some (.real y)) (turns : ℕ) :
    (powerLoop res turns).eval ext m = some (.real (x ^ turns * y)) := by
  induction turns generalizing res y with
  | zero =>
    rw [pow_zero, one_mul]
    exact hres
  | succ turns ih =>
    have hmul : (genMul res (genLoadFunArgsVar "value")).eval ext m = some (.real (x * y)) := by
      rw [mul_comm]
      simp [genMul, ValueInst.eval, hres, eval_value hm, Val.binop, Val.realOp, Val.toReal]
    rw [powerLoop, ih hmul, pow_succ, mul_assoc]

theorem eval_powerBody_int {a : BitVec 32} (hm : m "value" = .scalar (some (.int a))) {n : ℤ}
    (hn : 0 ≤ n) :
    (powerBody n).eval ext m = some (.int (.ofInt 32 (a.toInt ^ n.toNat))) := by
  by_cases h : n = 0
  · subst h
    rw [Int.toNat_zero, pow_zero]
    rfl
  · have hres : (genLoadFunArgsVar "value").eval ext m = some (.int (.ofInt 32 a.toInt)) := by
      rw [BitVec.ofInt_toInt]
      exact eval_value hm
    have hturns : n.toNat = (n - 1).toNat + 1 := by omega
    rw [powerBody, if_neg h, eval_powerLoop_int hm hres, hturns, pow_succ]

theorem eval_powerBody_real {x : ℚ} (hm : m "value" = .scalar (some (.real x))) {n : ℤ}
    (hn : 0 < n) : (powerBody n).eval ext m = some (.real (x ^ n)) := by
  have hturns : n = ((n - 1).toNat + 1 : ℕ) := by omega
  have hpow : x ^ n = x ^ (n - 1).toNat * x := by
    calc x ^ n = x ^ (((n - 1).toNat + 1 : ℕ) : ℤ) := by rw [← hturns]
      _ = x ^ ((n - 1).toNat + 1) := zpow_natCast x _
      _ = x ^ (n - 1).toNat * x := pow_succ x _
  rw [powerBody, if_neg hn.ne', eval_powerLoop_real hm (eval_value hm), hpow]

/-- A negative exponent leaves no turn to the loop. -/
theorem powerBody_of_neg {n : ℤ} (hn : n < 0) : powerBody n = genLoadFunArgsVar "value" := by
  have hturns : (n - 1).toNat = 0 := by omega
  rw [powerBody, if_neg hn.ne, hturns]
  rfl

/-! ## Inline functions -/

/-- The types of reals. -/
def IsFloat (t : VarType) : Prop := t = .kFloat ∨ t = .kDouble ∨ t = .kQuad

theorem isFloat_itfloat {gFloatSize : ℕ} {t : VarType} (h : itfloat gFloatSize = some t) :
    IsFloat t := by
  unfold itfloat at h
  split at h
  · exact Or.inl (Option.some.inj h).symm
  · exact Or.inr (Or.inl (Option.some.inj h).symm)
  · exact Or.inr (Or.inr (Option.some.inj h).symm)
  · cases h

theorem IsFloat.cast {t : VarType} (h : IsFloat t) (v : Val) :
    Val.cast t v = some (.real v.toReal) := by
  obtain rfl | rfl | rfl := h
  · rfl
  · rfl
  · rfl

theorem IsFloat.hasType {t : VarType} (h : IsFloat t) (v : Val) :
    HasType t v ↔ ∃ x, v = .real x := by
  cases v with
  | int a => obtain rfl | rfl | rfl := h <;> simp [HasType]
  | real x => obtain rfl | rfl | rfl := h <;> simp [HasType]

theorem callFunction_faustPower (n : ℤ) (t : VarType) (arg : ValueInst) (v : Val) :
    callFunction ext (pushFaustPower n t t arg).1 v = (Val.cast t v).bind fun value =>
      ((powerBody n).eval ext fun name =>
        if name = "value" then .scalar (some value) else .undeclared).bind (Val.cast t) := rfl

/-- A power of two of a negative exponent is not two. -/
theorem two_ne_zpow {n : ℤ} (hn : n < 0) : (2 : ℚ) ≠ 2 ^ n := by
  have hlt : (2 : ℚ) ^ n < 1 := zpow_lt_one_of_neg₀ (by norm_num) hn
  intro h
  rw [← h] at hlt
  norm_num at hlt

theorem raises_int_iff (ext : ExternFun) (n : ℤ) (arg : ValueInst) :
    Raises ext (pushFaustPower n .kInt .kInt arg).1 n ↔ 0 ≤ n := by
  constructor
  · intro h
    by_contra hneg
    rw [not_le] at hneg
    obtain ⟨w, hcall, hpower⟩ := h "value" .kInt rfl (.int 2) trivial (Or.inr rfl)
    rw [callFunction_faustPower, powerBody_of_neg hneg] at hcall
    cases hcall
    rw [IsPower, if_neg hneg.not_ge] at hpower
    exact two_ne_zpow hneg (by simpa using hpower)
  · intro hn param type htype v hv _
    cases htype
    cases v with
    | real x => exact hv.elim
    | int a =>
      refine ⟨.int (.ofInt 32 (a.toInt ^ n.toNat)), ?_, ?_⟩
      · rw [callFunction_faustPower]
        show ((powerBody n).eval ext _).bind (Val.cast .kInt) = _
        rw [eval_powerBody_int (a := a) (by simp) hn]
        rfl
      · rw [IsPower, if_pos hn]

theorem raises_float_iff (ext : ExternFun) (n : ℤ) {t : VarType} (ht : IsFloat t)
    (arg : ValueInst) : Raises ext (pushFaustPower n t t arg).1 n ↔ 0 ≤ n := by
  constructor
  · intro h
    by_contra hneg
    rw [not_le] at hneg
    obtain ⟨w, hcall, hpower⟩ := h "value" t rfl (.real 2) ((ht.hasType _).2 ⟨2, rfl⟩)
      (Or.inr rfl)
    rw [callFunction_faustPower, powerBody_of_neg hneg, ht.cast] at hcall
    have hbody : (genLoadFunArgsVar "value").eval ext (fun name =>
        if name = "value" then .scalar (some (.real 2)) else .undeclared) = some (.real 2) := rfl
    rw [Option.bind_some] at hcall
    rw [show Val.toReal (.real 2) = 2 from rfl, hbody, Option.bind_some, ht.cast] at hcall
    cases hcall
    exact two_ne_zpow hneg hpower
  · intro hn param type htype v hv _
    cases htype
    obtain ⟨x, rfl⟩ := (ht.hasType v).1 hv
    refine ⟨.real (x ^ n), ?_, rfl⟩
    rw [callFunction_faustPower, ht.cast, Option.bind_some]
    show ((powerBody n).eval ext _).bind (Val.cast t) = _
    by_cases h : n = 0
    · subst h
      show Val.cast t (.int 1) = _
      rw [ht.cast, zpow_zero]
      rfl
    · rw [eval_powerBody_real (x := x) (by simp [Val.toReal]) (by omega), Option.bind_some,
        ht.cast]
      rfl

end

/-! ## Simplified signals -/

section
variable {libm : Libm} {before : Tree → Tree → Bool} {s s' : Properties} {t r : Tree}

/-- The properties that the compiler can have: definitions of recursive symbols are added, and
signals are simplified. -/
inductive Session (libm : Libm) (before : Tree → Tree → Bool) : Properties → Prop
  | start {recDef : Tree → Option Tree} (h : ∀ t body, recDef t = some body → WellBuilt body) :
      Session libm before ⟨recDef, fun _ => none⟩
  | define {s : Properties} {t body : Tree} (hs : Session libm before s)
      (hnew : s.simplified t = none) (hbody : WellBuilt body) :
      Session libm before { s with recDef := Function.update s.recDef t (some body) }
  | simplify {s s' : Properties} {fuel : ℕ} {t r : Tree} (hs : Session libm before s)
      (ht : WellBuilt t) (hrun : sigMap libm before fuel t s = .ok (r, s')) :
      Session libm before s'

/-- How a simplification ends, when it has a result. -/
theorem powers_of_sigMap {fuel : ℕ} (hs : Inv [] s) (ht : WellBuilt t)
    (hrun : sigMap libm before fuel t s = .ok (r, s')) :
    Inv [] s' ∧ Powers (Visited s') r := by
  have hvisits : Visits (sigMap libm before fuel t) [] s t := (visits fuel).1 [] s t hs ht
  unfold Visits Ends at hvisits
  rw [hrun] at hvisits
  exact ⟨hvisits.1, hvisits.2.2.1⟩

theorem Session.inv (hs : Session libm before s) : Inv [] s := by
  induction hs with
  | start h =>
    exact ⟨fun _ _ hp => absurd hp (by simp), fun _ _ hvis => absurd rfl hvis, h⟩
  | @define s t body _ hnew hbody ih =>
    refine ⟨ih.result, fun u hu hvis hpend => ?_, fun u b hb => ?_⟩
    · have hne : u ≠ t := by
        intro h
        exact hvis (h ▸ hnew)
      obtain ⟨b, hb, hpowers⟩ := ih.definition u hu hvis hpend
      refine ⟨b, ?_, hpowers⟩
      show Function.update s.recDef t (some body) u = some b
      rw [Function.update_of_ne hne]
      exact hb
    · have hb' : Function.update s.recDef t (some body) u = some b := hb
      by_cases h : u = t
      · rw [h, Function.update_self] at hb'
        cases hb'
        exact hbody
      · rw [Function.update_of_ne h] at hb'
        exact ih.built u b hb'
  | simplify _ ht hrun ih => exact (powers_of_sigMap ih ht hrun).1

/-- What is reached from a simplified signal has right powers. -/
theorem powers_of_inGraph (hs : Inv [] s) (hr : Powers (Visited s) r) {u : Tree}
    (hu : InGraph s.recDef r u) : Powers (Visited s) u := by
  induction hu with
  | root => exact hr
  | branch _ hn ht ih => exact (Built.branches ih hn).1 _ ht
  | @definition var d _ hd ih =>
    have hvis : Visited s (.node (.sym .symRec) [var]) := by
      cases ih with
      | symbol _ h => exact h
      | node _ _ hn => exact absurd rfl hn
    obtain ⟨body, hbody, hpowers⟩ := hs.definition _ rfl hvis List.not_mem_nil
    rw [hd] at hbody
    cases hbody
    exact hpowers

theorem powerOk_of_powers {V : Tree → Prop} (h : Powers V t) : PowerOk t := by
  cases h with
  | symbol var _ => exact powerOk_of_ne (by simp)
  | node _ _ _ hok => exact hok

/-- A simplified signal has no power of a literal exponent below two. -/
theorem powerOk_of_sigMap {fuel : ℕ} (hs : Session libm before s) (ht : WellBuilt t)
    (hrun : sigMap libm before fuel t s = .ok (r, s')) {u : Tree}
    (hu : InGraph s'.recDef r u) : PowerOk u := by
  obtain ⟨hinv, hpowers⟩ := powers_of_sigMap hs.inv ht hrun
  exact powerOk_of_powers (powers_of_inGraph hinv hpowers hu)

/-! ## Powers are compiled to powers -/

section
open Faust.Codegen

variable (recDef : Tree → Option Tree) (o : Options) (g : Occ.Graph) (c : Container)

/-- The powers of a simplified signal have a literal exponent greater than one, or none. Each
inline function that is emitted for a power that a container compiles, with the code of its operands,
computes the power of its exponent. -/
structure CompiledToPowers (r : Tree) (gFloatSize : ℕ) (ext : ExternFun) (σ : Compiler) :
    Prop where
  literals : ∀ u, InGraph recDef r u → PowerOk u
  functions : ∀ x y v w n, CompiledIn o g c (powOf x y) → σ.fCompileProperty x = some v →
    σ.fCompileProperty y = some w → inlinedExponent (signalType g y) w = some n →
      Raises ext (generatePower gFloatSize o.itfloat (signalType g x) (signalType g y) v w).1 n

/-- The exponent that is inlined for a signal: its type is the one of a constant integer known when
the program is compiled, and its code is a literal. -/
def literalExponent (ctx : Context) (y : Tree) : Option ℤ :=
  (literalCode ctx y).bind (inlinedExponent (signalType ctx.graph y))

/-- No exponent that is inlined is negative. -/
def ExponentsNonneg : Prop :=
  ∀ marks sharing, Annotates g c marks sharing → ∀ x y n,
    Compiled (c.annotated o g marks sharing) (c.signals o.gInPlace) (powOf x y) →
      literalExponent (c.annotated o g marks sharing) y = some n → 0 ≤ n

/-- The exponents of the powers that are compiled lead to no projection that is not delayed. -/
def ProjectionsDelayed : Prop :=
  ∀ x y, CompiledIn o g c (powOf x y) → isBareProjection y = false

end

theorem raises_generatePower_iff (ext : ExternFun) {gFloatSize : ℕ} {ctype : VarType}
    (hctype : IsFloat ctype) {t1 t2 : SimpleType} {v w : ValueInst} {n : ℤ}
    (h : inlinedExponent t2 w = some n) :
    Raises ext (generatePower gFloatSize ctype t1 t2 v w).1 n ↔ 0 ≤ n := by
  have hnature : t2.nature = .kInt := by
    unfold inlinedExponent at h
    split at h
    · split at h
      · next hcond => exact hcond.1
      · cases h
    · cases h
  have hdecl : generatePower gFloatSize ctype t1 t2 v w =
      pushFaustPower n (genBasicFIRTyped ctype t1.nature) (genBasicFIRTyped ctype t1.nature) v := by
    have hjoin : infereNature t1 t2 = t1.nature := by
      rw [infereNature, hnature]
      cases t1.nature with
      | kInt => rfl
      | kReal => rfl
    rw [generatePower, generateCode, h, hjoin]
  rw [hdecl]
  cases t1.nature with
  | kInt => exact raises_int_iff ext n _
  | kReal => exact raises_float_iff ext n hctype _

/-- The exponent that is inlined is read off the signal. -/
theorem inlinedExponent_of_agrees {ctx : Codegen.Context} {y : Tree} {w : ValueInst}
    (h : Codegen.Agrees ctx y w) (hbare : Codegen.isBareProjection y = false) :
    inlinedExponent (Codegen.signalType ctx.graph y) w = literalExponent ctx y := by
  have hcode := h hbare
  unfold literalExponent
  cases hlit : Codegen.literalCode ctx y with
  | some l =>
    rw [hlit] at hcode
    have hw : w = l := hcode
    rw [hw]
    rfl
  | none =>
    rw [hlit] at hcode
    have hw : Codegen.isLiteral w = false := hcode
    unfold inlinedExponent
    split
    · cases hw
    · rfl

section
open Faust.Codegen

variable {o : Options} {g : Occ.Graph} {c : Container} {marks : Occ.Marks} {sharing : Occ.Sharing}

/-- The operands of a power that is compiled have code when the compilation ends. -/
theorem coded_operands {ctx : Context} {signals : List Tree} {σ : Compiler}
    (hI : Codegen.Inv ctx signals σ) (hE : Extends ctx .start σ)
    (hs : ∀ t ∈ signals, σ.Coded t) {x y : Tree} (hpow : Compiled ctx signals (powOf x y)) :
    σ.Coded (powOf x y) ∧ σ.Coded x ∧ σ.Coded y := by
  have hcoded : σ.Coded (powOf x y) := by
    rcases coded_of_compiled hI hE hs hpow with h | ⟨r, d, _, heq, _⟩
    · exact h
    · cases heq
  have hnew : ¬ Compiler.start.Coded (powOf x y) := by simp [Compiler.Coded, Compiler.start]
  have hcall : dispatch (powOf x y) = some (.generateCached [x, y]) := rfl
  have hops : ∀ u ∈ [x, y], σ.Coded u := fun u hu => hE.operands _ _ u hcoded hnew hcall hu
  exact ⟨hcoded, hops x (by simp), hops y (by simp)⟩

/-- In every container of a program that is compiled, the powers are compiled to powers if and only
if no exponent that is inlined is negative. -/
theorem compiledToPowers_iff {fuel₀ : ℕ} (hs : Session libm before s) (ht : WellBuilt t)
    (hrun : sigMap libm before fuel₀ t s = .ok (r, s')) {e : Expressions} {ctype : VarType}
    (hctype : itfloat e.gFloatSize = some ctype) {gMaxCopyDelay : ℤ} {gVecSize : ℕ}
    {gInPlace : Bool} (ho : o = e.options ctype g gMaxCopyDelay gVecSize gInPlace)
    {rank : Container → ℕ} (h : AcceptedProgram o g c rank)
    (hnames : ∀ c', Contains o g c c' → NamesVectors o g c')
    (hdelayed : ∀ c', Contains o g c c' → ProjectionsDelayed o g c') (ext : ExternFun) :
    ∀ c', Contains o g c c' → ∃ n, ∀ depth ≥ n, ∀ fuel ≥ n, ∃ σ,
      compileSignals o g fuel depth c' = .ok σ ∧
        (CompiledToPowers s'.recDef o g c' r e.gFloatSize ext σ ↔ ExponentsNonneg o g c') := by
  intro c' hc'
  have hfloat := isFloat_itfloat hctype
  have hacc := h.accepted c' hc'
  obtain ⟨marks, sharing, ha⟩ := hacc.annotated
  have hcontents : ∀ t s, CompiledIn o g c' t → dispatch t = some (.generateSigGen s) →
      NamesVectors o g (createScalarContainer s) := fun t s ht hs => hnames _ (.content hc' ht hs)
  obtain ⟨hin, hallowed⟩ := (hacc.namesVectors_iff hcontents).1 (hnames c' hc')
  obtain ⟨n, hn⟩ := hacc.exists_run ha hin hcontents
  refine ⟨n, fun depth hdepth fuel hfuel => ?_⟩
  obtain ⟨sub, hcompile, _, hends⟩ := hn depth hdepth fuel hfuel
  rcases hends.cases with ⟨a, σ, heq, hI, hE, hs⟩ | ⟨_, _, t, ht, hbad⟩
  swap
  · exact absurd ((ha.delaysAllowed_iff.1 hallowed) t ht.of_context) hbad
  refine ⟨σ, by rw [hcompile, heq]; rfl, ?_⟩
  have hbuild : (c'.context o g marks sharing sub).build =
      e.build (c'.context o g marks sharing sub).itfloat
        (c'.context o g marks sharing sub).graph := by
    subst ho
    rfl
  have htype : o.itfloat = ctype := by
    subst ho
    rfl
  have hcoherent := (coherent_signals hbuild fuel (c'.signals o.gInPlace)).of_ok heq
  -- the exponent of a power that is compiled, by its code and by the signal
  have hexponent : ∀ x y w, CompiledIn o g c' (powOf x y) → σ.fCompileProperty y = some w →
      inlinedExponent (signalType g y) w =
        literalExponent (c'.annotated o g marks sharing) y := by
    intro x y w hpow hw
    rw [literalExponent, Container.annotated, literalCode_of_context _ sub]
    exact inlinedExponent_of_agrees (hcoherent.code y w hw) (hdelayed c' hc' x y hpow)
  constructor
  · intro hpowers marks' sharing' ha' x y n hpow hlit
    obtain ⟨rfl, rfl⟩ := ha.annotates.unique ha'
    have hpow' : Compiled (c'.context o g marks sharing sub) (c'.signals o.gInPlace)
        (powOf x y) := hpow.of_context
    obtain ⟨_, hx, hy⟩ := coded_operands hI hE hs hpow'
    obtain ⟨v, hv⟩ := Option.isSome_iff_exists.1 hx
    obtain ⟨w, hw⟩ := Option.isSome_iff_exists.1 hy
    have hin : CompiledIn o g c' (powOf x y) := ⟨marks, sharing, ha.annotates, hpow⟩
    have hinl := (hexponent x y w hin hw).trans hlit
    exact (raises_generatePower_iff ext (htype ▸ hfloat) hinl).1
      (hpowers.functions x y v w n hin hv hw hinl)
  · intro hnonneg
    refine ⟨fun u hu => powerOk_of_sigMap ‹_› ‹_› hrun hu, fun x y v w n hin hv hw hinl => ?_⟩
    obtain ⟨marks', sharing', ha', hpow⟩ := hin
    obtain ⟨rfl, rfl⟩ := ha.annotates.unique ha'
    refine (raises_generatePower_iff ext (htype ▸ hfloat) hinl).2 ?_
    exact hnonneg marks sharing ha' x y n hpow
      ((hexponent x y w ⟨marks, sharing, ha', hpow⟩ hw).symm.trans hinl)

end

end

/-! ## A literal that is attached -/

section Attached

/-- The functions of the math library are not called. -/
def noLibm : Libm := ⟨fun _ x => x, fun _ x _ => x⟩

/-- The first signal is in no case before the second one. -/
def unordered (_ _ : Tree) : Bool := false

/-- The properties before any signal is simplified, without recursive symbols. -/
def noProperties : Properties := ⟨fun _ => none, fun _ => none⟩

/-- The sampling frequency. -/
def samplingFreq : Tree :=
  sigFConst (leaf (.int 0)) (leaf (.sym (.user "fSamplingFreq"))) (leaf (.sym (.user "<math.h>")))

/-- The exponent: a literal with the sampling frequency attached. -/
def attachedLiteral (i : ℤ) : Tree := sigAttach (sigInt i) samplingFreq

/-- The power of the sampling frequency by this exponent. -/
def attachedPower (i : ℤ) : Tree := powOf samplingFreq (attachedLiteral i)

theorem session_noProperties : Session noLibm unordered noProperties :=
  .start fun _ _ h => by cases h

/-- A tree without symbols of recursion. -/
theorem wellBuilt_node {n : Node} {br : List Tree} (hn : n ≠ .sym .symRec) (hnil : Tree.nil ∉ br)
    (hbr : ∀ t ∈ br, WellBuilt t) : WellBuilt (.node n br) := .node n br hn trivial (fun _ => hnil) hbr

theorem wellBuilt_leaf {i : ℤ} : WellBuilt (leaf (.int i)) :=
  wellBuilt_node (by simp) (by simp) (by simp)

theorem wellBuilt_attachedPower (i : ℤ) : WellBuilt (attachedPower i) := by
  have hname : ∀ name, WellBuilt (leaf (.sym (.user name))) := fun name =>
    wellBuilt_node (by simp) (by simp) (by simp)
  have hfreq : WellBuilt samplingFreq :=
    wellBuilt_node (by simp) (by simp [Tree.nil, leaf]) (by simp [wellBuilt_leaf, hname])
  have hattach : WellBuilt (attachedLiteral i) :=
    wellBuilt_node (by simp) (by simp [Tree.nil, sigInt, samplingFreq, sigFConst, leaf])
      (by simp [hfreq, sigInt, wellBuilt_leaf])
  exact wellBuilt_node (by simp)
    (by simp [Tree.nil, samplingFreq, sigFConst, attachedLiteral, sigAttach, leaf])
    (by simp [hfreq, hattach])

/-- A run whose result is known. -/
theorem exists_of_result (fuel : ℕ) (t r : Tree) (h : (sigMap noLibm unordered fuel t
    noProperties).toOption.map Prod.fst = some r) :
    ∃ s', sigMap noLibm unordered fuel t noProperties = .ok (r, s') := by
  cases hrun : sigMap noLibm unordered fuel t noProperties with
  | error e =>
    rw [hrun] at h
    cases h
  | ok p =>
    rw [hrun] at h
    cases h
    exact ⟨p.2, rfl⟩

/-- The graph of this power: the type of an attachment is the one of its first operand. -/
def powerGraph (i : ℤ) : Occ.Graph where
  recDefs := []
  getCertifiedSigType t :=
    .simple ⟨.kInt, kKonst, if t = samplingFreq ∨ t = attachedPower i then kInit else kComp, kVect,
      kNum, if t = samplingFreq ∨ t = attachedPower i then .invalid else .point i⟩
  getRecursivness _ := 0

/-- The program of this power, by the scalar compiler. -/
def powerContainer (i : ℤ) : Codegen.Container := ⟨false, 0, ofList [attachedPower i]⟩

/-- Expressions that are calls, but for numbers, casts and powers. -/
def callExpressions : Codegen.Expressions := ⟨1, fun _ args c => (⟨.funCall "f" args, rfl⟩, c)⟩

/-- The options of the scalar compiler, for single precision. -/
def powerOptions (i : ℤ) : Codegen.Options :=
  callExpressions.options .kFloat (powerGraph i) 16 32 false

section
open Faust.Codegen

/-- The signals of the graph. -/
def powerSignals (i : ℤ) : List Tree :=
  [attachedPower i, samplingFreq, attachedLiteral i, sigInt i]

theorem mem_powerSignals {i : ℤ} {u : Tree}
    (h : Occ.Reached (powerGraph i) (powerContainer i).root u) : u ∈ powerSignals i := by
  have hpow : Occ.children (powerGraph i) (attachedPower i) = [samplingFreq, attachedLiteral i] := rfl
  have hfreq : Occ.children (powerGraph i) samplingFreq = [] := rfl
  have hattach : Occ.children (powerGraph i) (attachedLiteral i) = [sigInt i, samplingFreq] := rfl
  have hint : Occ.children (powerGraph i) (sigInt i) = [] := rfl
  induction h with
  | output h =>
    have h : _ ∈ [attachedPower i] := h
    exact List.mem_cons.2 (Or.inl (List.mem_singleton.1 h))
  | child _ h ih =>
    simp only [powerSignals, List.mem_cons, List.not_mem_nil, or_false] at ih
    rcases ih with rfl | rfl | rfl | rfl
    · rw [hpow] at h
      simp only [powerSignals, List.mem_cons, List.not_mem_nil, or_false] at h ⊢
      tauto
    · rw [hfreq] at h
      cases h
    · rw [hattach] at h
      simp only [powerSignals, List.mem_cons, List.not_mem_nil, or_false] at h ⊢
      tauto
    · rw [hint] at h
      cases h

/-- What holds of each signal of the list holds of what is reached. -/
theorem of_powerSignals {i : ℤ} {P : Tree → Prop} (hpow : P (attachedPower i))
    (hfreq : P samplingFreq) (hattach : P (attachedLiteral i)) (hint : P (sigInt i)) {u : Tree}
    (h : Occ.Reached (powerGraph i) (powerContainer i).root u) : P u := by
  have hmem := mem_powerSignals h
  simp only [powerSignals, List.mem_cons, List.not_mem_nil, or_false] at hmem
  rcases hmem with rfl | rfl | rfl | rfl
  · exact hpow
  · exact hfreq
  · exact hattach
  · exact hint

theorem accepted_power (i : ℤ) : Accepted (powerGraph i) (powerContainer i) := by
  refine ⟨⟨fun t ht => ?_, fun x y h => ?_, fun br h => ?_, fun br h => ?_⟩, fun t ht => ?_,
    fun t ht => ?_⟩
  · exact of_powerSignals (P := fun t => ((powerGraph i).getSubSignals t).isSome) rfl rfl rfl rfl ht
  · have hne := of_powerSignals (P := fun t => t.label ≠ .sym .sigFixDelay) (by simp [attachedPower,
      powOf]) (by simp [samplingFreq, sigFConst]) (by simp [attachedLiteral, sigAttach])
      (by simp [sigInt, leaf]) h
    exact absurd rfl hne
  · have hne := of_powerSignals (P := fun t => t.label ≠ .sym .sigDelay1) (by simp [attachedPower,
      powOf]) (by simp [samplingFreq, sigFConst]) (by simp [attachedLiteral, sigAttach])
      (by simp [sigInt, leaf]) h
    exact absurd rfl hne
  · have hne := of_powerSignals (P := fun t => t.label ≠ .sym .sigSelect3) (by simp [attachedPower,
      powOf]) (by simp [samplingFreq, sigFConst]) (by simp [attachedLiteral, sigAttach])
      (by simp [sigInt, leaf]) h
    exact absurd rfl hne
  · have ht : t ∈ [attachedPower i] := ht
    rw [List.mem_singleton.1 ht]
    rfl
  · exact of_powerSignals (P := fun t => wellFormed (powerGraph i) t = true) rfl rfl rfl rfl ht

theorem acceptedProgram_power (i : ℤ) :
    AcceptedProgram (powerOptions i) (powerGraph i) (powerContainer i) fun _ => 0 := by
  apply AcceptedProgram.of_no_sigGen (accepted_power i)
  · intro h
    cases h
  · intro t s ht
    have hno := of_powerSignals (P := fun t => noSigGen t = true) rfl rfl rfl rfl ht
    exact dispatch_ne_of_noSigGen hno

theorem inputsUsed_power (i : ℤ) :
    InputsUsed (powerOptions i).gInPlace (powerGraph i) (powerContainer i) := by
  intro h
  cases h

/-- The container has no table. -/
theorem eq_of_contains_power {i : ℤ} {c' : Container}
    (h : Contains (powerOptions i) (powerGraph i) (powerContainer i) c') :
    c' = powerContainer i := by
  induction h with
  | self => rfl
  | content h ht hs _ => exact absurd ((acceptedProgram_power i).nested _ _ _ h ht hs) (by simp)

/-- Nothing is delayed. -/
theorem delaysAllowed_power (i : ℤ) :
    DelaysAllowed (powerOptions i) (powerGraph i) (powerContainer i) := by
  intro marks sharing ha t _ hpos
  obtain ⟨marks', ⟨n, hn⟩, _, hmax⟩ := Occ.mark_analysed (accepted_power i).prepared
  obtain ⟨k, hk⟩ := ha.marks
  obtain rfl : marks = marks' :=
    Except.ok.inj ((hk _ (le_max_left k n)).symm.trans (hn _ (le_max_right k n)))
  have hdelay : ∀ p x, Occ.IsPosition (powerGraph i) (powerContainer i).root p x →
      Occ.delayAt (powerGraph i) p = 0 := by
    rintro ⟨_ | u, k⟩ x hp
    · rfl
    · exact of_powerSignals (P := fun u => Occ.delayAt (powerGraph i) (some u, k) = 0)
        rfl rfl rfl rfl hp.1
  have hzero : maxDelay ((powerContainer i).annotated (powerOptions i) (powerGraph i) marks
      sharing) t = 0 := by
    show ((marks t).map fun o => o.getMaxDelay.toNat).getD 0 = 0
    cases hocc : marks t with
    | none => rfl
    | some occ =>
      obtain ⟨p, hp, hd⟩ := (hmax t occ hocc).1
      show occ.getMaxDelay.toNat = 0
      rw [← hd, hdelay p t hp]
      rfl
  omega

theorem namesVectors_power (i : ℤ) :
    NamesVectors (powerOptions i) (powerGraph i) (powerContainer i) := by
  refine ((accepted_power i).namesVectors_iff fun t s ht hs => ?_).2
    ⟨inputsUsed_power i, delaysAllowed_power i⟩
  exact absurd ((acceptedProgram_power i).nested _ t s (.self _) ht hs) (by simp)

/-- The only power that is compiled. -/
theorem eq_of_compiledIn_power {i : ℤ} {x y : Tree}
    (h : CompiledIn (powerOptions i) (powerGraph i) (powerContainer i) (powOf x y)) :
    x = samplingFreq ∧ y = attachedLiteral i := by
  obtain ⟨marks, sharing, ha⟩ := (accepted_power i).annotated
  obtain ⟨marks', sharing', ha', ht⟩ := h
  obtain ⟨rfl, rfl⟩ := ha.annotates.unique ha'
  have hreached := ((accepted_power i).compiled (inputsUsed_power i) ha.marked ht).1
  have hpow := mem_powerSignals hreached
  simpa [powerSignals, attachedPower, powOf, samplingFreq, sigFConst, attachedLiteral, sigAttach,
    sigInt, leaf] using hpow

/-- The power is compiled, so its exponent is read. -/
theorem compiledIn_power (i : ℤ) :
    CompiledIn (powerOptions i) (powerGraph i) (powerContainer i) (attachedPower i) := by
  obtain ⟨marks, sharing, ha⟩ := (accepted_power i).annotated
  exact ⟨marks, sharing, ha.annotates, .signal List.mem_cons_self⟩

/-- `pow(SR, attach(3, SR))` is compiled to the power of three. -/
theorem compiledToPowers_attached : ∃ s',
    sigMap noLibm unordered 10 (attachedPower 3) noProperties = .ok (attachedPower 3, s') ∧
    ∃ n, ∀ depth ≥ n, ∀ fuel ≥ n, ∃ σ,
      compileSignals (powerOptions 3) (powerGraph 3) fuel depth (powerContainer 3) = .ok σ ∧
        CompiledToPowers s'.recDef (powerOptions 3) (powerGraph 3) (powerContainer 3)
          (attachedPower 3) 1 (fun _ _ => none) σ := by
  obtain ⟨s', hrun⟩ := exists_of_result 10 (attachedPower 3) (attachedPower 3) (by decide +kernel)
  have hnames : ∀ c', Contains (powerOptions 3) (powerGraph 3) (powerContainer 3) c' →
      NamesVectors (powerOptions 3) (powerGraph 3) c' := fun c' hc' =>
    eq_of_contains_power hc' ▸ namesVectors_power 3
  have hdelayed : ∀ c', Contains (powerOptions 3) (powerGraph 3) (powerContainer 3) c' →
      ProjectionsDelayed (powerOptions 3) (powerGraph 3) c' := by
    intro c' hc' x y hpow
    obtain rfl := eq_of_contains_power hc'
    rw [(eq_of_compiledIn_power hpow).2]
    rfl
  obtain ⟨n, hn⟩ := compiledToPowers_iff session_noProperties (wellBuilt_attachedPower 3) hrun
    (e := callExpressions) rfl (o := powerOptions 3) (by rfl)
    (acceptedProgram_power 3) hnames hdelayed (fun _ _ => none) _ (.self _)
  refine ⟨s', hrun, n, fun depth hdepth fuel hfuel => ?_⟩
  obtain ⟨σ, hσ, hiff⟩ := hn depth hdepth fuel hfuel
  refine ⟨σ, hσ, hiff.2 ?_⟩
  intro marks sharing ha x y m hpow hlit
  rw [(eq_of_compiledIn_power ⟨marks, sharing, ha, hpow⟩).2] at hlit
  -- the exponent is three, if it is inlined
  unfold literalExponent at hlit
  obtain ⟨l, hl, hm⟩ := Option.bind_eq_some_iff.1 hlit
  have hthree : l = .intNum 3 := by
    rw [attachedLiteral, sigAttach, literalCode] at hl
    split at hl
    · exact (Option.some.inj hl).symm
    · cases hl
  subst hthree
  simp only [inlinedExponent] at hm
  split at hm
  · obtain rfl := Option.some.inj hm
    decide
  · cases hm

/-- The function that is emitted for `pow(SR, attach(-2, SR))` returns its argument. -/
theorem not_compiledToPowers_attached : ∃ s',
    sigMap noLibm unordered 10 (attachedPower (-2)) noProperties =
      .ok (attachedPower (-2), s') ∧
    ∃ σ, compileSignals (powerOptions (-2)) (powerGraph (-2)) 30 1 (powerContainer (-2)) = .ok σ ∧
      ¬ CompiledToPowers s'.recDef (powerOptions (-2)) (powerGraph (-2)) (powerContainer (-2))
        (attachedPower (-2)) 1 (fun _ _ => none) σ := by
  obtain ⟨s', hrun⟩ := exists_of_result 10 (attachedPower (-2)) (attachedPower (-2))
    (by decide +kernel)
  have hcompile : (compileSignals (powerOptions (-2)) (powerGraph (-2)) 30 1
      (powerContainer (-2))).toOption.map (fun σ => ((σ.fCompileProperty samplingFreq).isSome,
        (σ.fCompileProperty (attachedLiteral (-2))).bind
          (inlinedExponent (signalType (powerGraph (-2)) (attachedLiteral (-2)))))) =
      some (true, some (-2)) := by decide +kernel
  cases hσ : compileSignals (powerOptions (-2)) (powerGraph (-2)) 30 1 (powerContainer (-2)) with
  | error e =>
    rw [hσ] at hcompile
    cases hcompile
  | ok σ =>
    rw [hσ] at hcompile
    obtain ⟨hx, hy⟩ := Prod.mk.inj (Option.some.inj hcompile)
    obtain ⟨v, hv⟩ := Option.isSome_iff_exists.1 hx
    obtain ⟨w, hw, hinl⟩ := Option.bind_eq_some_iff.1 hy
    refine ⟨s', hrun, σ, rfl, fun h => ?_⟩
    have hraises := h.functions samplingFreq (attachedLiteral (-2)) v w (-2)
      (compiledIn_power (-2)) hv hw hinl
    exact absurd ((raises_generatePower_iff _ (Or.inl rfl) hinl).1 hraises) (by decide)

end

end Attached

end Power

end Faust
