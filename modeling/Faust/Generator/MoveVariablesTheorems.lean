import Faust.Generator.MoveVariables

/-!
# Correctness of the variables moved in front

A variable that is moved in front keeps its last value where its declaration stood. The blocks that
are moved safely are those that do not use the initial value such a declaration gives again: the
block is executed with no value at all in its place, and then both the block and its copy, whose
memories have at least the values of this one, perform what it performs.
-/

namespace Faust.Fir.AsmJs

open Traces

variable {ext : ExternFun} {xs : List String}

/-! ## Memories with more values -/

/-- What is known of a value is known of the other one. -/
def OptionBelow {α : Type} (v w : Option α) : Prop := ∀ x, v = some x → w = some x

theorem OptionBelow.refl {α : Type} (v : Option α) : OptionBelow v v := fun _ h => h

/-- The second cell has the values of the first one, and possibly more. -/
inductive CellBelow : Cell → Cell → Prop
  | undeclared (c : Cell) : CellBelow .undeclared c
  | scalar {v w : Option Val} : OptionBelow v w → CellBelow (.scalar v) (.scalar w)
  | array {vs ws : List (Option Val)} :
      List.Forall₂ OptionBelow vs ws → CellBelow (.array vs) (.array ws)
  | pointer {p q : Option (String × ℤ)} : OptionBelow p q → CellBelow (.pointer p) (.pointer q)
  | pointers (ps : List (String × ℤ)) : CellBelow (.pointers ps) (.pointers ps)

theorem CellBelow.refl (c : Cell) : CellBelow c c := by
  cases c with
  | undeclared => exact .undeclared _
  | scalar v => exact .scalar (.refl v)
  | array vs => exact .array (List.forall₂_same.2 fun v _ => .refl v)
  | pointer p => exact .pointer (.refl p)
  | pointers ps => exact .pointers ps

/-- The second memory has the values of the first one, and differs from it on the variables of the
block only. -/
structure Below (xs : List String) (m m' : Memory) : Prop where
  le : ∀ n, CellBelow (m n) (m' n)
  eq : ∀ n ∉ xs, m n = m' n

theorem Below.refl (m : Memory) : Below xs m m := ⟨fun n => .refl (m n), fun _ _ => rfl⟩

theorem getAt_below {vs ws : List (Option Val)} (h : List.Forall₂ OptionBelow vs ws) {i : ℤ}
    {v : Val} (hv : (Memory.getAt vs i).join = some v) : (Memory.getAt ws i).join = some v := by
  unfold Memory.getAt at hv ⊢
  by_cases hi : 0 ≤ i
  · simp only [if_pos hi] at hv ⊢
    have hget : vs[i.toNat]? = some (some v) := by simpa [Option.join_eq_some_iff] using hv
    obtain ⟨hlt, hvs⟩ := List.getElem?_eq_some_iff.1 hget
    have hlt' : i.toNat < ws.length := h.length_eq ▸ hlt
    have hws : ws[i.toNat] = some v := (h.get hlt hlt') v (by simpa using hvs)
    rw [List.getElem?_eq_getElem hlt', hws]
    rfl
  · simp [if_neg hi] at hv

namespace Below

variable {m m' : Memory} {n : String}

theorem scalar (h : Below xs m m') {v : Val} (hn : m n = .scalar (some v)) :
    m' n = .scalar (some v) := by
  have hle := h.le n
  rw [hn] at hle
  cases hm : m' n with
  | scalar w =>
    rw [hm] at hle
    cases hle with
    | scalar hw => rw [hw v rfl]
  | _ =>
    rw [hm] at hle
    cases hle

theorem pointer (h : Below xs m m') {p : String × ℤ} (hn : m n = .pointer (some p)) :
    m' n = .pointer (some p) := by
  have hle := h.le n
  rw [hn] at hle
  cases hm : m' n with
  | pointer q =>
    rw [hm] at hle
    cases hle with
    | pointer hq => rw [hq p rfl]
  | _ =>
    rw [hm] at hle
    cases hle

theorem pointers (h : Below xs m m') {ps : List (String × ℤ)} (hn : m n = .pointers ps) :
    m' n = .pointers ps := by
  have hle := h.le n
  rw [hn] at hle
  generalize m' n = c at hle
  cases hle
  rfl

theorem array (h : Below xs m m') {vs : List (Option Val)} (hn : m n = .array vs) :
    ∃ ws, m' n = .array ws ∧ List.Forall₂ OptionBelow vs ws := by
  have hle := h.le n
  rw [hn] at hle
  generalize m' n = c at hle
  cases hle with
  | array hws => exact ⟨_, rfl, hws⟩

/-- An element of an array is found at the same place. -/
theorem resolve (h : Below xs m m') {i : ℤ} {vs : List (Option Val)}
    (hr : m (m.resolve n i).1 = .array vs) : m'.resolve n i = m.resolve n i := by
  cases hn : m n with
  | pointer p =>
    cases p with
    | none =>
      have hself : m.resolve n i = (n, i) := by rw [Memory.resolve, hn]
      rw [hself, hn] at hr
      cases hr
    | some p => rw [Memory.resolve, Memory.resolve, hn, h.pointer hn]
  | array us =>
    obtain ⟨ws, hws, _⟩ := h.array hn
    rw [Memory.resolve, Memory.resolve, hn, hws]
  | undeclared | scalar | pointers =>
    have hself : m.resolve n i = (n, i) := by rw [Memory.resolve, hn]
    rw [hself, hn] at hr
    cases hr

theorem loadArray (h : Below xs m m') {i : ℤ} {v : Val} (hv : m.loadArray n i = some v) :
    m'.loadArray n i = some v := by
  unfold Memory.loadArray at hv ⊢
  split at hv
  · next vs hvs =>
    obtain ⟨ws, hws, hbelow⟩ := h.array hvs
    rw [h.resolve hvs, hws]
    exact getAt_below hbelow hv
  · cases hv

end Below

/-! ## Values -/

section
variable {m m' : Memory}

theorem eval_loadVar_iff {a : NamedAddress} {v : Val} :
    (ValueInst.loadVar a).eval ext m = some v ↔ m a.fName = .scalar (some v) := by
  rw [ValueInst.eval]
  cases m a.fName <;> simp

theorem eval_loadArrayVar_iff {a : NamedAddress} {i : ValueInst} {v : Val} :
    (ValueInst.loadArrayVar a i).eval ext m = some v ↔
      ∃ b, i.eval ext m = some (.int b) ∧ m.loadArray a.fName b.toInt = some v := by
  rw [ValueInst.eval]
  cases i.eval ext m with
  | none => simp
  | some w => cases w <;> simp

mutual
/-- A value does not change when more is known of the memory. -/
theorem eval_below (h : Below xs m m') : ∀ {e : ValueInst} {v : Val},
    e.eval ext m = some v → e.eval ext m' = some v
  | .loadVar a, v, he => eval_loadVar_iff.2 (h.scalar (eval_loadVar_iff.1 he))
  | .loadArrayVar a i, v, he => by
    obtain ⟨b, hb, hv⟩ := eval_loadArrayVar_iff.1 he
    exact eval_loadArrayVar_iff.2 ⟨b, eval_below h hb, h.loadArray hv⟩
  | .intNum n, v, he => by simpa only [ValueInst.eval] using he
  | .realNum t x, v, he => by simpa only [ValueInst.eval] using he
  | .boolNum b, v, he => by simpa only [ValueInst.eval] using he
  | .binop op a b, v, he => by
    simp only [ValueInst.eval, Option.bind_eq_bind, Option.bind_eq_some_iff] at he ⊢
    obtain ⟨x, hx, y, hy, hv⟩ := he
    exact ⟨x, eval_below h hx, y, eval_below h hy, hv⟩
  | .castNum a t, v, he => by
    simp only [ValueInst.eval, Option.bind_eq_bind, Option.bind_eq_some_iff] at he ⊢
    obtain ⟨x, hx, hv⟩ := he
    exact ⟨x, eval_below h hx, hv⟩
  | .select2 c t e, v, he => by
    simp only [ValueInst.eval, Option.bind_eq_bind, Option.bind_eq_some_iff] at he ⊢
    obtain ⟨x, hx, hv⟩ := he
    refine ⟨x, eval_below h hx, ?_⟩
    split_ifs at hv ⊢
    · exact eval_below h hv
    · exact eval_below h hv
  | .funCall f args, v, he => by
    simp only [ValueInst.eval, Option.bind_eq_bind, Option.bind_eq_some_iff] at he ⊢
    obtain ⟨vs, hvs, hv⟩ := he
    exact ⟨vs, evalArgs_below h hvs, hv⟩
  | .null, _, he | .loadArrayVarAddress _ _, _, he | .intArrayNum _, _, he
  | .realArrayNum _ _, _, he => by simp [ValueInst.eval] at he

theorem evalArgs_below (h : Below xs m m') : ∀ {es : List ValueInst} {vs : List Val},
    evalArgs ext m es = some vs → evalArgs ext m' es = some vs
  | [], vs, he => by simpa only [evalArgs] using he
  | e :: es, vs, he => by
    simp only [evalArgs, Option.bind_eq_bind, Option.bind_eq_some_iff] at he ⊢
    obtain ⟨x, hx, ys, hys, hvs⟩ := he
    exact ⟨x, eval_below h hx, ys, evalArgs_below h hys, hvs⟩
end

theorem pointerOf_below (h : Below xs m m') {e : ValueInst} {p : String × ℤ}
    (he : pointerOf ext m e = some p) : pointerOf ext m' e = some p := by
  cases e with
  | loadVar a =>
    simp only [pointerOf] at he ⊢
    split at he
    · next vs hvs =>
      obtain ⟨ws, hws, _⟩ := h.array hvs
      rw [hws]
      exact he
    · next q hq =>
      rw [h.pointer (he ▸ hq)]
    · cases he
  | loadArrayVar a i =>
    simp only [pointerOf] at he ⊢
    split at he
    · next ps b hps hb =>
      rw [h.pointers hps, eval_below h hb]
      exact he
    · cases he
  | loadArrayVarAddress a i =>
    simp only [pointerOf] at he ⊢
    split at he
    · next vs b hvs hb =>
      obtain ⟨ws, hws, _⟩ := h.array hvs
      rw [hws, eval_below h hb]
      exact he
    · next q b hq hb =>
      rw [h.pointer hq, eval_below h hb]
      exact he
    · cases he
  | _ => simp [pointerOf] at he

/-- What denotes a pointer denotes no number. -/
theorem eval_eq_none_of_pointerOf {e : ValueInst} {p : String × ℤ}
    (he : pointerOf ext m e = some p) : e.eval ext m = none := by
  cases e with
  | loadVar a =>
    simp only [pointerOf] at he
    split at he
    · next vs hvs => rw [ValueInst.eval, hvs]
    · next q hq => rw [ValueInst.eval, hq]
    · cases he
  | loadArrayVar a i =>
    simp only [pointerOf] at he
    split at he
    · next ps b hps hb =>
      rw [ValueInst.eval, hb]
      simp only [Memory.loadArray, Memory.resolve, hps]
    · cases he
  | loadArrayVarAddress a i => simp [ValueInst.eval]
  | _ => simp [pointerOf] at he

theorem evalArg_below (h : Below xs m m') {e : ValueInst} {a : Arg}
    (he : evalArg ext m e = some a) : evalArg ext m' e = some a := by
  unfold evalArg at he ⊢
  split at he
  · next w hw =>
    rw [eval_below h hw]
    exact he
  · obtain ⟨p, hp, rfl⟩ := Option.map_eq_some_iff.1 he
    have hp' := pointerOf_below h hp
    rw [eval_eq_none_of_pointerOf hp', hp']
    rfl

theorem evalArgList_below (h : Below xs m m') {es : List ValueInst} {as : List Arg}
    (he : evalArgList ext m es = some as) : evalArgList ext m' es = some as := by
  induction es generalizing as with
  | nil => exact he
  | cons e es ih =>
    simp only [evalArgList, Option.bind_eq_bind, Option.bind_eq_some_iff] at he ⊢
    obtain ⟨a, ha, bs, hbs, has⟩ := he
    exact ⟨a, evalArg_below h ha, bs, ih hbs, has⟩

/-- Arrays are declared alike in all memories. -/
theorem declareCell_array {t : VarType} {n : ℕ} {v : Option ValueInst}
    (h : n = 0 → v = none) :
    declareCell ext m (.array t n) v = declareCell ext m' (.array t n) v := by
  cases n with
  | zero =>
    rw [h rfl]
    rfl
  | succ n =>
    cases v with
    | none => rfl
    | some v => cases v <;> rfl

/-- The contents of a declaration do not change when more is known of the memory. -/
theorem content_below (h : Below xs m m') {inst : DeclareVarInst} {c : Cell}
    (hc : content ext m inst = some c) : content ext m' inst = some c := by
  unfold content at hc ⊢
  have hscalar : ∀ {v : ValueInst}, (v.eval ext m).map (fun w => Cell.scalar (some w)) = some c →
      (v.eval ext m').map (fun w => Cell.scalar (some w)) = some c := by
    intro v hv
    obtain ⟨w, hw, rfl⟩ := Option.map_eq_some_iff.1 hv
    rw [eval_below h hw]
    rfl
  split at hc
  · exact hc
  · obtain ⟨p, hp, rfl⟩ := Option.map_eq_some_iff.1 hc
    rw [pointerOf_below h hp]
    rfl
  · next _ _ t n _ _ hvalue =>
    rw [← hc]
    refine declareCell_array fun hn => ?_
    cases hv : inst.fValue with
    | none => rfl
    | some v => exact (hvalue v hv hn).elim
  · exact hc
  · exact hc
  · exact hscalar hc
  · exact hscalar hc

theorem assigned_below (h : Below xs m m') {v : ValueInst} {c c' d : Cell} (hle : CellBelow c c')
    (hd : assigned ext m v c = some d) : assigned ext m' v c' = some d := by
  cases hle with
  | scalar =>
    obtain ⟨w, hw, rfl⟩ := Option.map_eq_some_iff.1 hd
    rw [assigned, eval_below h hw]
    rfl
  | pointer =>
    obtain ⟨p, hp, rfl⟩ := Option.map_eq_some_iff.1 hd
    rw [assigned, pointerOf_below h hp]
    rfl
  | undeclared | array | pointers => cases hd

end

/-! ## Stores -/

/-- Contents of one kind: those that the variables of a type can have. -/
def SameKind : Cell → Cell → Prop
  | .scalar _, .scalar _ | .pointer _, .pointer _ => True
  | .array vs, .array ws => vs.length = ws.length
  | c, d => c = d

/-- A relation that the instructions which declare nothing preserve: they give contents to declared
variables, and call functions that do not see the variables of the block. -/
structure Stable (xs : List String) (P : Memory → Memory → Prop) : Prop where
  assign : ∀ {m m' : Memory} {n : String} {c d : Cell}, P m m' → m n ≠ .undeclared →
    c ≠ .undeclared → SameKind (m' n) d → P (Function.update m n c) (Function.update m' n d)
  keep : ∀ {m m' p p' : Memory}, P m m' → P (keep xs m p) (keep xs m' p')

section
variable {m m' : Memory}

theorem Below.update (h : Below xs m m') {n : String} {c d : Cell} (hle : CellBelow c d)
    (heq : n ∉ xs → c = d) : Below xs (Function.update m n c) (Function.update m' n d) := by
  constructor
  · intro x
    by_cases hx : x = n
    · subst hx
      simpa using hle
    · simpa [Function.update_of_ne hx] using h.le x
  · intro x hmem
    by_cases hx : x = n
    · subst hx
      simpa using heq hmem
    · simpa [Function.update_of_ne hx] using h.eq x hmem

theorem Below.keep (h : Below xs m m') (p : Memory) : Below xs (keep xs m p) (keep xs m' p) := by
  constructor
  · intro n
    unfold AsmJs.keep
    split
    · exact h.le n
    · exact .refl _
  · intro n hn
    unfold AsmJs.keep
    rw [if_neg hn, if_neg hn]

theorem Below.hide (h : Below xs m m') : hide xs m = hide xs m' := by
  funext n
  unfold AsmJs.hide
  split
  · rfl
  · next hn => exact h.eq n hn

variable {P : Memory → Memory → Prop}

theorem storeVar_below (hP : Stable xs P) (h : Below xs m m') (hpm : P m m') {n : String}
    {v : ValueInst} {c : Cell} (hc : assigned ext m v (m n) = some c) :
    assigned ext m' v (m' n) = some c ∧
      Below xs (Function.update m n c) (Function.update m' n c) ∧
      P (Function.update m n c) (Function.update m' n c) := by
  have hle := h.le n
  have hc' := assigned_below h hle hc
  refine ⟨hc', h.update (.refl c) fun _ => rfl, hP.assign hpm ?_ ?_ ?_⟩
  · intro hn
    rw [hn] at hc
    cases hc
  · rintro rfl
    cases hm : m n <;> simp [hm, assigned] at hc
  · cases hm : m' n <;> rw [hm] at hc' <;> simp only [assigned, reduceCtorEq] at hc'
    · obtain ⟨w, _, rfl⟩ := Option.map_eq_some_iff.1 hc'
      trivial
    · obtain ⟨p, _, rfl⟩ := Option.map_eq_some_iff.1 hc'
      trivial

theorem forall₂_set {vs ws : List (Option Val)} (h : List.Forall₂ OptionBelow vs ws) (i : ℕ)
    (v : Option Val) : List.Forall₂ OptionBelow (vs.set i v) (ws.set i v) := by
  induction h generalizing i with
  | nil => exact .nil
  | cons hv hrest ih =>
    cases i with
    | zero => exact .cons (.refl v) hrest
    | succ i => exact .cons hv (ih i)

theorem storeArray_below (hP : Stable xs P) (h : Below xs m m') (hpm : P m m') {n : String}
    {i : ℤ} {v : Val} {m₁ : Memory} (hm₁ : m.storeArray n i v = some m₁) :
    m'.resolve n i = m.resolve n i ∧ ∃ m₁', m'.storeArray n i v = some m₁' ∧
      Below xs m₁ m₁' ∧ P m₁ m₁' := by
  unfold Memory.storeArray at hm₁ ⊢
  split at hm₁
  · next vs hvs =>
    have hres := h.resolve hvs
    obtain ⟨ws, hws, hbelow⟩ := h.array hvs
    split_ifs at hm₁ with hbound
    cases hm₁
    rw [hres, hws]
    refine ⟨rfl, _, if_pos (hbelow.length_eq ▸ hbound), ?_, ?_⟩
    · apply h.update (.array (forall₂_set hbelow _ _))
      intro hn
      have heq := h.eq _ hn
      rw [hvs, hws] at heq
      cases heq
      rfl
    · refine hP.assign hpm (by simp [hvs]) (by simp) ?_
      rw [hws]
      simp [SameKind]
  · cases hm₁

end

/-! ## Blocks without their declarations -/

section
variable (left : DeclareVarInst → StatementInst)

mutual
/-- A statement, with other instructions in place of its declarations. -/
def StatementInst.leave : StatementInst → StatementInst
  | .declareVar inst => left inst
  | .storeVar a v => .storeVar a v
  | .storeArrayVar a i v => .storeArrayVar a i v
  | .drop v => .drop v
  | .block code => .block (leaveBlock code)
  | .ifInst c x y => .ifInst c (leaveBlock x) (leaveBlock y)
  | .forLoop init e inc code => .forLoop init.leave e inc.leave (leaveBlock code)
  | .whileLoop c code => .whileLoop c (leaveBlock code)
  | .switch c cases => .switch c (leaveCases cases)

def leaveBlock : List StatementInst → List StatementInst
  | [] => []
  | s :: ss => s.leave :: leaveBlock ss

def leaveCases : List (ℤ × List StatementInst) → List (ℤ × List StatementInst)
  | [] => []
  | (i, code) :: cases => (i, leaveBlock code) :: leaveCases cases
end

@[simp] theorem leaveBlock_append (a b : List StatementInst) :
    leaveBlock left (a ++ b) = leaveBlock left a ++ leaveBlock left b := by
  induction a with
  | nil => rfl
  | cons s ss ih => rw [List.cons_append, leaveBlock, leaveBlock, ih, List.cons_append]

theorem leaveCases_eq_map (cases : List (ℤ × List StatementInst)) :
    leaveCases left cases = cases.map fun c => (c.1, leaveBlock left c.2) := by
  induction cases with
  | nil => rfl
  | cons c cases ih => rw [leaveCases, ih, List.map_cons]

theorem selectCase_leave (i : ℤ) (cases : List (ℤ × List StatementInst)) :
    selectCase i (leaveCases left cases) = leaveBlock left (selectCase i cases) := by
  rw [leaveCases_eq_map]
  exact selectCase_map (leaveBlock.eq_1 left) i cases

end

@[simp] theorem declarationsOfBlock_append (a b : List StatementInst) :
    declarationsOfBlock (a ++ b) = declarationsOfBlock a ++ declarationsOfBlock b := by
  induction a with
  | nil => rfl
  | cons s ss ih =>
    rw [List.cons_append, declarationsOfBlock, declarationsOfBlock, ih, List.append_assoc]

theorem declarations_of_mem_cases {cases : List (ℤ × List StatementInst)}
    {c : ℤ × List StatementInst} (hc : c ∈ cases) :
    declarationsOfBlock c.2 ⊆ declarationsOfCases cases := by
  induction cases with
  | nil => cases hc
  | cons d cases ih =>
    rw [declarationsOfCases]
    cases List.mem_cons.1 hc with
    | inl heq => exact heq ▸ List.subset_append_left _ _
    | inr hmem => exact List.Subset.trans (ih hmem) (List.subset_append_right _ _)

theorem declarations_selectCase (i : ℤ) (cases : List (ℤ × List StatementInst)) :
    declarationsOfBlock (selectCase i cases) ⊆ declarationsOfCases cases := by
  rcases selectCase_cases i cases with ⟨c, hc, heq⟩ | hnil
  · rw [heq]
    exact declarations_of_mem_cases hc
  · rw [hnil]
    exact List.nil_subset _

/-! ## Lock step -/

/-- What the instruction left in place of a declaration does, next to the declaration. -/
def LeavesFor (ext : ExternFun) (proc : Procedures) (xs : List String)
    (contents : Memory → DeclareVarInst → Option Cell) (P : Memory → Memory → Prop)
    (left : DeclareVarInst → StatementInst) (inst : DeclareVarInst) : Prop :=
  ∀ m m' c k, Below xs m m' → P m m' → contents m inst = some c →
    ∃ m₁, step ext proc xs (content ext) (left inst :: k, m') = some ([], k, m₁) ∧
      Below xs (Function.update m inst.getName c) m₁ ∧
      P (Function.update m inst.getName c) m₁

/-- The code that is left of another one, with a memory that has more values. -/
structure Follows (xs : List String) (P : Memory → Memory → Prop)
    (left : DeclareVarInst → StatementInst) (insts : List DeclareVarInst) (c c' : Config) :
    Prop where
  code : c'.1 = leaveBlock left c.1
  insts : declarationsOfBlock c.1 ⊆ insts
  below : Below xs c.2 c'.2
  rel : P c.2 c'.2

section
variable {proc : Procedures} {contents : Memory → DeclareVarInst → Option Cell}
  {P : Memory → Memory → Prop} {left : DeclareVarInst → StatementInst}
  {insts : List DeclareVarInst}

theorem step_follows (hP : Stable xs P)
    (hleft : ∀ inst ∈ insts, LeavesFor ext proc xs contents P left inst) {c c' c₁ : Config}
    {es : List Event} (h : Follows xs P left insts c c')
    (hstep : step ext proc xs contents c = some (es, c₁)) :
    ∃ c₁', step ext proc xs (content ext) c' = some (es, c₁') ∧
      Follows xs P left insts c₁ c₁' := by
  obtain ⟨k, m⟩ := c
  obtain ⟨k', m'⟩ := c'
  obtain ⟨hcode, hinsts, hbelow, hrel⟩ := h
  simp only at hcode hinsts hbelow hrel
  subst hcode
  cases k with
  | nil => cases hstep
  | cons s k =>
    rw [declarationsOfBlock] at hinsts
    have hk : declarationsOfBlock k ⊆ insts := fun x hx => hinsts (List.mem_append_right _ hx)
    have hs : s.declarations ⊆ insts := fun x hx => hinsts (List.mem_append_left _ hx)
    -- an instruction that is unfolded, or that a condition selects
    have hunfold : ∀ {code : List StatementInst}, declarationsOfBlock code ⊆ insts →
        Follows xs P left insts (code, m) (leaveBlock left code, m') :=
      fun hcode => ⟨rfl, hcode, hbelow, hrel⟩
    rw [leaveBlock]
    cases s with
    | declareVar inst =>
      simp only [step, Option.bind_eq_bind, Option.bind_eq_some_iff] at hstep
      obtain ⟨c, hc, heq⟩ := hstep
      cases heq
      obtain ⟨m₁, hstep, hb, hp⟩ :=
        hleft inst (hs List.mem_cons_self) m m' c (leaveBlock left k) hbelow hrel hc
      exact ⟨_, hstep, rfl, hk, hb, hp⟩
    | storeVar a v =>
      simp only [step, Option.bind_eq_bind, Option.bind_eq_some_iff] at hstep
      obtain ⟨c, hc, heq⟩ := hstep
      cases heq
      obtain ⟨hc', hb, hp⟩ := storeVar_below hP hbelow hrel hc
      refine ⟨(leaveBlock left k, Function.update m' a.fName c), ?_, rfl, hk, hb, hp⟩
      simp only [StatementInst.leave, step, hc']
      rfl
    | storeArrayVar a i v =>
      simp only [step] at hstep
      split at hstep
      · next b w hi hv =>
        simp only [Option.bind_eq_bind, Option.bind_eq_some_iff] at hstep
        obtain ⟨m₁, hm₁, heq⟩ := hstep
        cases heq
        obtain ⟨hres, m₁', hm₁', hb, hp⟩ := storeArray_below hP hbelow hrel hm₁
        refine ⟨(leaveBlock left k, m₁'), ?_, rfl, hk, hb, hp⟩
        simp only [StatementInst.leave, step, eval_below hbelow hi, eval_below hbelow hv, hres,
          hm₁']
        rfl
      · cases hstep
    | drop v =>
      cases v with
      | none =>
        cases hstep
        exact ⟨_, rfl, hunfold hk⟩
      | some v =>
        -- a call, or a value that is computed and not used
        cases v with
        | funCall f args =>
          simp only [step, Option.bind_eq_bind, Option.bind_eq_some_iff] at hstep
          obtain ⟨as, has, p, hp, heq⟩ := hstep
          cases heq
          have has' := evalArgList_below hbelow has
          rw [hbelow.hide] at hp
          refine ⟨(leaveBlock left k, keep xs m' p), ?_, rfl, hk, hbelow.keep p, hP.keep hrel⟩
          simp only [StatementInst.leave, step, has', Option.bind_eq_bind, Option.bind_some, hp]
          rfl
        | _ =>
          simp only [step, Option.bind_eq_bind, Option.bind_eq_some_iff] at hstep
          obtain ⟨w, hw, heq⟩ := hstep
          cases heq
          refine ⟨_, ?_, hunfold hk⟩
          simp only [StatementInst.leave, step, eval_below hbelow hw]
          rfl
    | block code =>
      cases hstep
      refine ⟨_, rfl, ?_⟩
      rw [← leaveBlock_append]
      apply hunfold
      rw [declarationsOfBlock_append]
      exact List.append_subset.2 ⟨hs, hk⟩
    | ifInst c t e =>
      simp only [step, Option.bind_eq_bind, Option.bind_eq_some_iff] at hstep
      obtain ⟨w, hw, heq⟩ := hstep
      cases heq
      have hbranch : declarationsOfBlock ((if w.truth then t else e) ++ k) ⊆ insts := by
        rw [declarationsOfBlock_append]
        obtain ⟨ht, he⟩ := List.append_subset.1 hs
        apply List.append_subset.2 ⟨_, hk⟩
        split
        · exact ht
        · exact he
      refine ⟨_, ?_, hunfold hbranch⟩
      simp only [StatementInst.leave, step, eval_below hbelow hw, leaveBlock_append,
        Option.bind_eq_bind, Option.bind_some]
      cases w.truth <;> rfl
    | forLoop init end_ incr code =>
      cases hstep
      refine ⟨_, rfl, ?_, ?_, hbelow, hrel⟩
      · simp only [leaveBlock, StatementInst.leave, leaveBlock_append]
      · rw [StatementInst.declarations] at hs
        simp only [declarationsOfBlock, StatementInst.declarations, declarationsOfBlock_append]
        intro inst hinst
        simp only [List.mem_append, List.not_mem_nil, or_false] at hinst
        obtain hinit | (hcode | hincr) | hrest := hinst
        · exact hs (List.mem_append_left _ (List.mem_append_left _ hinit))
        · exact hs (List.mem_append_right _ hcode)
        · exact hs (List.mem_append_left _ (List.mem_append_right _ hincr))
        · exact hk hrest
    | whileLoop c code =>
      simp only [step, Option.bind_eq_bind, Option.bind_eq_some_iff] at hstep
      obtain ⟨w, hw, heq⟩ := hstep
      cases heq
      have hturn : declarationsOfBlock
          (if w.truth then code ++ .whileLoop c code :: k else k) ⊆ insts := by
        split
        · rw [declarationsOfBlock_append, declarationsOfBlock]
          exact List.append_subset.2 ⟨hs, List.append_subset.2 ⟨hs, hk⟩⟩
        · exact hk
      refine ⟨_, ?_, hunfold hturn⟩
      simp only [StatementInst.leave, step, eval_below hbelow hw, Option.bind_eq_bind,
        Option.bind_some]
      cases w.truth with
      | true =>
        simp only [if_true, leaveBlock_append, leaveBlock, StatementInst.leave]
        rfl
      | false => rfl
    | switch c cases =>
      simp only [step] at hstep
      split at hstep
      · next b hb =>
        cases hstep
        have hcase : declarationsOfBlock (selectCase b.toInt cases ++ k) ⊆ insts := by
          rw [declarationsOfBlock_append]
          exact List.append_subset.2
            ⟨List.Subset.trans (declarations_selectCase _ _) hs, hk⟩
        refine ⟨_, ?_, hunfold hcase⟩
        simp only [StatementInst.leave, step, eval_below hbelow hb, selectCase_leave,
          leaveBlock_append]
      · cases hstep

end

/-! ## The type of a variable -/

/-- What a variable holds: a number, a pointer, or as many numbers as an array has. -/
inductive Kind
  | number
  | pointer
  | array (size : ℕ)

/-- What a variable of a type holds. -/
def VarTyped.kind : VarTyped → Kind
  | .typed (.array _ 0) => .pointer
  | .typed (.array _ (n + 1)) => .array (n + 1)
  | .typed (.basic _) | .kObj_ptr => .number

/-- Whether a type is that of an array that is no pointer. -/
def VarTyped.sized : VarTyped → Bool
  | .typed (.array _ (_ + 1)) => true
  | _ => false

/-- The contents that a variable has. -/
def Kind.Has : Kind → Cell → Prop
  | .number, .scalar _ | .pointer, .pointer _ => True
  | .array n, .array vs => vs.length = n
  | _, _ => False

theorem Kind.Has.sameKind {k : Kind} {c d : Cell} (h : k.Has c) (hkind : SameKind c d) :
    k.Has d := by
  cases k <;> cases c <;> cases d <;> simp_all [Kind.Has, SameKind]

theorem Kind.Has.same {k : Kind} {c d : Cell} (hc : k.Has c) (hd : k.Has d) : SameKind c d := by
  cases k <;> cases c <;> cases d <;> simp_all [Kind.Has, SameKind]

theorem Kind.Has.ne_undeclared {k : Kind} {c : Cell} (h : k.Has c) : c ≠ .undeclared := by
  rintro rfl
  cases k <;> exact h

/-- The contents of a declared array. -/
theorem declareCell_has {m : Memory} {t : VarType} {n : ℕ} {v : Option ValueInst} {c : Cell}
    (hpointer : n = 0 → v = none) (hc : declareCell ext m (.array t n) v = some c) :
    (VarTyped.typed (.array t n)).kind.Has c := by
  cases n with
  | zero =>
    rw [hpointer rfl] at hc
    cases hc
    trivial
  | succ n =>
    cases v with
    | none =>
      cases hc
      exact List.length_replicate
    | some v =>
      cases v with
      | intArrayNum is =>
        simp only [declareCell] at hc
        split_ifs at hc with hlen
        cases hc
        exact List.length_map _ |>.trans hlen
      | realArrayNum t rs =>
        simp only [declareCell] at hc
        split_ifs at hc with hlen
        cases hc
        exact List.length_map _ |>.trans hlen
      | _ => cases hc

/-- The contents of a declaration have its type. -/
theorem content_has {m : Memory} {inst : DeclareVarInst} {c : Cell}
    (hc : content ext m inst = some c) : inst.fType.kind.Has c := by
  unfold content at hc
  have hnumber : ∀ {v : ValueInst}, (v.eval ext m).map (fun w => Cell.scalar (some w)) = some c →
      Kind.number.Has c := by
    intro v hv
    obtain ⟨w, _, rfl⟩ := Option.map_eq_some_iff.1 hv
    trivial
  split at hc
  · next htype _ =>
    cases hc
    rw [htype]
    trivial
  · next htype _ =>
    obtain ⟨p, _, rfl⟩ := Option.map_eq_some_iff.1 hc
    rw [htype]
    trivial
  · next t n htype _ hvalue =>
    rw [htype]
    refine declareCell_has (fun hn => ?_) hc
    cases hv : inst.fValue with
    | none => rfl
    | some v => exact (hvalue v hv hn).elim
  · next htype _ =>
    cases hc
    rw [htype]
    trivial
  · next htype _ =>
    cases hc
    rw [htype]
    trivial
  · next htype _ =>
    rw [htype]
    exact hnumber hc
  · next htype _ =>
    rw [htype]
    exact hnumber hc

/-- Contents without values. -/
def blank : Cell → Cell
  | .scalar _ => .scalar none
  | .array vs => .array (vs.map fun _ => none)
  | .pointer _ => .pointer none
  | c => c

theorem blank_eq_undeclared_iff {c : Cell} : blank c = .undeclared ↔ c = .undeclared := by
  cases c <;> simp [blank]

/-- Contents without values are below all those of the variable. -/
theorem Kind.Has.blank_below {k : Kind} {c d : Cell} (hc : k.Has c) (hd : k.Has d) :
    CellBelow (blank c) d := by
  have hnone : ∀ {α : Type} (w : Option α), OptionBelow none w := fun _ _ h => by cases h
  cases k with
  | number =>
    cases c <;> cases d <;> try exact hc.elim
    all_goals try exact hd.elim
    exact .scalar (hnone _)
  | pointer =>
    cases c <;> cases d <;> try exact hc.elim
    all_goals try exact hd.elim
    exact .pointer (hnone _)
  | array n =>
    cases c <;> cases d <;> try exact hc.elim
    all_goals try exact hd.elim
    next vs ws =>
    have hlen : vs.length = ws.length := Eq.trans hc (Eq.symm hd)
    apply CellBelow.array
    rw [List.forall₂_map_left_iff, List.forall₂_iff_zip]
    exact ⟨hlen, fun _ => hnone _⟩

/-! ## Declarations in front -/

section
variable (ext)

/-- The memory after declarations. -/
def declareAll : List DeclareVarInst → Memory → Option Memory
  | [], m => some m
  | inst :: insts, m => do
    let c ← content ext m inst
    declareAll insts (Function.update m inst.getName c)

end

theorem performs_declareAll (proc : Procedures) {insts : List DeclareVarInst} {m F : Memory}
    (h : declareAll ext insts m = some F) (k : List StatementInst) :
    Performs (step ext proc xs (content ext)) (insts.map .declareVar ++ k, m) [] (k, F) := by
  induction insts generalizing m with
  | nil =>
    cases h
    exact .refl _
  | cons inst insts ih =>
    simp only [declareAll, Option.bind_eq_bind, Option.bind_eq_some_iff] at h
    obtain ⟨c, hc, hrest⟩ := h
    have hstep : step ext proc xs (content ext) ((inst :: insts).map .declareVar ++ k, m) =
        some ([], insts.map .declareVar ++ k, Function.update m inst.getName c) := by
      simp only [List.map_cons, List.cons_append, step, hc]
      rfl
    exact .head hstep (ih hrest)

/-- Variables that are declared once have the contents of their declarations. -/
theorem declareAll_spec {insts : List DeclareVarInst} {m F : Memory}
    (hnodup : (insts.map DeclareVarInst.getName).Nodup) (h : declareAll ext insts m = some F) :
    (∀ n ∉ insts.map DeclareVarInst.getName, F n = m n) ∧
      ∀ inst ∈ insts, ∃ m₁, content ext m₁ inst = some (F inst.getName) := by
  induction insts generalizing m with
  | nil =>
    cases h
    exact ⟨fun _ _ => rfl, fun _ hinst => by cases hinst⟩
  | cons inst insts ih =>
    simp only [declareAll, Option.bind_eq_bind, Option.bind_eq_some_iff] at h
    obtain ⟨c, hc, hrest⟩ := h
    rw [List.map_cons, List.nodup_cons] at hnodup
    obtain ⟨hother, hcontent⟩ := ih hnodup.2 hrest
    constructor
    · intro n hn
      rw [List.map_cons, List.mem_cons, not_or] at hn
      rw [hother n hn.2, Function.update_of_ne hn.1]
    · intro inst' hinst'
      cases List.mem_cons.1 hinst' with
      | inl heq =>
        subst heq
        refine ⟨m, ?_⟩
        rw [hother _ hnodup.1, Function.update_self, hc]
      | inr hmem => exact hcontent inst' hmem

theorem exists_declareAll {insts : List DeclareVarInst} (m : Memory)
    (h : ∀ inst ∈ insts, ∀ m, ∃ c, content ext m inst = some c) :
    ∃ F, declareAll ext insts m = some F := by
  induction insts generalizing m with
  | nil => exact ⟨m, rfl⟩
  | cons inst insts ih =>
    obtain ⟨c, hc⟩ := h inst List.mem_cons_self m
    obtain ⟨F, hF⟩ := ih (Function.update m inst.getName c)
      fun inst' hinst' => h inst' (List.mem_cons_of_mem _ hinst')
    refine ⟨F, ?_⟩
    simp only [declareAll, hc]
    exact hF

/-! ## Initial values that are used once -/

section
variable (ext) (proc : Procedures) (moves : DeclareVarInst → Bool)

/-- The contents of a declaration that is moved: its initial value is there when it is the one it
has in front, and the variable has not been changed since the declaration was executed last. -/
def contentOnce (F : Memory) (m : Memory) (inst : DeclareVarInst) : Option Cell :=
  (content ext m inst).map fun c =>
    if moves inst = false ∨ c = F inst.getName ∧ (m inst.getName = .undeclared ∨ m inst.getName = c)
    then c else blank c

/-- The block executes without the initial values that the declarations which are moved would give
again. -/
def UsesOnce (src : List StatementInst) (m : Memory) : Prop :=
  ∃ F, declareAll ext ((declarationsOfBlock src).filter moves) m = some F ∧
    ∃ es m', Performs (step ext proc (locals src) (contentOnce ext moves F)) (src, m) es ([], m')

end

theorem contentOnce_eq_some {moves : DeclareVarInst → Bool} {F m : Memory}
    {inst : DeclareVarInst} {c : Cell} (h : contentOnce ext moves F m inst = some c) :
    ∃ d, content ext m inst = some d ∧ (c = d ∨ c = blank d) := by
  obtain ⟨d, hd, rfl⟩ := Option.map_eq_some_iff.1 h
  refine ⟨d, hd, ?_⟩
  split
  · exact .inl rfl
  · exact .inr rfl

/-! ## The block -/

mutual
theorem leave_declareVar : ∀ s : StatementInst, s.leave .declareVar = s
  | .declareVar _ | .storeVar _ _ | .storeArrayVar _ _ _ | .drop _ => rfl
  | .block code => by rw [StatementInst.leave, leaveBlock_declareVar code]
  | .ifInst c x y => by
    rw [StatementInst.leave, leaveBlock_declareVar x, leaveBlock_declareVar y]
  | .forLoop init e inc code => by
    rw [StatementInst.leave, leave_declareVar init, leave_declareVar inc,
      leaveBlock_declareVar code]
  | .whileLoop c code => by rw [StatementInst.leave, leaveBlock_declareVar code]
  | .switch c cases => by rw [StatementInst.leave, leaveCases_declareVar cases]

theorem leaveBlock_declareVar : ∀ ss : List StatementInst, leaveBlock .declareVar ss = ss
  | [] => rfl
  | s :: ss => by rw [leaveBlock, leave_declareVar s, leaveBlock_declareVar ss]

theorem leaveCases_declareVar :
    ∀ cases : List (ℤ × List StatementInst), leaveCases .declareVar cases = cases
  | [] => rfl
  | (i, code) :: cases => by
    rw [leaveCases, leaveBlock_declareVar code, leaveCases_declareVar cases]
end

theorem stable_true : Stable xs fun _ _ => True := ⟨fun _ _ _ _ => trivial, fun _ => trivial⟩

/-- The block performs what it performs without these values. -/
theorem performs_of_usesOnce {proc : Procedures} {moves : DeclareVarInst → Bool} {F m m' : Memory}
    {src : List StatementInst} {es : List Event}
    (h : Performs (step ext proc (locals src) (contentOnce ext moves F)) (src, m) es ([], m')) :
    Runs ext proc (locals src) src m es := by
  have hleft : ∀ inst ∈ declarationsOfBlock src, LeavesFor ext proc (locals src)
      (contentOnce ext moves F) (fun _ _ => True) .declareVar inst := by
    intro inst hinst m m' c k hbelow _ hc
    obtain ⟨d, hd, hcd⟩ := contentOnce_eq_some hc
    have hd' := content_below hbelow hd
    refine ⟨Function.update m' inst.getName d, ?_, hbelow.update ?_ ?_, trivial⟩
    · simp only [step, hd']
      rfl
    · obtain rfl | rfl := hcd
      · exact .refl _
      · exact (content_has hd).blank_below (content_has hd)
    · exact fun hn => absurd (List.mem_map_of_mem hinst) hn
  have hrel : Follows (locals src) (fun _ _ => True) .declareVar (declarationsOfBlock src)
      (src, m) (src, m) :=
    ⟨(leaveBlock_declareVar src).symm, List.Subset.refl _, .refl m, trivial⟩
  obtain ⟨⟨k, m₁⟩, hrun, hend⟩ := h.lockstep
    (fun _ _ _ _ hfollows hstep => step_follows stable_true hleft hfollows hstep) hrel
  obtain rfl : k = [] := hend.code
  exact ⟨m₁, hrun⟩

/-! ## The copy -/

/-- The declaration that a visitor keeps. -/
def Visitor.front (visit : Visitor) (inst : DeclareVarInst) : DeclareVarInst :=
  match visit inst with
  | some (d, _) => d
  | none => inst

/-- The instruction that a visitor leaves. -/
def Visitor.left (visit : Visitor) (inst : DeclareVarInst) : StatementInst :=
  match visit inst with
  | some (_, s) => s
  | none => .drop none

section
variable {visit : Visitor}

mutual
theorem clone_spec : ∀ {s s' : StatementInst} {t : List DeclareVarInst},
    s.clone visit = some (t, s') →
      t = s.declarations.map visit.front ∧ s' = s.leave visit.left ∧
        ∀ inst ∈ s.declarations, (visit inst).isSome
  | .declareVar inst, s', t, h => by
    simp only [StatementInst.clone, Option.bind_eq_bind, Option.bind_eq_some_iff] at h
    obtain ⟨⟨d, s⟩, hd, heq⟩ := h
    cases heq
    refine ⟨?_, ?_, ?_⟩
    · simp [StatementInst.declarations, Visitor.front, hd]
    · simp [StatementInst.leave, Visitor.left, hd]
    · simp [StatementInst.declarations, hd]
  | .storeVar a v, s', t, h | .storeArrayVar a i v, s', t, h | .drop v, s', t, h => by
    cases h
    exact ⟨rfl, rfl, fun _ hinst => by cases hinst⟩
  | .block code, s', t, h => by
    simp only [StatementInst.clone, Option.bind_eq_bind, Option.bind_eq_some_iff] at h
    obtain ⟨⟨t₁, code'⟩, hcode, heq⟩ := h
    cases heq
    obtain ⟨rfl, rfl, hsome⟩ := cloneBlock_spec hcode
    exact ⟨rfl, rfl, hsome⟩
  | .ifInst c x y, s', t, h => by
    simp only [StatementInst.clone, Option.bind_eq_bind, Option.bind_eq_some_iff] at h
    obtain ⟨⟨t₁, x'⟩, hx, ⟨t₂, y'⟩, hy, heq⟩ := h
    cases heq
    obtain ⟨rfl, rfl, hsome₁⟩ := cloneBlock_spec hx
    obtain ⟨rfl, rfl, hsome₂⟩ := cloneBlock_spec hy
    refine ⟨(List.map_append ..).symm, rfl, fun inst hinst => ?_⟩
    exact (List.mem_append.1 hinst).elim (hsome₁ inst) (hsome₂ inst)
  | .forLoop init e inc code, s', t, h => by
    simp only [StatementInst.clone, Option.bind_eq_bind, Option.bind_eq_some_iff] at h
    obtain ⟨⟨t₁, init'⟩, hinit, ⟨t₂, inc'⟩, hinc, ⟨t₃, code'⟩, hcode, heq⟩ := h
    cases heq
    obtain ⟨rfl, rfl, hsome₁⟩ := clone_spec hinit
    obtain ⟨rfl, rfl, hsome₂⟩ := clone_spec hinc
    obtain ⟨rfl, rfl, hsome₃⟩ := cloneBlock_spec hcode
    refine ⟨?_, rfl, fun inst hinst => ?_⟩
    · simp [StatementInst.declarations]
    · obtain hinst | hinst := List.mem_append.1 hinst
      · exact (List.mem_append.1 hinst).elim (hsome₁ inst) (hsome₂ inst)
      · exact hsome₃ inst hinst
  | .whileLoop c code, s', t, h => by
    simp only [StatementInst.clone, Option.bind_eq_bind, Option.bind_eq_some_iff] at h
    obtain ⟨⟨t₁, code'⟩, hcode, heq⟩ := h
    cases heq
    obtain ⟨rfl, rfl, hsome⟩ := cloneBlock_spec hcode
    exact ⟨rfl, rfl, hsome⟩
  | .switch c cases, s', t, h => by
    simp only [StatementInst.clone, Option.bind_eq_bind, Option.bind_eq_some_iff] at h
    obtain ⟨⟨t₁, cases'⟩, hcases, heq⟩ := h
    cases heq
    obtain ⟨rfl, rfl, hsome⟩ := cloneCases_spec hcases
    exact ⟨rfl, rfl, hsome⟩

theorem cloneBlock_spec : ∀ {ss ss' : List StatementInst} {t : List DeclareVarInst},
    cloneBlock visit ss = some (t, ss') →
      t = (declarationsOfBlock ss).map visit.front ∧ ss' = leaveBlock visit.left ss ∧
        ∀ inst ∈ declarationsOfBlock ss, (visit inst).isSome
  | [], _, _, h => by
    cases h
    exact ⟨rfl, rfl, fun _ hinst => by cases hinst⟩
  | s :: ss, ss', t, h => by
    simp only [cloneBlock, Option.bind_eq_bind, Option.bind_eq_some_iff] at h
    obtain ⟨⟨t₁, s'⟩, hs, ⟨t₂, rest⟩, hrest, heq⟩ := h
    cases heq
    obtain ⟨rfl, rfl, hsome₁⟩ := clone_spec hs
    obtain ⟨rfl, rfl, hsome₂⟩ := cloneBlock_spec hrest
    refine ⟨(List.map_append ..).symm, rfl, fun inst hinst => ?_⟩
    exact (List.mem_append.1 hinst).elim (hsome₁ inst) (hsome₂ inst)

theorem cloneCases_spec : ∀ {cs cs' : List (ℤ × List StatementInst)} {t : List DeclareVarInst},
    cloneCases visit cs = some (t, cs') →
      t = (declarationsOfCases cs).map visit.front ∧ cs' = leaveCases visit.left cs ∧
        ∀ inst ∈ declarationsOfCases cs, (visit inst).isSome
  | [], _, _, h => by
    cases h
    exact ⟨rfl, rfl, fun _ hinst => by cases hinst⟩
  | (i, code) :: cs, cs', t, h => by
    simp only [cloneCases, Option.bind_eq_bind, Option.bind_eq_some_iff] at h
    obtain ⟨⟨t₁, code'⟩, hcode, ⟨t₂, rest⟩, hrest, heq⟩ := h
    cases heq
    obtain ⟨rfl, rfl, hsome₁⟩ := cloneBlock_spec hcode
    obtain ⟨rfl, rfl, hsome₂⟩ := cloneCases_spec hrest
    refine ⟨(List.map_append ..).symm, rfl, fun inst hinst => ?_⟩
    exact (List.mem_append.1 hinst).elim (hsome₁ inst) (hsome₂ inst)
end

end

/-- A visitor that moves declarations, or separates them from their store. -/
structure Visitor.Moves (visit : Visitor) (moves : DeclareVarInst → Bool) : Prop where
  front_type : ∀ inst, (visit.front inst).fType = inst.fType
  front_name : ∀ inst, (visit.front inst).getName = inst.getName
  moved : ∀ inst, moves inst = true → visit.left inst = .drop none
  separated : ∀ inst, (visit inst).isSome → moves inst = false →
    ∃ v, inst.fValue = some v ∧ v ≠ .intNum 0 ∧ visit.left inst = .storeVar inst.fAddress v

/-- The variables of the copy have contents of their types, and those that are moved have their
initial values as long as the block has not declared them. -/
def Fronted (moves : DeclareVarInst → Bool) (insts : List DeclareVarInst) (F m m' : Memory) :
    Prop :=
  ∀ inst ∈ insts, inst.fType.kind.Has (m' inst.getName) ∧
    (moves inst = true → m inst.getName = .undeclared → m' inst.getName = F inst.getName)

section
variable {moves : DeclareVarInst → Bool} {insts : List DeclareVarInst} {F : Memory}

theorem Fronted.update {m m' : Memory} (h : Fronted moves insts F m m') {n : String} {c d : Cell}
    (hc : c ≠ .undeclared) (hkind : SameKind (m' n) d) :
    Fronted moves insts F (Function.update m n c) (Function.update m' n d) := by
  intro inst hinst
  obtain ⟨hhas, hfront⟩ := h inst hinst
  by_cases hn : inst.getName = n
  · subst hn
    rw [Function.update_self, Function.update_self]
    exact ⟨hhas.sameKind hkind, fun _ hundeclared => absurd hundeclared hc⟩
  · rw [Function.update_of_ne hn, Function.update_of_ne hn]
    exact ⟨hhas, hfront⟩

theorem stable_fronted (hsub : ∀ inst ∈ insts, inst.getName ∈ xs) :
    Stable xs (Fronted moves insts F) := by
  constructor
  · intro m m' n c d h _ hc hkind
    exact h.update hc hkind
  · intro m m' p p' h inst hinst
    unfold keep
    rw [if_pos (hsub inst hinst), if_pos (hsub inst hinst)]
    exact h inst hinst

theorem SameKind.refl (c : Cell) : SameKind c c := by
  cases c <;> simp [SameKind]

theorem contentOnce_below {m m' : Memory} {inst : DeclareVarInst} {c : Cell}
    (hc : contentOnce ext moves F m inst = some c) (hmoves : moves inst = true)
    (hle : CellBelow (m inst.getName) (m' inst.getName))
    (hhas : inst.fType.kind.Has (m' inst.getName))
    (hfirst : m inst.getName = .undeclared → m' inst.getName = F inst.getName) :
    CellBelow c (m' inst.getName) ∧ c ≠ .undeclared := by
  obtain ⟨d, hd, rfl⟩ := Option.map_eq_some_iff.1 hc
  have hdhas := content_has hd
  split
  · next hcond =>
    refine ⟨?_, hdhas.ne_undeclared⟩
    rw [hmoves] at hcond
    obtain ⟨hF, hundeclared | hsame⟩ := hcond.resolve_left (by simp)
    · rw [hfirst hundeclared, ← hF]
      exact .refl d
    · exact hsame ▸ hle
  · exact ⟨hdhas.blank_below hhas, fun hc => hdhas.ne_undeclared (blank_eq_undeclared_iff.1 hc)⟩

/-- The store in place of a declaration gives the variable its value. -/
theorem assigned_of_content {m : Memory} {inst : DeclareVarInst} {v : ValueInst} {c d : Cell}
    (hv : inst.fValue = some v) (hzero : v ≠ .intNum 0)
    (hsized : inst.fType.sized = false) (hhas : inst.fType.kind.Has d)
    (hc : content ext m inst = some c) : assigned ext m v d = some c := by
  have hnumber : Kind.number.Has d → (v.eval ext m).map (fun w => Cell.scalar (some w)) = some c →
      assigned ext m v d = some c := by
    intro hd hc
    cases d with
    | scalar w => exact hc
    | _ => exact hd.elim
  unfold content at hc
  rw [hv] at hc
  cases htype : inst.fType with
  | kObj_ptr =>
    rw [htype] at hc hhas
    exact hnumber hhas hc
  | typed t =>
    rw [htype] at hc hhas hsized
    cases t with
    | basic t => exact hnumber hhas hc
    | array t n =>
      cases n with
      | zero =>
        cases d with
        | pointer p =>
          split at hc
          · next heq => exact absurd (Option.some.inj heq) hzero
          · next heq => exact Option.some.inj heq ▸ hc
          all_goals simp_all
        | _ => exact hhas.elim
      | succ n => cases hsized

/-- The instruction in place of a declaration gives the variable at least the values that the
declaration gives once. -/
theorem leavesFor_moved {proc : Procedures} {visit : Visitor} (hvisit : visit.Moves moves)
    {inst : DeclareVarInst} (hinst : inst ∈ insts) (hmem : inst.getName ∈ xs)
    (hsome : (visit inst).isSome)
    (hsize : inst.fType.sized = true → moves inst = true) :
    LeavesFor ext proc xs (contentOnce ext moves F) (Fronted moves insts F) visit.left inst := by
  intro m m' c k hbelow hfront hc
  obtain ⟨hhas, hfirst⟩ := hfront inst hinst
  cases hmoves : moves inst with
  | true =>
    -- nothing is done, and the variable keeps what it has
    obtain ⟨hle, hne⟩ := contentOnce_below hc hmoves (hbelow.le _) hhas (hfirst hmoves)
    refine ⟨m', by rw [hvisit.moved inst hmoves]; rfl, ?_, ?_⟩
    · have hupdate := hbelow.update hle fun hn => absurd hmem hn
      rwa [Function.update_eq_self] at hupdate
    · have hupdate := hfront.update hne (SameKind.refl (m' inst.getName))
      rwa [Function.update_eq_self] at hupdate
  | false =>
    -- the store gives the variable the value of the declaration
    obtain ⟨v, hv, hzero, hleft⟩ := hvisit.separated inst hsome hmoves
    have hcontent : content ext m inst = some c := by
      obtain ⟨d, hd, rfl⟩ := Option.map_eq_some_iff.1 hc
      rw [if_pos (.inl hmoves), hd]
    have hsized : inst.fType.sized = false := by
      by_contra hsized
      simp [hsize (by simpa using hsized)] at hmoves
    have hassigned := assigned_of_content hv hzero hsized hhas (content_below hbelow hcontent)
    have hchas := content_has hcontent
    refine ⟨Function.update m' inst.getName c, ?_, hbelow.update (.refl c) fun _ => rfl,
      hfront.update hchas.ne_undeclared ?_⟩
    · have hstore : assigned ext m' v (m' inst.fAddress.fName) = some c := hassigned
      have hlocal : inst.fAddress.fName ∈ xs := hmem
      rw [hleft]
      simp only [step, hstore, Option.bind_eq_bind, Option.bind_some, observe, if_pos hlocal]
      rfl
    · exact hhas.same hchas

end

/-- The copy performs what the block performs without the initial values. -/
theorem runs_getCode {proc : Procedures} {moves : DeclareVarInst → Bool} {visit : Visitor}
    (hvisit : visit.Moves moves) {src dst : List StatementInst} {m F F' m' : Memory}
    {es : List Event} (hcode : getCode visit src = some dst) (hnodup : (locals src).Nodup)
    (hfresh : ∀ n ∈ locals src, m n = .undeclared)
    (hsize : ∀ inst ∈ declarationsOfBlock src, inst.fType.sized = true → moves inst = true)
    (hF' : declareAll ext ((declarationsOfBlock src).map visit.front) m = some F')
    (hF : ∀ inst ∈ declarationsOfBlock src, moves inst = true →
      F' inst.getName = F inst.getName)
    (hrun : Performs (step ext proc (locals src) (contentOnce ext moves F)) (src, m) es ([], m')) :
    Runs ext proc (locals src) dst m es := by
  obtain ⟨⟨table, code⟩, hclone, hdst⟩ := Option.bind_eq_some_iff.1 hcode
  obtain ⟨rfl, rfl, hsome⟩ := cloneBlock_spec hclone
  cases hdst
  have hmem : ∀ inst ∈ declarationsOfBlock src, inst.getName ∈ locals src :=
    fun inst hinst => List.mem_map_of_mem hinst
  have hnames : ((declarationsOfBlock src).map visit.front).map DeclareVarInst.getName =
      locals src := by
    rw [List.map_map]
    exact List.map_congr_left fun inst _ => hvisit.front_name inst
  obtain ⟨hother, hcontent⟩ := declareAll_spec (hnames ▸ hnodup) hF'
  rw [hnames] at hother
  have hbelow : Below (locals src) m F' := by
    refine ⟨fun n => ?_, fun n hn => (hother n hn).symm⟩
    by_cases hn : n ∈ locals src
    · rw [hfresh n hn]
      exact .undeclared _
    · rw [hother n hn]
      exact .refl _
  have hfronted : Fronted moves (declarationsOfBlock src) F m F' := by
    intro inst hinst
    obtain ⟨m₁, hm₁⟩ := hcontent _ (List.mem_map_of_mem hinst)
    have hhas := content_has hm₁
    rw [hvisit.front_type, hvisit.front_name] at hhas
    exact ⟨hhas, fun hmoves _ => hF inst hinst hmoves⟩
  have hleft : ∀ inst ∈ declarationsOfBlock src, LeavesFor ext proc (locals src)
      (contentOnce ext moves F) (Fronted moves (declarationsOfBlock src) F) visit.left inst :=
    fun inst hinst => leavesFor_moved hvisit hinst (hmem inst hinst) (hsome inst hinst)
      (hsize inst hinst)
  have hrel : Follows (locals src) (Fronted moves (declarationsOfBlock src) F) visit.left
      (declarationsOfBlock src) (src, m) (leaveBlock visit.left src, F') :=
    ⟨rfl, List.Subset.refl _, hbelow, hfronted⟩
  obtain ⟨⟨k, m₁⟩, hperforms, hend⟩ := hrun.lockstep
    (fun _ _ _ _ hfollows hstep => step_follows (stable_fronted hmem) hleft hfollows hstep) hrel
  obtain rfl : k = [] := hend.code
  exact ⟨m₁, (performs_declareAll proc hF' _).trans hperforms⟩

/-! ## The two visitors -/

/-- All declarations are moved. -/
def MoveVariablesInFront1.moves : DeclareVarInst → Bool := fun _ => true

/-- The declarations with a number are moved, and those without a value. -/
def MoveVariablesInFront2.moves : DeclareVarInst → Bool := fun inst =>
  inst.fValue.all isNumValueInst

theorem MoveVariablesInFront1.visit_moves :
    Visitor.Moves MoveVariablesInFront1.visit MoveVariablesInFront1.moves where
  front_type _ := rfl
  front_name _ := rfl
  moved _ _ := rfl
  separated _ _ h := by simp [MoveVariablesInFront1.moves] at h

theorem MoveVariablesInFront2.visit_of_moves {inst : DeclareVarInst}
    (h : MoveVariablesInFront2.moves inst = true) :
    MoveVariablesInFront2.visit inst = some (inst, .drop none) := by
  unfold MoveVariablesInFront2.moves at h
  unfold MoveVariablesInFront2.visit
  cases hv : inst.fValue with
  | none => rfl
  | some v =>
    rw [hv] at h
    simp only [Option.all_some] at h
    simp only [if_pos h]

theorem MoveVariablesInFront2.visit_of_not_moves {inst : DeclareVarInst}
    (h : MoveVariablesInFront2.moves inst = false) :
    ∃ v, inst.fValue = some v ∧ isNumValueInst v = false ∧
      MoveVariablesInFront2.visit inst = (genTypedZero inst.fType).map fun zero =>
        ({ inst with fValue := some zero }, .storeVar inst.fAddress v) := by
  unfold MoveVariablesInFront2.moves at h
  unfold MoveVariablesInFront2.visit
  cases hv : inst.fValue with
  | none =>
    rw [hv] at h
    cases h
  | some v =>
    rw [hv] at h
    simp only [Option.all_some] at h
    refine ⟨v, rfl, h, ?_⟩
    simp only [h, Bool.false_eq_true, if_false]
    cases genTypedZero inst.fType <;> rfl

theorem MoveVariablesInFront2.visit_moves :
    Visitor.Moves MoveVariablesInFront2.visit MoveVariablesInFront2.moves := by
  have hfront : ∀ inst, (Visitor.front MoveVariablesInFront2.visit inst).fType = inst.fType ∧
      (Visitor.front MoveVariablesInFront2.visit inst).fAddress = inst.fAddress := by
    intro inst
    unfold Visitor.front
    cases hmoves : MoveVariablesInFront2.moves inst with
    | true => simp [MoveVariablesInFront2.visit_of_moves hmoves]
    | false =>
      obtain ⟨v, _, _, hvisit⟩ := MoveVariablesInFront2.visit_of_not_moves hmoves
      rw [hvisit]
      cases genTypedZero inst.fType <;> simp
  constructor
  · exact fun inst => (hfront inst).1
  · exact fun inst => congrArg NamedAddress.fName (hfront inst).2
  · intro inst hmoves
    rw [Visitor.left, MoveVariablesInFront2.visit_of_moves hmoves]
  · intro inst hsome hmoves
    obtain ⟨v, hv, hnum, hvisit⟩ := MoveVariablesInFront2.visit_of_not_moves hmoves
    refine ⟨v, hv, ?_, ?_⟩
    · rintro rfl
      cases hnum
    · rw [Visitor.left, hvisit]
      rw [hvisit, Option.isSome_map] at hsome
      obtain ⟨zero, hzero⟩ := Option.isSome_iff_exists.1 hsome
      rw [hzero]
      rfl

/-- A number is the same in all memories. -/
theorem content_of_moves {inst : DeclareVarInst} (h : MoveVariablesInFront2.moves inst = true)
    (m m' : Memory) : content ext m inst = content ext m' inst := by
  unfold MoveVariablesInFront2.moves at h
  have heval : ∀ v, inst.fValue = some v → v.eval ext m = v.eval ext m' ∧
      pointerOf ext m v = pointerOf ext m' v := by
    intro v hv
    rw [hv] at h
    cases v <;> simp only [Option.all_some, isNumValueInst, Bool.false_eq_true] at h <;>
      simp [ValueInst.eval, pointerOf]
  unfold content
  split
  · rfl
  · next hv => rw [(heval _ hv).2]
  · next t n _ _ hvalue =>
    refine declareCell_array fun hn => ?_
    cases hv : inst.fValue with
    | none => rfl
    | some v => exact (hvalue v hv hn).elim
  · rfl
  · rfl
  · next hv => rw [(heval _ hv).1]
  · next hv => rw [(heval _ hv).1]

/-- The declaration in front of a variable that is stored to later. -/
theorem exists_content_genTypedZero {inst : DeclareVarInst} {zero : ValueInst}
    (hzero : genTypedZero inst.fType = some zero) (hsized : inst.fType.sized = false)
    (m : Memory) : ∃ c, content ext m { inst with fValue := some zero } = some c := by
  obtain ⟨a, t, v⟩ := inst
  simp only at hzero hsized ⊢
  cases t with
  | kObj_ptr => cases hzero
  | typed t =>
    cases t with
    | basic t => cases t <;> cases hzero <;> exact ⟨_, rfl⟩
    | array t n =>
      cases n with
      | zero => cases t <;> cases hzero <;> exact ⟨_, rfl⟩
      | succ n => cases hsized

/-- The number declarations of `compute` have the same contents in front as among themselves. -/
theorem exists_declareAll_front {src : List StatementInst} {m F : Memory}
    (hnodup : (locals src).Nodup)
    (hsome : ∀ inst ∈ declarationsOfBlock src, (MoveVariablesInFront2.visit inst).isSome)
    (hsize : ∀ inst ∈ declarationsOfBlock src, inst.fType.sized = true →
      MoveVariablesInFront2.moves inst = true)
    (hF : declareAll ext ((declarationsOfBlock src).filter MoveVariablesInFront2.moves) m =
      some F) :
    ∃ F', declareAll ext
        ((declarationsOfBlock src).map (Visitor.front MoveVariablesInFront2.visit)) m = some F' ∧
      ∀ inst ∈ declarationsOfBlock src, MoveVariablesInFront2.moves inst = true →
        F' inst.getName = F inst.getName := by
  have hfilter : (((declarationsOfBlock src).filter MoveVariablesInFront2.moves).map
      DeclareVarInst.getName).Nodup := hnodup.sublist (List.filter_sublist.map _)
  have hcontent := (declareAll_spec hfilter hF).2
  have hfront : ∀ inst, MoveVariablesInFront2.moves inst = true →
      Visitor.front MoveVariablesInFront2.visit inst = inst := by
    intro inst hmoves
    rw [Visitor.front, MoveVariablesInFront2.visit_of_moves hmoves]
  have hnames : ((declarationsOfBlock src).map (Visitor.front MoveVariablesInFront2.visit)).map
      DeclareVarInst.getName = locals src := by
    rw [List.map_map]
    exact List.map_congr_left fun inst _ => MoveVariablesInFront2.visit_moves.front_name inst
  obtain ⟨F', hF'⟩ : ∃ F', declareAll ext
      ((declarationsOfBlock src).map (Visitor.front MoveVariablesInFront2.visit)) m = some F' := by
    apply exists_declareAll
    intro d hd m₁
    obtain ⟨inst, hinst, rfl⟩ := List.mem_map.1 hd
    cases hmoves : MoveVariablesInFront2.moves inst with
    | true =>
      obtain ⟨m₂, hm₂⟩ := hcontent inst (List.mem_filter.2 ⟨hinst, hmoves⟩)
      rw [hfront inst hmoves, content_of_moves hmoves m₁ m₂]
      exact ⟨_, hm₂⟩
    | false =>
      obtain ⟨v, _, _, hvisit⟩ := MoveVariablesInFront2.visit_of_not_moves hmoves
      have hzero := hsome inst hinst
      rw [hvisit, Option.isSome_map] at hzero
      obtain ⟨zero, hzero⟩ := Option.isSome_iff_exists.1 hzero
      rw [Visitor.front, hvisit, hzero]
      have hsized : inst.fType.sized = false := by
        by_contra hsized
        simp [hsize inst hinst (by simpa using hsized)] at hmoves
      exact exists_content_genTypedZero hzero hsized m₁
  refine ⟨F', hF', fun inst hinst hmoves => ?_⟩
  obtain ⟨m₂, hm₂⟩ := hcontent inst (List.mem_filter.2 ⟨hinst, hmoves⟩)
  obtain ⟨m₃, hm₃⟩ := (declareAll_spec (hnames ▸ hnodup) hF').2 _ (List.mem_map_of_mem hinst)
  rw [hfront inst hmoves, content_of_moves hmoves m₃ m₂, hm₂] at hm₃
  exact (Option.some.inj hm₃).symm

/-- A block whose initial values are used once performs the same after the declarations have been
moved: all of them when an instance is initialised, and in `compute` those with a number, where no
array is declared with other values. -/
theorem move_variables {proc : Procedures} {src dst : List StatementInst} {m : Memory}
    {es : List Event} (hnodup : (locals src).Nodup)
    (hfresh : ∀ n ∈ locals src, m n = .undeclared)
    (hrun : Runs ext proc (locals src) src m es) :
    (getCode MoveVariablesInFront1.visit src = some dst →
      UsesOnce ext proc MoveVariablesInFront1.moves src m →
        Runs ext proc (locals src) dst m es) ∧
    (getCode MoveVariablesInFront2.visit src = some dst →
      UsesOnce ext proc MoveVariablesInFront2.moves src m →
      (∀ inst ∈ declarationsOfBlock src, inst.fType.sized = true →
        MoveVariablesInFront2.moves inst = true) →
        Runs ext proc (locals src) dst m es) := by
  obtain ⟨m₁, hm₁⟩ := hrun
  have hsame : ∀ {moves F es' m'}, Performs (step ext proc (locals src)
      (contentOnce ext moves F)) (src, m) es' ([], m') → es' = es := by
    intro moves F es' m' h
    obtain ⟨m₂, hm₂⟩ := performs_of_usesOnce h
    exact (hm₂.unique rfl hm₁ rfl).1
  constructor
  · intro hcode ⟨F, hF, es', m', h⟩
    obtain rfl := hsame h
    have hmap : (declarationsOfBlock src).map (Visitor.front MoveVariablesInFront1.visit) =
        (declarationsOfBlock src).filter MoveVariablesInFront1.moves := by
      calc
        _ = declarationsOfBlock src := List.map_id _
        _ = _ := (List.filter_eq_self.2 fun _ _ => rfl).symm
    exact runs_getCode MoveVariablesInFront1.visit_moves hcode hnodup hfresh
      (fun _ _ _ => rfl) (hmap ▸ hF) (fun _ _ _ => rfl) h
  · intro hcode ⟨F, hF, es', m', h⟩ hsize
    obtain rfl := hsame h
    obtain ⟨⟨table, code⟩, hclone, _⟩ := Option.bind_eq_some_iff.1 hcode
    obtain ⟨F', hF', heq⟩ :=
      exists_declareAll_front hnodup (cloneBlock_spec hclone).2.2 hsize hF
    exact runs_getCode MoveVariablesInFront2.visit_moves hcode hnodup hfresh hsize hF' heq h

/-! ## Blocks that are computed -/

section
open InstBuilder

theorem exists_performs {proc : Procedures} {contents : Memory → DeclareVarInst → Option Cell}
    {src : List StatementInst} {m : Memory} {es : List Event} (fuel : ℕ)
    (h : (perform (step ext proc xs contents) fuel (src, m)).map
      (fun r => (r.1, r.2.1.isEmpty)) = some (es, true)) :
    ∃ m', Performs (step ext proc xs contents) (src, m) es ([], m') := by
  obtain ⟨⟨fs, k, m'⟩, hr, heq⟩ := Option.map_eq_some_iff.1 h
  simp only [Prod.mk.injEq, List.isEmpty_iff] at heq
  obtain ⟨rfl, rfl⟩ := heq
  exact ⟨m', (Performs.of_perform hr).1⟩

theorem usesOnce_of_perform {proc : Procedures} {moves : DeclareVarInst → Bool}
    {src : List StatementInst} {m : Memory} (es : List Event) (fuel : ℕ)
    (h : (declareAll ext ((declarationsOfBlock src).filter moves) m).bind (fun F =>
      (perform (step ext proc (locals src) (contentOnce ext moves F)) fuel (src, m)).map
        fun r => (r.1, r.2.1.isEmpty)) = some (es, true)) :
    UsesOnce ext proc moves src m := by
  obtain ⟨F, hF, hrun⟩ := Option.bind_eq_some_iff.1 h
  exact ⟨F, hF, es, exists_performs fuel hrun⟩

/-- `for (int index = 0; index < count; index = index + 1)`. -/
def countLoop (index count : String) (code : List StatementInst) : StatementInst :=
  .forLoop (.declareVar ⟨⟨index, .kLoop⟩, .typed (.basic .kInt), some (.intNum 0)⟩)
    (.binop .kLT (genLoadLoopVar index) (genLoadFunArgsVar count))
    (.storeVar ⟨index, .kLoop⟩ (genAdd (genLoadLoopVar index) (.intNum 1))) code

/-- `FAUSTFLOAT* name = channels[0];`. -/
def channel (name channels : String) : StatementInst :=
  .declareVar ⟨⟨name, .kStack⟩, .typed (.array .kFloatMacro 0),
    some (.loadArrayVar ⟨channels, .kFunArgs⟩ (.intNum 0))⟩

/-- `input0[i]`. -/
def inputSample : ValueInst :=
  .castNum (genLoadArrayStackVar "input0" (genLoadLoopVar "i")) .kFloat

/-- The block of `compute` for `_ <: select2(_ > 0, _ + 1, _ * 2)`. -/
def selectBlock : List StatementInst :=
  [channel "input0" "inputs", channel "output0" "outputs",
    countLoop "i" "count"
      [.declareVar ⟨⟨"fTemp0", .kStack⟩, .typed (.basic .kFloat), some inputSample⟩,
        .declareVar ⟨⟨"fSel0", .kStack⟩, .typed (.basic .kFloat), some (.realNum .kFloat 0)⟩,
        .ifInst (.binop .kNE (.binop .kGT (genLoadStackVar "fTemp0") (.intNum 0)) (.intNum 0))
          [.storeVar ⟨"fSel0", .kStack⟩ (.binop .kMul (.realNum .kFloat 2)
            (genLoadStackVar "fTemp0"))]
          [.storeVar ⟨"fSel0", .kStack⟩ (genAdd (.realNum .kFloat 1)
            (genLoadStackVar "fTemp0"))],
        .storeArrayVar ⟨"output0", .kStack⟩ (genLoadLoopVar "i")
          (.castNum (genLoadStackVar "fSel0") .kFloatMacro)]]

/-- The block that initialises an instance with a table and a delay line. -/
def initBlock : List StatementInst :=
  [.declareVar ⟨⟨"sig0", .kStack⟩, .kObj_ptr, some (.funCall "newmydspSIG0" [])⟩,
    .drop (some (.funCall "fillmydspSIG0" [genLoadStackVar "sig0", .intNum 2,
      genLoadStructVar "ftbl0"])),
    .storeVar ⟨"IOTA", .kStruct⟩ (.intNum 0),
    countLoop "i0" "count" [.storeArrayVar ⟨"fVec0", .kStruct⟩ (genLoadLoopVar "i0")
      (genLoadArrayStructVar "ftbl0" (.intNum 1))]]

/-- Two samples, with a table and a delay line. -/
def twoSamples : Memory := fun n =>
  if n = "count" then .scalar (some (.int 2))
  else if n = "inputs" then .pointers [("in", 0)]
  else if n = "outputs" then .pointers [("out", 0)]
  else if n = "in" then .array [some (.real 1), some (.real 0)]
  else if n = "out" then .array [none, none]
  else if n = "ftbl0" then .array [none, none]
  else if n = "fVec0" then .array [some (.real 0), some (.real 0), some (.real 0), some (.real 0)]
  else if n = "IOTA" then .scalar none
  else .undeclared

/-- `newmydspSIG0`. -/
def newObject : ExternFun := fun f _ => if f = "newmydspSIG0" then some (.int 1) else none

/-- `fillmydspSIG0`. -/
def fillTable : Procedures := fun f _ m =>
  if f = "fillmydspSIG0" then
    some (Function.update m "ftbl0" (.array [some (.real 5), some (.real 7)]))
  else none

/-- What the block of initialisation performs. -/
def initEvents : List Event :=
  [.call "fillmydspSIG0" [.val (.int 1), .val (.int 2), .pointer "ftbl0" 0],
    .store "IOTA" (.scalar (some (.int 0))), .storeArray "fVec0" 0 (.real 7),
    .storeArray "fVec0" 1 (.real 7)]

/-- What the block of `compute` performs. -/
def selectEvents : List Event := [.storeArray "out" 0 (.real 2), .storeArray "out" 1 (.real 1)]

theorem move_variables_select :
    (∃ dst, getCode MoveVariablesInFront1.visit initBlock = some dst ∧
      Runs newObject fillTable (locals initBlock) dst twoSamples initEvents) ∧
    ∃ dst, getCode MoveVariablesInFront2.visit selectBlock = some dst ∧
      Runs newObject fillTable (locals selectBlock) dst twoSamples selectEvents := by
  constructor
  · exact ⟨_, rfl, (move_variables (by decide) (by decide)
      (exists_performs 40 (by decide +kernel))).1 rfl
        (usesOnce_of_perform initEvents 40 (by decide +kernel))⟩
  · exact ⟨_, rfl, (move_variables (by decide) (by decide)
      (exists_performs 60 (by decide +kernel))).2 rfl
        (usesOnce_of_perform selectEvents 60 (by decide +kernel)) (by decide +kernel)⟩

/-- The block of `compute` for `@(3)`. -/
def shiftBlock : List StatementInst :=
  [channel "input0" "inputs", channel "output0" "outputs",
    countLoop "i" "count"
      [.storeArrayVar ⟨"fVec0", .kStruct⟩ (.intNum 0) inputSample,
        .storeArrayVar ⟨"output0", .kStack⟩ (genLoadLoopVar "i")
          (.castNum (genLoadArrayStructVar "fVec0" (.intNum 3)) .kFloatMacro),
        .forLoop (.declareVar ⟨⟨"j0", .kLoop⟩, .typed (.basic .kInt), some (.intNum 3)⟩)
          (.binop .kGT (genLoadLoopVar "j0") (.intNum 0))
          (.storeVar ⟨"j0", .kLoop⟩ (genSub (genLoadLoopVar "j0") (.intNum 1)))
          [.storeArrayVar ⟨"fVec0", .kStruct⟩ (genLoadLoopVar "j0")
            (genLoadArrayStructVar "fVec0" (genSub (genLoadLoopVar "j0") (.intNum 1)))]]]

/-- The first sample of the block. -/
def firstShift : List Event :=
  [.storeArray "fVec0" 0 (.real 1), .storeArray "out" 0 (.real 0),
    .storeArray "fVec0" 3 (.real 0), .storeArray "fVec0" 2 (.real 0),
    .storeArray "fVec0" 1 (.real 1)]

/-- The second sample, before the delay line is shifted. -/
def secondSample : List Event :=
  [.storeArray "fVec0" 0 (.real 0), .storeArray "out" 1 (.real 0)]

/-- The delay line is not shifted at the second sample, as the index of the loop is still 0. -/
theorem not_move_variables_shift :
    ¬ ∀ src dst m es, (locals src).Nodup → (∀ n ∈ locals src, m n = .undeclared) →
      Runs newObject fillTable (locals src) src m es →
        (getCode MoveVariablesInFront1.visit src = some dst →
          Runs newObject fillTable (locals src) dst m es) ∧
        (getCode MoveVariablesInFront2.visit src = some dst →
          Runs newObject fillTable (locals src) dst m es) := by
  intro hall
  obtain ⟨dst, hdst, m₂, hless⟩ : ∃ dst, getCode MoveVariablesInFront2.visit shiftBlock = some dst ∧
      Runs newObject fillTable (locals shiftBlock) dst twoSamples (firstShift ++ secondSample) :=
    ⟨_, rfl, exists_performs 80 (by decide +kernel)⟩
  obtain ⟨m₁, hmoved⟩ := (hall shiftBlock dst twoSamples (firstShift ++ secondSample ++
    [.storeArray "fVec0" 3 (.real 0), .storeArray "fVec0" 2 (.real 1),
      .storeArray "fVec0" 1 (.real 0)]) (by decide) (by decide)
    (exists_performs 80 (by decide +kernel))).2 hdst
  have heq := (hless.unique rfl hmoved rfl).1
  simp [firstShift] at heq

end

end Faust.Fir.AsmJs
