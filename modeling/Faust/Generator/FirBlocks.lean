import Faust.Generator.MoveVariables

/-!
# FIR blocks as blocks of a function

The instructions that the visitors of asm.js move have more forms than those of the code generators:
objects and functions called for their effect. A FIR block is such a block, and it is executed in the
same way, with the stores that it makes as events.
-/

namespace Faust.Fir.AsmJs

mutual
/-- A FIR statement. -/
def ofStatement : Fir.StatementInst → StatementInst
  | .declareVar a t v => .declareVar ⟨a, .typed t, v⟩
  | .storeVar a v => .storeVar a v
  | .storeArrayVar a i v => .storeArrayVar a i v
  | .block code => .block (ofBlock code)
  | .ifInst c x y => .ifInst c (ofBlock x) (ofBlock y)
  | .forLoop init e inc code => .forLoop (ofStatement init) e (ofStatement inc) (ofBlock code)
  | .whileLoop c code => .whileLoop c (ofBlock code)
  | .switch c cases => .switch c (ofCases cases)

/-- A FIR block. -/
def ofBlock : List Fir.StatementInst → List StatementInst
  | [] => []
  | s :: ss => ofStatement s :: ofBlock ss

/-- The blocks of a `switch`. -/
def ofCases : List (ℤ × List Fir.StatementInst) → List (ℤ × List StatementInst)
  | [] => []
  | (i, code) :: cases => (i, ofBlock code) :: ofCases cases
end

@[simp] theorem ofBlock_append (a b : List Fir.StatementInst) :
    ofBlock (a ++ b) = ofBlock a ++ ofBlock b := by
  induction a with
  | nil => rfl
  | cons s ss ih => rw [List.cons_append, ofBlock, ofBlock, ih, List.cons_append]

theorem ofCases_eq_map (cases : List (ℤ × List Fir.StatementInst)) :
    ofCases cases = cases.map fun c => (c.1, ofBlock c.2) := by
  induction cases with
  | nil => rfl
  | cons c cases ih => rw [ofCases, ih, List.map_cons]

theorem selectCase_ofCases (i : ℤ) (cases : List (ℤ × List Fir.StatementInst)) :
    selectCase i (ofCases cases) = ofBlock (selectCase i cases) := by
  rw [ofCases_eq_map]
  exact selectCase_map ofBlock.eq_1 i cases

section
variable (ext : ExternFun)

/-- The pointer that a statement assigns, if it assigns one, is to an array. -/
def Points (m : Memory) : Fir.StatementInst → Prop
  | .declareVar _ _ (some v) | .storeVar _ v =>
    ∀ p, v.evalPointer ext m = some p → pointerOf ext m v = some p
  | _ => True

variable {ext} {proc : Procedures} {xs : List String} {m m' : Memory}

theorem content_eq {a : NamedAddress} {t : Typed} {v : Option ValueInst} {c : Cell}
    (hp : Points ext m (.declareVar a t v)) (h : declareCell ext m t v = some c) :
    content ext m ⟨a, .typed t, v⟩ = some c := by
  cases t with
  | basic t => cases v <;> exact h
  | array t n =>
    cases n with
    | succ n => exact h
    | zero =>
      cases v with
      | none => exact h
      | some v =>
        obtain ⟨p, hv, rfl⟩ := Option.map_eq_some_iff.1 h
        have hpointer : (pointerOf ext m v).map (fun p => Cell.pointer (some p)) =
            some (.pointer (some p)) := by rw [hp p hv]; rfl
        cases v with
        | intNum => cases hv
        | _ => exact hpointer

theorem assigned_eq {a : NamedAddress} {v : ValueInst} {c d : Cell}
    (hp : Points ext m (.storeVar a v)) (h : storeCell ext m v d = some c) :
    assigned ext m v d = some c := by
  cases d with
  | pointer q =>
    obtain ⟨p, hv, rfl⟩ := Option.map_eq_some_iff.1 h
    show (pointerOf ext m v).map _ = _
    rw [hp p hv]
    rfl
  | _ => exact h

/-- A step of a FIR block. -/
theorem step_ofBlock {s : Fir.StatementInst} {k ss : List Fir.StatementInst}
    (hp : Points ext m s) (h : Fir.step ext (s :: k, m) = some (ss, m')) :
    ∃ es, step ext proc xs (content ext) (ofBlock (s :: k), m) = some (es, ofBlock ss, m') := by
  rw [ofBlock]
  cases s with
  | declareVar a t v =>
    simp only [Fir.step, Option.pure_def, Option.bind_eq_bind, Option.bind_eq_some_iff] at h
    obtain ⟨c, hc, heq⟩ := h
    cases heq
    exact ⟨[], by simp [step, ofStatement, content_eq hp hc, DeclareVarInst.getName]⟩
  | storeVar a v =>
    simp only [Fir.step, Option.pure_def, Option.bind_eq_bind, Option.bind_eq_some_iff] at h
    obtain ⟨c, hc, heq⟩ := h
    cases heq
    exact ⟨_, by simp only [step, ofStatement, assigned_eq hp hc]; rfl⟩
  | storeArrayVar a i v =>
    simp only [Fir.step] at h
    split at h
    · next b w hi hv =>
      obtain ⟨m₁, hstore, heq⟩ := Option.map_eq_some_iff.1 h
      cases heq
      exact ⟨_, by simp only [step, ofStatement, hi, hv, hstore]; rfl⟩
    · cases h
  | block code =>
    cases h
    exact ⟨[], by simp [step, ofStatement]⟩
  | ifInst c x y =>
    simp only [Fir.step, Option.pure_def, Option.bind_eq_bind, Option.bind_eq_some_iff] at h
    obtain ⟨v, hv, heq⟩ := h
    cases heq
    refine ⟨[], ?_⟩
    cases ht : v.truth <;> simp [step, ofStatement, hv, ht]
  | forLoop init e inc code =>
    cases h
    exact ⟨[], by simp [step, ofStatement, ofBlock]⟩
  | whileLoop c code =>
    simp only [Fir.step, Option.pure_def, Option.bind_eq_bind, Option.bind_eq_some_iff] at h
    obtain ⟨v, hv, heq⟩ := h
    cases heq
    refine ⟨[], ?_⟩
    cases ht : v.truth <;> simp [step, ofStatement, ofBlock, hv, ht]
  | switch c cases =>
    simp only [Fir.step] at h
    split at h
    · next b hb =>
      cases h
      exact ⟨[], by simp [step, ofStatement, hb, selectCase_ofCases]⟩
    · cases h

/-- All pointers that are assigned on the way from a configuration are to arrays. -/
def PointsFrom (ext : ExternFun) (c : Fir.Config) : Prop :=
  ∀ d, Fir.Steps ext c d → ∀ s ∈ d.1.head?, Points ext d.2 s

theorem performs_ofBlock {c c' : Fir.Config} (hp : PointsFrom ext c) (h : Fir.Steps ext c c') :
    ∃ es, Traces.Performs (step ext proc xs (content ext)) (ofBlock c.1, c.2) es
      (ofBlock c'.1, c'.2) := by
  induction h using Relation.ReflTransGen.head_induction_on with
  | refl => exact ⟨[], .refl _⟩
  | @head c c₁ hstep hrest ih =>
    obtain ⟨ss, m⟩ := c
    obtain ⟨es, hes⟩ := ih fun d hd => hp d (hd.head hstep)
    cases ss with
    | nil => cases hstep
    | cons s k =>
      have hfirst : ∃ fs, step ext proc xs (content ext) (ofBlock (s :: k), m) =
          some (fs, ofBlock c₁.1, c₁.2) := step_ofBlock (hp _ .refl s rfl) hstep
      obtain ⟨fs, hfs⟩ := hfirst
      exact ⟨fs ++ es, .head hfs hes⟩

/-- A FIR block runs as a block of a function. -/
theorem runs_ofBlock {ss : List Fir.StatementInst} (hp : PointsFrom ext (ss, m))
    (h : Fir.Runs ext ss m m') : ∃ es, Runs ext proc xs (ofBlock ss) m es := by
  obtain ⟨es, hes⟩ := performs_ofBlock hp h
  exact ⟨es, m', hes⟩

end

end Faust.Fir.AsmJs
