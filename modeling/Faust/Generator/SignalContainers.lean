import Faust.Generator.SignalCompilerTheorems
import Mathlib.Algebra.Order.BigOperators.Group.List

/-!
# The vectors of delayed signals, in a program

A program is compiled when all that it uses delayed can be used delayed, in its container and in
those of the contents of its tables, and when an in-place code uses all its inputs.
-/

namespace Faust.Codegen

open Faust.Tree Faust.Fir Outcome
open Faust.Occ hiding isSigGen
open Shape

variable {root : Tree}

/-! ## Graphs that are accepted -/

theorem reached_of_listElements {g : Graph} {l t : Tree} (hl : Reached g root l)
    (ht : t ∈ listElements l) : Reached g root t := by
  induction l using Tree.induction with
  | h n br ih =>
    unfold listElements at ht
    split at ht
    · next hd tl heq =>
      obtain ⟨rfl, rfl⟩ := Tree.node.inj heq
      have hchildren : children g (.node (.sym .cons) [hd, tl]) = [hd, tl] := rfl
      rcases List.mem_cons.1 ht with rfl | ht
      · exact .child hl (by rw [hchildren]; simp)
      · exact ih tl (by simp) (.child hl (by rw [hchildren]; simp)) ht
    · simp at ht

/-- The definitions of a group are signals of the graph. -/
theorem reached_of_isRec {g : Graph} {r : Tree} {le : List Tree} (hr : Reached g root r)
    (hle : isRec g r = some le) {t : Tree} (ht : t ∈ le) : Reached g root t := by
  unfold isRec at hle
  split at hle
  · next v =>
    obtain ⟨d, hd, rfl⟩ := Option.map_eq_some_iff.1 hle
    apply reached_of_listElements (l := d.2) _ ht
    apply Reached.child hr
    have hchildren : children g (.node (.sym .symRec) [v]) = [d.2] := by
      rw [children, if_neg (by simp [Occ.isSigGen, label]), Graph.getSubSignals, hd]
      rfl
    rw [hchildren]
    exact List.mem_singleton_self _
  · simp at hle

section
variable {g : Graph} {c : Container} {o : Options} {marks : Marks} {sharing : Sharing}
  {sub : Tree → Except Failure Unit}

theorem Accepted.reached_of_below (h : Accepted g c) {t r : Tree} (hb : Below g t r)
    (ht : Reached g c.root t) : Reached g c.root r := by
  induction hb with
  | self _ => exact ht
  | child hn hss hs _ ih =>
    obtain ⟨ss', hss', hsub⟩ := subSignals_of_reached ht (h.prepared.recognized _ ht) hn
    obtain rfl := Option.some.inj (hss.symm.trans hss')
    exact ih (hsub _ hs).1

theorem Accepted.dispatch (h : Accepted g c) {t : Tree} (ht : Reached g c.root t)
    {call : Call} (hc : dispatch t = some call) :
    call.checks g t ∧ ∀ u ∈ call.subsignals, (Codegen.dispatch u).isSome := by
  have hf := h.formed t ht
  simp only [wellFormed, hc, Bool.and_eq_true, List.all_eq_true] at hf
  exact hf.1

/-- What is compiled is in the graph, and recognized. -/
theorem Accepted.compiled (h : Accepted g c) (hin : InputsUsed o.gInPlace g c)
    (hmarks : ∀ t, (marks t).isSome ↔ Reached g c.root t) {t : Tree}
    (ht : Compiled (c.context o g marks sharing sub) (c.signals o.gInPlace) t) :
    Reached g c.root t ∧ (Codegen.dispatch t).isSome := by
  have hgroup : ∀ {u r}, Reached g c.root u → Enters (c.context o g marks sharing sub) u r →
      Reached g c.root r := by
    intro u r hu hr
    by_cases hv : c.vectorMode = true
    · rw [Enters, if_pos (by exact hv)] at hr
      exact h.reached_of_below hr hu
    · rw [Enters, if_neg (by exact hv)] at hr
      obtain ⟨i, hi⟩ := hr
      have hchecks := (h.dispatch hu hi).1
      have hsig : u = sigProj i r := by
        simp only [Call.checks] at hchecks
        split at hchecks
        · simp only [Bool.and_eq_true, decide_eq_true_eq] at hchecks
          exact hchecks.2
        · simp at hchecks
      apply Reached.child hu
      rw [hsig]
      exact List.mem_singleton_self _
  have hdefs : ∀ {r d}, Reached g c.root r →
      d ∈ definitionsOf (c.context o g marks sharing sub) r →
        (Reached g c.root d.1 ∧ (Codegen.dispatch d.1).isSome) ∧
          (marks (sigProj d.2 r)).isSome := by
    intro r d hr hd
    obtain ⟨le, hle⟩ := Option.isSome_iff_exists.1 (isRec_of_mem_definitionsOf hd)
    have hle : isRec g r = some le := hle
    have hused : d ∈ usedDefinitions (c.context o g marks sharing sub) r le := by
      rw [definitionsOf] at hd
      simpa only [show (c.context o g marks sharing sub).graph = g from rfl, hle,
        Option.map_some, Option.getD_some] using hd
    obtain ⟨hmem, hmark⟩ := List.mem_filter.1 hused
    have hmem : d.1 ∈ le := List.mem_of_getElem? (List.mem_zipIdx_iff_getElem?.1 hmem)
    have hf := h.formed r hr
    simp only [wellFormed, hle, Bool.and_eq_true, List.all_eq_true] at hf
    exact ⟨⟨reached_of_isRec hr hle hmem, hf.2 _ hmem⟩, hmark⟩
  induction ht with
  | @signal t ht =>
    rcases List.mem_append.1 ht with ht | ht
    · split at ht
      · next hplace =>
        obtain ⟨i, hi, rfl⟩ := List.mem_map.1 ht
        exact ⟨hin hplace.1 (by simpa using hplace.2) i (List.mem_range.1 hi), rfl⟩
      · simp at ht
    · exact ⟨.output ht, h.signals t ht⟩
  | @operand u t call hu hc ht ih =>
    have hsub := operands_subset call ht
    obtain ⟨ss, hss, hmem⟩ := mem_getSubSignals_of_dispatch hc hsub
    obtain ⟨ss', hss', hreach⟩ := subSignals_of_reached ih.1 (h.prepared.recognized _ ih.1)
      (isRec_of_dispatch hc)
    obtain rfl := Option.some.inj (hss.symm.trans hss')
    exact ⟨(hreach t hmem).1, (h.dispatch ih.1 hc).2 t hsub⟩
  | definition hu hr hd ih => exact (hdefs (hgroup ih.1 hr) hd).1
  | projection hu hr hd ih => exact ⟨(hmarks _).1 (hdefs (hgroup ih.1 hr) hd).2, rfl⟩

/-! ## Containers -/

/-- How the content of a table is compiled does not change what is compiled. -/
theorem Compiled.of_context {sub' : Tree → Except Failure Unit} {t : Tree}
    (h : Compiled (c.context o g marks sharing sub) (c.signals o.gInPlace) t) :
    Compiled (c.context o g marks sharing sub') (c.signals o.gInPlace) t := by
  induction h with
  | signal h => exact .signal h
  | operand _ hc ht ih => exact .operand ih hc ht
  | definition _ hr hd ih => exact .definition ih hr hd
  | projection _ hr hd ih => exact .projection ih hr hd

theorem Annotates.unique {marks' : Marks} {sharing' : Sharing}
    (h : Annotates g c marks sharing) (h' : Annotates g c marks' sharing') :
    marks = marks' ∧ sharing = sharing' := by
  obtain ⟨n, hn⟩ := h.marks
  obtain ⟨n', hn'⟩ := h'.marks
  obtain ⟨k, hk⟩ := h.sharing
  obtain ⟨k', hk'⟩ := h'.sharing
  constructor
  · have heq := (hn _ (le_max_left n n')).symm.trans (hn' _ (le_max_right n n'))
    exact Except.ok.inj heq
  · have heq := (hk _ (le_max_left k k')).symm.trans (hk' _ (le_max_right k k'))
    exact Except.ok.inj heq

/-- How the contents of tables are compiled. -/
def compileContent (o : Options) (g : Graph) (fuel depth : ℕ) (content : Tree) :
    Except Failure Unit := do
  let _ ← compileSignals o g fuel depth (createScalarContainer content)
  return

theorem compileSignals_eq {fuel : ℕ} (depth : ℕ) (hm : mark g fuel c.root = .ok marks)
    (hs : sharingAnalysis g fuel c.root = .ok sharing) :
    compileSignals o g fuel (depth + 1) c =
      ((c.signals o.gInPlace).mapM (CS (c.context o g marks sharing
        (compileContent o g fuel depth)) fuel) .start).map Prod.snd := by
  rw [compileSignals, hm, hs]
  show ((c.signals o.gInPlace).mapM (CS (c.context o g marks sharing
    (compileContent o g fuel depth)) fuel) .start >>= fun p => pure p.2) = _
  cases (c.signals o.gInPlace).mapM (CS (c.context o g marks sharing
    (compileContent o g fuel depth)) fuel) .start <;> rfl

/-- The sizes of the signals of a graph are below this. -/
def sizeBound (g : Graph) (root : Tree) : ℕ := ((treesOf g root).map Tree.size).sum

theorem mem_treesOf_reached {t : Tree} (ht : Reached g root t) : t ∈ treesOf g root := by
  induction ht with
  | output h => exact mem_treesOf_outputs h
  | child _ h ih => exact mem_treesOf_children ih h

theorem size_le_sizeBound {t : Tree} (ht : Reached g root t) : t.size ≤ sizeBound g root :=
  List.single_le_sum (by simp) _ (List.mem_map_of_mem (mem_treesOf_reached ht))

/-- The annotations that the analyses leave. -/
structure Annotated (g : Graph) (c : Container) (marks : Marks) (sharing : Sharing) : Prop where
  annotates : Annotates g c marks sharing
  marked : ∀ t, (marks t).isSome ↔ Reached g c.root t
  shared : ∀ t, Reached g c.root t → 0 < getSharingCount sharing t

theorem Accepted.annotated (h : Accepted g c) : ∃ marks sharing, Annotated g c marks sharing := by
  obtain ⟨marks, hmarks, hdom, _⟩ := mark_analysed h.prepared
  obtain ⟨sharing, hsharing, hcount⟩ := sharingAnalysis_analysed h.prepared
  exact ⟨marks, sharing, ⟨hmarks, hsharing⟩, hdom, fun t ht => (hcount t ht).1⟩

theorem Accepted.ready (h : Accepted g c) (ha : Annotated g c marks sharing)
    {signals : List Tree} (hcompiled : ∀ t, Compiled (c.context o g marks sharing sub) signals t →
      Reached g c.root t ∧ (Codegen.dispatch t).isSome)
    (hcontents : ∀ t s, Compiled (c.context o g marks sharing sub) signals t →
      Codegen.dispatch t = some (.generateSigGen s) → sub s = .ok ()) :
    Ready (c.context o g marks sharing sub) signals c.root (sizeBound g c.root) where
  call t ht := by
    obtain ⟨hreach, hsome⟩ := hcompiled t ht
    obtain ⟨call, hcall⟩ := Option.isSome_iff_exists.1 hsome
    exact ⟨call, hcall, (h.dispatch hreach hcall).1⟩
  reached t ht := (hcompiled t ht).1
  recognized := h.prepared.recognized
  marked t ht := (ha.marked t).2 ht
  shared := ha.shared
  size t ht := size_le_sizeBound ht
  contents := hcontents

/-! ## Inputs that are not used -/

/-- What is compiled for the first inputs. -/
theorem Compiled.input {ctx : Context} (hv : ctx.vectorMode = false) {k : ℕ} {t : Tree}
    (h : Compiled ctx ((List.range k).map fun i : ℕ => sigInput i) t) :
    ∃ i < k, t = sigInput i := by
  have hgroup : ∀ {u r}, (∃ i < k, u = sigInput i) → ¬ Enters ctx u r := by
    intro u r hu hr
    obtain ⟨i, _, rfl⟩ := hu
    rw [Enters, if_neg (by simp [hv])] at hr
    obtain ⟨j, hj⟩ := hr
    cases hj
  induction h with
  | signal h =>
    obtain ⟨i, hi, rfl⟩ := List.mem_map.1 h
    exact ⟨i, List.mem_range.1 hi, rfl⟩
  | operand _ hc ht ih =>
    obtain ⟨i, _, rfl⟩ := ih
    obtain rfl := Option.some.inj hc
    simp [Call.operands, Call.subsignals] at ht
  | definition _ hr _ ih => exact absurd hr (hgroup ih)
  | projection _ hr _ ih => exact absurd hr (hgroup ih)

theorem sigInput_injective {i j : ℤ} (h : sigInput i = sigInput j) : i = j := by
  simpa [sigInput, leaf] using h

/-- What has no code yet is compiled. -/
theorem ends_getCompiledExpression_none {t : Tree} {σ : Compiler} {f : M ValueInst}
    (hnone : σ.fCompileProperty t = none) (hf : Ends f σ (fun _ => True) fun _ _ => False) :
    Ends (getCompiledExpression t >>= fun code =>
      match code with
      | some code => pure code
      | _ => f) σ (fun _ => True) fun _ _ => False := by
  apply Ends.bind (ends_getCompiledExpression (Q := fun a σ₁ => a = none ∧ σ₁ = σ) ⟨hnone, rfl⟩)
  rintro a σ₁ ⟨rfl, rfl⟩
  exact hf

/-- An input without occurrences is not compiled. -/
theorem ends_CS_input {ctx : Context} (hv : ctx.vectorMode = false) (hp : ctx.gInPlace = true)
    {i : ℤ} (hm : ctx.marks (sigInput i) = none) {σ : Compiler} (hσ : ¬ σ.Coded (sigInput i))
    (fuel : ℕ) : Ends (CS ctx (fuel + 1) (sigInput i)) σ (fun _ => True) fun _ _ => False := by
  have hnone : σ.fCompileProperty (sigInput i) = none := Option.not_isSome_iff_eq_none.1 hσ
  rw [CS]
  apply ends_getCompiledExpression_none hnone
  rw [if_neg (by simp [hv])]
  apply Ends.bind (Q := fun _ _ => False) _ fun _ _ h => h.elim
  unfold generateCode
  apply ends_getCompiledExpression_none hnone
  show Ends (generateInput ctx (sigInput i)) σ _ _
  unfold generateInput
  apply Ends.bind (quiet_buildCode _ _).ends
  intro res σ₁ h₁
  rw [if_pos ⟨hp, by simp [hv]⟩]
  unfold forceCacheCode
  apply ends_getCompiledExpression_none (by rw [h₁.1, hnone])
  apply Ends.bind (Q := fun _ _ => False) _ fun _ _ h => h.elim
  rw [getMaxDelay, hm]
  exact .throw trivial

/-- An in-place code that does not use all its inputs is not compiled. -/
theorem Accepted.not_compiled (h : Accepted g c) (ha : Annotated g c marks sharing)
    (hin : ¬ InputsUsed o.gInPlace g c) {fuel : ℕ}
    (hfuel : g.recDefs.length * (sizeBound g c.root + 1) + sizeBound g c.root < fuel) :
    Ends ((c.signals o.gInPlace).mapM (CS (c.context o g marks sharing sub) fuel)) .start
      (fun _ => True) fun _ _ => False := by
  classical
  have hex : o.gInPlace = true ∧ c.vectorMode = false ∧
      ∃ i < c.inputs, ¬ Reached g c.root (sigInput i) := by
    simpa [InputsUsed] using hin
  obtain ⟨hp, hv, hunused⟩ := hex
  -- the first one that is not used
  obtain ⟨hk, hnot⟩ := Nat.find_spec hunused
  have hfirst : ∀ j < Nat.find hunused, Reached g c.root (sigInput j) := by
    intro j hj
    by_contra hj'
    exact Nat.find_min hunused hj ⟨hj.trans hk, hj'⟩
  generalize Nat.find hunused = k at hk hnot hfirst
  have hsplit : c.signals o.gInPlace = (List.range k).map (fun i : ℕ => sigInput i) ++
      sigInput k :: ((List.range (c.inputs - k - 1)).map (fun i : ℕ => sigInput (k + 1 + i : ℕ)) ++
        outputs c.root) := by
    have hlen : c.inputs = k + (1 + (c.inputs - k - 1)) := by omega
    rw [Container.signals, if_pos ⟨hp, by simp [hv]⟩]
    conv_lhs => rw [hlen]
    simp [List.range_add, Nat.add_assoc]
  have hready : Ready (c.context o g marks sharing sub)
      ((List.range k).map fun i : ℕ => sigInput i) c.root (sizeBound g c.root) := by
    apply h.ready ha
    · intro t ht
      obtain ⟨i, hi, rfl⟩ := Compiled.input hv ht
      exact ⟨hfirst i hi, rfl⟩
    · intro t s ht hs
      obtain ⟨i, _, rfl⟩ := Compiled.input hv ht
      cases hs
  rw [hsplit, List.mapM_append]
  apply Ends.bind
    ((ends_signals hready (by exact hfuel.le)).imp (fun _ _ => trivial) fun _ _ h => h)
  intro _ σ hσ
  obtain ⟨hI, _, _⟩ := hσ
  apply Ends.bind (Q := fun _ _ => False) _ fun _ _ h => h.elim
  rw [List.mapM_cons]
  apply Ends.bind (Q := fun _ _ => False) _ fun _ _ h => h.elim
  obtain ⟨fuel, rfl⟩ : ∃ n, fuel = n + 1 := ⟨fuel - 1, by omega⟩
  apply ends_CS_input hv hp
  · exact Option.not_isSome_iff_eq_none.1 fun hs => hnot ((ha.marked _).1 hs)
  · intro hcoded
    rcases hI.compiled _ hcoded with hc | hrec
    · obtain ⟨i, hi, heq⟩ := Compiled.input hv hc
      have := sigInput_injective heq
      omega
    · simp [isRec, sigInput] at hrec

/-! ## Programs -/

/-- One bound for the contents of all the tables of a graph. -/
theorem exists_bound {ts : List Tree} {P : Tree → ℕ → Prop}
    (hmono : ∀ t m n, m ≤ n → P t m → P t n) (h : ∀ t ∈ ts, ∃ n, P t n) :
    ∃ n, ∀ t ∈ ts, P t n := by
  induction ts with
  | nil => exact ⟨0, by simp⟩
  | cons t ts ih =>
    obtain ⟨n, hn⟩ := ih fun u hu => h u (List.mem_cons_of_mem _ hu)
    obtain ⟨m, hm⟩ := h t List.mem_cons_self
    refine ⟨max m n, fun u hu => ?_⟩
    rcases List.mem_cons.1 hu with rfl | hu
    · exact hmono u m _ (le_max_left m n) hm
    · exact hmono u n _ (le_max_right m n) (hn u hu)

/-- The contents of the tables of a container are compiled from some depth on. -/
theorem exists_contentBound (ha : Annotated g c marks sharing) (h : Accepted g c)
    (hin : InputsUsed o.gInPlace g c)
    (hcontents : ∀ t s, CompiledIn o g c t → Codegen.dispatch t = some (.generateSigGen s) →
      NamesVectors o g (createScalarContainer s)) :
    ∃ n, ∀ t s, CompiledIn o g c t → Codegen.dispatch t = some (.generateSigGen s) →
      ∀ depth ≥ n, ∀ fuel ≥ n, compileContent o g fuel depth s = .ok () := by
  obtain ⟨n, hn⟩ : ∃ n, ∀ t ∈ treesOf g c.root, ∀ s, CompiledIn o g c t →
      Codegen.dispatch t = some (.generateSigGen s) → ∀ depth ≥ n, ∀ fuel ≥ n,
        compileContent o g fuel depth s = .ok () := by
    apply exists_bound
    · intro t m n hmn hm s ht hs depth hdepth fuel hfuel
      exact hm s ht hs depth (hmn.trans hdepth) fuel (hmn.trans hfuel)
    · intro t _
      by_cases hs : ∃ s, CompiledIn o g c t ∧ Codegen.dispatch t = some (.generateSigGen s)
      · obtain ⟨s, ht, hs⟩ := hs
        obtain ⟨n, hn⟩ := hcontents t s ht hs
        refine ⟨n, fun s' _ hs' depth hdepth fuel hfuel => ?_⟩
        obtain rfl : s = s' := by simpa using hs.symm.trans hs'
        obtain ⟨σ, hσ, _⟩ := hn depth hdepth fuel hfuel
        rw [compileContent, hσ]
        rfl
      · exact ⟨0, fun s ht hs' => absurd ⟨s, ht, hs'⟩ hs⟩
  refine ⟨n, fun t s ht hs => hn t ?_ s ht hs⟩
  obtain ⟨marks', sharing', ha', ht'⟩ := ht
  obtain ⟨rfl, rfl⟩ := ha.annotates.unique ha'
  exact mem_treesOf_reached (h.compiled hin ha.marked ht').1

theorem Annotated.delaysAllowed_iff (ha : Annotated g c marks sharing) : DelaysAllowed o g c ↔
    ∀ t, Compiled (c.annotated o g marks sharing) (c.signals o.gInPlace) t →
      CanBeDelayed (c.annotated o g marks sharing) t := by
  constructor
  · intro hall
    exact hall marks sharing ha.annotates
  · intro hall marks' sharing' ha'
    obtain ⟨rfl, rfl⟩ := ha.annotates.unique ha'
    exact hall

/-- How a container whose contents are compiled is compiled, from a depth on. -/
theorem Accepted.exists_run (h : Accepted g c) (ha : Annotated g c marks sharing)
    (hin : InputsUsed o.gInPlace g c)
    (hcontents : ∀ t s, CompiledIn o g c t → Codegen.dispatch t = some (.generateSigGen s) →
      NamesVectors o g (createScalarContainer s)) :
    ∃ n, ∀ depth ≥ n, ∀ fuel ≥ n, ∃ sub,
      compileSignals o g fuel depth c = ((c.signals o.gInPlace).mapM
        (CS (c.context o g marks sharing sub) fuel) .start).map Prod.snd ∧
      Ready (c.context o g marks sharing sub) (c.signals o.gInPlace) c.root
        (sizeBound g c.root) ∧
      Ends ((c.signals o.gInPlace).mapM (CS (c.context o g marks sharing sub) fuel)) .start
        (fun _ => Bad (c.context o g marks sharing sub) (c.signals o.gInPlace)) fun _ σ =>
          Inv (c.context o g marks sharing sub) (c.signals o.gInPlace) σ ∧
            Extends (c.context o g marks sharing sub) .start σ ∧
            ∀ t ∈ c.signals o.gInPlace, σ.Coded t := by
  obtain ⟨n₁, hn₁⟩ := ha.annotates.marks
  obtain ⟨n₂, hn₂⟩ := ha.annotates.sharing
  obtain ⟨n₃, hn₃⟩ := exists_contentBound ha h hin hcontents
  refine ⟨n₁ + n₂ + n₃ + g.recDefs.length * (sizeBound g c.root + 1) + sizeBound g c.root + 1, ?_⟩
  intro depth hdepth fuel hfuel
  obtain ⟨depth, rfl⟩ : ∃ d, depth = d + 1 := ⟨depth - 1, by omega⟩
  have hready : Ready (c.context o g marks sharing (compileContent o g fuel depth))
      (c.signals o.gInPlace) c.root (sizeBound g c.root) := by
    apply h.ready ha fun t ht => h.compiled hin ha.marked ht
    intro t s ht hs
    exact hn₃ t s ⟨marks, sharing, ha.annotates, ht.of_context⟩ hs depth (by omega) fuel (by omega)
  have henough : g.recDefs.length * (sizeBound g c.root + 1) + sizeBound g c.root ≤ fuel := by
    omega
  exact ⟨_, compileSignals_eq depth (hn₁ fuel (by omega)) (hn₂ fuel (by omega)), hready,
    ends_signals hready henough⟩

/-- The compilation of a container whose contents are compiled: it comes to its end when all that
it delays can be delayed, and the vectors have names then. -/
theorem Accepted.ends_compileSignals (h : Accepted g c) (ha : Annotated g c marks sharing)
    (hin : InputsUsed o.gInPlace g c)
    (hcontents : ∀ t s, CompiledIn o g c t → Codegen.dispatch t = some (.generateSigGen s) →
      NamesVectors o g (createScalarContainer s)) :
    ∃ n, ∀ depth ≥ n, ∀ fuel ≥ n,
      (∃ σ, compileSignals o g fuel depth c = .ok σ ∧
        (VectorsNamed (c.annotated o g marks sharing) σ ↔ DelaysAllowed o g c)) ∨
      (∃ e, compileSignals o g fuel depth c = .error e) ∧ ¬ DelaysAllowed o g c := by
  obtain ⟨n, hn⟩ := h.exists_run ha hin hcontents
  refine ⟨n, fun depth hdepth fuel hfuel => ?_⟩
  obtain ⟨sub, hrun, hready, hends⟩ := hn depth hdepth fuel hfuel
  rw [hrun, ha.delaysAllowed_iff]
  rcases hends.cases with ⟨a, σ, heq, hI, hE, hs⟩ | ⟨e, heq, t, ht, hbad⟩
  · refine Or.inl ⟨σ, by rw [heq]; rfl, ?_⟩
    have hiff := vectorsNamed_iff_of_inv hI hE hs hready
    constructor
    · intro hnames t ht
      exact hiff.1 ⟨hnames.named, hnames.delayed⟩ t ht.of_context
    · intro hall
      have hnames := hiff.2 fun t ht => hall t ht.of_context
      exact ⟨hnames.named, hnames.delayed⟩
  · exact Or.inr ⟨⟨e, by rw [heq]; rfl⟩, fun hall => hbad (hall t ht.of_context)⟩

/-- A container whose contents are compiled. -/
theorem Accepted.namesVectors_iff (h : Accepted g c)
    (hcontents : ∀ t s, CompiledIn o g c t → Codegen.dispatch t = some (.generateSigGen s) →
      NamesVectors o g (createScalarContainer s)) :
    NamesVectors o g c ↔ InputsUsed o.gInPlace g c ∧ DelaysAllowed o g c := by
  obtain ⟨marks, sharing, ha⟩ := h.annotated
  by_cases hin : InputsUsed o.gInPlace g c
  · obtain ⟨n, hn⟩ := h.ends_compileSignals ha hin hcontents
    constructor
    · intro ⟨m, hm⟩
      refine ⟨hin, ?_⟩
      obtain ⟨σ, hσ, hnames⟩ := hm (max m n) (le_max_left m n) (max m n) (le_max_left m n)
      rcases hn (max m n) (le_max_right m n) (max m n) (le_max_right m n) with
        ⟨σ', hσ', hiff⟩ | ⟨⟨e, he⟩, _⟩
      · obtain rfl : σ = σ' := Except.ok.inj (hσ.symm.trans hσ')
        exact hiff.1 (hnames marks sharing ha.annotates)
      · rw [hσ] at he
        cases he
    · intro hboth
      refine ⟨n, fun depth hdepth fuel hfuel => ?_⟩
      rcases hn depth hdepth fuel hfuel with ⟨σ, hσ, hiff⟩ | ⟨_, hnot⟩
      · refine ⟨σ, hσ, ?_⟩
        intro marks' sharing' ha'
        obtain ⟨rfl, rfl⟩ := ha.annotates.unique ha'
        exact hiff.2 hboth.2
      · exact absurd hboth.2 hnot
  · -- the first input that is not used has no occurrences
    refine ⟨?_, fun hboth => absurd hboth.1 hin⟩
    intro ⟨m, hm⟩
    obtain ⟨n₁, hn₁⟩ := ha.annotates.marks
    obtain ⟨n₂, hn₂⟩ := ha.annotates.sharing
    obtain ⟨fuel, hfuel⟩ : ∃ fuel, fuel = m + n₁ + n₂ +
      (g.recDefs.length * (sizeBound g c.root + 1) + sizeBound g c.root) + 1 := ⟨_, rfl⟩
    obtain ⟨σ, hσ, _⟩ := hm (m + 1) (by omega) fuel (by omega)
    rw [compileSignals_eq m (hn₁ fuel (by omega)) (hn₂ fuel (by omega))] at hσ
    have hends : Ends ((c.signals o.gInPlace).mapM (CS (c.context o g marks sharing
        (compileContent o g fuel m)) fuel)) .start (fun _ => True) fun _ _ => False :=
      h.not_compiled ha hin (by omega)
    rcases hends.cases with ⟨_, _, _, hfalse⟩ | ⟨e, heq, _⟩
    · exact hfalse.elim
    · rw [heq] at hσ
      cases hσ

theorem Contains.trans {c' c'' : Container} (h : Contains o g c c') (h' : Contains o g c' c'') :
    Contains o g c c'' := by
  induction h' with
  | self => exact h
  | content _ ht hs ih => exact .content ih ht hs

/-- Whether the compiler makes no container for a signal. -/
def noSigGen (t : Tree) : Bool :=
  match Codegen.dispatch t with
  | some (.generateSigGen _) => false
  | _ => true

theorem dispatch_ne_of_noSigGen {t s : Tree} (h : noSigGen t = true) :
    Codegen.dispatch t ≠ some (.generateSigGen s) := by
  intro hs
  simp [noSigGen, hs] at h

/-- A container without tables contains itself alone. -/
theorem AcceptedProgram.of_no_sigGen (h : Accepted g c) (hin : InputsUsed o.gInPlace g c)
    (hno : ∀ t s, Reached g c.root t → Codegen.dispatch t ≠ some (.generateSigGen s))
    (rank : Container → ℕ) : AcceptedProgram o g c rank := by
  have hnot : ∀ t s, CompiledIn o g c t → Codegen.dispatch t ≠ some (.generateSigGen s) := by
    intro t s ht
    obtain ⟨marks, sharing, ha⟩ := h.annotated
    obtain ⟨marks', sharing', ha', ht'⟩ := ht
    obtain ⟨rfl, rfl⟩ := ha.annotates.unique ha'
    exact hno t s (h.compiled hin ha.marked ht').1
  have hself : ∀ c', Contains o g c c' → c' = c := by
    intro c' hc'
    induction hc' with
    | self => rfl
    | content _ ht hs ih =>
      obtain rfl := ih
      exact absurd hs (hnot _ _ ht)
  constructor
  · intro c' hc'
    rw [hself c' hc']
    exact h
  · intro c' t s hc' ht hs
    rw [hself c' hc'] at ht
    exact absurd hs (hnot t s ht)

end

/-! ## Runs -/

end Faust.Codegen
