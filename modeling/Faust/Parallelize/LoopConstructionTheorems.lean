import Faust.Parallelize.LoopConstruction
import Faust.Parallelize.SortGraphTheorems

/-!
# The construction of loops loses no code

At each moment the loops are on the stack of open loops, kept, or absorbed. What has been pushed is
in the open loops and in the kept ones, a kept loop is needed by a loop above it, and no loop
depends on an open one.
-/

namespace Faust

namespace CodeContainer

open DepGraph
open scoped List

variable {ι : Type} {address : Tree → ℕ} {symlist : Tree → List Tree}

/-! ## The loops at their addresses -/

section
variable {σ : CodeContainer ι} {f : CodeLoop ι → CodeLoop ι} {l l' : ℕ}

@[simp] lemma updateLoop_self : (σ.updateLoop l f).loop l = f (σ.loop l) :=
  Function.update_self _ _ _

lemma updateLoop_of_ne (h : l' ≠ l) : (σ.updateLoop l f).loop l' = σ.loop l' :=
  Function.update_of_ne h _ _

@[simp] lemma updateLoop_fCurLoop : (σ.updateLoop l f).fCurLoop = σ.fCurLoop := rfl

@[simp] lemma updateLoop_fresh : (σ.updateLoop l f).fresh = σ.fresh := rfl

@[simp] lemma updateLoop_fLoopProperty : (σ.updateLoop l f).fLoopProperty = σ.fLoopProperty := rfl

end

/-- The open loops, from `l` outwards. -/
inductive OpenLoops (σ : CodeContainer ι) : ℕ → List ℕ → Prop
  | outer (h : (σ.loop root).fEnclosingLoop = none) : OpenLoops σ root [root]
  | inner {l encl : ℕ} {stack : List ℕ} (h : (σ.loop l).fEnclosingLoop = some encl)
      (hs : OpenLoops σ encl stack) : OpenLoops σ l (l :: stack)

lemma OpenLoops.congr {σ σ' : CodeContainer ι} {l : ℕ} {stack : List ℕ} (h : OpenLoops σ l stack)
    (heq : ∀ l ∈ stack, (σ'.loop l).fEnclosingLoop = (σ.loop l).fEnclosingLoop) :
    OpenLoops σ' l stack := by
  induction h with
  | outer hroot => exact .outer ((heq root (List.mem_singleton_self root)).trans hroot)
  | inner hl hs ih =>
    apply OpenLoops.inner ((heq _ List.mem_cons_self).trans hl)
    exact ih fun l' hl' => heq l' (List.mem_cons_of_mem _ hl')

lemma OpenLoops.eq_cons {σ : CodeContainer ι} {l : ℕ} {stack : List ℕ} (h : OpenLoops σ l stack) :
    ∃ rest, stack = l :: rest := by
  cases h with
  | outer _ => exact ⟨[], rfl⟩
  | inner _ _ => exact ⟨_, rfl⟩

/-- The first loop is the only one without a loop around it. -/
lemma OpenLoops.length_eq_one {σ : CodeContainer ι} {l : ℕ} {stack : List ℕ}
    (h : OpenLoops σ l stack) (hl : (σ.loop l).fEnclosingLoop = none) : stack.length = 1 := by
  cases h with
  | outer _ => rfl
  | inner h _ =>
    rw [hl] at h
    cases h

lemma OpenLoops.eq_root {σ : CodeContainer ι} {l : ℕ} {stack : List ℕ} (h : OpenLoops σ l stack)
    (hlen : stack.length = 1) : stack = [root] := by
  cases h with
  | outer _ => rfl
  | inner _ hs =>
    obtain ⟨rest, rfl⟩ := hs.eq_cons
    simp at hlen

/-- The loop around the current one. -/
lemma OpenLoops.of_enclosing {σ : CodeContainer ι} {l encl : ℕ} {stack : List ℕ}
    (h : OpenLoops σ l stack) (hl : (σ.loop l).fEnclosingLoop = some encl) :
    ∃ rest, stack = l :: encl :: rest ∧ OpenLoops σ encl (encl :: rest) := by
  cases h with
  | outer hroot =>
    rw [hl] at hroot
    cases hroot
  | inner h hs =>
    obtain rfl : _ = encl := Option.some.inj (h.symm.trans hl)
    obtain ⟨rest, rfl⟩ := hs.eq_cons
    exact ⟨rest, rfl, hs⟩

/-- The instructions of some loops. -/
def codeOf (σ : CodeContainer ι) (loops : List ℕ) : List ι := loops.flatMap fun l => (σ.loop l).code

lemma codeOf_congr {σ σ' : CodeContainer ι} {loops : List ℕ}
    (h : ∀ l ∈ loops, σ'.loop l = σ.loop l) : σ'.codeOf loops = σ.codeOf loops := by
  unfold codeOf
  exact List.flatMap_congr fun l hl => by rw [h l hl]

/-! ## What a call adds to the history -/

section
variable (tr : List (CodeContainer ι × LoopCall ι)) (σ : CodeContainer ι) (l : ℕ)

lemma pushed_snoc (c : LoopCall ι) : pushed (tr ++ [(σ, c)]) = pushed tr ++ pushed [(σ, c)] :=
  List.filterMap_append

lemma computePushed_snoc (c : LoopCall ι) :
    computePushed (tr ++ [(σ, c)]) l = computePushed tr l ++ computePushed [(σ, c)] l :=
  List.filterMap_append

lemma closings_snoc (c : LoopCall ι) :
    closings (tr ++ [(σ, c)]) = closings tr ++ closings [(σ, c)] :=
  List.filterMap_append

lemma absorbed_snoc (c : LoopCall ι) : Absorbed (tr ++ [(σ, c)]) address symlist l ↔
    Absorbed tr address symlist l ∨ Absorbed [(σ, c)] address symlist l := by
  unfold Absorbed
  simp only [List.mem_append, or_and_right, exists_or]

end

/-- A loop that has been absorbed has been closed. -/
lemma Absorbed.mem_closings {tr : List (CodeContainer ι × LoopCall ι)} {l : ℕ}
    (h : Absorbed tr address symlist l) : l ∈ closings tr := by
  obtain ⟨σ, sig, encl, hmem, hcur, -⟩ := h
  exact List.mem_filterMap.2 ⟨_, hmem, congrArg some hcur⟩

/-! ## The invariant -/

/-- The loops of `stack` are open, from the current one outwards. -/
structure Bracketed (tr : List (CodeContainer ι × LoopCall ι)) (σ : CodeContainer ι)
    (stack : List ℕ) : Prop where
  openLoops : OpenLoops σ σ.fCurLoop stack
  /-- Each loop is open or closed. -/
  nodup : (stack ++ closings tr).Nodup
  lt_fresh : ∀ l ∈ stack ++ closings tr, l < σ.fresh
  backward_fresh : ∀ l, σ.fresh ≤ l → σ.backward l = []
  pushed_loop : ∀ l, l ∉ stack ++ closings tr → computePushed tr l = []

/-- The loops of `stack` are open and those of `kept` have been kept. -/
structure Construction (address : Tree → ℕ) (symlist : Tree → List Tree)
    (tr : List (CodeContainer ι × LoopCall ι)) (σ : CodeContainer ι) (stack kept : List ℕ) : Prop
    extends Bracketed tr σ stack where
  kept_closed : kept.Sublist (closings tr)
  absorbed : ∀ l, Absorbed tr address symlist l → l ∉ kept
  /-- A loop depends on loops that have been kept. -/
  backward_open : ∀ l ∈ stack, ∀ d ∈ σ.backward l, d ∈ kept
  respects : Respects σ.backward kept
  property : ∀ sig l, σ.fLoopProperty sig = some l → l ∈ kept
  reach : ∀ l ∈ kept, ∃ l' ∈ stack, Reach σ.backward l' l
  code : (σ.codeOf (stack ++ kept)).Perm (pushed tr)
  compute_open : ∀ l ∈ stack, (computePushed tr l).Sublist (σ.loop l).fComputeInst
  compute : ∀ l, ∃ l' ∈ stack ++ kept, (computePushed tr l).Sublist (σ.loop l').fComputeInst

theorem Construction.start :
    Construction address symlist [] (CodeContainer.start : CodeContainer ι) [root] [] where
  openLoops := .outer rfl
  nodup := List.nodup_singleton _
  lt_fresh l hl := by
    obtain rfl : l = root := by simpa [closings] using hl
    exact Nat.zero_lt_one
  backward_fresh _ _ := rfl
  pushed_loop _ _ := rfl
  kept_closed := .slnil
  absorbed l _ := List.not_mem_nil
  backward_open l hl d hd := by cases hd
  respects := respects_nil
  property sig l h := by cases h
  reach l hl := by cases hl
  code := .nil
  compute_open l _ := List.nil_sublist _
  compute l := ⟨root, List.mem_cons_self, List.nil_sublist _⟩

section
variable {tr : List (CodeContainer ι × LoopCall ι)} {σ : CodeContainer ι} {stack kept : List ℕ}

lemma Construction.nodup_kept (h : Construction address symlist tr σ stack kept) :
    (stack ++ kept).Nodup :=
  h.nodup.sublist (h.kept_closed.append_left stack)

lemma Construction.cur_mem (h : Construction address symlist tr σ stack kept) :
    σ.fCurLoop ∈ stack := by
  obtain ⟨rest, hstack⟩ := h.openLoops.eq_cons
  rw [hstack]
  exact List.mem_cons_self

/-- An open loop has not been kept. -/
lemma Construction.not_mem_kept (h : Construction address symlist tr σ stack kept) {l : ℕ}
    (hl : l ∈ stack) : l ∉ kept :=
  fun hk => (List.nodup_append.1 h.nodup_kept).2.2 l hl l hk rfl

/-- An instruction or a dependency for the current loop. -/
theorem Construction.updateCurLoop (h : Construction address symlist tr σ stack kept)
    {f : CodeLoop ι → CodeLoop ι} {c : LoopCall ι} (hclosings : closings [(σ, c)] = [])
    (hencl : (f (σ.loop σ.fCurLoop)).fEnclosingLoop = (σ.loop σ.fCurLoop).fEnclosingLoop)
    (hmono : ∀ d ∈ σ.backward σ.fCurLoop,
      d ∈ (f (σ.loop σ.fCurLoop)).fBackwardLoopDependencies)
    (hkept : ∀ d ∈ (f (σ.loop σ.fCurLoop)).fBackwardLoopDependencies, d ∈ kept)
    (hcode : (f (σ.loop σ.fCurLoop)).code.Perm ((σ.loop σ.fCurLoop).code ++ pushed [(σ, c)]))
    (hcompute : (f (σ.loop σ.fCurLoop)).fComputeInst =
      (σ.loop σ.fCurLoop).fComputeInst ++ computePushed [(σ, c)] σ.fCurLoop)
    (hother : ∀ l, l ≠ σ.fCurLoop → computePushed [(σ, c)] l = []) :
    Construction address symlist (tr ++ [(σ, c)]) (σ.updateLoop σ.fCurLoop f) stack kept := by
  have hcur := h.cur_mem
  obtain ⟨rest, hstack⟩ := h.openLoops.eq_cons
  have hclosed : closings (tr ++ [(σ, c)]) = closings tr := by
    rw [closings_snoc, hclosings, List.append_nil]
  have hback : ∀ l, l ≠ σ.fCurLoop → (σ.updateLoop σ.fCurLoop f).backward l = σ.backward l := by
    intro l hl
    unfold backward
    rw [updateLoop_of_ne hl]
  have hgrow : ∀ l, ∀ d ∈ σ.backward l, d ∈ (σ.updateLoop σ.fCurLoop f).backward l := by
    intro l d hd
    by_cases hl : l = σ.fCurLoop
    · subst hl
      unfold backward
      rw [updateLoop_self]
      exact hmono d hd
    · rw [hback l hl]
      exact hd
  have hsub : ∀ l l', (computePushed tr l).Sublist (σ.loop l').fComputeInst → (l = σ.fCurLoop →
      l' = σ.fCurLoop) → (computePushed (tr ++ [(σ, c)]) l).Sublist
        ((σ.updateLoop σ.fCurLoop f).loop l').fComputeInst := by
    intro l l' hsub hl
    rw [computePushed_snoc]
    by_cases hl' : l' = σ.fCurLoop
    · subst hl'
      rw [updateLoop_self, hcompute]
      apply hsub.append
      by_cases hl : l = σ.fCurLoop
      · rw [hl]
      · rw [hother l hl]
        exact List.nil_sublist _
    · have hne : l ≠ σ.fCurLoop := fun heq => hl' (hl heq)
      rw [updateLoop_of_ne hl', hother l hne, List.append_nil]
      exact hsub
  refine ⟨⟨?_, ?_, ?_, ?_, ?_⟩, ?_, ?_, ?_, ?_, h.property, ?_, ?_, ?_, ?_⟩
  · apply h.openLoops.congr
    intro l hl
    by_cases hl : l = σ.fCurLoop
    · rw [hl, updateLoop_self, hencl]
    · rw [updateLoop_of_ne hl]
  · rw [hclosed]
    exact h.nodup
  · rw [hclosed]
    exact h.lt_fresh
  · intro l hl
    have hne : l ≠ σ.fCurLoop := by
      have := h.lt_fresh σ.fCurLoop (List.mem_append_left _ hcur)
      have hl : σ.fresh ≤ l := hl
      omega
    rw [hback l hne]
    exact h.backward_fresh l hl
  · intro l hl
    rw [hclosed] at hl
    have hne : l ≠ σ.fCurLoop := by
      intro heq
      subst heq
      exact hl (List.mem_append_left _ hcur)
    rw [computePushed_snoc, h.pushed_loop l hl, hother l hne, List.append_nil]
  · rw [hclosed]
    exact h.kept_closed
  · intro l hl
    rcases (absorbed_snoc tr σ l c).1 hl with hl | hl
    · exact h.absorbed l hl
    · have hmem := hl.mem_closings
      rw [hclosings] at hmem
      cases hmem
  · intro l hl d hd
    by_cases hcur : l = σ.fCurLoop
    · subst hcur
      unfold backward at hd
      rw [updateLoop_self] at hd
      exact hkept d hd
    · rw [hback l hcur] at hd
      exact h.backward_open l hl d hd
  · apply h.respects.mono
    intro l hl d hd
    have hne : l ≠ σ.fCurLoop := fun heq => h.not_mem_kept hcur (heq ▸ hl)
    rwa [hback l hne] at hd
  · intro l hl
    obtain ⟨l', hl', hreach⟩ := h.reach l hl
    exact ⟨l', hl', hreach.mono hgrow⟩
  · have hnd := h.nodup_kept
    have hcode' := h.code
    rw [hstack, List.cons_append] at hnd hcode' ⊢
    have hrest : (σ.updateLoop σ.fCurLoop f).codeOf (rest ++ kept) = σ.codeOf (rest ++ kept) := by
      apply codeOf_congr
      intro l hl
      apply updateLoop_of_ne
      intro heq
      subst heq
      exact (List.nodup_cons.1 hnd).1 hl
    show (((σ.updateLoop σ.fCurLoop f).loop σ.fCurLoop).code ++
      (σ.updateLoop σ.fCurLoop f).codeOf (rest ++ kept)).Perm _
    rw [updateLoop_self, hrest, pushed_snoc]
    -- what is pushed now is moved behind the code of the other loops
    calc (f (σ.loop σ.fCurLoop)).code ++ σ.codeOf (rest ++ kept)
      _ ~ ((σ.loop σ.fCurLoop).code ++ pushed [(σ, c)]) ++ σ.codeOf (rest ++ kept) :=
        hcode.append_right _
      _ ~ ((σ.loop σ.fCurLoop).code ++ σ.codeOf (rest ++ kept)) ++ pushed [(σ, c)] := by
        rw [List.append_assoc, List.append_assoc]
        exact List.perm_append_comm.append_left _
      _ ~ pushed tr ++ pushed [(σ, c)] := hcode'.append_right _
  · intro l hl
    exact hsub l l (h.compute_open l hl) id
  · intro l
    by_cases hl : l = σ.fCurLoop
    · exact ⟨l, List.mem_append_left _ (hl ▸ hcur), hsub l l (h.compute_open l (hl ▸ hcur)) id⟩
    · obtain ⟨l', hl', hsub'⟩ := h.compute l
      exact ⟨l', hl', hsub l l' hsub' fun heq => absurd heq hl⟩

theorem Construction.push (h : Construction address symlist tr σ stack kept) (sec : LoopSection)
    (inst : ι) : Construction address symlist (tr ++ [(σ, .push sec inst)])
      (σ.updateLoop σ.fCurLoop (.push inst sec)) stack kept := by
  have hcur := h.cur_mem
  apply h.updateCurLoop
  · rfl
  · cases sec <;> rfl
  · cases sec <;> exact fun d hd => hd
  · cases sec <;> exact h.backward_open σ.fCurLoop hcur
  · show (CodeLoop.push inst sec (σ.loop σ.fCurLoop)).code.Perm ((σ.loop σ.fCurLoop).code ++ [inst])
    cases sec with
    | pre =>
      simp only [CodeLoop.code, CodeLoop.push, List.append_assoc]
      apply List.Perm.append_left
      rw [← List.append_assoc (σ.loop σ.fCurLoop).fComputeInst]
      exact List.perm_append_comm
    | compute =>
      simp only [CodeLoop.code, CodeLoop.push, List.append_assoc]
      apply List.Perm.append_left
      apply List.Perm.append_left
      exact List.perm_append_comm
    | post =>
      simp only [CodeLoop.code, CodeLoop.push, List.append_assoc]
      rfl
  · cases sec <;> simp [CodeLoop.push, computePushed]
  · intro l hl
    have hne : σ.fCurLoop ≠ l := fun heq => hl heq.symm
    cases sec <;> simp [computePushed, hne]

theorem Construction.addBackwardDependency (h : Construction address symlist tr σ stack kept)
    {sig : Tree} {ls : ℕ} (hls : σ.fLoopProperty sig = some ls) :
    Construction address symlist (tr ++ [(σ, .addBackwardDependency sig)])
      (σ.updateLoop σ.fCurLoop (.addBackwardDependency ls)) stack kept := by
  have hcur := h.cur_mem
  apply h.updateCurLoop
  · rfl
  · rfl
  · intro d hd
    exact LoopGraph.mem_insertLoop.2 (Or.inr hd)
  · intro d hd
    rcases LoopGraph.mem_insertLoop.1 hd with rfl | hd
    · exact h.property sig _ hls
    · exact h.backward_open _ hcur d hd
  · rw [pushed, List.filterMap_cons_none rfl, List.filterMap_nil, List.append_nil]
    exact .rfl
  · rw [computePushed, List.filterMap_cons_none rfl, List.filterMap_nil, List.append_nil]
    rfl
  · intro l _
    rfl

/-- A signal that no loop is associated with. -/
theorem Construction.noDependency (h : Construction address symlist tr σ stack kept) (sig : Tree) :
    Construction address symlist (tr ++ [(σ, .addBackwardDependency sig)]) σ stack kept := by
  have hid : σ.updateLoop σ.fCurLoop id = σ := by
    unfold updateLoop
    rw [id, Function.update_eq_self]
  have hsame : Construction address symlist (tr ++ [(σ, .addBackwardDependency sig)])
      (σ.updateLoop σ.fCurLoop id) stack kept := by
    apply h.updateCurLoop
    · rfl
    · rfl
    · exact fun d hd => hd
    · exact h.backward_open _ h.cur_mem
    · rw [pushed, List.filterMap_cons_none rfl, List.filterMap_nil, List.append_nil]
      exact .rfl
    · rw [computePushed, List.filterMap_cons_none rfl, List.filterMap_nil, List.append_nil]
      rfl
    · intro l _
      rfl
  rwa [hid] at hsame

theorem Construction.openLoop (h : Construction address symlist tr σ stack kept)
    (recsymbol : Option Tree) (index_name : String) (size : ℤ) :
    Construction address symlist (tr ++ [(σ, .openLoop recsymbol index_name size)])
      (σ.openLoop recsymbol index_name size) (σ.fresh :: stack) kept := by
  have hnew : σ.fresh ∉ stack ++ closings tr := fun hmem => (h.lt_fresh _ hmem).ne rfl
  have hstack : σ.fresh ∉ stack := fun hmem => hnew (List.mem_append_left _ hmem)
  have hclosings : closings (tr ++ [(σ, .openLoop recsymbol index_name size)]) = closings tr := by
    rw [closings_snoc]
    exact List.append_nil _
  have hcompute : ∀ l, computePushed (tr ++ [(σ, .openLoop recsymbol index_name size)]) l =
      computePushed tr l := by
    intro l
    rw [computePushed_snoc]
    exact List.append_nil _
  have hself : (σ.openLoop recsymbol index_name size).loop σ.fresh =
      .new recsymbol (some σ.fCurLoop) index_name size := Function.update_self _ _ _
  have hne : ∀ {l}, l ≠ σ.fresh →
      (σ.openLoop recsymbol index_name size).loop l = σ.loop l :=
    fun hl => Function.update_of_ne hl _ _
  have hold : ∀ l ∈ stack ++ kept, (σ.openLoop recsymbol index_name size).loop l = σ.loop l := by
    intro l hl
    apply hne
    rintro rfl
    exact hnew ((h.kept_closed.append_left stack).subset hl)
  have hback : (σ.openLoop recsymbol index_name size).backward = σ.backward := by
    funext l
    unfold backward
    by_cases hl : l = σ.fresh
    · subst hl
      rw [hself]
      exact (h.backward_fresh σ.fresh le_rfl).symm
    · rw [hne hl]
  refine ⟨⟨?_, ?_, ?_, ?_, ?_⟩, ?_, ?_, ?_, ?_, h.property, ?_, ?_, ?_, ?_⟩
  · apply @OpenLoops.inner ι _ σ.fresh σ.fCurLoop stack
    · show ((σ.openLoop recsymbol index_name size).loop σ.fresh).fEnclosingLoop = _
      rw [hself]
      rfl
    · apply h.openLoops.congr
      intro l hl
      rw [hold l (List.mem_append_left _ hl)]
  · rw [hclosings]
    exact List.nodup_cons.2 ⟨hnew, h.nodup⟩
  · intro l hl
    show l < σ.fresh + 1
    rw [hclosings, List.cons_append, List.mem_cons] at hl
    rcases hl with rfl | hl
    · omega
    · have := h.lt_fresh l hl
      omega
  · intro l hl
    rw [hback]
    apply h.backward_fresh
    have hl : σ.fresh + 1 ≤ l := hl
    omega
  · intro l hl
    rw [hcompute]
    apply h.pushed_loop
    intro hmem
    rw [hclosings] at hl
    exact hl (List.mem_cons_of_mem _ hmem)
  · rw [hclosings]
    exact h.kept_closed
  · intro l hl
    rcases (absorbed_snoc tr σ l _).1 hl with hl | hl
    · exact h.absorbed l hl
    · cases hl.mem_closings
  · rw [hback]
    intro l hl d hd
    rcases List.mem_cons.1 hl with rfl | hl
    · rw [h.backward_fresh σ.fresh le_rfl] at hd
      cases hd
    · exact h.backward_open l hl d hd
  · rw [hback]
    exact h.respects
  · rw [hback]
    intro l hl
    obtain ⟨l', hl', hreach⟩ := h.reach l hl
    exact ⟨l', List.mem_cons_of_mem _ hl', hreach⟩
  · have hcode : (σ.openLoop recsymbol index_name size).codeOf (σ.fresh :: stack ++ kept) =
        σ.codeOf (stack ++ kept) := by
      rw [← codeOf_congr hold]
      show ((σ.openLoop recsymbol index_name size).loop σ.fresh).code ++ _ = _
      rw [hself]
      rfl
    rw [hcode, pushed_snoc]
    show (σ.codeOf (stack ++ kept)).Perm (pushed tr ++ [])
    rw [List.append_nil]
    exact h.code
  · intro l hl
    rw [hcompute]
    rcases List.mem_cons.1 hl with rfl | hl
    · rw [h.pushed_loop σ.fresh hnew]
      exact List.nil_sublist _
    · rw [hold l (List.mem_append_left _ hl)]
      exact h.compute_open l hl
  · intro l
    rw [hcompute]
    obtain ⟨l', hl', hsub⟩ := h.compute l
    refine ⟨l', List.mem_cons_of_mem _ hl', ?_⟩
    rwa [hold l' hl']

/-! ## A loop is closed -/

lemma closings_closeLoop (sig : Tree) :
    closings (tr ++ [(σ, .closeLoop sig)]) = closings tr ++ [σ.fCurLoop] :=
  closings_snoc tr σ _

lemma computePushed_closeLoop (sig : Tree) (l : ℕ) :
    computePushed (tr ++ [(σ, .closeLoop sig)]) l = computePushed tr l := by
  rw [computePushed_snoc]
  exact List.append_nil _

lemma pushed_closeLoop (sig : Tree) : pushed (tr ++ [(σ, .closeLoop sig)]) = pushed tr := by
  rw [pushed_snoc]
  exact List.append_nil _

/-- The loop that is closed goes from the open loops to the closed ones. -/
lemma closings_perm (l : ℕ) (stack closed : List ℕ) :
    (stack ++ (closed ++ [l])).Perm (l :: stack ++ closed) := by
  rw [← List.append_assoc]
  exact List.perm_append_comm

/-- The current loop is closed, and the loop around it changes. -/
theorem Bracketed.closeLoop {l encl : ℕ} {rest : List ℕ} (sig : Tree)
    (h : Bracketed tr σ (l :: encl :: rest)) (hl : σ.fCurLoop = l)
    (hopen : OpenLoops σ encl (encl :: rest)) {f : CodeLoop ι → CodeLoop ι}
    (hf : (f (σ.loop encl)).fEnclosingLoop = (σ.loop encl).fEnclosingLoop)
    (prop : Tree → Option ℕ) :
    Bracketed (tr ++ [(σ, .closeLoop sig)])
      { { σ with fCurLoop := encl }.updateLoop encl f with fLoopProperty := prop }
      (encl :: rest) := by
  subst hl
  set l := σ.fCurLoop
  have hself : ({ σ with fCurLoop := encl }.updateLoop encl f).loop encl = f (σ.loop encl) :=
    updateLoop_self
  have hne : ∀ {l'}, l' ≠ encl →
      ({ σ with fCurLoop := encl }.updateLoop encl f).loop l' = σ.loop l' :=
    fun hl' => updateLoop_of_ne hl'
  have hperm := closings_perm l (encl :: rest) (closings tr)
  rw [← closings_closeLoop sig] at hperm
  refine ⟨?_, ?_, ?_, ?_, ?_⟩
  · apply hopen.congr
    intro l' _
    show (({ σ with fCurLoop := encl }.updateLoop encl f).loop l').fEnclosingLoop = _
    by_cases heq : l' = encl
    · rw [heq, hself, hf]
    · rw [hne heq]
  · exact hperm.nodup_iff.2 h.nodup
  · exact fun l' hl' => h.lt_fresh l' (hperm.subset hl')
  · intro l' hl'
    have hencl : encl < σ.fresh :=
      h.lt_fresh encl (List.mem_append_left _ (List.mem_cons_of_mem _ List.mem_cons_self))
    have hl' : σ.fresh ≤ l' := hl'
    show (({ σ with fCurLoop := encl }.updateLoop encl f).loop l').fBackwardLoopDependencies = []
    rw [hne (by omega)]
    exact h.backward_fresh l' hl'
  · intro l' hl'
    rw [computePushed_closeLoop]
    apply h.pushed_loop
    exact fun hin => hl' (hperm.symm.subset hin)

/-- The current loop, absorbed by the loop around it. -/
theorem Construction.absorb {l encl : ℕ} {rest : List ℕ} {sig : Tree}
    (h : Construction address symlist tr σ (l :: encl :: rest) kept) (hl : σ.fCurLoop = l)
    (hopen : OpenLoops σ encl (encl :: rest)) :
    Construction address symlist (tr ++ [(σ, .closeLoop sig)])
      ({ σ with fCurLoop := encl }.updateLoop encl fun e => e.absorb address (σ.loop l))
      (encl :: rest) kept := by
  subst hl
  set l := σ.fCurLoop
  set σ' := { σ with fCurLoop := encl }.updateLoop encl fun e => e.absorb address (σ.loop l)
  have hself : σ'.loop encl = (σ.loop encl).absorb address (σ.loop l) := updateLoop_self
  have hne : ∀ {l'}, l' ≠ encl → σ'.loop l' = σ.loop l' := fun hl' => updateLoop_of_ne hl'
  have hencl : encl ∈ l :: encl :: rest := List.mem_cons_of_mem _ List.mem_cons_self
  have hnd := h.nodup_kept
  rw [List.cons_append, List.nodup_cons, List.cons_append, List.nodup_cons] at hnd
  have hback : ∀ {l'}, l' ≠ encl → σ'.backward l' = σ.backward l' := by
    intro l' hl'
    unfold backward
    rw [hne hl']
  have hself_back : ∀ d, d ∈ σ'.backward encl ↔ d ∈ σ.backward encl ∨ d ∈ σ.backward l := by
    intro d
    unfold backward
    rw [hself]
    exact CodeLoops.mem_insertLoops
  have hgrow : ∀ l', ∀ d ∈ σ.backward l', d ∈ σ'.backward l' := by
    intro l' d hd
    by_cases hl' : l' = encl
    · subst hl'
      exact (hself_back d).2 (Or.inl hd)
    · rwa [hback hl']
  have hmono : ∀ {l'} {xs : List ι}, xs.Sublist (σ.loop l').fComputeInst →
      xs.Sublist (σ'.loop l').fComputeInst := by
    intro l' xs hsub
    by_cases hl' : l' = encl
    · subst hl'
      rw [hself]
      exact hsub.trans (List.sublist_append_left _ _)
    · rwa [hne hl']
  have hbracketed : Bracketed (tr ++ [(σ, .closeLoop sig)]) σ' (encl :: rest) :=
    h.toBracketed.closeLoop (f := fun e => e.absorb address (σ.loop l)) sig rfl hopen rfl
      σ.fLoopProperty
  refine ⟨hbracketed, ?_, ?_, ?_, ?_, h.property, ?_, ?_, ?_, ?_⟩
  · rw [closings_closeLoop]
    exact h.kept_closed.trans (List.sublist_append_left _ _)
  · intro l' hl'
    rcases (absorbed_snoc tr σ l' _).1 hl' with hl' | hl'
    · exact h.absorbed l' hl'
    · obtain rfl : l' = l := List.mem_singleton.1 hl'.mem_closings
      exact h.not_mem_kept List.mem_cons_self
  · intro l' hl' d hd
    by_cases heq : l' = encl
    · subst heq
      rcases (hself_back d).1 hd with hd | hd
      · exact h.backward_open l' hencl d hd
      · exact h.backward_open l List.mem_cons_self d hd
    · rw [hback heq] at hd
      exact h.backward_open l' (List.mem_cons_of_mem _ hl') d hd
  · apply h.respects.mono
    intro l' hl' d hd
    have heq : l' ≠ encl := by
      rintro rfl
      exact h.not_mem_kept hencl hl'
    rwa [hback heq] at hd
  · intro k hk
    obtain ⟨l', hl', hreach⟩ := h.reach k hk
    rcases List.mem_cons.1 hl' with rfl | hl'
    · -- what is reached from the absorbed loop is reached from the loop around it
      refine ⟨encl, List.mem_cons_self, ?_⟩
      rcases Relation.ReflTransGen.cases_head hreach with rfl | ⟨d, hd, hreach⟩
      · exact absurd hk (h.not_mem_kept List.mem_cons_self)
      · have hedge : d ∈ σ'.backward encl := (hself_back d).2 (Or.inr hd)
        exact Relation.ReflTransGen.head hedge (Reach.mono hreach hgrow)
    · exact ⟨l', hl', hreach.mono hgrow⟩
  · have hrest : σ'.codeOf (rest ++ kept) = σ.codeOf (rest ++ kept) := by
      apply codeOf_congr
      intro l' hl'
      apply hne
      rintro rfl
      exact hnd.2.1 hl'
    have hcode : (σ'.loop encl).code ~ (σ.loop l).code ++ (σ.loop encl).code := by
      rw [hself]
      simp only [CodeLoop.code, CodeLoop.absorb]
      classical
      rw [List.perm_iff_count]
      intro inst
      simp only [List.count_append]
      omega
    rw [pushed_closeLoop]
    refine List.Perm.trans ?_ h.code
    show (σ'.loop encl).code ++ σ'.codeOf (rest ++ kept) ~
      (σ.loop l).code ++ ((σ.loop encl).code ++ σ.codeOf (rest ++ kept))
    rw [hrest, ← List.append_assoc]
    exact hcode.append_right _
  · intro l' hl'
    rw [computePushed_closeLoop]
    exact hmono (h.compute_open l' (List.mem_cons_of_mem _ hl'))
  · intro l'
    rw [computePushed_closeLoop]
    obtain ⟨l'', hl'', hsub⟩ := h.compute l'
    rcases List.mem_cons.1 hl'' with rfl | hl''
    · refine ⟨encl, List.mem_cons_self, ?_⟩
      rw [hself]
      exact hsub.trans (List.sublist_append_right _ _)
    · exact ⟨l'', hl'', hmono hsub⟩

/-- The loops that signals are associated with after one more loop is kept. -/
lemma property_foldl {l : ℕ} (sigs : List Tree) {prop : Tree → Option ℕ} {sig : Tree} {l' : ℕ}
    (h : sigs.foldl (fun prop s => Function.update prop s (some l)) prop sig = some l') :
    l' = l ∨ prop sig = some l' := by
  induction sigs generalizing prop with
  | nil => exact Or.inr h
  | cons s sigs ih =>
    rcases ih h with hl | hprop
    · exact Or.inl hl
    · by_cases hs : sig = s
      · subst hs
        dsimp only at hprop
        rw [Function.update_self] at hprop
        exact Or.inl (Option.some.inj hprop).symm
      · dsimp only at hprop
        rw [Function.update_of_ne hs] at hprop
        exact Or.inr hprop

/-- The current loop, kept. The loop around it depends on it. -/
theorem Construction.keep {l encl : ℕ} {rest : List ℕ} {sig : Tree}
    (h : Construction address symlist tr σ (l :: encl :: rest) kept) (hl : σ.fCurLoop = l)
    (hopen : OpenLoops σ encl (encl :: rest))
    (hencl : (σ.loop l).fEnclosingLoop = some encl)
    (habs : absorbs address symlist { σ with fCurLoop := encl } l encl sig = false)
    (sigs : List Tree) :
    Construction address symlist (tr ++ [(σ, .closeLoop sig)])
      { { σ with fCurLoop := encl }.updateLoop encl (.addBackwardDependency l) with
        fLoopProperty :=
          sigs.foldl (fun prop s => Function.update prop s (some l)) σ.fLoopProperty }
      (encl :: rest) (kept ++ [l]) := by
  subst hl
  set l := σ.fCurLoop
  set prop := sigs.foldl (fun prop s => Function.update prop s (some l)) σ.fLoopProperty with hprop
  set σ' : CodeContainer ι :=
    { { σ with fCurLoop := encl }.updateLoop encl (.addBackwardDependency l) with
      fLoopProperty := prop }
  have hbracketed : Bracketed (tr ++ [(σ, .closeLoop sig)]) σ' (encl :: rest) :=
    h.toBracketed.closeLoop (f := .addBackwardDependency l) sig rfl hopen rfl prop
  have hself : σ'.loop encl = (σ.loop encl).addBackwardDependency l := Function.update_self _ _ _
  have hne : ∀ {l'}, l' ≠ encl → σ'.loop l' = σ.loop l' := fun hl' => Function.update_of_ne hl' _ _
  have hmem : encl ∈ l :: encl :: rest := List.mem_cons_of_mem _ List.mem_cons_self
  have hback : ∀ {l'}, l' ≠ encl → σ'.backward l' = σ.backward l' := by
    intro l' hl'
    unfold backward
    rw [hne hl']
  have hself_back : ∀ d, d ∈ σ'.backward encl ↔ d = l ∨ d ∈ σ.backward encl := by
    intro d
    unfold backward
    rw [hself]
    exact LoopGraph.mem_insertLoop
  have hgrow : ∀ l', ∀ d ∈ σ.backward l', d ∈ σ'.backward l' := by
    intro l' d hd
    by_cases hl' : l' = encl
    · subst hl'
      exact (hself_back d).2 (Or.inr hd)
    · rwa [hback hl']
  have hsame : ∀ l', (σ'.loop l').code = (σ.loop l').code ∧
      (σ'.loop l').fComputeInst = (σ.loop l').fComputeInst := by
    intro l'
    by_cases hl' : l' = encl
    · subst hl'
      rw [hself]
      exact ⟨rfl, rfl⟩
    · rw [hne hl']
      exact ⟨rfl, rfl⟩
  have hclosed : l ∉ closings tr := fun hin =>
    (List.nodup_append.1 h.nodup).2.2 l List.mem_cons_self l hin rfl
  have hlne : l ≠ encl := by
    intro heq
    have hnd := (List.nodup_append.1 h.nodup).1
    rw [← heq] at hnd
    exact (List.nodup_cons.1 hnd).1 List.mem_cons_self
  -- neither the loop that is closed nor the loops kept before have changed
  have hkept : ∀ l' ∈ kept ++ [l], σ'.backward l' = σ.backward l' := by
    intro l' hl'
    apply hback
    rintro rfl
    rcases List.mem_append.1 hl' with hl' | hl'
    · exact h.not_mem_kept hmem hl'
    · exact hlne (List.mem_singleton.1 hl').symm
  refine ⟨hbracketed, ?_, ?_, ?_, ?_, ?_, ?_, ?_, ?_, ?_⟩
  · rw [closings_closeLoop]
    exact h.kept_closed.append_right [l]
  · intro l' hl' hin
    rcases (absorbed_snoc tr σ l' _).1 hl' with hl' | hl'
    · rcases List.mem_append.1 hin with hin | hin
      · exact h.absorbed l' hl' hin
      · rw [List.mem_singleton.1 hin] at hl'
        exact hclosed hl'.mem_closings
    · obtain ⟨σ'', sig', encl', hin', hcur, hencl', htrue⟩ := hl'
      obtain ⟨rfl, hcall⟩ := Prod.mk.inj (List.mem_singleton.1 hin')
      obtain rfl : sig' = sig := LoopCall.closeLoop.inj hcall
      subst hcur
      obtain rfl : encl = encl' := Option.some.inj (hencl.symm.trans hencl')
      rw [habs] at htrue
      cases htrue
  · intro l' hl' d hd
    by_cases heq : l' = encl
    · subst heq
      rcases (hself_back d).1 hd with rfl | hd
      · exact List.mem_append_right _ (List.mem_singleton_self _)
      · exact List.mem_append_left _ (h.backward_open l' hmem d hd)
    · rw [hback heq] at hd
      exact List.mem_append_left _ (h.backward_open l' (List.mem_cons_of_mem _ hl') d hd)
  · have hsnoc : Respects σ.backward (kept ++ [l]) :=
      h.respects.snoc fun d hd => h.backward_open l List.mem_cons_self d hd
    exact hsnoc.mono fun l' hl' d hd => hkept l' hl' ▸ hd
  · intro s l' hs
    rcases property_foldl sigs hs with rfl | hs
    · exact List.mem_append_right _ (List.mem_singleton_self _)
    · exact List.mem_append_left _ (h.property s l' hs)
  · have hl : Reach σ'.backward encl l := Reach.step .refl ((hself_back l).2 (Or.inl rfl))
    intro k hk
    rcases List.mem_append.1 hk with hk | hk
    · obtain ⟨l', hl', hreach⟩ := h.reach k hk
      rcases List.mem_cons.1 hl' with rfl | hl'
      · exact ⟨encl, List.mem_cons_self, Relation.ReflTransGen.trans hl (hreach.mono hgrow)⟩
      · exact ⟨l', hl', hreach.mono hgrow⟩
    · obtain rfl := List.mem_singleton.1 hk
      exact ⟨encl, List.mem_cons_self, hl⟩
  · have hcode : σ'.codeOf (encl :: rest ++ (kept ++ [l])) =
        σ.codeOf (encl :: rest ++ (kept ++ [l])) :=
      List.flatMap_congr fun l' _ => (hsame l').1
    rw [hcode, pushed_closeLoop]
    exact ((closings_perm l (encl :: rest) kept).flatMap_right _).trans h.code
  · intro l' hl'
    rw [computePushed_closeLoop, (hsame l').2]
    exact h.compute_open l' (List.mem_cons_of_mem _ hl')
  · intro l'
    rw [computePushed_closeLoop]
    obtain ⟨l'', hl'', hsub⟩ := h.compute l'
    refine ⟨l'', (closings_perm l (encl :: rest) kept).symm.subset hl'', ?_⟩
    rwa [(hsame l'').2]

theorem Construction.closeLoop (h : Construction address symlist tr σ stack kept) {sig : Tree}
    {σ' : CodeContainer ι} (hs : σ.closeLoop address symlist sig = some σ') :
    ∃ stack' kept', Construction address symlist (tr ++ [(σ, .closeLoop sig)]) σ' stack' kept' ∧
      stack.length = stack'.length + 1 := by
  unfold CodeContainer.closeLoop at hs
  dsimp only at hs
  cases hencl : (σ.loop σ.fCurLoop).fEnclosingLoop with
  | none =>
    rw [hencl] at hs
    cases hs
  | some encl =>
    obtain ⟨rest, rfl, hopen⟩ := h.openLoops.of_enclosing hencl
    rw [hencl] at hs
    simp only [Option.bind_eq_bind, Option.bind_some] at hs
    by_cases habs : absorbs address symlist { σ with fCurLoop := encl } σ.fCurLoop encl sig = true
    · rw [if_pos habs] at hs
      split at hs
      · obtain rfl := Option.some.inj hs
        exact ⟨encl :: rest, kept, h.absorb rfl hopen, rfl⟩
      · cases hs
    · rw [if_neg habs] at hs
      obtain rfl := Option.some.inj hs
      exact ⟨encl :: rest, kept ++ [σ.fCurLoop],
        h.keep rfl hopen hencl (Bool.eq_false_iff.2 habs) _, rfl⟩

end

/-! ## Runs -/

/-- What is open after a call. -/
def depthStep (n : ℕ) : LoopCall ι → ℕ → Prop
  | .openLoop _ _ _, n' => n' = n + 1
  | .closeLoop _, n' => n = n' + 1
  | _, n' => n' = n

lemma depth_snoc {cs : List (LoopCall ι)} {c : LoopCall ι} {m n : ℕ} :
    depth (cs ++ [c]) m = some n ↔ ∃ k, depth cs m = some k ∧ depthStep k c n := by
  induction cs generalizing m with
  | nil =>
    cases c with
    | closeLoop sig =>
      simp only [List.nil_append, depth, depthStep, Option.some.injEq, exists_eq_left']
      split
      · simp
        omega
      · simp
        omega
    | openLoop _ _ _ => simp [depth, depthStep, eq_comm]
    | push _ _ => simp [depth, depthStep, eq_comm]
    | addBackwardDependency _ => simp [depth, depthStep, eq_comm]
  | cons c' cs ih =>
    cases c' with
    | closeLoop sig =>
      simp only [List.cons_append, depth]
      split
      · simp
      · exact ih
    | openLoop _ _ _ => exact ih
    | push _ _ => exact ih
    | addBackwardDependency _ => exact ih

/-- The invariant is kept by every call. -/
theorem Construction.step {tr : List (CodeContainer ι × LoopCall ι)} {σ σ' : CodeContainer ι}
    {stack kept : List ℕ} {c : LoopCall ι} (h : Construction address symlist tr σ stack kept)
    (hs : step address symlist σ c = some σ') :
    ∃ stack' kept', Construction address symlist (tr ++ [(σ, c)]) σ' stack' kept' ∧
      ∀ n, stack.length = n + 1 → ∃ n', stack'.length = n' + 1 ∧ depthStep n c n' := by
  cases c with
  | openLoop recsymbol index_name size =>
    obtain rfl := Option.some.inj hs
    refine ⟨_, _, h.openLoop recsymbol index_name size, ?_⟩
    intro n hn
    exact ⟨n + 1, by rw [List.length_cons, hn], rfl⟩
  | push sec inst =>
    obtain rfl := Option.some.inj hs
    exact ⟨_, _, h.push sec inst, fun n hn => ⟨n, hn, rfl⟩⟩
  | addBackwardDependency sig =>
    refine ⟨stack, kept, ?_, fun n hn => ⟨n, hn, rfl⟩⟩
    cases hls : σ.fLoopProperty sig with
    | none =>
      have hsame : σ = σ' := Option.some.inj (by simpa only [CodeContainer.step, hls] using hs)
      exact hsame ▸ h.noDependency sig
    | some ls =>
      have hadd : σ.updateLoop σ.fCurLoop (.addBackwardDependency ls) = σ' :=
        Option.some.inj (by simpa only [CodeContainer.step, hls] using hs)
      exact hadd ▸ h.addBackwardDependency hls
  | closeLoop sig =>
    obtain ⟨stack', kept', h', hlen⟩ := h.closeLoop hs
    refine ⟨stack', kept', h', ?_⟩
    intro n hn
    obtain ⟨rest, hrest⟩ := h'.openLoops.eq_cons
    have hpos : stack'.length = rest.length + 1 := by rw [hrest, List.length_cons]
    refine ⟨rest.length, hpos, ?_⟩
    show n = rest.length + 1
    omega

theorem Runs.construction {tr : List (CodeContainer ι × LoopCall ι)} {σ : CodeContainer ι}
    (h : Runs address symlist tr σ) : ∃ stack kept, Construction address symlist tr σ stack kept ∧
      ∃ n, stack.length = n + 1 ∧ depth (tr.map Prod.snd) 0 = some n := by
  induction h with
  | start => exact ⟨[root], [], Construction.start, 0, rfl, rfl⟩
  | call h hs ih =>
    obtain ⟨stack, kept, hinv, n, hlen, hdepth⟩ := ih
    obtain ⟨stack', kept', hinv', hstep⟩ := hinv.step hs
    obtain ⟨n', hlen', hdepth'⟩ := hstep n hlen
    refine ⟨stack', kept', hinv', n', hlen', ?_⟩
    rw [List.map_append]
    exact depth_snoc.2 ⟨n, hdepth, hdepth'⟩

/-- Once each loop is closed, what is reached from the first loop is what has been kept. -/
theorem Construction.built {tr : List (CodeContainer ι × LoopCall ι)} {σ : CodeContainer ι}
    {kept : List ℕ} (h : Construction address symlist tr σ [root] kept) :
    Built address symlist tr σ := by
  have hrespects : Respects σ.backward (kept ++ [root]) :=
    h.respects.snoc fun d hd => h.backward_open root (List.mem_singleton_self _) d hd
  have hperm : kept ++ [root] ~ root :: kept := List.perm_append_comm
  have hreach : ∀ l, l ∈ root :: kept ↔ Reach σ.backward root l := by
    intro l
    constructor
    · intro hl
      rcases List.mem_cons.1 hl with rfl | hl
      · exact .refl
      · obtain ⟨l', hl', hreach⟩ := h.reach l hl
        rwa [List.mem_singleton.1 hl'] at hreach
    · intro hl
      induction hl with
      | refl => exact List.mem_cons_self
      | tail _ hd ih =>
        obtain ⟨before, after, heq⟩ := List.append_of_mem (hperm.symm.subset ih)
        apply hperm.subset
        rw [heq]
        exact List.mem_append_left _ (hrespects before _ after heq _ hd)
  have hnd := h.nodup_kept
  refine ⟨⟨root :: kept, hnd, hreach, h.code⟩, ?_, ?_, ?_, ?_⟩
  · intro l
    obtain ⟨l', hl', hsub⟩ := h.compute l
    exact ⟨l', (hreach l').1 hl', hsub⟩
  · intro l hl habs
    rcases List.mem_cons.1 ((hreach l).2 hl) with rfl | hkept
    · have hdisj := (List.nodup_append.1 h.nodup).2.2
      exact hdisj root (List.mem_singleton_self _) root habs.mem_closings rfl
    · exact h.absorbed l habs hkept
  · exact hrespects.acyclic (hperm.nodup_iff.2 hnd) (hperm.symm.subset List.mem_cons_self)
  · intro l d hl hd
    have hmem : l ∈ kept ++ [root] := hperm.symm.subset ((hreach l).2 hl)
    exact (hrespects.sublist hmem hd).trans (h.kept_closed.append_right [root])

/-- A call is possible when a loop that is closed has been opened and all loops have one size. -/
lemma exists_step {σ : CodeContainer ι} {c : LoopCall ι}
    (hsize : ∀ l, (σ.loop l).fSize = 0)
    (hopen : ∀ recsymbol index_name size, c = .openLoop recsymbol index_name size → size = 0)
    (hclose : ∀ sig, c = .closeLoop sig → (σ.loop σ.fCurLoop).fEnclosingLoop ≠ none) :
    ∃ σ', step address symlist σ c = some σ' ∧ ∀ l, (σ'.loop l).fSize = 0 := by
  have hupdate : ∀ {σ : CodeContainer ι} {l : ℕ} {f : CodeLoop ι → CodeLoop ι},
      (∀ l, (σ.loop l).fSize = 0) → (f (σ.loop l)).fSize = (σ.loop l).fSize →
        ∀ l', ((σ.updateLoop l f).loop l').fSize = 0 := by
    intro σ l f hsize hf l'
    by_cases hl : l' = l
    · subst hl
      rw [updateLoop_self, hf, hsize]
    · rw [updateLoop_of_ne hl, hsize]
  cases c with
  | openLoop recsymbol index_name size =>
    refine ⟨_, rfl, ?_⟩
    intro l
    by_cases hl : l = σ.fresh
    · subst hl
      have hself : (σ.openLoop recsymbol index_name size).loop σ.fresh =
        .new recsymbol (some σ.fCurLoop) index_name size := Function.update_self _ _ _
      rw [hself]
      exact hopen _ _ _ rfl
    · have hne : (σ.openLoop recsymbol index_name size).loop l = σ.loop l :=
        Function.update_of_ne hl _ _
      rw [hne, hsize]
  | push sec inst => exact ⟨_, rfl, hupdate hsize (by cases sec <;> rfl)⟩
  | addBackwardDependency sig =>
    cases hls : σ.fLoopProperty sig with
    | none => exact ⟨σ, by simp only [CodeContainer.step, hls], hsize⟩
    | some ls =>
      refine ⟨σ.updateLoop σ.fCurLoop (.addBackwardDependency ls), ?_, hupdate hsize rfl⟩
      simp only [CodeContainer.step, hls]
  | closeLoop sig =>
    obtain ⟨encl, hencl⟩ := Option.ne_none_iff_exists'.1 (hclose sig rfl)
    show ∃ σ', σ.closeLoop address symlist sig = some σ' ∧ _
    unfold CodeContainer.closeLoop
    simp only [hencl, Option.bind_eq_bind, Option.bind_some]
    have hsize' : ∀ l, ({ σ with fCurLoop := encl }.loop l).fSize = 0 := hsize
    split
    · rw [if_pos (by rw [hsize, hsize])]
      exact ⟨_, rfl, hupdate hsize' rfl⟩
    · exact ⟨_, rfl, hupdate hsize' rfl⟩

/-- The assertions hold on loops of the default size. -/
theorem exists_runs {cs : List (LoopCall ι)} {n : ℕ} (hdepth : depth cs 0 = some n)
    (hsizes : DefaultSizes cs) :
    ∃ tr σ, Runs address symlist tr σ ∧ tr.map Prod.snd = cs ∧ ∀ l, (σ.loop l).fSize = 0 := by
  induction cs using List.reverseRecOn generalizing n with
  | nil => exact ⟨[], .start, .start, rfl, fun _ => rfl⟩
  | append_singleton cs c ih =>
    obtain ⟨k, hk, hstep⟩ := depth_snoc.1 hdepth
    obtain ⟨tr, σ, hruns, hcs, hsize⟩ :=
      ih hk fun r i s hmem => hsizes r i s (List.mem_append_left _ hmem)
    obtain ⟨stack, kept, hinv, k', hlen, hk'⟩ := hruns.construction
    rw [hcs, hk] at hk'
    obtain rfl := Option.some.inj hk'
    have hopen : ∀ r i s, c = .openLoop r i s → s = 0 :=
      fun r i s heq => hsizes r i s (by rw [heq]; simp)
    have hclose : ∀ sig, c = .closeLoop sig → (σ.loop σ.fCurLoop).fEnclosingLoop ≠ none := by
      rintro sig rfl hnone
      -- only the first loop has no loop around it
      have hpos : k = n + 1 := hstep
      have hone := hinv.openLoops.length_eq_one hnone
      omega
    obtain ⟨σ', hσ', hsize'⟩ : ∃ σ', step address symlist σ c = some σ' ∧
        ∀ l, (σ'.loop l).fSize = 0 := exists_step hsize hopen hclose
    refine ⟨tr ++ [(σ, c)], σ', hruns.call hσ', ?_, hsize'⟩
    rw [List.map_append, hcs]
    rfl

/-- Loops are opened and closed without loss of code. -/
theorem built_of_wellBracketed (address : Tree → ℕ) (symlist : Tree → List Tree)
    (cs : List (LoopCall ι)) (h : WellBracketed cs) :
    (DefaultSizes cs → ∃ tr σ, Runs address symlist tr σ ∧ tr.map Prod.snd = cs) ∧
      ∀ tr σ, Runs address symlist tr σ → tr.map Prod.snd = cs → Built address symlist tr σ := by
  constructor
  · intro hsizes
    obtain ⟨tr, σ, hruns, hcs, -⟩ : ∃ tr σ, Runs address symlist tr σ ∧ tr.map Prod.snd = cs ∧
        ∀ l, (σ.loop l).fSize = 0 := exists_runs h hsizes
    exact ⟨tr, σ, hruns, hcs⟩
  · intro tr σ hruns hcs
    obtain ⟨stack, kept, hinv, n, hlen, hdepth⟩ := hruns.construction
    rw [hcs, h] at hdepth
    obtain rfl := Option.some.inj hdepth
    obtain rfl := hinv.openLoops.eq_root hlen
    exact hinv.built

/-- An input. -/
def input : Tree := .node (.sym .sigInput) [.leaf (.int 0)]

/-- A recursive group. -/
def group : Tree := .node (.sym .symRec) [.leaf (.sym (.user "W0"))]

/-- A signal of the group. -/
def feedback : Tree := .node (.sym .sigProj) [.leaf (.int 0), group]

/-- The loop of an input is kept. A loop inside the recursive loop needs it and is absorbed. -/
def nested : List (LoopCall ℕ) :=
  [.openLoop none "i" 0, .push .pre 1, .push .compute 2, .closeLoop input,
    .openLoop (some group) "i" 0, .push .compute 3,
    .openLoop none "i" 0, .addBackwardDependency input, .push .compute 4, .push .post 5,
    .closeLoop feedback, .closeLoop feedback, .push .compute 6]

theorem built_nested : ∃ tr σ,
    Runs Tree.size (fun sig => if sig = input then [] else [group]) tr σ ∧
      tr.map Prod.snd = nested ∧
      Built Tree.size (fun sig => if sig = input then [] else [group]) tr σ := by
  have hbuilt := built_of_wellBracketed Tree.size
    (fun sig => if sig = input then [] else [group]) nested rfl
  have hsizes : DefaultSizes nested := by
    intro recsymbol index_name size hmem
    simp only [nested, List.mem_cons, List.not_mem_nil, LoopCall.openLoop.injEq, reduceCtorEq,
      or_false, false_or] at hmem
    tauto
  obtain ⟨tr, σ, hruns, hcs⟩ := hbuilt.1 hsizes
  exact ⟨tr, σ, hruns, hcs, hbuilt.2 tr σ hruns hcs⟩

end CodeContainer

end Faust
