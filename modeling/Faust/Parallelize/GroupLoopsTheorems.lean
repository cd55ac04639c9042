import Faust.Parallelize.GroupLoops
import Mathlib.Algebra.BigOperators.Group.List.Basic
import Mathlib.Algebra.Order.BigOperators.Group.List

/-!
# Groups of loops keep the schedule

The use count of a loop is the number of loops that depend on it. A loop that is absorbed depends on
the fate of one loop only, so the chains are disjoint, and what they still depend on is what the
first loop of each chain depends on.
-/

namespace Faust.CodeLoops

open DepGraph

variable {L : CodeLoops} {root : ℕ}

/-! ## Use counts -/

/-- The uses of `v` by the loops of a list. -/
def usesIn (L : CodeLoops) (ws : List ℕ) (v : ℕ) : ℕ :=
  (ws.map fun w => (L.backward w).count v).sum

theorem usesIn_append (ws ws' : List ℕ) (v : ℕ) :
    L.usesIn (ws ++ ws') v = L.usesIn ws v + L.usesIn ws' v := by
  rw [usesIn, List.map_append, List.sum_append]
  rfl

/-- From `u` to `u'` the loops of `ws` have been counted for the first time, and the loops of `ls`
once more. -/
structure Counts (L : CodeLoops) (u u' : ℕ → ℕ) (ls ws : List ℕ) : Prop where
  count : ∀ v, u' v = u v + ls.count v + L.usesIn ws v
  fresh : ∀ w ∈ ws, u w = 0
  nodup : ws.Nodup
  counted : ∀ v, 0 < u' v ↔ 0 < u v ∨ v ∈ ws
  reached : ∀ w ∈ ws, ∃ l ∈ ls, Reach L.backward l w

theorem Counts.nil (u : ℕ → ℕ) : Counts L u u [] [] where
  count v := by simp [usesIn]
  fresh := by simp
  nodup := List.nodup_nil
  counted := by simp
  reached := by simp

theorem Counts.append {u u' u'' : ℕ → ℕ} {ls ls' ws ws' : List ℕ} (h : Counts L u u' ls ws)
    (h' : Counts L u' u'' ls' ws') : Counts L u u'' (ls ++ ls') (ws ++ ws') where
  count v := by
    rw [h'.count, h.count, List.count_append, usesIn_append]
    omega
  fresh w hw := by
    rcases List.mem_append.1 hw with hw | hw
    · exact h.fresh w hw
    · have := h'.fresh w hw
      have := h.count w
      omega
  nodup := by
    refine List.nodup_append.2 ⟨h.nodup, h'.nodup, ?_⟩
    intro w hw w' hw' heq
    subst heq
    have := h'.fresh w hw'
    have := (h.counted w).2 (Or.inr hw)
    omega
  counted v := by
    rw [h'.counted, h.counted, List.mem_append]
    tauto
  reached w hw := by
    rcases List.mem_append.1 hw with hw | hw
    · obtain ⟨l, hl, hreach⟩ := h.reached w hw
      exact ⟨l, List.mem_append_left _ hl, hreach⟩
    · obtain ⟨l, hl, hreach⟩ := h'.reached w hw
      exact ⟨l, List.mem_append_right _ hl, hreach⟩

/-- A traversal that only counts. -/
def Counted (L : CodeLoops) (s s' : Groups) (ls ws : List ℕ) : Prop :=
  Counts L s.fUseCount s'.fUseCount ls ws ∧ s'.fExtraLoops = s.fExtraLoops ∧
    s'.fBackwardLoopDependencies = s.fBackwardLoopDependencies

theorem foldlM_counts {f : Groups → ℕ → Option Groups} (ls : List ℕ)
    (hf : ∀ l ∈ ls, ∀ s : Groups, s.fBackwardLoopDependencies = L.backward →
      ∃ s' ws, f s l = some s' ∧ Counted L s s' [l] ws) (s : Groups)
    (hs : s.fBackwardLoopDependencies = L.backward) :
    ∃ s' ws, ls.foldlM f s = some s' ∧ Counted L s s' ls ws := by
  induction ls generalizing s with
  | nil => exact ⟨s, [], rfl, .nil _, rfl, rfl⟩
  | cons l ls ih =>
    obtain ⟨s₁, ws₁, heq₁, h₁, hextra₁, hback₁⟩ := hf l List.mem_cons_self s hs
    obtain ⟨s₂, ws₂, heq₂, h₂, hextra₂, hback₂⟩ :=
      ih (fun l hl => hf l (List.mem_cons_of_mem _ hl)) s₁ (hback₁.trans hs)
    refine ⟨s₂, ws₁ ++ ws₂, ?_, h₁.append h₂, hextra₂.trans hextra₁, hback₂.trans hback₁⟩
    rw [List.foldlM_cons, heq₁]
    exact heq₂

theorem exists_computeUseCount {rank : ℕ → ℕ}
    (hrank : ∀ u v, Reach L.backward root u → v ∈ L.backward u → rank v < rank u) (fuel : ℕ)
    {l : ℕ} (hl : Reach L.backward root l) (hfuel : rank l < fuel) (s : Groups)
    (hs : s.fBackwardLoopDependencies = L.backward) :
    ∃ s' ws, computeUseCount fuel l s = some s' ∧ Counted L s s' [l] ws := by
  induction fuel generalizing l s with
  | zero => omega
  | succ fuel ih =>
    rw [computeUseCount]
    have hinc : ∀ v, Function.update s.fUseCount l (s.fUseCount l + 1) v =
        s.fUseCount v + [l].count v := by
      intro v
      by_cases hv : v = l
      · simp [hv]
      · rw [Function.update_of_ne hv]
        have hne : l ≠ v := fun h => hv h.symm
        simp [hne]
    have hself : Function.update s.fUseCount l (s.fUseCount l + 1) l = s.fUseCount l + 1 :=
      Function.update_self _ _ _
    by_cases hzero : s.fUseCount l = 0
    · -- the loop is met for the first time
      dsimp only
      rw [if_pos (by rw [hself, hzero])]
      obtain ⟨s', ws, heq, h, hextra, hback⟩ := foldlM_counts (L := L)
        (f := fun s p => computeUseCount fuel p s) (L.backward l)
        (fun p hp s hs => ih (hl.step hp) (by have := hrank l p hl hp; omega) s hs)
        ⟨Function.update s.fUseCount l (s.fUseCount l + 1), s.fExtraLoops,
          s.fBackwardLoopDependencies⟩ hs
      have hnew : l ∉ ws := by
        intro hmem
        have hfresh := h.fresh l hmem
        dsimp only at hfresh
        rw [hinc] at hfresh
        simp at hfresh
      refine ⟨s', l :: ws, by simpa only [hs] using heq, ⟨?_, ?_, ?_, ?_, ?_⟩, hextra, hback⟩
      · intro v
        have hcount := h.count v
        dsimp only at hcount
        rw [hcount, hinc, usesIn, usesIn, List.map_cons, List.sum_cons]
        omega
      · intro w hw
        rcases List.mem_cons.1 hw with rfl | hw
        · exact hzero
        · have hfresh := h.fresh w hw
          dsimp only at hfresh
          rw [hinc] at hfresh
          omega
      · exact List.nodup_cons.2 ⟨hnew, h.nodup⟩
      · intro v
        rw [h.counted]
        dsimp only
        rw [hinc, List.mem_cons]
        by_cases hv : v = l
        · simp [hv]
        · have hne : l ≠ v := fun h => hv h.symm
          simp [hv, hne]
      · intro w hw
        refine ⟨l, List.mem_singleton_self l, ?_⟩
        rcases List.mem_cons.1 hw with rfl | hw
        · exact .refl
        · obtain ⟨p, hp, hreach⟩ := h.reached w hw
          exact Relation.ReflTransGen.head hp hreach
    · dsimp only
      rw [if_neg (by rw [hself]; omega)]
      have hpos : 0 < s.fUseCount l := by omega
      refine ⟨_, [], rfl, ⟨?_, by simp, List.nodup_nil, ?_, by simp⟩, rfl, rfl⟩
      · intro v
        dsimp only
        rw [hinc]
        simp [usesIn]
      · intro v
        dsimp only
        rw [hinc]
        by_cases hv : v = l
        · simp [hv, hpos]
        · have hne : l ≠ v := fun h => hv h.symm
          simp [hne]

theorem usesIn_le {ws : List ℕ} {w v : ℕ} (hw : w ∈ ws) :
    (L.backward w).count v ≤ L.usesIn ws v :=
  List.single_le_sum (by simp) _ (List.mem_map_of_mem hw)

/-- A loop that is counted once is used by one loop. -/
theorem eq_of_count_eq_one {s s' : Groups} {ws : List ℕ} (h : Counted L s s' [root] ws)
    (hall : ∀ w, Reach L.backward root w → w ∈ ws) {v w w' : ℕ}
    (hw : Reach L.backward root w) (hw' : Reach L.backward root w') (hv : v ∈ L.backward w)
    (hv' : v ∈ L.backward w') (hone : s'.fUseCount v = 1) : w = w' := by
  by_contra hne
  have hcount := h.1.count v
  have hpos : 0 < (L.backward w).count v := List.count_pos_iff.2 hv
  have hpos' : 0 < (L.backward w').count v := List.count_pos_iff.2 hv'
  -- both loops are counted, at different places
  obtain ⟨ws₁, ws₂, rfl⟩ := List.append_of_mem (hall w hw)
  have hmem := hall w' hw'
  have hsum : L.usesIn (ws₁ ++ w :: ws₂) v =
      L.usesIn ws₁ v + ((L.backward w).count v + L.usesIn ws₂ v) := by
    rw [usesIn_append, usesIn, usesIn, usesIn, List.map_cons, List.sum_cons]
  rw [List.mem_append, List.mem_cons] at hmem
  rcases hmem with hmem | rfl | hmem
  · have := usesIn_le (L := L) (v := v) hmem
    omega
  · exact hne rfl
  · have := usesIn_le (L := L) (v := v) hmem
    omega

/-- All the loops that are reached are counted. -/
theorem Counted.all {s s' : Groups} {ws : List ℕ} (h : Counted L s s' [root] ws)
    (hzero : ∀ v, s.fUseCount v = 0) {w : ℕ} (hw : Reach L.backward root w) : w ∈ ws := by
  have hcounted : ∀ v, 0 < s'.fUseCount v → v ∈ ws := by
    intro v hv
    rcases (h.1.counted v).1 hv with hpos | hmem
    · have := hzero v
      omega
    · exact hmem
  apply hcounted
  induction hw with
  | refl =>
    have := h.1.count root
    simp at this
    omega
  | @tail u v _ hv ih =>
    have hle := usesIn_le (L := L) (v := v) (hcounted u ih)
    have hpos : 0 < (L.backward u).count v := List.count_pos_iff.2 hv
    have := h.1.count v
    omega

/-! ## Chains -/

section
variable (L) (u : ℕ → ℕ)

/-- The loops of `extra` are in sequence before the loop `h`: each is the one dependency of the next
one, and used once. What they still depend on is `deps`. -/
inductive Linked (h : ℕ) : List ℕ → List ℕ → Prop
  | nil : Linked h [] (L.backward h)
  | cons {extra : List ℕ} {f : ℕ} (hlinked : Linked h extra [f]) (hone : u f = 1) :
      Linked h (f :: extra) (L.backward f)

variable {L u} {h f v : ℕ} {extra deps : List ℕ}

theorem Linked.nil_inv (hl : Linked L u h [] deps) : deps = L.backward h := by
  cases hl
  rfl

/-- The dependencies of a chain are those of its first loop. -/
theorem Linked.first (hl : Linked L u h extra deps) :
    ∃ g, g ∈ extra ++ [h] ∧ deps = L.backward g := by
  cases hl with
  | nil => exact ⟨h, by simp, rfl⟩
  | cons _ _ => exact ⟨_, by simp, rfl⟩

/-- Inside a chain, a loop has one dependency, the loop before it. -/
theorem Linked.before (hl : Linked L u h extra deps) {before after : List ℕ}
    (heq : extra ++ [h] = before ++ v :: after) :
    (before = [] ∧ L.backward v = deps) ∨
      ∃ g before', before = before' ++ [g] ∧ L.backward v = [g] := by
  induction hl generalizing before with
  | nil =>
    obtain ⟨rfl, hrest⟩ := List.append_eq_singleton_iff.1 heq.symm |>.resolve_right (by simp)
    obtain rfl : v = h := (List.cons.inj hrest).1
    exact Or.inl ⟨rfl, rfl⟩
  | @cons extra f hlinked hone ih =>
    cases before with
    | nil =>
      obtain ⟨rfl, _⟩ := List.cons.inj heq
      exact Or.inl ⟨rfl, rfl⟩
    | cons w before =>
      obtain ⟨rfl, htail⟩ := List.cons.inj heq
      rcases ih htail with ⟨rfl, hv⟩ | ⟨g, before', rfl, hv⟩
      · exact Or.inr ⟨f, [], rfl, hv⟩
      · exact Or.inr ⟨g, f :: before', rfl, hv⟩

/-- A loop of the chain is the last one, or is the one dependency of another loop of the chain. -/
theorem Linked.user (hl : Linked L u h extra deps) (hv : v ∈ extra) :
    u v = 1 ∧ ∃ w ∈ extra ++ [h], L.backward w = [v] := by
  induction hl with
  | nil => simp at hv
  | @cons extra f hlinked hone ih =>
    rcases List.mem_cons.1 hv with rfl | hv
    · obtain ⟨g, hg, hdeps⟩ := hlinked.first
      exact ⟨hone, g, List.mem_cons_of_mem _ hg, hdeps.symm⟩
    · obtain ⟨hv₁, w, hw, hdeps⟩ := ih hv
      exact ⟨hv₁, w, List.mem_cons_of_mem _ hw, hdeps⟩

/-- The loops of a chain are reached from its last loop. -/
theorem Linked.reach (hl : Linked L u h extra deps) :
    (∀ g ∈ extra ++ [h], Reach L.backward h g) ∧ ∀ d ∈ deps, Reach L.backward h d := by
  induction hl with
  | nil =>
    have hself : Reach L.backward h h := .refl
    refine ⟨by simpa using hself, fun d hd => hself.step hd⟩
  | @cons extra f hlinked hone ih =>
    have hf : Reach L.backward h f := ih.2 f (List.mem_singleton_self f)
    refine ⟨fun g hg => ?_, fun d hd => hf.step hd⟩
    rcases List.mem_cons.1 hg with rfl | hg
    · exact hf
    · exact ih.1 g hg

section
variable {rank : ℕ → ℕ}
  (hrank : ∀ u v, Reach L.backward root u → v ∈ L.backward u → rank v < rank u)
include hrank

theorem rank_le (hh : Reach L.backward root h) (hv : Reach L.backward h v) :
    rank v ≤ rank h := by
  induction hv with
  | refl => exact le_rfl
  | tail hu hv ih => exact (hrank _ _ (Relation.ReflTransGen.trans hh hu) hv).le.trans ih

/-- What a chain depends on is below its last loop. -/
theorem Linked.rank_lt (hl : Linked L u h extra deps) (hh : Reach L.backward root h) :
    ∀ d ∈ deps, rank d < rank h := by
  intro d hd
  obtain ⟨g, hg, rfl⟩ := hl.first
  have hreach := hl.reach.1 g hg
  exact (hrank g d (Relation.ReflTransGen.trans hh hreach) hd).trans_le (rank_le hrank hh hreach)

theorem Linked.nodup (hl : Linked L u h extra deps) (hh : Reach L.backward root h) :
    (extra ++ [h]).Nodup ∧ ∀ g ∈ extra ++ [h], ∀ d ∈ deps, rank d < rank g := by
  induction hl with
  | nil =>
    refine ⟨by simp, fun g hg d hd => ?_⟩
    rw [List.nil_append, List.mem_singleton] at hg
    exact hg ▸ hrank h d hh hd
  | @cons extra f hlinked hone ih =>
    have hf : ∀ g ∈ extra ++ [h], rank f < rank g := fun g hg =>
      ih.2 g hg f (List.mem_singleton_self f)
    have hreach : Reach L.backward root f :=
      Relation.ReflTransGen.trans hh (hlinked.reach.2 f (List.mem_singleton_self f))
    have hdeps : ∀ d ∈ L.backward f, rank d < rank f := fun d hd => hrank f d hreach hd
    refine ⟨List.nodup_cons.2 ⟨fun hmem => lt_irrefl _ (hf f hmem), ih.1⟩, fun g hg d hd => ?_⟩
    rcases List.mem_cons.1 hg with rfl | hg
    · exact hdeps d hd
    · exact (hdeps d hd).trans (hf g hg)

end

end

/-! ## Grouping -/

section
variable (L) (root) (u : ℕ → ℕ)

/-- The loop is not absorbed: it is the root, or is used twice, or by a loop that has other
dependencies. -/
def Starts (f : ℕ) : Prop :=
  f = root ∨ u f ≠ 1 ∨ ∃ w, Reach L.backward root w ∧ f ∈ L.backward w ∧ L.backward w ≠ [f]

/-- What holds while loops are grouped: each loop has a chain before it, and the loops that will be
absorbed have not been touched. -/
structure GroupInv (s : Groups) : Prop where
  linked : ∀ l, Linked L u l (s.fExtraLoops l) (s.fBackwardLoopDependencies l)
  fresh : ∀ l, ¬ Starts L root u l → s.fExtraLoops l = []
  count : s.fUseCount = u

/-- The chain of the loop cannot be longer. -/
def Full (s : Groups) (l : ℕ) : Prop := ∀ f, s.fBackwardLoopDependencies l = [f] → u f ≠ 1

/-- The loop has the same fields in both states. -/
def SameLoop (s s' : Groups) (l : ℕ) : Prop :=
  s'.fExtraLoops l = s.fExtraLoops l ∧
    s'.fBackwardLoopDependencies l = s.fBackwardLoopDependencies l

/-- The loops that change get full chains. -/
def Extends (s s' : Groups) : Prop :=
  ∀ l, SameLoop s s' l ∨ ¬ Full u s l ∧ Full u s' l

/-- All that is reached from the loop is full. -/
def AllFull (s : Groups) (l : ℕ) : Prop :=
  ∀ h, Reach s.fBackwardLoopDependencies l h → Full u s h

variable {L root u} {s s' s'' : Groups} {l h : ℕ}

theorem SameLoop.full_iff (h : SameLoop s s' l) : Full u s' l ↔ Full u s l := by
  rw [Full, Full, h.2]

theorem Extends.refl (s : Groups) : Extends u s s := fun _ => Or.inl ⟨rfl, rfl⟩

theorem Extends.same (h : Extends u s s') (hl : Full u s l) : SameLoop s s' l :=
  (h l).resolve_right fun hnot => hnot.1 hl

theorem Extends.full (h : Extends u s s') (hl : Full u s l) : Full u s' l :=
  (h.same hl).full_iff.2 hl

theorem Extends.trans (h : Extends u s s') (h' : Extends u s' s'') : Extends u s s'' := by
  intro l
  rcases h l with hsame | ⟨hnot, hfull⟩
  · rcases h' l with hsame' | ⟨hnot', hfull'⟩
    · exact Or.inl ⟨hsame'.1.trans hsame.1, hsame'.2.trans hsame.2⟩
    · exact Or.inr ⟨fun hl => hnot' (hsame.full_iff.2 hl), hfull'⟩
  · exact Or.inr ⟨hnot, h'.full hfull⟩

/-- Full chains stay as they are. -/
theorem AllFull.mono (hl : AllFull u s l) (h : Extends u s s') : AllFull u s' l := by
  have hreach : ∀ v, Reach s'.fBackwardLoopDependencies l v →
      Reach s.fBackwardLoopDependencies l v := by
    intro v hv
    induction hv with
    | refl => exact .refl
    | tail _ hv ih =>
      apply ih.step
      rw [← (h.same (hl _ ih)).2]
      exact hv
  exact fun v hv => h.full (hl v (hreach v hv))

theorem foldlM_groups {f : Groups → ℕ → Option Groups} (ps : List ℕ)
    (hf : ∀ p ∈ ps, ∀ s, GroupInv L root u s →
      ∃ s', f s p = some s' ∧ GroupInv L root u s' ∧ Extends u s s' ∧ AllFull u s' p)
    (s : Groups) (hs : GroupInv L root u s) :
    ∃ s', ps.foldlM f s = some s' ∧ GroupInv L root u s' ∧ Extends u s s' ∧
      ∀ p ∈ ps, AllFull u s' p := by
  induction ps generalizing s with
  | nil => exact ⟨s, rfl, hs, .refl s, by simp⟩
  | cons p ps ih =>
    obtain ⟨s₁, heq₁, hs₁, hext₁, hfull₁⟩ := hf p List.mem_cons_self s hs
    obtain ⟨s₂, heq₂, hs₂, hext₂, hfull₂⟩ :=
      ih (fun q hq => hf q (List.mem_cons_of_mem _ hq)) s₁ hs₁
    refine ⟨s₂, by rw [List.foldlM_cons, heq₁]; exact heq₂, hs₂, hext₁.trans hext₂, ?_⟩
    intro q hq
    rcases List.mem_cons.1 hq with rfl | hq
    · exact hfull₁.mono hext₂
    · exact hfull₂ q hq

/-- A loop that is full, and all that is reached from its dependencies. -/
theorem AllFull.of_deps (hl : Full u s l)
    (hdeps : ∀ p ∈ s.fBackwardLoopDependencies l, AllFull u s p) : AllFull u s l := by
  intro v hv
  rcases Relation.ReflTransGen.cases_head hv with rfl | ⟨p, hp, hv⟩
  · exact hl
  · exact hdeps p hp v hv

/-- The chain of a loop. -/
def chain (s : Groups) (h : ℕ) : List ℕ := s.fExtraLoops h ++ [h]

theorem mem_chain_self (s : Groups) (h : ℕ) : h ∈ chain s h := by
  simp [chain]

section
variable {rank : ℕ → ℕ}
  (hrank : ∀ u v, Reach L.backward root u → v ∈ L.backward u → rank v < rank u)
  (huniq : ∀ v w w', Reach L.backward root w → Reach L.backward root w' → v ∈ L.backward w →
    v ∈ L.backward w' → u v = 1 → w = w')
include hrank huniq

/-- A loop that is absorbed does not start a chain. -/
theorem not_starts {w f : ℕ} (hw : Reach L.backward root w) (hf : L.backward w = [f])
    (hone : u f = 1) : ¬ Starts L root u f := by
  have hmem : f ∈ L.backward w := by simp [hf]
  intro hstarts
  rcases hstarts with rfl | hne | ⟨w', hw', hmem', hne⟩
  · have := hrank w f hw hmem
    have := rank_le hrank .refl hw
    omega
  · exact hne hone
  · obtain rfl := huniq f w w' hw hw' hmem hmem' hone
    exact hne hf

/-- `concat` makes a chain longer. -/
theorem GroupInv.concat (hs : GroupInv L root u s) (hl : Reach L.backward root l)
    (hstarts : Starts L root u l) {f : ℕ} (hf : s.fBackwardLoopDependencies l = [f])
    (hone : u f = 1) : GroupInv L root u (CodeLoops.concat l f s) ∧
      s.fBackwardLoopDependencies f = L.backward f := by
  obtain ⟨g, hg, hdeps⟩ := (hs.linked l).first
  have hreach := Relation.ReflTransGen.trans hl ((hs.linked l).reach.1 g hg)
  have hextra := hs.fresh f (not_starts hrank huniq hreach (hdeps.symm.trans hf) hone)
  have hlinked := hs.linked f
  rw [hextra] at hlinked
  have hback := hlinked.nil_inv
  refine ⟨⟨?_, ?_, hs.count⟩, hback⟩
  · intro x
    by_cases hx : x = l
    · subst hx
      show Linked L u x (Function.update s.fExtraLoops x _ x)
        (Function.update s.fBackwardLoopDependencies x _ x)
      rw [Function.update_self, Function.update_self, hback]
      have hlast := hs.linked x
      rw [hf] at hlast
      exact .cons hlast hone
    · show Linked L u x (Function.update s.fExtraLoops l _ x)
        (Function.update s.fBackwardLoopDependencies l _ x)
      rw [Function.update_of_ne hx, Function.update_of_ne hx]
      exact hs.linked x
  · intro x hx
    show Function.update s.fExtraLoops l _ x = []
    have hne : x ≠ l := fun heq => hx (heq ▸ hstarts)
    rw [Function.update_of_ne hne]
    exact hs.fresh x hx

/-- `groupSeqLoops`, with fuel for what the loop depends on. -/
theorem exists_groupSeqLoops (fuel m : ℕ) (hs : GroupInv L root u s)
    (hl : Reach L.backward root l) (hstarts : Starts L root u l)
    (hm : ∀ d ∈ s.fBackwardLoopDependencies l, rank d < m) (hfuel : m < fuel) :
    ∃ s', groupSeqLoops fuel l s = some s' ∧ GroupInv L root u s' ∧ Extends u s s' ∧
      AllFull u s' l := by
  induction fuel generalizing l m s with
  | zero => omega
  | succ fuel ih =>
    obtain ⟨g, hg, hdeps⟩ := (hs.linked l).first
    have hreach : Reach L.backward root g :=
      Relation.ReflTransGen.trans hl ((hs.linked l).reach.1 g hg)
    -- the dependencies of a loop are below it
    have hbelow : ∀ {p s}, GroupInv L root u s → Reach L.backward root p →
        ∀ d ∈ s.fBackwardLoopDependencies p, rank d < rank p :=
      fun hs hp => (hs.linked _).rank_lt hrank hp
    have hp : ∀ p ∈ s.fBackwardLoopDependencies l, Reach L.backward root p := by
      intro p hp
      rw [hdeps] at hp
      exact hreach.step hp
    rw [groupSeqLoops]
    split
    · next hnil =>
      have hl : Full u s l := by
        intro f hf
        rw [hnil] at hf
        cases hf
      refine ⟨s, rfl, hs, .refl s, .of_deps hl ?_⟩
      rw [hnil]
      simp
    · next f hf =>
      have hfm := hm f (by simp [hf])
      have hfreach := hp f (by simp [hf])
      rw [hs.count]
      split
      · -- the loop `f` is absorbed
        next hone =>
        obtain ⟨hs₁, hback⟩ := hs.concat hrank huniq hl hstarts hf hone
        have hdeps₁ : (CodeLoops.concat l f s).fBackwardLoopDependencies l = L.backward f := by
          show Function.update s.fBackwardLoopDependencies l _ l = _
          rw [Function.update_self, hback]
        obtain ⟨s', heq, hs', hext, hfull⟩ := ih (rank f) hs₁ hl hstarts (by
          rw [hdeps₁]
          exact fun d hd => hrank f d hfreach hd) (by omega)
        refine ⟨s', heq, hs', fun x => ?_, hfull⟩
        by_cases hx : x = l
        · subst hx
          exact Or.inr ⟨fun hnot => hnot f hf hone, hfull x .refl⟩
        · have hsame : SameLoop s (CodeLoops.concat l f s) x :=
            ⟨Function.update_of_ne hx _ _, Function.update_of_ne hx _ _⟩
          rcases hext x with hsame' | ⟨hnot, hfull'⟩
          · exact Or.inl ⟨hsame'.1.trans hsame.1, hsame'.2.trans hsame.2⟩
          · exact Or.inr ⟨fun h => hnot (hsame.full_iff.2 h), hfull'⟩
      · next hone =>
        obtain ⟨s', heq, hs', hext, hfull⟩ := ih (rank f) hs hfreach (Or.inr (Or.inl hone))
          (hbelow hs hfreach) (by omega)
        have hl : Full u s l := by
          intro f' hf'
          rw [hf] at hf'
          exact (List.cons.inj hf').1 ▸ hone
        refine ⟨s', heq, hs', hext, .of_deps (hext.full hl) ?_⟩
        rw [(hext.same hl).2, hf]
        intro p hp
        rw [List.mem_singleton.1 hp]
        exact hfull
    · next hnil hone =>
      have hl : Full u s l := fun f hf => absurd hf (hone f)
      obtain ⟨s', heq, hs', hext, hfull⟩ := foldlM_groups (L := L) (u := u)
        (f := fun s p => groupSeqLoops fuel p s) (s.fBackwardLoopDependencies l) (by
          intro p hpm s₁ hs₁
          have hpr := hp p hpm
          have hpm' := hm p hpm
          have hstartsp : Starts L root u p := by
            refine Or.inr (Or.inr ⟨g, hreach, hdeps ▸ hpm, ?_⟩)
            rw [← hdeps]
            exact hone p
          exact ih (rank p) hs₁ hpr hstartsp (hbelow hs₁ hpr) (by omega)) s hs
      refine ⟨s', heq, hs', hext, .of_deps (hext.full hl) ?_⟩
      rw [(hext.same hl).2]
      exact hfull

/-! ## The groups -/

omit hrank huniq in
/-- What is left after grouping are loops that start chains. -/
theorem AllFull.starts (hs : GroupInv L root u s) (hfull : AllFull u s root) {h : ℕ}
    (hh : Reach s.fBackwardLoopDependencies root h) :
    Reach L.backward root h ∧ Starts L root u h := by
  induction hh with
  | refl => exact ⟨.refl, Or.inl rfl⟩
  | @tail h p hh hp ih =>
    obtain ⟨g, hg, hdeps⟩ := (hs.linked h).first
    have hreach : Reach L.backward root g :=
      Relation.ReflTransGen.trans ih.1 ((hs.linked h).reach.1 g hg)
    have hmem : p ∈ L.backward g := hdeps ▸ hp
    refine ⟨hreach.step hmem, ?_⟩
    by_cases hone : L.backward g = [p]
    · exact Or.inr (Or.inl (hfull h hh p (hdeps.trans hone)))
    · exact Or.inr (Or.inr ⟨g, hreach, hmem, hone⟩)

/-- The loops of a chain but its last one start no chain, and come after a loop of the chain. -/
theorem GroupInv.absorbed (hs : GroupInv L root u s) {h v : ℕ} (hh : Reach L.backward root h)
    (hv : v ∈ s.fExtraLoops h) : ¬ Starts L root u v ∧
      ∃ w ∈ chain s h, Reach L.backward root w ∧ L.backward w = [v] := by
  obtain ⟨hone, w, hw, hdeps⟩ := (hs.linked h).user hv
  have hreach : Reach L.backward root w :=
    Relation.ReflTransGen.trans hh ((hs.linked h).reach.1 w hw)
  exact ⟨not_starts hrank huniq hreach hdeps hone, w, hw, hreach, hdeps⟩

/-- Two chains have no loop in common. -/
theorem GroupInv.disjoint (hs : GroupInv L root u s) (hfull : AllFull u s root) {h h' v : ℕ}
    (hh : Reach s.fBackwardLoopDependencies root h)
    (hh' : Reach s.fBackwardLoopDependencies root h') (hv : v ∈ chain s h)
    (hv' : v ∈ chain s h') : h = h' := by
  obtain ⟨hreach, hstarts⟩ := hfull.starts hs hh
  obtain ⟨hreach', hstarts'⟩ := hfull.starts hs hh'
  -- by induction on the place of the loop, from the end of the chains
  have hplace : ∀ n v, rank root - rank v ≤ n → v ∈ chain s h → v ∈ chain s h' → h = h' := by
    intro n
    induction n with
    | zero =>
      intro v hn hv hv'
      rcases List.mem_append.1 hv with hv | hv
      · obtain ⟨_, w, hw, hwreach, hdeps⟩ := hs.absorbed hrank huniq hreach hv
        have := hrank w v hwreach (by simp [hdeps])
        have := rank_le hrank .refl hwreach
        omega
      · rcases List.mem_append.1 hv' with hv' | hv'
        · rw [List.mem_singleton.1 hv] at hv'
          exact absurd hstarts (hs.absorbed hrank huniq hreach' hv').1
        · exact (List.mem_singleton.1 hv).symm.trans (List.mem_singleton.1 hv')
    | succ n ih =>
      intro v hn hv hv'
      rcases List.mem_append.1 hv with hv | hv
      · obtain ⟨hnot, w, hw, hwreach, hdeps⟩ := hs.absorbed hrank huniq hreach hv
        rcases List.mem_append.1 hv' with hv' | hv'
        · obtain ⟨_, w', hw', hwreach', hdeps'⟩ := hs.absorbed hrank huniq hreach' hv'
          have hone := ((hs.linked h).user hv).1
          obtain rfl := huniq v w w' hwreach hwreach' (by simp [hdeps]) (by simp [hdeps']) hone
          have := hrank w v hwreach (by simp [hdeps])
          have := rank_le hrank .refl hwreach
          exact ih w (by omega) hw hw'
        · rw [List.mem_singleton.1 hv'] at hnot
          exact absurd hstarts' hnot
      · rcases List.mem_append.1 hv' with hv' | hv'
        · rw [List.mem_singleton.1 hv] at hv'
          exact absurd hstarts (hs.absorbed hrank huniq hreach' hv').1
        · exact (List.mem_singleton.1 hv).symm.trans (List.mem_singleton.1 hv')
  exact hplace _ v le_rfl hv hv'

omit hrank huniq in
/-- Each loop is in a chain. -/
theorem GroupInv.covers (hs : GroupInv L root u s) {v : ℕ} (hv : Reach L.backward root v) :
    ∃ h, Reach s.fBackwardLoopDependencies root h ∧ v ∈ chain s h := by
  induction hv with
  | refl => exact ⟨root, .refl, mem_chain_self s root⟩
  | @tail w v _ hv ih =>
    obtain ⟨h, hh, hw⟩ := ih
    obtain ⟨before, after, heq⟩ := List.append_of_mem hw
    have hv : v ∈ L.backward w := hv
    rcases (hs.linked h).before heq with ⟨_, hdeps⟩ | ⟨g, before', rfl, hdeps⟩
    · exact ⟨v, hh.step (hdeps ▸ hv), mem_chain_self s v⟩
    · rw [hdeps, List.mem_singleton] at hv
      subst hv
      exact ⟨h, hh, by rw [heq]; simp⟩

/-- The code of a chain is generated loop by loop. -/
theorem GroupInv.generates (hs : GroupInv L root u s) {h : ℕ} (hh : Reach L.backward root h)
    (fuel : ℕ) : generateLoops s (fuel + 2) h = some (chain s h) := by
  have hone : ∀ g ∈ s.fExtraLoops h, generateLoops s (fuel + 1) g = some [g] := by
    intro g hg
    have hempty := hs.fresh g (hs.absorbed hrank huniq hh hg).1
    rw [generateLoops, hempty]
    rfl
  have hmap : ∀ gs : List ℕ, (∀ g ∈ gs, generateLoops s (fuel + 1) g = some [g]) →
      gs.mapM (generateLoops s (fuel + 1)) = some (gs.map fun g => [g]) := by
    intro gs hgs
    induction gs with
    | nil => rfl
    | cons g gs ih =>
      rw [List.mapM_cons, hgs g List.mem_cons_self,
        ih fun g' hg' => hgs g' (List.mem_cons_of_mem _ hg')]
      rfl
  have hflat : ∀ gs : List ℕ, (gs.map fun g => [g]).flatten = gs := by
    intro gs
    rw [← List.flatMap_def, List.flatMap_singleton']
  rw [generateLoops, hmap _ hone]
  show some ((List.map (fun g => [g]) (s.fExtraLoops h)).flatten ++ [h]) = _
  rw [hflat]
  rfl

theorem GroupInv.isGrouping (hs : GroupInv L root u s) (hfull : AllFull u s root) :
    IsGrouping L root s (chain s) where
  generates h hh := by
    refine ⟨2, fun fuel hfuel => ?_⟩
    obtain ⟨k, rfl⟩ : ∃ k, fuel = k + 2 := ⟨fuel - 2, by omega⟩
    exact hs.generates hrank huniq (hfull.starts hs hh).1 k
  unique l hl := by
    obtain ⟨h, hh, hmem⟩ := hs.covers hl
    refine ⟨h, ⟨hh, hmem⟩, ?_⟩
    intro h' hh'
    exact hs.disjoint hrank huniq hfull hh'.1 hh hh'.2 hmem
  schedule order hnodup hmem hrespects := by
    refine ⟨?_, ?_, ?_⟩
    · refine List.nodup_flatMap.2 ⟨fun h hh => ?_, ?_⟩
      · exact ((hs.linked h).nodup hrank (hfull.starts hs ((hmem h).1 hh)).1).1
      · apply hnodup.imp_of_mem
        intro h h' hh hh' hne v hv hv'
        exact hne (hs.disjoint hrank huniq hfull ((hmem h).1 hh) ((hmem h').1 hh') hv hv')
    · intro l
      rw [List.mem_flatMap]
      constructor
      · intro hl
        obtain ⟨h, hh, hl⟩ := hl
        exact Relation.ReflTransGen.trans (hfull.starts hs ((hmem h).1 hh)).1
          ((hs.linked h).reach.1 l hl)
      · intro hl
        obtain ⟨h, hh, hl⟩ := hs.covers hl
        exact ⟨h, (hmem h).2 hh, hl⟩
    · apply hrespects.flatMap fun h _ => mem_chain_self s h
      intro h hh before v after heq w hw
      rcases (hs.linked h).before heq with ⟨_, hdeps⟩ | ⟨g, before', rfl, hdeps⟩
      · exact Or.inr (hdeps ▸ hw)
      · rw [hdeps, List.mem_singleton] at hw
        exact Or.inl (by simp [hw])

end

end

/-- Grouping keeps the schedule of a graph without cycles. -/
theorem processFIR_isGrouping (L : CodeLoops) (root : ℕ) (h : Acyclic L.backward root) :
    ∃ n, ∀ fuel ≥ n, ∃ s chain, L.processFIR fuel root = some s ∧ IsGrouping L root s chain := by
  obtain ⟨rank, hrank⟩ := h.exists_rank
  refine ⟨rank root + 1, fun fuel hfuel => ?_⟩
  obtain ⟨s₁, ws, heq₁, hcounted⟩ := exists_computeUseCount hrank fuel .refl (by omega)
    ⟨fun _ => 0, fun _ => [], L.backward⟩ rfl
  have huniq : ∀ v w w', Reach L.backward root w → Reach L.backward root w' →
      v ∈ L.backward w → v ∈ L.backward w' → s₁.fUseCount v = 1 → w = w' := by
    intro v w w' hw hw' hv hv' hone
    have hall : ∀ w, Reach L.backward root w → w ∈ ws := fun w hw =>
      hcounted.all (fun _ => rfl) hw
    exact eq_of_count_eq_one hcounted hall hw hw' hv hv' hone
  have hs₁ : GroupInv L root s₁.fUseCount s₁ := by
    refine ⟨fun l => ?_, fun l _ => ?_, rfl⟩
    · rw [hcounted.2.1, hcounted.2.2]
      exact .nil
    · rw [hcounted.2.1]
  have hm : ∀ d ∈ s₁.fBackwardLoopDependencies root, rank d < rank root := by
    rw [hcounted.2.2]
    exact fun d hd => hrank root d .refl hd
  obtain ⟨s, heq, hs, _, hfull⟩ := exists_groupSeqLoops hrank huniq fuel (rank root) hs₁ .refl
    (Or.inl rfl) hm (by omega)
  refine ⟨s, chain s, ?_, hs.isGrouping hrank huniq hfull⟩
  rw [processFIR, heq₁]
  exact heq

/-- Loops in sequence, around loops that are used together and a loop that is used twice. -/
def diamondLoops : CodeLoops where
  backward l := [[], [0], [0], [1, 2], [3], [4]].getD l []
  isEmpty _ := false
  nodup_backward l := by
    rcases l with _ | _ | _ | _ | _ | _ | l <;> simp

theorem processFIR_diamond : ∃ n, ∀ fuel ≥ n, ∃ s chain,
    diamondLoops.processFIR fuel 5 = some s ∧ IsGrouping diamondLoops 5 s chain := by
  apply processFIR_isGrouping
  apply acyclic_of_lt
  intro u v hv
  rcases u with _ | _ | _ | _ | _ | _ | u <;> simp [diamondLoops] at hv <;> omega

example : (diamondLoops.processFIR 9 5).map (fun s => (s.fExtraLoops 5,
    s.fBackwardLoopDependencies 5)) = some ([3, 4], [1, 2]) := by decide

end Faust.CodeLoops
