import Faust.Signals.TableTypes

/-!
# Trees in trees

What is below a signal is in its tree, so a graph of signals is made of the trees in its root and in
the definitions of its recursive symbols.
-/

namespace Faust

open Faust.Tree

mutual
/-- The trees in a tree. -/
def subtrees : Tree → List Tree
  | .node n br => .node n br :: subtreesOf br

def subtreesOf : List Tree → List Tree
  | [] => []
  | t :: ts => subtrees t ++ subtreesOf ts
end

theorem mem_subtrees_self (t : Tree) : t ∈ subtrees t := by
  cases t
  exact List.mem_cons_self

theorem mem_subtreesOf {t u : Tree} {ts : List Tree} (hu : u ∈ ts) (ht : t ∈ subtrees u) :
    t ∈ subtreesOf ts := by
  induction ts with
  | nil => simp at hu
  | cons v ts ih =>
    rw [subtreesOf, List.mem_append]
    rcases List.mem_cons.1 hu with rfl | hu
    · exact Or.inl ht
    · exact Or.inr (ih hu)

theorem mem_subtrees_branch {n : Node} {br : List Tree} {t u : Tree} (hu : u ∈ br)
    (ht : t ∈ subtrees u) : t ∈ subtrees (.node n br) := by
  rw [subtrees]
  exact List.mem_cons_of_mem _ (mem_subtreesOf hu ht)

mutual
theorem subtrees_trans : ∀ (t : Tree) {u v : Tree}, u ∈ subtrees t → v ∈ subtrees u →
    v ∈ subtrees t
  | .node n br, u, v, hu, hv => by
    rw [subtrees, List.mem_cons] at hu
    rcases hu with rfl | hu
    · exact hv
    · rw [subtrees]
      exact List.mem_cons_of_mem _ (subtreesOf_trans br hu hv)

theorem subtreesOf_trans : ∀ (ts : List Tree) {u v : Tree}, u ∈ subtreesOf ts →
    v ∈ subtrees u → v ∈ subtreesOf ts
  | [], u, v, hu, hv => by simp [subtreesOf] at hu
  | t :: ts, u, v, hu, hv => by
    rw [subtreesOf, List.mem_append] at hu ⊢
    exact hu.imp (fun h => subtrees_trans t h hv) (fun h => subtreesOf_trans ts h hv)
end

theorem mem_subtrees_listElements {t : Tree} : ∀ {l : Tree}, t ∈ listElements l →
    t ∈ subtrees l := by
  intro l
  induction l using Tree.induction with
  | h n br ih =>
    intro ht
    unfold listElements at ht
    split at ht
    · next hd tl heq =>
      obtain ⟨rfl, rfl⟩ := Tree.node.inj heq
      rcases List.mem_cons.1 ht with rfl | ht
      · exact mem_subtrees_branch (by simp) (mem_subtrees_self _)
      · exact mem_subtrees_branch (u := tl) (by simp) (ih tl (by simp) ht)
    · simp at ht

theorem size_lt_of_mem_listElements {s ls : Tree} (h : s ∈ listElements ls) :
    s.size < ls.size := by
  fun_induction listElements ls with
  | case1 hd tl ih =>
    have := hd.size_pos
    obtain rfl | h := List.mem_cons.mp h
    · simp [size, size.sizes]
      omega
    · have := ih h
      simp [size, size.sizes]
      omega
  | case2 ls hls => cases h

/-- A sub-signal is a branch of the signal, or an element of a list that is a branch. -/
theorem mem_branches_of_getSubSignals {b : Bool} {u s : Tree} {ss : List Tree}
    (h : getSubSignals b u = some ss) (hs : s ∈ ss) :
    ∃ n br, u = .node n br ∧ (s ∈ br ∨ ∃ l ∈ br, s ∈ listElements l) := by
  unfold getSubSignals at h
  split at h
  all_goals cases h
  all_goals refine ⟨_, _, rfl, ?_⟩
  all_goals first
    | exact .inl hs
    | (simp at hs; done)
    | exact .inr ⟨_, List.mem_cons_of_mem _ (List.mem_singleton_self _), hs⟩
    | exact .inl (by simp at hs ⊢; tauto)

/-- The sub-signals of a signal are smaller. -/
theorem size_lt_of_mem_getSubSignals {b : Bool} {u : Tree} {ss : List Tree}
    (h : getSubSignals b u = some ss) {s : Tree} (hs : s ∈ ss) : s.size < u.size := by
  obtain ⟨n, br, rfl, hmem⟩ := mem_branches_of_getSubSignals h hs
  obtain hmem | ⟨l, hl, hmem⟩ := hmem
  · exact size_lt_of_mem hmem
  · exact (size_lt_of_mem_listElements hmem).trans (size_lt_of_mem hl)

/-- What is below a signal is in its tree. -/
theorem mem_subtrees_of_getSubSignals {b : Bool} {t c : Tree} {ss : List Tree}
    (h : getSubSignals b t = some ss) (hc : c ∈ ss) : c ∈ subtrees t := by
  obtain ⟨n, br, rfl, hmem⟩ := mem_branches_of_getSubSignals h hc
  obtain hmem | ⟨l, hl, hmem⟩ := hmem
  · exact mem_subtrees_branch hmem (mem_subtrees_self c)
  · exact mem_subtrees_branch hl (mem_subtrees_listElements hmem)

end Faust
