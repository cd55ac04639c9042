import Mathlib.Data.List.Nodup
import Mathlib.Data.Set.Card
import Mathlib.Order.Interval.Finset.Nat
import Mathlib.Logic.Relation
import Mathlib.Tactic.Common

/-!
# Graphs without cycles

A graph is given by the list of the successors of each vertex. Below a root from which finitely
many vertices and no cycle are reached, paths have a bounded length.
-/

namespace DepGraph

open Relation

variable {V : Type*} (succ : V → List V)

/-- A step of a path. -/
def Edge (u v : V) : Prop := v ∈ succ u

/-- The vertices at the end of a path. -/
def Reach (root v : V) : Prop := ReflTransGen (Edge succ) root v

/-- The vertices at the end of a path of `k` steps. -/
def AtDepth (root : V) : ℕ → V → Prop
  | 0, v => v = root
  | k + 1, v => ∃ u, AtDepth root k u ∧ v ∈ succ u

/-- Finitely many vertices are reached, and none of them from itself. -/
structure Acyclic (root : V) : Prop where
  finite : {v | Reach succ root v}.Finite
  not_trans : ∀ v, Reach succ root v → ¬ TransGen (Edge succ) v v

/-- In a list, each vertex comes after its successors. -/
def Respects (l : List V) : Prop :=
  ∀ before v after, l = before ++ v :: after → ∀ u ∈ succ v, u ∈ before

variable {succ} {root u v : V} {k : ℕ}

lemma Reach.step (h : Reach succ root u) (hv : v ∈ succ u) : Reach succ root v :=
  ReflTransGen.tail h hv

lemma Reach.mono {succ' : V → List V} (h : Reach succ u v)
    (hsub : ∀ w, ∀ x ∈ succ w, x ∈ succ' w) : Reach succ' u v :=
  ReflTransGen.mono (fun w x => hsub w x) _ _ h

lemma AtDepth.reach (h : AtDepth succ root k v) : Reach succ root v := by
  induction k generalizing v with
  | zero =>
    obtain rfl : v = root := h
    exact .refl
  | succ k ih =>
    obtain ⟨u, hu, hv⟩ := h
    exact (ih hu).step hv

lemma Reach.atDepth (h : Reach succ root v) : ∃ k, AtDepth succ root k v := by
  unfold Reach at h
  induction h with
  | refl => exact ⟨0, rfl⟩
  | tail _ hv ih =>
    obtain ⟨k, hk⟩ := ih
    exact ⟨k + 1, _, hk, hv⟩

namespace Acyclic

/-- A number that decreases along paths. -/
theorem exists_rank (h : Acyclic succ root) :
    ∃ rank : V → ℕ, ∀ u v, Reach succ root u → v ∈ succ u → rank v < rank u := by
  refine ⟨fun u => {w | TransGen (Edge succ) u w}.ncard, fun u v hu hv => ?_⟩
  have hfin : {w | TransGen (Edge succ) u w}.Finite :=
    h.finite.subset fun w hw => ReflTransGen.trans hu hw.to_reflTransGen
  -- `v` is below `u`, and not below itself
  apply Set.ncard_lt_ncard _ hfin
  have hsub : {w | TransGen (Edge succ) v w} ⊆ {w | TransGen (Edge succ) u w} :=
    fun w hw => TransGen.head hv hw
  refine ⟨hsub, fun hback => ?_⟩
  have hself : v ∈ {w | TransGen (Edge succ) u w} := TransGen.single hv
  exact h.not_trans v (Reach.step hu hv) (hback hself)

/-- Paths from the root have a bounded length. -/
theorem exists_bound (h : Acyclic succ root) : ∃ n, ∀ k v, AtDepth succ root k v → k ≤ n := by
  obtain ⟨rank, hrank⟩ := h.exists_rank
  have hsum : ∀ k v, AtDepth succ root k v → rank v + k ≤ rank root := by
    intro k
    induction k with
    | zero =>
      rintro v rfl
      exact le_rfl
    | succ k ih =>
      rintro v ⟨u, hu, hv⟩
      have := ih u hu
      have := hrank u v hu.reach hv
      omega
  exact ⟨rank root, fun k v hv => by have := hsum k v hv; omega⟩

/-- What is reached is not on the way to it. -/
lemma not_edge_back (h : Acyclic succ root) (hu : Reach succ root u)
    (huv : ReflTransGen (Edge succ) u v) : u ∉ succ v :=
  fun hback => h.not_trans u hu (TransGen.tail' huv hback)

end Acyclic

/-- Numbers that decrease along the edges of a finite set that no edge leaves. -/
theorem acyclic_of_rank {s : Set V} (hfin : s.Finite) (rank : V → ℕ) (hroot : root ∈ s)
    (h : ∀ u ∈ s, ∀ v ∈ succ u, v ∈ s ∧ rank v < rank u) : Acyclic succ root := by
  have hmem : ∀ {v}, Reach succ root v → v ∈ s := by
    intro v hv
    induction hv with
    | refl => exact hroot
    | tail _ hv ih => exact (h _ ih _ hv).1
  have hle : ∀ {u v}, u ∈ s → Reach succ u v → rank v ≤ rank u := by
    intro u v hu huv
    have hboth : v ∈ s ∧ rank v ≤ rank u := by
      induction huv with
      | refl => exact ⟨hu, le_rfl⟩
      | tail _ hv ih => exact ⟨(h _ ih.1 _ hv).1, (h _ ih.1 _ hv).2.le.trans ih.2⟩
    exact hboth.2
  refine ⟨hfin.subset fun v hv => hmem hv, fun v hv hvv => ?_⟩
  obtain ⟨u, hu, huv⟩ := TransGen.head'_iff.mp hvv
  have hlt := h v (hmem hv) u hu
  have := hle hlt.1 huv
  omega

/-- Numbers whose successors are smaller. -/
theorem acyclic_of_lt {succ : ℕ → List ℕ} (h : ∀ u, ∀ v ∈ succ u, v < u) (root : ℕ) :
    Acyclic succ root := by
  apply acyclic_of_rank (Set.finite_Iic root) id Set.self_mem_Iic
  intro u hu v hv
  have hlt := h u v hv
  exact ⟨hlt.le.trans hu, hlt⟩

/-! ## Lists that respect a graph -/

lemma respects_nil : Respects succ ([] : List V) := by
  intro before v after heq
  simp at heq

lemma Respects.mono {succ' : V → List V} {l : List V} (h : Respects succ l)
    (hsub : ∀ v ∈ l, ∀ u ∈ succ' v, u ∈ succ v) : Respects succ' l := by
  intro before v after heq u hu
  have hv : v ∈ l := by
    rw [heq]
    exact List.mem_append_right _ List.mem_cons_self
  exact h before v after heq u (hsub v hv u hu)

lemma Respects.snoc {l : List V} (h : Respects succ l) (hv : ∀ u ∈ succ v, u ∈ l) :
    Respects succ (l ++ [v]) := by
  intro before w after heq u hu
  rcases List.eq_nil_or_concat after with rfl | ⟨after', a, rfl⟩
  · obtain ⟨rfl, hlast⟩ := List.append_inj' heq rfl
    obtain rfl : v = w := by simpa using hlast
    exact hv u hu
  · rw [List.concat_eq_append, ← List.cons_append, ← List.append_assoc] at heq
    exact h before w after' (List.append_inj' heq rfl).1 u hu

/-- A list made of layers, each of which comes after the layers that it needs. -/
lemma Respects.append {l l' : List V} (h : Respects succ l) (hv : ∀ v ∈ l', ∀ u ∈ succ v, u ∈ l) :
    Respects succ (l ++ l') := by
  induction l' using List.reverseRecOn with
  | nil => rwa [List.append_nil]
  | append_singleton l' v ih =>
    rw [← List.append_assoc]
    refine (ih fun w hw => hv w (List.mem_append_left _ hw)).snoc fun u hu => ?_
    exact List.mem_append_left _
      (hv v (List.mem_append_right _ (List.mem_singleton_self v)) u hu)

/-- A vertex comes after its successors. -/
theorem Respects.sublist {l : List V} (h : Respects succ l) (hv : v ∈ l) (hu : u ∈ succ v) :
    [u, v].Sublist l := by
  obtain ⟨before, after, rfl⟩ := List.append_of_mem hv
  have hmem : u ∈ before := h before v after rfl u hu
  show ([u] ++ [v]).Sublist (before ++ v :: after)
  exact (List.singleton_sublist.2 hmem).append (List.singleton_sublist.2 List.mem_cons_self)

/-- There is no cycle below a vertex of a list that respects the graph. -/
theorem Respects.acyclic {l : List V} (h : Respects succ l) (hnd : l.Nodup) (hroot : root ∈ l) :
    Acyclic succ root := by
  classical
  apply acyclic_of_rank (s := {v | v ∈ l}) l.finite_toSet (fun v => l.idxOf v) hroot
  intro v hv u hu
  obtain ⟨before, after, rfl⟩ := List.append_of_mem hv
  have hmem : u ∈ before := h before v after rfl u hu
  have hnot : v ∉ before := by
    intro hin
    exact (List.nodup_append.1 hnd).2.2 v hin v List.mem_cons_self rfl
  refine ⟨List.mem_append_left _ hmem, ?_⟩
  rw [List.idxOf_append_of_mem hmem, List.idxOf_append_of_notMem hnot]
  have := List.idxOf_lt_length_of_mem hmem
  omega

/-- Blocks in an order that respects what each block needs: a vertex of a block needs vertices that
are before it in the block, or a block that the block needs, which holds the vertex it is named
after. -/
theorem Respects.flatMap {succ' : V → List V} {blocks : V → List V} {order : List V}
    (h : Respects succ' order) (hself : ∀ b ∈ order, b ∈ blocks b)
    (hblock : ∀ b ∈ order, ∀ before v after, blocks b = before ++ v :: after →
      ∀ u ∈ succ v, u ∈ before ∨ u ∈ succ' b) :
    Respects succ (order.flatMap blocks) := by
  induction order using List.reverseRecOn with
  | nil => exact respects_nil
  | append_singleton order b ih =>
    have hinit : Respects succ (order.flatMap blocks) := by
      apply ih
      · intro before v after heq
        exact h before v (after ++ [b]) (by rw [heq]; simp)
      · exact fun c hc => hself c (List.mem_append_left _ hc)
      · exact fun c hc => hblock c (List.mem_append_left _ hc)
    have hb : b ∈ order ++ [b] := by simp
    intro before v after heq u hu
    rw [List.flatMap_append, List.flatMap_singleton] at heq
    rcases List.append_eq_append_iff.1 heq with ⟨before', rfl, htail⟩ | ⟨rest, hhead, htail⟩
    · -- the vertex is in the last block
      rcases hblock b hb before' v after htail u hu with hmem | hmem
      · exact List.mem_append_right _ hmem
      · have hprev : u ∈ order := h order b [] rfl u hmem
        exact List.mem_append_left _
          (List.mem_flatMap.2 ⟨u, hprev, hself u (List.mem_append_left _ hprev)⟩)
    · cases rest with
      | nil =>
        rw [List.append_nil] at hhead
        rw [List.nil_append] at htail
        rcases hblock b hb [] v after htail.symm u hu with hmem | hmem
        · simp at hmem
        · have hprev : u ∈ order := h order b [] rfl u hmem
          rw [← hhead]
          exact List.mem_flatMap.2 ⟨u, hprev, hself u (List.mem_append_left _ hprev)⟩
      | cons w rest =>
        obtain ⟨rfl, _⟩ := List.cons.inj htail
        exact hinit before v rest hhead u hu

end DepGraph
