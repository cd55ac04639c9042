import Mathlib.Data.List.GetD
import Mathlib.Data.List.Sort
import Mathlib.Data.List.Nodup
import Mathlib.Logic.Function.Basic
import Mathlib.Tactic.Common

/-!
# Loops and their dependencies (`code_loop.hh`, `code_container.cpp`)

A loop is named by its address. `sortGraph` arranges the loops by level: a loop comes at a
smaller level than the loops it depends on, and the loops of level 0 are the last ones.
`computeForwardDAG` numbers the loops and computes who depends on them.
-/

namespace Faust

/-- `lclgraph`: the loops by level, and the loops each of them depends on, as `sortGraph`
leaves them. -/
structure LoopGraph where
  levels : List (List ℕ)
  backward : ℕ → List ℕ
  last_ne_nil : levels.headD [] ≠ []
  nodup : levels.flatten.Nodup
  nodup_backward : ∀ p, (backward p).Nodup
  /-- A loop comes after the loops it depends on. -/
  deeper : ∀ l, ∀ p ∈ levels.getD l [], ∀ q ∈ backward p, ∃ l' > l, q ∈ levels.getD l' []
  /-- Every loop but those of level 0 was put there for a loop that depends on it. -/
  used : ∀ l, ∀ p ∈ levels.getD (l + 1) [], ∃ q ∈ levels.flatten, p ∈ backward q

namespace LoopGraph

/-- The loops in the order in which they are visited, from the deepest level. -/
def order (G : LoopGraph) : List ℕ := G.levels.reverse.flatten

/-- The loops of level 0. -/
def lastLevel (G : LoopGraph) : List ℕ := G.levels.headD []

/-- `lclset::insert`, on a set kept in the order of addresses. -/
def insertLoop (p : ℕ) (s : List ℕ) : List ℕ := if p ∈ s then s else s.orderedInsert (· ≤ ·) p

/-- What `computeForwardDAG` computes: `fIndex` and `fForwardLoopDependencies` of each loop,
the numbers of the ready loops and the next number. -/
structure ForwardDAG where
  index : ℕ → ℕ
  forward : ℕ → List ℕ
  readyLoop : List ℕ
  loopIndex : ℕ

/-- `START_TASK_MAX`. -/
def startTaskMax : ℕ := 2

/-- One turn of `computeForwardDAG`, at the loop `p`. -/
def visit (G : LoopGraph) (d : ForwardDAG) (p : ℕ) : ForwardDAG where
  forward := (G.backward p).foldl (fun f q => Function.update f q (insertLoop p (f q))) d.forward
  index := Function.update d.index p d.loopIndex
  readyLoop := if (G.backward p).length = 0 then d.readyLoop ++ [d.loopIndex] else d.readyLoop
  loopIndex := d.loopIndex + 1

/-- `computeForwardDAG`. -/
def computeForwardDAG (G : LoopGraph) : ForwardDAG :=
  G.order.foldl G.visit ⟨fun _ => 0, fun _ => [], [], startTaskMax⟩

/-- `getIndex()`. -/
def index (G : LoopGraph) (p : ℕ) : ℕ := G.computeForwardDAG.index p

/-- `getForwardLoopDependencies()`. -/
def forward (G : LoopGraph) (p : ℕ) : List ℕ := G.computeForwardDAG.forward p

/-- The ready loops, by number. -/
def readyLoop (G : LoopGraph) : List ℕ := G.computeForwardDAG.readyLoop

variable {G : LoopGraph}

/-! ## The forward dependencies -/

@[simp] lemma mem_insertLoop {p q : ℕ} {s : List ℕ} : q ∈ insertLoop p s ↔ q = p ∨ q ∈ s := by
  unfold insertLoop
  split
  · constructor
    · exact .inr
    · rintro (rfl | h) <;> assumption
  · rw [List.mem_orderedInsert]

lemma nodup_insertLoop {p : ℕ} {s : List ℕ} (h : s.Nodup) : (insertLoop p s).Nodup := by
  unfold insertLoop
  split
  · exact h
  · rename_i hp
    exact (List.perm_orderedInsert _ p s).nodup_iff.mpr (List.nodup_cons.mpr ⟨hp, h⟩)

lemma mem_foldl_insertLoop (p : ℕ) (qs : List ℕ) : ∀ (f : ℕ → List ℕ) {x y : ℕ},
    y ∈ qs.foldl (fun f q => Function.update f q (insertLoop p (f q))) f x ↔
      y ∈ f x ∨ y = p ∧ x ∈ qs := by
  induction qs with
  | nil => simp
  | cons q qs ih =>
    intro f x y
    rw [List.foldl_cons, ih]
    by_cases hx : x = q
    · subst hx
      simp only [Function.update_self, mem_insertLoop, List.mem_cons, true_or]
      tauto
    · rw [Function.update_of_ne hx]
      simp [hx]

lemma nodup_foldl_insertLoop (p : ℕ) (qs : List ℕ) : ∀ {f : ℕ → List ℕ}, (∀ x, (f x).Nodup) →
    ∀ x, (qs.foldl (fun f q => Function.update f q (insertLoop p (f q))) f x).Nodup := by
  induction qs with
  | nil => exact fun h => h
  | cons q qs ih =>
    intro f h
    refine ih fun x => ?_
    show (Function.update f q (insertLoop p (f q)) x).Nodup
    by_cases hx : x = q
    · subst hx
      rw [Function.update_self]
      exact nodup_insertLoop (h x)
    · rw [Function.update_of_ne hx]
      exact h x

/-- What is known after a number of turns. -/
structure Visited (G : LoopGraph) (ps : List ℕ) (d : ForwardDAG) : Prop where
  mem_forward : ∀ x y, y ∈ d.forward x ↔ y ∈ ps ∧ x ∈ G.backward y
  nodup_forward : ∀ x, (d.forward x).Nodup
  index : ps.Nodup → ∀ p ∈ ps, d.index p = startTaskMax + ps.idxOf p
  readyLoop : ps.Nodup → d.readyLoop = (ps.filter (G.backward · = [])).map d.index
  loopIndex : d.loopIndex = startTaskMax + ps.length

lemma Visited.visit {ps : List ℕ} {d : ForwardDAG} (h : Visited G ps d) (p : ℕ) :
    Visited G (ps ++ [p]) (G.visit d p) := by
  have hnew : (ps ++ [p]).Nodup → ∀ q ∈ ps, Function.update d.index p d.loopIndex q = d.index q := by
    intro hnd q hq
    refine Function.update_of_ne ?_ _ _
    rintro rfl
    exact (List.nodup_append.mp hnd).2.2 q hq q (by simp) rfl
  refine ⟨fun x y => ?_, ?_, ?_, ?_, ?_⟩
  · rw [LoopGraph.visit, mem_foldl_insertLoop, h.mem_forward]
    simp only [List.mem_append, List.mem_singleton]
    constructor
    · rintro (⟨hy, hx⟩ | ⟨rfl, hx⟩)
      · exact ⟨.inl hy, hx⟩
      · exact ⟨.inr rfl, hx⟩
    · rintro ⟨hy | rfl, hx⟩
      · exact .inl ⟨hy, hx⟩
      · exact .inr ⟨rfl, hx⟩
  · exact nodup_foldl_insertLoop p _ h.nodup_forward
  · intro hnd q hq
    show Function.update d.index p d.loopIndex q = _
    rcases List.mem_append.mp hq with hq' | hq'
    · rw [hnew hnd q hq', List.idxOf_append_of_mem hq']
      exact h.index (List.nodup_append.mp hnd).1 q hq'
    · obtain rfl := List.mem_singleton.mp hq'
      have hq : q ∉ ps := fun hm => (List.nodup_append.mp hnd).2.2 q hm q (by simp) rfl
      rw [Function.update_self, h.loopIndex, List.idxOf_append_of_notMem hq]
      simp
  · intro hnd
    have hps : (ps.filter (G.backward · = [])).map (Function.update d.index p d.loopIndex) =
        d.readyLoop := by
      rw [h.readyLoop (List.nodup_append.mp hnd).1]
      exact List.map_congr_left fun q hq => hnew hnd q (List.mem_filter.mp hq).1
    simp only [LoopGraph.visit, List.length_eq_zero_iff, List.filter_append, List.map_append, hps]
    by_cases hp : G.backward p = []
    · simp [hp]
    · simp [hp]
  · rw [LoopGraph.visit, h.loopIndex, List.length_append]
    simp [Nat.add_assoc]

lemma visited_foldl (qs : List ℕ) : ∀ {ps : List ℕ} {d : ForwardDAG}, Visited G ps d →
    Visited G (ps ++ qs) (qs.foldl G.visit d) := by
  induction qs with
  | nil =>
    intro ps d h
    simpa using h
  | cons q qs ih =>
    intro ps d h
    rw [List.append_cons]
    exact ih (h.visit q)

/-- What `computeForwardDAG` leaves. -/
theorem visited_computeForwardDAG (G : LoopGraph) : Visited G G.order G.computeForwardDAG := by
  have hstart : Visited G [] ⟨fun _ => 0, fun _ => [], [], startTaskMax⟩ :=
    ⟨by simp, by simp, by simp, by simp, by simp⟩
  exact visited_foldl G.order hstart

lemma mem_order {p : ℕ} : p ∈ G.order ↔ p ∈ G.levels.flatten := by
  simp [order]

lemma nodup_order : G.order.Nodup :=
  ((List.reverse_perm G.levels).flatten.nodup_iff).mpr G.nodup

/-- The forward dependencies are the loops that depend on the loop. -/
theorem mem_forward {p q : ℕ} : q ∈ G.forward p ↔ q ∈ G.order ∧ p ∈ G.backward q :=
  (visited_computeForwardDAG G).mem_forward p q

theorem nodup_forward (p : ℕ) : (G.forward p).Nodup :=
  (visited_computeForwardDAG G).nodup_forward p

/-- The loops are numbered in the order of the visit. -/
theorem index_eq {p : ℕ} (hp : p ∈ G.order) : G.index p = startTaskMax + G.order.idxOf p :=
  (visited_computeForwardDAG G).index nodup_order p hp

/-- The ready loops are those that depend on none. -/
theorem readyLoop_eq : G.readyLoop = (G.order.filter (G.backward · = [])).map G.index :=
  (visited_computeForwardDAG G).readyLoop nodup_order

lemma index_inj {p q : ℕ} (hp : p ∈ G.order) (hq : q ∈ G.order) (h : G.index p = G.index q) :
    p = q := by
  rw [index_eq hp, index_eq hq] at h
  exact (List.idxOf_inj hp).mp (by omega)

lemma two_le_index {p : ℕ} (hp : p ∈ G.order) : 2 ≤ G.index p := by
  rw [index_eq hp, startTaskMax]
  omega

/-- What a loop depends on comes before it in the order of the visit. -/
lemma mem_order_of_mem_backward {p q : ℕ} (hp : p ∈ G.order) (hq : q ∈ G.backward p) :
    q ∈ G.order := by
  rw [mem_order, List.mem_flatten] at hp
  obtain ⟨level, hlevel, hp⟩ := hp
  obtain ⟨l, hl, rfl⟩ := List.mem_iff_getElem.mp hlevel
  obtain ⟨l', -, hq'⟩ := G.deeper l p (by rwa [List.getD_eq_getElem _ _ hl]) q hq
  rw [mem_order, List.mem_flatten]
  by_cases hl' : l' < G.levels.length
  · rw [List.getD_eq_getElem _ _ hl'] at hq'
    exact ⟨_, List.getElem_mem hl', hq'⟩
  · rw [List.getD_eq_default _ _ (by omega)] at hq'
    cases hq'

end LoopGraph

end Faust
