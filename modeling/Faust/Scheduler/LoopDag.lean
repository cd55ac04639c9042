import Faust.Generator.Wss
import Faust.Lib.TaskDag

/-!
# The dependencies between tasks

The tasks are the numbers of the loops and the last task, which depends on the loops of the
last level. They form a `TaskDag`: the number of a loop is larger than those of the loops it
depends on. The generated code announces a loop to each task that depends on it, once.
-/

namespace Faust.LoopGraph

variable (G : LoopGraph)

/-- What a task depends on. -/
def preds (t : ℕ) : List ℕ :=
  if t = lastTaskIndex then G.lastLevel.map G.index
  else match G.order.find? (G.index · = t) with
    | some p => (G.backward p).map G.index
    | none => []

variable {G}

lemma mem_order_of_mem_lastLevel {p : ℕ} (hp : p ∈ G.lastLevel) : p ∈ G.order := by
  rw [order_eq]
  exact List.mem_append_right _ hp

lemma index_ne_last {p : ℕ} (hp : p ∈ G.order) : G.index p ≠ lastTaskIndex := by
  have := two_le_index hp
  rw [lastTaskIndex]
  omega

@[simp] lemma preds_last : G.preds lastTaskIndex = G.lastLevel.map G.index := if_pos rfl

lemma preds_index {p : ℕ} (hp : p ∈ G.order) :
    G.preds (G.index p) = (G.backward p).map G.index := by
  have hfind : G.order.find? (G.index · = G.index p) = some p := by
    obtain ⟨q, hq⟩ := Option.isSome_iff_exists.mp
      (List.find?_isSome.mpr ⟨p, hp, decide_eq_true rfl⟩ :
        (G.order.find? (G.index · = G.index p)).isSome)
    have hqp := index_inj (List.mem_of_find?_eq_some hq) hp (by simpa using List.find?_some hq)
    rw [hq, hqp]
  rw [preds, if_neg (index_ne_last hp), hfind]

/-- A loop is numbered after the loops it depends on. -/
lemma index_lt_of_mem_backward {p q : ℕ} (hp : p ∈ G.order) (hq : q ∈ G.backward p) :
    G.index q < G.index p := by
  have hqo := mem_order_of_mem_backward hp hq
  rw [index_eq hp, index_eq hqo]
  refine Nat.add_lt_add_left ?_ _
  -- the levels deeper than that of `p` come first
  obtain ⟨level, hlevel, hpl⟩ := List.mem_flatten.mp (mem_order.mp hp)
  obtain ⟨l, hl, rfl⟩ := List.mem_iff_getElem.mp hlevel
  obtain ⟨l', hl', hql'⟩ := G.deeper l p (by rwa [List.getD_eq_getElem _ _ hl]) q hq
  have hlt' : l' < G.levels.length := by
    by_contra h
    rw [List.getD_eq_default _ _ (by omega)] at hql'
    cases hql'
  rw [List.getD_eq_getElem _ _ hlt'] at hql'
  have hsplit : G.order = (G.levels.drop (l + 1)).reverse.flatten ++
      (G.levels.take (l + 1)).reverse.flatten := by
    rw [← List.flatten_append, ← List.reverse_append, List.take_append_drop, order]
  have hqdrop : q ∈ (G.levels.drop (l + 1)).reverse.flatten := by
    refine List.mem_flatten.mpr ⟨G.levels[l'], ?_, hql'⟩
    rw [List.mem_reverse, List.mem_iff_getElem]
    exact ⟨l' - (l + 1), by simp; omega, by simp; congr 1; omega⟩
  have hptake : p ∈ (G.levels.take (l + 1)).reverse.flatten := by
    refine List.mem_flatten.mpr ⟨G.levels[l], ?_, hpl⟩
    rw [List.mem_reverse, List.mem_iff_getElem]
    exact ⟨l, by simp; omega, by simp⟩
  have hnd := nodup_order (G := G)
  rw [hsplit, List.nodup_append] at hnd
  have hpdrop : p ∉ (G.levels.drop (l + 1)).reverse.flatten := fun h => hnd.2.2 p h p hptake rfl
  rw [hsplit, List.idxOf_append_of_mem hqdrop, List.idxOf_append_of_notMem hpdrop]
  have := List.idxOf_lt_length_of_mem hqdrop
  omega

lemma nodup_preds (t : ℕ) : (G.preds t).Nodup := by
  unfold preds
  split
  · have hnd := nodup_order (G := G)
    rw [order_eq, List.nodup_append] at hnd
    exact hnd.2.1.map_on fun p hp q hq h =>
      index_inj (mem_order_of_mem_lastLevel hp) (mem_order_of_mem_lastLevel hq) h
  · split
    · rename_i p hp
      have hpo := List.mem_of_find?_eq_some hp
      exact (G.nodup_backward p).map_on fun q hq q' hq' h =>
        index_inj (mem_order_of_mem_backward hpo hq) (mem_order_of_mem_backward hpo hq') h
    · exact List.nodup_nil

lemma exists_of_mem_preds {t u : ℕ} (h : u ∈ G.preds t) :
    ∃ q ∈ G.order, G.index q = u ∧
      (t = lastTaskIndex ∧ q ∈ G.lastLevel ∨ ∃ p ∈ G.order, G.index p = t ∧ q ∈ G.backward p) := by
  unfold preds at h
  split at h
  · rename_i ht
    obtain ⟨q, hq, rfl⟩ := List.mem_map.mp h
    exact ⟨q, mem_order_of_mem_lastLevel hq, rfl, .inl ⟨ht, hq⟩⟩
  · split at h
    · rename_i p hp
      obtain ⟨q, hq, rfl⟩ := List.mem_map.mp h
      have hpo := List.mem_of_find?_eq_some hp
      exact ⟨q, mem_order_of_mem_backward hpo hq, rfl,
        .inr ⟨p, hpo, by simpa using List.find?_some hp, hq⟩⟩
    · cases h

/-- A loop that is not on the last level has a loop that depends on it. -/
lemma exists_forward {p : ℕ} (hp : p ∈ G.order) (hlast : p ∉ G.lastLevel) :
    ∃ q ∈ G.order, p ∈ G.backward q := by
  obtain ⟨level, hlevel, hpl⟩ := List.mem_flatten.mp (mem_order.mp hp)
  obtain ⟨l, hl, rfl⟩ := List.mem_iff_getElem.mp hlevel
  cases l with
  | zero =>
    exfalso
    refine hlast ?_
    rw [lastLevel, List.headD_eq_head?_getD, List.head?_eq_getElem?, List.getElem?_eq_getElem hl]
    exact hpl
  | succ l =>
    obtain ⟨q, hq, hpq⟩ := G.used l p (by rwa [List.getD_eq_getElem _ _ hl])
    exact ⟨q, mem_order.mpr hq, hpq⟩

/-- A loop of the last level has no loop that depends on it. -/
lemma notMem_backward_of_mem_lastLevel {p q : ℕ} (hp : p ∈ G.lastLevel) (hq : q ∈ G.order) :
    p ∉ G.backward q := by
  intro hpq
  obtain ⟨level, hlevel, hql⟩ := List.mem_flatten.mp (mem_order.mp hq)
  obtain ⟨l, hl, rfl⟩ := List.mem_iff_getElem.mp hlevel
  obtain ⟨l', hl', hpl'⟩ := G.deeper l q (by rwa [List.getD_eq_getElem _ _ hl]) p hpq
  -- the loop would be on two levels
  have hnd := G.nodup
  unfold lastLevel at hp
  cases hlevels : G.levels with
  | nil => simp [hlevels] at hp
  | cons level levels =>
    rw [hlevels] at hnd hpl' hp
    rw [List.flatten_cons, List.nodup_append] at hnd
    obtain ⟨k, rfl⟩ : ∃ k, l' = k + 1 := ⟨l' - 1, by omega⟩
    rw [List.getD_cons_succ] at hpl'
    have hmem : p ∈ levels.flatten := by
      by_cases hk : k < levels.length
      · rw [List.getD_eq_getElem _ _ hk] at hpl'
        exact List.mem_flatten.mpr ⟨_, List.getElem_mem hk, hpl'⟩
      · rw [List.getD_eq_default _ _ (by omega)] at hpl'
        cases hpl'
    exact hnd.2.2 p hp p hmem rfl

variable (G)

/-- The tasks and their dependencies. -/
def dag : TaskDag ℕ where
  tasks := (G.order.map G.index).toFinset
  last := lastTaskIndex
  preds t := (G.preds t).toFinset
  rank t := if t = lastTaskIndex then startTaskMax + G.order.length else t
  last_notMem h := by
    obtain ⟨p, hp, heq⟩ := List.mem_map.mp (List.mem_toFinset.mp h)
    exact index_ne_last hp heq
  preds_subset t u hu := by
    obtain ⟨q, hq, rfl, -⟩ := exists_of_mem_preds (List.mem_toFinset.mp hu)
    exact List.mem_toFinset.mpr (List.mem_map_of_mem hq)
  rank_lt t u hu := by
    obtain ⟨q, hq, rfl, ⟨rfl, -⟩ | ⟨p, hp, rfl, hqp⟩⟩ :=
      exists_of_mem_preds (List.mem_toFinset.mp hu)
    · rw [if_neg (index_ne_last hq), if_pos rfl, index_eq hq]
      exact Nat.add_lt_add_left (List.idxOf_lt_length_of_mem hq) _
    · rw [if_neg (index_ne_last hq), if_neg (index_ne_last hp)]
      exact index_lt_of_mem_backward hp hqp
  used t ht := by
    obtain ⟨p, hp, rfl⟩ := List.mem_map.mp (List.mem_toFinset.mp ht)
    by_cases hlast : p ∈ G.lastLevel
    · refine ⟨lastTaskIndex, .inr rfl, ?_⟩
      rw [preds_last, List.mem_toFinset]
      exact List.mem_map_of_mem hlast
    · obtain ⟨q, hq, hpq⟩ := exists_forward hp hlast
      refine ⟨G.index q, .inl (List.mem_toFinset.mpr (List.mem_map_of_mem hq)), ?_⟩
      rw [preds_index hq, List.mem_toFinset]
      exact List.mem_map_of_mem hpq

variable {G}

lemma isTask_index {p : ℕ} (hp : p ∈ G.order) : G.dag.IsTask (G.index p) :=
  .inl (List.mem_toFinset.mpr (List.mem_map_of_mem hp))

lemma isTask_last : G.dag.IsTask lastTaskIndex := .inr rfl

lemma isTask_iff {t : ℕ} : G.dag.IsTask t ↔ (∃ p ∈ G.order, G.index p = t) ∨ t = lastTaskIndex := by
  show t ∈ (G.order.map G.index).toFinset ∨ _ ↔ _
  rw [List.mem_toFinset, List.mem_map]
  rfl

@[simp] lemma card_preds (t : ℕ) : (G.dag.preds t).card = (G.preds t).length :=
  List.toFinset_card_of_nodup (nodup_preds t)

lemma mem_dag_preds {t u : ℕ} : u ∈ G.dag.preds t ↔ u ∈ G.preds t := List.mem_toFinset

lemma length_preds_index {p : ℕ} (hp : p ∈ G.order) :
    (G.preds (G.index p)).length = (G.backward p).length := by
  rw [preds_index hp, List.length_map]

/-- A loop's number is among the dependencies of the loops that depend on it. -/
lemma index_mem_preds_index {p q : ℕ} (hp : p ∈ G.order) (hq : q ∈ G.order) :
    G.index p ∈ G.preds (G.index q) ↔ p ∈ G.backward q := by
  rw [preds_index hq, List.mem_map]
  constructor
  · rintro ⟨p', hp', heq⟩
    rwa [← index_inj (mem_order_of_mem_backward hq hp') hp heq]
  · exact fun h => ⟨p, h, rfl⟩

lemma index_mem_preds_last {p : ℕ} (hp : p ∈ G.order) :
    G.index p ∈ G.preds lastTaskIndex ↔ p ∈ G.lastLevel := by
  rw [preds_last, List.mem_map]
  constructor
  · rintro ⟨p', hp', heq⟩
    rwa [← index_inj (mem_order_of_mem_lastLevel hp') hp heq]
  · exact fun h => ⟨p, h, rfl⟩

/-- The ready tasks are those without dependencies. -/
lemma mem_readyLoop {t : ℕ} : t ∈ G.readyLoop ↔ G.dag.IsTask t ∧ G.preds t = [] := by
  rw [readyLoop_eq, List.mem_map, isTask_iff]
  constructor
  · rintro ⟨p, hp, rfl⟩
    obtain ⟨hpo, hp⟩ := List.mem_filter.mp hp
    refine ⟨.inl ⟨p, hpo, rfl⟩, ?_⟩
    rw [preds_index hpo, List.map_eq_nil_iff]
    simpa using hp
  · rintro ⟨⟨p, hpo, rfl⟩ | rfl, h⟩
    · rw [preds_index hpo, List.map_eq_nil_iff] at h
      exact ⟨p, List.mem_filter.mpr ⟨hpo, by simpa using h⟩, rfl⟩
    · rw [preds_last, List.map_eq_nil_iff] at h
      exact absurd h G.last_ne_nil

lemma nodup_readyLoop : G.readyLoop.Nodup := by
  rw [readyLoop_eq]
  exact (nodup_order.filter _).map_on fun p hp q hq h =>
    index_inj (List.mem_filter.mp hp).1 (List.mem_filter.mp hq).1 h

end Faust.LoopGraph
