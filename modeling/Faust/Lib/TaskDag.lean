import Mathlib.Algebra.Order.BigOperators.Group.Finset
import Mathlib.Data.Finset.Lattice.Fold
import Mathlib.Tactic.Common

/-!
# Finite dependency graphs with a last task

The tasks of a graph depend on other tasks, without cycles, and every task is needed, through
other tasks, by the last one. What has been done is a set that contains the predecessors of
its members.

A ledger tells how far the work on a graph is: each task done is announced to the tasks that
depend on it, and a task becomes ready when nothing is left to be announced to it. A balanced
ledger holds every ready task once.

The last part counts the occurrences of things in a finite family, of which one member is
replaced at a time.
-/

/-- Tasks, what each of them and a last task depend on, and a rank that decreases along
dependencies. -/
structure TaskDag (T : Type*) [DecidableEq T] where
  tasks : Finset T
  last : T
  preds : T → Finset T
  rank : T → ℕ
  last_notMem : last ∉ tasks
  preds_subset : ∀ t, preds t ⊆ tasks
  rank_lt : ∀ t, ∀ p ∈ preds t, rank p < rank t
  used : ∀ t ∈ tasks, ∃ s, (s ∈ tasks ∨ s = last) ∧ t ∈ preds s

namespace TaskDag

variable {T : Type*} [DecidableEq T] (D : TaskDag T)

/-- A task or the last task. -/
def IsTask (t : T) : Prop := t ∈ D.tasks ∨ t = D.last

/-- A set of tasks that contains the predecessors of its members. -/
def Closed (done : T → Prop) : Prop := ∀ t, D.IsTask t → done t → ∀ p ∈ D.preds t, done p

variable {D} {done : T → Prop}

/-- When the predecessors of the last task are done, all tasks are. -/
theorem all_of_last (hclosed : D.Closed done) (hlast : ∀ p ∈ D.preds D.last, done p) :
    ∀ t ∈ D.tasks, done t := by
  obtain ⟨n, hn⟩ : ∃ n, ∀ t ∈ D.tasks, D.rank t ≤ n := ⟨D.tasks.sup D.rank, fun t ht =>
    Finset.le_sup ht⟩
  -- by induction on how far the rank is from the largest one
  have hind : ∀ k, ∀ t ∈ D.tasks, n - D.rank t = k → done t := by
    intro k
    induction k using Nat.strong_induction_on with
    | _ k ih =>
      intro t ht hk
      obtain ⟨s, hs | rfl, hts⟩ := D.used t ht
      · have hlt := D.rank_lt s t hts
        have hle := hn s hs
        exact hclosed s (.inl hs) (ih (n - D.rank s) (by omega) s hs rfl) t hts
      · exact hlast t hts
  exact fun t ht => hind _ t ht rfl

/-- When no task without predecessors is done, none is. -/
theorem none_of_sources (hclosed : D.Closed done)
    (hsource : ∀ t, D.IsTask t → D.preds t = ∅ → ¬ done t) : ∀ t, D.IsTask t → ¬ done t := by
  intro t
  induction hk : D.rank t using Nat.strong_induction_on generalizing t with
  | _ k ih =>
    intro ht hdone
    rcases (D.preds t).eq_empty_or_nonempty with h | ⟨p, hp⟩
    · exact hsource t ht h hdone
    · exact ih (D.rank p) (hk ▸ D.rank_lt t p hp) p rfl (.inl (D.preds_subset t hp))
        (hclosed t ht hdone p hp)

/-- Some task that is not done has all its predecessors done. -/
theorem exists_ready {t : T} (ht : D.IsTask t) (hnot : ¬ done t) :
    ∃ s, D.IsTask s ∧ ¬ done s ∧ ∀ p ∈ D.preds s, done p := by
  induction hk : D.rank t using Nat.strong_induction_on generalizing t with
  | _ k ih =>
    by_cases h : ∀ p ∈ D.preds t, done p
    · exact ⟨t, ht, hnot, h⟩
    · push Not at h
      obtain ⟨p, hp, hpd⟩ := h
      exact ih (D.rank p) (hk ▸ D.rank_lt t p hp) (.inl (D.preds_subset t hp)) hpd rfl

end TaskDag

/-! ## Ledgers -/

/-- How often a task is about to be announced an input, how often it is held as a ready task,
and which tasks are done. -/
@[ext]
structure Ledger (T : Type*) where
  announced : T → ℕ
  tokens : T → ℕ
  done : Finset T

namespace Ledger

variable {T : Type*} [DecidableEq T] (D : TaskDag T)

/-- What a task waits for: announcements under way, and tasks that are not done. -/
def pending (L : Ledger T) (t : T) : ℕ := L.announced t + (D.preds t \ L.done).card

/-- Every task for which nothing is pending is held once or done, and no other is. -/
structure Balanced (L : Ledger T) : Prop where
  balance : ∀ t, D.IsTask t →
    L.tokens t + (if t ∈ L.done then 1 else 0) = if L.pending D t = 0 then 1 else 0
  bound : ∀ t, D.IsTask t → L.pending D t ≤ max 1 (D.preds t).card
  isTask : ∀ t, 0 < L.tokens t → D.IsTask t
  done_subset : L.done ⊆ D.tasks

/-- An announcement to `t` is made. When it was the last one, `t` becomes ready. -/
structure Announce (L L' : Ledger T) (t : T) : Prop where
  announced : ∀ u, L'.announced u + (if u = t then 1 else 0) = L.announced u
  tokens : ∀ u, L'.tokens u = L.tokens u + if u = t ∧ L.pending D t = 1 then 1 else 0
  done : L'.done = L.done

/-- The ready task `t` is done. It is about to be announced to the tasks that depend on it. -/
structure Run (L L' : Ledger T) (t : T) : Prop where
  announced : ∀ u, L'.announced u = L.announced u + if t ∈ D.preds u then 1 else 0
  tokens : ∀ u, L'.tokens u + (if u = t then 1 else 0) = L.tokens u
  done : L'.done = insert t L.done

/-- The work begins: the tasks that depend on none are about to be announced. -/
structure Start (L : Ledger T) : Prop where
  announced : ∀ t, D.IsTask t → L.announced t = if D.preds t = ∅ then 1 else 0
  tokens : ∀ t, L.tokens t = 0
  done : L.done = ∅

variable {D} {L L' : Ledger T} {t : T}

lemma Announce.pending (h : L.Announce D L' t) (u : T) :
    L'.pending D u + (if u = t then 1 else 0) = L.pending D u := by
  have := h.announced u
  rw [Ledger.pending, Ledger.pending, h.done]
  omega

lemma Run.pending (h : L.Run D L' t) (ht : t ∉ L.done) (u : T) :
    L'.pending D u = L.pending D u := by
  rw [Ledger.pending, Ledger.pending, h.announced, h.done, Finset.sdiff_insert]
  by_cases htu : t ∈ D.preds u
  · have hmem : t ∈ D.preds u \ L.done := Finset.mem_sdiff.mpr ⟨htu, ht⟩
    have := Finset.card_erase_add_one hmem
    rw [if_pos htu]
    omega
  · rw [if_neg htu, Finset.erase_eq_of_notMem fun hmem => htu (Finset.mem_sdiff.mp hmem).1]
    omega

namespace Balanced

lemma pending_eq_zero (h : L.Balanced D) (ht : 0 < L.tokens t) : L.pending D t = 0 := by
  have := h.balance t (h.isTask t ht)
  by_contra hp
  rw [if_neg hp] at this
  omega

lemma tokens_le_one (h : L.Balanced D) (t : T) : L.tokens t ≤ 1 := by
  by_contra hlt
  have := h.balance t (h.isTask t (by omega))
  split at this <;> split at this <;> omega

/-- A task that is held is not done. -/
lemma notMem_done (h : L.Balanced D) (ht : 0 < L.tokens t) : t ∉ L.done := by
  intro hdone
  have := h.balance t (h.isTask t ht)
  rw [if_pos hdone] at this
  split at this <;> omega

/-- What a task that is held depends on is done. -/
lemma preds_subset_done (h : L.Balanced D) (ht : 0 < L.tokens t) : D.preds t ⊆ L.done := by
  have := h.pending_eq_zero ht
  rw [pending] at this
  exact Finset.sdiff_eq_empty_iff_subset.mp (Finset.card_eq_zero.mp (by omega))

lemma tokens_eq_zero (h : L.Balanced D) (hp : L.pending D t ≠ 0) : L.tokens t = 0 := by
  by_contra ht
  exact hp (h.pending_eq_zero (by omega))

lemma closed (h : L.Balanced D) : D.Closed (· ∈ L.done) := by
  intro t ht hdone p hp
  have := h.balance t ht
  rw [if_pos hdone] at this
  by_contra hnot
  have hpos : 0 < (D.preds t \ L.done).card :=
    Finset.card_pos.mpr ⟨p, Finset.mem_sdiff.mpr ⟨hp, hnot⟩⟩
  rw [if_neg (by rw [pending]; omega)] at this
  omega

/-- As long as a task without inputs is to be announced, nothing is done. -/
lemma done_eq_empty (h : L.Balanced D)
    (hsource : ∀ t, D.IsTask t → D.preds t = ∅ → 0 < L.announced t) : L.done = ∅ := by
  refine Finset.eq_empty_of_forall_notMem fun t ht => ?_
  refine TaskDag.none_of_sources h.closed (fun u hu hpreds hdone => ?_) t
    (.inl (h.done_subset ht)) ht
  have := h.balance u hu
  have := hsource u hu hpreds
  rw [if_pos hdone, if_neg (by rw [pending]; omega)] at *
  omega

/-- ... and no task is held. -/
lemma tokens_eq_zero_of_sources (h : L.Balanced D)
    (hsource : ∀ t, D.IsTask t → D.preds t = ∅ → 0 < L.announced t) (t : T) :
    L.tokens t = 0 := by
  by_contra ht
  have htask := h.isTask t (by omega)
  have hp := h.pending_eq_zero (t := t) (by omega)
  have hsub := h.preds_subset_done (t := t) (by omega)
  rw [h.done_eq_empty hsource, Finset.subset_empty] at hsub
  have := hsource t htask hsub
  rw [pending] at hp
  omega

/-- ... and nothing is announced to a task with several inputs. -/
lemma announced_eq_zero_of_sources (h : L.Balanced D)
    (hsource : ∀ t, D.IsTask t → D.preds t = ∅ → 0 < L.announced t) (ht : D.IsTask t)
    (hlt : 1 < (D.preds t).card) : L.announced t = 0 := by
  have := h.bound t ht
  rw [pending, h.done_eq_empty hsource, Finset.sdiff_empty] at this
  omega

theorem announce (h : L.Balanced D) (hs : L.Announce D L' t) (ht : D.IsTask t) :
    L'.Balanced D := by
  refine ⟨fun u hu => ?_, fun u hu => ?_, fun u hu => ?_, hs.done ▸ h.done_subset⟩
  · have hbal := h.balance u hu
    have hpend := hs.pending u
    rw [hs.tokens, hs.done]
    by_cases hut : u = t
    · subst hut
      rw [if_pos rfl] at hpend
      have hwas : ¬ L.pending D u = 0 := by omega
      rw [if_neg hwas] at hbal
      by_cases hp : L.pending D u = 1
      · have hnow : L'.pending D u = 0 := by omega
        rw [if_pos ⟨rfl, hp⟩, if_pos hnow]
        omega
      · have hnow : ¬ L'.pending D u = 0 := by omega
        rw [if_neg (fun hc => hp hc.2), if_neg hnow]
        omega
    · rw [if_neg hut] at hpend
      rw [if_neg (by tauto)]
      rw [Nat.add_zero] at hpend ⊢
      rw [hpend]
      exact hbal
  · have := h.bound u hu
    have := hs.pending u
    omega
  · rw [hs.tokens] at hu
    by_cases hut : u = t
    · exact hut ▸ ht
    · rw [if_neg (by tauto)] at hu
      exact h.isTask u hu

theorem run (h : L.Balanced D) (hs : L.Run D L' t) (ht : t ∈ D.tasks) : L'.Balanced D := by
  have hpos : 0 < L.tokens t := by
    have := hs.tokens t
    rw [if_pos rfl] at this
    omega
  have hpend := hs.pending (h.notMem_done hpos)
  refine ⟨fun u hu => ?_, fun u hu => ?_, fun u hu => ?_, ?_⟩
  · have hbal := h.balance u hu
    have htok := hs.tokens u
    rw [hpend, hs.done]
    by_cases hut : u = t
    · subst hut
      rw [if_neg (h.notMem_done hpos)] at hbal
      rw [if_pos rfl] at htok
      rw [if_pos (Finset.mem_insert_self _ _)]
      omega
    · rw [if_neg hut] at htok
      simp only [Finset.mem_insert, hut, false_or]
      omega
  · rw [hpend]
    exact h.bound u hu
  · have := hs.tokens u
    exact h.isTask u (by omega)
  · rw [hs.done]
    exact Finset.insert_subset ht h.done_subset

/-- When the last task is held everything else is done, and nothing is left to announce. -/
theorem last (h : L.Balanced D) (ht : 0 < L.tokens D.last) :
    L.done = D.tasks ∧ ∀ u, D.IsTask u → L.announced u = 0 ∧
      L.tokens u = if u = D.last then 1 else 0 := by
  have hall := TaskDag.all_of_last h.closed (h.preds_subset_done ht)
  have hdone : L.done = D.tasks := h.done_subset.antisymm hall
  refine ⟨hdone, fun u hu => ?_⟩
  have hsub : D.preds u \ L.done = ∅ := by
    rw [hdone, Finset.sdiff_eq_empty_iff_subset]
    exact D.preds_subset u
  have hbal := h.balance u hu
  rcases hu with hu | rfl
  · have hne : u ≠ D.last := fun heq => D.last_notMem (heq ▸ hu)
    rw [if_pos (hdone ▸ hu), pending, hsub, Finset.card_empty] at hbal
    rw [if_neg hne]
    split at hbal <;> omega
  · have hp := h.pending_eq_zero ht
    have := h.tokens_le_one D.last
    rw [pending, hsub, Finset.card_empty] at hp
    rw [if_pos rfl]
    omega

theorem start (h : L.Start D) : L.Balanced D := by
  have hp : ∀ t, D.IsTask t → L.pending D t = max 1 (D.preds t).card := by
    intro t ht
    rw [pending, h.announced t ht, h.done, Finset.sdiff_empty]
    split
    · simp_all
    · rename_i hne
      have := Finset.card_pos.mpr (Finset.nonempty_iff_ne_empty.mpr hne)
      omega
  refine ⟨fun t ht => ?_, fun t ht => (hp t ht).le, fun t ht => ?_, ?_⟩
  · rw [h.tokens, h.done, hp t ht, if_neg (Finset.notMem_empty t), if_neg (by omega)]
  · rw [h.tokens] at ht
    omega
  · rw [h.done]
    exact Finset.empty_subset _

/-- When nothing is about to be announced, some task is held. -/
theorem exists_token (h : L.Balanced D) (hann : ∀ t, D.IsTask t → L.announced t = 0) :
    ∃ t, 0 < L.tokens t := by
  have hlast : D.last ∉ L.done := fun hm => D.last_notMem (h.done_subset hm)
  obtain ⟨t, ht, hnot, hpreds⟩ : ∃ t, D.IsTask t ∧ t ∉ L.done ∧ ∀ p ∈ D.preds t, p ∈ L.done :=
    TaskDag.exists_ready (.inr rfl) hlast
  refine ⟨t, ?_⟩
  have := h.balance t ht
  have hsub : D.preds t \ L.done = ∅ := Finset.sdiff_eq_empty_iff_subset.mpr hpreds
  rw [if_neg hnot, pending, hann t ht, hsub, Finset.card_empty, if_pos rfl] at this
  omega

end Balanced

end Ledger

/-! ## Counting in a family -/

namespace Family

open Finset

variable {α : Type*} {n : ℕ}

/-- Replacing one member of a family changes a sum over it by that member's share. -/
theorem sum_update (f : α → ℕ) (x : ℕ → α) {i : ℕ} (hi : i < n) (a : α) :
    ∑ j ∈ range n, f (Function.update x i a j) + f (x i) = ∑ j ∈ range n, f (x j) + f a := by
  have hmem : i ∈ range n := mem_range.mpr hi
  have hrest : ∑ j ∈ (range n).erase i, f (Function.update x i a j) =
      ∑ j ∈ (range n).erase i, f (x j) :=
    sum_congr rfl fun j hj => by rw [Function.update_of_ne (ne_of_mem_erase hj)]
  rw [← add_sum_erase _ _ hmem, ← add_sum_erase _ (fun j => f (x j)) hmem, hrest,
    Function.update_self]
  omega

/-- A member has no more than the whole. -/
theorem le_sum (f : α → ℕ) (x : ℕ → α) {i : ℕ} (hi : i < n) : f (x i) ≤ ∑ j ∈ range n, f (x j) :=
  single_le_sum (fun j _ => Nat.zero_le (f (x j))) (mem_range.mpr hi)

/-- Nor have two members together. -/
theorem add_le_sum (f : α → ℕ) (x : ℕ → α) {i k : ℕ} (hi : i < n) (hk : k < n) (hne : i ≠ k) :
    f (x i) + f (x k) ≤ ∑ j ∈ range n, f (x j) := by
  have hsub : {i, k} ⊆ range n := by
    intro j hj
    rcases mem_insert.mp hj with rfl | hj
    · exact mem_range.mpr hi
    · rw [mem_singleton.mp hj]
      exact mem_range.mpr hk
  rw [← sum_pair (f := fun j => f (x j)) hne]
  exact sum_le_sum_of_subset hsub

end Family
